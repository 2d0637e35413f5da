import Asper.Record.Strings

/-! # A record's strings come back

`record_string_round_trip`: whichever JSON escapes the writer uses for the bytes it escapes. -/

namespace Asper

open Durable (Bytes)
open JsonEscape

/-- `w` is read back as the one byte `b`. -/
inductive Piece (b : UInt8) : Bytes → Prop
  | raw : ¬ b < 0x20 → b ≠ 92 → Piece b [b]
  | escape {w} : b < 0x80 → Escape b.toNat w → Piece b w

theorem Piece.ne_nil {b : UInt8} {w : Bytes} (h : Piece b w) : w ≠ [] := by
  rcases h with _ | ⟨-, - | -⟩ <;> exact List.cons_ne_nil _ _

theorem hexValue_printable {b : UInt8} (h : (hexValue b).isSome = true) : ¬ b < 0x20 := by
  intro hb
  rw [UInt8.lt_iff_toNat_lt] at hb
  simp only [hexValue, UInt8.le_iff_toNat_le, UInt8.reduceToNat] at h
  rw [if_neg (by simp at hb; omega), if_neg (by simp at hb; omega),
    if_neg (by simp at hb; omega)] at h
  cases h

/-- No piece holds a control byte. -/
theorem Piece.printable {b : UInt8} {w : Bytes} (h : Piece b w) : ∀ c ∈ w, ¬ c < 0x20 := by
  rcases h with ⟨hb, -⟩ | ⟨-, he⟩
  · exact fun c hc => List.mem_singleton.1 hc ▸ hb
  · rcases he with @⟨e, he⟩ | @⟨w, -, hw⟩
    · have hall : ∀ x ∈ shortEscapes, ¬ x.1 < 0x20 := by decide
      exact List.forall_mem_cons.2 ⟨by decide, List.forall_mem_cons.2 ⟨hall _ he, nofun⟩⟩
    · exact List.forall_mem_cons.2 ⟨by decide, List.forall_mem_cons.2 ⟨by decide, fun c hc =>
        hexValue_printable (hexNumber_digits hw c hc)⟩⟩

theorem utf8Put_ascii {b : UInt8} (h : b < 0x80) : utf8Put b.toNat = [b] := by
  have hlt : b.toNat < 0x80 := UInt8.lt_iff_toNat_lt.1 h
  rw [utf8Put, if_pos hlt, UInt8.ofNat_toNat]

theorem escStep_short (p : Bytes) :
    ∀ x ∈ shortEscapes, escStep (92 :: x.1 :: p) = ([UInt8.ofNat x.2], 2) := by
  simp [shortEscapes, escStep]

/-- A piece is one round of the decoder, whatever follows. -/
theorem Piece.step {b : UInt8} {w : Bytes} (h : Piece b w) (p : Bytes) :
    escStep (w ++ p) = ([b], w.length) := by
  rcases h with ⟨-, h92⟩ | ⟨hb, he⟩
  · cases p with
    | nil => rfl
    | cons e p => exact if_pos h92
  · rcases he with @⟨e, he⟩ | @⟨w, hl, hw⟩
    · have hstep := escStep_short p _ he
      rwa [UInt8.ofNat_toNat] at hstep
    · have hlen : 4 ≤ (w ++ p).length := by
        rw [List.length_append, hl]
        exact Nat.le_add_right 4 _
      have hhex : hex4 (w ++ p) = some b.toNat := by
        rw [hex4, ← hl, List.take_left, hw]
      have hlow : ¬ 0xd800 ≤ b.toNat := Nat.not_le.2 (Nat.lt_trans b.toNat_lt (by decide))
      have hunicode : unicodeStep (w ++ p) = (utf8Put b.toNat, 6) := by
        rw [unicodeStep, if_pos hlen, hhex]
        exact if_neg fun h => hlow h.1
      rw [utf8Put_ascii hb] at hunicode
      rw [List.length_cons, List.length_cons, hl]
      exact hunicode

/-- The rounds undo a text made of pieces. -/
theorem escRounds_pieces {f : UInt8 → Bytes} {s : Bytes} (hf : ∀ b ∈ s, Piece b (f b)) {n : Nat}
    (hn : (s.flatMap f).length ≤ n) : escRounds n (s.flatMap f) = s := by
  induction s generalizing n with
  | nil => cases n <;> rfl
  | cons b s ih =>
    obtain ⟨hb, hs⟩ := List.forall_mem_cons.1 hf
    rw [List.flatMap_cons] at hn ⊢
    have hpos : 0 < (f b).length := List.length_pos_iff.2 hb.ne_nil
    rw [List.length_append] at hn
    obtain _ | n := n
    · omega
    · have hne : f b ++ s.flatMap f ≠ [] := List.append_ne_nil_of_left_ne_nil hb.ne_nil _
      rw [escRounds, if_neg hne, hb.step, List.drop_left, ih hs (by omega)]
      rfl

theorem asperRecordUnescape_pieces {f : UInt8 → Bytes} {s : Bytes} (hf : ∀ b ∈ s, Piece b (f b)) :
    asperRecordUnescape (cstr (s.flatMap f)) = s := by
  have hraw : ∀ c ∈ s.flatMap f, ¬ c < 0x20 := by
    intro c hc
    obtain ⟨b, hb, hc⟩ := List.mem_flatMap.1 hc
    exact (hf b hb).printable c hc
  have hself : (cstr (s.flatMap f)).val = s.flatMap f :=
    cstr_self fun h0 => hraw 0 h0 (by decide)
  have hany : ¬ (s.flatMap f).any (· < 0x20) = true := by
    rw [List.any_eq_true]
    rintro ⟨c, hc, hlt⟩
    exact hraw c hc (of_decide_eq_true hlt)
  rw [asperRecordUnescape, hself, if_neg hany]
  exact escRounds_pieces hf (Nat.le_refl _)

/-! ## The text between the quotes -/

section
variable {esc : UInt8 → Bytes} (hesc : ∀ b, b < 0x20 ∨ b = 34 → Escape b.toNat (esc b))
include hesc

theorem piece_literal {b : UInt8} (h92 : b ≠ 92) :
    Piece b (if b < 0x20 ∨ b = 34 then esc b else [b]) := by
  split
  · next hb =>
    refine .escape ?_ (hesc b hb)
    rcases hb with hb | rfl
    · exact UInt8.lt_trans hb (by decide)
    · decide
  · next hb => exact .raw (fun h => hb (.inl h)) h92

theorem piece_escByte (b : UInt8) : Piece b (literalText esc (escByte b)) := by
  have hshort : ∀ {b e : UInt8}, b < 0x80 → (e, b.toNat) ∈ shortEscapes → ¬ e < 0x20 → e ≠ 34 →
      Piece b (literalText esc [92, e]) := by
    intro b e hb he hraw hquote
    have htext : literalText esc [92, e] = [92, e] := by
      rw [literalText, List.flatMap_cons, List.flatMap_cons, if_neg (by decide),
        if_neg (not_or.2 ⟨hraw, hquote⟩)]
      rfl
    rw [htext]
    exact .escape hb (.short he)
  rw [escByte]
  split
  · next hb =>
    subst hb
    exact hshort (by decide) (by decide) (by decide) (by decide)
  · next h92 =>
    split
    · next hb =>
      subst hb
      exact hshort (by decide) (by decide) (by decide) (by decide)
    · split
      · next hb =>
        subst hb
        exact hshort (by decide) (by decide) (by decide) (by decide)
      · split
        · next hb =>
          subst hb
          exact hshort (by decide) (by decide) (by decide) (by decide)
        · have hp := piece_literal hesc h92
          rwa [literalText, List.flatMap_cons, List.flatMap_nil, List.append_nil]

/-- The stored text of a string is made of one piece for each of its bytes. -/
theorem literalText_escEncode (s : Bytes) : ∃ f : UInt8 → Bytes,
    literalText esc (escEncode s) = s.flatMap f ∧ ∀ b ∈ s, Piece b (f b) := by
  rw [escEncode]
  split
  · refine ⟨fun b => literalText esc (escByte b), ?_, fun b _ => piece_escByte hesc b⟩
    rw [literalText, List.flatMap_assoc]
    rfl
  · next h92 => exact ⟨_, rfl, fun b hb => piece_literal hesc fun h => h92 (h ▸ hb)⟩

/-- **A record's strings**: whatever JSON escapes the writer has for the double quote and the
control bytes, decoding the stored text gives the string back, so no two strings share one. -/
theorem record_string_round_trip :
    (∀ s : CStr, asperRecordUnescape (cstr (literalText esc (escEncode s.val))) = s.val) ∧
      Function.Injective fun s : CStr => literalText esc (escEncode s.val) := by
  have hback : ∀ s : CStr, asperRecordUnescape (cstr (literalText esc (escEncode s.val))) = s.val := by
    intro s
    obtain ⟨f, hf, hpieces⟩ := literalText_escEncode hesc s.val
    rw [hf, asperRecordUnescape_pieces hpieces]
  refine ⟨hback, fun s t hst => Subtype.ext ?_⟩
  dsimp only at hst
  rw [← hback s, hst, hback t]

end

/-- Short escapes where JSON has them, `\u00xx` elsewhere. -/
def jsonEscape (b : UInt8) : Bytes :=
  if b = 34 then [92, 34]
  else if b = 10 then [92, 110]
  else [92, 117, 48, 48, 48 + b / 16, if b % 16 < 10 then 48 + b % 16 else 87 + b % 16]

theorem jsonEscape_escape (b : UInt8) (hb : b < 0x20 ∨ b = 34) :
    Escape b.toNat (jsonEscape b) := by
  rw [jsonEscape]
  split
  · next h =>
    subst h
    exact .short (by decide)
  · next h34 =>
    split
    · next h =>
      subst h
      exact .short (by decide)
    · refine .unicode rfl ?_
      have hall : ∀ n : Fin 32, hexNumber [48, 48, 48 + UInt8.ofNat n / 16,
          if UInt8.ofNat n % 16 < 10 then 48 + UInt8.ofNat n % 16 else 87 + UInt8.ofNat n % 16] =
            some n.val := by decide
      have hlt : b.toNat < 32 := UInt8.lt_iff_toNat_lt.1 (hb.resolve_right h34)
      simpa using hall ⟨b.toNat, hlt⟩

theorem record_string_round_trip_json :
    (∀ s : CStr, asperRecordUnescape (cstr (literalText jsonEscape (escEncode s.val))) = s.val) ∧
      Function.Injective fun s : CStr => literalText jsonEscape (escEncode s.val) :=
  record_string_round_trip jsonEscape_escape

end Asper
