import Asper.Event.Frame

/-! # Frames are read back as written

* `parseHead_headLine`: the header line of an admissible event parses to that event.
* `frameRead_frameBytes`: a written frame is read back, whatever follows it.
* `frameRead_torn`: a frame cut anywhere inside reads as `Err.notFound`, never as damage. -/

namespace Asper

open Durable (Bytes)
open Decimal

/-- What the metadata and the text of every event the store writes satisfy. -/
structure Event.Fields (e : Event) : Prop where
  at_ge : -2 ^ 63 ≤ e.at_
  at_lt : e.at_ < 2 ^ 63
  id_valid : uuidValid e.id = true
  object : e.objectRef = [] ∨ e.objectRef.length = 71 ∧ objectText e.objectRef = true
  no_nul : 0 ∉ e.text
  utf8 : utf8Valid e.text = true
  size : e.text.length ≤ eventBytes

/-- An event under its sequence number. -/
structure Event.Ok (e : Event) : Prop extends e.Fields where
  seq_pos : 0 < e.sequence
  seq_lt : e.sequence < 2 ^ 64

/-! ## The bytes of a header -/

/-- Printable ASCII. -/
def Plain (s : Bytes) : Prop := ∀ b ∈ s, 32 ≤ b ∧ b < 128

theorem Plain.append {s t : Bytes} (hs : Plain s) (ht : Plain t) : Plain (s ++ t) := fun b hb =>
  (List.mem_append.1 hb).elim (hs b) (ht b)

theorem Plain.cons {b : UInt8} {s : Bytes} (hb : 32 ≤ b ∧ b < 128) (hs : Plain s) :
    Plain (b :: s) := fun c hc => by
  rcases List.mem_cons.1 hc with rfl | hc
  · exact hb
  · exact hs c hc

theorem plain_of_digits {s : Bytes} (h : ∀ b ∈ s, b = 45 ∨ isDigit b = true) : Plain s := by
  intro b hb
  rcases h b hb with rfl | h
  · decide
  · simp only [isDigit, decide_eq_true_eq] at h
    simp only [UInt8.le_iff_toNat_le, UInt8.lt_iff_toNat_lt, UInt8.reduceToNat]
    omega

theorem plain_dec (n : Nat) : Plain (dec n) := plain_of_digits fun b hb => .inr (dec_digits n b hb)

theorem plain_decInt (i : Int) : Plain (decInt i) := plain_of_digits (decInt_bytes i)

theorem plain_uuid {s : Bytes} (h : uuidValid s = true) : Plain s := fun _ hb =>
  ⟨UInt8.le_of_lt (uuidValid_byte h hb).1, (uuidValid_byte h hb).2⟩

theorem plain_hexDigit {n : UInt8} (h : n < 16) :
    (32 : UInt8) ≤ hexDigit n ∧ hexDigit n < (128 : UInt8) := by
  have key : ∀ m : Fin 16, (32 : UInt8) ≤ hexDigit (UInt8.ofNat m) ∧
      hexDigit (UInt8.ofNat m) < (128 : UInt8) := by decide
  simpa using key ⟨n.toNat, UInt8.lt_iff_toNat_lt.1 h⟩

theorem plain_hexDigest (D : Digest) (s : Bytes) : Plain (hexDigest D s) := by
  intro b hb
  obtain ⟨x, -, hx⟩ := List.mem_flatMap.1 hb
  simp only [hexByte, List.mem_cons, List.not_mem_nil, or_false] at hx
  rcases hx with rfl | rfl
  · exact plain_hexDigit (shiftRight_lt x)
  · exact plain_hexDigit (and_lt x)

theorem length_hexDigest (D : Digest) (s : Bytes) : (hexDigest D s).length = 64 := by
  rw [hexDigest, List.length_flatMap]
  show ((D.sha s).map fun _ => 2).sum = 64
  rw [List.map_const', List.sum_replicate_nat, D.length_sha]

theorem plain_headText {e : Event} (h : uuidValid e.id = true) (obj text : Nat) :
    Plain (headText e obj text) := by
  have sp : (32 : UInt8) ≤ 32 ∧ (32 : UInt8) < 128 := by decide
  have hmagic : (ascii "AEV2 ").all (fun b => decide (32 ≤ b ∧ b < 128)) = true := by decide
  refine Plain.append (fun b hb => of_decide_eq_true (List.all_eq_true.1 hmagic b hb)) <| .append (plain_dec _) <| .cons sp <|
    .append (plain_decInt _) <| .cons sp <| .append (plain_dec _) <| .cons sp <|
    .append (plain_dec _) <| .cons sp <| .append (plain_uuid h) <| .cons sp <|
    .append (plain_dec _) <| .cons sp (plain_dec _)

theorem Plain.not_mem {s : Bytes} (h : Plain s) {b : UInt8} (hb : b < 32) : b ∉ s := fun hm =>
  absurd (h b hm).1 (UInt8.not_le.2 hb)

/-- A header fits the line buffer with room to spare. -/
theorem length_headText_le {e : Event} (h : e.Ok) (obj : Nat) {text : Nat} (ho : obj ≤ 71)
    (ht : text ≤ eventBytes) : (headText e obj text).length ≤ 104 := by
  have h1 := length_dec_le (n := e.sequence) 19 (by have := h.seq_lt; omega)
  have h2 := length_decInt_le (i := e.at_) 18 (by have := h.at_ge; have := h.at_lt; omega)
  have h3 := length_dec_le (n := e.kind.code) 0 (by have := e.kind.code_le; omega)
  have h4 := length_dec_le (n := e.pinned.toNat) 0 (by have := e.pinned.toNat_le; omega)
  have h5 := length_dec_le (n := obj) 1 (by omega)
  have h6 := length_dec_le (n := text) 7 (by unfold eventBytes at ht; omega)
  have h7 := uuidShape_length h.id_valid
  have h8 : (ascii "AEV2 ").length = 5 := by decide
  simp only [headText, List.length_append, List.length_cons]
  omega

/-! ## Reading the header -/

theorem fgets_line {n : Nat} {l : Bytes} (rest : Bytes) (hl : 10 ∉ l) (hn : l.length + 1 < n) :
    fgets n (l ++ 10 :: rest) = (l ++ [10], rest) := by
  have htw : ((l ++ 10 :: rest).take (n - 1)).takeWhile (· ≠ 10) = l := by
    rw [List.take_append, List.take_of_length_le (by omega),
      List.takeWhile_append_of_pos (fun b hb => decide_eq_true (p := b ≠ 10) fun h => hl (h ▸ hb)),
      show n - 1 - l.length = (n - 2 - l.length) + 1 by omega]
    simp
  rw [fgets, htw, if_neg]
  · simp
  · simp only [List.length_take, List.length_append, List.length_cons]
    omega

theorem scanNumber_dec {n max : Nat} (rest : Bytes) (h : n ≤ max) (h64 : n < 2 ^ 64) :
    scanNumber max (dec n ++ 32 :: rest) = some (n, rest) := by
  rw [scanNumber, scanNat_dec n rest (by decide)]
  exact if_neg (by simp only [not_or, ne_eq, not_not, not_le, not_lt]; exact ⟨h64, h, trivial⟩)

theorem scanTime_decInt {i : Int} (rest : Bytes) (h1 : -2 ^ 63 ≤ i) (h2 : i < 2 ^ 63) :
    scanTime (decInt i ++ 32 :: rest) = some (i, rest) := by
  rw [scanTime, scanInt_decInt i rest (by decide)]
  exact if_neg (by simp only [not_or, ne_eq, not_not, not_le, not_lt]; exact ⟨h1, h2, trivial⟩)

/-- The metadata of an event, as its header alone gives it. -/
def Event.bare (e : Event) : Event := { e with objectRef := [], text := [] }

theorem headText_bare (e : Event) (obj text : Nat) : headText e.bare obj text = headText e obj text :=
  rfl

theorem Event.Ok.object_le {e : Event} (h : e.Ok) : e.objectRef.length = 0 ∨ e.objectRef.length = 71 :=
  h.object.imp (fun h => by rw [h]; rfl) fun h => h.1

/-- The header line of `e` with `hash` for the digest of the frame. -/
def headWith (D : Digest) (e : Event) (hash : Bytes) : Bytes :=
  headText e e.objectRef.length e.text.length ++
    32 :: (hexDigest D (headText e e.objectRef.length e.text.length) ++ 32 :: (hash ++ [10]))

theorem headLine_headWith (D : Digest) (e : Event) :
    headLine D e =
      headWith D e (frameDigest D (headText e e.objectRef.length e.text.length) e) := rfl

/-- A header line parses to its event, whatever the digest of the frame. -/
theorem parseHead_headWith (D : Digest) {e : Event} (h : e.Ok) {hash : Bytes}
    (hl2 : hash.length = 64) :
    parseHead D (headWith D e hash) =
      some ⟨e.bare, e.objectRef.length, e.text.length, hash⟩ := by
  have hobj := h.object_le
  have hlen := length_headText_le h e.objectRef.length (by omega) h.size
  generalize hh : hexDigest D (headText e e.objectRef.length e.text.length) = hh'
  have hl1 : hh'.length = 64 := hh ▸ length_hexDigest D _
  have hid := uuidShape_length h.id_valid
  have hline : headWith D e hash = headText e e.objectRef.length e.text.length ++
      32 :: (hh' ++ 32 :: (hash ++ [10])) := by rw [headWith, hh]
  have htail : headWith D e hash = ascii "AEV2 " ++ (dec e.sequence ++ 32 :: (decInt e.at_ ++ 32 ::
      (dec e.kind.code ++ 32 :: (dec e.pinned.toNat ++ 32 :: (e.id ++ 32 ::
      (dec e.objectRef.length ++ 32 :: (dec e.text.length ++ 32 ::
      (hh' ++ 32 :: (hash ++ [10]))))))))) := by
    rw [hline, headText]
    simp only [List.append_assoc, List.cons_append]
  have h5 : (ascii "AEV2 ").length = 5 := by decide
  have htake : (headWith D e hash).take 5 = ascii "AEV2 " := by
    rw [htail, List.take_append_of_le_length (by omega), List.take_of_length_le (by omega)]
  have hdrop : (headWith D e hash).drop 5 = dec e.sequence ++ 32 :: (decInt e.at_ ++ 32 ::
      (dec e.kind.code ++ 32 :: (dec e.pinned.toNat ++ 32 :: (e.id ++ 32 ::
      (dec e.objectRef.length ++ 32 :: (dec e.text.length ++ 32 ::
      (hh' ++ 32 :: (hash ++ [10])))))))) := by
    rw [htail, List.drop_append_of_le_length (by omega), List.drop_of_length_le (by omega),
      List.nil_append]
  have hpin : (e.pinned.toNat == 1) = e.pinned := by cases e.pinned <;> rfl
  have hseq := h.seq_pos
  rw [parseHead, htake, hdrop, scanNumber_dec _ (by have := h.seq_lt; omega) h.seq_lt]
  simp only [guard, if_true, Option.bind_eq_bind, Option.bind_some, Option.pure_def]
  rw [if_pos (by omega), Option.bind_some, scanTime_decInt _ h.at_ge h.at_lt]
  simp only [Option.bind_some]
  rw [scanNumber_dec _ e.kind.code_le (by have := e.kind.code_le; omega)]
  simp only [Option.bind_some, EventKind.ofCode_code]
  rw [scanNumber_dec _ e.pinned.toNat_le (by have := e.pinned.toNat_le; omega)]
  simp only [Option.bind_some]
  rw [if_pos ⟨by simp only [List.length_append, List.length_cons]; omega,
    by rw [List.getElem?_append_right (by omega), hid]; rfl⟩]
  simp only [Option.bind_some]
  rw [List.take_append_of_le_length (by omega), List.take_of_length_le (by omega), h.id_valid,
    if_pos rfl]
  simp only [Option.bind_some]
  rw [show 37 = e.id.length + 1 by omega, List.drop_append, List.drop_of_length_le (by omega),
    Nat.add_sub_cancel_left, List.nil_append, List.drop_succ_cons, List.drop_zero,
    scanNumber_dec _ (by omega) (by omega)]
  simp only [Option.bind_some]
  rw [if_pos hobj, Option.bind_some, scanNumber_dec _ h.size (by have := h.size; unfold eventBytes at this; omega)]
  simp only [Option.bind_some, hpin]
  have hbare : headText ⟨e.sequence, e.at_, e.kind, e.pinned, e.id, [], []⟩ e.objectRef.length
      e.text.length = headText e e.objectRef.length e.text.length := rfl
  have hp : (hh' ++ 32 :: (hash ++ [10])).length = 130 := by
    simp only [List.length_append, List.length_cons, List.length_nil]; omega
  rw [hbare, hp, if_pos ⟨rfl, by rw [List.getElem?_append_right (by omega), hl1]; rfl, by
    rw [List.getElem?_append_right (by omega), hl1, List.getElem?_cons_succ,
      List.getElem?_append_right (by omega), hl2]; rfl⟩]
  simp only [Option.bind_some]
  rw [if_pos ⟨by omega, by rw [hline]; simp only [List.length_append, List.length_cons, List.length_nil]; omega⟩]
  simp only [Option.bind_some]
  rw [if_pos ⟨by rw [hline, List.take_append_of_le_length (Nat.le_refl _), List.take_length], by
    rw [hline, List.getElem?_append_right (Nat.le_refl _), Nat.sub_self]; rfl⟩]
  simp only [Option.bind_some]
  rw [hh, if_pos (by rw [List.take_append_of_le_length (by omega), List.take_of_length_le (by omega)]),
    Option.bind_some, show 65 = hh'.length + 1 by omega, List.drop_append,
    List.drop_of_length_le (by omega), Nat.add_sub_cancel_left, List.nil_append,
    List.drop_succ_cons, List.drop_zero, List.take_append_of_le_length (by omega),
    List.take_of_length_le (by omega)]
  rfl

/-- **A header line parses to the event it was written for.** -/
theorem parseHead_headLine (D : Digest) {e : Event} (h : e.Ok) :
    parseHead D (headLine D e) = some ⟨e.bare, e.objectRef.length, e.text.length,
      frameDigest D (headText e e.objectRef.length e.text.length) e⟩ := by
  rw [headLine_headWith]
  exact parseHead_headWith D h (length_hexDigest D _)

/-- A header line is printable up to its newline and short. -/
theorem headWith_eq (D : Digest) {e : Event} (h : e.Ok) {hash : Bytes} (hp : Plain hash)
    (hl : hash.length = 64) :
    ∃ l, headWith D e hash = l ++ [10] ∧ Plain l ∧ l.length ≤ 234 ∧ ∃ l', l = ascii "AEV2 " ++ l' := by
  have sp : (32 : UInt8) ≤ 32 ∧ (32 : UInt8) < 128 := by decide
  have hlen := length_headText_le h e.objectRef.length (by have := h.object_le; omega) h.size
  refine ⟨headText e e.objectRef.length e.text.length ++
    32 :: (hexDigest D (headText e e.objectRef.length e.text.length) ++ 32 :: hash),
    by simp [headWith], ?_, ?_, _, by rw [headText, List.append_assoc]⟩
  · exact (plain_headText h.id_valid _ _).append <| .cons sp <| (plain_hexDigest D _).append <|
      .cons sp hp
  · simp only [List.length_append, List.length_cons, length_hexDigest, hl]
    omega

theorem headLine_eq (D : Digest) {e : Event} (h : e.Ok) :
    ∃ l, headLine D e = l ++ [10] ∧ Plain l ∧ l.length ≤ 234 ∧ ∃ l', l = ascii "AEV2 " ++ l' := by
  rw [headLine_headWith]
  exact headWith_eq D h (plain_hexDigest D _) (length_hexDigest D _)

theorem takeWhile_plain {l : Bytes} (h : Plain l) :
    (l ++ [10]).takeWhile (fun b => decide (b ≠ 0)) = l ++ [10] := by
  rw [List.takeWhile_eq_self_iff]
  intro b hb
  rcases List.mem_append.1 hb with hb | hb
  · exact decide_eq_true (p := b ≠ 0) fun h0 => h.not_mem (by decide) (h0 ▸ hb)
  · rw [List.mem_singleton.1 hb]
    decide

theorem frameHead_headWith (D : Digest) {e : Event} (h : e.Ok) {hash : Bytes} (hh : Plain hash)
    (hlh : hash.length = 64) (rest : Bytes) :
    frameHead D (headWith D e hash ++ rest) =
      .ok (⟨e.bare, e.objectRef.length, e.text.length, hash⟩, rest) := by
  obtain ⟨l, hl, hp, hlen, -⟩ := headWith_eq D h hh hlh
  have hfg := fgets_line (n := 352) rest (hp.not_mem (by decide)) (by omega)
  have hm : ¬ 10 ∉ l ++ [10] := by simp
  have hparse := parseHead_headWith D h hlh
  rw [hl] at hparse
  rw [frameHead, hl, List.append_assoc, List.singleton_append, if_neg (by simp), hfg]
  simp only [takeWhile_plain hp, if_neg hm, hparse]

theorem frameHead_headLine (D : Digest) {e : Event} (h : e.Ok) (rest : Bytes) :
    frameHead D (headLine D e ++ rest) = .ok (⟨e.bare, e.objectRef.length, e.text.length,
      frameDigest D (headText e e.objectRef.length e.text.length) e⟩, rest) :=
  frameHead_headWith D h (plain_hexDigest D _) (length_hexDigest D _) rest

theorem objectText_of_ok {e : Event} (h : e.Ok) :
    ¬ (e.objectRef ≠ [] ∧ objectText e.objectRef = false) := by
  rintro ⟨h1, h2⟩
  rcases h.object with h | ⟨-, h⟩
  · exact h1 h
  · rw [h] at h2; cases h2

/-- An event whose frame has a header that is read, whatever its text. -/
structure Event.Headed (e : Event) : Prop where
  at_ge : -2 ^ 63 ≤ e.at_
  at_lt : e.at_ < 2 ^ 63
  id_valid : uuidValid e.id = true
  object : e.objectRef = [] ∨ e.objectRef.length = 71 ∧ objectText e.objectRef = true
  size : e.text.length ≤ eventBytes
  seq_pos : 0 < e.sequence
  seq_lt : e.sequence < 2 ^ 64

theorem Event.Ok.headed {e : Event} (h : e.Ok) : e.Headed :=
  ⟨h.at_ge, h.at_lt, h.id_valid, h.object, h.size, h.seq_pos, h.seq_lt⟩

/-- The event with a plain text of the same length, whose header differs in the digest only. -/
theorem Event.Headed.plain {e : Event} (h : e.Headed) :
    Event.Ok { e with text := List.replicate e.text.length 65 } where
  at_ge := h.at_ge
  at_lt := h.at_lt
  id_valid := h.id_valid
  object := h.object
  no_nul := by simp
  utf8 := utf8Valid_ascii fun b hb => (List.eq_of_mem_replicate hb).symm ▸ by decide
  size := by
    show (List.replicate _ _).length ≤ _
    rw [List.length_replicate]
    exact h.size
  seq_pos := h.seq_pos
  seq_lt := h.seq_lt

theorem Event.Headed.head (D : Digest) {e : Event} (h : e.Headed) (rest : Bytes) :
    frameHead D (headLine D e ++ rest) = .ok (⟨e.bare, e.objectRef.length, e.text.length,
      frameDigest D (headText e e.objectRef.length e.text.length) e⟩, rest) := by
  have hhead := frameHead_headWith D h.plain
    (plain_hexDigest D (headText e e.objectRef.length e.text.length ++ e.objectRef ++ e.text))
    (length_hexDigest D _) rest
  simp only [headWith, List.length_replicate] at hhead
  exact hhead

/-- **A written frame is read back** where its text is UTF-8 without a NUL, whatever follows it. -/
theorem frameRead_headed (D : Digest) {e : Event} (h : e.Headed) (rest : Bytes) :
    frameRead D (frameBytes D e ++ rest) =
      if 0 ∈ e.text ∨ utf8Valid e.text = false then .error .parse else .ok (e, rest) := by
  have hs : frameBytes D e ++ rest = headLine D e ++ (e.objectRef ++ (e.text ++ 10 :: rest)) := by
    simp [frameBytes]
  have htext : ((e.objectRef ++ (e.text ++ 10 :: rest)).drop e.objectRef.length).take e.text.length
      = e.text := by
    rw [List.drop_left, List.take_left]
  have hend : (e.objectRef ++ (e.text ++ 10 :: rest)).drop (e.objectRef.length + e.text.length)
      = 10 :: rest := by
    rw [← List.drop_drop, List.drop_left, List.drop_left]
  have hobj : ¬ (e.objectRef ≠ [] ∧ objectText e.objectRef = false) :=
    objectText_of_ok (e := { e with text := List.replicate e.text.length 65 }) h.plain
  rw [frameRead, hs, h.head D]
  simp only [List.take_left, if_neg (Nat.lt_irrefl _), if_neg hobj, htext, hend, ne_eq,
    not_true_eq_false, false_or, headText_bare]
  split
  · rfl
  · exact if_pos rfl

theorem frameRead_frameBytes (D : Digest) {e : Event} (h : e.Ok) (rest : Bytes) :
    frameRead D (frameBytes D e ++ rest) = .ok (e, rest) := by
  have hbad : ¬ (0 ∈ e.text ∨ utf8Valid e.text = false) := by simp [h.no_nul, h.utf8]
  rw [frameRead_headed D h.headed, if_neg hbad]

theorem frameRead_cut_header (D : Digest) {e : Event} (h : e.Ok) {k : Nat}
    (hk : k < (headLine D e).length) :
    frameRead D ((headLine D e).take k) = .error .notFound := by
  obtain ⟨l, hl, hp, hlen, l', hl'⟩ := headLine_eq D h
  have hlk : (headLine D e).length = l.length + 1 := by rw [hl]; simp
  have htk : (headLine D e).take k = l.take k := by
    rw [hl, List.take_append_of_le_length (by omega)]
  have hplain : Plain (l.take k) := fun b hb => hp b (List.mem_of_mem_take hb)
  have htl : (l.take k).length ≤ 234 := by rw [List.length_take]; omega
  have h10 : (10 : UInt8) ∉ l.take k := hplain.not_mem (by decide)
  have hall : ∀ {c : UInt8}, c < 32 → (l.take k).takeWhile (fun b => decide (b ≠ c)) = l.take k := by
    intro c hc
    rw [List.takeWhile_eq_self_iff]
    exact fun b hb => decide_eq_true (p := b ≠ c) fun he => hplain.not_mem hc (he ▸ hb)
  have hfg : fgets 352 (l.take k) = (l.take k, []) := by
    rw [fgets, List.take_of_length_le (by omega : (l.take k).length ≤ 352 - 1), hall (by decide),
      if_pos rfl, List.drop_length]
  have hpre : (l.take k).take 5 = (ascii "AEV2 ").take (l.take k).length := by
    have h5 : (ascii "AEV2 ").length = 5 := by decide
    have hl5 : 5 ≤ l.length := by rw [hl', List.length_append]; omega
    rw [List.take_take, List.length_take, hl', List.take_append_of_le_length (by omega)]
    by_cases hk5 : k ≤ 5
    · rw [Nat.min_eq_right hk5, Nat.min_eq_left (by rw [← hl']; omega)]
    · rw [Nat.min_eq_left (by omega), List.take_of_length_le (by omega),
        List.take_of_length_le (by rw [← hl']; omega)]
  rw [htk, frameRead, frameHead]
  by_cases h0 : l.take k = []
  · rw [if_pos h0]
  · simp only [if_neg h0, hfg, hall (by decide : (0 : UInt8) < 32), if_pos h10]
    rw [if_pos ⟨⟨h10, by omega⟩, hpre⟩]

theorem frameRead_cut_payload (D : Digest) {e : Event} (h : e.Ok) {k : Nat}
    (hk : k < (e.objectRef ++ (e.text ++ [10])).length) :
    frameRead D (headLine D e ++ (e.objectRef ++ (e.text ++ [10])).take k) =
      .error .notFound := by
  simp only [List.length_append, List.length_cons, List.length_nil] at hk
  rw [frameRead, frameHead_headLine D h]
  dsimp only
  by_cases hobj : k < e.objectRef.length
  · rw [if_pos (by simp only [List.length_take, List.length_append, List.length_cons]; omega)]
  · obtain ⟨m, rfl⟩ : ∃ m, k = e.objectRef.length + m := ⟨k - e.objectRef.length, by omega⟩
    have hm : m ≤ e.text.length := by omega
    have ht : (e.objectRef ++ (e.text ++ [10])).take (e.objectRef.length + m) =
        e.objectRef ++ e.text.take m := by
      rw [List.take_append, List.take_of_length_le (by omega), Nat.add_sub_cancel_left,
        List.take_append_of_le_length hm]
    rw [ht, List.take_left, if_neg (Nat.lt_irrefl _), if_neg (objectText_of_ok h), List.drop_left,
      ← List.drop_drop, List.drop_left]
    by_cases htext : m < e.text.length
    · rw [if_pos (by simp only [List.length_take]; omega)]
    · obtain rfl : m = e.text.length := by omega
      rw [List.take_length, List.take_length, if_neg (Nat.lt_irrefl _), List.drop_length]

/-- **A frame cut anywhere inside reads as cut**, never as damage. -/
theorem frameRead_torn (D : Digest) {e : Event} (h : e.Ok) {k : Nat}
    (hk : k < (frameBytes D e).length) : frameRead D ((frameBytes D e).take k) = .error .notFound := by
  rw [frameBytes, List.length_append] at hk
  rw [frameBytes, List.take_append]
  by_cases hkl : k < (headLine D e).length
  · rw [Nat.sub_eq_zero_of_le (by omega), List.take_zero, List.append_nil,
      frameRead_cut_header D h hkl]
  · rw [List.take_of_length_le (by omega), frameRead_cut_payload D h (by omega)]

/-- A frame takes at most 308 bytes more than its text. -/
theorem Event.Headed.length_le (D : Digest) {e : Event} (h : e.Headed) :
    (frameBytes D e).length ≤ e.text.length + 308 := by
  obtain ⟨l, hl, -, hlen, -⟩ := headWith_eq D h.plain
    (plain_hexDigest D (headText e e.objectRef.length e.text.length ++ e.objectRef ++ e.text))
    (length_hexDigest D _)
  simp only [headWith, List.length_replicate] at hl
  have hline : headLine D e = l ++ [10] := hl
  have hobj : e.objectRef.length ≤ 71 := by
    rcases h.object with hnil | hobj
    · rw [hnil]
      exact Nat.zero_le _
    · exact Nat.le_of_eq hobj.1
  simp only [frameBytes, hline, List.length_append, List.length_cons, List.length_nil]
  omega

theorem length_frameBytes_le (D : Digest) {e : Event} (h : e.Ok) :
    (frameBytes D e).length ≤ e.text.length + 308 := h.headed.length_le D

theorem length_frameBytes_pos (D : Digest) (e : Event) : 0 < (frameBytes D e).length := by
  simp only [frameBytes, List.length_append, List.length_cons]
  omega

theorem Event.Headed.write (D : Digest) {e : Event} (h : e.Headed) :
    frameWrite D e = .ok (frameBytes D e) := by
  have hobj : e.objectRef.length ≤ 71 := by
    rcases h.object with hnil | hobj
    · rw [hnil]
      exact Nat.zero_le _
    · exact Nat.le_of_eq hobj.1
  have hlen : (headText e e.objectRef.length e.text.length).length ≤ 104 :=
    length_headText_le h.plain e.objectRef.length hobj h.size
  have hsize := h.size
  exact if_neg (by omega)

theorem frameWrite_ok (D : Digest) {e : Event} (h : e.Ok) :
    frameWrite D e = .ok (frameBytes D e) := h.headed.write D

end Asper
