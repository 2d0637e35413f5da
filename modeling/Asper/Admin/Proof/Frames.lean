import Asper.Admin.Frames
import Asper.Base.Proof.Utf8
import Asper.Event.Proof.Canon
import Mathlib.Data.List.GetD

/-! # Both readers accept the same logs

The reader of the scripts gives an event exactly where `frameRead` does (`Py.event_iff`): the
numbers Python takes more freely are written back and compared with the header, so that one spelling
is left of each. `frames_agree` says it of whole logs. -/

namespace Asper

open Durable (Bytes)
open Decimal

namespace Py

/-! ## Texts -/

theorem decodes_eq (s : Bytes) : decodes s = utf8Valid s := by
  rw [Bool.eq_iff_iff, decodes, ByteArray.validateUTF8_eq_true_iff, utf8Valid_iff]
  have hs : (⟨s.toArray⟩ : ByteArray) = s.toByteArray := by
    apply ByteArray.ext
    simp
  rw [hs]
  constructor
  · rintro ⟨cs, h⟩
    exact ⟨cs, (List.toByteArray_inj.1 h).symm⟩
  · rintro ⟨cs, h⟩
    exact ⟨cs, List.toByteArray_inj.2 h.symm⟩

theorem idMatches_eq (s : Bytes) : idMatches s = uuidValid s := by
  have h : idDashes = (List.range 36).map dashAt := by decide
  rw [idMatches, h]
  rfl

theorem originMatches_eq {s : Bytes} (h : s.length = 71) : originMatches s = objectText s := by
  simp [originMatches, objectText, h, isXDigit]

/-! ## Numbers -/

theorem isSpace_of_digit {b : UInt8} (h : b = 45 ∨ isDigit b = true) : isSpace b = false := by
  rcases h with rfl | h
  · decide
  · simp only [isDigit, decide_eq_true_eq] at h
    simp only [isSpace, decide_eq_false_iff_not, UInt8.le_iff_toNat_le, UInt8.reduceToNat]
    omega

theorem strip_eq_self {s : Bytes} (h : ∀ b ∈ s, isSpace b = false) : strip s = s := by
  have hd : ∀ t : Bytes, (∀ b ∈ t, isSpace b = false) → t.dropWhile isSpace = t := by
    intro t ht
    cases t with
    | nil => rfl
    | cons a t => rw [List.dropWhile_cons_of_neg (by simp [ht a])]
  rw [strip, hd s h, hd _ fun b hb => h b (List.mem_reverse.1 hb), List.reverse_reverse]

theorem natural_dec (n : Nat) : natural (dec n) = some n := by
  have hs : (dec n).splitOn 95 = [dec n] := by
    refine List.splitOn_eq_singleton fun hm => ?_
    exact absurd (dec_digits n _ hm) (by decide)
  have hd : (dec n).all isDigit = true := List.all_eq_true.2 (dec_digits n)
  rw [natural, hs]
  simp [dec_ne_nil, hd]

theorem int_decInt (i : Int) : int (decInt i) = some i := by
  rw [int, strip_eq_self fun b hb => isSpace_of_digit (decInt_bytes i b hb), signed, decInt]
  split
  · next h =>
    simp only [List.head?_cons, if_true, List.tail_cons, natural_dec, Option.map_some]
    rw [Option.some.injEq]
    omega
  · next h =>
    obtain ⟨b, t, hb, hdig⟩ := dec_cons i.natAbs
    have h1 : (dec i.natAbs).head? ≠ some 45 := by
      rw [hb]
      rintro ⟨⟩
      exact absurd hdig (by decide)
    have h2 : (dec i.natAbs).head? ≠ some 43 := by
      rw [hb]
      rintro ⟨⟩
      exact absurd hdig (by decide)
    rw [if_neg h1, if_neg h2, natural_dec, Option.map_some, Option.some.injEq]
    show ((i.natAbs : Nat) : Int) = i
    omega

theorem decInt_natCast (n : Nat) : decInt n = dec n := by
  rw [decInt, if_neg (by omega), Int.natAbs_natCast]

theorem int_dec (n : Nat) : int (dec n) = some (n : Int) := by
  rw [← decInt_natCast, int_decInt]

/-! ## Lines -/

theorem readline_eq (n : Nat) (s : Bytes) : readline n s = fgets (n + 1) s := by
  have hle : ((s.take n).takeWhile (· ≠ 10)).length ≤ (s.take n).length :=
    (List.takeWhile_sublist _).length_le
  unfold readline fgets
  rw [Nat.add_sub_cancel]
  dsimp only
  split
  · next h => rw [if_neg (Nat.ne_of_gt h)]
  · next h => rw [if_pos (by omega)]

/-! ## Headers -/

theorem headText_eq (e : Event) (obj text : Nat) :
    headText ⟨e.sequence, e.at_, e.kind.code, e.pinned.toNat, obj, text⟩ e.id =
      Asper.headText e obj text := by
  simp [headText, Asper.headText, decInt_natCast]

/-- The first eight fields of a header. -/
def headFields (e : Event) (obj text : Nat) : List Bytes :=
  [ascii "AEV2", dec e.sequence, decInt e.at_, dec e.kind.code, dec e.pinned.toNat, e.id, dec obj,
    dec text]

theorem intercalate_append {c : UInt8} {xs ys : List Bytes} (hx : xs ≠ []) (hy : ys ≠ []) :
    [c].intercalate (xs ++ ys) = [c].intercalate xs ++ c :: [c].intercalate ys := by
  induction xs with
  | nil => exact absurd rfl hx
  | cons x xs ih =>
    by_cases h : xs = []
    · simp [h, List.intercalate_cons_of_ne_nil hy]
    · rw [List.cons_append, List.intercalate_cons_of_ne_nil (by simp [h]), ih h,
        List.intercalate_cons_of_ne_nil h]
      simp

theorem intercalate_fields (e : Event) (obj text : Nat) :
    [32].intercalate (headFields e obj text) = Asper.headText e obj text := by
  have hmagic : ascii "AEV2 " = ascii "AEV2" ++ [32] := by decide
  rw [Asper.headText, hmagic]
  simp [headFields, List.intercalate_cons_cons]

theorem intercalate_headFields (e : Event) (obj text : Nat) (fs : List Bytes) (hfs : fs ≠ []) :
    [32].intercalate (headFields e obj text ++ fs) =
      Asper.headText e obj text ++ 32 :: [32].intercalate fs := by
  rw [intercalate_append (by simp [headFields]) hfs, intercalate_fields]

theorem numbers_headFields (e : Event) (obj text : Nat) (fs : List Bytes) :
    numbers (headFields e obj text ++ fs) =
      some ⟨e.sequence, e.at_, e.kind.code, e.pinned.toNat, obj, text⟩ := by
  simp [numbers, headFields, int_dec, int_decInt]

theorem not_mem_headFields {e : Event} (h : uuidValid e.id = true) (obj text : Nat) :
    ∀ f ∈ headFields e obj text, (32 : UInt8) ∉ f := by
  have hd : ∀ n, (32 : UInt8) ∉ dec n := fun n hm => absurd (dec_digits n _ hm) (by decide)
  have hi : (32 : UInt8) ∉ decInt e.at_ := fun hm =>
    (decInt_bytes _ _ hm).elim (by decide) fun h => absurd h (by decide)
  have hid : (32 : UInt8) ∉ e.id := fun hm => absurd (uuidValid_byte h hm).1 (by decide)
  have hmagic : (32 : UInt8) ∉ ascii "AEV2" := by decide
  simp only [headFields, List.forall_mem_cons]
  exact ⟨hmagic, hd _, hi, hd _, hd _, hid, hd _, hd _, fun _ h => absurd h List.not_mem_nil⟩

theorem not_mem_hexDigest (D : Digest) (s : Bytes) : (32 : UInt8) ∉ hexDigest D s := by
  intro hm
  obtain ⟨x, -, hx⟩ := List.mem_flatMap.1 hm
  simp only [hexByte, List.mem_cons, List.not_mem_nil, or_false] at hx
  have h32 : ¬ isLowerHex 32 = true := by decide
  rcases hx with hx | hx
  · exact h32 (hx ▸ isLowerHex_hexDigit (shiftRight_lt x))
  · exact h32 (hx ▸ isLowerHex_hexDigit (and_lt x))

/-- The fields of a header line with digests that have no space. -/
theorem split_header {e : Event} (h : uuidValid e.id = true) (obj text : Nat) {x y : Bytes}
    (hx : (32 : UInt8) ∉ x) (hy : (32 : UInt8) ∉ y) :
    (Asper.headText e obj text ++ 32 :: (x ++ 32 :: y)).splitOn 32 =
      headFields e obj text ++ [x, y] := by
  have hi : [32].intercalate [x, y] = x ++ 32 :: y := by simp
  rw [← hi, ← intercalate_headFields e obj text [x, y] (by simp)]
  refine List.splitOn_intercalate 32 (fun f hf => ?_) (by simp [headFields])
  rcases List.mem_append.1 hf with hf | hf
  · exact not_mem_headFields h obj text f hf
  · simp only [List.mem_cons, List.not_mem_nil, or_false] at hf
    rcases hf with rfl | rfl
    · exact hx
    · exact hy

/-! ## The reader -/

section
variable {D : Digest} {e : Event} {s rest : Bytes}

theorem Numbers.ok_of (h : e.Ok) :
    Numbers.ok eventBytes ⟨e.sequence, e.at_, e.kind.code, e.pinned.toNat, e.objectRef.length,
      e.text.length⟩ = true := by
  have h1 := h.seq_pos
  have h2 := h.seq_lt
  have h3 := h.at_ge
  have h4 := h.at_lt
  have h5 := e.kind.code_le
  have h6 := e.pinned.toNat_le
  have h7 := h.object_le
  have h8 := h.size
  simp only [ok, decide_eq_true_eq]
  omega

theorem ascii_object (h : e.Ok) : e.objectRef.all (· < 128) = true := by
  rcases h.object with h | ⟨-, h⟩
  · rw [h]
    rfl
  · simp only [objectText, decide_eq_true_eq] at h
    rw [← List.take_append_drop 7 e.objectRef, h.1, List.all_append, Bool.and_eq_true]
    refine ⟨by decide, List.all_eq_true.2 fun b hb => decide_eq_true ?_⟩
    have hx := List.all_eq_true.1 h.2 b hb
    simp only [isXDigit, isHex, isLowerHex, decide_eq_true_eq, Bool.or_eq_true, Bool.decide_or,
      Bool.decide_and, Bool.and_eq_true, UInt8.le_iff_toNat_le] at hx
    rw [UInt8.lt_iff_toNat_lt]
    simp only [UInt8.reduceToNat] at hx ⊢
    omega

/-- The header of an event, as the script reads it. -/
def headerOf (D : Digest) (e : Event) : Header :=
  ⟨⟨e.sequence, e.at_, e.kind.code, e.pinned.toNat, e.objectRef.length, e.text.length⟩, e.id,
    frameDigest D (Asper.headText e e.objectRef.length e.text.length) e⟩

theorem header_eq_some {limit : Nat} {hline : Bytes} {h : Header} :
    header D limit hline = some h ↔ ∃ fs n, hline.dropLast.splitOn 32 = fs ∧
      (hline.all (· < 128) = true ∧ hline.getLast? = some 10 ∧ fs.length = 10 ∧
        fs.getD 0 [] = ascii "AEV2") ∧ numbers fs = some n ∧
      (n.ok limit = true ∧ idMatches (fs.getD 5 []) = true ∧
        [32].intercalate (fs.take 8) = headText n (fs.getD 5 []) ∧
        fs.getD 8 [] = hexDigest D (headText n (fs.getD 5 []))) ∧
      h = ⟨n, fs.getD 5 [], fs.getD 9 []⟩ := by
  constructor
  · intro hh
    unfold header at hh
    dsimp only at hh
    split at hh
    · next h1 =>
      split at hh
      · cases hh
      · next n hn =>
        split at hh
        · next h2 => exact ⟨_, n, rfl, h1, hn, h2, (Option.some.inj hh).symm⟩
        · cases hh
    · cases hh
  · rintro ⟨fs, n, rfl, h1, hn, h2, rfl⟩
    unfold header
    dsimp only
    rw [if_pos h1, hn]
    exact if_pos h2

theorem header_headLine (h : e.Ok) : header D eventBytes (headLine D e) = some (headerOf D e) := by
  obtain ⟨l, hl, hplain, -, -⟩ := headLine_eq D h
  have hline : l = Asper.headText e e.objectRef.length e.text.length ++
      32 :: (hexDigest D (Asper.headText e e.objectRef.length e.text.length) ++
        32 :: frameDigest D (Asper.headText e e.objectRef.length e.text.length) e) := by
    rw [headLine] at hl
    refine List.append_cancel_right (hl.symm.trans ?_)
    simp
  have hsplit := split_header h.id_valid e.objectRef.length e.text.length
    (not_mem_hexDigest D (Asper.headText e e.objectRef.length e.text.length))
    (not_mem_hexDigest D
      (Asper.headText e e.objectRef.length e.text.length ++ e.objectRef ++ e.text))
  have hascii : (l ++ [10]).all (· < 128) = true := by
    refine List.all_eq_true.2 fun b hb => ?_
    rcases List.mem_append.1 hb with hb | hb
    · exact decide_eq_true (hplain b hb).2
    · rw [List.mem_singleton.1 hb]
      decide
  have hhead := headText_eq e e.objectRef.length e.text.length
  have hfields : (headLine D e).dropLast.splitOn 32 =
      headFields e e.objectRef.length e.text.length ++
        [hexDigest D (Asper.headText e e.objectRef.length e.text.length),
          frameDigest D (Asper.headText e e.objectRef.length e.text.length) e] := by
    rw [hl, List.dropLast_concat, hline]
    exact hsplit
  rw [← hl] at hascii
  refine header_eq_some.2 ⟨_, _, hfields, ⟨hascii, by simp [hl], rfl, rfl⟩,
    numbers_headFields .., ⟨Numbers.ok_of h, (idMatches_eq _).trans h.id_valid, ?_, ?_⟩, rfl⟩
  · exact (intercalate_fields e _ _).trans hhead.symm
  · exact congrArg (hexDigest D) hhead.symm

theorem payload_eq_some {h : Header} {x : Event × Bytes} :
    payload D h rest = some x ↔ ∃ obj size data, h.numbers.obj.toNat = obj ∧
      obj + h.numbers.size.toNat = size ∧ rest.take size = data ∧
      (data.length = size ∧ (rest.drop size).head? = some 10 ∧
        h.hash = hexDigest D (headText h.numbers h.id ++ data) ∧
        (data.take obj).all (· < 128) = true ∧ decodes (data.drop obj) = true ∧
        0 ∉ data.drop obj ∧ (data.take obj = [] ∨ originMatches (data.take obj) = true)) ∧
      ∃ kind, EventKind.ofCode h.numbers.kind.toNat = some kind ∧
        x = (⟨h.numbers.seq.toNat, h.numbers.at_, kind, h.numbers.pinned == 1, h.id,
          data.take obj, data.drop obj⟩, rest.drop (size + 1)) := by
  constructor
  · intro hp
    unfold payload at hp
    dsimp only at hp
    split at hp
    · next h1 =>
      split at hp
      · cases hp
      · next kind hk => exact ⟨_, _, _, rfl, rfl, rfl, h1, kind, hk, (Option.some.inj hp).symm⟩
    · cases hp
  · rintro ⟨_, _, _, rfl, rfl, rfl, h1, kind, hk, rfl⟩
    unfold payload
    dsimp only
    rw [if_pos h1, hk]

theorem payload_frame (h : e.Ok) :
    payload D (headerOf D e) (e.objectRef ++ (e.text ++ 10 :: rest)) = some (e, rest) := by
  have htake : (e.objectRef ++ (e.text ++ 10 :: rest)).take (e.objectRef.length + e.text.length) =
      e.objectRef ++ e.text := by
    rw [← List.append_assoc, ← List.length_append, List.take_left]
  have hdrop : (e.objectRef ++ (e.text ++ 10 :: rest)).drop (e.objectRef.length + e.text.length) =
      10 :: rest := by
    rw [← List.append_assoc, ← List.length_append, List.drop_left]
  have hsize : (headerOf D e).numbers.obj.toNat + (headerOf D e).numbers.size.toNat =
      e.objectRef.length + e.text.length := rfl
  have hpin : (((e.pinned.toNat : Nat) : Int) == 1) = e.pinned := by cases e.pinned <;> rfl
  refine payload_eq_some.2 ⟨e.objectRef.length, _, _, rfl, hsize, htake, ?_, e.kind,
    EventKind.ofCode_code e.kind, ?_⟩
  · rw [hdrop, List.take_left, List.drop_left]
    refine ⟨List.length_append, rfl, ?_, ?_, (decodes_eq _).trans h.utf8, h.no_nul, ?_⟩
    · rw [show headText (headerOf D e).numbers (headerOf D e).id =
        Asper.headText e e.objectRef.length e.text.length from headText_eq e _ _, ← List.append_assoc]
      rfl
    · exact ascii_object h
    · exact h.object.imp id fun ho => (originMatches_eq ho.1).trans ho.2
  · rw [List.take_left, List.drop_left, ← List.drop_drop, hdrop]
    exact congrArg (fun p => ((⟨e.sequence, e.at_, e.kind, p, e.id, e.objectRef, e.text⟩ : Event),
      rest)) hpin.symm

/-! ## What the script accepts -/

theorem EventKind.ofCode_eq_some {k : Nat} {kind : EventKind}
    (h : EventKind.ofCode k = some kind) : kind.code = k := by
  unfold EventKind.ofCode at h
  split at h <;> first | (obtain rfl := Option.some.inj h; rfl) | cases h

theorem headText_of_ok {n : Numbers} {kind : EventKind} (id obj text : Bytes) (hn : n.ok eventBytes = true) (hk : EventKind.ofCode n.kind.toNat = some kind) :
    headText n id = Asper.headText ⟨n.seq.toNat, n.at_, kind, n.pinned == 1, id, obj, text⟩
      n.obj.toNat n.size.toNat := by
  have hcode := EventKind.ofCode_eq_some hk
  rw [← headText_eq]
  dsimp only
  simp only [Numbers.ok, decide_eq_true_eq] at hn
  obtain ⟨⟨h1, -⟩, -, ⟨h2, -⟩, hp, ho, hs, -⟩ := hn
  have hpin : (((n.pinned == 1).toNat : Nat) : Int) = n.pinned := by
    rcases hp with hp | hp <;> rw [hp] <;> rfl
  rw [hcode, hpin, Int.toNat_of_nonneg (by omega), Int.toNat_of_nonneg h2,
    Int.toNat_of_nonneg (by omega), Int.toNat_of_nonneg hs]

/-- What an event of the script satisfies. -/
theorem event_ok {n : Numbers} {id : Bytes} (kind : EventKind) {data : Bytes}
    (hn : n.ok eventBytes = true) (hid : idMatches id = true)
    (hlen : data.length = n.obj.toNat + n.size.toNat)
    (hutf : decodes (data.drop n.obj.toNat) = true) (hnul : 0 ∉ data.drop n.obj.toNat)
    (horigin : data.take n.obj.toNat = [] ∨ originMatches (data.take n.obj.toNat) = true) :
    Event.Ok ⟨n.seq.toNat, n.at_, kind, n.pinned == 1, id, data.take n.obj.toNat,
      data.drop n.obj.toNat⟩ := by
  simp only [Numbers.ok, decide_eq_true_eq] at hn
  obtain ⟨⟨h1, h2⟩, ⟨h3, h4⟩, -, -, -, h5, h6⟩ := hn
  have hid' : uuidValid id = true := (idMatches_eq id).symm.trans hid
  have h4' : n.at_ < 2 ^ 63 := by omega
  refine ⟨⟨h3, h4', hid', ?_, hnul, (decodes_eq _).symm.trans hutf, ?_⟩, ?_, ?_⟩
  · refine horigin.imp_right fun ho => ?_
    have hl : (data.take n.obj.toNat).length = 71 := by
      simp only [originMatches, decide_eq_true_eq] at ho
      exact ho.2.1
    exact ⟨hl, (originMatches_eq hl).symm.trans ho⟩
  · simp only [List.length_drop]
    omega
  · show 0 < n.seq.toNat
    omega
  · show n.seq.toNat < 2 ^ 64
    omega

theorem intercalate_ten {fs : List Bytes} (h : fs.length = 10) :
    [32].intercalate fs =
      [32].intercalate (fs.take 8) ++ 32 :: (fs.getD 8 [] ++ 32 :: fs.getD 9 []) := by
  have hdrop : fs.drop 8 = [fs.getD 8 [], fs.getD 9 []] := by
    rw [List.drop_eq_getElem_cons (by omega), List.drop_eq_getElem_cons (by omega),
      List.drop_of_length_le (by omega), List.getD_eq_getElem _ _ (by omega),
      List.getD_eq_getElem _ _ (by omega)]
  conv_lhs => rw [← List.take_append_drop 8 fs, hdrop]
  rw [intercalate_append (by simp [← List.length_eq_zero_iff, h]) (by simp)]
  simp

theorem payload_split {data rest : Bytes} {size : Nat} (hdata : rest.take size = data)
    (hterm : (rest.drop size).head? = some 10) : rest = data ++ 10 :: rest.drop (size + 1) := by
  obtain ⟨t, ht⟩ := List.head?_eq_some_iff.1 hterm
  rw [← List.drop_drop, ht, List.drop_succ_cons, List.drop_zero, ← ht, ← hdata,
    List.take_append_drop]

theorem event_sound (h : event D eventBytes s = .ok (e, rest)) :
    e.Ok ∧ s = frameBytes D e ++ rest := by
  unfold event at h
  dsimp only at h
  split at h
  · cases h
  split at h
  · cases h
  next hd hhead =>
  split at h
  · cases h
  next x hpay =>
  obtain rfl := Except.ok.inj h
  obtain ⟨fs, n, rfl, ⟨-, hnl, hfs, -⟩, -, ⟨hn, hid, hjoin, hhash⟩, rfl⟩ := header_eq_some.1 hhead
  obtain ⟨_, _, data, rfl, rfl, hdata, ⟨hlen, hterm, hdigest, -, hutf, hnul, horigin⟩, kind, hk,
    hx⟩ := payload_eq_some.1 hpay
  obtain ⟨rfl, rfl⟩ := Prod.mk.inj hx
  dsimp only at *
  have hok := event_ok kind hn hid hlen hutf hnul horigin
  refine ⟨hok, ?_⟩
  obtain ⟨m, -, hm, hs⟩ := fgets_newline (n := 353) (s := s) (by
    rw [← readline_eq]
    exact List.mem_of_getLast? hnl)
  rw [← readline_eq] at hm hs
  have hpay' := payload_split hdata hterm
  generalize readline 352 s = r at *
  obtain ⟨l, body⟩ := r
  dsimp only at *
  subst hm
  rw [List.dropLast_concat] at *
  generalize hfields : m.splitOn 32 = fs at *
  have hline := intercalate_ten hfs
  rw [← hfields, List.intercalate_splitOn, hfields, hjoin, hhash] at hline
  have htext := headText_of_ok (fs.getD 5 []) (data.take n.obj.toNat) (data.drop n.obj.toNat) hn hk
  have hobj : (data.take n.obj.toNat).length = n.obj.toNat := by
    rw [List.length_take]
    omega
  have htxt : (data.drop n.obj.toNat).length = n.size.toNat := by
    rw [List.length_drop]
    omega
  rw [hs, hline, hdigest, frameBytes, headLine, frameDigest]
  dsimp only
  rw [hobj, htxt, ← htext, List.append_assoc _ (data.take _), List.take_append_drop,
    ← List.append_assoc (data.take _), List.take_append_drop]
  conv_lhs => rw [hpay']
  simp

/-- **The script reads an event** exactly where the library does. -/
theorem event_iff : event D eventBytes s = .ok (e, rest) ↔ frameRead D s = .ok (e, rest) := by
  constructor
  · intro h
    obtain ⟨he, rfl⟩ := event_sound h
    exact frameRead_frameBytes D he rest
  · intro h
    obtain ⟨he, rfl⟩ := frameRead_sound h
    obtain ⟨l, hl, hplain, hlen, -⟩ := headLine_eq D he
    have hs : frameBytes D e ++ rest = l ++ 10 :: (e.objectRef ++ (e.text ++ 10 :: rest)) := by
      simp [frameBytes, hl]
    have hread : readline 352 (frameBytes D e ++ rest) =
        (headLine D e, e.objectRef ++ (e.text ++ 10 :: rest)) := by
      rw [readline_eq, hs, fgets_line _ (hplain.not_mem (by decide)) (by omega), hl]
    unfold event
    dsimp only
    rw [hread, if_neg (by rw [hl]; simp)]
    dsimp only
    rw [header_headLine he]
    dsimp only
    rw [payload_frame he]

end

end Py

/-! ## Whole logs -/

section
variable (D : Digest)

theorem frameRead_error {s : Bytes} {e : Err} (h : frameRead D s = .error e) :
    e = .parse ∨ e = .notFound := by
  unfold frameRead at h
  split at h
  · next e' hh =>
    obtain rfl := Except.error.inj h
    unfold frameHead at hh
    dsimp only at hh
    split at hh
    · exact .inr (Except.error.inj hh).symm
    · split at hh
      · split at hh
        · exact .inr (Except.error.inj hh).symm
        · exact .inl (Except.error.inj hh).symm
      · split at hh
        · cases hh
        · exact .inl (Except.error.inj hh).symm
  · dsimp only at h
    split at h
    · exact .inr (Except.error.inj h).symm
    split at h
    · exact .inl (Except.error.inj h).symm
    split at h
    · exact .inr (Except.error.inj h).symm
    split at h
    · exact .inr (Except.error.inj h).symm
    split at h
    · exact .inl (Except.error.inj h).symm
    split at h
    · cases h
    · exact .inl (Except.error.inj h).symm

theorem readline_ne_nil (n : Nat) (b : UInt8) (s : Bytes) :
    (Py.readline (n + 1) (b :: s)).1 ≠ [] := by
  unfold Py.readline
  dsimp only
  split
  · simp
  · next h =>
    intro h0
    rw [show List.takeWhile (· ≠ 10) (List.take (n + 1) (b :: s)) = [] from h0] at h
    simp at h

theorem event_finished {s : Bytes} (h : Py.event D eventBytes s = .error .finished) : s = [] := by
  unfold Py.event at h
  dsimp only at h
  split at h
  · next hr =>
    cases s with
    | nil => rfl
    | cons b s => exact absurd hr (readline_ne_nil 351 b s)
  · split at h
    · cases h
    · split at h <;> cases h

/-- One call of each reader on the same stream. -/
theorem reads_agree (s : Bytes) :
    (∃ e rest, frameRead D s = .ok (e, rest) ∧ Py.event D eventBytes s = .ok (e, rest) ∧
      rest.length < s.length) ∨
    ∃ ec ep, frameRead D s = .error ec ∧ Py.event D eventBytes s = .error ep ∧
      (ec = .parse ∨ ec = .notFound) ∧ (ec = .parse → ep = .raised) := by
  cases hp : Py.event D eventBytes s with
  | ok x =>
    obtain ⟨e, rest⟩ := x
    obtain ⟨-, hs⟩ := Py.event_sound hp
    refine .inl ⟨e, rest, Py.event_iff.1 hp, rfl, ?_⟩
    rw [hs, List.length_append, frameBytes]
    simp
  | error ep =>
    cases hc : frameRead D s with
    | ok x =>
      rw [Py.event_iff.2 hc] at hp
      cases hp
    | error ec =>
      refine .inr ⟨ec, ep, rfl, rfl, frameRead_error D hc, fun he => ?_⟩
      cases ep with
      | raised => rfl
      | finished =>
        rw [event_finished D hp] at hc
        cases he ▸ Except.error.inj hc

/-- **Both readers accept the same logs.** They give the same events, field by field, and come to
an end both; a frame that is damaged for the library raises an exception in the script, and a log
that is cut gives no further event. -/
theorem frames_agree (s : Bytes) : ∃ es ec ep,
    scan (frameRead D) (s.length + 1) s = (es, some ec) ∧
    scan (Py.event D eventBytes) (s.length + 1) s = (es, some ep) ∧
    (ec = .parse ∨ ec = .notFound) ∧ (ec = .parse → ep = .raised) := by
  suffices h : ∀ n (s : Bytes), s.length < n → ∃ es ec ep,
      scan (frameRead D) n s = (es, some ec) ∧ scan (Py.event D eventBytes) n s = (es, some ep) ∧
      (ec = .parse ∨ ec = .notFound) ∧ (ec = .parse → ep = .raised) from h _ s (Nat.lt_succ_self _)
  intro n
  induction n with
  | zero => exact fun s hs => absurd hs (Nat.not_lt_zero _)
  | succ n ih =>
    intro s hs
    rcases reads_agree D s with ⟨e, rest, hc, hp, hlt⟩ | ⟨ec, ep, hc, hp, h⟩
    · obtain ⟨es, ec, ep, h1, h2, h⟩ := ih rest (by omega)
      refine ⟨e :: es, ec, ep, ?_, ?_, h⟩
      · rw [scan, hc]
        dsimp only
        rw [h1]
      · rw [scan, hp]
        dsimp only
        rw [h2]
    · refine ⟨[], ec, ep, ?_, ?_, h⟩
      · rw [scan, hc]
      · rw [scan, hp]

end

end Asper
