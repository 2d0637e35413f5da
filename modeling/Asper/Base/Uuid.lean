import Asper.Base.Text

/-! # UUIDs in text form

`uuidValid` is the check of `uuid.c`, which takes either case of the hex digits. The ids the
store makes itself are lowercase: `Uuid` is such an id, `uuidV4` makes one of sixteen random
bytes. -/

namespace Asper

open Durable (Bytes)

/-- The places of the hyphens. -/
def dashAt (i : Nat) : Bool := i = 8 ∨ i = 13 ∨ i = 18 ∨ i = 23

def isLowerHex (b : UInt8) : Bool := (48 ≤ b ∧ b ≤ 57) ∨ (97 ≤ b ∧ b ≤ 102)

def isHex (b : UInt8) : Bool := isLowerHex b ∨ (65 ≤ b ∧ b ≤ 70)

/-- The text has a hyphen at every place marked in `dashes` and a digit at every other. -/
def shapeAux (digit : UInt8 → Bool) : List Bool → Bytes → Bool
  | [], [] => true
  | dash :: ds, b :: s => (if dash then b = 45 else digit b) && shapeAux digit ds s
  | _, _ => false

/-- A text of 36 bytes with the hyphens in place and `digit` true of every other byte. -/
def uuidShape (digit : UInt8 → Bool) (s : Bytes) : Bool :=
  shapeAux digit ((List.range 36).map dashAt) s

def uuidValid (s : Bytes) : Bool := uuidShape isHex s

theorem shapeAux_mono {p q : UInt8 → Bool} (h : ∀ b, p b = true → q b = true) :
    ∀ {ds : List Bool} {s : Bytes}, shapeAux p ds s = true → shapeAux q ds s = true
  | [], [], _ => rfl
  | dash :: ds, b :: s, hs => by
    simp only [shapeAux, Bool.and_eq_true] at hs ⊢
    refine ⟨?_, shapeAux_mono h hs.2⟩
    cases dash
    · exact h b hs.1
    · exact hs.1

theorem uuidShape_mono {p q : UInt8 → Bool} {s : Bytes} (h : ∀ b, p b = true → q b = true)
    (hs : uuidShape p s = true) : uuidShape q s = true := shapeAux_mono h hs

theorem shapeAux_length {p : UInt8 → Bool} : ∀ {ds : List Bool} {s : Bytes},
    shapeAux p ds s = true → s.length = ds.length
  | [], [], _ => rfl
  | _ :: _, _ :: _, h => by
    simp only [shapeAux, Bool.and_eq_true] at h
    rw [List.length_cons, List.length_cons, shapeAux_length h.2]

theorem shapeAux_mem {p : UInt8 → Bool} {b : UInt8} : ∀ {ds : List Bool} {s : Bytes},
    shapeAux p ds s = true → b ∈ s → b = 45 ∨ p b = true
  | [], [], _, hb => absurd hb List.not_mem_nil
  | dash :: ds, c :: s, h, hb => by
    simp only [shapeAux, Bool.and_eq_true] at h
    rcases List.mem_cons.1 hb with rfl | hb
    · cases dash
      · exact .inr h.1
      · exact .inl (of_decide_eq_true h.1)
    · exact shapeAux_mem h.2 hb

/-- An id as the store writes it. -/
abbrev Uuid := {s : Bytes // uuidShape isLowerHex s = true}

theorem Uuid.valid (u : Uuid) : uuidValid u.val = true :=
  uuidShape_mono (fun b h => by simp [isHex, h]) u.2

theorem uuidShape_length {p : UInt8 → Bool} {s : Bytes} (h : uuidShape p s = true) :
    s.length = 36 := shapeAux_length h

/-- No byte of a valid id is a control character, a space or outside ASCII. -/
theorem uuidValid_byte {s : Bytes} (h : uuidValid s = true) {b : UInt8} (hb : b ∈ s) :
    32 < b ∧ b < 0x80 := by
  rcases shapeAux_mem h hb with rfl | hb
  · decide
  · simp only [isHex, isLowerHex, decide_eq_true_eq, Bool.or_eq_true, Bool.decide_or,
      Bool.decide_and, Bool.and_eq_true, UInt8.le_iff_toNat_le] at hb
    simp only [UInt8.lt_iff_toNat_lt]
    simp only [UInt8.reduceToNat] at hb ⊢
    omega

/-! ## New ids -/

def hexDigit (n : UInt8) : UInt8 := if n < 10 then 48 + n else 87 + n

/-- The two hex digits of a byte. -/
def hexByte (b : UInt8) : Bytes := [hexDigit (b >>> 4), hexDigit (b &&& 15)]

def uuidFromBytes (b : Fin 16 → UInt8) : Bytes :=
  [hexByte (b 0), hexByte (b 1), hexByte (b 2), hexByte (b 3), [45],
    hexByte (b 4), hexByte (b 5), [45], hexByte (b 6), hexByte (b 7), [45],
    hexByte (b 8), hexByte (b 9), [45], hexByte (b 10), hexByte (b 11),
    hexByte (b 12), hexByte (b 13), hexByte (b 14), hexByte (b 15)].flatten

theorem isLowerHex_hexDigit {n : UInt8} (h : n < 16) : isLowerHex (hexDigit n) = true := by
  have key : ∀ m : Fin 16, isLowerHex (hexDigit (UInt8.ofNat m)) = true := by decide
  have := key ⟨n.toNat, UInt8.lt_iff_toNat_lt.1 h⟩
  simpa using this

theorem shiftRight_lt (b : UInt8) : b >>> 4 < 16 := by
  have hb := b.toNat_lt
  rw [UInt8.lt_iff_toNat_lt, UInt8.toNat_shiftRight]
  show b.toNat >>> 4 < 16
  rw [Nat.shiftRight_eq_div_pow]
  omega

theorem and_lt (b : UInt8) : b &&& 15 < 16 := by
  rw [UInt8.lt_iff_toNat_lt, UInt8.toNat_and]
  exact Nat.lt_of_le_of_lt Nat.and_le_right (by decide)

theorem shapeAux_hexByte (b : UInt8) (ds : List Bool) (s : Bytes) :
    shapeAux isLowerHex (false :: false :: ds) (hexByte b ++ s) = shapeAux isLowerHex ds s := by
  have h1 := isLowerHex_hexDigit (shiftRight_lt b)
  have h2 := isLowerHex_hexDigit (and_lt b)
  simp only [hexByte, List.cons_append, List.nil_append, shapeAux, h1, h2, Bool.true_and,
    Bool.false_eq_true, if_false]

theorem shapeAux_dash (ds : List Bool) (s : Bytes) :
    shapeAux isLowerHex (true :: ds) ([45] ++ s) = shapeAux isLowerHex ds s := rfl

theorem uuidFromBytes_shape (b : Fin 16 → UInt8) :
    uuidShape isLowerHex (uuidFromBytes b) = true := by
  have hd : (List.range 36).map dashAt =
      [false, false, false, false, false, false, false, false, true, false, false, false, false,
        true, false, false, false, false, true, false, false, false, false, true, false, false,
        false, false, false, false, false, false, false, false, false, false] := by decide
  rw [uuidShape, hd, uuidFromBytes]
  simp only [List.flatten_cons, List.flatten_nil, shapeAux_hexByte, shapeAux_dash, shapeAux]

/-- A version 4 id of sixteen random bytes. -/
def uuidV4 (rnd : Fin 16 → UInt8) : Uuid :=
  ⟨uuidFromBytes fun i =>
    if i = 6 then (rnd 6 &&& 0x0f) ||| 0x40 else if i = 8 then (rnd 8 &&& 0x3f) ||| 0x80 else rnd i,
    uuidFromBytes_shape _⟩

/-! ## Raw form -/

/-- `hex_val` of a digit. -/
def hexVal (b : UInt8) : UInt8 :=
  if 48 ≤ b ∧ b ≤ 57 then b - 48 else if 97 ≤ b ∧ b ≤ 102 then b - 87 else b - 55

/-- The bytes that pairs of digits stand for, hyphens between them skipped. -/
def hexPairs : Bytes → Bytes
  | [] => []
  | a :: s =>
    if a = 45 then hexPairs s
    else match s with
      | [] => []
      | b :: s => (hexVal a <<< 4 ||| hexVal b) :: hexPairs s

def uuidToBytes (s : Bytes) : Option Bytes := if uuidValid s then some (hexPairs s) else none

/-- How many pairs of digits a text with these hyphens has. -/
def pairCount : List Bool → Option Nat
  | [] => some 0
  | true :: ds => pairCount ds
  | false :: false :: ds => (pairCount ds).map (· + 1)
  | [false] | false :: true :: _ => none

theorem isHex_ne_dash {b : UInt8} (h : isHex b = true) : b ≠ 45 := by
  rintro rfl
  exact absurd h (by decide)

theorem hexPairs_length : ∀ {ds : List Bool} {s : Bytes} {n : Nat}, shapeAux isHex ds s = true →
    pairCount ds = some n → (hexPairs s).length = n
  | [], [], _, _, hn => Option.some.inj hn
  | true :: ds, a :: s, _, h, hn => by
    simp only [shapeAux, if_true, Bool.and_eq_true, decide_eq_true_eq] at h
    rw [hexPairs.eq_def]
    exact (congrArg List.length (if_pos h.1)).trans (hexPairs_length h.2 hn)
  | false :: false :: ds, a :: b :: s, n, h, hn => by
    simp only [shapeAux, Bool.false_eq_true, if_false, Bool.and_eq_true] at h
    obtain ⟨k, hk, rfl⟩ := Option.map_eq_some_iff.1 hn
    rw [hexPairs.eq_def]
    refine (congrArg List.length (if_neg (isHex_ne_dash h.1))).trans ?_
    show (hexPairs s).length + 1 = k + 1
    rw [hexPairs_length h.2.2 hk]
  | false :: false :: _, [_], _, h, _ => by simp [shapeAux] at h
  | [false], _, _, _, hn => by cases hn
  | false :: true :: _, _, _, _, hn => by cases hn

theorem uuidToBytes_length {s u : Bytes} (h : uuidToBytes s = some u) : u.length = 16 := by
  unfold uuidToBytes at h
  split at h
  · next hv =>
    obtain rfl := Option.some.inj h
    exact hexPairs_length hv (by decide)
  · cases h

/-- The text of an id in lowercase: a hyphen where it is marked, two digits for each byte. -/
def spellPairs : List Bool → Bytes → Bytes
  | true :: ds, u => 45 :: spellPairs ds u
  | false :: _ :: ds, b :: u => hexByte b ++ spellPairs ds u
  | _, _ => []

theorem isLowerHex_digit {a : UInt8} (h : isLowerHex a = true) :
    ∃ n : Fin 16, a = hexDigit (UInt8.ofNat n) := by
  have key : ∀ m : Fin 256, isLowerHex (UInt8.ofNat m) = true →
      ∃ n : Fin 16, UInt8.ofNat m = hexDigit (UInt8.ofNat n) := by decide +kernel
  have hm := key ⟨a.toNat, a.toNat_lt⟩
  simp only [UInt8.ofNat_toNat] at hm
  exact hm h

theorem hexByte_hexVal {a b : UInt8} (ha : isLowerHex a = true) (hb : isLowerHex b = true) :
    hexByte (hexVal a <<< 4 ||| hexVal b) = [a, b] := by
  have key : ∀ n m : Fin 16,
      hexByte (hexVal (hexDigit (UInt8.ofNat n)) <<< 4 ||| hexVal (hexDigit (UInt8.ofNat m))) =
        [hexDigit (UInt8.ofNat n), hexDigit (UInt8.ofNat m)] := by decide +kernel
  obtain ⟨n, rfl⟩ := isLowerHex_digit ha
  obtain ⟨m, rfl⟩ := isLowerHex_digit hb
  exact key n m

theorem spellPairs_hexPairs : ∀ {ds : List Bool} {s : Bytes} {n : Nat},
    shapeAux isLowerHex ds s = true → pairCount ds = some n → spellPairs ds (hexPairs s) = s
  | [], [], _, _, _ => rfl
  | true :: ds, a :: s, _, h, hn => by
    simp only [shapeAux, if_true, Bool.and_eq_true, decide_eq_true_eq] at h
    obtain ⟨rfl, h⟩ := h
    have hpairs : hexPairs (45 :: s) = hexPairs s := by
      rw [hexPairs.eq_def]
      exact if_pos rfl
    rw [hpairs, spellPairs, spellPairs_hexPairs h hn]
  | false :: false :: ds, a :: b :: s, n, h, hn => by
    simp only [shapeAux, Bool.false_eq_true, if_false, Bool.and_eq_true] at h
    obtain ⟨k, hk, -⟩ := Option.map_eq_some_iff.1 hn
    have hne : a ≠ 45 := isHex_ne_dash (by rw [isHex, h.1]; rfl)
    have hpairs : hexPairs (a :: b :: s) = (hexVal a <<< 4 ||| hexVal b) :: hexPairs s := by
      rw [hexPairs.eq_def]
      exact if_neg hne
    rw [hpairs, spellPairs, hexByte_hexVal h.1 h.2.1, spellPairs_hexPairs h.2.2 hk]
    rfl
  | false :: false :: _, [_], _, h, _ => by simp [shapeAux] at h
  | [false], _, _, _, hn => by cases hn
  | false :: true :: _, _, _, _, hn => by cases hn

theorem uuidFromBytes_eq {u : Bytes} (h : u.length = 16) :
    uuidFromBytes (fun i => u.getD i 0) = spellPairs ((List.range 36).map dashAt) u := by
  have hd : (List.range 36).map dashAt =
      [false, false, false, false, false, false, false, false, true, false, false, false, false,
        true, false, false, false, false, true, false, false, false, false, true, false, false,
        false, false, false, false, false, false, false, false, false, false] := by decide
  rw [hd]
  match u, h with
  | [_, _, _, _, _, _, _, _, _, _, _, _, _, _, _, _], _ => rfl

/-- A lowercase id is read back from its raw form. -/
theorem uuidFromBytes_toBytes {s u : Bytes} (hs : uuidShape isLowerHex s = true)
    (h : uuidToBytes s = some u) : uuidFromBytes (fun i => u.getD i 0) = s := by
  rw [uuidFromBytes_eq (uuidToBytes_length h)]
  rw [uuidToBytes, if_pos (Uuid.valid ⟨s, hs⟩)] at h
  obtain rfl := Option.some.inj h
  have hn : pairCount ((List.range 36).map dashAt) = some 16 := by decide
  exact spellPairs_hexPairs hs hn

end Asper
