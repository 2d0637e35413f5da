import Mathlib.Data.List.Induction
import Mathlib.Tactic.Ring

/-! # Decimal numerals as bytes

`dec n` writes a natural number without leading zeros, `number bs` reads a run of digits back.
`number_dec` is the round trip, `span_dec` cuts a numeral off a longer text at the first byte
that is no digit, `length_dec_le` bounds the length of a numeral. `pad w n` has exactly `w` digits
(`pad_number`, `replicate_dec`). -/

namespace Decimal

/-- The digit of `n < 10`. -/
def digit (n : Nat) : UInt8 := UInt8.ofNat (48 + n)

def isDigit (b : UInt8) : Bool := decide (48 ≤ b.toNat ∧ b.toNat ≤ 57)

/-- The digits of `n`, most significant first; `fuel` bounds their number. -/
def decAux : Nat → Nat → List UInt8
  | 0, n => [digit (n % 10)]
  | fuel + 1, n => if n < 10 then [digit n] else decAux fuel (n / 10) ++ [digit (n % 10)]

def dec (n : Nat) : List UInt8 := decAux n n

/-- The value of a run of digits. -/
def number (bs : List UInt8) : Nat := bs.foldl (fun a b => 10 * a + (b.toNat - 48)) 0

theorem digit_toNat {n : Nat} (h : n < 10) : (digit n).toNat = 48 + n := by
  show (48 + n) % 256 = 48 + n
  omega

theorem isDigit_digit {n : Nat} (h : n < 10) : isDigit (digit n) = true := by
  simp only [isDigit, digit_toNat h, decide_eq_true_eq]
  omega

theorem decAux_digits : ∀ (fuel n : Nat), ∀ b ∈ decAux fuel n, isDigit b = true
  | 0, n, b, h => by
    rw [decAux, List.mem_singleton] at h
    exact h ▸ isDigit_digit (Nat.mod_lt _ (by decide))
  | fuel + 1, n, b, h => by
    rw [decAux] at h
    split at h
    · next hn => exact List.mem_singleton.1 h ▸ isDigit_digit hn
    · rcases List.mem_append.1 h with h | h
      · exact decAux_digits fuel _ b h
      · exact List.mem_singleton.1 h ▸ isDigit_digit (Nat.mod_lt _ (by decide))

theorem dec_digits (n : Nat) : ∀ b ∈ dec n, isDigit b = true := decAux_digits n n

theorem decAux_ne_nil : ∀ fuel n : Nat, decAux fuel n ≠ []
  | 0, _ => by simp [decAux]
  | _ + 1, _ => by rw [decAux]; split <;> simp

theorem dec_ne_nil (n : Nat) : dec n ≠ [] := decAux_ne_nil n n

theorem number_append_digit (bs : List UInt8) {d : Nat} (h : d < 10) :
    number (bs ++ [digit d]) = 10 * number bs + d := by
  simp only [number, List.foldl_append, List.foldl_cons, List.foldl_nil, digit_toNat h]
  omega

theorem number_decAux : ∀ {fuel n : Nat}, n ≤ fuel → number (decAux fuel n) = n
  | 0, n, h => by
    obtain rfl : n = 0 := by omega
    rfl
  | fuel + 1, n, h => by
    rw [decAux]
    split
    · next hn =>
      have := number_append_digit [] hn
      simpa [number] using this
    · rw [number_append_digit _ (Nat.mod_lt _ (by decide)), number_decAux (by omega)]
      omega

/-- **Reading a numeral back** gives the number written. -/
@[simp] theorem number_dec (n : Nat) : number (dec n) = n := number_decAux (Nat.le_refl n)

theorem dec_inj {m n : Nat} (h : dec m = dec n) : m = n := by
  rw [← number_dec m, h, number_dec]

theorem length_decAux_le : ∀ {k : Nat} (fuel : Nat) {n : Nat}, n < 10 ^ (k + 1) →
    (decAux fuel n).length ≤ k + 1
  | k, 0, n, _ => by simp [decAux]
  | k, fuel + 1, n, h => by
    rw [decAux]
    split
    · simp
    · next hn =>
      cases k with
      | zero => omega
      | succ k =>
        have := length_decAux_le (k := k) fuel (n := n / 10) (by rw [pow_succ] at h; omega)
        simpa using this

/-- A number below `10 ^ (k + 1)` has at most `k + 1` digits. -/
theorem length_dec_le {n : Nat} (k : Nat) (h : n < 10 ^ (k + 1)) : (dec n).length ≤ k + 1 :=
  length_decAux_le n h

/-- A run of digits is cut off at the first byte that is no digit. -/
theorem span_digits {bs rest : List UInt8} {c : UInt8} (hb : ∀ b ∈ bs, isDigit b = true)
    (hc : isDigit c = false) :
    (bs ++ c :: rest).takeWhile isDigit = bs ∧ (bs ++ c :: rest).dropWhile isDigit = c :: rest := by
  induction bs with
  | nil => simp [hc]
  | cons b bs ih =>
    obtain ⟨h1, h2⟩ := ih fun x hx => hb x (.tail _ hx)
    have hb' := hb b (.head _)
    constructor
    · rw [List.cons_append, List.takeWhile_cons_of_pos hb', h1]
    · rw [List.cons_append, List.dropWhile_cons_of_pos hb', h2]

theorem span_dec (n : Nat) {c : UInt8} (rest : List UInt8) (hc : isDigit c = false) :
    (dec n ++ c :: rest).takeWhile isDigit = dec n ∧
      (dec n ++ c :: rest).dropWhile isDigit = c :: rest :=
  span_digits (dec_digits n) hc

/-! ## Signed numerals -/

/-- A signed numeral: a minus sign before a negative number. -/
def decInt (i : Int) : List UInt8 := if i < 0 then 45 :: dec i.natAbs else dec i.natAbs

/-- Cut a run of digits off a text; none when it starts with no digit. -/
def scanNat (s : List UInt8) : Option (Nat × List UInt8) :=
  if (s.takeWhile isDigit).isEmpty then none
  else some (number (s.takeWhile isDigit), s.dropWhile isDigit)

/-- Cut a signed numeral off a text. -/
def scanInt (s : List UInt8) : Option (Int × List UInt8) :=
  match s with
  | [] => none
  | b :: t =>
    if b = 45 then (scanNat t).map fun (n, r) => (-(n : Int), r)
    else (scanNat s).map fun (n, r) => ((n : Int), r)

theorem scanNat_dec (n : Nat) {c : UInt8} (rest : List UInt8) (hc : isDigit c = false) :
    scanNat (dec n ++ c :: rest) = some (n, c :: rest) := by
  obtain ⟨h1, h2⟩ := span_dec n rest hc
  rw [scanNat, h1, h2, if_neg (by simp [dec_ne_nil]), number_dec]

/-- A numeral starts with a digit. -/
theorem dec_cons (n : Nat) : ∃ b t, dec n = b :: t ∧ isDigit b = true := by
  cases h : dec n with
  | nil => exact absurd h (dec_ne_nil n)
  | cons b t => exact ⟨b, t, rfl, dec_digits n b (h ▸ List.mem_cons_self)⟩

theorem scanInt_decInt (i : Int) {c : UInt8} (rest : List UInt8) (hc : isDigit c = false) :
    scanInt (decInt i ++ c :: rest) = some (i, c :: rest) := by
  rw [decInt]
  split
  · simp only [List.cons_append, scanInt, if_true, scanNat_dec _ rest hc, Option.map_some]
    rw [show -(i.natAbs : Int) = i by omega]
  · obtain ⟨b, t, hd, hb⟩ := dec_cons i.natAbs
    have h45 : b ≠ 45 := fun h => by subst h; revert hb; decide
    have hs := scanNat_dec i.natAbs rest hc
    rw [hd, List.cons_append] at hs ⊢
    simp only [scanInt, if_neg h45, hs, Option.map_some]
    rw [show (i.natAbs : Int) = i by omega]

theorem length_decInt_le {i : Int} (k : Nat) (h : i.natAbs < 10 ^ (k + 1)) :
    (decInt i).length ≤ k + 2 := by
  have := length_dec_le k h
  rw [decInt]
  split
  · simpa using this
  · omega

theorem decInt_bytes (i : Int) : ∀ b ∈ decInt i, b = 45 ∨ isDigit b = true := by
  intro b hb
  rw [decInt] at hb
  split at hb
  · rcases List.mem_cons.1 hb with rfl | hb
    · exact .inl rfl
    · exact .inr (dec_digits _ _ hb)
  · exact .inr (dec_digits _ _ hb)

/-! ## Numerals of a fixed width -/

/-- `n` in exactly `w` digits. -/
def pad : Nat → Nat → List UInt8
  | 0, _ => []
  | w + 1, n => pad w (n / 10) ++ [digit (n % 10)]

theorem length_pad (w n : Nat) : (pad w n).length = w := by
  induction w generalizing n with
  | zero => rfl
  | succ w ih => rw [pad, List.length_append, ih, List.length_singleton]

theorem pad_digits (w n : Nat) : ∀ b ∈ pad w n, isDigit b = true := by
  induction w generalizing n with
  | zero => exact nofun
  | succ w ih =>
    intro b hb
    rcases List.mem_append.1 hb with hb | hb
    · exact ih _ b hb
    · exact List.mem_singleton.1 hb ▸ isDigit_digit (Nat.mod_lt _ (by decide))

theorem number_pad {w n : Nat} (h : n < 10 ^ w) : number (pad w n) = n := by
  induction w generalizing n with
  | zero =>
    obtain rfl : n = 0 := Nat.lt_one_iff.1 h
    rfl
  | succ w ih =>
    rw [Nat.pow_succ] at h
    rw [pad, number_append_digit _ (Nat.mod_lt _ (by decide)), ih (by omega)]
    omega

theorem digit_isDigit {b : UInt8} (h : isDigit b = true) : digit (b.toNat - 48) = b := by
  have h' := of_decide_eq_true h
  rw [digit, Nat.add_sub_cancel' h'.1, UInt8.ofNat_toNat]

/-- A run of digits is the numeral of its value in its width. -/
theorem pad_number (ds : List UInt8) (h : ∀ b ∈ ds, isDigit b = true) :
    number ds < 10 ^ ds.length ∧ pad ds.length (number ds) = ds := by
  induction ds using List.reverseRecOn with
  | nil => exact ⟨Nat.one_pos, rfl⟩
  | append_singleton ds b ih =>
    obtain ⟨hlt, hpad⟩ := ih fun c hc => h c (List.mem_append_left _ hc)
    have hb := h b (List.mem_append_right ds (List.mem_singleton_self b))
    have hd : b.toNat - 48 < 10 := by
      have := of_decide_eq_true hb
      omega
    have hnum : number (ds ++ [b]) = 10 * number ds + (b.toNat - 48) := by
      conv => lhs; rw [← digit_isDigit hb, number_append_digit ds hd]
    rw [hnum, List.length_append, List.length_singleton, Nat.pow_succ]
    refine ⟨by omega, ?_⟩
    have hdiv : (10 * number ds + (b.toNat - 48)) / 10 = number ds := by omega
    have hmod : (10 * number ds + (b.toNat - 48)) % 10 = b.toNat - 48 := by omega
    rw [pad, hdiv, hmod, hpad, digit_isDigit hb]

theorem number_replicate_zero (k : Nat) (ds : List UInt8) :
    number (List.replicate k 48 ++ ds) = number ds := by
  induction k with
  | zero => rfl
  | succ k ih => rwa [List.replicate_succ, List.cons_append]

/-- A numeral filled up with zeros. -/
theorem replicate_dec {w n : Nat} (h : n < 10 ^ (w + 1)) :
    List.replicate (w + 1 - (dec n).length) 48 ++ dec n = pad (w + 1) n := by
  have hlen := length_dec_le w h
  have hdigits : ∀ b ∈ List.replicate (w + 1 - (dec n).length) 48 ++ dec n, isDigit b = true := by
    intro b hb
    rcases List.mem_append.1 hb with hb | hb
    · exact (List.mem_replicate.1 hb).2 ▸ rfl
    · exact dec_digits n b hb
  have hpad := (pad_number _ hdigits).2
  rw [number_replicate_zero, number_dec, List.length_append, List.length_replicate,
    Nat.sub_add_cancel hlen] at hpad
  exact hpad.symm

end Decimal
