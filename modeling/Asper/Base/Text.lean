import Asper.Lib.Disk
import Mathlib.Algebra.Group.Nat.Defs
import Mathlib.Data.List.Infix
import Mathlib.Data.List.TakeWhile

/-! # Texts and error codes

The byte strings every other module works on: `CStr` is a C string, `strBlank`, `utf8Count` and
`slugValid` are the checks of `util.c`. A text of ASCII bytes is valid UTF-8
(`utf8Count_ascii`). -/

namespace Asper

open Durable (Bytes)

/-- The error codes of `asper_err`, `ASPER_OK` left out. -/
inductive Err where
  | io | parse | config | model | notFound | locked | invalid | busy | nomem | timeout
  | cancelled | limit | unsupported
  deriving DecidableEq, Repr

/-- Addition in `size_t`. -/
def sizeAdd (a b : Nat) : Nat := (a + b) % 2 ^ 64

/-- Subtraction in `size_t`. -/
def sizeSub (a b : Nat) : Nat := (a + (2 ^ 64 - b)) % 2 ^ 64

theorem sizeAdd_eq {a b : Nat} (h : a + b < 2 ^ 64) : sizeAdd a b = a + b := Nat.mod_eq_of_lt h

theorem sizeSub_eq {a b : Nat} (h : b ≤ a) (ha : a < 2 ^ 64) : sizeSub a b = a - b := by
  unfold sizeSub
  omega

/-- What holds of every byte of a text is decided along the text, not over all the bytes there are. -/
instance (priority := 1100) decidableAlong {α : Type} {p : α → Prop} [DecidablePred p] (s : List α) :
    Decidable (∀ b ∈ s, p b) := List.decidableBAll p s

/-- The bytes of an ASCII literal. -/
def ascii (s : String) : Bytes := s.toList.map fun c => UInt8.ofNat c.toNat

/-- A C string without its terminator. -/
abbrev CStr := {s : Bytes // (0 : UInt8) ∉ s}

def CStr.empty : CStr := ⟨[], List.not_mem_nil⟩

/-- The bytes of a `char` array, up to the terminator. -/
def cstr (s : Bytes) : CStr :=
  ⟨s.takeWhile (· ≠ 0), fun h => by simpa using List.mem_takeWhile_imp h⟩

theorem cstr_self {t : Bytes} (h : 0 ∉ t) : (cstr t).val = t :=
  List.takeWhile_eq_self_iff.2 fun b hb => decide_eq_true fun h0 => h (h0 ▸ hb)

/-- `strcmp`. -/
def strcmp : Bytes → Bytes → Ordering
  | [], [] => .eq
  | [], _ :: _ => .lt
  | _ :: _, [] => .gt
  | a :: s, b :: t => if a < b then .lt else if b < a then .gt else strcmp s t

/-- `strstr`: where `w` occurs first. -/
def strstr (w : Bytes) : Bytes → Option Nat
  | [] => if w = [] then some 0 else none
  | b :: s => if w.isPrefixOf (b :: s) then some 0 else (strstr w s).map (· + 1)

theorem strstr_some {w s : Bytes} {i : Nat} (h : strstr w s = some i) :
    w <+: s.drop i ∧ ∀ j < i, ¬ w <+: s.drop j := by
  induction s generalizing i with
  | nil =>
    rw [strstr] at h
    split at h
    · next hw =>
      cases h
      exact ⟨hw ▸ List.nil_prefix, nofun⟩
    · cases h
  | cons b s ih =>
    rw [strstr] at h
    split at h
    · next hp =>
      cases h
      exact ⟨List.isPrefixOf_iff_prefix.1 hp, nofun⟩
    · next hp =>
      obtain ⟨j, hj, rfl⟩ := Option.map_eq_some_iff.1 h
      obtain ⟨hat, hbefore⟩ := ih hj
      refine ⟨hat, fun k hk => ?_⟩
      cases k with
      | zero => exact fun hc => hp (List.isPrefixOf_iff_prefix.2 hc)
      | succ k => exact hbefore k (Nat.lt_of_succ_lt_succ hk)

theorem strstr_eq_none {w s : Bytes} (h : strstr w s = none) (j : Nat) (hj : j ≤ s.length) :
    ¬ w <+: s.drop j := by
  induction s generalizing j with
  | nil =>
    rw [strstr] at h
    split at h
    · cases h
    · next hw =>
      rw [List.drop_nil]
      exact fun hc => hw (List.prefix_nil.1 hc)
  | cons b s ih =>
    rw [strstr] at h
    split at h
    · cases h
    · next hp =>
      cases j with
      | zero => exact fun hc => hp (List.isPrefixOf_iff_prefix.2 hc)
      | succ j => exact ih (Option.map_eq_none_iff.1 h) j (Nat.le_of_succ_le_succ hj)

theorem strstr_isSome {w s : Bytes} : (strstr w s).isSome = true ↔ w <:+: s := by
  constructor
  · intro h
    obtain ⟨i, hi⟩ := Option.isSome_iff_exists.1 h
    exact (strstr_some hi).1.isInfix.trans (List.drop_suffix i s).isInfix
  · rintro ⟨a, b, rfl⟩
    by_contra hn
    have hnone : strstr w (a ++ w ++ b) = none := Option.not_isSome_iff_eq_none.1 hn
    refine strstr_eq_none hnone a.length (by simp) ?_
    rw [List.append_assoc, List.drop_left]
    exact List.prefix_append w b

def isAsciiSpace (b : UInt8) : Bool :=
  b = 32 ∨ b = 9 ∨ b = 10 ∨ b = 13 ∨ b = 11 ∨ b = 12

def strBlank (s : Bytes) : Bool := s.all isAsciiSpace

/-! ## UTF-8 -/

/-- A continuation byte. -/
def isCont (b : UInt8) : Bool := b &&& 0xc0 = 0x80

/-- The code point `cp` extended by a continuation byte. -/
def addCont (cp : Nat) (b : UInt8) : Nat := cp * 64 + (b &&& 0x3f).toNat

/-- A decoded code point of `need` bytes is neither overlong, a surrogate nor out of range. -/
def cpOk (need cp : Nat) : Bool :=
  !(need = 3 ∧ cp < 0x800 ∨ need = 4 ∧ cp < 0x10000 ∨ (0xd800 ≤ cp ∧ cp ≤ 0xdfff) ∨ 0x10ffff < cp)

/-- The number of code points, none when the text is not UTF-8. -/
def utf8Count : Bytes → Option Nat
  | [] => some 0
  | a :: s =>
    if a < 0x80 then (utf8Count s).map (· + 1)
    else if 0xc2 ≤ a ∧ a ≤ 0xdf then
      match s with
      | b :: s =>
        if isCont b ∧ cpOk 2 (addCont (a &&& 0x1f).toNat b) then (utf8Count s).map (· + 1)
        else none
      | _ => none
    else if 0xe0 ≤ a ∧ a ≤ 0xef then
      match s with
      | b :: c :: s =>
        if isCont b ∧ isCont c ∧ cpOk 3 (addCont (addCont (a &&& 0x0f).toNat b) c) then
          (utf8Count s).map (· + 1)
        else none
      | _ => none
    else if 0xf0 ≤ a ∧ a ≤ 0xf4 then
      match s with
      | b :: c :: d :: s =>
        if isCont b ∧ isCont c ∧ isCont d ∧
            cpOk 4 (addCont (addCont (addCont (a &&& 0x07).toNat b) c) d) then
          (utf8Count s).map (· + 1)
        else none
      | _ => none
    else none

def utf8Valid (s : Bytes) : Bool := (utf8Count s).isSome

theorem utf8Count_cons_ascii {a : UInt8} (s : Bytes) (h : a < 0x80) :
    utf8Count (a :: s) = (utf8Count s).map (· + 1) := by
  rw [utf8Count.eq_def]
  exact if_pos h

/-- ASCII text is UTF-8, one code point a byte. -/
theorem utf8Count_ascii : ∀ {s : Bytes}, (∀ b ∈ s, b < 0x80) → utf8Count s = some s.length
  | [], _ => rfl
  | a :: s, h => by
    rw [utf8Count_cons_ascii s (h a (.head _)), utf8Count_ascii fun b hb => h b (.tail _ hb)]
    rfl

theorem utf8Valid_ascii {s : Bytes} (h : ∀ b ∈ s, b < 0x80) : utf8Valid s = true := by
  rw [utf8Valid, utf8Count_ascii h]
  rfl

/-- An ASCII text before another text does not change whether that is UTF-8. -/
theorem utf8Valid_append_ascii {s : Bytes} (t : Bytes) (h : ∀ b ∈ s, b < 0x80) :
    utf8Valid (s ++ t) = utf8Valid t := by
  induction s with
  | nil => rfl
  | cons a s ih =>
    rw [List.cons_append, utf8Valid, utf8Count_cons_ascii _ (h a (.head _)), Option.isSome_map]
    exact ih fun b hb => h b (.tail _ hb)

/-! ## Hash -/

/-- `asper_fnv1a64`. -/
def fnv1a64 (s : Bytes) : UInt64 :=
  s.foldl (fun h b => (h ^^^ b.toUInt64) * 0x100000001b3) 0xcbf29ce484222325

/-! ## Project slugs -/

def isLowerOrDigit (b : UInt8) : Bool := (97 ≤ b ∧ b ≤ 122) ∨ (48 ≤ b ∧ b ≤ 57)

def slugValid : Bytes → Bool
  | [] => false
  | a :: s => isLowerOrDigit a ∧ s.length ≤ 63 ∧ s.all fun b => isLowerOrDigit b ∨ b = 45

end Asper
