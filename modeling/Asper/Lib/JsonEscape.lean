import Mathlib.Data.List.Basic

/-! # JSON string texts

How a JSON text writes a string: `Escape n w` for one escape `w` of the code unit `n`, `Chars cs s`
for the inside `s` of a string literal of the characters `cs`. A string has many texts; a text is
of at most one string. -/

namespace JsonEscape

/-- The value of a hex digit. -/
def hexValue (b : UInt8) : Option Nat :=
  if 48 ≤ b ∧ b ≤ 57 then some (b.toNat - 48)
  else if 97 ≤ b ∧ b ≤ 102 then some (b.toNat - 87)
  else if 65 ≤ b ∧ b ≤ 70 then some (b.toNat - 55)
  else none

/-- The value of a run of hex digits. -/
def hexNumber (w : List UInt8) : Option Nat :=
  w.foldlM (fun n b => (hexValue b).map (n * 16 + ·)) 0

/-- The letter of a short escape and the code unit it stands for. -/
def shortEscapes : List (UInt8 × Nat) :=
  [(34, 34), (92, 92), (47, 47), (98, 8), (102, 12), (110, 10), (114, 13), (116, 9)]

/-- An escape of the code unit `n`. -/
inductive Escape (n : Nat) : List UInt8 → Prop
  | short {e} : (e, n) ∈ shortEscapes → Escape n [92, e]
  | unicode {w} : w.length = 4 → hexNumber w = some n → Escape n (92 :: 117 :: w)

/-- The inside of a string literal. -/
inductive Chars : List Char → List UInt8 → Prop
  | nil : Chars [] []
  | raw {c cs s} : 32 ≤ c.toNat → c.toNat ≠ 34 → c.toNat ≠ 92 → Chars cs s →
    Chars (c :: cs) (String.utf8EncodeChar c ++ s)
  | escape {c cs w s} : Escape c.toNat w → Chars cs s → Chars (c :: cs) (w ++ s)
  | pair {c cs w₁ w₂ s} : 0x10000 ≤ c.toNat →
    Escape (0xd800 + (c.toNat - 0x10000) / 0x400) w₁ →
    Escape (0xdc00 + (c.toNat - 0x10000) % 0x400) w₂ → Chars cs s →
    Chars (c :: cs) (w₁ ++ w₂ ++ s)

/-- The blanks between tokens. -/
def Blank (w : List UInt8) : Prop := ∀ b ∈ w, b = 32 ∨ b = 9 ∨ b = 10 ∨ b = 13

/-- A text of the object with one member: its key as a literal, its value a string. -/
def OneMember (key : List UInt8) (cs : List Char) (text : List UInt8) : Prop :=
  ∃ w₀ w₁ w₂ w₃ s w₄ w₅, Blank w₀ ∧ Blank w₁ ∧ Blank w₂ ∧ Blank w₃ ∧ Chars cs s ∧ Blank w₄ ∧
    Blank w₅ ∧
    text = w₀ ++ [123] ++ w₁ ++ [34] ++ key ++ [34] ++ w₂ ++ [58] ++ w₃ ++ [34] ++ s ++ [34] ++
      w₄ ++ [125] ++ w₅

theorem hexNumber_digits {w : List UInt8} {n : Nat} (h : hexNumber w = some n) :
    ∀ b ∈ w, (hexValue b).isSome = true := by
  suffices hgen : ∀ (w : List UInt8) (m : Nat),
      w.foldlM (fun n b => (hexValue b).map (n * 16 + ·)) m = some n →
      ∀ b ∈ w, (hexValue b).isSome = true from hgen w 0 h
  intro w
  induction w with
  | nil => exact fun _ _ => nofun
  | cons b w ih =>
    intro m h
    obtain ⟨v, hv, h⟩ := Option.bind_eq_some_iff.1 h
    obtain ⟨d, hd, -⟩ := Option.map_eq_some_iff.1 hv
    exact List.forall_mem_cons.2 ⟨by rw [hd]; rfl, ih v h⟩

end JsonEscape
