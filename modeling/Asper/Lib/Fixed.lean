import Mathlib.Algebra.Group.Int.Defs
import Mathlib.Data.Option.Basic

/-!
# Signed arithmetic of a fixed width

`fit w x` is the value of an expression of a signed type of `w` bits whose exact value is `x`; it
has none when `x` is out of range.
-/

namespace Fixed

variable {w : Nat} {x y : Int}

def Fits (w : Nat) (x : Int) : Prop := -2 ^ (w - 1) ≤ x ∧ x < 2 ^ (w - 1)

instance : Decidable (Fits w x) := inferInstanceAs (Decidable (_ ∧ _))

def fit (w : Nat) (x : Int) : Option Int := if Fits w x then some x else none

theorem fit_of_fits (h : Fits w x) : fit w x = some x := if_pos h

theorem fit_eq_none (h : ¬ Fits w x) : fit w x = none := if_neg h

theorem fit_bind_of_fits {α : Type} {f : Int → Option α} (h : Fits w x) : fit w x >>= f = f x := by
  rw [fit_of_fits h]
  rfl

end Fixed
