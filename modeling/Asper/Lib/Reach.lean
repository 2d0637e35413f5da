import Mathlib.Logic.Relation

/-! # Reaching one vertex from another

* `not_reaches_of_closed`: what lies in a closed set reaches nothing outside of it.
* `Acyclic R`: no vertex reaches itself. `Acyclic.redirect`: giving one vertex other successors
  keeps this, when it cannot be reached from them. -/

namespace Durable

open Relation

variable {α : Type} {R R' : α → α → Prop} {r : α}

theorem not_reaches_of_closed {C : α → Prop} (hC : ∀ a b, C a → R a b → C b) {a b : α} (ha : C a)
    (hb : ¬ C b) : ¬ ReflTransGen R a b := by
  intro h
  refine hb ?_
  induction h with
  | refl => exact ha
  | tail _ hbc ih => exact hC _ _ (ih fun h => hb (hC _ _ h hbc)) hbc

def Acyclic (R : α → α → Prop) : Prop := ∀ a, ¬ TransGen R a a

/-- A path to `r` uses the successors of `r` only after it has been there. -/
theorem reaches_before (hR : ∀ a b, a ≠ r → R' a b → R a b) {a : α} (h : ReflTransGen R' a r) :
    ReflTransGen R a r := by
  induction h using ReflTransGen.head_induction_on with
  | refl => exact .refl
  | @head a b hab _ ih =>
    by_cases ha : a = r
    · rw [ha]
    · exact .head (hR a b ha hab) ih

/-- A path stays off the successors of `r`, or visits `r`. -/
theorem avoids_or_visits (hR : ∀ a b, a ≠ r → R' a b → R a b) {a b : α} (h : TransGen R' a b) :
    TransGen R a b ∨ ReflTransGen R' a r ∧ TransGen R' r b := by
  induction h with
  | @single b hab =>
    by_cases ha : a = r
    · rw [ha] at hab ⊢
      exact .inr ⟨.refl, .single hab⟩
    · exact .inl (.single (hR a b ha hab))
  | @tail b c hab hbc ih =>
    by_cases hb : b = r
    · rw [hb] at hab hbc
      exact .inr ⟨hab.to_reflTransGen, .single hbc⟩
    · rcases ih with ih | ⟨har, hrb⟩
      · exact .inl (ih.tail (hR b c hb hbc))
      · exact .inr ⟨har, hrb.tail hbc⟩

/-- **New successors** for `r`, from none of which `r` could be reached. -/
theorem Acyclic.redirect (h : Acyclic R) (hR : ∀ a b, a ≠ r → R' a b → R a b)
    (hr : ∀ b, R' r b → ¬ ReflTransGen R b r) : Acyclic R' := by
  have hrr : ¬ TransGen R' r r := by
    intro hc
    obtain ⟨b, hb, hbr⟩ := TransGen.head'_iff.1 hc
    exact hr b hb (reaches_before hR hbr)
  intro a ha
  rcases avoids_or_visits hR ha with ha | ⟨har, hra⟩
  · exact h a ha
  · exact hrr (hra.trans_left har)

end Durable
