import Mathlib.Data.List.Basic

/-! # Programs that allocate and print

A program draws the outcomes of its allocations from a list, which is good for as many as it makes,
and prints values in order. `Gives m Q` is a triple without a precondition: from any state `m`
returns a value and prints some list such that `Q` holds of both and of whether every allocation on
the way found memory. `Gives.bind` runs two programs in sequence. -/

namespace Durable

structure Proc (β : Type) where
  /-- Whether the next allocations find memory; those after the last do. -/
  allocs : List Bool
  out : List β

abbrev ProcM (β : Type) := StateM (Proc β)

variable {α β γ : Type}

def alloc : ProcM β Bool := fun p => (p.allocs.headD true, { p with allocs := p.allocs.tail })

def print (b : β) : ProcM β Unit := fun p => ((), { p with out := p.out ++ [b] })

def Gives (m : ProcM β α) (Q : α → List β → Bool → Prop) : Prop :=
  ∀ p, ∃ used bs, p.allocs = used ++ (m p).2.allocs ∧ (m p).2.out = p.out ++ bs ∧
    Q (m p).1 bs (used.all id)

section
variable {m : ProcM β α} {k : α → ProcM β γ} {P Q : α → List β → Bool → Prop}
  {R : γ → List β → Bool → Prop}

theorem Gives.mono (h : Gives m P) (hq : ∀ a bs ok, P a bs ok → Q a bs ok) : Gives m Q := by
  intro p
  obtain ⟨used, bs, h1, h2, h3⟩ := h p
  exact ⟨used, bs, h1, h2, hq _ _ _ h3⟩

theorem Gives.pure {a : α} (h : Q a [] true) : Gives (Pure.pure a) Q :=
  fun p => ⟨[], [], rfl, (List.append_nil p.out).symm, h⟩

/-- **The sequence rule.** -/
theorem Gives.bind (hm : Gives m P) (hk : ∀ a bs ok, P a bs ok →
    Gives (k a) fun c bs' ok' => R c (bs ++ bs') (ok && ok')) : Gives (m >>= k) R := by
  intro p
  obtain ⟨used, bs, h1, h2, h3⟩ := hm p
  obtain ⟨used', bs', h1', h2', h3'⟩ := hk _ _ _ h3 (m p).2
  refine ⟨used ++ used', bs ++ bs', ?_, ?_, ?_⟩
  · rw [h1, h1', List.append_assoc]
    rfl
  · rw [← List.append_assoc, ← h2, ← h2']
    rfl
  · rw [List.all_append]
    exact h3'

/-- A part that prints nothing. -/
theorem Gives.quiet {P : α → Bool → Prop} (hm : Gives m fun a bs ok => bs = [] ∧ P a ok)
    (hk : ∀ a ok, P a ok → Gives (k a) fun c bs ok' => R c bs (ok && ok')) : Gives (m >>= k) R := by
  refine hm.bind fun a bs ok ⟨hbs, hp⟩ => ?_
  subst hbs
  exact hk a ok hp

end

theorem gives_alloc : Gives (alloc : ProcM β Bool) fun b bs ok => bs = [] ∧ ok = b := by
  rintro ⟨allocs, out⟩
  cases allocs with
  | nil => exact ⟨[], [], rfl, (List.append_nil out).symm, rfl, rfl⟩
  | cons b allocs => exact ⟨[b], [], rfl, (List.append_nil out).symm, rfl, Bool.and_true b⟩

theorem gives_print (b : β) : Gives (print b) fun _ bs ok => bs = [b] ∧ ok = true :=
  fun _ => ⟨[], [b], rfl, rfl, rfl, rfl⟩

/-- **The rule for a loop over a list**: what is used and printed falls apart into the parts of the
elements. -/
theorem forM_parts {ι : Type} {k : ι → ProcM β Unit} {Q : ι → List β → Bool → Prop}
    (hk : ∀ i, Gives (k i) fun _ => Q i) (xs : List ι) (p : Proc β) :
    ∃ parts : List (List Bool × List β),
      List.Forall₂ (fun i part => Q i part.2 (part.1.all id)) xs parts ∧
      p.allocs = (parts.map Prod.fst).flatten ++ (xs.forM k p).2.allocs ∧
      (xs.forM k p).2.out = p.out ++ (parts.map Prod.snd).flatten := by
  induction xs generalizing p with
  | nil => exact ⟨[], .nil, rfl, (List.append_nil p.out).symm⟩
  | cons i xs ih =>
    obtain ⟨used, bs, h1, h2, h3⟩ := hk i p
    obtain ⟨parts, hparts, ha, ho⟩ := ih (k i p).2
    refine ⟨(used, bs) :: parts, .cons h3 hparts, ?_, ?_⟩
    · rw [h1, ha, List.map_cons, List.flatten_cons, List.append_assoc]
      rfl
    · rw [List.map_cons, List.flatten_cons, ← List.append_assoc, ← h2]
      exact ho

end Durable
