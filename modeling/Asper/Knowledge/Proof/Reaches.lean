import Asper.Lib.Depth
import Asper.Knowledge.Proof.Validate

/-! # The bounded search along supports

`reaches` marks the ids it expands, so that shared ancestors do not multiply its work.

* `reaches_memo`: it answers as the search without marks does, which follows every path, and it
  expands no id more than 32 times. -/

namespace Asper

open Durable Bounded

variable {k : Knowledge} {goal : Bytes}

/-- `reaches` without the array of visits. -/
def reachesPlain (k : Knowledge) (goal : Bytes) : Nat → Bytes → Bool
  | 0, _ => true
  | left + 1, id =>
    if id = goal then true
    else match knowledgeFind k id with
      | none => false
      | some e => e.grounding.links.any fun l => l.kind = .supports && reachesPlain k goal left l.recordId

/-! ## The graph of supports -/

def supportIds (ls : List KnowledgeLink) : List Bytes :=
  (ls.filter fun l => l.kind = .supports).map (·.recordId)

/-- What the latest grounding of the id rests on, if there is one. -/
def supportsOf (k : Knowledge) (id : Bytes) : Option (List Bytes) :=
  (knowledgeFind k id).map fun e => supportIds e.grounding.links

theorem next_supportsOf : Next (supportsOf k) = Supports k := by
  funext a b
  simp only [Next, supportsOf, Supports, supportIds, Option.map_eq_some_iff, eq_iff_iff]
  constructor
  · rintro ⟨_, ⟨e, he, rfl⟩, hb⟩
    obtain ⟨l, hl, rfl⟩ := List.mem_map.1 hb
    obtain ⟨hl, hk⟩ := List.mem_filter.1 hl
    exact ⟨e, he, l, hl, of_decide_eq_true hk, rfl⟩
  · rintro ⟨e, he, l, hl, hk, rfl⟩
    exact ⟨_, ⟨e, he, rfl⟩, List.mem_map_of_mem (List.mem_filter.2 ⟨hl, decide_eq_true hk⟩)⟩

theorem reachesPlain_eq {left : Nat} {id : Bytes} :
    reachesPlain k goal left id = plain (supportsOf k) goal left id := by
  induction left generalizing id with
  | zero => rfl
  | succ left ih =>
    rw [reachesPlain, plain]
    by_cases hid : id = goal
    · rw [if_pos hid, if_pos hid]
    · rw [if_neg hid, if_neg hid, supportsOf]
      cases knowledgeFind k id with
      | none => rfl
      | some e =>
        simp only [ih, Option.map_some, supportIds, List.any_map, List.any_filter]
        rfl

theorem reachesLinks_eq {reach : Bytes → Visited → Bool × Visited}
    {visit : Bytes → State Bytes → Bool × State Bytes}
    (hr : ∀ id s, reach id s.marks = ((visit id s).1, (visit id s).2.marks))
    (ls : List KnowledgeLink) (s : State Bytes) :
    reachesLinks reach ls s.marks =
      ((visitAll visit (supportIds ls) s).1, (visitAll visit (supportIds ls) s).2.marks) := by
  induction ls generalizing s with
  | nil => rfl
  | cons l ls ih =>
    rw [reachesLinks]
    by_cases hk : l.kind = .supports
    · have hs : supportIds (l :: ls) = l.recordId :: supportIds ls := by simp [supportIds, hk]
      rw [if_pos hk, hs, visitAll, hr]
      dsimp only
      by_cases hv : (visit l.recordId s).1 = true
      · rw [if_pos hv, if_pos hv]
      · rw [if_neg hv, if_neg hv]
        exact ih _
    · have hs : supportIds (l :: ls) = supportIds ls := by simp [supportIds, hk]
      rw [if_neg hk, hs]
      exact ih s

/-- The array of visits holds the marks of the search. -/
theorem reaches_eq_visit (left : Nat) (id : Bytes) (s : State Bytes) :
    reaches k goal left id s.marks =
      ((visit supportDepth (supportsOf k) goal left id s).1,
        (visit supportDepth (supportsOf k) goal left id s).2.marks) := by
  induction left generalizing id s with
  | zero => rfl
  | succ left ih =>
    rw [reaches, visit]
    by_cases hid : id = goal
    · rw [if_pos hid, if_pos hid]
    · rw [if_neg hid, if_neg hid, supportsOf]
      cases knowledgeFind k id with
      | none => rfl
      | some e =>
        dsimp only [Option.map_some]
        by_cases hm : supportDepth - (left + 1) + 1 ≤ s.marks id
        · rw [if_pos hm, if_pos hm]
        · rw [if_neg hm, if_neg hm]
          exact reachesLinks_eq ih e.grounding.links
            ⟨Function.update s.marks id (supportDepth - (left + 1) + 1), id :: s.expanded⟩

/-! ## From an array of zeros -/

/-- The search from `id`, which notes the ids it expands. -/
def searchFrom (k : Knowledge) (goal id : Bytes) : Bool × State Bytes :=
  visit supportDepth (supportsOf k) goal supportDepth id ⟨fun _ => 0, []⟩

/-- **The marks change no answer**: from an array of zeros, the search finds the target exactly when
the search without marks does, that is, when fewer than 32 supports lead there, or some 32 supports
lead anywhere; and no id is expanded more than 32 times. -/
theorem reaches_memo (k : Knowledge) (goal id : Bytes) :
    (reaches k goal supportDepth id fun _ => 0) =
        ((searchFrom k goal id).1, (searchFrom k goal id).2.marks) ∧
      (reaches k goal supportDepth id fun _ => 0).1 = reachesPlain k goal supportDepth id ∧
      (reachesPlain k goal supportDepth id = true ↔
        (∃ n < 32, Walk (Supports k) n id goal) ∨ ∃ b, Walk (Supports k) 32 id b) ∧
      ∀ x, (searchFrom k goal id).2.expanded.count x ≤ 32 := by
  have heq : reaches k goal supportDepth id (fun _ => 0) =
      ((searchFrom k goal id).1, (searchFrom k goal id).2.marks) :=
    reaches_eq_visit supportDepth id ⟨fun _ => 0, []⟩
  have hs : Bounded.Sound supportDepth (supportsOf k) goal (supportDepth - supportDepth)
      ⟨fun _ => 0, []⟩ := fun x hx => absurd hx (Nat.not_lt_zero _)
  refine ⟨heq, ?_, ?_, fun x => ?_⟩
  · rw [heq, reachesPlain_eq]
    exact (visit_spec le_rfl hs).1
  · rw [reachesPlain_eq, plain_iff, next_supportsOf]
    rfl
  · have hc : Counted supportDepth (searchFrom k goal id).2 :=
      visit_counted le_rfl fun _ => ⟨le_rfl, Nat.zero_le supportDepth⟩
    refine le_of_eq_of_le ?_ ((hc x).1.trans (hc x).2)
    congr!

end Asper
