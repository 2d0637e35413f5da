import Mathlib.Data.Finset.Card
import Mathlib.Data.Set.Function
import Mathlib.Logic.Function.Iterate
import Mathlib.Tactic.Push

/-! # Sweeping a graph in place

A sweep visits the elements of a list one after another; a visit may change the value of its own
node, which the next visits see. A mark of the values is *rule-like* (`Marks`) when a visit marks
its node exactly when a monotone rule fires for the marks of the moment. Then

* `closed_rounds`: as many sweeps as the list is long leave no rule to fire;
* `mark_rounds_iff`: the marks are those of every closed set over the first ones, so the order of
  the list does not matter.

Elements that leave some nodes alone may be left out of a sweep, as far as those nodes go
(`foldl_eqOn`, `rounds_eqOn`). -/

namespace Sweep

variable {ι κ σ : Type*}

/-- A visit marks its node when a rule fires, keeps marks, and touches no other node. -/
structure Marks (visit : (ι → σ) → κ → ι → σ) (node : κ → ι) (M : σ → Prop)
    (fires : (ι → Prop) → κ → Prop) : Prop where
  mono : ∀ {P Q : ι → Prop} {k : κ}, (∀ i, P i → Q i) → fires P k → fires Q k
  other : ∀ (s : ι → σ) (k : κ) {i : ι}, i ≠ node k → visit s k i = s i
  own : ∀ (s : ι → σ) (k : κ),
    M (visit s k (node k)) ↔ M (s (node k)) ∨ fires (fun i => M (s i)) k

/-- No rule of `order` fires for a node outside `P`. -/
def Closed (node : κ → ι) (fires : (ι → Prop) → κ → Prop) (order : List κ) (P : ι → Prop) :
    Prop := ∀ k ∈ order, fires P k → P (node k)

/-- `n` sweeps. -/
def rounds (visit : (ι → σ) → κ → ι → σ) (order : List κ) (n : Nat) : (ι → σ) → ι → σ :=
  (fun s => order.foldl visit s)^[n]

variable {visit : (ι → σ) → κ → ι → σ} {node : κ → ι} {M : σ → Prop}
  {fires : (ι → Prop) → κ → Prop} {order : List κ} {s : ι → σ}

theorem rounds_succ (n : Nat) :
    rounds visit order (n + 1) s = order.foldl visit (rounds visit order n s) :=
  Function.iterate_succ_apply' _ n s

/-- What every visit keeps, the rounds keep. -/
theorem rounds_inv {P : (ι → σ) → Prop} (h0 : P s) (h : ∀ k ∈ order, ∀ s, P s → P (visit s k)) :
    ∀ n, P (rounds visit order n s)
  | 0 => h0
  | n + 1 => by
    rw [rounds_succ]
    exact List.foldlRecOn order visit (rounds_inv h0 h n) fun s hs k hk => h k hk s hs

section
variable (hM : Marks visit node M fires)
include hM

theorem mark_visit {k : κ} {i : ι} (h : M (s i)) : M (visit s k i) := by
  by_cases hi : i = node k
  · subst hi
    exact (hM.own s k).2 (.inl h)
  · rwa [hM.other s k hi]

theorem mark_foldl {i : ι} (h : M (s i)) : M (order.foldl visit s i) :=
  List.foldlRecOn (motive := fun s => M (s i)) order visit h fun _ hs _ _ => mark_visit hM hs

/-- A rule that fires before the sweep has fired after it. -/
theorem fires_foldl : ∀ {order : List κ} {s : ι → σ} {k : κ}, k ∈ order →
    fires (fun i => M (s i)) k → M (order.foldl visit s (node k))
  | j :: order, s, k, hk, h => by
    rw [List.foldl_cons]
    rcases List.mem_cons.1 hk with rfl | hk
    · exact mark_foldl hM ((hM.own s k).2 (.inr h))
    · exact fires_foldl hk (hM.mono (fun i => mark_visit hM) h)

/-- A visit stays within a set that is closed under its rule. -/
theorem visit_sub {P : ι → Prop} {k : κ} (hs : ∀ i, M (s i) → P i)
    (hk : fires P k → P (node k)) : ∀ i, M (visit s k i) → P i := by
  intro i hi
  by_cases he : i = node k
  · subst he
    rcases (hM.own s k).1 hi with h | h
    · exact hs _ h
    · exact hk (hM.mono hs h)
  · exact hs i (hM.other s k he ▸ hi)

theorem rounds_sub {P : ι → Prop} (hs : ∀ i, M (s i) → P i) (hP : Closed node fires order P)
    (n : Nat) : ∀ i, M (rounds visit order n s i) → P i :=
  rounds_inv (P := fun s => ∀ i, M (s i) → P i) hs (fun k hk _ h => visit_sub hM h (hP k hk)) n

theorem mark_rounds {i : ι} (h : M (s i)) (n : Nat) : M (rounds visit order n s i) :=
  rounds_inv (P := fun s => M (s i)) h (fun _ _ _ => mark_visit hM) n

/-- A sweep of a closed state changes no mark. -/
theorem mark_foldl_iff (h : Closed node fires order fun i => M (s i)) {i : ι} :
    M (order.foldl visit s i) ↔ M (s i) :=
  ⟨rounds_sub hM (fun _ => id) h 1 i, mark_foldl hM⟩

theorem closed_foldl (h : Closed node fires order fun i => M (s i)) :
    Closed node fires order fun i => M (order.foldl visit s i) := by
  intro k hk hf
  refine (mark_foldl_iff hM h).2 (h k hk (hM.mono (fun i hi => ?_) hf))
  exact (mark_foldl_iff hM h).1 hi

/-- **Enough rounds.** As many sweeps as there are elements leave the state closed. -/
theorem closed_rounds :
    Closed node fires order fun i => M (rounds visit order order.length s i) := by
  classical
  let marked n := ((order.map node).toFinset).filter fun i => M (rounds visit order n s i)
  -- every round closes the state or marks one more node
  have key : ∀ n, Closed node fires order (fun i => M (rounds visit order n s i)) ∨
      n ≤ (marked n).card := by
    intro n
    induction n with
    | zero => exact .inr (Nat.zero_le _)
    | succ n ih =>
      by_cases hc : Closed node fires order fun i => M (rounds visit order n s i)
      · rw [rounds_succ]
        exact .inl (closed_foldl hM hc)
      · refine .inr (Nat.lt_of_le_of_lt (ih.resolve_left hc) (Finset.card_lt_card ?_))
        unfold Closed at hc
        push Not at hc
        obtain ⟨k, hk, hf, hn⟩ := hc
        have hm : node k ∈ (order.map node).toFinset :=
          List.mem_toFinset.2 (List.mem_map_of_mem hk)
        refine Finset.ssubset_iff_subset_ne.2 ⟨fun i hi => ?_, fun he => ?_⟩
        · simp only [marked, Finset.mem_filter, rounds_succ] at hi ⊢
          exact ⟨hi.1, mark_foldl hM hi.2⟩
        · have : node k ∈ marked (n + 1) := by
            simp only [marked, Finset.mem_filter, rounds_succ]
            exact ⟨hm, fires_foldl hM hk hf⟩
          rw [← he] at this
          exact hn (Finset.mem_filter.1 this).2
  rcases key order.length with h | h
  · exact h
  · -- every node is marked
    have hall : marked order.length = (order.map node).toFinset := by
      refine Finset.eq_of_subset_of_card_le (Finset.filter_subset _ _) ?_
      calc (order.map node).toFinset.card ≤ (order.map node).length :=
            List.toFinset_card_le _
        _ = order.length := List.length_map _
        _ ≤ _ := h
    intro k hk _
    have : node k ∈ marked order.length := by
      rw [hall]
      exact List.mem_toFinset.2 (List.mem_map_of_mem hk)
    exact (Finset.mem_filter.1 this).2

/-- **The marks in the end** are the least closed set over the first marks. -/
theorem mark_rounds_iff {i : ι} : M (rounds visit order order.length s i) ↔
    ∀ P : ι → Prop, (∀ j, M (s j) → P j) → Closed node fires order P → P i := by
  constructor
  · intro h P hs hP
    exact rounds_sub hM hs hP _ i h
  · intro h
    exact h _ (fun j hj => mark_rounds hM hj _) (closed_rounds hM)

end

/-! ## A part of the nodes -/

section
variable {A : Set ι} {visit' : (ι → σ) → κ → ι → σ} {seen : κ → Bool}

/-- Elements that are not `seen` leave the nodes of `A` alone, the others do the same to them in both
sweeps. -/
theorem foldl_eqOn : ∀ {order : List κ} {s s' : ι → σ},
    (∀ k ∈ order, seen k = true → ∀ s s' : ι → σ, Set.EqOn s s' A →
      Set.EqOn (visit s k) (visit' s' k) A) →
    (∀ k ∈ order, seen k = false → ∀ s : ι → σ, Set.EqOn (visit s k) s A) → Set.EqOn s s' A →
    Set.EqOn (order.foldl visit s) ((order.filter seen).foldl visit' s') A
  | [], _, _, _, _, h => h
  | k :: order, s, s', hseen, hother, h => by
    have hseen' := fun j hj => hseen j (List.mem_cons_of_mem k hj)
    have hother' := fun j hj => hother j (List.mem_cons_of_mem k hj)
    rw [List.foldl_cons]
    cases hk : seen k with
    | true =>
      rw [List.filter_cons_of_pos hk, List.foldl_cons]
      exact foldl_eqOn hseen' hother' (hseen k List.mem_cons_self hk s s' h)
    | false =>
      rw [List.filter_cons_of_neg (by simp [hk])]
      exact foldl_eqOn hseen' hother' ((hother k List.mem_cons_self hk s).trans h)

theorem rounds_eqOn (hseen : ∀ k ∈ order, seen k = true → ∀ s s' : ι → σ, Set.EqOn s s' A →
      Set.EqOn (visit s k) (visit' s' k) A)
    (hother : ∀ k ∈ order, seen k = false → ∀ s : ι → σ, Set.EqOn (visit s k) s A) {s' : ι → σ}
    (h : Set.EqOn s s' A) :
    ∀ n, Set.EqOn (rounds visit order n s) (rounds visit' (order.filter seen) n s') A
  | 0 => h
  | n + 1 => by
    rw [rounds_succ, rounds_succ]
    exact foldl_eqOn hseen hother (rounds_eqOn hseen hother h n)

end

end Sweep
