import Mathlib.Data.Finset.Card
import Mathlib.Logic.Function.Iterate

/-!
# Covering an initial part with intervals

The interval of `s` is `[lo s, hi s)`. `pass` goes through a list of intervals, in any order, and
extends what is covered from 0 on by each interval that begins within it or touches it.

* `stuck_passes`: as many passes as there are intervals leave none that extends it.
* `le_passes_iff`: they reach a number exactly when every number below it lies in an interval.
-/

namespace Cover

variable {ι : Type} (lo hi : ι → Nat)

/-- What is covered up to `fin`, extended by one interval. -/
def extend (fin : Nat) (s : ι) : Nat := if lo s ≤ fin ∧ fin < hi s then hi s else fin

def pass (spans : List ι) (fin : Nat) : Nat := spans.foldl (extend lo hi) fin

/-- The interval extends what is covered up to `fin`. -/
def Extends (fin : Nat) (s : ι) : Prop := lo s ≤ fin ∧ fin < hi s

/-- Every number below `fin` lies in an interval. -/
def Inside (spans : List ι) (fin : Nat) : Prop := ∀ p < fin, ∃ s ∈ spans, lo s ≤ p ∧ p < hi s

variable {lo hi} {spans : List ι} {fin : Nat}

@[simp] theorem pass_nil : pass lo hi [] fin = fin := rfl

@[simp] theorem pass_cons (s : ι) :
    pass lo hi (s :: spans) fin = pass lo hi spans (extend lo hi fin s) := rfl

theorem extend_of_extends {s : ι} (h : Extends lo hi fin s) : extend lo hi fin s = hi s := if_pos h

theorem extend_of_not {s : ι} (h : ¬ Extends lo hi fin s) : extend lo hi fin s = fin := if_neg h

theorem le_extend (s : ι) : fin ≤ extend lo hi fin s := by
  rw [extend]
  split
  · next h => exact h.2.le
  · exact le_rfl

theorem le_pass : fin ≤ pass lo hi spans fin := by
  induction spans generalizing fin with
  | nil => exact le_rfl
  | cons s spans ih =>
    rw [pass_cons]
    exact (le_extend s).trans ih

theorem inside_extend {s : ι} (hs : s ∈ spans) (h : Inside lo hi spans fin) :
    Inside lo hi spans (extend lo hi fin s) := by
  intro p hp
  rw [extend] at hp
  split at hp
  · next hx =>
    by_cases hlt : p < fin
    · exact h p hlt
    · exact ⟨s, hs, hx.1.trans (Nat.le_of_not_lt hlt), hp⟩
  · exact h p hp

theorem inside_pass (h : Inside lo hi spans fin) : Inside lo hi spans (pass lo hi spans fin) := by
  suffices hall : ∀ (order : List ι) (fin : Nat), (∀ s ∈ order, s ∈ spans) →
      Inside lo hi spans fin → Inside lo hi spans (pass lo hi order fin) from
    hall spans fin (fun _ hs => hs) h
  intro order
  induction order with
  | nil =>
    intro fin _ h
    exact h
  | cons s order ih =>
    intro fin hsub h
    obtain ⟨hs, hsub⟩ := List.forall_mem_cons.1 hsub
    rw [pass_cons]
    exact ih _ hsub (inside_extend hs h)

/-- A pass extends by the first interval that it can, so it moves unless there is none. -/
theorem pass_eq_iff : pass lo hi spans fin = fin ↔ ∀ s ∈ spans, ¬ Extends lo hi fin s := by
  induction spans with
  | nil => simp [pass]
  | cons s spans ih =>
    rw [pass_cons, List.forall_mem_cons]
    by_cases hs : Extends lo hi fin s
    · have hlt : fin < extend lo hi fin s := by
        rw [extend_of_extends hs]
        exact hs.2
      exact iff_of_false (hlt.trans_le le_pass).ne' fun h => h.1 hs
    · rw [extend_of_not hs]
      exact ih.trans (and_iff_right hs).symm

/-- Where a pass ends: it has not moved, or stands at the end of an interval. -/
theorem pass_end (spans : List ι) (fin : Nat) :
    pass lo hi spans fin = fin ∨ ∃ s ∈ spans, pass lo hi spans fin = hi s := by
  induction spans generalizing fin with
  | nil => exact .inl rfl
  | cons s spans ih =>
    rw [pass_cons]
    rcases ih (extend lo hi fin s) with heq | ⟨s', hs', heq⟩
    · rw [heq, extend]
      split
      · exact .inr ⟨s, by simp, rfl⟩
      · exact .inl rfl
    · exact .inr ⟨s', by simp [hs'], heq⟩

/-! ## Enough passes -/

variable (hi spans fin) in
/-- The ends that are still ahead. -/
def ahead : Finset Nat := (spans.map hi).toFinset.filter (fin < ·)

theorem card_ahead_le : (ahead hi spans fin).card ≤ spans.length := by
  refine (Finset.card_filter_le _ _).trans ((List.toFinset_card_le _).trans ?_)
  rw [List.length_map]

/-- A pass that moves leaves one end fewer ahead. -/
theorem ahead_pass (h : pass lo hi spans fin ≠ fin) :
    (ahead hi spans (pass lo hi spans fin)).card < (ahead hi spans fin).card := by
  obtain ⟨s, hs, hend⟩ := (pass_end spans fin).resolve_left h
  have hlt : fin < pass lo hi spans fin := lt_of_le_of_ne le_pass h.symm
  have hsub : ahead hi spans (pass lo hi spans fin) ⊆ ahead hi spans fin := by
    intro x hx
    obtain ⟨hx, hx'⟩ := Finset.mem_filter.1 hx
    exact Finset.mem_filter.2 ⟨hx, hlt.trans hx'⟩
  refine Finset.card_lt_card ((Finset.ssubset_iff_of_subset hsub).2 ⟨hi s, ?_, ?_⟩)
  · rw [hend] at hlt
    exact Finset.mem_filter.2 ⟨List.mem_toFinset.2 (List.mem_map_of_mem hs), hlt⟩
  · simp [ahead, hend]

/-- **Enough passes.** As many as there are intervals leave none that extends what is covered. -/
theorem stuck_passes : ∀ s ∈ spans, ¬ Extends lo hi ((pass lo hi spans)^[spans.length] fin) s := by
  have key : ∀ n, (∀ s ∈ spans, ¬ Extends lo hi ((pass lo hi spans)^[n] fin) s) ∨
      n + (ahead hi spans ((pass lo hi spans)^[n] fin)).card ≤ spans.length := by
    intro n
    induction n with
    | zero =>
      right
      rw [Nat.zero_add]
      exact card_ahead_le
    | succ n ih =>
      rw [Function.iterate_succ_apply']
      by_cases hmove : pass lo hi spans ((pass lo hi spans)^[n] fin) = (pass lo hi spans)^[n] fin
      · rw [hmove]
        exact .inl (pass_eq_iff.1 hmove)
      · right
        have hle := ih.resolve_left fun hstuck => hmove (pass_eq_iff.2 hstuck)
        have hlt := ahead_pass hmove
        omega
  rcases key spans.length with h | h
  · exact h
  · -- no end is ahead any more
    intro s hs hx
    have hmem : hi s ∈ ahead hi spans ((pass lo hi spans)^[spans.length] fin) :=
      Finset.mem_filter.2 ⟨List.mem_toFinset.2 (List.mem_map_of_mem hs), hx.2⟩
    have hpos := Finset.card_pos.2 ⟨hi s, hmem⟩
    omega

theorem inside_passes (n : Nat) : Inside lo hi spans ((pass lo hi spans)^[n] 0) := by
  induction n with
  | zero => exact fun p hp => absurd hp (Nat.not_lt_zero p)
  | succ n ih =>
    rw [Function.iterate_succ_apply']
    exact inside_pass ih

/-- **Covered is reached.** -/
theorem le_passes_iff {size : Nat} :
    size ≤ (pass lo hi spans)^[spans.length] 0 ↔ Inside lo hi spans size := by
  constructor
  · intro hle p hp
    exact inside_passes spans.length p (hp.trans_le hle)
  · intro h
    by_contra hlt
    obtain ⟨s, hs, hx⟩ := h _ (Nat.lt_of_not_le hlt)
    exact stuck_passes s hs hx

end Cover
