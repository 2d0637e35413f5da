import Mathlib.Data.List.Count
import Mathlib.Logic.Function.Basic
import Mathlib.Order.Monotone.Basic

/-!
# Depth-first search with a bound on the depth

`next x` names the successors of a vertex, or says that there is no such vertex. A search that
runs out of steps gives up and answers yes.

* `plain` tries every walk; `plain_iff` says which walks it answers to.
* `visit` marks each vertex it expands with its depth, and passes over a vertex that was marked at
  least as deep before. `visit_spec`: it answers as `plain` does. `visit_counted`: no vertex is
  expanded more often than the bound allows depths.
-/

namespace Bounded

variable {α : Type}

/-- A walk of `n` steps. -/
def Walk (R : α → α → Prop) : Nat → α → α → Prop
  | 0, a, b => a = b
  | n + 1, a, b => ∃ c, R a c ∧ Walk R n c b

/-- `b` is a successor of `a`. -/
def Next (next : α → Option (List α)) (a b : α) : Prop := ∃ ys, next a = some ys ∧ b ∈ ys

structure State (α : Type) where
  /-- One more than the depth a vertex was last expanded at, 0 for never. -/
  marks : α → Nat
  expanded : List α

/-- Each vertex in turn, until one answers yes. -/
def visitAll (visit : α → State α → Bool × State α) : List α → State α → Bool × State α
  | [], s => (false, s)
  | y :: ys, s => if (visit y s).1 then visit y s else visitAll visit ys (visit y s).2

theorem visitAll_keeps {visit : α → State α → Bool × State α} {I : State α → Prop}
    (hv : ∀ y s, I s → I (visit y s).2) (ys : List α) {s : State α} (hs : I s) :
    I (visitAll visit ys s).2 := by
  induction ys generalizing s with
  | nil => exact hs
  | cons y ys ih =>
    rw [visitAll]
    split
    · exact hv y s hs
    · exact ih (hv y s hs)

variable [DecidableEq α] (bound : Nat) (next : α → Option (List α)) (goal : α)

/-! ## Without marks -/

def plain : Nat → α → Bool
  | 0, _ => true
  | left + 1, x =>
    if x = goal then true
    else match next x with
      | none => false
      | some ys => ys.any (plain left)

variable {bound next goal}

theorem plain_succ {left : Nat} {x : α} :
    plain next goal (left + 1) x = true ↔
      x = goal ∨ ∃ y, Next next x y ∧ plain next goal left y = true := by
  rw [plain]
  by_cases hx : x = goal
  · simp [hx]
  · cases hn : next x with
    | none => simp [hx, hn, Next]
    | some ys => simp [hx, hn, Next]

/-- **The plain search** answers to a walk to the goal that is shorter than the bound, and to any
walk that is as long as the bound. -/
theorem plain_iff {left : Nat} {x : α} :
    plain next goal left x = true ↔
      (∃ n < left, Walk (Next next) n x goal) ∨ ∃ y, Walk (Next next) left x y := by
  induction left generalizing x with
  | zero => exact iff_of_true (by rw [plain]) (.inr ⟨x, rfl⟩)
  | succ left ih =>
    rw [plain_succ]
    constructor
    · rintro (hx | ⟨y, hxy, hy⟩)
      · exact .inl ⟨0, Nat.succ_pos left, hx⟩
      · rcases ih.1 hy with ⟨n, hn, hw⟩ | ⟨z, hw⟩
        · exact .inl ⟨n + 1, Nat.succ_lt_succ hn, y, hxy, hw⟩
        · exact .inr ⟨z, y, hxy, hw⟩
    · rintro (⟨n, hn, hw⟩ | ⟨z, y, hxy, hw⟩)
      · cases n with
        | zero => exact .inl hw
        | succ n =>
          obtain ⟨y, hxy, hw⟩ := hw
          exact .inr ⟨y, hxy, ih.2 (.inl ⟨n, Nat.lt_of_succ_lt_succ hn, hw⟩)⟩
      · exact .inr ⟨y, hxy, ih.2 (.inr ⟨z, hw⟩)⟩

theorem plain_of_succ {left : Nat} {x : α} (h : plain next goal (left + 1) x = true) :
    plain next goal left x = true := by
  induction left generalizing x with
  | zero => rw [plain]
  | succ left ih =>
    rcases plain_succ.1 h with hx | ⟨y, hxy, hy⟩
    · exact plain_succ.2 (.inl hx)
    · exact plain_succ.2 (.inr ⟨y, hxy, ih hy⟩)

/-- With more steps left, the answer can only turn to no. -/
theorem plain_false_mono {m n : Nat} {x : α} (h : plain next goal m x = false) (hmn : m ≤ n) :
    plain next goal n x = false := by
  have hanti : Antitone fun n => plain next goal n x = true :=
    antitone_nat_of_succ_le fun _ => plain_of_succ
  exact Bool.eq_false_iff.2 fun hn => Bool.eq_false_iff.1 h (hanti hmn hn)

/-! ## With marks -/

variable (bound next goal)

def visit : Nat → α → State α → Bool × State α
  | 0, _, s => (true, s)
  | left + 1, x, s =>
    if x = goal then (true, s)
    else match next x with
      | none => (false, s)
      | some ys =>
        let depth := bound - (left + 1)
        if depth + 1 ≤ s.marks x then (false, s)
        else visitAll (visit left) ys ⟨Function.update s.marks x (depth + 1), x :: s.expanded⟩

/-- A mark deeper than `d` stands for a plain search that answers no from that depth. -/
def Sound (d : Nat) (s : State α) : Prop :=
  ∀ x, d < s.marks x → plain next goal (bound + 1 - s.marks x) x = false

/-- What a search at depth `d` that answers no does to the marks. -/
structure Missed (d : Nat) (s s' : State α) : Prop where
  sound : Sound bound next goal d s'
  frame : ∀ x, s'.marks x = s.marks x ∨ d < s'.marks x

variable {bound next goal}

theorem Missed.trans {d : Nat} {s s' s'' : State α} (h : Missed bound next goal d s s')
    (h' : Missed bound next goal d s' s'') : Missed bound next goal d s s'' where
  sound := h'.sound
  frame x := by
    rcases h'.frame x with hx | hx
    · rw [hx]
      exact h.frame x
    · exact .inr hx

theorem visitAll_spec {visit : α → State α → Bool × State α} {P : α → Bool} {d : Nat}
    (hv : ∀ y s, Sound bound next goal d s →
      (visit y s).1 = P y ∧ (P y = false → Missed bound next goal d s (visit y s).2))
    (ys : List α) {s : State α} (hs : Sound bound next goal d s) :
    (visitAll visit ys s).1 = ys.any P ∧
      (ys.any P = false → Missed bound next goal d s (visitAll visit ys s).2) := by
  induction ys generalizing s with
  | nil => exact ⟨rfl, fun _ => ⟨hs, fun _ => .inl rfl⟩⟩
  | cons y ys ih =>
    obtain ⟨hy, hm⟩ := hv y s hs
    rw [visitAll, List.any_cons]
    by_cases hP : P y = true
    · rw [if_pos (hy.trans hP), hP]
      exact ⟨hy.trans hP, nofun⟩
    · have hf : P y = false := Bool.eq_false_iff.2 hP
      obtain ⟨ha, hr⟩ := ih (hm hf).sound
      rw [hf, Bool.false_or, if_neg (by rw [hy]; exact hP)]
      exact ⟨ha, fun h => (hm hf).trans (hr h)⟩

/-- The vertices a search is inside of are no deeper than its own vertex. -/
theorem Sound.mark {d : Nat} {s : State α} (h : Sound bound next goal d s) (x : α) :
    Sound bound next goal (d + 1) ⟨Function.update s.marks x (d + 1), x :: s.expanded⟩ := by
  intro y hy
  by_cases hyx : y = x
  · simp [hyx] at hy
  · simp only [Function.update_of_ne hyx] at hy ⊢
    exact h y (by omega)

/-- Once the successors of a vertex have answered no, its own mark stands for a no as well. -/
theorem Missed.expand {d : Nat} {x : α} {s s' : State α}
    (h : Missed bound next goal (d + 1)
      ⟨Function.update s.marks x (d + 1), x :: s.expanded⟩ s')
    (hs : Sound bound next goal d s) (hx : plain next goal (bound - d) x = false) :
    Missed bound next goal d s s' where
  sound y hy := by
    by_cases hdy : d + 1 < s'.marks y
    · exact h.sound y hdy
    · -- no deeper search has touched the mark
      have hfy := (h.frame y).resolve_right hdy
      by_cases hyx : y = x
      · rw [hfy, hyx]
        simpa only [Function.update_self, Nat.add_sub_add_right] using hx
      · simp only [Function.update_of_ne hyx] at hfy
        rw [hfy] at hy ⊢
        exact hs y hy
  frame y := by
    rcases h.frame y with hfy | hfy
    · by_cases hyx : y = x
      · right
        rw [hfy, hyx]
        simp
      · left
        simpa only [Function.update_of_ne hyx] using hfy
    · exact .inr (by omega)

/-- **The marks change nothing**: where each mark stands for a search that answers no, the search
answers as the plain one does, and leaves such marks when it answers no. -/
theorem visit_spec {left : Nat} {x : α} {s : State α} (hl : left ≤ bound)
    (hs : Sound bound next goal (bound - left) s) :
    (visit bound next goal left x s).1 = plain next goal left x ∧
      (plain next goal left x = false →
        Missed bound next goal (bound - left) s (visit bound next goal left x s).2) := by
  induction left generalizing x s with
  | zero => exact ⟨rfl, nofun⟩
  | succ left ih =>
    rw [visit]
    by_cases hx : x = goal
    · have hp : plain next goal (left + 1) x = true := plain_succ.2 (.inl hx)
      rw [if_pos hx, hp]
      exact ⟨rfl, nofun⟩
    rw [if_neg hx]
    cases hn : next x with
    | none =>
      have hp : plain next goal (left + 1) x = false := by rw [plain, if_neg hx, hn]
      rw [hp]
      exact ⟨rfl, fun _ => ⟨hs, fun _ => .inl rfl⟩⟩
    | some ys =>
      have hp : plain next goal (left + 1) x = ys.any (plain next goal left) := by
        rw [plain, if_neg hx, hn]
      obtain ⟨d, hd⟩ : ∃ d, d = bound - (left + 1) := ⟨_, rfl⟩
      have hd' : bound - left = d + 1 := by omega
      rw [← hd] at hs ⊢
      dsimp only
      by_cases hm : d + 1 ≤ s.marks x
      · -- marked before, with no more steps left than now
        have hq : plain next goal (left + 1) x = false :=
          plain_false_mono (hs x (by omega)) (by omega)
        rw [if_pos hm, hq]
        exact ⟨rfl, fun _ => ⟨hs, fun _ => .inl rfl⟩⟩
      rw [if_neg hm, hp]
      rw [hd'] at ih
      obtain ⟨ha, hr⟩ := visitAll_spec (fun y s => ih (x := y) (by omega)) ys (hs.mark x)
      refine ⟨ha, fun hf => (hr hf).expand hs (plain_false_mono (hp.trans hf) (by omega))⟩

/-! ## How often a vertex is expanded -/

variable (bound) in
/-- Each time a vertex is expanded its mark grows, and it stays within the bound. -/
def Counted (s : State α) : Prop := ∀ x, s.expanded.count x ≤ s.marks x ∧ s.marks x ≤ bound

/-- **No vertex is expanded more often** than there are depths. -/
theorem visit_counted {left : Nat} {x : α} {s : State α} (hl : left ≤ bound)
    (hs : Counted bound s) : Counted bound (visit bound next goal left x s).2 := by
  induction left generalizing x s with
  | zero => exact hs
  | succ left ih =>
    rw [visit]
    split
    · exact hs
    split
    · exact hs
    dsimp only
    split
    · exact hs
    · next hm =>
      refine visitAll_keeps (fun y s => ih (by omega)) _ fun y => ?_
      have hy := hs y
      by_cases hyx : y = x
      · subst hyx
        simp only [Function.update_self, List.count_cons_self]
        omega
      · simpa [Function.update_of_ne hyx, List.count_cons, Ne.symm hyx] using hy

end Bounded
