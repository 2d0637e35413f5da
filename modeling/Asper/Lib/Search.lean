import Mathlib.Data.List.TakeWhile
import Mathlib.Data.List.Lemmas

/-! # Binary search

`lowerBound p xs` is the loop that halves `[lo, hi)` until it is empty, `p` saying that an element
stands before the place looked for. In a list that `p` splits (`Splits`) the loop ends at the place
(`lowerBound_within`). `locate c xs` is the loop that also stops at the element looked for, `c`
saying on which side of it an element stands (`locate_found`, `locate_place`). -/

namespace Search

variable {α : Type*}

/-- The loop. Each turn shortens the interval, which the fuel bounds. -/
def lowerBoundAux (p : α → Bool) (xs : List α) : Nat → Nat → Nat → Nat
  | 0, lo, _ => lo
  | fuel + 1, lo, hi =>
    if lo < hi then
      let mid := lo + (hi - lo) / 2
      match xs[mid]? with
      | some x => if p x then lowerBoundAux p xs fuel (mid + 1) hi else lowerBoundAux p xs fuel lo mid
      | none => lo
    else lo

def lowerBound (p : α → Bool) (xs : List α) : Nat := lowerBoundAux p xs xs.length 0 xs.length

/-- `p` holds of an initial part of the list and nowhere else. -/
def Splits (p : α → Bool) (xs : List α) : Prop := xs.Pairwise fun a b => p b = true → p a = true

theorem Splits.before {p : α → Bool} {xs : List α} (h : Splits p xs) {i j : Nat} {a b : α}
    (hij : i ≤ j) (ha : xs[i]? = some a) (hb : xs[j]? = some b) (hp : p b = true) :
    p a = true := by
  obtain ⟨hi, rfl⟩ := List.getElem?_eq_some_iff.1 ha
  obtain ⟨hj, rfl⟩ := List.getElem?_eq_some_iff.1 hb
  rcases Nat.lt_or_eq_of_le hij with hlt | rfl
  · exact List.pairwise_iff_getElem.1 h i j hi hj hlt hp
  · exact hp

/-- What the loop keeps: `p` holds below `lo` and fails from `hi` on. -/
structure Within (p : α → Bool) (xs : List α) (lo hi : Nat) : Prop where
  below : ∀ i x, xs[i]? = some x → i < lo → p x = true
  above : ∀ i x, xs[i]? = some x → hi ≤ i → p x = false
  le : lo ≤ hi
  len : hi ≤ xs.length

theorem lowerBoundAux_within {p : α → Bool} {xs : List α} (h : Splits p xs) :
    ∀ (fuel : Nat) {lo hi : Nat}, Within p xs lo hi → hi - lo ≤ fuel →
      Within p xs (lowerBoundAux p xs fuel lo hi) (lowerBoundAux p xs fuel lo hi)
  | 0, lo, hi, hw, hf => by
    obtain rfl : lo = hi := by have := hw.le; omega
    exact hw
  | fuel + 1, lo, hi, hw, hf => by
    unfold lowerBoundAux
    split
    · next hlt =>
      have hmid : lo + (hi - lo) / 2 < xs.length := by have := hw.len; omega
      simp only [List.getElem?_eq_getElem hmid]
      split
      · next hp =>
        refine lowerBoundAux_within h fuel ⟨fun i x hx hi' => ?_, hw.above, by omega, hw.len⟩
          (by omega)
        exact h.before (Nat.le_of_lt_succ hi') hx (List.getElem?_eq_getElem hmid) hp
      · next hp =>
        refine lowerBoundAux_within h fuel ⟨hw.below, fun i x hx hi' => ?_, by omega, by omega⟩
          (by omega)
        by_contra hn
        exact hp (h.before hi' (List.getElem?_eq_getElem hmid) hx (by simpa using hn))
    · next hlt =>
      obtain rfl : lo = hi := by have := hw.le; omega
      exact hw

/-- **The search finds the place** before which `p` holds and from which on it fails. -/
theorem lowerBound_within {p : α → Bool} {xs : List α} (h : Splits p xs) :
    Within p xs (lowerBound p xs) (lowerBound p xs) := by
  refine lowerBoundAux_within h _ ⟨fun _ _ _ hi => ?_, fun i x hx hi => ?_, Nat.zero_le _,
    Nat.le_refl _⟩ (by omega)
  · omega
  · rw [List.getElem?_eq_none hi] at hx
    cases hx

/-! ## Stopping at the element -/

/-- The loop, which stops where `c` says `eq`. -/
def locateAux (c : α → Ordering) (xs : List α) : Nat → Nat → Nat → Nat × Bool
  | 0, lo, _ => (lo, false)
  | fuel + 1, lo, hi =>
    if lo < hi then
      let mid := lo + (hi - lo) / 2
      match xs[mid]? with
      | some x => match c x with
        | .eq => (mid, true)
        | .lt => locateAux c xs fuel (mid + 1) hi
        | .gt => locateAux c xs fuel lo mid
      | none => (lo, false)
    else (lo, false)

/-- The place, and whether the element is there. -/
def locate (c : α → Ordering) (xs : List α) : Nat × Bool := locateAux c xs xs.length 0 xs.length

/-- `c` says `lt`, then `eq`, then `gt` along the list. -/
def Ordered (c : α → Ordering) (xs : List α) : Prop :=
  xs.Pairwise fun a b => (c b = .lt → c a = .lt) ∧ (c a = .gt → c b = .gt)

theorem Ordered.splits {c : α → Ordering} {xs : List α} (h : Ordered c xs) :
    Splits (fun x => decide (c x = .lt)) xs :=
  h.imp fun hab hb => decide_eq_true (hab.1 (of_decide_eq_true hb))

theorem locateAux_spec {c : α → Ordering} {xs : List α} (h : Ordered c xs) :
    ∀ (fuel : Nat) {lo hi : Nat}, (∀ i x, xs[i]? = some x → i < lo → c x = .lt) →
      (∀ i x, xs[i]? = some x → hi ≤ i → c x = .gt) → lo ≤ hi → hi ≤ xs.length → hi - lo ≤ fuel →
      ((locateAux c xs fuel lo hi).2 = true →
        ∃ x, xs[(locateAux c xs fuel lo hi).1]? = some x ∧ c x = .eq) ∧
      ((locateAux c xs fuel lo hi).2 = false → (locateAux c xs fuel lo hi).1 ≤ xs.length ∧
        (∀ i x, xs[i]? = some x → i < (locateAux c xs fuel lo hi).1 → c x = .lt) ∧
        ∀ i x, xs[i]? = some x → (locateAux c xs fuel lo hi).1 ≤ i → c x = .gt)
  | 0, lo, hi, hb, ha, hle, hlen, hf => by
    obtain rfl : lo = hi := by omega
    exact ⟨fun hn => absurd hn Bool.false_ne_true, fun _ => ⟨hlen, hb, ha⟩⟩
  | fuel + 1, lo, hi, hb, ha, hle, hlen, hf => by
    unfold locateAux
    split
    · next hlt =>
      have hmid : lo + (hi - lo) / 2 < xs.length := by omega
      have hget := List.getElem?_eq_getElem hmid
      simp only [hget]
      split
      · next heq => exact ⟨fun _ => ⟨_, hget, heq⟩, fun hn => absurd hn (by simp)⟩
      · next hl =>
        refine locateAux_spec h fuel (fun i x hx hi' => ?_) ha (by omega) hlen (by omega)
        exact of_decide_eq_true (h.splits.before (Nat.le_of_lt_succ hi') hx hget
          (decide_eq_true hl))
      · next hg =>
        refine locateAux_spec h fuel hb (fun i x hx hi' => ?_) (by omega) (by omega) (by omega)
        rcases Nat.lt_or_eq_of_le hi' with hi' | rfl
        · obtain ⟨hi2, rfl⟩ := List.getElem?_eq_some_iff.1 hx
          exact (List.pairwise_iff_getElem.1 h _ _ hmid hi2 hi').2 hg
        · rw [hget] at hx
          rwa [← Option.some.inj hx]
    · next hlt =>
      obtain rfl : lo = hi := by omega
      exact ⟨fun hn => absurd hn Bool.false_ne_true, fun _ => ⟨hlen, hb, ha⟩⟩

theorem locate_spec {c : α → Ordering} {xs : List α} (h : Ordered c xs) :
    ((locate c xs).2 = true → ∃ x, xs[(locate c xs).1]? = some x ∧ c x = .eq) ∧
      ((locate c xs).2 = false → (locate c xs).1 ≤ xs.length ∧
        (∀ i x, xs[i]? = some x → i < (locate c xs).1 → c x = .lt) ∧
        ∀ i x, xs[i]? = some x → (locate c xs).1 ≤ i → c x = .gt) :=
  locateAux_spec h _ (fun _ _ _ hi => absurd hi (Nat.not_lt_zero _))
    (fun i x hx hi => by rw [List.getElem?_eq_none hi] at hx; cases hx) (Nat.zero_le _)
    (Nat.le_refl _) (by omega)

/-- The search finds the element exactly when it is in the list. -/
theorem locate_found {c : α → Ordering} {xs : List α} (h : Ordered c xs) :
    (locate c xs).2 = true ↔ ∃ x ∈ xs, c x = .eq := by
  obtain ⟨h1, h2⟩ := locate_spec h
  constructor
  · intro hf
    obtain ⟨x, hx, hc⟩ := h1 hf
    exact ⟨x, List.mem_of_getElem? hx, hc⟩
  · rintro ⟨x, hx, hc⟩
    by_contra hn
    obtain ⟨-, hb, ha⟩ := h2 (by simpa using hn)
    obtain ⟨i, hi⟩ := List.getElem?_of_mem hx
    rcases Nat.lt_or_ge i (locate c xs).1 with hlt | hge
    · rw [hb i x hi hlt] at hc
      cases hc
    · rw [ha i x hi hge] at hc
      cases hc

/-- Where the element is not in the list, the search ends at its place. -/
theorem locate_place {c : α → Ordering} {xs : List α} (h : Ordered c xs)
    (hf : (locate c xs).2 = false) : (∀ x ∈ xs.take (locate c xs).1, c x = .lt) ∧
      ∀ x ∈ xs.drop (locate c xs).1, c x = .gt := by
  obtain ⟨-, hb, ha⟩ := (locate_spec h).2 hf
  constructor
  · intro x hx
    obtain ⟨i, hi, rfl⟩ := List.mem_take_iff_getElem.1 hx
    exact hb i _ (List.getElem?_eq_getElem (by omega)) (by omega)
  · intro x hx
    obtain ⟨i, hi, rfl⟩ := List.mem_drop_iff_getElem.1 hx
    exact ha _ _ (List.getElem?_eq_getElem (by omega)) (by omega)

end Search
