import Mathlib.Data.List.Basic

/-! # Greedy selection

`greedy fits acc xs` goes through `xs` and adds what `fits` beside the elements chosen before it.

* `greedy_append`: a selection in two parts.
* `not_fits_of_not_mem`: what was left out did not fit when its turn came.
* `fits_of_mem`: what was chosen did.
* `filter_greedy`: the elements chosen by then are found again in the whole selection. -/

namespace Durable

variable {α : Type} {fits : List α → α → Bool} {acc xs ys : List α} {x : α}

def greedy (fits : List α → α → Bool) : List α → List α → List α
  | acc, [] => acc
  | acc, x :: xs => greedy fits (if fits acc x then acc ++ [x] else acc) xs

theorem greedy_append : ∀ (acc xs ys : List α),
    greedy fits acc (xs ++ ys) = greedy fits (greedy fits acc xs) ys
  | _, [], _ => rfl
  | _, _ :: xs, ys => greedy_append _ xs ys

/-- The selection adds some of the elements, in their order. -/
theorem greedy_eq_append (fits : List α → α → Bool) :
    ∀ (acc xs : List α), ∃ ys, greedy fits acc xs = acc ++ ys ∧ ys.Sublist xs
  | acc, [] => ⟨[], (List.append_nil acc).symm, List.Sublist.refl _⟩
  | acc, x :: xs => by
    unfold greedy
    split
    · obtain ⟨ys, hys, hs⟩ := greedy_eq_append fits (acc ++ [x]) xs
      exact ⟨x :: ys, by rw [hys, List.append_assoc, List.singleton_append], hs.cons_cons x⟩
    · obtain ⟨ys, hys, hs⟩ := greedy_eq_append fits acc xs
      exact ⟨ys, hys, hs.cons x⟩

theorem mem_greedy_of_mem (h : x ∈ acc) : x ∈ greedy fits acc xs := by
  obtain ⟨ys, hys, -⟩ := greedy_eq_append fits acc xs
  rw [hys]
  exact List.mem_append_left _ h

/-- **What is left out did not fit** when its turn came. -/
theorem not_fits_of_not_mem (h : x ∉ greedy fits acc (xs ++ x :: ys)) :
    fits (greedy fits acc xs) x = false := by
  by_contra hf
  refine h ?_
  rw [greedy_append, greedy, if_pos (by simpa using hf)]
  exact mem_greedy_of_mem (by simp)

/-- A test that tells the chosen elements of the first part from those of the second finds what was
chosen of the first. -/
theorem filter_greedy {p : α → Bool} (hx : ∀ x ∈ greedy fits acc xs, p x = true)
    (hy : ∀ y ∈ ys, y ∈ greedy fits acc (xs ++ ys) → p y = false) :
    (greedy fits acc (xs ++ ys)).filter p = greedy fits acc xs := by
  obtain ⟨zs, hzs, hs⟩ := greedy_eq_append fits (greedy fits acc xs) ys
  rw [greedy_append, hzs] at hy ⊢
  rw [List.filter_append, List.filter_eq_self.2 hx, List.filter_eq_nil_iff.2 fun z hz => by
    simp [hy z (hs.subset hz) (List.mem_append_right _ hz)], List.append_nil]

/-- What is chosen did fit when its turn came. -/
theorem fits_of_mem : ∀ {acc xs : List α} {x : α}, x ∈ greedy fits acc xs → x ∉ acc →
    ∃ pre post, xs = pre ++ x :: post ∧ fits (greedy fits acc pre) x = true
  | _, [], _, h, hx => absurd h hx
  | acc, y :: xs, x, h, hx => by
    unfold greedy at h
    by_cases hxy : x = y ∧ fits acc y = true
    · exact ⟨[], xs, by rw [hxy.1]; rfl, by rw [hxy.1]; exact hxy.2⟩
    · have hx' : x ∉ if fits acc y then acc ++ [y] else acc := by
        split
        · next hf =>
          intro hm
          rcases List.mem_append.1 hm with hm | hm
          · exact hx hm
          · exact hxy ⟨List.mem_singleton.1 hm, hf⟩
        · exact hx
      obtain ⟨pre, post, rfl, hf⟩ := fits_of_mem h hx'
      exact ⟨y :: pre, post, rfl, hf⟩

/-- Once nothing fits, the selection is over. -/
theorem greedy_of_full (h : ∀ x, fits acc x = false) : ∀ xs : List α, greedy fits acc xs = acc
  | [] => rfl
  | x :: xs => by
    rw [greedy, if_neg (by rw [h x]; exact Bool.false_ne_true)]
    exact greedy_of_full h xs

/-- **The selection rule**: what every choice keeps holds of the selection. -/
theorem greedy_inv {P : List α → Prop} (hs : ∀ acc x, P acc → fits acc x = true → P (acc ++ [x])) :
    ∀ {acc : List α} (xs : List α), P acc → P (greedy fits acc xs)
  | _, [], h => h
  | acc, x :: xs, h => by
    unfold greedy
    split
    · next hf => exact greedy_inv hs xs (hs acc x h hf)
    · exact greedy_inv hs xs h

end Durable
