import Asper.Lib.Disk

/-! # Rows of text

A file of rows is the rows with a newline after each. `splitRows` takes it apart and returns what
stands after the last newline; `splitRows_joinRows` is the round trip. -/

namespace Durable

def joinRows (rows : List Bytes) : Bytes := rows.flatMap (· ++ [10])

/-- The rows of a text and what stands after the last newline. -/
def splitRows : Bytes → List Bytes × Bytes
  | [] => ([], [])
  | b :: s =>
    if b = 10 then ([] :: (splitRows s).1, (splitRows s).2)
    else match (splitRows s).1 with
      | [] => ([], b :: (splitRows s).2)
      | r :: rs => ((b :: r) :: rs, (splitRows s).2)

@[simp] theorem joinRows_nil : joinRows [] = [] := rfl

@[simp] theorem joinRows_cons (r : Bytes) (rs : List Bytes) :
    joinRows (r :: rs) = r ++ 10 :: joinRows rs := by simp [joinRows]

@[simp] theorem joinRows_append (rs ss : List Bytes) :
    joinRows (rs ++ ss) = joinRows rs ++ joinRows ss := by simp [joinRows]

theorem splitRows_row {r : Bytes} (s : Bytes) (h : 10 ∉ r) :
    splitRows (r ++ 10 :: s) = (r :: (splitRows s).1, (splitRows s).2) := by
  induction r with
  | nil => simp [splitRows]
  | cons b r ih =>
    have hb : b ≠ 10 := fun he => h (he ▸ List.mem_cons_self)
    rw [List.cons_append, splitRows, if_neg hb, ih fun hm => h (List.mem_cons_of_mem _ hm)]

theorem splitRows_rest {s : Bytes} (h : 10 ∉ s) : splitRows s = ([], s) := by
  induction s with
  | nil => rfl
  | cons b s ih =>
    have hb : b ≠ 10 := fun he => h (he ▸ List.mem_cons_self)
    rw [splitRows, if_neg hb, ih fun hm => h (List.mem_cons_of_mem _ hm)]

/-- **Rows are read back**, with what follows them. -/
theorem splitRows_joinRows {rows : List Bytes} {rest : Bytes} (h : ∀ r ∈ rows, 10 ∉ r)
    (hr : 10 ∉ rest) : splitRows (joinRows rows ++ rest) = (rows, rest) := by
  induction rows with
  | nil => exact splitRows_rest hr
  | cons r rs ih =>
    rw [joinRows_cons, List.append_assoc, List.cons_append, splitRows_row _ (h r (.head _)),
      ih fun x hx => h x (.tail _ hx)]

/-- Nothing of a text is lost when it is taken apart. -/
theorem joinRows_splitRows (s : Bytes) : joinRows (splitRows s).1 ++ (splitRows s).2 = s := by
  induction s with
  | nil => rfl
  | cons b s ih =>
    rw [splitRows]
    split
    · next h => simp [h, ih]
    · cases hrows : (splitRows s).1 with
      | nil =>
        rw [hrows] at ih
        simpa using ih
      | cons r rs =>
        rw [hrows] at ih
        simpa using ih

/-- The rows and what follows them are free of newlines and of bytes that the text has not. -/
theorem splitRows_bytes (s : Bytes) :
    (∀ r ∈ (splitRows s).1, 10 ∉ r ∧ r ⊆ s) ∧ 10 ∉ (splitRows s).2 ∧ (splitRows s).2 ⊆ s := by
  induction s with
  | nil => exact ⟨by simp [splitRows], List.not_mem_nil, List.Subset.refl _⟩
  | cons b s ih =>
    obtain ⟨hrows, hrest, hsub⟩ := ih
    have hcons : ∀ {r : Bytes}, r ⊆ s → r ⊆ b :: s := fun h => List.subset_cons_of_subset b h
    rw [splitRows]
    by_cases hb : b = 10
    · rw [if_pos hb]
      refine ⟨List.forall_mem_cons.2 ⟨⟨List.not_mem_nil, List.nil_subset _⟩, fun r hr => ?_⟩, hrest,
        hcons hsub⟩
      exact ⟨(hrows r hr).1, hcons (hrows r hr).2⟩
    · have hne : ∀ {r : Bytes}, 10 ∉ r → 10 ∉ b :: r := fun h hm =>
        (List.mem_cons.1 hm).elim (fun he => hb he.symm) h
      rw [if_neg hb]
      cases h : (splitRows s).1 with
      | nil => exact ⟨by simp, hne hrest, List.cons_subset_cons b hsub⟩
      | cons r rs =>
        rw [h] at hrows
        refine ⟨List.forall_mem_cons.2 ⟨?_, fun x hx => ?_⟩, hrest, hcons hsub⟩
        · exact ⟨hne (hrows r (.head _)).1, List.cons_subset_cons b (hrows r (.head _)).2⟩
        · exact ⟨(hrows x (.tail _ hx)).1, hcons (hrows x (.tail _ hx)).2⟩

theorem joinRows_getLast {rows : List Bytes} (h : rows ≠ []) :
    (joinRows rows).getLast? = some 10 := by
  rw [← List.dropLast_append_getLast h, joinRows_append]
  simp

end Durable
