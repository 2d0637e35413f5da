import Mathlib.Data.List.Forall2
import Mathlib.Data.List.Nodup

/-! # Ranges of a growing list and the items made of them

* `slice es i j`: the elements of `es` from position `i` up to `j`. Ranges that meet join
  (`slice_join`), and a list that grows keeps its ranges (`slice_prefix`).
* `forall₂_acknowledge`: when the items made of the first elements are acknowledged, the others are
  the items of the elements that stay.
* `nodup_of_keyed`: a list without repetition under every key has none. -/

namespace Durable

variable {α β κ : Type}

def slice (es : List α) (i j : Nat) : List α := (es.take j).drop i

@[simp] theorem slice_self (es : List α) (i : Nat) : slice es i i = [] := by
  unfold slice
  rw [List.drop_eq_nil_iff, List.length_take]
  exact Nat.min_le_left _ _

theorem slice_zero (es : List α) (j : Nat) : slice es 0 j = es.take j := List.drop_zero ..

theorem slice_join (es : List α) {i j k : Nat} (hij : i ≤ j) (hjk : j ≤ k) :
    slice es i j ++ slice es j k = slice es i k := by
  unfold slice
  rcases Nat.le_total j es.length with h | h
  · have hlen : (es.take j).length = j := by rw [List.length_take, Nat.min_eq_left h]
    have hsplit : es.take j ++ (es.take k).drop j = es.take k := by
      have htake : (es.take k).take j = es.take j := by rw [List.take_take, Nat.min_eq_left hjk]
      rw [← htake, List.take_append_drop]
    rw [← List.drop_append_of_le_length (by rw [hlen]; exact hij), hsplit]
  · have hk := Nat.le_trans h hjk
    rw [List.take_of_length_le h, List.take_of_length_le hk, List.drop_eq_nil_iff.2 h,
      List.append_nil]

theorem slice_step {es : List α} {i : Nat} (h : i < es.length) : slice es i (i + 1) = [es[i]] := by
  unfold slice
  rw [List.take_succ_eq_append_getElem h, List.drop_left' (by rw [List.length_take]; omega)]

/-- The next element is the first of a range. -/
theorem slice_cons {es : List α} {i j : Nat} (h : i < es.length) (hj : i < j) :
    slice es i j = es[i] :: slice es (i + 1) j := by
  rw [← slice_join es (Nat.le_succ i) hj, slice_step h, List.singleton_append]

theorem slice_prefix {es fs : List α} (h : es <+: fs) {i j : Nat} (hj : j ≤ es.length) :
    slice fs i j = slice es i j := by
  obtain ⟨gs, rfl⟩ := h
  unfold slice
  rw [List.take_append_of_le_length hj]

theorem length_slice_le (es : List α) (i j : Nat) : (slice es i j).length ≤ j - i := by
  unfold slice
  rw [List.length_drop, List.length_take]
  omega

theorem mem_slice {es : List α} {i j : Nat} {a : α} :
    a ∈ slice es i j ↔ ∃ k, ∃ h : k < es.length, i ≤ k ∧ k < j ∧ es[k] = a := by
  unfold slice
  constructor
  · intro h
    obtain ⟨n, hn, rfl⟩ := List.getElem_of_mem h
    have hn' := hn
    simp only [List.length_drop, List.length_take] at hn'
    exact ⟨i + n, by omega, by omega, by omega, by simp⟩
  · rintro ⟨k, h, hi, hj, rfl⟩
    refine List.mem_iff_getElem.2 ⟨k - i, ?_, ?_⟩
    · simp only [List.length_drop, List.length_take]
      omega
    · simp only [List.getElem_drop, List.getElem_take]
      congr 1
      omega

/-! ## Items made of elements -/

theorem forall₂_left {R : α → β → Prop} {as : List α} {bs : List β} (h : List.Forall₂ R as bs)
    {a : α} (ha : a ∈ as) : ∃ b ∈ bs, R a b := by
  induction h with
  | nil => cases ha
  | cons hr _ ih =>
    rcases List.mem_cons.1 ha with rfl | ha
    · exact ⟨_, .head _, hr⟩
    · obtain ⟨b, hb, hr⟩ := ih ha
      exact ⟨b, .tail _ hb, hr⟩

theorem forall₂_right {R : α → β → Prop} {as : List α} {bs : List β} (h : List.Forall₂ R as bs)
    {b : β} (hb : b ∈ bs) : ∃ a ∈ as, R a b :=
  forall₂_left h.flip hb

/-- **An acknowledgement of the first items** removes the elements they were made of. -/
theorem forall₂_acknowledge {R : α → β → Prop} {f : α → κ} {g : β → κ}
    (hR : ∀ a b, R a b → f a = g b) {keep : α → Bool} {es : List α} {xs ys : List β}
    (h : List.Forall₂ R es (xs ++ ys)) (hx : ∀ a ∈ es, (∃ b ∈ xs, g b = f a) → keep a = false)
    (hy : ∀ a ∈ es, (∃ b ∈ ys, g b = f a) → keep a = true) :
    List.Forall₂ R (es.filter keep) ys := by
  have h1 := List.forall₂_take_append es xs ys h
  have h2 := List.forall₂_drop_append es xs ys h
  have hmem {as : List α} {bs : List β} (hab : List.Forall₂ R as bs) {a : α} (ha : a ∈ as) :
      ∃ b ∈ bs, g b = f a :=
    (forall₂_left hab ha).imp fun _ hb => ⟨hb.1, (hR _ _ hb.2).symm⟩
  rw [← List.take_append_drop xs.length es, List.filter_append,
    List.filter_eq_nil_iff.2 fun a ha => by simp [hx a (List.mem_of_mem_take ha) (hmem h1 ha)],
    List.filter_eq_self.2 fun a ha => hy a (List.mem_of_mem_drop ha) (hmem h2 ha), List.nil_append]
  exact h2

/-- What is new under every key, and the same under no two, is not repeated. -/
theorem nodup_of_keyed [DecidableEq κ] {f : α → β} {key : α → κ} : ∀ {xs : List α},
    (∀ k, ((xs.filter fun x => key x = k).map f).Nodup) →
    (∀ x ∈ xs, ∀ y ∈ xs, f x = f y → key x = key y) → (xs.map f).Nodup
  | [], _, _ => .nil
  | x :: xs, hk, hf => by
    have htail (k : κ) : ((xs.filter fun x => key x = k).map f).Nodup := by
      have h := hk k
      by_cases he : key x = k
      · rw [List.filter_cons_of_pos (by simpa using he), List.map_cons, List.nodup_cons] at h
        exact h.2
      · rwa [List.filter_cons_of_neg (by simpa using he)] at h
    rw [List.map_cons, List.nodup_cons]
    refine ⟨fun hm => ?_, nodup_of_keyed htail fun a ha b hb => hf a (.tail _ ha) b (.tail _ hb)⟩
    obtain ⟨y, hy, he⟩ := List.mem_map.1 hm
    have h := hk (key x)
    rw [List.filter_cons_of_pos (by simp), List.map_cons, List.nodup_cons] at h
    refine h.1 (List.mem_map.2 ⟨y, List.mem_filter.2 ⟨hy, ?_⟩, he⟩)
    simpa using hf y (.tail _ hy) x (.head _) he

end Durable
