import Mathlib.Data.List.NodupEquivFin
import Mathlib.Data.List.Perm.Subperm
import Mathlib.Logic.Function.Basic

/-! # Rows without holes

Objects own rows of an array that has no holes; each keeps the place of its row, and a place below
zero is none.

* `Linked live rows pos`: a row and the place its owner keeps belong to each other, and only live
  objects own rows.
* `Linked.push`, `Linked.set`: a new row, a new value in a row.
* `Linked.swap`, `Linked.pop`: a row is removed, and the last row takes its place.
* `Linked.alloc`, `Linked.free`: objects without a row come and go. -/

namespace Durable

variable {ρ V : Type}

structure Linked (live : ρ → Prop) (rows : List (ρ × V)) (pos : ρ → Int) : Prop where
  row : ∀ {i : Nat} {p : ρ} {v : V}, rows[i]? = some (p, v) → live p ∧ pos p = i
  back : ∀ {p : ρ}, live p → 0 ≤ pos p → ∃ v, rows[(pos p).toNat]? = some (p, v)

section
variable {live live' : ρ → Prop} {rows : List (ρ × V)} {pos : ρ → Int} {p q : ρ} {v w : V} {i : Nat}

theorem Linked.nil (h : ∀ p, live p → pos p < 0) : Linked live ([] : List (ρ × V)) pos where
  row hi := by cases hi
  back hp hn := absurd (h _ hp) (Int.not_lt.2 hn)

theorem Linked.mem (h : Linked live rows pos) (hm : (p, v) ∈ rows) :
    live p ∧ 0 ≤ pos p ∧ rows[(pos p).toNat]? = some (p, v) := by
  obtain ⟨i, hi⟩ := List.mem_iff_getElem?.1 hm
  obtain ⟨hl, hp⟩ := h.row hi
  rw [hp]
  exact ⟨hl, Int.natCast_nonneg i, hi⟩

/-- No two rows have one owner. -/
theorem Linked.inj (h : Linked live rows pos) {j : Nat} (hi : rows[i]? = some (p, v))
    (hj : rows[j]? = some (p, w)) : i = j := by
  have hp := (h.row hi).2
  rw [(h.row hj).2] at hp
  omega

theorem Linked.nodup (h : Linked live rows pos) : (rows.map Prod.fst).Nodup := by
  rw [List.nodup_iff_injective_getElem]
  rintro ⟨i, hi⟩ ⟨j, hj⟩ he
  rw [List.length_map] at hi hj
  simp only [List.getElem_map] at he
  have hri : rows[i]? = some (rows[i].1, rows[i].2) := List.getElem?_eq_getElem hi
  have hrj : rows[j]? = some (rows[i].1, rows[j].2) := by
    rw [he]
    exact List.getElem?_eq_getElem hj
  exact Fin.ext (h.inj hri hrj)

/-- There are no more rows than objects that may own one. -/
theorem Linked.length_le (h : Linked live rows pos) {owners : List ρ}
    (hl : ∀ p, live p → p ∈ owners) : rows.length ≤ owners.length := by
  have hsub : rows.map Prod.fst ⊆ owners := fun p hp => by
    obtain ⟨⟨q, v⟩, hm, rfl⟩ := List.mem_map.1 hp
    exact hl q (h.mem hm).1
  have hle := (h.nodup.subperm hsub).length_le
  rwa [List.length_map] at hle

/-- The objects that are live, in other words. -/
theorem Linked.of_iff (h : Linked live rows pos) (hl : ∀ p, live' p ↔ live p) :
    Linked live' rows pos where
  row hi := ⟨(hl _).2 (h.row hi).1, (h.row hi).2⟩
  back hp := h.back ((hl _).1 hp)

/-- An object goes that has no row. -/
theorem Linked.free (h : Linked live rows pos) (hn : pos p < 0) :
    Linked (fun x => live x ∧ x ≠ p) rows pos where
  row hi := by
    obtain ⟨hl, hpos⟩ := h.row hi
    refine ⟨⟨hl, fun he => ?_⟩, hpos⟩
    rw [he] at hpos
    omega
  back hl := h.back hl.1

theorem Linked.set (h : Linked live rows pos) (hp : live p) (hi : pos p = i) (v : V) :
    Linked live (rows.set i (p, v)) pos where
  row := by
    intro j p' v' hj
    by_cases hij : i = j
    · subst hij
      have hlt : i < rows.length := by
        have := (List.getElem?_eq_some_iff.1 hj).1
        rwa [List.length_set] at this
      rw [List.getElem?_set_self hlt] at hj
      obtain ⟨rfl, rfl⟩ := Prod.mk.inj (Option.some.inj hj)
      exact ⟨hp, hi⟩
    · rw [List.getElem?_set_ne hij] at hj
      exact h.row hj
  back := by
    intro p' hl hpos
    obtain ⟨v', hv⟩ := h.back hl hpos
    by_cases hij : i = (pos p').toNat
    · have hlt : i < rows.length := hij ▸ (List.getElem?_eq_some_iff.1 hv).1
      have hself : p' = p := by
        obtain ⟨v'', hv''⟩ := h.back hp (hi ▸ Int.natCast_nonneg i)
        rw [hi, Int.toNat_natCast, hij, hv] at hv''
        exact (Prod.mk.inj (Option.some.inj hv'')).1
      rw [← hij, hself]
      exact ⟨v, List.getElem?_set_self hlt⟩
    · rw [List.getElem?_set_ne hij]
      exact ⟨v', hv⟩

section
variable [DecidableEq ρ]

theorem Linked.push (h : Linked live rows pos) (hp : live p) (hn : pos p < 0) (v : V) :
    Linked live (rows ++ [(p, v)]) (Function.update pos p rows.length) where
  row := by
    intro i p' v' hi
    by_cases hlt : i < rows.length
    · rw [List.getElem?_append_left hlt] at hi
      obtain ⟨hl, hpos⟩ := h.row hi
      refine ⟨hl, ?_⟩
      rw [Function.update_of_ne (fun he => ?_), hpos]
      rw [he] at hpos
      omega
    · rw [List.getElem?_append_right (Nat.not_lt.1 hlt)] at hi
      obtain ⟨hz, hx⟩ := List.getElem?_eq_some_iff.1 hi
      rw [List.length_singleton] at hz
      have hzero : i - rows.length = 0 := by omega
      simp only [hzero, List.getElem_cons_zero, Prod.mk.injEq] at hx
      obtain ⟨rfl, rfl⟩ := hx
      refine ⟨hp, ?_⟩
      rw [Function.update_self]
      omega
  back := by
    intro p' hl hpos
    by_cases he : p' = p
    · subst he
      rw [Function.update_self, Int.toNat_natCast]
      exact ⟨v, List.getElem?_concat_length ..⟩
    · rw [Function.update_of_ne he] at hpos ⊢
      obtain ⟨v', hv⟩ := h.back hl hpos
      exact ⟨v', by rw [List.getElem?_append_left (List.getElem?_eq_some_iff.1 hv).1, hv]⟩

/-- The row at the end is removed. -/
theorem Linked.pop (h : Linked live rows pos) (hp : live p) (hi : pos p = i)
    (hlast : i + 1 = rows.length) : Linked live rows.dropLast (Function.update pos p (-1)) where
  row := by
    intro j p' v' hj
    have hlt := (List.getElem?_eq_some_iff.1 hj).1
    rw [List.length_dropLast] at hlt
    rw [List.getElem?_dropLast, if_pos hlt] at hj
    obtain ⟨hl, hpos⟩ := h.row hj
    refine ⟨hl, ?_⟩
    rw [Function.update_of_ne (fun he => ?_), hpos]
    rw [he, hi] at hpos
    omega
  back := by
    intro p' hl hpos
    by_cases he : p' = p
    · rw [he, Function.update_self] at hpos
      omega
    · rw [Function.update_of_ne he] at hpos ⊢
      obtain ⟨v', hv⟩ := h.back hl hpos
      refine ⟨v', ?_⟩
      have hlt := (List.getElem?_eq_some_iff.1 hv).1
      have hne : (pos p').toNat ≠ i := fun hn => he (by
        obtain ⟨v'', hv''⟩ := h.back hp (hi ▸ Int.natCast_nonneg i)
        rw [hi, Int.toNat_natCast, ← hn, hv] at hv''
        exact (Prod.mk.inj (Option.some.inj hv'')).1)
      rw [List.getElem?_dropLast, if_pos (by omega), hv]

/-- A row is removed, and the last row takes its place. -/
theorem Linked.swap (h : Linked live rows pos) (hp : live p) (hi : pos p = i)
    (hlast : rows.getLast? = some (q, w)) (hne : i + 1 ≠ rows.length) :
    Linked live (rows.set i (q, w)).dropLast
      (Function.update (Function.update pos q i) p (-1)) := by
  have hend : rows[rows.length - 1]? = some (q, w) := by rw [← hlast, List.getLast?_eq_getElem?]
  obtain ⟨hq, hqpos⟩ := h.row hend
  have hlen := (List.getElem?_eq_some_iff.1 hend).1
  obtain ⟨vp, hvp⟩ := h.back hp (hi ▸ Int.natCast_nonneg i)
  rw [hi, Int.toNat_natCast] at hvp
  have hilt := (List.getElem?_eq_some_iff.1 hvp).1
  have hqp : q ≠ p := fun he => by
    rw [he, hi] at hqpos
    omega
  constructor
  · intro j p' v' hj
    have hlt := (List.getElem?_eq_some_iff.1 hj).1
    rw [List.length_dropLast, List.length_set] at hlt
    rw [List.getElem?_dropLast, List.length_set, if_pos hlt] at hj
    by_cases hij : i = j
    · subst hij
      rw [List.getElem?_set_self hilt] at hj
      obtain ⟨rfl, rfl⟩ := Prod.mk.inj (Option.some.inj hj)
      rw [Function.update_of_ne hqp, Function.update_self]
      exact ⟨hq, rfl⟩
    · rw [List.getElem?_set_ne hij] at hj
      obtain ⟨hl, hpos⟩ := h.row hj
      refine ⟨hl, ?_⟩
      rw [Function.update_of_ne (fun he => ?_), Function.update_of_ne (fun he => ?_), hpos]
      · rw [he, hqpos] at hpos
        omega
      · rw [he, hi] at hpos
        omega
  · intro p' hl hpos
    by_cases he : p' = p
    · rw [he, Function.update_self] at hpos
      omega
    · rw [Function.update_of_ne he] at hpos ⊢
      by_cases heq : p' = q
      · subst heq
        rw [Function.update_self, Int.toNat_natCast, List.getElem?_dropLast, List.length_set,
          if_pos (by omega), List.getElem?_set_self hilt]
        exact ⟨w, rfl⟩
      · rw [Function.update_of_ne heq] at hpos ⊢
        obtain ⟨v', hv⟩ := h.back hl hpos
        have hlt := (List.getElem?_eq_some_iff.1 hv).1
        have h1 : (pos p').toNat ≠ rows.length - 1 := fun hn => heq (by
          rw [hn, hend] at hv
          exact (Prod.mk.inj (Option.some.inj hv)).1.symm)
        have h2 : i ≠ (pos p').toNat := fun hn => he (by
          rw [← hn, hvp] at hv
          exact (Prod.mk.inj (Option.some.inj hv)).1.symm)
        rw [List.getElem?_dropLast, List.length_set, if_pos (by omega), List.getElem?_set_ne h2, hv]
        exact ⟨v', rfl⟩

/-- An object comes, without a row. -/
theorem Linked.alloc (h : Linked live rows pos) (hp : ¬ live p) :
    Linked (fun x => live x ∨ x = p) rows (Function.update pos p (-1)) where
  row hi := by
    obtain ⟨hl, hpos⟩ := h.row hi
    refine ⟨.inl hl, ?_⟩
    rw [Function.update_of_ne (fun he => ?_), hpos]
    rw [he] at hl
    exact hp hl
  back := by
    intro p' hl hpos
    by_cases he : p' = p
    · rw [he, Function.update_self] at hpos
      omega
    · rw [Function.update_of_ne he] at hpos ⊢
      exact h.back (hl.resolve_right he) hpos

end

end

end Durable
