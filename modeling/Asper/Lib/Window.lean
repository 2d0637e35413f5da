import Mathlib.Data.List.Sort
import Mathlib.Data.List.TakeWhile

/-! # The best of a stream, kept in a window

`keepBest` holds the first elements of an order in an array of slots: it looks for the place of a new
element from the end, moves what follows by one and drops what no longer fits. An access outside the
slots is none. `keepAll_eq` says that none happens and that the window holds what a full sort would
put first. -/

namespace Durable

variable {α : Type}

/-- The place after the last of the first `count` slots that does not come after the new element. -/
def slotOf (after : α → Bool) (slots : List α) : Nat → Option Nat
  | 0 => some 0
  | pos + 1 => slots[pos]?.bind fun b => if after b then slotOf after slots pos else some (pos + 1)

/-- `memmove` of the slots from `pos` up to `count - 1` by one place. -/
def moveUp (slots : List α) (pos count : Nat) : Option (List α) :=
  if pos < count ∧ count ≤ slots.length then
    some (slots.take (pos + 1) ++ (slots.drop pos).take (count - 1 - pos) ++ slots.drop count)
  else none

def keepBest (before : α → α → Bool) (k : Nat) (w : List α × Nat) (a : α) :
    Option (List α × Nat) :=
  (slotOf (before a) w.1 w.2).bind fun pos =>
    if pos = k then some w
    else
      let count := if w.2 < k then w.2 + 1 else w.2
      (moveUp w.1 pos count).bind fun slots =>
        if pos < slots.length then some (slots.set pos a, count) else none

def keepAll (before : α → α → Bool) (k : Nat) (w : List α × Nat) (as : List α) :
    Option (List α × Nat) :=
  as.foldlM (keepBest before k) w

/-! ## Insertion after equals -/

/-- Insert before the first element that comes after it. -/
def insertAfter (before : α → α → Bool) (a : α) : List α → List α
  | [] => [a]
  | b :: l => if before a b then a :: b :: l else b :: insertAfter before a l

section
variable {before : α → α → Bool} {a : α}

theorem insertAfter_eq (l : List α) : insertAfter before a l =
    l.takeWhile (fun b => !before a b) ++ a :: l.dropWhile fun b => !before a b := by
  induction l with
  | nil => rfl
  | cons b l ih =>
    rw [insertAfter]
    cases h : before a b with
    | true => simp [h]
    | false => simp [h, ih]

theorem insertAfter_perm (l : List α) : (insertAfter before a l).Perm (a :: l) := by
  rw [insertAfter_eq]
  refine List.perm_middle.trans (.cons a ?_)
  rw [List.takeWhile_append_dropWhile]

/-- What was dropped before does not come back. -/
theorem take_insertAfter (k : Nat) (l : List α) :
    (insertAfter before a l).take k = (insertAfter before a (l.take k)).take k := by
  induction l generalizing k with
  | nil => rw [List.take_nil]
  | cons b l ih =>
    cases k with
    | zero => rw [List.take_zero, List.take_zero]
    | succ k =>
      rw [List.take_succ_cons, insertAfter, insertAfter]
      cases before a b with
      | true =>
        rw [if_pos rfl, if_pos rfl, List.take_succ_cons, List.take_succ_cons]
        cases k with
        | zero => rfl
        | succ k =>
          rw [List.take_succ_cons, List.take_succ_cons, List.take_take, min_eq_left (by omega)]
      | false =>
        rw [if_neg (by decide), if_neg (by decide), List.take_succ_cons, List.take_succ_cons, ih]

end

/-! ## An order by keys -/

section
variable {κ : Type} [LinearOrder κ] {key : α → κ} {before : α → α → Bool}

def Ascending (key : α → κ) (l : List α) : Prop := l.Pairwise fun a b => key a ≤ key b

theorem Ascending.insertAfter (hb : ∀ a b, before a b = true ↔ key a < key b) {l : List α}
    (h : Ascending key l) (a : α) : Ascending key (insertAfter before a l) := by
  induction l with
  | nil => exact List.pairwise_singleton _ _
  | cons b l ih =>
    have hle : ∀ {c}, c ∈ l → key b ≤ key c := fun hc => List.rel_of_pairwise_cons h hc
    rw [Durable.insertAfter]
    cases hab : before a b with
    | true =>
      have hlt := (hb a b).1 hab
      refine List.pairwise_cons.2 ⟨fun c hc => ?_, h⟩
      rcases List.mem_cons.1 hc with rfl | hc
      · exact hlt.le
      · exact hlt.le.trans (hle hc)
    | false =>
      have hba : key b ≤ key a := not_lt.1 fun hlt => by
        rw [(hb a b).2 hlt] at hab
        cases hab
      refine List.pairwise_cons.2 ⟨fun c hc => ?_, ih h.of_cons⟩
      rcases List.mem_cons.1 ((insertAfter_perm l).subset hc) with rfl | hc
      · exact hba
      · exact hle hc

/-- The place found from the end is the place found from the front. -/
theorem slotOf_eq (hb : ∀ a b, before a b = true ↔ key a < key b) (a : α) {slots : List α}
    {count : Nat} (hc : count ≤ slots.length) (h : Ascending key (slots.take count)) :
    slotOf (before a) slots count =
      some ((slots.take count).takeWhile fun b => !before a b).length := by
  induction count with
  | zero => rfl
  | succ pos ih =>
    have hlt : pos < slots.length := hc
    have hget : slots[pos]? = some slots[pos] := List.getElem?_eq_getElem hlt
    have htake : slots.take (pos + 1) = slots.take pos ++ [slots[pos]] :=
      (List.take_append_getElem hlt).symm
    rw [slotOf, hget, Option.bind_some, htake]
    rw [htake] at h
    cases hab : before a slots[pos] with
    | true =>
      rw [if_pos rfl, ih hlt.le (List.pairwise_append.1 h).1, List.takeWhile_append]
      split
      · next hlen =>
        rw [List.takeWhile_cons_of_neg (by simp [hab]), List.append_nil, hlen]
      · rfl
    | false =>
      have hall : ∀ b ∈ slots.take pos ++ [slots[pos]], (!before a b) = true := by
        intro b hb'
        have hle : key b ≤ key slots[pos] := by
          rcases List.mem_append.1 hb' with hb' | hb'
          · exact (List.pairwise_append.1 h).2.2 b hb' _ (List.mem_singleton_self _)
          · rw [List.mem_singleton.1 hb']
        have hn : ¬ key a < key slots[pos] := fun hlt => by
          rw [(hb _ _).2 hlt] at hab
          cases hab
        rw [Bool.not_eq_true', Bool.eq_false_iff]
        exact fun ht => hn (((hb a b).1 ht).trans_le hle)
      rw [if_neg (by decide), List.takeWhile_eq_self_iff.2 hall, ← htake, List.length_take,
        min_eq_left hlt]

/-- What a window of `k` slots holds of the elements so far, `l` in their order. -/
structure Windowed (k : Nat) (slots : List α) (l : List α) (w : List α × Nat) : Prop where
  length : w.1.length = slots.length
  rest : w.1.drop k = slots.drop k
  count : w.2 = min k l.length
  best : w.1.take w.2 = l.take k

/-- **One element goes to its place**, and nothing outside the window is touched. -/
theorem keepBest_eq (hb : ∀ a b, before a b = true ↔ key a < key b) {k : Nat} {slots l : List α}
    {w : List α × Nat} (hk : k ≤ slots.length) (h : Windowed k slots l w) (hl : Ascending key l)
    (a : α) : ∃ w', keepBest before k w a = some w' ∧ Windowed k slots (insertAfter before a l) w' := by
  obtain ⟨ws, n⟩ := w
  obtain ⟨hlen, hrest, hn, hbest⟩ := h
  dsimp only at hlen hrest hn hbest
  have hnk : n ≤ k := hn ▸ min_le_left _ _
  have hnl : n ≤ ws.length := by omega
  have hsort : Ascending key (ws.take n) := hbest ▸ hl.sublist (List.take_sublist k l)
  have hins : (insertAfter before a l).take k = (insertAfter before a (ws.take n)).take k := by
    rw [take_insertAfter, hbest]
  have hlen' : (insertAfter before a l).length = l.length + 1 := (insertAfter_perm l).length_eq
  generalize hp : ((ws.take n).takeWhile fun b => !before a b).length = pos
  have hpn : pos ≤ n := by
    have := (List.takeWhile_prefix (l := ws.take n) fun b => !before a b).length_le
    rw [hp, List.length_take] at this
    omega
  -- the list with the element in it
  have htw : (ws.take n).takeWhile (fun b => !before a b) = ws.take pos := by
    have := List.prefix_iff_eq_take.1 (List.takeWhile_prefix (l := ws.take n) fun b => !before a b)
    rw [hp, List.take_take, min_eq_left hpn] at this
    exact this
  have hdw : (ws.take n).dropWhile (fun b => !before a b) = (ws.drop pos).take (n - pos) := by
    have := List.takeWhile_append_dropWhile (p := fun b => !before a b) (l := ws.take n)
    rw [htw] at this
    have hsplit : ws.take n = ws.take pos ++ (ws.drop pos).take (n - pos) := by
      rw [← List.take_add, Nat.add_sub_cancel' hpn]
    exact List.append_cancel_left (this.trans hsplit)
  have hinto : insertAfter before a (ws.take n) =
      ws.take pos ++ a :: (ws.drop pos).take (n - pos) := by rw [insertAfter_eq, htw, hdw]
  rw [keepBest, slotOf_eq hb a hnl hsort, hp, Option.bind_some]
  by_cases hpk : pos = k
  · -- it comes after all of a full window
    rw [if_pos hpk]
    have hnk' : n = k := by omega
    refine ⟨_, rfl, hlen, hrest, ?_, ?_⟩
    · rw [hlen']
      omega
    · rw [hins, hinto, hpk, List.take_left' (by rw [List.length_take]; omega), hnk']
  · rw [if_neg hpk]
    generalize hc : (if n < k then n + 1 else n) = count
    have hcount : count = min k (n + 1) := by
      rw [← hc]
      split <;> omega
    have hpos : pos < ws.length := by omega
    have hmove : moveUp ws pos count = some (ws.take pos ++
        ws[pos] :: ((ws.drop pos).take (count - 1 - pos) ++ ws.drop count)) := by
      have ht : ws.take (pos + 1) = ws.take pos ++ [ws[pos]] := (List.take_append_getElem hpos).symm
      rw [moveUp, if_pos ⟨by omega, by omega⟩, ht, List.append_assoc, List.append_assoc]
      rfl
    have hset : (ws.take pos ++ ws[pos] :: ((ws.drop pos).take (count - 1 - pos) ++
        ws.drop count)).set pos a =
        ws.take pos ++ a :: ((ws.drop pos).take (count - 1 - pos) ++ ws.drop count) := by
      rw [List.set_append_right _ _ (by rw [List.length_take]; omega), List.length_take,
        min_eq_left hpos.le, Nat.sub_self, List.set_cons_zero]
    have hpre : (ws.take pos ++ a :: (ws.drop pos).take (count - 1 - pos)).length = count := by
      simp only [List.length_append, List.length_take, List.length_cons, List.length_drop]
      omega
    have hwhole : ws.take pos ++ a :: ((ws.drop pos).take (count - 1 - pos) ++ ws.drop count) =
        (ws.take pos ++ a :: (ws.drop pos).take (count - 1 - pos)) ++ ws.drop count := by simp
    dsimp only
    rw [hmove, Option.bind_some, if_pos (by simp; omega), hset, hwhole]
    refine ⟨_, rfl, ?_, ?_, ?_, ?_⟩
    · rw [List.length_append, hpre, List.length_drop]
      omega
    · rw [List.drop_append, List.drop_eq_nil_of_le (by omega), List.nil_append, hpre,
        List.drop_drop, Nat.add_sub_cancel' (by omega : count ≤ k), hrest]
    · rw [hlen']
      omega
    · dsimp only
      rw [List.take_left' hpre, hins, hinto, List.take_append, List.length_take,
        min_eq_left hpos.le, List.take_take, min_eq_right (by omega), List.take_cons (by omega),
        List.take_take, show min (k - pos - 1) (n - pos) = count - 1 - pos by omega]

/-- **A stream**: the window holds the first of all. -/
theorem keepAll_eq (hb : ∀ a b, before a b = true ↔ key a < key b) {k : Nat} {slots : List α}
    (hk : k ≤ slots.length) (as : List α) : ∀ {l : List α} {w : List α × Nat},
    Windowed k slots l w → Ascending key l → ∃ w', keepAll before k w as = some w' ∧
      Windowed k slots (as.foldl (fun l a => insertAfter before a l) l) w' := by
  induction as with
  | nil => exact fun h _ => ⟨_, rfl, h⟩
  | cons a as ih =>
    intro l w h hl
    obtain ⟨w', hw', h'⟩ := keepBest_eq hb hk h hl a
    obtain ⟨w'', hw'', h''⟩ := ih h' (hl.insertAfter hb a)
    exact ⟨w'', by rw [keepAll, List.foldlM_cons, hw']; exact hw'', h''⟩

theorem foldl_insertAfter (hb : ∀ a b, before a b = true ↔ key a < key b) (as : List α) :
    ∀ {l : List α}, Ascending key l →
      Ascending key (as.foldl (fun l a => insertAfter before a l) l) ∧
      (as.foldl (fun l a => insertAfter before a l) l).Perm (l ++ as) := by
  induction as with
  | nil => exact fun h => ⟨h, by rw [List.append_nil]; exact .refl _⟩
  | cons a as ih =>
    intro l h
    obtain ⟨hs, hp⟩ := ih (h.insertAfter hb a)
    exact ⟨hs, hp.trans (((insertAfter_perm l).append_right as).trans List.perm_middle.symm)⟩

/-- With distinct keys there is one order. -/
theorem foldl_insertAfter_eq (hb : ∀ a b, before a b = true ↔ key a < key b) {r : α → α → Prop}
    [DecidableRel r] (hr : ∀ a b, r a b ↔ key a ≤ key b) {as : List α}
    (hinj : ∀ a ∈ as, ∀ b ∈ as, key a = key b → a = b) :
    as.foldl (fun l a => insertAfter before a l) [] = as.insertionSort r := by
  obtain rfl : r = fun a b => key a ≤ key b := funext₂ fun a b => propext (hr a b)
  obtain ⟨hs, hp⟩ := foldl_insertAfter hb as (List.Pairwise.nil : Ascending key [])
  rw [List.nil_append] at hp
  refine List.Perm.eq_of_pairwise (fun a b ha hb hab hba => ?_) hs
    (List.pairwise_insertionSort _ as) (hp.trans (List.perm_insertionSort _ as).symm)
  exact hinj a (hp.subset ha) b ((List.perm_insertionSort _ as).subset hb) (le_antisymm hab hba)

/-- The order in which elements of distinct keys arrive does not show in the sorted list. -/
theorem insertionSort_eq_of_perm {r : α → α → Prop} [DecidableRel r]
    (hr : ∀ a b, r a b ↔ key a ≤ key b) {as bs : List α}
    (hinj : ∀ a ∈ as, ∀ b ∈ as, key a = key b → a = b) (h : as.Perm bs) :
    as.insertionSort r = bs.insertionSort r := by
  obtain rfl : r = fun a b => key a ≤ key b := funext₂ fun a b => propext (hr a b)
  have hp := List.perm_insertionSort (fun a b => key a ≤ key b) as
  have hp' := List.perm_insertionSort (fun a b => key a ≤ key b) bs
  refine List.Perm.eq_of_pairwise (fun a b ha hb hab hba => ?_) (List.pairwise_insertionSort _ as)
    (List.pairwise_insertionSort _ bs) (hp.trans (h.trans hp'.symm))
  exact hinj a (hp.subset ha) b (h.symm.subset (hp'.subset hb)) (le_antisymm hab hba)

end

end Durable
