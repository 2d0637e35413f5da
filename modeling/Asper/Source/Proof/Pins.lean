import Asper.Knowledge.Status
import Asper.Source.Store

/-! # The pin overlay

The rows of a pin log are sorted, thinned out and searched (`pinsApply`); what comes of it is that the
last row of the event in the order of the log decides, and the event's own flag where there is none
(`pinsApply_eq`). -/

namespace Asper

open Durable

/-- The state the last row of `id` gives. -/
def pinState (pins : List Pin) (id : Bytes) : Option Bool :=
  (pins.reverse.find? (·.id = id)).map (·.pinned)

/-- The event with the state its rows give it. -/
def overlaid (pins : List Pin) (e : Event) : Event :=
  { e with pinned := (pinState pins e.id).getD e.pinned }

theorem pinState_nil (id : Bytes) : pinState [] id = none := rfl

theorem pinState_append (ps qs : List Pin) (id : Bytes) :
    pinState (ps ++ qs) id = (pinState qs id).or (pinState ps id) := by
  rw [pinState, List.reverse_append, List.find?_append, pinState, pinState]
  cases qs.reverse.find? (·.id = id) <;> rfl

theorem pinState_single (p : Pin) (id : Bytes) :
    pinState [p] id = if p.id = id then some p.pinned else none := by
  rw [pinState, List.reverse_singleton, List.find?_singleton]
  split <;> rename_i h
  · rw [if_pos (of_decide_eq_true h)]
    rfl
  · rw [if_neg fun he => h (decide_eq_true he)]
    rfl

theorem pinState_none {ps : List Pin} {id : Bytes} : pinState ps id = none ↔ ∀ p ∈ ps, p.id ≠ id := by
  rw [pinState, Option.map_eq_none_iff, List.find?_eq_none]
  simp

/-! ## Rows in order -/

/-- The rows ascend by id and place. -/
def Ranked (rows : List SourcePin) : Prop :=
  rows.Pairwise fun x y => x.id < y.id ∨ x.id = y.id ∧ x.order < y.order

theorem bytes_lt_ne {a b : Bytes} (h : a < b) : a ≠ b := fun he => List.lt_irrefl b (he ▸ h)

theorem pinOrder_total (x y : SourcePin) : pinOrder x y ∨ pinOrder y x := by
  unfold pinOrder
  by_cases hid : x.id = y.id
  · exact (Nat.le_total x.order y.order).imp (fun h => .inr ⟨hid, h⟩) fun h => .inr ⟨hid.symm, h⟩
  · by_cases hlt : x.id < y.id
    · exact .inl (.inl hlt)
    · exact .inr (.inl (bytes_lt_or hlt hid))

theorem pinOrder_trans {x y z : SourcePin} (h : pinOrder x y) (h' : pinOrder y z) : pinOrder x z := by
  rcases h with h | ⟨h, ho⟩
  · rcases h' with h' | ⟨h', -⟩
    · exact .inl (bytes_lt_trans h h')
    · exact .inl (h' ▸ h)
  · rcases h' with h' | ⟨h', ho'⟩
    · exact .inl (h ▸ h')
    · exact .inr ⟨h.trans h', Nat.le_trans ho ho'⟩

instance : Std.Total pinOrder := ⟨pinOrder_total⟩

instance : IsTrans SourcePin pinOrder := ⟨fun _ _ _ => pinOrder_trans⟩

/-- The rows of a log with their places. -/
def placed (pins : List Pin) : List SourcePin :=
  pins.zipIdx.map fun p => ⟨p.1.id, p.1.pinned, p.2⟩

theorem mem_placed {pins : List Pin} {x : SourcePin} :
    x ∈ placed pins ↔ pins[x.order]? = some ⟨x.id, x.pinned⟩ := by
  simp only [placed, List.mem_map, List.mem_zipIdx_iff_getElem?]
  constructor
  · rintro ⟨⟨p, i⟩, hp, rfl⟩
    exact hp
  · intro h
    exact ⟨⟨⟨x.id, x.pinned⟩, x.order⟩, h, rfl⟩

theorem ranked_sort (pins : List Pin) : Ranked ((placed pins).insertionSort pinOrder) := by
  have hne : ((placed pins).insertionSort pinOrder).Pairwise fun x y => x.order ≠ y.order := by
    have hplaces : (placed pins).map (·.order) = List.range pins.length := by
      rw [placed, List.map_map]
      exact List.zipIdx_map_snd 0 pins ▸ (List.range_eq_range').symm ▸ rfl
    have hnodup : ((placed pins).map (·.order)).Nodup := hplaces ▸ List.nodup_range
    exact List.pairwise_map.1 (((List.perm_insertionSort pinOrder _).map _).nodup_iff.2 hnodup)
  refine (List.pairwise_insertionSort pinOrder _).imp₂ (fun x y hle ho => ?_) hne
  exact hle.imp id fun h => ⟨h.1, Nat.lt_of_le_of_ne h.2 ho⟩

/-- What is left of the rows: the last of every id. -/
theorem mem_lastOfRuns {rows : List SourcePin} (h : Ranked rows) {x : SourcePin} :
    x ∈ lastOfRuns rows ↔ x ∈ rows ∧ ∀ y ∈ rows, y.id = x.id → y.order ≤ x.order := by
  induction rows using lastOfRuns.induct with
  | case1 => simp [lastOfRuns]
  | case2 p => simp [lastOfRuns]; rintro rfl -; exact Nat.le_refl _
  | case3 p q ps hid ih =>
    obtain ⟨hp, hrest⟩ := List.pairwise_cons.1 h
    have hqp : p.order < q.order := ((hp q (.head _)).resolve_left fun hlt => bytes_lt_ne hlt hid).2
    rw [lastOfRuns, if_pos hid, ih hrest]
    constructor
    · rintro ⟨hx, hmax⟩
      refine ⟨.tail _ hx, fun y hy hyx => ?_⟩
      rcases List.mem_cons.1 hy with rfl | hy
      · exact Nat.le_trans (Nat.le_of_lt hqp) (hmax q (.head _) (hid.symm.trans hyx))
      · exact hmax y hy hyx
    · rintro ⟨hx, hmax⟩
      rcases List.mem_cons.1 hx with rfl | hx
      · exact absurd (hmax q (.tail _ (.head _)) hid.symm) (Nat.not_le_of_lt hqp)
      · exact ⟨hx, fun y hy => hmax y (.tail _ hy)⟩
  | case4 p q ps hid ih =>
    obtain ⟨hp, hrest⟩ := List.pairwise_cons.1 h
    -- the id of `p` stands before every other
    have hbefore : ∀ y ∈ q :: ps, p.id < y.id := fun y hy => by
      have hpq : p.id < q.id := (hp q (.head _)).resolve_right fun he => hid he.1
      rcases List.mem_cons.1 hy with rfl | hm
      · exact hpq
      · rcases (List.pairwise_cons.1 hrest).1 y hm with hlt | ⟨he, -⟩
        · exact bytes_lt_trans hpq hlt
        · exact he ▸ hpq
    rw [lastOfRuns, if_neg hid, List.mem_cons, ih hrest]
    constructor
    · rintro (rfl | ⟨hx, hmax⟩)
      · refine ⟨.head _, fun y hy hyx => ?_⟩
        rcases List.mem_cons.1 hy with rfl | hy
        · exact Nat.le_refl _
        · exact absurd hyx.symm (bytes_lt_ne (hbefore y hy))
      · refine ⟨.tail _ hx, fun y hy hyx => ?_⟩
        rcases List.mem_cons.1 hy with rfl | hy
        · exact absurd hyx (bytes_lt_ne (hbefore x hx))
        · exact hmax y hy hyx
    · rintro ⟨hx, hmax⟩
      rcases List.mem_cons.1 hx with rfl | hx
      · exact .inl rfl
      · exact .inr ⟨hx, fun y hy => hmax y (.tail _ hy)⟩

theorem lastOfRuns_ascends {rows : List SourcePin} (h : Ranked rows) :
    (lastOfRuns rows).Pairwise fun x y => x.id < y.id := by
  have hsub : ∀ l : List SourcePin, (lastOfRuns l).Sublist l := fun l => by
    induction l using lastOfRuns.induct with
    | case1 => exact .slnil
    | case2 p => exact .refl _
    | case3 p q ps hid ih =>
      rw [lastOfRuns, if_pos hid]
      exact ih.cons p
    | case4 p q ps hid ih =>
      rw [lastOfRuns, if_neg hid]
      exact ih.cons_cons p
  refine List.Pairwise.imp_of_mem (fun {x y} hx hy hxy => ?_) (h.sublist (hsub rows))
  -- two rows of one id are not both the last of it
  refine hxy.resolve_right fun ⟨hid, hlt⟩ => ?_
  have hle := ((mem_lastOfRuns h).1 hx).2 y ((mem_lastOfRuns h).1 hy).1 hid.symm
  omega

/-! ## The search -/

/-- A row of the id is where the search ends. -/
theorem find_pin {rows : List SourcePin} (h : rows.Pairwise fun x y => x.id < y.id) {p : SourcePin}
    (hp : p ∈ rows) :
    rows[Search.lowerBound (fun q => decide (q.id < p.id)) rows]? = some p := by
  have hsplits : Search.Splits (fun q : SourcePin => decide (q.id < p.id)) rows :=
    h.imp fun hab hb => decide_eq_true (bytes_lt_trans hab (of_decide_eq_true hb))
  have hw := Search.lowerBound_within hsplits
  generalize Search.lowerBound (fun q : SourcePin => decide (q.id < p.id)) rows = k at hw ⊢
  obtain ⟨i, hi⟩ := List.getElem?_of_mem hp
  rcases Nat.lt_trichotomy i k with hlt | rfl | hgt
  · exact absurd (of_decide_eq_true (hw.below i p hi hlt)) (List.lt_irrefl _)
  · exact hi
  · have hil : i < rows.length := (List.getElem?_eq_some_iff.1 hi).1
    have hk : rows[k]? = some rows[k] := List.getElem?_eq_getElem (by omega)
    have hbefore : rows[k].id < rows[i].id := List.pairwise_iff_getElem.1 h k i (by omega) hil hgt
    rw [List.getElem?_eq_getElem hil] at hi
    have hnot := hw.above k _ hk (Nat.le_refl k)
    rw [Option.some.inj hi] at hbefore
    exact absurd hbefore (of_decide_eq_false hnot)

theorem mem_sourcePins {pins : List Pin} {x : SourcePin} :
    x ∈ sourcePins pins ↔ pins[x.order]? = some ⟨x.id, x.pinned⟩ ∧
      ∀ j b, pins[j]? = some ⟨x.id, b⟩ → j ≤ x.order := by
  refine (mem_lastOfRuns (ranked_sort pins)).trans ?_
  simp only [List.mem_insertionSort, mem_placed]
  refine and_congr_right fun _ => ⟨fun h j b hj => h ⟨x.id, b, j⟩ hj rfl, fun h y hy hid => ?_⟩
  exact h y.order y.pinned (by rw [hy, hid])

/-- **The last row decides**, and without a row the event's own flag. -/
theorem pinsApply_eq (pins : List Pin) (e : Event) : pinsApply pins e = overlaid pins e := by
  have hasc : (sourcePins pins).Pairwise fun x y => x.id < y.id := lastOfRuns_ascends (ranked_sort pins)
  rw [pinsApply, overlaid]
  cases hs : pinState pins e.id with
  | none =>
    have hno := pinState_none.1 hs
    split
    · next p hp =>
      have hmem := (mem_sourcePins.1 (List.mem_of_getElem? hp)).1
      rw [if_neg (hno _ (List.mem_of_getElem? hmem))]
      rfl
    · rfl
  | some b =>
    obtain ⟨p, hfind, rfl⟩ := Option.map_eq_some_iff.1 hs
    obtain ⟨hid, after, before, hrev, hafter⟩ := List.find?_eq_some_iff_append.1 hfind
    have hpins : pins = before.reverse ++ p :: after.reverse := by
      rw [← List.reverse_reverse pins, hrev]
      simp
    have hid : p.id = e.id := of_decide_eq_true hid
    have hrow : (⟨p.id, p.pinned, before.length⟩ : SourcePin) ∈ sourcePins pins := by
      rw [mem_sourcePins, hpins]
      dsimp only
      refine ⟨?_, fun j b hj => ?_⟩
      · rw [List.getElem?_append_right (by simp), List.length_reverse, Nat.sub_self]
        rfl
      · by_contra hlt
        rw [List.getElem?_append_right (by rw [List.length_reverse]; omega), List.length_reverse,
          List.getElem?_cons, if_neg (by omega)] at hj
        have hm := hafter _ (List.mem_reverse.1 (List.mem_of_getElem? hj))
        simp [hid] at hm
    have hget := find_pin hasc hrow
    dsimp only at hget
    rw [← hid, hget]
    dsimp only
    rw [if_pos rfl]
    rfl

end Asper
