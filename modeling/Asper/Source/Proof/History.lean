import Asper.Lib.Greedy
import Asper.Source.History
import Asper.Source.Proof.Pins
import Mathlib.Algebra.BigOperators.Group.List.Basic

/-! # What the history section shows

Both passes are greedy selections under one test, `fitsBeside`: the counters of a `Selection` are
those of the events it shows (`selectEvent_of`, `historyPass_of`). `history_selects` gives what a
section shows, and of each event it leaves out the reason, with the events that came before it. -/

namespace Asper

open Durable

def lineBytes (es : List Event) : Nat := (es.map fun e => (eventLine e).length).sum

def lineTokens (R : ContextRequest) (es : List Event) : Nat :=
  (es.map fun e => sourceTokens R (eventLine e)).sum

/-- Whether the section of `acc` has room for `e`, in events, tokens and bytes. -/
def fitsBeside (R : ContextRequest) (context : Bytes) (acc : List Event) (e : Event) : Bool :=
  acc.length < contextEvents ∧
    sourceTokens R heading + lineTokens R acc + sourceTokens R (eventLine e) ≤ R.historyTokens ∧
    context.length + heading.length + lineBytes acc + (eventLine e).length ≤ contextBytes

section
variable {V : EventView} {R : ContextRequest} {context : Bytes} {acc : List Event}

@[simp] theorem lineBytes_append (as bs : List Event) :
    lineBytes (as ++ bs) = lineBytes as + lineBytes bs := by
  simp [lineBytes]

@[simp] theorem lineTokens_append (as bs : List Event) :
    lineTokens R (as ++ bs) = lineTokens R as + lineTokens R bs := by
  simp [lineTokens]

@[simp] theorem lineBytes_singleton (e : Event) : lineBytes [e] = (eventLine e).length := by
  simp [lineBytes]

@[simp] theorem lineTokens_singleton (e : Event) :
    lineTokens R [e] = sourceTokens R (eventLine e) := by
  simp [lineTokens]

theorem fitsBeside_iff {e : Event} : fitsBeside R context acc e = true ↔
    acc.length < contextEvents ∧
      sourceTokens R heading + lineTokens R acc + sourceTokens R (eventLine e) ≤ R.historyTokens ∧
      context.length + heading.length + lineBytes acc + (eventLine e).length ≤ contextBytes :=
  decide_eq_true_iff

theorem fitsBeside_perm {as bs : List Event} (h : as.Perm bs) (e : Event) :
    fitsBeside R context as e = fitsBeside R context bs e := by
  unfold fitsBeside lineTokens lineBytes
  rw [h.length_eq, (h.map _).sum_eq, (h.map _).sum_eq]

/-- What has no room now has none later. -/
theorem fitsBeside_mono {as bs : List Event} {e : Event}
    (h : fitsBeside R context (as ++ bs) e = true) : fitsBeside R context as e = true := by
  unfold fitsBeside at h ⊢
  simp only [decide_eq_true_eq, List.length_append, lineTokens_append, lineBytes_append] at h ⊢
  omega

theorem text_lt_eventLine (e : Event) : e.text.length < (eventLine e).length := by
  simp only [eventLine, List.length_append, List.length_singleton]
  omega

/-! ## The counters -/

/-- The selection of `acc`. -/
def selectionOf (R : ContextRequest) (limit : Nat) (acc : List Event) : Selection :=
  ⟨acc.map fun e => ⟨e.sequence, eventLine e⟩, lineBytes acc,
    sourceTokens R heading + lineTokens R acc, limit, false⟩

/-- The section of `acc` is within the budget. -/
structure Affordable (R : ContextRequest) (context : Bytes) (acc : List Event) : Prop where
  count : acc.length ≤ contextEvents
  tokens : sourceTokens R heading + lineTokens R acc ≤ R.historyTokens
  bytes : context.length + heading.length + lineBytes acc ≤ contextBytes

theorem Affordable.concat (e : Event) (h : fitsBeside R context acc e = true) :
    Affordable R context (acc ++ [e]) := by
  unfold fitsBeside at h
  simp only [decide_eq_true_eq] at h
  refine ⟨?_, ?_, ?_⟩
  · simp only [List.length_append, List.length_singleton]
    omega
  · simp only [lineTokens_append, lineTokens_singleton]
    omega
  · simp only [lineBytes_append, lineBytes_singleton]
    omega

theorem selectEvent_of (h : Affordable R context acc) (hn : acc.length < contextEvents)
    (e : Event) :
    selectEvent R (selectionOf R (contextBytes - context.length - heading.length) acc) e =
      selectionOf R (contextBytes - context.length - heading.length)
        (if fitsBeside R context acc e then acc ++ [e] else acc) := by
  have h1 := h.tokens
  have h2 := h.bytes
  have h3 := R.historyTokens_lt
  have h4 := text_lt_eventLine e
  have h5 : contextBytes < 2 ^ 64 := by decide
  have hb : (selectionOf R (contextBytes - context.length - heading.length) acc).spareBytes =
      contextBytes - context.length - heading.length - lineBytes acc :=
    sizeSub_eq (by dsimp only [selectionOf]; omega) (by dsimp only [selectionOf]; omega)
  have ht : (selectionOf R (contextBytes - context.length - heading.length) acc).spareTokens R =
      R.historyTokens - (sourceTokens R heading + lineTokens R acc) :=
    sizeSub_eq (by dsimp only [selectionOf]; omega) h3
  unfold selectEvent
  dsimp only
  rw [hb, ht]
  have hw1 : decide ((selectionOf R (contextBytes - context.length - heading.length) acc).byteLimit <
      (selectionOf R (contextBytes - context.length - heading.length) acc).bytes) = false :=
    decide_eq_false (by dsimp only [selectionOf]; omega)
  have hw2 : decide (R.historyTokens <
      (selectionOf R (contextBytes - context.length - heading.length) acc).tokens) = false :=
    decide_eq_false (by dsimp only [selectionOf]; omega)
  rw [hw1, hw2, Bool.or_false, Bool.or_false]
  split
  · rw [if_neg]
    unfold fitsBeside
    simp only [decide_eq_true_eq]
    omega
  split
  · rw [if_neg]
    unfold fitsBeside
    simp only [decide_eq_true_eq]
    omega
  · rw [if_pos]
    · simp [selectionOf, Nat.add_assoc]
    · unfold fitsBeside
      simp only [decide_eq_true_eq]
      omega

/-! ## The passes -/

/-- **A pass is a greedy selection** of the events that `cand` gives for the sequence numbers. -/
theorem historyPass_of {limit : Nat} (hl : limit = contextBytes - context.length - heading.length)
    {step : Selection → Nat → Except Err Selection} {cand : Nat → Option Event} {base : List Event}
    (hstep : ∀ acc n s', base <+: acc → Affordable R context acc → acc.length < contextEvents →
      step (selectionOf R limit acc) n = .ok s' →
      s' = selectionOf R limit (greedy (fitsBeside R context) acc (cand n).toList)) :
    ∀ (ns : List Nat) (acc : List Event) (s' : Selection), base <+: acc →
      Affordable R context acc → historyPass step (selectionOf R limit acc) ns = .ok s' →
      s' = selectionOf R limit (greedy (fitsBeside R context) acc (ns.filterMap cand))
  | [], acc, s', _, _, h => (Except.ok.inj h).symm
  | n :: ns, acc, s', hb, ha, h => by
    have hlist : (n :: ns).filterMap cand = (cand n).toList ++ ns.filterMap cand := by
      cases hc : cand n <;> simp [hc]
    rw [hlist, greedy_append]
    unfold historyPass at h
    split at h
    · next hn =>
      have hn' : acc.length < contextEvents := by simpa [selectionOf] using hn
      cases hs : step (selectionOf R limit acc) n with
      | error e =>
        rw [hs] at h
        cases h
      | ok s1 =>
        rw [hs] at h
        obtain rfl := hstep acc n s1 hb ha hn' hs
        obtain ⟨ys, hys, -⟩ := greedy_eq_append (fitsBeside R context) acc (cand n).toList
        refine historyPass_of hl hstep ns _ s' ?_ ?_ h
        · rw [hys]
          exact hb.trans (List.prefix_append _ _)
        · exact greedy_inv (fun acc x _ hf => Affordable.concat x hf) _ ha
    · next hn =>
      have hfull : ∀ e, fitsBeside R context acc e = false := by
        intro e
        simp only [selectionOf, List.length_map] at hn
        simp [fitsBeside, hn]
      rw [greedy_of_full hfull, greedy_of_full hfull]
      exact (Except.ok.inj h).symm

/-- The event `n`, if it is for the first pass. -/
def pinnedCand (V : EventView) (n : Nat) : Option Event :=
  (V.read n).toOption.filter fun e => e.kind ≠ .checkpoint ∧ e.pinned

/-- The event `n`, if it is for the second pass after the pins of `base`. -/
def recentCand (V : EventView) (R : ContextRequest) (base : List Event) (n : Nat) : Option Event :=
  if n ∈ base.map (·.sequence) then none
  else (V.read n).toOption.filter fun e => e.kind.eligible e.text R

theorem toOption_eq_some {n : Nat} {e : Event} : (V.read n).toOption = some e ↔ V.read n = .ok e := by
  cases V.read n <;> simp [Except.toOption]

theorem pinnedCand_eq_some {n : Nat} {e : Event} : pinnedCand V n = some e ↔
    V.read n = .ok e ∧ e.kind ≠ .checkpoint ∧ e.pinned = true := by
  rw [pinnedCand, Option.filter_eq_some_iff, toOption_eq_some, decide_eq_true_eq]

theorem recentCand_eq_some {base : List Event} {n : Nat} {e : Event} :
    recentCand V R base n = some e ↔
      n ∉ base.map (·.sequence) ∧ V.read n = .ok e ∧ e.kind.eligible e.text R = true := by
  unfold recentCand
  split
  · next h => simp [h]
  · next h => rw [Option.filter_eq_some_iff, toOption_eq_some, and_iff_right h]

theorem greedy_toList {fits : List Event → Event → Bool} (o : Option Event) :
    greedy fits acc o.toList = o.elim acc fun e => if fits acc e then acc ++ [e] else acc := by
  cases o <;> rfl

theorem pinnedStep_of {limit n : Nat} {s' : Selection}
    (hl : limit = contextBytes - context.length - heading.length) (ha : Affordable R context acc)
    (hn : acc.length < contextEvents) (h : pinnedStep V R (selectionOf R limit acc) n = .ok s') :
    s' = selectionOf R limit (greedy (fitsBeside R context) acc (pinnedCand V n).toList) := by
  unfold pinnedStep at h
  cases hh : V.head n with
  | error x =>
    rw [hh] at h
    cases h
  | ok hd =>
    rw [hh] at h
    dsimp only [bind, Except.bind] at h
    have hcand : ¬ (hd.kind ≠ .checkpoint ∧ hd.pinned = true) → pinnedCand V n = none := by
      intro hnot
      refine Option.eq_none_iff_forall_not_mem.2 fun e he => hnot ?_
      obtain ⟨hr, hk⟩ := pinnedCand_eq_some.1 he
      obtain ⟨h1, h2⟩ := V.head_read n e hd hr hh
      rwa [h1, h2]
    split at h
    · next hc =>
      cases hr : V.read n with
      | error x =>
        rw [hr] at h
        cases h
      | ok e =>
        rw [hr] at h
        obtain ⟨h1, h2⟩ := V.head_read n e hd hr hh
        rw [h1, h2] at hc
        rw [pinnedCand_eq_some.2 ⟨hr, hc⟩, greedy_toList, ← Except.ok.inj h, hl]
        exact selectEvent_of ha hn e
    · next hc =>
      rw [hcand hc]
      exact (Except.ok.inj h).symm

theorem alreadyPinned_of {limit n : Nat} {base : List Event} (hb : base <+: acc)
    (hs : base.Pairwise fun a b => a.sequence < b.sequence) :
    alreadyPinned (selectionOf R limit acc) base.length n = true ↔ n ∈ base.map (·.sequence) := by
  have hrows : (selectionOf R limit acc).lines.take base.length =
      base.map fun e => ⟨e.sequence, eventLine e⟩ := by
    rw [selectionOf, ← List.map_take, ← List.prefix_iff_eq_take.1 hb]
  have hsp : Search.Splits (fun l : SelectedLine => decide (l.sequence < n))
      (base.map fun e => ⟨e.sequence, eventLine e⟩) := by
    refine List.pairwise_map.2 (hs.imp fun {a b} hab hb => ?_)
    simp only [decide_eq_true_eq] at hb ⊢
    omega
  have hw := Search.lowerBound_within hsp
  unfold alreadyPinned
  dsimp only
  rw [hrows]
  generalize Search.lowerBound _ _ = i at *
  constructor
  · intro h
    split at h
    · next l hl =>
      obtain ⟨e, he, rfl⟩ := List.mem_map.1 (List.mem_of_getElem? hl)
      exact List.mem_map.2 ⟨e, he, by simpa using h⟩
    · cases h
  · intro h
    obtain ⟨e, he, hen⟩ := List.mem_map.1 h
    obtain ⟨j, hj⟩ := List.mem_iff_getElem?.1 he
    have hj' : (base.map fun e => (⟨e.sequence, eventLine e⟩ : SelectedLine))[j]? =
        some ⟨e.sequence, eventLine e⟩ := by
      rw [List.getElem?_map, hj, Option.map_some]
    have hle : i ≤ j := by
      by_contra hlt
      have := hw.below j _ hj' (by omega)
      simp only [decide_eq_true_eq] at this
      omega
    -- the row found is the one looked for, as the next ones are greater
    have hilt : i < base.length := by
      obtain ⟨hj, -⟩ := List.getElem?_eq_some_iff.1 hj
      omega
    have hi : (base.map fun e => (⟨e.sequence, eventLine e⟩ : SelectedLine))[i]? =
        some ⟨base[i].sequence, eventLine base[i]⟩ := by
      rw [List.getElem?_map, List.getElem?_eq_getElem hilt, Option.map_some]
    have hge := hw.above i _ hi (Nat.le_refl _)
    simp only [decide_eq_false_iff_not, not_lt] at hge
    rw [hi]
    simp only [decide_eq_true_eq]
    rcases Nat.lt_or_eq_of_le hle with hlt | rfl
    · obtain ⟨hj2, rfl⟩ := List.getElem?_eq_some_iff.1 hj
      have := List.pairwise_iff_getElem.1 hs i j hilt hj2 hlt
      omega
    · obtain ⟨hj2, rfl⟩ := List.getElem?_eq_some_iff.1 hj
      exact hen

theorem recentStep_of {limit n : Nat} {base : List Event} {s' : Selection}
    (hl : limit = contextBytes - context.length - heading.length) (hb : base <+: acc)
    (hs : base.Pairwise fun a b => a.sequence < b.sequence) (ha : Affordable R context acc)
    (hn : acc.length < contextEvents)
    (h : recentStep V R base.length (selectionOf R limit acc) n = .ok s') :
    s' = selectionOf R limit (greedy (fitsBeside R context) acc (recentCand V R base n).toList) := by
  unfold recentStep at h
  split at h
  · next hp =>
    rw [recentCand, if_pos ((alreadyPinned_of hb hs).1 hp)]
    exact (Except.ok.inj h).symm
  · next hp =>
    have hnot : n ∉ base.map (·.sequence) := fun hm => hp ((alreadyPinned_of hb hs).2 hm)
    cases hr : V.read n with
    | error x =>
      rw [hr] at h
      cases h
    | ok e =>
      rw [hr] at h
      obtain rfl := Except.ok.inj h
      by_cases he : e.kind.eligible e.text R = true
      · rw [if_pos he, recentCand_eq_some.2 ⟨hnot, hr, he⟩, greedy_toList, hl]
        exact selectEvent_of ha hn e
      · have hnone : recentCand V R base n = none := by
          refine Option.eq_none_iff_forall_not_mem.2 fun e' he' => he ?_
          obtain ⟨-, hr', hel⟩ := recentCand_eq_some.1 he'
          obtain rfl : e = e' := Except.ok.inj (hr.symm.trans hr')
          exact hel
        rw [if_neg he, hnone]
        rfl

/-! ## What is chosen -/

theorem mem_ascending {n : Nat} : n ∈ V.ascending ↔ 1 ≤ n ∧ n ≤ V.count := by
  simp only [EventView.ascending, List.mem_map, List.mem_range]
  constructor
  · rintro ⟨i, hi, rfl⟩
    omega
  · rintro ⟨h1, h2⟩
    exact ⟨n - 1, by omega, by omega⟩

theorem mem_descending {n : Nat} : n ∈ V.descending ↔ 1 ≤ n ∧ n ≤ V.count := by
  simp only [EventView.descending, List.mem_map, List.mem_range]
  constructor
  · rintro ⟨i, hi, rfl⟩
    omega
  · rintro ⟨h1, h2⟩
    exact ⟨V.count - n, by omega, by omega⟩

theorem ascending_pairwise : V.ascending.Pairwise (· < ·) :=
  List.pairwise_map.2 (List.pairwise_lt_range.imp fun h => Nat.succ_lt_succ h)

theorem descending_pairwise : V.descending.Pairwise (· > ·) := by
  refine List.pairwise_map.2 (List.pairwise_lt_range.imp_of_mem fun {a b} ha hb h => ?_)
  have := List.mem_range.1 hb
  show V.count - b < V.count - a
  omega

/-- What the first pass chooses. -/
def pinnedChosen (V : EventView) (R : ContextRequest) (context : Bytes) : List Event :=
  greedy (fitsBeside R context) [] (V.ascending.filterMap (pinnedCand V))

/-- What both passes choose. -/
def allChosen (V : EventView) (R : ContextRequest) (context : Bytes) : List Event :=
  greedy (fitsBeside R context) (pinnedChosen V R context)
    (V.descending.filterMap (recentCand V R (pinnedChosen V R context)))

/-- Candidates keep the order of their numbers. -/
theorem sequence_sublist {cand : Nat → Option Event}
    (hc : ∀ n e, cand n = some e → V.read n = .ok e) : ∀ ns : List Nat,
    ((ns.filterMap cand).map (·.sequence)).Sublist ns
  | [] => List.Sublist.refl _
  | n :: ns => by
    cases hn : cand n with
    | none =>
      rw [List.filterMap_cons_none hn]
      exact (sequence_sublist hc ns).cons n
    | some e =>
      rw [List.filterMap_cons_some hn, List.map_cons, V.numbered n e (hc n e hn)]
      exact (sequence_sublist hc ns).cons_cons n

theorem pinnedCand_read (n : Nat) (e : Event) (h : pinnedCand V n = some e) : V.read n = .ok e :=
  (pinnedCand_eq_some.1 h).1

theorem recentCand_read {base : List Event} (n : Nat) (e : Event)
    (h : recentCand V R base n = some e) : V.read n = .ok e :=
  (recentCand_eq_some.1 h).2.1

theorem mem_pinnedChosen {e : Event} (h : e ∈ pinnedChosen V R context) :
    V.read e.sequence = .ok e ∧ (1 ≤ e.sequence ∧ e.sequence ≤ V.count) ∧ e.kind ≠ .checkpoint ∧
      e.pinned = true := by
  obtain ⟨ys, hys, hs⟩ := greedy_eq_append (fitsBeside R context) []
    (V.ascending.filterMap (pinnedCand V))
  rw [pinnedChosen, hys, List.nil_append] at h
  obtain ⟨n, hn, hc⟩ := List.mem_filterMap.1 (hs.subset h)
  obtain ⟨hr, hk, hp⟩ := pinnedCand_eq_some.1 hc
  rw [V.numbered n e hr]
  exact ⟨hr, mem_ascending.1 hn, hk, hp⟩

theorem pinnedChosen_sorted :
    (pinnedChosen V R context).Pairwise fun a b => a.sequence < b.sequence := by
  obtain ⟨ys, hys, hs⟩ := greedy_eq_append (fitsBeside R context) []
    (V.ascending.filterMap (pinnedCand V))
  rw [pinnedChosen, hys, List.nil_append]
  exact List.pairwise_map.1
    (ascending_pairwise.sublist ((hs.map _).trans (sequence_sublist pinnedCand_read _)))

theorem mem_recent {e : Event} (h : e ∈ allChosen V R context) :
    e ∈ pinnedChosen V R context ∨
      e ∈ V.descending.filterMap (recentCand V R (pinnedChosen V R context)) := by
  obtain ⟨ys, hys, hs⟩ := greedy_eq_append (fitsBeside R context) (pinnedChosen V R context)
    (V.descending.filterMap (recentCand V R (pinnedChosen V R context)))
  rw [allChosen, hys] at h
  exact (List.mem_append.1 h).imp_right fun h => hs.subset h

theorem mem_recent_filterMap {e : Event}
    (h : e ∈ V.descending.filterMap (recentCand V R (pinnedChosen V R context))) :
    V.read e.sequence = .ok e ∧ (1 ≤ e.sequence ∧ e.sequence ≤ V.count) ∧
      e.sequence ∉ (pinnedChosen V R context).map (·.sequence) ∧
      e.kind.eligible e.text R = true := by
  obtain ⟨n, hn, hc⟩ := List.mem_filterMap.1 h
  obtain ⟨hnot, hr, he⟩ := recentCand_eq_some.1 hc
  rw [V.numbered n e hr]
  exact ⟨hr, mem_descending.1 hn, hnot, he⟩

theorem mem_allChosen {e : Event} (h : e ∈ allChosen V R context) :
    V.read e.sequence = .ok e ∧ (1 ≤ e.sequence ∧ e.sequence ≤ V.count) ∧
      e.kind ≠ .checkpoint := by
  rcases mem_recent h with h | h
  · obtain ⟨h1, h2, h3, -⟩ := mem_pinnedChosen h
    exact ⟨h1, h2, h3⟩
  · obtain ⟨h1, h2, -, h3⟩ := mem_recent_filterMap h
    unfold EventKind.eligible at h3
    simp only [decide_eq_true_eq] at h3
    exact ⟨h1, h2, h3.1⟩

theorem allChosen_nodup : ((allChosen V R context).map (·.sequence)).Nodup := by
  obtain ⟨ys, hys, hs⟩ := greedy_eq_append (fitsBeside R context) (pinnedChosen V R context)
    (V.descending.filterMap (recentCand V R (pinnedChosen V R context)))
  rw [allChosen, hys, List.map_append]
  refine List.nodup_append.2 ⟨?_, ?_, ?_⟩
  · exact (List.pairwise_map.2 pinnedChosen_sorted).imp fun h => Nat.ne_of_lt h
  · exact (descending_pairwise.sublist ((hs.map _).trans (sequence_sublist recentCand_read _))).imp
      fun h => Nat.ne_of_gt h
  · rintro _ h1 _ h2 rfl
    obtain ⟨e, he, rfl⟩ := List.mem_map.1 h2
    exact (mem_recent_filterMap (hs.subset he)).2.2.1 h1

/-- An event and the candidates before and after it. -/
theorem filterMap_split {cand : Nat → Option Event} {ns : List Nat} {e : Event}
    (hn : e.sequence ∈ ns) (he : cand e.sequence = some e) : ∃ pre post,
      ns = pre ++ e.sequence :: post ∧
      ns.filterMap cand = pre.filterMap cand ++ e :: post.filterMap cand := by
  obtain ⟨pre, post, rfl⟩ := List.append_of_mem hn
  exact ⟨pre, post, rfl, by rw [List.filterMap_append, List.filterMap_cons_some he]⟩

theorem sequence_mem {cand : Nat → Option Event} (hc : ∀ n e, cand n = some e → V.read n = .ok e)
    {ns : List Nat} {e : Event} (h : e ∈ ns.filterMap cand) : e.sequence ∈ ns :=
  (sequence_sublist hc ns).subset (List.mem_map_of_mem h)

/-- The pinned events that are chosen before the number `n`. -/
theorem pinned_omitted {e : Event} (hr : V.read e.sequence = .ok e)
    (hn : 1 ≤ e.sequence ∧ e.sequence ≤ V.count) (hk : e.kind ≠ .checkpoint)
    (hp : e.pinned = true) (hnot : e ∉ pinnedChosen V R context) :
    fitsBeside R context
      ((pinnedChosen V R context).filter fun x => x.sequence < e.sequence) e = false := by
  obtain ⟨pre, post, hns, hsplit⟩ := filterMap_split (mem_ascending.2 hn)
    (pinnedCand_eq_some.2 ⟨hr, hk, hp⟩)
  have hsorted : V.ascending.Pairwise (· < ·) := ascending_pairwise
  rw [hns, List.pairwise_append] at hsorted
  obtain ⟨-, hpost, hpre⟩ := hsorted
  have hfilter : (pinnedChosen V R context).filter (fun x => x.sequence < e.sequence) =
      greedy (fitsBeside R context) [] (pre.filterMap (pinnedCand V)) := by
    rw [pinnedChosen, hsplit]
    refine filter_greedy (fun x hx => ?_) fun y hy _ => ?_
    · obtain ⟨ys, hys, hs⟩ := greedy_eq_append (fitsBeside R context) []
        (pre.filterMap (pinnedCand V))
      rw [hys, List.nil_append] at hx
      exact decide_eq_true (hpre _ (sequence_mem pinnedCand_read (hs.subset hx)) _
        List.mem_cons_self)
    · refine decide_eq_false fun hlt => ?_
      rcases List.mem_cons.1 hy with rfl | hy
      · exact Nat.lt_irrefl _ hlt
      · exact Nat.lt_asymm hlt ((List.pairwise_cons.1 hpost).1 _ (sequence_mem pinnedCand_read hy))
  rw [hfilter]
  rw [pinnedChosen, hsplit] at hnot
  exact not_fits_of_not_mem hnot

/-- The second pass finds no room for an event it could not pin. -/
theorem recent_not_pinned {e : Event} (h : e ∈ allChosen V R context)
    (hnot : e ∉ pinnedChosen V R context) : e.pinned = false := by
  by_contra hp
  obtain ⟨hr, hn, hk⟩ := mem_allChosen h
  have hfirst : fitsBeside R context _ e = false :=
    pinned_omitted hr hn hk (by simpa using hp) hnot
  obtain ⟨pre, post, -, hf⟩ := fits_of_mem h hnot
  obtain ⟨ys, hys, -⟩ := greedy_eq_append (fitsBeside R context) (pinnedChosen V R context) pre
  rw [hys] at hf
  have hperm := List.filter_append_perm (fun x : Event => decide (x.sequence < e.sequence))
    (pinnedChosen V R context)
  have hlater := fitsBeside_mono hf
  rw [← fitsBeside_perm hperm] at hlater
  rw [fitsBeside_mono hlater] at hfirst
  cases hfirst

theorem other_omitted {e : Event} (hr : V.read e.sequence = .ok e)
    (hn : 1 ≤ e.sequence ∧ e.sequence ≤ V.count) (he : e.kind.eligible e.text R = true)
    (hnot : e ∉ allChosen V R context) :
    fitsBeside R context ((allChosen V R context).filter fun x =>
      x.pinned ∨ e.sequence < x.sequence) e = false := by
  have hbase : ∀ {x : Event}, x ∈ pinnedChosen V R context → x ∈ allChosen V R context :=
    fun h => mem_greedy_of_mem h
  have hseq : e.sequence ∉ (pinnedChosen V R context).map (·.sequence) := by
    intro hm
    obtain ⟨x, hx, hxe⟩ := List.mem_map.1 hm
    have hxr := (mem_pinnedChosen hx).1
    rw [hxe, hr] at hxr
    obtain rfl := Except.ok.inj hxr
    exact hnot (hbase hx)
  obtain ⟨pre, post, hns, hsplit⟩ := filterMap_split (mem_descending.2 hn)
    (recentCand_eq_some.2 ⟨hseq, hr, he⟩)
  have hsorted : V.descending.Pairwise (· > ·) := descending_pairwise
  rw [hns, List.pairwise_append] at hsorted
  obtain ⟨-, hpost, hpre⟩ := hsorted
  have hfilter : (allChosen V R context).filter
      (fun x => x.pinned ∨ e.sequence < x.sequence) =
      greedy (fitsBeside R context) (pinnedChosen V R context)
        (pre.filterMap (recentCand V R (pinnedChosen V R context))) := by
    have hall : allChosen V R context = greedy (fitsBeside R context) (pinnedChosen V R context)
        (pre.filterMap (recentCand V R (pinnedChosen V R context)) ++
          e :: post.filterMap (recentCand V R (pinnedChosen V R context))) := by
      rw [allChosen, hsplit]
    rw [hall]
    refine filter_greedy (fun x hx => ?_) fun y hy hy' => ?_
    · obtain ⟨ys, hys, hs⟩ := greedy_eq_append (fitsBeside R context) (pinnedChosen V R context)
        (pre.filterMap (recentCand V R (pinnedChosen V R context)))
      rw [hys] at hx
      rcases List.mem_append.1 hx with hx | hx
      · exact decide_eq_true (.inl (mem_pinnedChosen hx).2.2.2)
      · exact decide_eq_true (.inr (hpre _ (sequence_mem recentCand_read (hs.subset hx)) _
          List.mem_cons_self))
    · -- a candidate of the second pass is not pinned once it is chosen
      have hmem : y ∈ V.descending.filterMap (recentCand V R (pinnedChosen V R context)) := by
        rw [hsplit]
        exact List.mem_append_right _ hy
      have hy1 : y ∉ pinnedChosen V R context := fun hm =>
        (mem_recent_filterMap hmem).2.2.1 (List.mem_map_of_mem hm)
      rw [← hall] at hy'
      have hy2 := recent_not_pinned hy' hy1
      refine decide_eq_false (not_or.2 ⟨by simp [hy2], fun hlt => ?_⟩)
      rcases List.mem_cons.1 hy with rfl | hy
      · exact Nat.lt_irrefl _ hlt
      · exact Nat.lt_asymm hlt ((List.pairwise_cons.1 hpost).1 _ (sequence_mem recentCand_read hy))
  rw [hfilter]
  rw [allChosen, hsplit] at hnot
  exact not_fits_of_not_mem hnot

/-! ## The section -/

/-- The section that shows the events. -/
def historyBlock (chosen : List Event) : Bytes :=
  if chosen = [] then [] else heading ++ chosen.flatMap eventLine

/-- What the section shows, and why it leaves out the rest; `off` is another reason for that. -/
structure Selects (off : Prop) (V : EventView) (R : ContextRequest) (context : Bytes)
    (out : HistoryOut) (chosen : List Event) : Prop where
  text : out.context = context ++ historyBlock chosen
  available : out.available = V.count
  included : out.included = chosen.length
  tokens : sourceTokens R (historyBlock chosen) ≤ R.historyTokens
  bytes : context.length ≤ contextBytes → out.context.length ≤ contextBytes
  events : chosen.length ≤ contextEvents
  order : chosen.Pairwise fun a b => a.sequence < b.sequence
  whole : ∀ e ∈ chosen, V.read e.sequence = .ok e ∧ (1 ≤ e.sequence ∧ e.sequence ≤ V.count) ∧
    e.kind ≠ .checkpoint
  /-- Pinned events are looked at oldest first. -/
  pinned : ∀ e, V.read e.sequence = .ok e → (1 ≤ e.sequence ∧ e.sequence ≤ V.count) →
    e.kind ≠ .checkpoint → e.pinned = true → e ∉ chosen → off ∨
      fitsBeside R context (chosen.filter fun x => x.pinned ∧ x.sequence < e.sequence) e = false
  /-- The others newest first, after the pinned ones. -/
  others : ∀ e, V.read e.sequence = .ok e → (1 ≤ e.sequence ∧ e.sequence ≤ V.count) →
    e.kind ≠ .checkpoint → e.pinned = false → e ∉ chosen → off ∨
      (e.kind = .user ∨ e.kind = .assistant) ∧ e.text = R.query.val ∨
      fitsBeside R context (chosen.filter fun x => x.pinned ∨ e.sequence < x.sequence) e = false
  wrapped : out.wrapped = false

theorem Affordable.all (h : Affordable R context []) :
    Affordable R context (allChosen V R context) :=
  greedy_inv (fun _ x _ hf => Affordable.concat x hf) _
    (greedy_inv (fun _ x _ hf => Affordable.concat x hf) _ h)

theorem historySelect_of {s' : Selection} (h : Affordable R context [])
    (hs : historySelect V R (selectionOf R (contextBytes - context.length - heading.length) []) =
      .ok s') :
    s' = selectionOf R (contextBytes - context.length - heading.length)
      (allChosen V R context) := by
  unfold historySelect at hs
  cases h1 : historyPass (pinnedStep V R)
      (selectionOf R (contextBytes - context.length - heading.length) []) V.ascending with
  | error x =>
    rw [h1] at hs
    cases hs
  | ok s1 =>
    rw [h1] at hs
    obtain rfl := historyPass_of rfl
      (fun acc n s' _ ha hn hst => pinnedStep_of rfl ha hn hst) V.ascending [] s1
      (List.prefix_refl _) h h1
    have hlen : (selectionOf R (contextBytes - context.length - heading.length)
        (pinnedChosen V R context)).lines.length = (pinnedChosen V R context).length := by
      simp [selectionOf]
    rw [← pinnedChosen] at hs
    dsimp only [bind, Except.bind] at hs
    rw [hlen] at hs
    exact historyPass_of rfl
      (fun acc n s' hb ha hn hst => recentStep_of rfl hb pinnedChosen_sorted ha hn hst)
      V.descending (pinnedChosen V R context) s' (List.prefix_refl _)
      (greedy_inv (fun _ x _ hf => Affordable.concat x hf) _ h) hs

/-- The chosen events in the order of the section. -/
def inOrder (es : List Event) : List Event :=
  es.mergeSort fun a b => a.sequence ≤ b.sequence

theorem inOrder_perm (es : List Event) : (inOrder es).Perm es := List.mergeSort_perm es _

theorem inOrder_pairwise {es : List Event} (h : (es.map (·.sequence)).Nodup) :
    (inOrder es).Pairwise fun a b => a.sequence < b.sequence := by
  have hle : (inOrder es).Pairwise fun a b => decide (a.sequence ≤ b.sequence) = true := by
    refine List.pairwise_mergeSort (fun a b c hab hbc => ?_) (fun a b => ?_) es
    · simp only [decide_eq_true_eq] at hab hbc ⊢
      omega
    · simpa using Nat.le_total a.sequence b.sequence
  have hne := List.pairwise_map.1 (((inOrder_perm es).map (·.sequence)).nodup_iff.2 h)
  refine hle.imp₂ (fun a b hab hne => ?_) hne
  exact Nat.lt_of_le_of_ne (of_decide_eq_true hab) hne

theorem lineBytes_eq (es : List Event) : (es.flatMap eventLine).length = lineBytes es := by
  rw [List.length_flatMap]
  rfl

theorem historySection_of {limit : Nat} {es : List Event} {text : Bytes}
    (h : historySection R (selectionOf R limit es) = .ok text) :
    text = heading ++ (inOrder es).flatMap eventLine ∧ sourceTokens R text ≤ R.historyTokens := by
  have hrows : ((selectionOf R limit es).lines.mergeSort fun a b =>
      decide (a.sequence ≤ b.sequence)) =
      (inOrder es).map fun e => ⟨e.sequence, eventLine e⟩ := by
    refine (List.map_mergeSort ?_).symm
    exact fun _ _ _ _ => rfl
  unfold historySection at h
  dsimp only at h
  rw [hrows, List.flatMap_map] at h
  split at h
  · cases h
  · next hle =>
    obtain rfl := Except.ok.inj h
    exact ⟨rfl, Nat.le_of_not_lt hle⟩

theorem selects_none {off : Prop} (hoff : off ∨ ¬ Affordable R context []) :
    Selects off V R context ⟨context, V.count, 0, false⟩ [] := by
  have hout : ∀ e, off ∨ fitsBeside R context [] e = false := by
    intro e
    refine hoff.imp_right fun hn => ?_
    by_contra hf
    refine hn ⟨Nat.zero_le _, ?_, ?_⟩
    · have := (fitsBeside_iff.1 (by simpa using hf)).2.1
      omega
    · have := (fitsBeside_iff.1 (by simpa using hf)).2.2
      omega
  exact ⟨(List.append_nil _).symm, rfl, rfl, Nat.zero_le _, fun h => h, Nat.zero_le _, .nil,
    fun _ h => absurd h List.not_mem_nil, fun e _ _ _ _ _ => hout e,
    fun e _ _ _ _ _ => (hout e).imp_right .inr, rfl⟩

/-- The events of both passes are selected. -/
theorem selects_all {off : Prop} (h : Affordable R context [])
    (htokens : sourceTokens R (historyBlock (inOrder (allChosen V R context))) ≤
      R.historyTokens) :
    Selects off V R context ⟨context ++ historyBlock (inOrder (allChosen V R context)), V.count,
      (allChosen V R context).length, false⟩ (inOrder (allChosen V R context)) := by
  have hp := inOrder_perm (allChosen V R context)
  have hall : Affordable R context (allChosen V R context) := h.all
  have hsum : lineBytes (inOrder (allChosen V R context)) = lineBytes (allChosen V R context) :=
    (hp.map _).sum_eq
  refine ⟨rfl, rfl, hp.length_eq.symm, htokens, fun hc => ?_, ?_, inOrder_pairwise allChosen_nodup,
    fun e he => mem_allChosen (hp.mem_iff.1 he), fun e hr hn hk hpin hnot => .inr ?_,
    fun e hr hn hk hpin hnot => .inr ?_, rfl⟩
  · have h1 := hall.bytes
    unfold historyBlock
    split
    · simpa using hc
    · simp only [List.length_append, lineBytes_eq, hsum]
      omega
  · rw [hp.length_eq]
    exact hall.count
  · have hnot' : e ∉ pinnedChosen V R context := fun hm =>
      hnot (hp.mem_iff.2 (mem_greedy_of_mem hm))
    rw [fitsBeside_perm (hp.filter _), ← pinned_omitted hr hn hk hpin hnot']
    -- no event of the second pass is pinned
    obtain ⟨ys, hys, hs⟩ := greedy_eq_append (fitsBeside R context) (pinnedChosen V R context)
      (V.descending.filterMap (recentCand V R (pinnedChosen V R context)))
    have hrest : ys.filter (fun x => decide (x.pinned = true ∧ x.sequence < e.sequence)) = [] := by
      refine List.filter_eq_nil_iff.2 fun x hx => ?_
      have hx1 : x ∈ allChosen V R context := by
        rw [allChosen, hys]
        exact List.mem_append_right _ hx
      have hx2 : x ∉ pinnedChosen V R context := fun hm =>
        (mem_recent_filterMap (hs.subset hx)).2.2.1 (List.mem_map_of_mem hm)
      simp [recent_not_pinned hx1 hx2]
    congr 1
    rw [allChosen, hys, List.filter_append, hrest, List.append_nil]
    refine List.filter_congr fun x hx => ?_
    simp [(mem_pinnedChosen hx).2.2.2]
  · by_cases he : e.kind.eligible e.text R = true
    · refine .inr ?_
      rw [fitsBeside_perm (hp.filter _)]
      exact other_omitted hr hn he fun hm => hnot (hp.mem_iff.2 hm)
    · refine .inl ?_
      unfold EventKind.eligible at he
      simp only [decide_eq_true_eq] at he
      by_contra hquery
      exact he ⟨hk, hquery⟩

end

/-- **The history section.** Where `asper_source_history` succeeds, the section shows whole events
in ascending order and is within the tokens, bytes and events allowed; an event that is left out had
no room beside those looked at before it, or is the turn being answered, or there is no section at
all as `history_tokens` is 0. -/
theorem history_selects (V : EventView) (R : ContextRequest) (context : Bytes) (out : HistoryOut)
    (h : sourceHistory V R context = .ok out) :
    ∃ chosen, Selects (R.historyTokens = 0) V R context out chosen := by
  unfold sourceHistory at h
  dsimp only at h
  split at h
  · next hc =>
    obtain rfl := Except.ok.inj h
    refine ⟨[], selects_none (hc.imp_right fun hc ha => ?_)⟩
    have h1 := ha.tokens
    have h2 := ha.bytes
    simp only [lineTokens, lineBytes, List.map_nil, List.sum_nil] at h1 h2
    omega
  next hc =>
  simp only [not_or, not_lt] at hc
  obtain ⟨-, htok, hlen⟩ := hc
  have h3 : heading.length ≤ contextBytes := by decide
  have h4 : contextBytes < 2 ^ 64 := by decide
  have ha : Affordable R context [] := by
    refine ⟨Nat.zero_le _, htok, ?_⟩
    simp only [lineBytes, List.map_nil, List.sum_nil]
    omega
  have hsub : sizeSub contextBytes context.length = contextBytes - context.length :=
    sizeSub_eq (by omega) h4
  have hstart : (⟨[], 0, sourceTokens R heading,
      sizeSub (sizeSub contextBytes context.length) heading.length,
      decide (contextBytes < context.length) ||
        decide (sizeSub contextBytes context.length < heading.length)⟩ : Selection) =
      selectionOf R (contextBytes - context.length - heading.length) [] := by
    rw [hsub, sizeSub_eq (by omega) (by omega), decide_eq_false (by omega),
      decide_eq_false (by omega)]
    rfl
  rw [hstart] at h
  cases hs : historySelect V R
      (selectionOf R (contextBytes - context.length - heading.length) []) with
  | error x =>
    rw [hs] at h
    cases h
  | ok s =>
    rw [hs] at h
    obtain rfl := historySelect_of ha hs
    dsimp only [bind, Except.bind] at h
    have hlines : (selectionOf R (contextBytes - context.length - heading.length)
        (allChosen V R context)).lines.length = (allChosen V R context).length := by
      simp [selectionOf]
    split at h
    · next hnil =>
      have hall : allChosen V R context = [] := by simpa [selectionOf] using hnil
      have hblock : historyBlock (inOrder (allChosen V R context)) = [] := by
        rw [hall, inOrder, List.mergeSort_nil]
        rfl
      obtain rfl := Except.ok.inj h
      have hsel : Selects (R.historyTokens = 0) V R context _ _ := selects_all ha (by
        rw [hblock]
        exact Nat.zero_le _)
      rw [hblock, List.append_nil, ← hlines, hnil] at hsel
      exact ⟨_, hsel⟩
    · next hne =>
      have hall : inOrder (allChosen V R context) ≠ [] := by
        intro hn
        have hp := inOrder_perm (allChosen V R context)
        rw [hn] at hp
        rw [hp.nil_eq.symm] at hne
        exact hne rfl
      cases ht : historySection R
          (selectionOf R (contextBytes - context.length - heading.length)
            (allChosen V R context)) with
      | error x =>
        rw [ht] at h
        cases h
      | ok text =>
        rw [ht] at h
        obtain ⟨rfl, htok'⟩ := historySection_of ht
        obtain rfl := Except.ok.inj h
        have hblock : historyBlock (inOrder (allChosen V R context)) =
            heading ++ (inOrder (allChosen V R context)).flatMap eventLine := if_neg hall
        rw [← hblock] at htok' ⊢
        rw [hlines]
        exact ⟨_, selects_all ha htok'⟩

/-- A pinned decision. -/
def shipped : Event := ⟨1, 0, .decision, true, ascii "n", [], ascii "ship"⟩

def shippedView : EventView where
  count := 1
  read n := if n = 1 then .ok shipped else .error .notFound
  head n := if n = 1 then .ok shipped else .error .notFound
  numbered n e h := by
    split at h
    · next hn =>
      obtain rfl := Except.ok.inj h
      exact hn.symm
    · cases h
  head_read n e h hr hh := by
    obtain rfl := Except.ok.inj (hr.symm.trans hh)
    exact ⟨rfl, rfl⟩

/-- The theorem for a log with one event. -/
theorem history_selects_shipped : ∃ chosen, Selects (100 = 0) shippedView
    ⟨CStr.empty, 100, by decide, 0, none⟩ []
    ⟨heading ++ eventLine shipped, 1, 1, false⟩ chosen :=
  history_selects shippedView ⟨CStr.empty, 100, by decide, 0, none⟩ [] _ (by decide +kernel)

/-- With a budget of 0 there is no section, though a counter may find no tokens in it. -/
theorem history_excluded :
    sourceHistory shippedView ⟨CStr.empty, 0, by decide, 0, some fun _ => 0⟩ [] =
      .ok ⟨[], 1, 0, false⟩ ∧
    ¬ ∃ chosen, Selects False shippedView ⟨CStr.empty, 0, by decide, 0, some fun _ => 0⟩ []
      ⟨[], 1, 0, false⟩ chosen := by
  refine ⟨rfl, fun ⟨chosen, h⟩ => ?_⟩
  obtain rfl : chosen = [] := List.length_eq_zero_iff.1 h.included.symm
  have hroom := (h.pinned shipped rfl (by decide) (by decide) rfl List.not_mem_nil).resolve_left id
  exact absurd hroom (by decide)

/-! ## The whole context -/

/-- The context that the section is added to is within its bytes. -/
theorem appendCheckpoint_le {R : ContextRequest} {load : Except Err Bytes} {context : Bytes}
    (h : appendCheckpoint R load [] = .ok context) : context.length ≤ contextBytes := by
  unfold appendCheckpoint at h
  split at h
  · rw [← Except.ok.inj h]
    exact Nat.zero_le _
  · split at h
    · rw [← Except.ok.inj h]
      exact Nat.zero_le _
    · cases h
    · dsimp only at h
      split at h
      · next hc =>
        have h1 : (ascii "## Working checkpoint\n").length = 22 := by decide
        have h2 : (ascii "\n\n").length = 2 := by decide
        rw [← Except.ok.inj h]
        simp only [List.nil_append, List.length_append, h1, h2]
        have h3 : 24 ≤ contextBytes := by decide
        omega
      · rw [← Except.ok.inj h]
        exact Nat.zero_le _

/-! ## Views on a disk -/

section
variable {D : Digest} {v : View} {d : Disk} {n : Nat} {e h : Event}

theorem pinsApply_fields (pins : List Pin) (e : Event) :
    (pinsApply pins e).sequence = e.sequence ∧ (pinsApply pins e).kind = e.kind := by
  rw [pinsApply_eq]
  exact ⟨rfl, rfl⟩

theorem pinsApply_pinned {pins : List Pin} {e e' : Event} (h1 : e.id = e'.id)
    (h2 : e.pinned = e'.pinned) : (pinsApply pins e).pinned = (pinsApply pins e').pinned := by
  rw [pinsApply_eq, pinsApply_eq, overlaid, overlaid]
  dsimp only
  rw [h1, h2]

theorem frameRead_frameHead {s rest : Bytes} (h : frameRead D s = .ok (e, rest)) :
    ∃ hd body, frameHead D s = .ok (hd, body) ∧ hd.event.id = e.id ∧ hd.event.kind = e.kind ∧
      hd.event.pinned = e.pinned := by
  unfold frameRead at h
  cases hh : frameHead D s with
  | error x =>
    rw [hh] at h
    cases h
  | ok r =>
    obtain ⟨hd, body⟩ := r
    rw [hh] at h
    dsimp only at h
    refine ⟨hd, body, rfl, ?_⟩
    split at h
    · cases h
    split at h
    · cases h
    split at h
    · cases h
    split at h
    · cases h
    split at h
    · cases h
    split at h
    · obtain ⟨rfl, -⟩ := Prod.mk.inj (Except.ok.inj h)
      exact ⟨rfl, rfl, rfl⟩
    · cases h

/-- An event that a view reads: its frame in the files, under its number. -/
theorem viewRead_frame (h : ((viewRead D v n).result d).map Prod.fst = .ok e) :
    ∃ fs a b e' rest, (filesRow D v.path v.files n).result d = .ok (fs, a, b) ∧
      frameRead D (fs.log.drop a) = .ok (e', rest) ∧ e'.sequence = n ∧ e = pinsApply v.pins e' := by
  cases hr : (viewRead D v n).result d with
  | error x =>
    rw [hr] at h
    cases h
  | ok r =>
    rw [hr] at h
    obtain rfl := Except.ok.inj h
    obtain ⟨⟨e', files⟩, hf, hp⟩ := Act.bind_eq_ok hr
    obtain ⟨⟨fs, a, b⟩, hrow, hb⟩ := Act.bind_eq_ok hf
    dsimp only at hb
    split at hb
    · cases hb
    · next e'' rest hread =>
      split at hb
      · cases hb
      · next hseq =>
        obtain ⟨rfl, rfl⟩ := Prod.mk.inj (Except.ok.inj hb)
        obtain rfl := Except.ok.inj hp
        exact ⟨fs, a, b, e'', rest, hrow, hread, Classical.not_not.1 fun hn => hseq (.inl hn), rfl⟩

theorem viewHead_frame (h : ((viewHead D v n).result d).map Prod.fst = .ok e) :
    ∃ fs a b hd rest, (filesRow D v.path v.files n).result d = .ok (fs, a, b) ∧
      frameHead D (fs.log.drop a) = .ok (hd, rest) ∧ e = pinsApply v.pins hd.event := by
  cases hr : (viewHead D v n).result d with
  | error x =>
    rw [hr] at h
    cases h
  | ok r =>
    rw [hr] at h
    obtain rfl := Except.ok.inj h
    obtain ⟨⟨e', files⟩, hf, hp⟩ := Act.bind_eq_ok hr
    obtain ⟨⟨fs, a, b⟩, hrow, hb⟩ := Act.bind_eq_ok hf
    dsimp only at hb
    split at hb
    · cases hb
    · next hd rest hread =>
      split at hb
      · cases hb
      · obtain ⟨rfl, rfl⟩ := Prod.mk.inj (Except.ok.inj hb)
        obtain rfl := Except.ok.inj hp
        exact ⟨fs, a, b, hd, rest, hrow, hread, rfl⟩

/-- The events of a view on the disk `d`. -/
def View.events (D : Digest) (v : View) (d : Disk) : EventView where
  count := v.files.count
  read n := ((viewRead D v n).result d).map Prod.fst
  head n := ((viewHead D v n).result d).map Prod.fst
  numbered n e h := by
    obtain ⟨fs, a, b, e', rest, -, -, hseq, rfl⟩ := viewRead_frame h
    rw [(pinsApply_fields _ _).1, hseq]
  head_read n e h hr hh := by
    obtain ⟨fs, a, b, e', rest, hrow, hread, -, rfl⟩ := viewRead_frame hr
    obtain ⟨fs', a', b', hd, rest', hrow', hhead, rfl⟩ := viewHead_frame hh
    obtain ⟨hd', body, hhead', h1, h2, h3⟩ := frameRead_frameHead hread
    obtain ⟨rfl, rfl, rfl⟩ : fs = fs' ∧ a = a' ∧ b = b' := by
      simpa using Except.ok.inj (hrow.symm.trans hrow')
    obtain rfl : hd' = hd := (Prod.mk.inj (Except.ok.inj (hhead'.symm.trans hhead))).1
    exact ⟨by rw [(pinsApply_fields _ _).2, (pinsApply_fields _ _).2, h2], pinsApply_pinned h1 h3⟩

end

end Asper
