import Asper.Knowledge.Proof.Support

/-! # Records that no link joins

Two contexts that differ in hidden records only, and in which no link leads from a hidden record to
another or back, give every other record the same status and revision
(`Alike.knowledgeRefresh`). -/

namespace Asper

open Durable (Bytes)
open Sweep

/-- The entries of records that are not hidden. -/
def shownEntries (hidden : Bytes → Bool) (k : Knowledge) : List KnowledgeEntry :=
  k.entries.filter fun e => !hidden e.id

/-- No link joins a hidden record with another one. -/
def LinksApart (hidden : Bytes → Bool) (t : Table) (es : List KnowledgeEntry) : Prop :=
  ∀ e ∈ es, ∀ l ∈ e.grounding.links,
    (hidden e.id = false → hidden l.recordId = false) ∧
      (hidden e.id = true → t.get l.recordId = none ∨ hidden l.recordId = true)

/-- The contexts differ in hidden records only. -/
structure Alike (hidden : Bytes → Bool) (c c' : Claims) : Prop where
  get : ∀ id, hidden id = false → c.table.get id = c'.table.get id
  storePoisoned : c.storePoisoned = c'.storePoisoned
  knowledge : Option.Rel (fun k k' => shownEntries hidden k = shownEntries hidden k' ∧
    k.observations = k'.observations ∧ k.poisoned = k'.poisoned) c.knowledge c'.knowledge
  apart : ∀ k, c.knowledge = some k → LinksApart hidden c.table k.entries
  apart' : ∀ k, c'.knowledge = some k → LinksApart hidden c'.table k.entries

section
variable {D : Digest} {hidden : Bytes → Bool} {t t' : Table}

/-- The ids whose status is compared. -/
def shownIds (hidden : Bytes → Bool) : Set Bytes := {id | hidden id = false}

theorem eqOn_set {st st' : Statuses} {id : Bytes} {s : KnowledgeStatus}
    (h : Set.EqOn st st' (shownIds hidden)) :
    Set.EqOn (st.set id s) (st'.set id s) (shownIds hidden) := by
  intro i hi
  by_cases hid : i = id
  · rw [hid, Statuses.set_self, Statuses.set_self]
  · rw [Statuses.set_ne _ _ hid, Statuses.set_ne _ _ hid, h hi]

theorem eqOn_set_hidden (st : Statuses) {id : Bytes} (s : KnowledgeStatus)
    (h : hidden id = true) : Set.EqOn (st.set id s) st (shownIds hidden) := by
  intro i hi
  refine Statuses.set_ne _ _ ?_
  rintro rfl
  have hi' : hidden i = false := hi
  rw [h] at hi'
  cases hi'

/-! ## Support -/

theorem supportLinks_eqOn (hget : ∀ id, hidden id = false → t.get id = t'.get id) {id : Bytes}
    (hid : hidden id = false) : ∀ {ls : List KnowledgeLink} {st st' : Statuses} {c c' : Bool},
    (∀ l ∈ ls, hidden l.recordId = false) → Set.EqOn st st' (shownIds hidden) →
    Set.EqOn (supportLinks D t id st c ls).1 (supportLinks D t' id st' c' ls).1 (shownIds hidden)
  | [], _, _, _, _, _, h => h
  | l :: ls, st, st', c, c', hls, h => by
    have hl := hls l (.head _)
    have hls' : ∀ m ∈ ls, hidden m.recordId = false := fun m hm => hls m (.tail _ hm)
    have hnext : supportNext D t' st' (st' id) l = supportNext D t st (st id) l := by
      rw [supportNext, supportNext, hget _ hl, h hl, h hid]
    rw [supportLinks, supportLinks]
    split
    · exact supportLinks_eqOn hget hid hls' h
    · dsimp only
      rw [hnext, h hid]
      have hset : Set.EqOn
          (if supportNext D t st (st' id) l ≠ st' id then st.set id (supportNext D t st (st' id) l)
            else st)
          (if supportNext D t st (st' id) l ≠ st' id then st'.set id (supportNext D t st (st' id) l)
            else st') (shownIds hidden) := by
        split
        · exact eqOn_set h
        · exact h
      split
      · exact hset
      · exact supportLinks_eqOn hget hid hls' hset

theorem supportVisit_eqOn (hget : ∀ id, hidden id = false → t.get id = t'.get id)
    {e : KnowledgeEntry} (he : hidden e.id = false)
    (hls : ∀ l ∈ e.grounding.links, hidden l.recordId = false) {st st' : Statuses}
    (h : Set.EqOn st st' (shownIds hidden)) :
    Set.EqOn (supportVisit D t st e) (supportVisit D t' st' e) (shownIds hidden) := by
  unfold supportVisit supportEntry
  rw [← hget e.id he]
  cases t.get e.id with
  | none => exact h
  | some r =>
    simp only [h he]
    split
    · exact h
    · exact supportLinks_eqOn hget he hls h

theorem supportVisit_hidden {e : KnowledgeEntry} (he : hidden e.id = true) (st : Statuses) :
    Set.EqOn (supportVisit D t st e) st (shownIds hidden) := by
  intro i hi
  refine supportVisit_other ?_
  rintro rfl
  have hi' : hidden e.id = false := hi
  rw [he] at hi'
  cases hi'

/-- More passes than there are entries change nothing. -/
theorem rounds_of_length_le {es : List KnowledgeEntry} {n : Nat} (h : es.length ≤ n)
    (st : Statuses) : rounds (supportVisit D t) es n st =
      rounds (supportVisit D t) es es.length st := by
  obtain ⟨m, rfl⟩ := Nat.exists_eq_add_of_le h
  have hfix := supportPass_propagateSupport D t es st
  rw [propagateSupport_eq_rounds] at hfix
  have hfold := (supportPass_fst es _).symm.trans (congrArg Prod.fst hfix)
  induction m with
  | zero => rfl
  | succ m ih => rw [← Nat.add_assoc, rounds_succ, ih (Nat.le_add_right _ _), hfold]

theorem propagateSupport_shown {es : List KnowledgeEntry} (h : LinksApart hidden t es)
    (hget : ∀ id, hidden id = false → t.get id = t'.get id) {st st' : Statuses}
    (hst : Set.EqOn st st' (shownIds hidden)) :
    Set.EqOn (propagateSupport D t es es.length st)
      (propagateSupport D t' (es.filter fun e => !hidden e.id)
        (es.filter fun e => !hidden e.id).length st') (shownIds hidden) := by
  rw [propagateSupport_eq_rounds, propagateSupport_eq_rounds,
    ← rounds_of_length_le (List.length_filter_le _ es)]
  refine rounds_eqOn (fun e he hk s s' hs => ?_) (fun e he hk s => ?_) hst _
  · have hk' : hidden e.id = false := by simpa using hk
    exact supportVisit_eqOn hget hk' (fun l hl => (h e he l hl).1 hk') hs
  · exact supportVisit_hidden (by simpa using hk) s

/-! ## Corrections and contradictions -/

theorem relateLink_eqOn (hget : ∀ id, hidden id = false → t.get id = t'.get id) (kind : RelationKind)
    {e : KnowledgeEntry} (he : hidden e.id = false) {l : KnowledgeLink}
    (hl : hidden l.recordId = false) {st st' : Statuses} (h : Set.EqOn st st' (shownIds hidden)) :
    Set.EqOn (relateLink D t kind e st l) (relateLink D t' kind e st' l) (shownIds hidden) := by
  unfold relateLink
  rw [← hget _ hl, ← hget _ he, ← h hl, ← h he]
  split
  · exact h
  split
  · exact h
  cases kind with
  | supersedes =>
    dsimp only
    split
    · exact eqOn_set h
    · exact h
  | contradicts =>
    dsimp only
    split
    · exact eqOn_set (eqOn_set h)
    · exact h
  | supports => exact h

theorem relateLink_hidden (kind : RelationKind) {e : KnowledgeEntry} (he : hidden e.id = true)
    {l : KnowledgeLink} (hl : t.get l.recordId = none ∨ hidden l.recordId = true) (st : Statuses) :
    Set.EqOn (relateLink D t kind e st l) st (shownIds hidden) := by
  unfold relateLink
  split
  · exact fun _ _ => rfl
  rcases hl with hl | hl
  · rw [hl, if_pos (by rfl)]
    exact fun _ _ => rfl
  split
  · exact fun _ _ => rfl
  cases kind with
  | supersedes =>
    dsimp only
    split
    · exact eqOn_set_hidden st _ hl
    · exact fun _ _ => rfl
  | contradicts =>
    dsimp only
    split
    · exact (eqOn_set_hidden _ _ he).trans (eqOn_set_hidden st _ hl)
    · exact fun _ _ => rfl
  | supports => exact fun _ _ => rfl

theorem relateEntry_eqOn (hget : ∀ id, hidden id = false → t.get id = t'.get id) (kind : RelationKind)
    {e : KnowledgeEntry} (he : hidden e.id = false)
    (hls : ∀ l ∈ e.grounding.links, hidden l.recordId = false) {st st' : Statuses}
    (h : Set.EqOn st st' (shownIds hidden)) :
    Set.EqOn (relateEntry D t kind st e) (relateEntry D t' kind st' e) (shownIds hidden) := by
  unfold relateEntry
  generalize e.grounding.links = ls at hls ⊢
  induction ls generalizing st st' with
  | nil => exact h
  | cons l ls ih =>
    rw [List.foldl_cons, List.foldl_cons]
    exact ih (relateLink_eqOn hget kind he (hls l (.head _)) h) fun m hm => hls m (.tail _ hm)

theorem relateEntry_hidden (kind : RelationKind) {e : KnowledgeEntry} (he : hidden e.id = true)
    (hls : ∀ l ∈ e.grounding.links, t.get l.recordId = none ∨ hidden l.recordId = true)
    (st : Statuses) : Set.EqOn (relateEntry D t kind st e) st (shownIds hidden) := by
  unfold relateEntry
  refine List.foldlRecOn (motive := fun s => Set.EqOn s st (shownIds hidden)) _ _
    (fun _ _ => rfl) fun s hs l hl => ?_
  exact (relateLink_hidden kind he (hls l hl) s).trans hs

theorem applyRelations_shown {es : List KnowledgeEntry} (h : LinksApart hidden t es)
    (hget : ∀ id, hidden id = false → t.get id = t'.get id) (kind : RelationKind)
    {st st' : Statuses} (hst : Set.EqOn st st' (shownIds hidden)) :
    Set.EqOn (applyRelations D t es kind st)
      (applyRelations D t' (es.filter fun e => !hidden e.id) kind st') (shownIds hidden) := by
  refine foldl_eqOn (fun e he hk s s' hs => ?_) (fun e he hk s => ?_) hst
  · have hk' : hidden e.id = false := by simpa using hk
    exact relateEntry_eqOn hget kind hk' (fun l hl => (h e he l hl).1 hk') hs
  · have hk' : hidden e.id = true := by simpa using hk
    exact relateEntry_hidden kind hk' (fun l hl => (h e he l hl).2 hk') s

theorem refreshStatuses_shown {es : List KnowledgeEntry} (h : LinksApart hidden t es)
    (hget : ∀ id, hidden id = false → t.get id = t'.get id) {st st' : Statuses}
    (hst : Set.EqOn st st' (shownIds hidden)) :
    Set.EqOn (refreshStatuses D t es st)
      (refreshStatuses D t' (es.filter fun e => !hidden e.id) st') (shownIds hidden) := by
  unfold refreshStatuses
  exact propagateSupport_shown h hget (applyRelations_shown h hget .contradicts
    (propagateSupport_shown h hget (applyRelations_shown h hget .supersedes hst)))

end

/-! ## The refresh -/

section
variable {D : Digest} {hidden : Bytes → Bool} {c c' : Claims}

theorem knowledgeFind_shown {k k' : Knowledge} (h : shownEntries hidden k = shownEntries hidden k')
    {id : Bytes} (hid : hidden id = false) : knowledgeFind k id = knowledgeFind k' id := by
  have hmem : ∀ {k : Knowledge} {e : KnowledgeEntry}, e.id = id →
      (e ∈ k.entries ↔ e ∈ shownEntries hidden k) := by
    intro k e he
    rw [shownEntries, List.mem_filter, he, hid]
    simp
  refine Option.ext fun e => ?_
  rw [knowledgeFind_eq_some, knowledgeFind_eq_some]
  refine and_congr_left fun he => ?_
  rw [hmem he, hmem he, h]

theorem Alike.initialStatus (h : Alike hidden c c') (now : Int) {r : Record}
    (hr : hidden r.id = false) : initialStatus D c now r = initialStatus D c' now r := by
  unfold Asper.initialStatus
  rw [h.storePoisoned]
  have hk := h.knowledge
  revert hk
  generalize c.knowledge = k
  generalize c'.knowledge = k'
  intro hk
  cases hk with
  | none => rfl
  | some hk =>
    obtain ⟨hent, hobs, hpois⟩ := hk
    simp only [Option.any_some, hpois, knowledgeFind_shown hent hr, groundedStatus, hobs]

theorem Alike.initialStatuses (h : Alike hidden c c') (now : Int) :
    Set.EqOn (initialStatuses D c now) (initialStatuses D c' now) (shownIds hidden) := by
  intro id hid
  unfold Asper.initialStatuses
  rw [← h.get id hid]
  split
  · rfl
  · next r hr => exact h.initialStatus now (Table.get_id hr ▸ hid)

theorem Alike.initialRevisions (h : Alike hidden c c') {id : Bytes} (hid : hidden id = false) :
    initialRevisions c id = initialRevisions c' id := by
  unfold Asper.initialRevisions
  rw [← h.get id hid]
  cases hr : c.table.get id with
  | none => rfl
  | some r =>
    have hrid : hidden r.id = false := Table.get_id hr ▸ hid
    have hk := h.knowledge
    revert hk
    generalize c.knowledge = k
    generalize c'.knowledge = k'
    intro hk
    cases hk with
    | none => rfl
    | some hk =>
      dsimp only
      rw [knowledgeFind_shown hk.1 hrid]

/-- **Hidden records do not show** in the status or the revision of any other. -/
theorem Alike.knowledgeRefresh (h : Alike hidden c c') (now : Int) {id : Bytes}
    (hid : hidden id = false) :
    (knowledgeRefresh D c now).status id = (knowledgeRefresh D c' now).status id ∧
      (knowledgeRefresh D c now).revision id = (knowledgeRefresh D c' now).revision id := by
  have hstart := h.initialStatuses (D := D) now
  have hrev := h.initialRevisions hid
  have hk := h.knowledge
  unfold Asper.knowledgeRefresh
  dsimp only
  cases hc : c.knowledge with
  | none =>
    rw [hc] at hk
    cases hc' : c'.knowledge with
    | none => exact ⟨hstart hid, hrev⟩
    | some k' =>
      rw [hc'] at hk
      cases hk
  | some k =>
    cases hc' : c'.knowledge with
    | none =>
      rw [hc, hc'] at hk
      cases hk
    | some k' =>
      rw [hc, hc'] at hk
      cases hk with
      | some hk =>
        -- each context is compared with the shown entries alone
        have h1 := refreshStatuses_shown (D := D) (h.apart k hc) h.get hstart
        have h2 := refreshStatuses_shown (D := D) (h.apart' k' hc') (fun _ _ => rfl)
          (fun _ _ => rfl : Set.EqOn (Asper.initialStatuses D c' now) _ (shownIds hidden))
        have hes : k.entries.filter (fun e => !hidden e.id) =
            k'.entries.filter fun e => !hidden e.id := hk.1
        rw [← hes] at h2
        exact ⟨(h1 hid).trans (h2 hid).symm, hrev⟩

end

end Asper
