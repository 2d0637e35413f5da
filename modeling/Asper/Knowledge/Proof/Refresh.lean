import Asper.Knowledge.Proof.Support

/-! # What a refresh leaves

The two relation phases have closed forms: a correction makes its target stale unless revoked
(`supersede_apply`), a contradiction contests both ends when neither is bad for another reason
(`contradict_apply`). No phase makes a bad record good (`bad_mono`), so the checks of one phase
outlast the next ones and a refresh ends in a sound closure (`knowledgeRefresh_closure`). -/

namespace Asper

open Durable (Bytes)

/-- The entries of the store, none before the knowledge is open. -/
def Claims.entries (c : Claims) : List KnowledgeEntry := (c.knowledge.map (·.entries)).getD []

theorem knowledgeRefresh_status (D : Digest) (c : Claims) (now : Int) :
    (knowledgeRefresh D c now).status =
      refreshStatuses D c.table c.entries (initialStatuses D c now) := by
  unfold knowledgeRefresh Claims.entries
  cases c.knowledge <;> rfl

section
variable {D : Digest} {t : Table}

/-! ## The relation phases -/

/-- The links of all entries, in the order the phases meet them. -/
def allLinks (es : List KnowledgeEntry) : List (KnowledgeEntry × KnowledgeLink) :=
  es.flatMap fun e => e.grounding.links.map (e, ·)

theorem mem_allLinks {es : List KnowledgeEntry} {e : KnowledgeEntry} {l : KnowledgeLink} :
    (e, l) ∈ allLinks es ↔ e ∈ es ∧ l ∈ e.grounding.links := by
  simp [allLinks]

/-- `relateLink` on a link and its entry. -/
def relatePair (D : Digest) (t : Table) (kind : RelationKind) (st : Statuses)
    (p : KnowledgeEntry × KnowledgeLink) : Statuses := relateLink D t kind p.1 st p.2

theorem applyRelations_eq (es : List KnowledgeEntry) (kind : RelationKind) (st : Statuses) :
    applyRelations D t es kind st = (allLinks es).foldl (relatePair D t kind) st := by
  rw [applyRelations, allLinks, List.foldl_flatMap]
  congr 1
  funext st e
  rw [relateEntry, List.foldl_map]
  rfl

/-- The link is of the kind and names the present content of its target. -/
def Relates (D : Digest) (t : Table) (kind : RelationKind) (l : KnowledgeLink) : Prop :=
  l.kind = kind ∧ sameClaim D (t.get l.recordId) l.contentSha256 = true

instance (kind : RelationKind) (l : KnowledgeLink) : Decidable (Relates D t kind l) :=
  inferInstanceAs (Decidable (_ ∧ _))

theorem relatePair_of_not {kind : RelationKind} {st : Statuses}
    {p : KnowledgeEntry × KnowledgeLink} (h : ¬ Relates D t kind p.2) :
    relatePair D t kind st p = st := by
  unfold relatePair relateLink
  split
  · rfl
  · next hk =>
    split
    · rfl
    · next hs => exact absurd ⟨not_not.1 hk, by simpa using hs⟩ h

theorem relatePair_supersedes {st : Statuses} {p : KnowledgeEntry × KnowledgeLink}
    (h : Relates D t .supersedes p.2) : relatePair D t .supersedes st p =
      if st p.2.recordId ≠ .revoked then st.set p.2.recordId .stale else st := by
  unfold relatePair relateLink
  rw [if_neg (not_not.2 h.1), if_neg (by simp [h.2])]

theorem relatePair_contradicts {st : Statuses} {p : KnowledgeEntry × KnowledgeLink}
    (h : Relates D t .contradicts p.2) : relatePair D t .contradicts st p =
      if sameClaim D (t.get p.1.id) p.1.hash ∧ (st p.1.id).contestable ∧
          (st p.2.recordId).contestable then
        (st.set p.2.recordId .contested).set p.1.id .contested
      else st := by
  unfold relatePair relateLink
  rw [if_neg (not_not.2 h.1), if_neg (by simp [h.2])]

/-- Some entry corrects the present content of the record. -/
def Superseded (D : Digest) (t : Table) (es : List KnowledgeEntry) (id : Bytes) : Prop :=
  ∃ p ∈ allLinks es, Relates D t .supersedes p.2 ∧ p.2.recordId = id

instance (es : List KnowledgeEntry) (id : Bytes) : Decidable (Superseded D t es id) :=
  inferInstanceAs (Decidable (∃ p ∈ allLinks es, _ ∧ _))

/-- What one correction does to the record `id`. -/
theorem supersede_pair (st : Statuses) (p : KnowledgeEntry × KnowledgeLink) (id : Bytes) :
    relatePair D t .supersedes st p id =
      if st id ≠ .revoked ∧ Relates D t .supersedes p.2 ∧ p.2.recordId = id then .stale
      else st id := by
  by_cases hr : Relates D t .supersedes p.2
  · rw [relatePair_supersedes hr]
    by_cases he : p.2.recordId = id
    · subst he
      by_cases hv : st p.2.recordId = .revoked
      · simp [hv]
      · simp [hv, hr]
    · have : (if st p.2.recordId ≠ .revoked then st.set p.2.recordId .stale else st) id = st id := by
        split
        · exact st.set_ne _ (Ne.symm he)
        · rfl
      simp [this, he]
  · rw [relatePair_of_not hr]
    simp [hr]

theorem supersede_foldl (id : Bytes) : ∀ (ps : List (KnowledgeEntry × KnowledgeLink))
    (st : Statuses), ps.foldl (relatePair D t .supersedes) st id =
      if st id ≠ .revoked ∧ ∃ p ∈ ps, Relates D t .supersedes p.2 ∧ p.2.recordId = id then .stale
      else st id
  | [], st => by simp
  | p :: ps, st => by
    rw [List.foldl_cons, supersede_foldl id ps, supersede_pair]
    by_cases hp : st id ≠ .revoked ∧ Relates D t .supersedes p.2 ∧ p.2.recordId = id
    · rw [if_pos hp, ite_self, if_pos ⟨hp.1, p, .head _, hp.2⟩]
    · rw [if_neg hp]
      refine if_congr (and_congr_right fun hv => ?_) rfl rfl
      rw [List.exists_mem_cons_iff]
      exact ⟨.inr, fun h => h.resolve_left fun h => hp ⟨hv, h⟩⟩

/-- **Corrections**, in whatever order they are met. -/
theorem supersede_apply (es : List KnowledgeEntry) (st : Statuses) (id : Bytes) :
    applyRelations D t es .supersedes st id =
      if st id ≠ .revoked ∧ Superseded D t es id then .stale else st id := by
  rw [applyRelations_eq]
  exact supersede_foldl id _ _

/-- Some contradiction has the record as an end, and neither end is bad for another reason. -/
def Contested (D : Digest) (t : Table) (es : List KnowledgeEntry) (st : Statuses) (id : Bytes) :
    Prop :=
  ∃ p ∈ allLinks es, Relates D t .contradicts p.2 ∧ sameClaim D (t.get p.1.id) p.1.hash = true ∧
    ((st p.1.id).contestable = true ∧ (st p.2.recordId).contestable = true) ∧
    (id = p.1.id ∨ id = p.2.recordId)

instance (es : List KnowledgeEntry) (st : Statuses) (id : Bytes) :
    Decidable (Contested D t es st id) := inferInstanceAs (Decidable (∃ p ∈ allLinks es, _ ∧ _))

theorem contradict_pair {st : Statuses} {p : KnowledgeEntry × KnowledgeLink}
    (h : Relates D t .contradicts p.2) (hs : sameClaim D (t.get p.1.id) p.1.hash = true)
    (hc : (st p.1.id).contestable = true ∧ (st p.2.recordId).contestable = true) (id : Bytes) :
    relatePair D t .contradicts st p id =
      if id = p.1.id ∨ id = p.2.recordId then .contested else st id := by
  rw [relatePair_contradicts h]
  simp only [hs, hc.1, hc.2, and_self, if_true]
  by_cases h1 : id = p.1.id
  · subst h1
    simp
  · rw [Statuses.set_ne _ _ h1]
    by_cases h2 : id = p.2.recordId
    · subst h2
      simp
    · rw [Statuses.set_ne _ _ h2]
      simp [h1, h2]

theorem contradict_pair_not {st : Statuses} {p : KnowledgeEntry × KnowledgeLink}
    (h : ¬ (Relates D t .contradicts p.2 ∧ sameClaim D (t.get p.1.id) p.1.hash = true ∧
      (st p.1.id).contestable = true ∧ (st p.2.recordId).contestable = true)) :
    relatePair D t .contradicts st p = st := by
  by_cases hr : Relates D t .contradicts p.2
  · rw [relatePair_contradicts hr]
    exact if_neg fun hc => h ⟨hr, hc⟩
  · exact relatePair_of_not hr

/-- Contested records stay contestable, so each contradiction is judged by the first statuses. -/
theorem contradict_foldl (st₀ : Statuses) (id : Bytes) :
    ∀ (ps : List (KnowledgeEntry × KnowledgeLink)) (st : Statuses),
      (∀ i, (st i).contestable = (st₀ i).contestable) →
      ps.foldl (relatePair D t .contradicts) st id =
        if ∃ p ∈ ps, Relates D t .contradicts p.2 ∧ sameClaim D (t.get p.1.id) p.1.hash = true ∧
          ((st₀ p.1.id).contestable = true ∧ (st₀ p.2.recordId).contestable = true) ∧
          (id = p.1.id ∨ id = p.2.recordId) then .contested
        else st id
  | [], st, _ => by simp
  | p :: ps, st, hst => by
    rw [List.foldl_cons]
    by_cases h : Relates D t .contradicts p.2 ∧ sameClaim D (t.get p.1.id) p.1.hash = true ∧
        (st p.1.id).contestable = true ∧ (st p.2.recordId).contestable = true
    · obtain ⟨hr, hs, hc⟩ := h
      rw [contradict_foldl st₀ id ps _ fun i => by
        rw [contradict_pair hr hs hc, ← hst i]
        split
        · next hi =>
          rcases hi with rfl | rfl
          · exact hc.1.symm
          · exact hc.2.symm
        · rfl, contradict_pair hr hs hc]
      rw [hst, hst] at hc
      by_cases hi : id = p.1.id ∨ id = p.2.recordId
      · rw [if_pos hi, ite_self, if_pos ⟨p, .head _, hr, hs, hc, hi⟩]
      · rw [if_neg hi]
        refine if_congr ?_ rfl rfl
        rw [List.exists_mem_cons_iff]
        exact ⟨.inr, fun h => h.resolve_left fun h => hi h.2.2.2⟩
    · rw [contradict_pair_not h, contradict_foldl st₀ id ps st hst]
      rw [hst, hst] at h
      refine if_congr ?_ rfl rfl
      rw [List.exists_mem_cons_iff]
      exact ⟨.inr, fun hp => hp.resolve_left fun hp => h ⟨hp.1, hp.2.1, hp.2.2.1⟩⟩

/-- **Contradictions**, in whatever order they are met. -/
theorem contradict_apply (es : List KnowledgeEntry) (st : Statuses) (id : Bytes) :
    applyRelations D t es .contradicts st id =
      if Contested D t es st id then .contested else st id := by
  rw [applyRelations_eq]
  exact contradict_foldl st id _ st fun _ => rfl

/-! ## Bad records stay bad -/

theorem bad_supersede {es : List KnowledgeEntry} {st : Statuses} {id : Bytes} (h : st.Bad id) :
    (applyRelations D t es .supersedes st).Bad id := by
  rw [Statuses.Bad, supersede_apply]
  split
  · rfl
  · exact h

theorem bad_contradict {es : List KnowledgeEntry} {st : Statuses} {id : Bytes} (h : st.Bad id) :
    (applyRelations D t es .contradicts st).Bad id := by
  rw [Statuses.Bad, contradict_apply]
  split
  · rfl
  · exact h

theorem bad_propagate {es : List KnowledgeEntry} {st : Statuses} {id : Bytes} (h : st.Bad id) :
    (propagateSupport D t es es.length st).Bad id := by
  rw [propagateSupport_eq_rounds]
  exact Sweep.mark_rounds (bad_marks D t) h _

/-- The statuses between the phases. -/
def supportedStatuses (D : Digest) (t : Table) (es : List KnowledgeEntry) (st : Statuses) :
    Statuses :=
  propagateSupport D t es es.length (applyRelations D t es .supersedes st)

theorem refreshStatuses_eq (es : List KnowledgeEntry) (st : Statuses) :
    refreshStatuses D t es st = propagateSupport D t es es.length
      (applyRelations D t es .contradicts (supportedStatuses D t es st)) := rfl

theorem bad_mono {es : List KnowledgeEntry} {st : Statuses} {id : Bytes}
    (h : (supportedStatuses D t es st).Bad id) : (refreshStatuses D t es st).Bad id :=
  bad_propagate (bad_contradict h)

theorem bad_refresh {es : List KnowledgeEntry} {st : Statuses} {id : Bytes} (h : st.Bad id) :
    (refreshStatuses D t es st).Bad id := bad_mono (bad_propagate (bad_supersede h))

theorem settled_refresh (es : List KnowledgeEntry) (st : Statuses) :
    Settled D t es (refreshStatuses D t es st) := settled_propagateSupport D t es _

theorem sameClaim_iff {o : Option Record} {hash : Bytes} :
    sameClaim D o hash = true ↔ ∃ r, o = some r ∧ contentHash D r.content = hash := by
  cases o with
  | none => simp [sameClaim]
  | some r => simp [sameClaim]

end

section
variable (D : Digest)

/-- A record that is not bad after its own checks has the content and the standing of its entry. -/
theorem initial_of_entry {c : Claims} (now : Int) {e : KnowledgeEntry} (he : e ∈ c.entries)
    {r : Record} (hr : c.table.get e.id = some r) (hb : (initialStatuses D c now e.id).bad = false) :
    contentHash D r.content = e.hash ∧ e.grounding.revoked = false := by
  obtain ⟨k, hk, he⟩ : ∃ k, c.knowledge = some k ∧ e ∈ k.entries := by
    unfold Claims.entries at he
    cases hk : c.knowledge with
    | none => simp [hk] at he
    | some k => exact ⟨k, rfl, by simpa [hk] using he⟩
  have hf : knowledgeFind k r.id = some e :=
    knowledgeFind_eq_some.2 ⟨he, (Table.get_id hr).symm⟩
  unfold initialStatuses at hb
  rw [hr] at hb
  simp only [initialStatus, hk, hf] at hb
  split at hb
  · cases hb
  · split at hb
    · cases hb
    · unfold groundedStatus at hb
      split at hb
      · cases hb
      · next hv =>
        split at hb
        · cases hb
        · next hs => exact ⟨by simpa [sameClaim] using hs, by simpa using hv⟩

/-- What holds of the records and the latest entries after a refresh. A status is better than stale
when it is not bad. -/
structure Closure (c : Claims) (st : Statuses) : Prop where
  grounded : ∀ e ∈ c.entries, ∀ r, c.table.get e.id = some r → (st e.id).bad = false →
    contentHash D r.content = e.hash ∧ e.grounding.revoked = false
  supports : ∀ e ∈ c.entries, ∀ r, c.table.get e.id = some r → (st e.id).bad = false →
    ∀ l ∈ e.grounding.links, l.kind = .supports →
      ∃ p, c.table.get l.recordId = some p ∧ contentHash D p.content = l.contentSha256 ∧
        (st l.recordId).bad = false ∧ (st e.id = .current → st l.recordId = .current)
  supersedes : ∀ e ∈ c.entries, ∀ l ∈ e.grounding.links, l.kind = .supersedes →
    ∀ p, c.table.get l.recordId = some p → contentHash D p.content = l.contentSha256 →
      (st l.recordId).bad = true
  contradicts : ∀ e ∈ c.entries, ∀ r, c.table.get e.id = some r →
    contentHash D r.content = e.hash → ∀ l ∈ e.grounding.links, l.kind = .contradicts →
      ∀ p, c.table.get l.recordId = some p → contentHash D p.content = l.contentSha256 →
        ¬ ((st e.id).bad = false ∧ (st l.recordId).bad = false)

theorem refresh_supersedes (t : Table) {es : List KnowledgeEntry} (st : Statuses)
    {e : KnowledgeEntry} (he : e ∈ es) {l : KnowledgeLink} (hl : l ∈ e.grounding.links)
    (h : Relates D t .supersedes l) : (refreshStatuses D t es st).Bad l.recordId := by
  refine bad_mono (bad_propagate ?_)
  rw [Statuses.Bad, supersede_apply]
  split
  · rfl
  · next hn =>
    have hs : Superseded D t es l.recordId := ⟨(e, l), mem_allLinks.2 ⟨he, hl⟩, h, rfl⟩
    rw [not_not.1 fun hv => hn ⟨hv, hs⟩]
    rfl

theorem not_contestable {s : KnowledgeStatus} (h : s.contestable = false) : s.bad = true := by
  cases s <;> simp_all [KnowledgeStatus.contestable]

theorem refresh_contradicts (t : Table) {es : List KnowledgeEntry} (st : Statuses)
    {e : KnowledgeEntry} (he : e ∈ es) (hs : sameClaim D (t.get e.id) e.hash = true)
    {l : KnowledgeLink} (hl : l ∈ e.grounding.links) (h : Relates D t .contradicts l) :
    (refreshStatuses D t es st).Bad e.id ∨ (refreshStatuses D t es st).Bad l.recordId := by
  cases h1 : (supportedStatuses D t es st e.id).contestable with
  | false => exact .inl (bad_mono (not_contestable h1))
  | true =>
    cases h2 : (supportedStatuses D t es st l.recordId).contestable with
    | false => exact .inr (bad_mono (not_contestable h2))
    | true =>
      left
      rw [refreshStatuses_eq]
      refine bad_propagate ?_
      have hc : Contested D t es (supportedStatuses D t es st) e.id :=
        ⟨(e, l), mem_allLinks.2 ⟨he, hl⟩, h, hs, ⟨h1, h2⟩, .inl rfl⟩
      rw [Statuses.Bad, contradict_apply, if_pos hc]
      rfl

theorem refresh_grounded {c : Claims} {now : Int} {e : KnowledgeEntry} (he : e ∈ c.entries)
    {r : Record} (hr : c.table.get e.id = some r)
    (hb : (refreshStatuses D c.table c.entries (initialStatuses D c now) e.id).bad = false) :
    contentHash D r.content = e.hash ∧ e.grounding.revoked = false := by
  refine initial_of_entry D now he hr ?_
  by_contra hn
  have hbad : (refreshStatuses D c.table c.entries (initialStatuses D c now)).Bad e.id :=
    bad_refresh (by simpa using hn)
  rw [Statuses.Bad, hb] at hbad
  cases hbad

/-- **A refresh reaches a sound closure**, and neither support loop stops for want of passes. -/
theorem knowledgeRefresh_closure (c : Claims) (now : Int) :
    Closure D c (knowledgeRefresh D c now).status ∧
      ∀ st, supportPass D c.table c.entries
          (propagateSupport D c.table c.entries c.entries.length st) =
        (propagateSupport D c.table c.entries c.entries.length st, false) := by
  rw [knowledgeRefresh_status]
  refine ⟨⟨fun e he r hr hb => refresh_grounded D he hr hb, fun e he r hr hb l hl hk => ?_,
    fun e he l hl hk p hp hh => ?_, fun e he r hr hh l hl hk p hp hh' hb => ?_⟩,
    supportPass_propagateSupport D c.table c.entries⟩
  · obtain ⟨hs, hl', hc⟩ :=
      (settled_refresh c.entries _).link he (by rw [hr]; rfl) hb hl hk
    obtain ⟨p, hp, hh⟩ := sameClaim_iff.1 hs
    exact ⟨p, hp, hh, hl', hc⟩
  · exact refresh_supersedes D c.table _ he hl ⟨hk, sameClaim_iff.2 ⟨p, hp, hh⟩⟩
  · rcases refresh_contradicts D c.table (initialStatuses D c now) he
      (sameClaim_iff.2 ⟨r, hr, hh⟩) hl ⟨hk, sameClaim_iff.2 ⟨p, hp, hh'⟩⟩ with h | h
    · rw [Statuses.Bad, hb.1] at h
      cases h
    · rw [Statuses.Bad, hb.2] at h
      cases h

end

end Asper
