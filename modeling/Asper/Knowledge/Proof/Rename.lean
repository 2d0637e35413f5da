import Asper.Knowledge.Proof.Refresh
import Mathlib.Data.List.Perm.Basic

/-! # Renaming the records

`Renamed ρ c c'`: the contexts hold the same records and latest entries, those of `c'` under the
ids `ρ` gives and perhaps in another order. Every step of a refresh commutes with an injective
`ρ`, so the refresh of `c'` is that of `c` with the entries in another order
(`knowledgeRefresh_renamed`). -/

namespace Asper

open Durable (Bytes)

def renameRecord (ρ : Bytes → Bytes) (r : Record) : Record := { r with id := ρ r.id }

def renameLink (ρ : Bytes → Bytes) (l : KnowledgeLink) : KnowledgeLink :=
  { l with recordId := ρ l.recordId }

/-- The entry under its new id, its links in the order they had. -/
def renameEntry (ρ : Bytes → Bytes) (e : KnowledgeEntry) : KnowledgeEntry :=
  { e with
    id := ρ e.id
    grounding := { e.grounding with links := e.grounding.links.map (renameLink ρ) } }

/-- The fields that no renaming touches. -/
def Claims.rest (c : Claims) : Option (List Dependency × Bool) × Bool :=
  (c.knowledge.map fun k => (k.observations, k.poisoned), c.storePoisoned)

structure Renamed (ρ : Bytes → Bytes) (c c' : Claims) : Prop where
  records : c'.table.recs.Perm (c.table.recs.map (renameRecord ρ))
  entries : c'.entries.Perm (c.entries.map (renameEntry ρ))
  rest : c'.rest = c.rest

/-! ## Lookups -/

section
variable {ρ : Bytes → Bytes} (hρ : Function.Injective ρ) {c c' : Claims} (h : Renamed ρ c c')
include hρ h

theorem Renamed.get (id : Bytes) :
    c'.table.get (ρ id) = (c.table.get id).map (renameRecord ρ) := by
  refine Option.ext fun r => ?_
  rw [Table.get_eq_some, Option.map_eq_some_iff, h.records.mem_iff, List.mem_map]
  constructor
  · rintro ⟨⟨r, hr, rfl⟩, hid⟩
    exact ⟨r, Table.get_eq_some.2 ⟨hr, hρ hid⟩, rfl⟩
  · rintro ⟨r, hr, rfl⟩
    obtain ⟨hm, rfl⟩ := Table.get_eq_some.1 hr
    exact ⟨⟨r, hm, rfl⟩, rfl⟩

theorem Renamed.find {k k' : Knowledge} (hk : c.knowledge = some k) (hk' : c'.knowledge = some k')
    (id : Bytes) : knowledgeFind k' (ρ id) = (knowledgeFind k id).map (renameEntry ρ) := by
  have hes := h.entries
  simp only [Claims.entries, hk, hk', Option.map_some, Option.getD_some] at hes
  refine Option.ext fun e => ?_
  rw [knowledgeFind_eq_some, Option.map_eq_some_iff, hes.mem_iff, List.mem_map]
  constructor
  · rintro ⟨⟨e, he, rfl⟩, hid⟩
    exact ⟨e, knowledgeFind_eq_some.2 ⟨he, hρ hid⟩, rfl⟩
  · rintro ⟨e, he, rfl⟩
    obtain ⟨hm, rfl⟩ := knowledgeFind_eq_some.1 he
    exact ⟨⟨e, hm, rfl⟩, rfl⟩

end

theorem sameClaim_rename (D : Digest) (ρ : Bytes → Bytes) (o : Option Record) (hash : Bytes) :
    sameClaim D (o.map (renameRecord ρ)) hash = sameClaim D o hash := by
  cases o <;> rfl

theorem groundedStatus_rename (D : Digest) (ρ : Bytes → Bytes) {k k' : Knowledge}
    (hk : k'.observations = k.observations) (r : Record) (e : KnowledgeEntry) :
    groundedStatus D k' (renameRecord ρ r) (renameEntry ρ e) = groundedStatus D k r e := by
  have hany : (renameEntry ρ e).grounding.links.any (·.kind = .supports) =
      e.grounding.links.any (·.kind = .supports) := by
    simp only [renameEntry, List.any_map]
    rfl
  unfold groundedStatus
  rw [hk, hany]
  rfl

theorem Renamed.initial (D : Digest) {ρ : Bytes → Bytes} (hρ : Function.Injective ρ)
    {c c' : Claims} (h : Renamed ρ c c') (now : Int) (id : Bytes) :
    initialStatuses D c' now (ρ id) = initialStatuses D c now id := by
  unfold initialStatuses
  rw [h.get hρ]
  cases hr : c.table.get id with
  | none => rfl
  | some r =>
    obtain ⟨hk, hp⟩ := Prod.mk.inj h.rest
    simp only [Option.map_some, initialStatus]
    cases hk1 : c.knowledge with
    | none =>
      have hk2 : c'.knowledge = none := by simpa [hk1] using hk
      simp only [hk2, hp]
      rfl
    | some k =>
      obtain ⟨k', hk2, ho⟩ : ∃ k', c'.knowledge = some k' ∧
          (k'.observations, k'.poisoned) = (k.observations, k.poisoned) := by
        rw [hk1, Option.map_some] at hk
        exact Option.map_eq_some_iff.1 hk
      obtain ⟨ho, hpk⟩ := Prod.mk.inj ho
      have hf : knowledgeFind k' (renameRecord ρ r).id = (knowledgeFind k r.id).map (renameEntry ρ) :=
        h.find hρ hk1 hk2 r.id
      simp only [hk2, hp, Option.any_some, hpk, hf]
      cases knowledgeFind k r.id with
      | none => rfl
      | some e =>
        simp only [Option.map_some, groundedStatus_rename D ρ ho]
        rfl

/-! ## The phases -/

/-- The statuses of the renamed records, by the old ids. -/
def Statuses.pull (ρ : Bytes → Bytes) (st : Statuses) : Statuses := fun i => st (ρ i)

section
variable {D : Digest} {ρ : Bytes → Bytes} (hρ : Function.Injective ρ) {t t' : Table}
  (ht : ∀ id, t'.get (ρ id) = (t.get id).map (renameRecord ρ))
include hρ

theorem pull_set (st : Statuses) (id : Bytes) (s : KnowledgeStatus) :
    (st.set (ρ id) s).pull ρ = (st.pull ρ).set id s := by
  funext i
  unfold Statuses.pull
  by_cases hi : i = id
  · subst hi
    simp
  · rw [Statuses.set_ne _ _ hi, Statuses.set_ne _ _ fun h => hi (hρ h)]

include ht

omit hρ in
theorem sameClaim_pull (l : KnowledgeLink) :
    sameClaim D (t'.get (renameLink ρ l).recordId) (renameLink ρ l).contentSha256 =
      sameClaim D (t.get l.recordId) l.contentSha256 := by
  show sameClaim D (t'.get (ρ l.recordId)) l.contentSha256 = _
  rw [ht, sameClaim_rename]

theorem supportLinks_pull (i : Bytes) : ∀ (ls : List KnowledgeLink) (st : Statuses) (c : Bool),
    (supportLinks D t' (ρ i) st c (ls.map (renameLink ρ))).map (Statuses.pull ρ) id =
      supportLinks D t i (st.pull ρ) c ls
  | [], _, _ => rfl
  | l :: ls, st, c => by
    have hn : supportNext D t' st (st (ρ i)) (renameLink ρ l) =
        supportNext D t (st.pull ρ) (st.pull ρ i) l := by
      unfold supportNext
      rw [sameClaim_pull ht]
      rfl
    have hset : (if supportNext D t (st.pull ρ) (st.pull ρ i) l ≠ st (ρ i) then
        st.set (ρ i) (supportNext D t (st.pull ρ) (st.pull ρ i) l) else st).pull ρ =
        if supportNext D t (st.pull ρ) (st.pull ρ i) l ≠ st.pull ρ i then
          (st.pull ρ).set i (supportNext D t (st.pull ρ) (st.pull ρ i) l) else st.pull ρ := by
      rw [st.ite_set, (st.pull ρ).ite_set, pull_set hρ]
    rw [List.map_cons, supportLinks, supportLinks]
    have hkind : (renameLink ρ l).kind = l.kind := rfl
    rw [hkind]
    split
    · exact supportLinks_pull i ls st c
    · simp only [hn]
      split
      · exact Prod.ext hset rfl
      · rw [← hset]
        exact supportLinks_pull i ls _ _

theorem supportEntry_pull (p : Statuses × Bool) (e : KnowledgeEntry) :
    (supportEntry D t' p (renameEntry ρ e)).map (Statuses.pull ρ) id =
      supportEntry D t (p.map (Statuses.pull ρ) id) e := by
  unfold supportEntry
  have hget : t'.get (renameEntry ρ e).id = (t.get e.id).map (renameRecord ρ) := ht e.id
  rw [hget]
  cases t.get e.id with
  | none => rfl
  | some r =>
    show Prod.map _ _ (if (p.1 (ρ e.id)).bad = true then p else _) =
      if (p.1 (ρ e.id)).bad = true then _ else _
    split
    · rfl
    · exact supportLinks_pull hρ ht e.id e.grounding.links p.1 p.2

theorem supportPass_pull (es : List KnowledgeEntry) (st : Statuses) :
    (supportPass D t' (es.map (renameEntry ρ)) st).map (Statuses.pull ρ) id =
      supportPass D t es (st.pull ρ) := by
  unfold supportPass
  rw [List.foldl_map]
  exact (List.foldl_hom (Prod.map (Statuses.pull ρ) id) fun p e =>
    (supportEntry_pull hρ ht p e).symm).symm

theorem propagateSupport_pull (es : List KnowledgeEntry) : ∀ (n : Nat) (st : Statuses),
    (propagateSupport D t' (es.map (renameEntry ρ)) n st).pull ρ =
      propagateSupport D t es n (st.pull ρ)
  | 0, _ => rfl
  | n + 1, st => by
    have hp := supportPass_pull (D := D) hρ ht es st
    rw [propagateSupport, propagateSupport, ← hp]
    simp only [Prod.map_snd, Prod.map_fst, id_eq]
    split
    · exact propagateSupport_pull es n _
    · rfl

theorem relateLink_pull (kind : RelationKind) (e : KnowledgeEntry) (st : Statuses)
    (l : KnowledgeLink) :
    (relateLink D t' kind (renameEntry ρ e) st (renameLink ρ l)).pull ρ =
      relateLink D t kind e (st.pull ρ) l := by
  have hget : sameClaim D (t'.get (renameEntry ρ e).id) (renameEntry ρ e).hash =
      sameClaim D (t.get e.id) e.hash := by
    show sameClaim D (t'.get (ρ e.id)) e.hash = _
    rw [ht, sameClaim_rename]
  unfold relateLink
  rw [sameClaim_pull ht, hget]
  have hkind : (renameLink ρ l).kind = l.kind := rfl
  rw [hkind]
  split
  · rfl
  · split
    · rfl
    · cases kind with
      | supports => rfl
      | supersedes =>
        show Statuses.pull ρ (if st (ρ l.recordId) ≠ .revoked then
          st.set (ρ l.recordId) .stale else st) = _
        rw [apply_ite (Statuses.pull ρ), pull_set hρ]
        rfl
      | contradicts =>
        show Statuses.pull ρ (if sameClaim D (t.get e.id) e.hash = true ∧
            (st (ρ e.id)).contestable = true ∧ (st (ρ l.recordId)).contestable = true then
          (st.set (ρ l.recordId) .contested).set (ρ e.id) .contested else st) = _
        rw [apply_ite (Statuses.pull ρ), pull_set hρ, pull_set hρ]
        rfl

theorem applyRelations_pull (es : List KnowledgeEntry) (kind : RelationKind) (st : Statuses) :
    (applyRelations D t' (es.map (renameEntry ρ)) kind st).pull ρ =
      applyRelations D t es kind (st.pull ρ) := by
  unfold applyRelations
  rw [List.foldl_map]
  refine (List.foldl_hom (Statuses.pull ρ) fun st e => ?_).symm
  unfold relateEntry
  show _ = Statuses.pull ρ ((e.grounding.links.map (renameLink ρ)).foldl _ st)
  rw [List.foldl_map]
  exact List.foldl_hom (Statuses.pull ρ) fun st l => (relateLink_pull hρ ht kind e st l).symm

theorem refreshStatuses_pull (es : List KnowledgeEntry) (st : Statuses) :
    (refreshStatuses D t' (es.map (renameEntry ρ)) st).pull ρ =
      refreshStatuses D t es (st.pull ρ) := by
  simp only [refreshStatuses, List.length_map, propagateSupport_pull hρ ht,
    applyRelations_pull hρ ht]

end

/-- **The refresh of a renamed context** visits the same entries in another order. -/
theorem knowledgeRefresh_renamed (D : Digest) {ρ : Bytes → Bytes} (hρ : Function.Injective ρ)
    {c c' : Claims} (now : Int) (h : Renamed ρ c c') {es : List KnowledgeEntry}
    (hes : c'.entries = es.map (renameEntry ρ)) (id : Bytes) :
    (knowledgeRefresh D c' now).status (ρ id) =
      refreshStatuses D c.table es (initialStatuses D c now) id := by
  have hi : (initialStatuses D c' now).pull ρ = initialStatuses D c now :=
    funext (h.initial D hρ now)
  rw [knowledgeRefresh_status, hes, ← hi, ← refreshStatuses_pull hρ (h.get hρ)]
  rfl

/-- The entries of a renamed context are those of the context in some order. -/
theorem Renamed.order {ρ : Bytes → Bytes} {c c' : Claims} (h : Renamed ρ c c') :
    ∃ es : List KnowledgeEntry, es.Perm c.entries ∧ c'.entries = es.map (renameEntry ρ) := by
  have hf : List.Forall₂ (fun e' e => e' = renameEntry ρ e) (c.entries.map (renameEntry ρ))
      c.entries := by
    rw [List.forall₂_map_left_iff]
    exact List.forall₂_same.2 fun _ _ => rfl
  obtain ⟨es, hes, hp⟩ := List.perm_comp_forall₂ h.entries hf
  refine ⟨es, hp, ?_⟩
  rw [← List.forall₂_eq_eq_eq, List.forall₂_map_right_iff]
  exact hes

end Asper
