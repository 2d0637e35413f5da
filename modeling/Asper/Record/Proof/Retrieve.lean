import Asper.Knowledge.Proof.Isolation
import Asper.Record.Proof.Hybrid
import Asper.Record.Proof.Scan
import Asper.Record.Retrieve

/-! # Retrieval keeps projects apart

What a search gives out may be shown (`Shown`), and two stores that differ only in records of other
projects give the same answers (`retrieve_isolated`): every search filters before it counts, scores and
ranks. -/

namespace Asper

open Durable
open Hybrid (SearchHit SearchDocument asperHybridSearch emit ranked maxDocuments)

/-- The record belongs to another project. -/
def foreign (project : Option Bytes) (r : Record) : Bool :=
  r.section_ = .project ∧ (project = none ∨ r.project ≠ project)

/-- What may be shown of a store to a project. -/
structure Shown (now : Int) (project : Option Bytes) (r : LiveRecord) : Prop where
  deprecated : r.record.deprecated = false
  expired : ¬ (0 < r.record.evidence.expiresAt ∧ r.record.evidence.expiresAt ≤ now)
  status : r.status.code < KnowledgeStatus.stale.code
  project : r.record.section_ = .project → ∃ p, project = some p ∧ r.record.project = some p

theorem project_of_not_foreign {project : Option Bytes} {r : Record}
    (h : foreign project r = false) (hs : r.section_ = .project) :
    ∃ p, project = some p ∧ r.project = some p := by
  rw [foreign, decide_eq_false_iff_not, not_and, not_or, not_not] at h
  obtain ⟨hp, hr⟩ := h hs
  obtain ⟨p, rfl⟩ := Option.ne_none_iff_exists'.1 hp
  exact ⟨p, rfl, hr⟩

/-! ## What is given out -/

theorem hybridMatch_shown {now : Int} {section_ : Option Section} {project : Option Bytes}
    {r : LiveRecord} (h : hybridMatch now section_ project r = true) :
    Shown now project r ∧ foreign project r.record = false := by
  simp only [hybridMatch, Bool.not_eq_true', Bool.or_eq_false_iff, Record.expired,
    decide_eq_false_iff_not, Nat.not_le] at h
  obtain ⟨⟨⟨⟨hst, hdep⟩, hexp⟩, -⟩, hproj⟩ := h
  have hforeign : foreign project r.record = false := by
    rw [foreign, decide_eq_false_iff_not]
    rintro ⟨hs, hp⟩
    simp only [hs, decide_true, Bool.true_and, Bool.or_eq_false_iff, decide_eq_false_iff_not,
      not_not, ne_eq] at hproj
    rcases hp with hp | hp
    · exact hproj.1.1 hp
    · exact hp hproj.2.symm
  exact ⟨⟨hdep, hexp, hst, project_of_not_foreign hforeign⟩, hforeign⟩

theorem scanMatch_shown {V : Type} {section_ : Option Section} {project : Option Bytes}
    {r : IndexRow V} (h : scanMatch r section_ project = true) :
    r.record.deprecated = false ∧ r.status.code < KnowledgeStatus.stale.code ∧
      foreign project r.record = false := by
  rw [scanMatch] at h
  split at h
  · cases h
  next hok =>
  split at h
  · cases h
  rw [not_or, Nat.not_le] at hok
  refine ⟨by simpa using hok.1, hok.2, ?_⟩
  rw [foreign, decide_eq_false_iff_not]
  rintro ⟨hs, hp⟩
  rw [if_pos hs, decide_eq_true_eq] at h
  rcases hp with hp | hp
  · exact h.1 hp
  · exact hp h.2

theorem identityMatch_shown {now : Int} {r : LiveRecord} (h : identityMatch now r = true) :
    Shown now none r ∧ r.record.evidence.kind ≠ .inferred ∧ r.record.section_ = .identity := by
  simp only [identityMatch, Bool.and_eq_true, decide_eq_true_eq, Bool.not_eq_true',
    Bool.or_eq_true] at h
  obtain ⟨⟨⟨⟨hst, hs⟩, hdep⟩, hkind⟩, hexp⟩ := h
  refine ⟨⟨hdep, fun he => ?_, hst, fun hp => ?_⟩, hkind, hs⟩
  · rcases hexp with h0 | h0
    · rw [h0] at he
      exact absurd he.1 (by decide)
    · exact absurd he.2 (Int.not_le.2 h0)
  · rw [hs] at hp
    cases hp

theorem mapM_mem {α β : Type} {f : α → Option β} : ∀ {xs : List α} {ys : List β},
    xs.mapM f = some ys → ∀ y ∈ ys, ∃ x ∈ xs, f x = some y
  | [], ys, h, y, hy => by
    obtain rfl : [] = ys := Option.some.inj h
    cases hy
  | x :: xs, ys, h, y, hy => by
    rw [List.mapM_cons] at h
    obtain ⟨z, hz, h⟩ := Option.bind_eq_some_iff.1 h
    obtain ⟨zs, hzs, h⟩ := Option.bind_eq_some_iff.1 h
    obtain rfl : z :: zs = ys := Option.some.inj h
    rcases List.mem_cons.1 hy with rfl | hy
    · exact ⟨x, .head _, hz⟩
    · obtain ⟨x', hx', hy⟩ := mapM_mem hzs y hy
      exact ⟨x', .tail _ hx', hy⟩

section
variable {V K γ σ : Type} {D : Digest} {S : Searchable V} {now : Int}

theorem retrieveHybrid_shown [Field K] [LinearOrder K] [LinearOrder γ] {dim : Nat}
    {F : Hybrid.Functions K} {q : HybridQuery V K γ dim} {out : List (LiveRecord × K)}
    (h : retrieveHybrid D S now F q = some (.ok out)) :
    ∀ r ∈ out, Shown now q.project r.1 := by
  intro r hr
  rw [retrieveHybrid] at h
  split at h
  · obtain rfl : [] = out := Except.ok.inj (Option.some.inj h)
    cases hr
  split at h
  · cases h
  dsimp only at h
  split at h
  · cases h
  obtain ⟨ys, hys, hout⟩ := Option.map_eq_some_iff.1 h
  obtain rfl := Except.ok.inj hout
  obtain ⟨x, -, hx⟩ := mapM_mem hys r hr
  obtain ⟨r', hr', rfl⟩ := Option.map_eq_some_iff.1 hx
  exact (hybridMatch_shown (List.mem_filter.1 (List.mem_of_getElem? hr')).2).1

theorem indexRows_nodup (π : Projection) : ((S.indexRows π).map (·.record.id)).Nodup := by
  rw [Searchable.indexRows, List.map_map]
  exact S.nodup

/-- The scan gives out the first `k` rows that pass. -/
theorem retrieveScan_eq [LinearOrder γ] [LinearOrder σ] {X : Scoring V γ σ} {q : ScanQuery V γ}
    {k : Nat} {hits : List (Hit γ σ)} (hk : k ≤ hits.length) :
    retrieveScan D S now X q k hits = if k = 0 then some (.ok []) else
      some ((lockKnowledge D S now).map fun π =>
        (((eligibleHits X now q (S.indexRows π)).insertionSort fun a b =>
          scanCmp q.rankByCos a b ≠ .gt).take k).map fun h => (π.live h.record, h.cos)) := by
  rw [retrieveScan]
  split
  · rfl
  cases lockKnowledge D S now with
  | error e => rfl
  | ok π =>
    obtain ⟨slots, hscan, -, -, htake, -⟩ := asperIndexScan_eq X now q k
      (indexRows_nodup (S := S) π) hk
    dsimp only
    rw [hscan, Option.map_some]
    dsimp only
    rw [htake]
    rfl

theorem retrieveScan_shown [LinearOrder γ] [LinearOrder σ] {X : Scoring V γ σ} {q : ScanQuery V γ}
    {k : Nat} {hits : List (Hit γ σ)} (hk : k ≤ hits.length) {out : List (LiveRecord × γ)}
    (h : retrieveScan D S now X q k hits = some (.ok out)) :
    ∀ r ∈ out, Shown now q.project r.1 := by
  intro r hr
  rw [retrieveScan_eq hk] at h
  split at h
  · obtain rfl : [] = out := Except.ok.inj (Option.some.inj h)
    cases hr
  cases hl : lockKnowledge D S now with
  | error e =>
    rw [hl] at h
    cases h
  | ok π =>
    rw [hl] at h
    obtain rfl := Except.ok.inj (Option.some.inj h)
    obtain ⟨hit, hhit, rfl⟩ := List.mem_map.1 hr
    have hmem := (List.perm_insertionSort _ _).subset (List.mem_of_mem_take hhit)
    obtain ⟨row, hrow, rfl⟩ := List.mem_map.1 hmem
    obtain ⟨hrow, helig⟩ := List.mem_filter.1 hrow
    obtain ⟨hmatch, hexp, -⟩ := of_decide_eq_true helig
    obtain ⟨src, -, rfl⟩ := List.mem_map.1 hrow
    obtain ⟨hdep, hst, hforeign⟩ := scanMatch_shown hmatch
    exact ⟨hdep, hexp, hst, project_of_not_foreign hforeign⟩

theorem collectIdentity_shown {out : List LiveRecord} (h : collectIdentity D S now = .ok out) :
    ∀ r ∈ out, Shown now none r ∧ r.record.evidence.kind ≠ .inferred := by
  intro r hr
  rw [collectIdentity] at h
  split at h
  · cases h
  obtain rfl := Except.ok.inj h
  have hmem := (List.perm_insertionSort _ _).subset hr
  obtain ⟨hshown, hkind, -⟩ := identityMatch_shown (List.mem_filter.1 hmem).2
  exact ⟨hshown, hkind⟩

end

/-! ## Two stores -/

section
variable {V : Type}

/-- The ids of the records of other projects in either store. -/
def foreignIds (project : Option Bytes) (S S' : Searchable V) (id : Bytes) : Bool :=
  (S.claims.table.recs ++ S'.claims.table.recs).any fun r => r.id = id && foreign project r

/-- The stores differ in records of other projects only, and no link joins such a record with
another one. -/
structure SameBut (project : Option Bytes) (S S' : Searchable V) : Prop where
  recs : S.claims.table.recs.filter (fun r => !foreign project r) =
    S'.claims.table.recs.filter fun r => !foreign project r
  rows : (S.rows.filter fun row => !foreign project row.1).Perm
    (S'.rows.filter fun row => !foreign project row.1)
  storePoisoned : S.claims.storePoisoned = S'.claims.storePoisoned
  knowledge : Option.Rel (fun k k' =>
    shownEntries (foreignIds project S S') k = shownEntries (foreignIds project S S') k' ∧
      k.observations = k'.observations ∧ k.poisoned = k'.poisoned) S.claims.knowledge
        S'.claims.knowledge
  apart : ∀ k, S.claims.knowledge = some k →
    LinksApart (foreignIds project S S') S.claims.table k.entries
  apart' : ∀ k, S'.claims.knowledge = some k →
    LinksApart (foreignIds project S S') S'.claims.table k.entries

variable {project : Option Bytes} {S S' : Searchable V}

theorem foreignIds_eq_false {id : Bytes} : foreignIds project S S' id = false ↔
    ∀ r, r ∈ S.claims.table.recs ∨ r ∈ S'.claims.table.recs → r.id = id →
      foreign project r = false := by
  rw [foreignIds, List.any_eq_false]
  simp only [List.mem_append, Bool.and_eq_true, decide_eq_true_eq, not_and, Bool.not_eq_true]

/-- The records of one store that are not of another project are in the other. -/
theorem SameBut.mem (h : SameBut project S S') {r : Record} (hr : foreign project r = false) :
    r ∈ S.claims.table.recs ↔ r ∈ S'.claims.table.recs := by
  have hm : r ∈ S.claims.table.recs.filter (fun r => !foreign project r) ↔
      r ∈ S'.claims.table.recs.filter fun r => !foreign project r := by rw [h.recs]
  simpa [hr] using hm

theorem SameBut.shown (h : SameBut project S S') {r : Record} (hm : r ∈ S.claims.table.recs)
    (hr : foreign project r = false) : foreignIds project S S' r.id = false := by
  refine foreignIds_eq_false.2 fun x hx hid => ?_
  have hxr : x = r := by
    rcases hx with hx | hx
    · exact List.inj_on_of_nodup_map S.claims.table.nodup hx hm hid
    · exact List.inj_on_of_nodup_map S'.claims.table.nodup hx ((h.mem hr).1 hm) hid
  rw [hxr, hr]

theorem SameBut.alike (h : SameBut project S S') :
    Alike (foreignIds project S S') S.claims S'.claims where
  get id hid := by
    refine Option.ext fun r => ?_
    rw [Table.get_eq_some, Table.get_eq_some]
    rw [foreignIds_eq_false] at hid
    constructor
    · rintro ⟨hr, hrid⟩
      exact ⟨(h.mem (hid r (.inl hr) hrid)).1 hr, hrid⟩
    · rintro ⟨hr, hrid⟩
      exact ⟨(h.mem (hid r (.inr hr) hrid)).2 hr, hrid⟩
  storePoisoned := h.storePoisoned
  knowledge := h.knowledge
  apart := h.apart
  apart' := h.apart'

theorem SameBut.live {D : Digest} (h : SameBut project S S') (now : Int) {r : Record}
    (hm : r ∈ S.claims.table.recs) (hr : foreign project r = false) :
    (knowledgeRefresh D S.claims now).live r = (knowledgeRefresh D S'.claims now).live r := by
  obtain ⟨hst, hrev⟩ := h.alike.knowledgeRefresh (D := D) now (h.shown hm hr)
  rw [Projection.live, Projection.live, hst, hrev]

/-- Both stores are refused, or neither. -/
theorem SameBut.lockKnowledge {D : Digest} (h : SameBut project S S') (now : Int) :
    (∃ e, lockKnowledge D S now = .error e ∧ lockKnowledge D S' now = .error e) ∨
      lockKnowledge D S now = .ok (knowledgeRefresh D S.claims now) ∧
        lockKnowledge D S' now = .ok (knowledgeRefresh D S'.claims now) := by
  have hp : S.claims.knowledge.any (·.poisoned) = S'.claims.knowledge.any (·.poisoned) := by
    have hk := h.knowledge
    revert hk
    generalize S.claims.knowledge = k
    generalize S'.claims.knowledge = k'
    intro hk
    cases hk with
    | none => rfl
    | some hk => exact hk.2.2
  unfold Asper.lockKnowledge
  rw [h.storePoisoned, hp]
  split
  · exact .inl ⟨_, rfl, rfl⟩
  · exact .inr ⟨rfl, rfl⟩

/-- What a filter passes of a list that was mapped comes of what another test passes. -/
theorem filter_map_of_imp {α β : Type} {p : α → Bool} {P : β → Bool} {f : α → β}
    (h : ∀ a, P (f a) = true → p a = true) (l : List α) :
    (l.map f).filter P = ((l.filter p).map f).filter P := by
  rw [List.filter_map, List.filter_map, List.filter_filter]
  congr 1
  refine List.filter_congr fun a _ => ?_
  cases hP : P (f a) with
  | false => simp [hP]
  | true => simp [hP, h a hP]

/-- What a search passes of the refreshed table is the same in both stores. -/
theorem SameBut.filter_live {D : Digest} (h : SameBut project S S') (now : Int)
    {P : LiveRecord → Bool} (hP : ∀ r, P r = true → foreign project r.record = false) :
    (S.live (knowledgeRefresh D S.claims now)).filter P =
      (S'.live (knowledgeRefresh D S'.claims now)).filter P := by
  have himp : ∀ (π : Projection) (r : Record), P (π.live r) = true →
      (!foreign project r) = true := by
    intro π r hr
    rw [Bool.not_eq_true']
    exact hP _ hr
  rw [Searchable.live, Searchable.live, filter_map_of_imp (himp _) S.claims.table.recs,
    filter_map_of_imp (himp _) S'.claims.table.recs, ← h.recs]
  congr 1
  refine List.map_congr_left fun r hr => ?_
  obtain ⟨hm, hr⟩ := List.mem_filter.1 hr
  exact h.live now hm (by simpa using hr)

theorem vec_eq_some {r : Record} {v : V} :
    S.vec r = some v ↔ ∃ row ∈ S.rows, row.1.id = r.id ∧ row.2 = v := by
  rw [Searchable.vec, Option.map_eq_some_iff]
  constructor
  · rintro ⟨row, hrow, rfl⟩
    exact ⟨row, List.mem_of_find?_eq_some hrow, by simpa using List.find?_some hrow, rfl⟩
  · rintro ⟨row, hrow, hid, rfl⟩
    refine ⟨row, ?_, rfl⟩
    cases hf : S.rows.find? (·.1.id = r.id) with
    | none => simpa [hid] using List.find?_eq_none.1 hf row hrow
    | some row' =>
      have hid' : row'.1.id = r.id := by simpa using List.find?_some hf
      rw [List.inj_on_of_nodup_map S.nodup (List.mem_of_find?_eq_some hf) hrow
        (hid'.trans hid.symm)]

theorem SameBut.vec (h : SameBut project S S') {r : Record} (hm : r ∈ S.claims.table.recs)
    (hr : foreign project r = false) : S.vec r = S'.vec r := by
  have hrow : ∀ {T : Searchable V}, r ∈ T.claims.table.recs → ∀ row : Record × V,
      (row ∈ T.rows ∧ row.1.id = r.id ↔
        row ∈ T.rows.filter (fun row => !foreign project row.1) ∧ row.1.id = r.id) := by
    intro T hT row
    refine and_congr_left fun hid => ⟨fun hrow => ?_, List.mem_of_mem_filter⟩
    have heq : row.1 = r := List.inj_on_of_nodup_map T.claims.table.nodup (T.stored row hrow) hT hid
    refine List.mem_filter.2 ⟨hrow, ?_⟩
    rw [heq, hr]
    rfl
  refine Option.ext fun v => ?_
  rw [vec_eq_some, vec_eq_some]
  refine exists_congr fun row => ?_
  rw [← and_assoc, ← and_assoc, hrow hm, hrow ((h.mem hr).1 hm), h.rows.mem_iff]

/-! ## The searches in two stores -/

theorem length_fusedHits {K : Type} [Field K] [LinearOrder K] {F : Hybrid.Functions K} {dim : Nat}
    {docs : List (SearchDocument K dim)} {query : CStr} {qv : Option (Fin dim → K)} :
    (Hybrid.fusedHits F docs query qv).length = docs.length := by
  have hfuse : ∀ (cs : List Hybrid.Channel) (l : List (SearchHit K)),
      (cs.foldl (fun l c => c.fuse l) l).length = l.length := by
    intro cs
    induction cs with
    | nil => exact fun _ => rfl
    | cons c cs ih =>
      intro l
      rw [List.foldl_cons, ih, Hybrid.Channel.fuse, Hybrid.length_foldl_credit]
  rw [Hybrid.fusedHits, List.length_map, hfuse, List.length_map, List.length_zipIdx]

theorem emit_min {K : Type} [Field K] [LinearOrder K] : ∀ (k n : Nat) (l : List (SearchHit K)),
    l.length ≤ n → emit (min k n) l = emit k l
  | k, n, [], _ => by
    cases k <;> cases min _ n <;> rfl
  | 0, n, x :: l, _ => by rw [Nat.zero_min]
  | k + 1, 0, x :: l, h => absurd h (by simp)
  | k + 1, n + 1, x :: l, h => by
    rw [Nat.succ_min_succ, emit, emit, emit_min k n l (Nat.le_of_succ_le_succ h)]

/-- More hits than there are documents are not asked for in vain. -/
theorem asperHybridSearch_min {K : Type} [Field K] [LinearOrder K] {F : Hybrid.Functions K} {dim : Nat}
    {docs : List (SearchDocument K dim)} {query : CStr} {qv : Option (Fin dim → K)} {n : Nat}
    (hn : docs.length ≤ n) (k : Nat) :
    asperHybridSearch F docs query qv (min k n) = asperHybridSearch F docs query qv k := by
  rw [asperHybridSearch, asperHybridSearch]
  split
  · rfl
  by_cases hd : docs = []
  · rw [if_pos (.inl hd), if_pos (.inl hd)]
  have hpos : 0 < n := Nat.lt_of_lt_of_le (List.length_pos_iff.2 hd) hn
  have hzero : (docs = [] ∨ min k n = 0) ↔ (docs = [] ∨ k = 0) := or_congr_right (by omega)
  rw [emit_min k n _ (by rw [List.length_insertionSort, length_fusedHits]; exact hn)]
  simp only [hzero]

theorem SameBut.retrieveHybrid {K γ : Type} [Field K] [LinearOrder K] [LinearOrder γ] {D : Digest}
    {now : Int} {dim : Nat} {F : Hybrid.Functions K} {q : HybridQuery V K γ dim}
    (h : SameBut q.project S S') :
    retrieveHybrid D S now F q = retrieveHybrid D S' now F q := by
  rw [Asper.retrieveHybrid, Asper.retrieveHybrid]
  split
  · rfl
  rcases h.lockKnowledge (D := D) now with ⟨e, he, he'⟩ | ⟨hok, hok'⟩
  · rw [he, he']
  rw [hok, hok']
  dsimp only
  have hrefs := h.filter_live (D := D) now (P := hybridMatch now q.section_ q.project)
    fun r hr => (hybridMatch_shown hr).2
  have hdocs : ((S.live (knowledgeRefresh D S.claims now)).filter
        (hybridMatch now q.section_ q.project)).map (searchDocument S q) =
      ((S.live (knowledgeRefresh D S.claims now)).filter
        (hybridMatch now q.section_ q.project)).map (searchDocument S' q) := by
    refine List.map_congr_left fun r hr => ?_
    obtain ⟨hlive, hmatch⟩ := List.mem_filter.1 hr
    obtain ⟨x, hx, rfl⟩ := List.mem_map.1 hlive
    unfold searchDocument documentVector
    rw [show ((knowledgeRefresh D S.claims now).live x).record = x from rfl,
      h.vec hx (hybridMatch_shown hmatch).2]
  have hle : ∀ (T : Searchable V) (π : Projection), ((T.live π).filter
      (hybridMatch now q.section_ q.project) |>.map (searchDocument S' q)).length ≤
        (T.live π).length := by
    intro T π
    rw [List.length_map]
    exact List.length_filter_le _ _
  rw [hdocs, asperHybridSearch_min (hle S _), hrefs, asperHybridSearch_min (hle S' _)]

theorem scanCmp_key {γ σ : Type} [LinearOrder γ] [LinearOrder σ] (rankByCos : Bool) :
    ∃ (α : Type) (_ : LinearOrder α) (key : Hit γ σ → α),
      (∀ a b, scanCmp rankByCos a b ≠ .gt ↔ key a ≤ key b) ∧
        ∀ a b, key a = key b → a.record.id = b.record.id := by
  cases rankByCos with
  | true => exact ⟨_, inferInstance, hitKey (·.cos), hitCmpBy_ne_gt _, fun _ _ => hitKey_inj⟩
  | false => exact ⟨_, inferInstance, hitKey (·.score), hitCmpBy_ne_gt _, fun _ _ => hitKey_inj⟩

theorem SameBut.eligibleHits {γ σ : Type} [LinearOrder γ] {D : Digest} {now : Int}
    {X : Scoring V γ σ} {q : ScanQuery V γ} (h : SameBut q.project S S') :
    (eligibleHits X now q (S.indexRows (knowledgeRefresh D S.claims now))).Perm
      (eligibleHits X now q (S'.indexRows (knowledgeRefresh D S'.claims now))) := by
  have himp : ∀ (π : Projection) (row : Record × V),
      (decide ((⟨row.1, π.status row.1.id, row.2⟩ : IndexRow V).Eligible X now q)) = true →
        (!foreign q.project row.1) = true := by
    intro π row hrow
    rw [(scanMatch_shown (of_decide_eq_true hrow).1).2.2]
    rfl
  rw [Asper.eligibleHits, Asper.eligibleHits, Searchable.indexRows, Searchable.indexRows,
    filter_map_of_imp (himp _) S.rows, filter_map_of_imp (himp _) S'.rows]
  refine ((List.Perm.trans (.of_eq ?_) (h.rows.map _)).filter _).map _
  refine List.map_congr_left fun row hrow => ?_
  obtain ⟨hmem, hrow⟩ := List.mem_filter.1 hrow
  have hlive := h.live (D := D) now (S.stored row hmem) (by simpa using hrow)
  rw [show (knowledgeRefresh D S.claims now).status row.1.id =
    (knowledgeRefresh D S'.claims now).status row.1.id from congrArg LiveRecord.status hlive]

theorem SameBut.retrieveScan {γ σ : Type} [LinearOrder γ] [LinearOrder σ] {D : Digest} {now : Int}
    {X : Scoring V γ σ} {q : ScanQuery V γ} (h : SameBut q.project S S') {k : Nat}
    {hits hits' : List (Hit γ σ)} (hk : k ≤ hits.length) (hk' : k ≤ hits'.length) :
    retrieveScan D S now X q k hits = retrieveScan D S' now X q k hits' := by
  rw [retrieveScan_eq hk, retrieveScan_eq hk']
  split
  · rfl
  rcases h.lockKnowledge (D := D) now with ⟨e, he, he'⟩ | ⟨hok, hok'⟩
  · rw [he, he']
    rfl
  rw [hok, hok']
  obtain ⟨α, _, key, hkey, hinj⟩ := scanCmp_key (γ := γ) (σ := σ) q.rankByCos
  have hsort := insertionSort_eq_of_perm hkey
    (fun a ha b hb hab => eligibleHits_inj X now q (indexRows_nodup _) ha hb (hinj a b hab))
    (h.eligibleHits (D := D) (X := X))
  simp only [Except.map, hsort]
  refine congrArg _ (congrArg _ (List.map_congr_left fun hit hhit => ?_))
  have hmem := (List.perm_insertionSort _ _).subset (List.mem_of_mem_take hhit)
  rw [← (h.eligibleHits (D := D) (X := X)).mem_iff] at hmem
  obtain ⟨row, hrow, rfl⟩ := List.mem_map.1 hmem
  obtain ⟨hrow, helig⟩ := List.mem_filter.1 hrow
  obtain ⟨src, hsrc, rfl⟩ := List.mem_map.1 hrow
  have hforeign := (scanMatch_shown (of_decide_eq_true helig).1).2.2
  exact congrArg (·, _) (h.live (D := D) now (S.stored src hsrc) hforeign)

theorem SameBut.collectIdentity {D : Digest} {now : Int} (h : SameBut project S S') :
    collectIdentity D S now = collectIdentity D S' now := by
  rw [Asper.collectIdentity, Asper.collectIdentity]
  rcases h.lockKnowledge (D := D) now with ⟨e, he, he'⟩ | ⟨hok, hok'⟩
  · rw [he, he']
  rw [hok, hok']
  dsimp only
  rw [h.filter_live now fun r hr => ?_]
  rw [foreign, (identityMatch_shown hr).2.2]
  simp

end

/-- **Retrieval keeps projects apart.** Whatever is stored, no search gives out a record that is
deprecated, expired, stale or worse, or of another project, and no inferred one is given out as
identity. Two stores that differ in records of other projects only give the same records, in the same
order and with the same scores. -/
theorem retrieve_isolated {V K γ σ : Type} [Field K] [LinearOrder K] [LinearOrder γ] [LinearOrder σ]
    {dim : Nat} (D : Digest) (S : Searchable V) (now : Int) (F : Hybrid.Functions K)
    (X : Scoring V γ σ) (k : Nat) (project : Option Bytes) :
    ((∀ (q : HybridQuery V K γ dim) out, q.project = project →
        retrieveHybrid D S now F q = some (.ok out) → ∀ r ∈ out, Shown now project r.1) ∧
      (∀ (q : ScanQuery V γ) hits out, q.project = project → k ≤ hits.length →
        retrieveScan D S now X q k hits = some (.ok out) → ∀ r ∈ out, Shown now project r.1) ∧
      ∀ out, collectIdentity D S now = .ok out →
        ∀ r ∈ out, Shown now project r ∧ r.record.evidence.kind ≠ .inferred) ∧
    ∀ S' : Searchable V, SameBut project S S' →
      (∀ q : HybridQuery V K γ dim, q.project = project →
        retrieveHybrid D S now F q = retrieveHybrid D S' now F q) ∧
      (∀ (q : ScanQuery V γ) hits hits', q.project = project → k ≤ hits.length →
        k ≤ hits'.length →
          retrieveScan D S now X q k hits = retrieveScan D S' now X q k hits') ∧
      collectIdentity D S now = collectIdentity D S' now := by
  refine ⟨⟨?_, ?_, ?_⟩, fun S' h => ⟨?_, ?_, ?_⟩⟩
  · rintro q out rfl hout
    exact retrieveHybrid_shown hout
  · rintro q hits out rfl hk hout
    exact retrieveScan_shown hk hout
  · intro out hout r hr
    obtain ⟨hshown, hkind⟩ := collectIdentity_shown hout r hr
    refine ⟨⟨hshown.deprecated, hshown.expired, hshown.status, fun hs => ?_⟩, hkind⟩
    -- an identity record has no project at all
    obtain ⟨p, hp, -⟩ := hshown.project hs
    cases hp
  · rintro q rfl
    exact h.retrieveHybrid
  · rintro q hits hits' rfl hk hk'
    exact h.retrieveScan hk hk'
  · exact h.collectIdentity

/-! A store, and the same store with a record of another project. -/

def ownRecord : Record := { contextRecord [97] with section_ := .identity }

def foreignRecord : Record := { contextRecord [98] with section_ := .project, project := some [112] }

def storeOf (t : Table) : Searchable ℕ where
  claims := { table := t, knowledge := none, storePoisoned := false }
  rows := []
  stored := fun _ h => absurd h List.not_mem_nil
  nodup := List.nodup_nil

theorem retrieve_isolated_pair :
    collectIdentity padDigest (storeOf ⟨[ownRecord], by decide, by decide⟩) 0 =
        .ok [⟨ownRecord, .unverified, 0⟩] ∧
      collectIdentity padDigest (storeOf ⟨[ownRecord, foreignRecord], by decide, by decide⟩) 0 =
        .ok [⟨ownRecord, .unverified, 0⟩] := by
  have hsame : SameBut none (storeOf ⟨[ownRecord], by decide, by decide⟩)
      (storeOf ⟨[ownRecord, foreignRecord], by decide, by decide⟩) :=
    ⟨by decide, .refl _, rfl, .none, fun _ h => (nomatch h), fun _ h => (nomatch h)⟩
  have hone : collectIdentity padDigest (storeOf ⟨[ownRecord], by decide, by decide⟩) 0 =
      .ok [⟨ownRecord, .unverified, 0⟩] := rfl
  have hiso := (@retrieve_isolated ℕ ℚ ℕ ℕ _ _ _ _ 0 padDigest
    (storeOf ⟨[ownRecord], by decide, by decide⟩) 0 ⟨id, id⟩ nearScoring 1 none).2 _ hsame
  exact ⟨hone, hiso.2.2.symm.trans hone⟩

end Asper
