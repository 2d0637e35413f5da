import Asper.Event.Frame
import Asper.Lib.Search
import Asper.Record.Record

/-! # Knowledge status

The latest grounding of each record (`knowledge_store.c`) and the status the store derives from
them (`knowledge_status.c`). `knowledgeRefresh` computes the volatile fields of every record: a
status from the record's own grounding, then corrections, support and contradictions. -/

namespace Asper

open Durable (Bytes)
open Search

inductive KnowledgeStatus where
  | unverified | current | stale | contested | revoked | unavailable
  deriving DecidableEq, Repr

/-- The values of `asper_knowledge_status`. -/
def KnowledgeStatus.code : KnowledgeStatus → Nat
  | .unverified => 0 | .current => 1 | .stale => 2 | .contested => 3 | .revoked => 4
  | .unavailable => 5

/-- `status >= ASPER_KNOWLEDGE_STALE`. -/
def KnowledgeStatus.bad (s : KnowledgeStatus) : Bool := KnowledgeStatus.stale.code ≤ s.code

inductive RelationKind where
  | supports | contradicts | supersedes
  deriving DecidableEq, Repr

structure KnowledgeLink where
  kind : RelationKind
  recordId : Bytes
  contentSha256 : Bytes
  deriving DecidableEq

structure Dependency where
  resource : Bytes
  version : Bytes
  deriving DecidableEq

structure SourceSpan where
  scope : Bytes
  eventId : Bytes
  sequence : Nat
  sourceBegin : Nat
  sourceEnd : Nat
  claimBegin : Nat
  claimEnd : Nat
  deriving DecidableEq

structure Grounding where
  sources : List SourceSpan
  dependencies : List Dependency
  links : List KnowledgeLink
  revoked : Bool
  reason : Bytes
  deriving DecidableEq

structure KnowledgeEntry where
  id : Bytes
  hash : Bytes
  content : Bytes
  revision : Nat
  grounding : Grounding
  sourcesOk : Bool
  deriving DecidableEq

/-- The entries in the order of their ids, and what the host observed. -/
structure Knowledge where
  entries : List KnowledgeEntry
  observations : List Dependency
  poisoned : Bool
  sorted : entries.Pairwise fun a b => a.id < b.id
  valid : ∀ e ∈ entries, uuidValid e.id = true

/-! ## Entries -/

def Knowledge.lowerBound (k : Knowledge) (id : Bytes) : Nat :=
  Search.lowerBound (fun e => decide (e.id < id)) k.entries

def knowledgeFind (k : Knowledge) (id : Bytes) : Option KnowledgeEntry :=
  match k.entries[k.lowerBound id]? with
  | some e => if e.id = id then some e else none
  | none => none

theorem bytes_lt_trans {a b c : Bytes} (h : a < b) (h' : b < c) : a < c := List.lt_trans h h'

theorem bytes_lt_or {a b : Bytes} (h : ¬ a < b) (hne : a ≠ b) : b < a := by
  by_contra hn
  exact hne (List.le_antisymm (List.not_lt.1 hn) (List.not_lt.1 h))

theorem Knowledge.splits (k : Knowledge) (id : Bytes) :
    Splits (fun e => decide (e.id < id)) k.entries :=
  k.sorted.imp fun hab hb => decide_eq_true (bytes_lt_trans hab (of_decide_eq_true hb))

/-- The search ends before the first entry whose id is not smaller. -/
theorem Knowledge.lowerBound_lt (k : Knowledge) {id : Bytes} {i : Nat} {e : KnowledgeEntry}
    (h : k.entries[i]? = some e) : i < k.lowerBound id ↔ e.id < id := by
  have hw := lowerBound_within (k.splits id)
  constructor
  · intro hi
    exact of_decide_eq_true (hw.below i e h hi)
  · intro hlt
    by_contra hi
    exact of_decide_eq_false (hw.above i e h (Nat.le_of_not_lt hi)) hlt

theorem knowledgeFind_eq_some {k : Knowledge} {id : Bytes} {e : KnowledgeEntry} :
    knowledgeFind k id = some e ↔ e ∈ k.entries ∧ e.id = id := by
  unfold knowledgeFind
  constructor
  · intro h
    split at h
    · next e' he =>
      split at h
      · next hid =>
        cases h
        exact ⟨List.mem_of_getElem? he, hid⟩
      · cases h
    · cases h
  · rintro ⟨he, rfl⟩
    obtain ⟨i, hi⟩ := List.getElem?_of_mem he
    have hn : ¬ i < k.lowerBound e.id := fun h => List.lt_irrefl _ ((k.lowerBound_lt hi).1 h)
    rcases Nat.lt_or_eq_of_le (Nat.le_of_not_lt hn) with hlt | heq
    · -- an entry between would be neither smaller nor larger
      obtain ⟨hj, hj'⟩ := List.getElem?_eq_some_iff.1 hi
      have hlt' : k.lowerBound e.id < k.entries.length := Nat.lt_trans hlt hj
      have hs := List.pairwise_iff_getElem.1 k.sorted _ _ hlt' hj hlt
      have := (k.lowerBound_lt (List.getElem?_eq_getElem hlt')).2 (hj' ▸ hs)
      exact absurd this (Nat.lt_irrefl _)
    · rw [heq, hi]
      exact if_pos rfl


/-- The entries before the place of an id are smaller. -/
theorem Knowledge.lt_of_mem_take {k : Knowledge} {id : Bytes} {x : KnowledgeEntry}
    (h : x ∈ k.entries.take (k.lowerBound id)) : x.id < id := by
  obtain ⟨i, hi, rfl⟩ := List.mem_take_iff_getElem.1 h
  exact (k.lowerBound_lt (List.getElem?_eq_getElem (by omega))).1 (by omega)

/-- Where the entries after the place of an id start. -/
def Knowledge.upperBound (k : Knowledge) (id : Bytes) : Nat :=
  if (knowledgeFind k id).isSome then k.lowerBound id + 1 else k.lowerBound id

theorem Knowledge.lt_of_mem_drop {k : Knowledge} {id : Bytes} {x : KnowledgeEntry}
    (h : x ∈ k.entries.drop (k.upperBound id)) : id < x.id := by
  obtain ⟨i, hi, hx⟩ := List.mem_drop_iff_getElem.1 h
  have hi : k.upperBound id + i < k.entries.length := by omega
  have hx' : k.entries[k.upperBound id + i]? = some x := by rw [List.getElem?_eq_getElem hi, hx]
  have hge : k.lowerBound id ≤ k.upperBound id := by
    unfold upperBound
    split <;> omega
  refine bytes_lt_or (fun hlt => ?_) fun he => ?_
  · have := (k.lowerBound_lt hx').2 hlt
    omega
  · -- the entry of the id itself stands before this part
    have hf := knowledgeFind_eq_some.2 ⟨List.mem_of_getElem? hx', he⟩
    have hu : k.upperBound id = k.lowerBound id + 1 := by rw [upperBound, hf]; rfl
    have hl : k.entries[k.lowerBound id]? = some x := by
      unfold knowledgeFind at hf
      split at hf
      · next e' he' =>
        split at hf
        · cases hf
          exact he'
        · cases hf
      · cases hf
    obtain ⟨hb, hl⟩ := List.getElem?_eq_some_iff.1 hl
    have := List.pairwise_iff_getElem.1 k.sorted _ _ hb hi (by omega)
    rw [hl, hx] at this
    exact List.lt_irrefl _ this

/-- `replace`: over the entry of the id, or moved in at its place. -/
def Knowledge.replace (k : Knowledge) (e : KnowledgeEntry) (he : uuidValid e.id = true) :
    Knowledge where
  entries := k.entries.take (k.lowerBound e.id) ++ e :: k.entries.drop (k.upperBound e.id)
  observations := k.observations
  poisoned := k.poisoned
  sorted := by
    refine List.pairwise_append.2 ⟨k.sorted.sublist (List.take_sublist _ _),
      List.pairwise_cons.2 ⟨fun x hx => k.lt_of_mem_drop hx, k.sorted.sublist (List.drop_sublist _ _)⟩,
      fun x hx y hy => ?_⟩
    rcases List.mem_cons.1 hy with rfl | hy
    · exact k.lt_of_mem_take hx
    · exact bytes_lt_trans (k.lt_of_mem_take hx) (k.lt_of_mem_drop hy)
  valid := by
    intro x hx
    rcases List.mem_append.1 hx with hx | hx
    · exact k.valid x (List.mem_of_mem_take hx)
    · rcases List.mem_cons.1 hx with rfl | hx
      · exact he
      · exact k.valid x (List.mem_of_mem_drop hx)

theorem Knowledge.find_replace_self (k : Knowledge) (e : KnowledgeEntry)
    (he : uuidValid e.id = true) : knowledgeFind (k.replace e he) e.id = some e :=
  knowledgeFind_eq_some.2 ⟨List.mem_append_right _ (.head _), rfl⟩

theorem Knowledge.find_replace_other (k : Knowledge) {e : KnowledgeEntry}
    (he : uuidValid e.id = true) {id : Bytes} (h : id ≠ e.id) :
    knowledgeFind (k.replace e he) id = knowledgeFind k id := by
  refine Option.ext fun x => ?_
  rw [knowledgeFind_eq_some, knowledgeFind_eq_some]
  refine and_congr_left fun hx => ⟨fun hm => ?_, fun hm => ?_⟩
  · rcases List.mem_append.1 hm with hm | hm
    · exact List.mem_of_mem_take hm
    · rcases List.mem_cons.1 hm with rfl | hm
      · exact absurd hx.symm h
      · exact List.mem_of_mem_drop hm
  · obtain ⟨i, hi, rfl⟩ := List.mem_iff_getElem.1 hm
    have hx' := List.getElem?_eq_getElem hi
    by_cases hlt : i < k.lowerBound e.id
    · exact List.mem_append_left _ (List.mem_take_iff_getElem.2 ⟨i, by omega, rfl⟩)
    · by_cases hge : k.upperBound e.id ≤ i
      · refine List.mem_append_right _ (.tail _ (List.mem_drop_iff_getElem.2 ?_))
        exact ⟨i - k.upperBound e.id, by omega, by congr 1; omega⟩
      · -- only the entry of the id itself lies between
        exfalso
        unfold upperBound at hge
        split at hge
        · next hf =>
          obtain rfl : i = k.lowerBound e.id := by omega
          obtain ⟨y, hf⟩ := Option.isSome_iff_exists.1 hf
          have hy := (knowledgeFind_eq_some.1 hf).2
          unfold knowledgeFind at hf
          rw [hx'] at hf
          simp only at hf
          split at hf
          · next he => exact h (hx.symm.trans he)
          · cases hf
        · omega

/-- The part of a context that `asper_knowledge_refresh` reads. -/
structure Claims where
  table : Table
  knowledge : Option Knowledge
  storePoisoned : Bool

/-! ## A record's own grounding -/

/-- One pass over the spans, from what is covered up to `fin`. -/
def coverPass (spans : List SourceSpan) (fin : Nat) : Nat :=
  spans.foldl (fun fin s => if s.claimBegin ≤ fin ∧ fin < s.claimEnd then s.claimEnd else fin) fin

def covered (g : Grounding) (size : Nat) : Bool :=
  size ≤ (coverPass g.sources)^[g.sources.length] 0

/-- The status the first dependency that is not as expected gives. -/
def dependencyStatus (observations : List Dependency) : List Dependency → Option KnowledgeStatus
  | [] => none
  | d :: ds =>
    match observations.find? (·.resource = d.resource) with
    | none => some .unavailable
    | some o =>
      if o.version = [] then some .unavailable
      else if o.version ≠ d.version then some .stale
      else dependencyStatus observations ds

section
variable (D : Digest)

def contentHash (text : Bytes) : Bytes := hexDigest D text

def sameClaim (r : Option Record) (expected : Bytes) : Bool :=
  match r with
  | none => false
  | some r => contentHash D r.content = expected

/-- The status of a record with the entry `e`. -/
def groundedStatus (k : Knowledge) (r : Record) (e : KnowledgeEntry) : KnowledgeStatus :=
  if e.grounding.revoked then .revoked
  else if !sameClaim D (some r) e.hash then .stale
  else if !e.sourcesOk then .unavailable
  else
    match dependencyStatus k.observations e.grounding.dependencies with
    | some s => s
    | none =>
      if covered e.grounding r.content.length then .current
      else if e.grounding.links.any (·.kind = .supports) then .current
      else .unverified

/-- `initial`, at the time `now`. -/
def initialStatus (c : Claims) (now : Int) (r : Record) : KnowledgeStatus :=
  if c.storePoisoned ∨ c.knowledge.any (·.poisoned) then .unavailable
  else if r.deprecated ∨ (r.evidence.expiresAt ≠ 0 ∧ r.evidence.expiresAt ≤ now) then .stale
  else
    match c.knowledge with
    | none => .unverified
    | some k =>
      match knowledgeFind k r.id with
      | none => .unverified
      | some e => groundedStatus D k r e

/-! ## Relations between records -/

/-- The field `knowledge_status` of the record with each id. -/
abbrev Statuses := Bytes → KnowledgeStatus

/-- Assign the field of the record `id`. -/
def Statuses.set (st : Statuses) (id : Bytes) (s : KnowledgeStatus) : Statuses :=
  Function.update st id s

/-- What a support link makes of the status `own` of its record. -/
def supportNext (t : Table) (st : Statuses) (own : KnowledgeStatus) (l : KnowledgeLink) :
    KnowledgeStatus :=
  if !sameClaim D (t.get l.recordId) l.contentSha256 then .stale
  else if (st l.recordId).bad then
    if st l.recordId = .revoked then .stale else st l.recordId
  else if st l.recordId = .unverified then .unverified
  else own

/-- The links of the record `id` in turn, until one makes it bad. The flag tells of a change. -/
def supportLinks (t : Table) (id : Bytes) (st : Statuses) (changed : Bool) :
    List KnowledgeLink → Statuses × Bool
  | [] => (st, changed)
  | l :: ls =>
    if l.kind ≠ .supports then supportLinks t id st changed ls
    else
      let next := supportNext D t st (st id) l
      let changed := if next ≠ st id then true else changed
      let st := if next ≠ st id then st.set id next else st
      if next.bad then (st, changed) else supportLinks t id st changed ls

def supportEntry (t : Table) (s : Statuses × Bool) (e : KnowledgeEntry) : Statuses × Bool :=
  match t.get e.id with
  | none => s
  | some _ =>
    if (s.1 e.id).bad then s else supportLinks D t e.id s.1 s.2 e.grounding.links

/-- One pass over the entries. -/
def supportPass (t : Table) (es : List KnowledgeEntry) (st : Statuses) : Statuses × Bool :=
  es.foldl (supportEntry D t) (st, false)

/-- The passes of `propagate_support`, at most `n`. -/
def propagateSupport (t : Table) (es : List KnowledgeEntry) : Nat → Statuses → Statuses
  | 0, st => st
  | n + 1, st =>
    let (st, changed) := supportPass D t es st
    if changed then propagateSupport t es n st else st

/-- `status < ASPER_KNOWLEDGE_STALE || status == ASPER_KNOWLEDGE_CONTESTED`. -/
def KnowledgeStatus.contestable (s : KnowledgeStatus) : Bool := !s.bad || s = .contested

/-- What one link of the record `e.id` does in the phase `kind`. -/
def relateLink (t : Table) (kind : RelationKind) (e : KnowledgeEntry) (st : Statuses)
    (l : KnowledgeLink) : Statuses :=
  if l.kind ≠ kind then st
  else if !sameClaim D (t.get l.recordId) l.contentSha256 then st
  else
    match kind with
    | .supersedes => if st l.recordId ≠ .revoked then st.set l.recordId .stale else st
    | .contradicts =>
      if sameClaim D (t.get e.id) e.hash ∧ (st e.id).contestable ∧ (st l.recordId).contestable then
        (st.set l.recordId .contested).set e.id .contested
      else st
    | .supports => st

def relateEntry (t : Table) (kind : RelationKind) (st : Statuses) (e : KnowledgeEntry) : Statuses :=
  e.grounding.links.foldl (relateLink D t kind e) st

def applyRelations (t : Table) (es : List KnowledgeEntry) (kind : RelationKind) (st : Statuses) :
    Statuses :=
  es.foldl (relateEntry D t kind) st

/-! ## Refresh -/

/-- The volatile fields of the record with each id. -/
structure Projection where
  status : Statuses
  revision : Bytes → Nat

/-- The fields as the records' own groundings give them. -/
def initialStatuses (c : Claims) (now : Int) : Statuses := fun id =>
  match c.table.get id with
  | none => .unavailable
  | some r => initialStatus D c now r

def initialRevisions (c : Claims) : Bytes → Nat := fun id =>
  match c.table.get id, c.knowledge with
  | some r, some k => ((knowledgeFind k r.id).map (·.revision)).getD 0
  | _, _ => 0

def refreshStatuses (t : Table) (es : List KnowledgeEntry) (st : Statuses) : Statuses :=
  let st := applyRelations D t es .supersedes st
  let st := propagateSupport D t es es.length st
  let st := applyRelations D t es .contradicts st
  propagateSupport D t es es.length st

def knowledgeRefresh (c : Claims) (now : Int) : Projection :=
  let st := initialStatuses D c now
  match c.knowledge with
  | none => ⟨st, initialRevisions c⟩
  | some k => ⟨refreshStatuses D c.table k.entries st, initialRevisions c⟩

end

end Asper
