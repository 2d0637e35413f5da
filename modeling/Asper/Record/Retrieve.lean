import Asper.Record.Hybrid
import Asper.Record.Scan

/-! # Retrieval

What a query gives out of a store (`retrieve.c`): `retrieveHybrid` ranks the records that may be shown,
`retrieveScan` compares vectors only, and `collectIdentity` is every identity record that may be shown.
Each of them refreshes the volatile fields first. -/

namespace Asper

open Durable
open Hybrid (SearchDocument asperHybridSearch)

/-- A record with its volatile fields. -/
structure LiveRecord where
  record : Record
  status : KnowledgeStatus
  revision : Nat
  deriving DecidableEq

/-- What is searched: the records with their knowledge, and the rows of the index. -/
structure Searchable (V : Type) where
  claims : Claims
  rows : List (Record × V)
  stored : ∀ row ∈ rows, row.1 ∈ claims.table.recs
  nodup : (rows.map (·.1.id)).Nodup

section
variable {V : Type} (D : Digest) (S : Searchable V) (now : Int)

/-- `lock_knowledge`: nothing is shown of a store whose last write is uncertain. -/
def lockKnowledge : Except Err Projection :=
  if S.claims.storePoisoned ∨ S.claims.knowledge.any (·.poisoned) then .error .io
  else .ok (knowledgeRefresh D S.claims now)

def Projection.live (π : Projection) (r : Record) : LiveRecord :=
  ⟨r, π.status r.id, π.revision r.id⟩

/-- The table after the refresh. -/
def Searchable.live (π : Projection) : List LiveRecord := S.claims.table.recs.map π.live

/-- `asper_index_vec`. -/
def Searchable.vec (r : Record) : Option V := (S.rows.find? (·.1.id = r.id)).map (·.2)

/-- `expires_at > 0 && now >= expires_at`. -/
def Record.expired (r : Record) (now : Int) : Bool :=
  0 < r.evidence.expiresAt ∧ r.evidence.expiresAt ≤ now

/-! ## Hybrid search -/

/-- The records that `retrieve_hybrid` does not skip. -/
def hybridMatch (section_ : Option Section) (project : Option Bytes) (r : LiveRecord) : Bool :=
  !(KnowledgeStatus.stale.code ≤ r.status.code || r.record.deprecated || r.record.expired now ||
    (section_ ≠ none && section_ ≠ some r.record.section_) ||
    (r.record.section_ = .project &&
      (project = none || r.record.project = none || project ≠ r.record.project)))

section
variable {K γ : Type} [Field K] [LinearOrder K] [LinearOrder γ] {dim : Nat}

/-- What a hybrid search asks for. `qv` is the vector of the query, if the model gave one, `view` a row
as a vector of that dimension, and `cosine` is `asper_cosine`. -/
structure HybridQuery (V K γ : Type) (dim : Nat) where
  query : CStr
  qv : Option (Fin dim → K)
  section_ : Option Section
  project : Option Bytes
  k : Nat
  minSim : γ
  view : V → Option (Fin dim → K)
  cosine : (Fin dim → K) → (Fin dim → K) → γ

/-- The vector of a document, if it is near enough. -/
def documentVector (q : HybridQuery V K γ dim) (r : Record) : Option (Fin dim → K) :=
  q.qv.bind fun qv => (S.vec r).bind fun row => (q.view row).bind fun rv =>
    if q.cosine qv rv < q.minSim then none else some rv

def searchDocument (q : HybridQuery V K γ dim) (r : LiveRecord) : SearchDocument K dim where
  path := some (cstr r.record.evidence.provenance)
  symbols := some (cstr r.record.content)
  text := some (cstr r.record.content)
  vector := documentVector S q r.record

/-- `retrieve_hybrid`: the records with their scores; none when a hit has no record. -/
def retrieveHybrid (F : Hybrid.Functions K) (q : HybridQuery V K γ dim) :
    Option (Except Err (List (LiveRecord × K))) :=
  if q.k = 0 then some (.ok [])
  else
    match lockKnowledge D S now with
    | .error e => some (.error e)
    | .ok π =>
      let refs := (S.live π).filter (hybridMatch now q.section_ q.project)
      match asperHybridSearch F (refs.map (searchDocument S q)) q.query q.qv
          (min q.k (S.live π).length) with
      | .error e => some (.error e)
      | .ok hits => (hits.mapM fun h => refs[h.index]?.map fun r => (r, h.score)).map .ok

end

/-! ## Cosine scan -/

/-- The rows of the index after the refresh. -/
def Searchable.indexRows (π : Projection) : List (IndexRow V) :=
  S.rows.map fun row => ⟨row.1, π.status row.1.id, row.2⟩

/-- `asper_retrieve_ex` for the cosine alone: `hits` is the array of `k` hits it allocates. -/
def retrieveScan {γ σ : Type} [LinearOrder γ] [LinearOrder σ] (X : Scoring V γ σ)
    (q : ScanQuery V γ) (k : Nat) (hits : List (Hit γ σ)) :
    Option (Except Err (List (LiveRecord × γ))) :=
  if k = 0 then some (.ok [])
  else
    match lockKnowledge D S now with
    | .error e => some (.error e)
    | .ok π => (asperIndexScan X now q k (S.indexRows π) hits).map fun (hits, n) =>
        .ok ((hits.take n).map fun h => (π.live h.record, h.cos))

/-! ## Identity -/

def identityMatch (r : LiveRecord) : Bool :=
  r.status.code < KnowledgeStatus.stale.code && r.record.section_ = .identity &&
    !r.record.deprecated && r.record.evidence.kind ≠ .inferred &&
    (r.record.evidence.expiresAt = 0 || now < r.record.evidence.expiresAt)

/-- `asper_identity_cmp`. -/
def asperIdentityCmp (a b : Record) : Ordering :=
  if a.locked ≠ b.locked then if a.locked then .lt else .gt
  else if a.relevance ≠ b.relevance then if b.relevance < a.relevance then .lt else .gt
  else if a.createdAt ≠ b.createdAt then if a.createdAt < b.createdAt then .lt else .gt
  else strcmp a.id b.id

/-- `asper_collect_identity`. -/
def collectIdentity : Except Err (List LiveRecord) :=
  match lockKnowledge D S now with
  | .error e => .error e
  | .ok π => .ok (((S.live π).filter (identityMatch now)).insertionSort fun a b =>
      asperIdentityCmp a.record b.record ≠ .gt)

end

end Asper
