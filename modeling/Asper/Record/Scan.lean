import Asper.Knowledge.Status
import Asper.Lib.Window

/-! # The scan of the index

`asper_index_scan` (`index.c`): go through the rows of the index and keep the `k` best that match, by
score or by cosine. The cosine of two vectors and the score of a record are parameters. -/

namespace Asper

open Durable

/-- A row of the index: the record and its vector. -/
structure IndexRow (V : Type) where
  record : Record
  status : KnowledgeStatus
  vec : V

structure Hit (γ σ : Type) where
  record : Record
  cos : γ
  score : σ
  deriving DecidableEq

/-- `asper_cosine` and `asper_score_record`. -/
structure Scoring (V γ σ : Type) where
  cosine : V → V → γ
  scoreRecord : Record → γ → Int → σ

/-- What a scan asks for; no section is all of them. -/
structure ScanQuery (V γ : Type) where
  qvec : V
  section_ : Option Section
  project : Option Bytes
  minSim : γ
  rankByCos : Bool

variable {V γ σ : Type}

/-- `asper_scan_match`. -/
def scanMatch (r : IndexRow V) (section_ : Option Section) (project : Option Bytes) : Bool :=
  if r.record.deprecated ∨ KnowledgeStatus.stale.code ≤ r.status.code then false
  else if section_ ≠ none ∧ section_ ≠ some r.record.section_ then false
  else if r.record.section_ = .project then project ≠ none ∧ r.record.project = project
  else true

/-- The common form of the two comparisons: a value, the later change, the id. -/
def hitCmpBy {α : Type} [LinearOrder α] (f : Hit γ σ → α) (a b : Hit γ σ) : Ordering :=
  if f b < f a then .lt
  else if f a < f b then .gt
  else if b.record.updatedAt < a.record.updatedAt then .lt
  else if a.record.updatedAt < b.record.updatedAt then .gt
  else strcmp a.record.id b.record.id

section
variable [LinearOrder γ] [LinearOrder σ]

def asperHitCmp : Hit γ σ → Hit γ σ → Ordering := hitCmpBy (·.score)

def asperHitCmpCos : Hit γ σ → Hit γ σ → Ordering := hitCmpBy (·.cos)

def scanCmp (rankByCos : Bool) : Hit γ σ → Hit γ σ → Ordering :=
  if rankByCos then asperHitCmpCos else asperHitCmp

variable (X : Scoring V γ σ) (now : Int) (q : ScanQuery V γ) (k : Nat)

/-- One row, with the slots and how many of them are taken. -/
def scanRow (w : List (Hit γ σ) × Nat) (r : IndexRow V) : Option (List (Hit γ σ) × Nat) :=
  if scanMatch r q.section_ q.project = false ∨
      (0 < r.record.evidence.expiresAt ∧ r.record.evidence.expiresAt ≤ now) then some w
  else
    let cosine := X.cosine q.qvec r.vec
    if cosine < q.minSim then some w
    else keepBest (fun a b => scanCmp q.rankByCos a b = .lt) k w
      ⟨r.record, cosine, X.scoreRecord r.record cosine now⟩

/-- `asper_index_scan`: the slots and the number of hits in them; none when a slot outside of `hits`
is used. -/
def asperIndexScan (rows : List (IndexRow V)) (hits : List (Hit γ σ)) :
    Option (List (Hit γ σ) × Nat) :=
  if k = 0 then some (hits, 0) else rows.foldlM (scanRow X now q k) (hits, 0)

/-! ## Filter and order -/

/-- The row passes the filter. -/
def IndexRow.Eligible (r : IndexRow V) : Prop :=
  scanMatch r q.section_ q.project = true ∧
    ¬ (0 < r.record.evidence.expiresAt ∧ r.record.evidence.expiresAt ≤ now) ∧
    ¬ X.cosine q.qvec r.vec < q.minSim

instance (r : IndexRow V) : Decidable (r.Eligible X now q) := by
  unfold IndexRow.Eligible
  infer_instance

def IndexRow.hit (r : IndexRow V) : Hit γ σ :=
  ⟨r.record, X.cosine q.qvec r.vec, X.scoreRecord r.record (X.cosine q.qvec r.vec) now⟩

/-- The hits of all rows that pass, in the order of the rows. -/
def eligibleHits (rows : List (IndexRow V)) : List (Hit γ σ) :=
  (rows.filter fun r => r.Eligible X now q).map (·.hit X now q)

end

end Asper
