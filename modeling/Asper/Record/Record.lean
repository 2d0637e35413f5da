import Asper.Base.Uuid
import Mathlib.Data.List.Nodup
import Mathlib.Data.Rat.Defs

/-! # Records and their table

`Record` holds the persistent fields of `asper_record`, `Table` the records of a store
(`record_table.c`): no two share an id, none has an empty one. A finite `double` is the rational
it stands for. -/

namespace Asper

open Durable (Bytes)

inductive Section where
  | identity | context | project
  deriving DecidableEq, Repr

/-- `asper_section_name`. -/
def sectionName : Section → Bytes
  | .identity => ascii "identity"
  | .context => ascii "context"
  | .project => ascii "project"

/-- `asper_section_parse`. -/
def sectionParse (s : Bytes) : Option Section :=
  if s = ascii "identity" then some .identity
  else if s = ascii "context" then some .context
  else if s = ascii "project" then some .project
  else none

inductive RecordSource where
  | seed | manual | curator
  deriving DecidableEq, Repr

/-- `asper_source_name`. -/
def sourceName : RecordSource → Bytes
  | .seed => ascii "seed"
  | .manual => ascii "manual"
  | .curator => ascii "curator"

/-- `asper_source_parse`. -/
def sourceParse (s : Bytes) : Option RecordSource :=
  if s = ascii "seed" then some .seed
  else if s = ascii "manual" then some .manual
  else if s = ascii "curator" then some .curator
  else none

inductive EvidenceKind where
  | declared | observed | inferred
  deriving DecidableEq, Repr

inductive ConfidenceKind where
  | unknown | heuristic | measured
  deriving DecidableEq, Repr

/-- The values of `asper_evidence_kind`. -/
def EvidenceKind.code : EvidenceKind → Int
  | .declared => 0 | .observed => 1 | .inferred => 2

def EvidenceKind.ofCode (n : Int) : Option EvidenceKind :=
  if n = 0 then some .declared else if n = 1 then some .observed
  else if n = 2 then some .inferred else none

/-- The values of `asper_confidence_kind`. -/
def ConfidenceKind.code : ConfidenceKind → Int
  | .unknown => 0 | .heuristic => 1 | .measured => 2

def ConfidenceKind.ofCode (n : Int) : Option ConfidenceKind :=
  if n = 0 then some .unknown else if n = 1 then some .heuristic
  else if n = 2 then some .measured else none

/-- `asper_evidence`: what the host says of a claim. A time of 0 is none. -/
structure Evidence where
  kind : EvidenceKind
  confidenceKind : ConfidenceKind
  confidence : ℚ
  observedAt : Int
  expiresAt : Int
  provenance : Bytes
  workspace : Bytes
  commit : Bytes
  deriving DecidableEq

structure Record where
  id : Bytes
  section_ : Section
  project : Option Bytes
  content : Bytes
  source : RecordSource
  evidence : Evidence
  createdAt : Int
  updatedAt : Int
  lastAccess : Int
  accessCount : Nat
  relevance : ℚ
  locked : Bool
  deprecated : Bool
  deprecatedAt : Int
  tags : List Bytes
  sourceRefs : List Bytes
  deriving DecidableEq

/-! ## The table -/

structure Table where
  recs : List Record
  nodup : (recs.map (·.id)).Nodup
  named : ∀ r ∈ recs, r.id ≠ []

namespace Table

def empty : Table := ⟨[], List.nodup_nil, fun _ h => absurd h List.not_mem_nil⟩

/-- `asper_table_get`. -/
def get (t : Table) (id : Bytes) : Option Record :=
  if id = [] then none else t.recs.find? (·.id = id)

theorem get_eq_some {t : Table} {id : Bytes} {r : Record} :
    t.get id = some r ↔ r ∈ t.recs ∧ r.id = id := by
  unfold get
  constructor
  · intro h
    split at h
    · cases h
    · exact ⟨List.mem_of_find?_eq_some h, by simpa using List.find?_some h⟩
  · rintro ⟨hr, rfl⟩
    rw [if_neg (t.named r hr)]
    cases hf : t.recs.find? (·.id = r.id) with
    | none => simpa using List.find?_eq_none.1 hf r hr
    | some r' =>
      have hid : r'.id = r.id := by simpa using List.find?_some hf
      rw [List.inj_on_of_nodup_map t.nodup (List.mem_of_find?_eq_some hf) hr hid]

theorem get_id {t : Table} {id : Bytes} {r : Record} (h : t.get id = some r) : r.id = id :=
  (get_eq_some.1 h).2

theorem get_self {t : Table} {r : Record} (h : r ∈ t.recs) : t.get r.id = some r :=
  get_eq_some.2 ⟨h, rfl⟩

end Table

end Asper
