import Asper.Source.Paths
import Asper.Lib.Lines
import Asper.Lib.Search
import Mathlib.Data.List.Sort

/-! # Scope registry, pin overlays and objects

* `registerScope` adds a scope to `scopes/index.log` (`source_events.c`).
* `pinsLoad` reads the pins of a scope, `pinsApply` lays them over an event (`source_pins.c`).
* `objectPut` and `objectRead` keep binary objects under the digest of their content
  (`source_objects.c`). -/

namespace Asper

open Durable

/-! ## Registry -/

def scopeIndexBytes : Nat := 1024 * 1024

/-- Add the row of `scope` to the registry, whose content is `data`. -/
def addScopeRow (scope data : Bytes) : Io Unit :=
  if scope ∈ (splitRows data).1 then pure ()
  else do
    require (scope.length + 1 ≤ scopeIndexBytes - data.length) .limit
    osAppend scopeIndex (scope ++ [10])

def registerScope (scope : Bytes) : Io Unit := do
  orFail (osMkdirP scopesDir) .io
  let data ← orElse (sourceTextRead scopeIndex scopeIndexBytes) .notFound []
  require (data = [] ∨ data.getLast? = some 10) .parse
  addScopeRow scope data

/-! ## Pins -/

def pinBytes : Nat := 8 * 1024 * 1024

/-- The bytes of one row. -/
def pinRow : Nat := 39

/-- One row of the pin log: an id and the state it is given. -/
structure Pin where
  id : Bytes
  pinned : Bool
  deriving DecidableEq, Repr

def pinLine (p : Pin) : Bytes := p.id ++ [32, if p.pinned then 49 else 48, 10]

def parsePin (row : Bytes) : Option Pin :=
  if row.length ≠ pinRow ∨ row[36]? ≠ some 32 ∨ row[38]? ≠ some 10 then none
  else if uuidValid (row.take 36) = false then none
  else if row[37]? = some 49 then some ⟨row.take 36, true⟩
  else if row[37]? = some 48 then some ⟨row.take 36, false⟩
  else none

/-- Parse `n` rows. -/
def parsePins : Nat → Bytes → Option (List Pin)
  | 0, _ => some []
  | n + 1, s => do
    let p ← parsePin (s.take pinRow)
    let ps ← parsePins n (s.drop pinRow)
    return p :: ps

/-- The rows of a pin log. -/
def pinsText (data : Bytes) : Except Err (List Pin) :=
  if pinBytes < data.length then .error .limit
  else if data.length % pinRow ≠ 0 then .error .parse
  else match parsePins (data.length / pinRow) data with
    | some ps => .ok ps
    | none => .error .parse

def pinsLoad (scope : Bytes) : Io (List Pin) := do
  let path ← sourceScopePath scope (ascii "pins.log") .nomem
  let data ← orElse (osBlobOpen path) .notFound []
  Act.lift (pinsText data)

/-- A row with its place in the log. -/
structure SourcePin where
  id : Bytes
  pinned : Bool
  order : Nat
  deriving DecidableEq, Repr

/-- `pin_order`: by id, then by place. -/
def pinOrder (x y : SourcePin) : Prop := x.id < y.id ∨ x.id = y.id ∧ x.order ≤ y.order

instance : DecidableRel pinOrder := fun _ _ => inferInstanceAs (Decidable (_ ∨ _))

/-- The last row of every run of one id. -/
def lastOfRuns : List SourcePin → List SourcePin
  | [] => []
  | [p] => [p]
  | p :: q :: ps => if p.id = q.id then lastOfRuns (q :: ps) else p :: lastOfRuns (q :: ps)

/-- The rows as `asper_source_pins_load` leaves them: sorted, with one row of each id. -/
def sourcePins (pins : List Pin) : List SourcePin :=
  lastOfRuns ((pins.zipIdx.map fun p => ⟨p.1.id, p.1.pinned, p.2⟩).insertionSort pinOrder)

/-- `asper_source_pins_apply`: the row of the event, looked for by halving, decides. -/
def pinsApply (pins : List Pin) (e : Event) : Event :=
  let rows := sourcePins pins
  match rows[Search.lowerBound (fun p => decide (p.id < e.id)) rows]? with
  | some p => if p.id = e.id then { e with pinned := p.pinned } else e
  | none => e

/-! ## Objects -/

def objectBytes : Nat := 64 * 1024 * 1024

def objectRef (D : Digest) (data : Bytes) : Bytes := ascii "sha256:" ++ hexDigest D data

/-- The content of an object file is what its reference says. -/
def objectCheck (D : Digest) (ref data : Bytes) : Except Err Unit :=
  if objectBytes < data.length then .error .limit
  else if hexDigest D data = ref.drop 7 then .ok ()
  else .error .parse

/-- The temporary file an object is written to; `uuid` is fresh. -/
def objectTmp (ref : Bytes) (uuid : Uuid) : Path :=
  objectsDir ++ [ascii "." ++ ref.drop 7 ++ ascii ".tmp." ++ uuid.val]

/-- Write the object unless it is there. -/
def objectWrite (D : Digest) (ref data : Bytes) (uuid : Uuid) (there : Bool) : Io Unit :=
  if there then do
    let old ← osBlobOpen (objectFile ref)
    Act.lift (objectCheck D ref old)
  else do
    match ← (do osWriteFile (objectTmp ref uuid) data
                osFileReplace (objectTmp ref uuid) (objectFile ref) : Io Unit).attempt with
    | .ok _ => pure ()
    | .error e => do
      ignore (osRemoveFile (objectTmp ref uuid))
      Act.fail e

def objectPut (D : Digest) (data : Bytes) (uuid : Uuid) : Io Bytes := do
  require (data.length ≤ objectBytes) .limit
  let path ← sourceObjectPath (objectRef D data) .io
  let there ← osFileExists path
  objectWrite D (objectRef D data) data uuid there
  pure (objectRef D data)

/-- The whole content of an object. -/
def objectRead (D : Digest) (ref : Bytes) : Io Bytes := do
  require (sourceObjectValid ref = true) .invalid
  let path ← sourceObjectPath ref .io
  let data ← osBlobOpen path
  Act.lift (objectCheck D ref data)
  pure data

end Asper
