import Asper.Base.Time
import Asper.Record.Funnel
import Asper.Record.Strings
import Asper.Xcdn.Node

/-! # Records and operations as xCDN trees

`recordBuildNode` and `opBuildNode` build the trees of `record_encode.c`, `recordFromNode` and
`opFromNode` take them apart and check them (`record_decode.c`). The text of a tree is written and
read by a library the store takes from elsewhere (`XcdnText`). Every failed check is
`ASPER_ERR_PARSE`. -/

namespace Asper

open Durable

/-! ## Writing -/

/-- An object with those of the fields that have a value, each put by `xobj_put`. -/
def putFields (fields : List (Bytes × Option XValue)) : XValue :=
  .object (fields.filterMap fun f => f.2.map fun v => (f.1, v.node))

/-- `asper_record_string`. -/
def recordString (s : Bytes) : XValue := .string (escEncode s)

/-- `dt_value`. -/
def dtValue (t : Int) : XValue := .datetime (asperTimeFormatRfc3339 t)

/-- An array, each item pushed by `xarr_push`. -/
def pushAll (f : Bytes → XValue) (items : List Bytes) : XValue :=
  .array (items.map fun s => (f s).node)

def recordFields (r : Record) : List (Bytes × Option XValue) :=
  [(ascii "id", some (.uuid r.id)),
    (ascii "section", some (.string (sectionName r.section_))),
    (ascii "project", some (r.project.elim .null .string)),
    (ascii "content", some (recordString r.content)),
    (ascii "source", some (.string (sourceName r.source))),
    (ascii "evidence_kind", some (.int r.evidence.kind.code)),
    (ascii "confidence_kind", some (.int r.evidence.confidenceKind.code)),
    (ascii "confidence", some (.float r.evidence.confidence)),
    (ascii "observed_at", some (.int r.evidence.observedAt)),
    (ascii "expires_at", some (.int r.evidence.expiresAt)),
    (ascii "provenance", some (recordString r.evidence.provenance)),
    (ascii "workspace", some (recordString r.evidence.workspace)),
    (ascii "commit", some (recordString r.evidence.commit)),
    (ascii "source_refs", if r.sourceRefs = [] then none else some (pushAll .uuid r.sourceRefs)),
    (ascii "created_at", some (dtValue r.createdAt)),
    (ascii "updated_at", some (dtValue r.updatedAt)),
    (ascii "last_access", some (dtValue r.lastAccess)),
    (ascii "access_count", some (.int r.accessCount)),
    (ascii "relevance", some (.float r.relevance)),
    (ascii "locked", some (.bool r.locked)),
    (ascii "status", some (.string (if r.deprecated then ascii "deprecated" else ascii "active"))),
    (ascii "deprecated_at", if r.deprecated then some (dtValue r.deprecatedAt) else none),
    (ascii "tags", some (pushAll recordString r.tags))]

/-- `record_build_node`. -/
def recordBuildNode (r : Record) : XNode := .mk [ascii "memory"] (putFields (recordFields r))

/-- The fields of an operation after its kind and its time. -/
def opFields : OpKind → List (Bytes × Option XValue)
  | .insert _ => []
  | .update id content declared =>
    [(ascii "id", some (.uuid id)), (ascii "content", some (recordString content)),
      (ascii "declared_update", some (.bool declared))]
  | .setDeprecated id reason =>
    [(ascii "id", some (.uuid id)), (ascii "reason", reason.map recordString)]
  | .keep id => [(ascii "id", some (.uuid id))]
  | .setLocked id value => [(ascii "id", some (.uuid id)), (ascii "value", some (.bool value))]
  | .access ids => [(ascii "ids", some (pushAll .uuid ids))]
  | .projectCreate project => [(ascii "project", some (.string project))]

/-- The record of an insert, which is a tagged node of its own. -/
def opRecord : OpKind → List (Bytes × XNode)
  | .insert r => [(ascii "record", recordBuildNode r)]
  | _ => []

def opEntries (op : Op) : List (Bytes × XNode) :=
  ((ascii "kind", some (.string op.kind.name)) :: (ascii "at", some (dtValue op.at_)) ::
    opFields op.kind).filterMap (fun f => f.2.map fun v => (f.1, v.node)) ++ opRecord op.kind

def opBuildNode (op : Op) : XNode := .mk [ascii "op"] (.object (opEntries op))

/-! ## Reading -/

/-- `obj_field`. -/
def objField (obj : XValue) (key : Bytes) : Option XValue := (objectGet obj key).map XNode.value

/-- `val_str`. -/
def valStr : XValue → Option CStr
  | .string s => some (cstr s)
  | _ => none

/-- `tolower` in the C locale. -/
def toLower (b : UInt8) : UInt8 := if 65 ≤ b ∧ b ≤ 90 then b + 32 else b

/-- `val_uuid37`. -/
def valUuid37 : XValue → Option Bytes
  | .uuid s => if uuidValid (cstr s).val then some ((cstr s).val.map toLower) else none
  | _ => none

/-- `val_time`. -/
def valTime : XValue → Option Int
  | .datetime s => asperTimeParseRfc3339 (cstr s)
  | _ => none

section
variable (obj : XValue)

/-- A field that may be left out. -/
def fieldOr {α : Type} (key : Bytes) (other : α) (read : XValue → Option α) : Option α :=
  (objField obj key).elim (some other) read

/-- An array that may be left out or null. -/
def fieldItems (key : Bytes) (read : XValue → Option Bytes) : Option (List Bytes) :=
  match objField obj key with
  | none | some .null => some []
  | some (.array items) => items.mapM fun n => read n.value
  | _ => none

def fieldProject : Option (Option Bytes) :=
  match objField obj (ascii "project") with
  | none | some .null => some none
  | some (.string s) => if slugValid (cstr s).val then some (some (cstr s).val) else none
  | _ => none

def readKind : XValue → Option EvidenceKind
  | .int i => EvidenceKind.ofCode i
  | _ => none

def readConfidenceKind : XValue → Option ConfidenceKind
  | .int i => ConfidenceKind.ofCode i
  | _ => none

/-- A number of either kind. -/
def readNumber : XValue → Option ℚ
  | .float x => some x
  | .int i => some i
  | _ => none

def readConfidence (v : XValue) : Option ℚ := do
  let x ← readNumber v
  guard (0 ≤ x ∧ x ≤ 1)
  return x

/-- A text of the evidence, which fits an array of `size` bytes. -/
def readText (size : Nat) (v : XValue) : Option Bytes := do
  let s ← valStr v
  guard ((asperRecordUnescape s).length < size)
  return asperRecordUnescape s

def readStamp : XValue → Option Int
  | .int i => if i < 0 then none else some i
  | _ => none

/-- The count saturates at the range of `uint32_t`. -/
def readCount : XValue → Option Nat
  | .int i => some (if i < 0 then 0 else if 2 ^ 32 - 1 < i then 2 ^ 32 - 1 else i.toNat)
  | _ => none

def readRelevance (v : XValue) : Option ℚ :=
  (readNumber v).map fun x => if x < 0 then 0 else if 1 < x then 1 else x

def readBool : XValue → Option Bool
  | .bool b => some b
  | _ => none

def readStatus (v : XValue) : Option Bool := do
  let s ← valStr v
  if s.val = ascii "active" then some false
  else if s.val = ascii "deprecated" then some true
  else none

/-- The evidence of a record of this source, made at `createdAt`. -/
def recordEvidence (source : RecordSource) (createdAt : Int) : Option Evidence := do
  let kind ← fieldOr obj (ascii "evidence_kind") (if source = .curator then .inferred else .declared)
    readKind
  let confidence ← fieldOr obj (ascii "confidence") (if source = .curator then 1 / 2 else 1)
    readConfidence
  let confidenceKind ← fieldOr obj (ascii "confidence_kind") .unknown readConfidenceKind
  let provenance ← fieldOr obj (ascii "provenance") (ascii "legacy:" ++ sourceName source)
    (readText 256)
  let workspace ← fieldOr obj (ascii "workspace") [] (readText 1024)
  let commit ← fieldOr obj (ascii "commit") [] (readText 65)
  let observedAt ← fieldOr obj (ascii "observed_at") createdAt readStamp
  let expiresAt ← fieldOr obj (ascii "expires_at") 0 readStamp
  return { kind, confidenceKind, confidence, observedAt
           expiresAt := if kind = .inferred ∧ expiresAt = 0 then createdAt + days 30 else expiresAt
           provenance, workspace, commit }

def defaultRelevance : RecordSource → ℚ
  | .seed => 1
  | .manual => roundDouble (4 / 5)
  | .curator => roundDouble (3 / 5)

/-- The text of a record. -/
def fieldContent : Option Bytes := do
  let s ← (objField obj (ascii "content")).bind valStr
  guard (strBlank (asperRecordUnescape s) = false)
  return asperRecordUnescape s

/-- The fields of a record, read at `now`. -/
def parseRecord (now : Int) : Option Record := do
  let id ← (objField obj (ascii "id")).bind valUuid37
  let section_ ← ((objField obj (ascii "section")).bind valStr).bind fun s => sectionParse s.val
  let project ← fieldProject obj
  guard (section_ = .project ↔ project.isSome = true)
  let content ← fieldContent obj
  let source ← fieldOr obj (ascii "source") .manual fun v => (valStr v).bind fun s => sourceParse s.val
  let sourceRefs ← fieldItems obj (ascii "source_refs") valUuid37
  let createdAt ← fieldOr obj (ascii "created_at") now valTime
  let updatedAt ← fieldOr obj (ascii "updated_at") createdAt valTime
  let lastAccess ← fieldOr obj (ascii "last_access") createdAt valTime
  let evidence ← recordEvidence obj source createdAt
  let accessCount ← fieldOr obj (ascii "access_count") 0 readCount
  let relevance ← fieldOr obj (ascii "relevance") (defaultRelevance source) readRelevance
  let locked ← fieldOr obj (ascii "locked") false readBool
  let deprecated ← fieldOr obj (ascii "status") false readStatus
  let deprecatedAt ← fieldOr obj (ascii "deprecated_at") 0 valTime
  let tags ← fieldItems obj (ascii "tags") fun v => (valStr v).map asperRecordUnescape
  return { id, section_, project, content, source, evidence, createdAt, updatedAt, lastAccess
           accessCount, relevance, locked, deprecated
           deprecatedAt := if deprecated then if deprecatedAt = 0 then updatedAt else deprecatedAt
             else 0
           tags, sourceRefs }

end

/-- `asper_record_from_node`. -/
def recordFromNode (now : Int) (node : XNode) : Except Err Record :=
  match node.value with
  | .object entries => (parseRecord (.object entries) now).elim (.error .parse) .ok
  | _ => .error .parse

/-- What follows the kind and the time of an operation. -/
def parseUpdate (obj : XValue) : Option OpKind := do
  let id ← (objField obj (ascii "id")).bind valUuid37
  let content ← (objField obj (ascii "content")).bind valStr
  let declared ← fieldOr obj (ascii "declared_update") false readBool
  return .update id (asperRecordUnescape content) declared

def fieldReason (obj : XValue) : Option (Option Bytes) :=
  match objField obj (ascii "reason") with
  | none | some .null => some none
  | some (.string s) => some (some (asperRecordUnescape (cstr s)))
  | _ => none

def parseIds (obj : XValue) : Option (List Bytes) :=
  match objField obj (ascii "ids") with
  | some (.array items) => items.mapM fun n => valUuid37 n.value
  | _ => none

def parseSlug (obj : XValue) : Option Bytes := do
  let s ← (objField obj (ascii "project")).bind valStr
  guard (slugValid s.val = true)
  return s.val

/-- The cases of `asper_op_from_node` but the one of an insert, by the name of the kind. -/
def parseKind (obj : XValue) (name : Bytes) : Option OpKind := do
  if name = ascii "update" then parseUpdate obj
  else if name = ascii "deprecate" then do
    let id ← (objField obj (ascii "id")).bind valUuid37
    let reason ← fieldReason obj
    return .setDeprecated id reason
  else if name = ascii "keep" then ((objField obj (ascii "id")).bind valUuid37).map .keep
  else if name = ascii "set_locked" then do
    let id ← (objField obj (ascii "id")).bind valUuid37
    let value ← (objField obj (ascii "value")).bind readBool
    return .setLocked id value
  else if name = ascii "access" then (parseIds obj).map .access
  else if name = ascii "project_create" then (parseSlug obj).map .projectCreate
  else none

def opKindFromNode (now : Int) (obj : XValue) (name : Bytes) : Except Err OpKind :=
  if name = ascii "insert" then
    match objectGet obj (ascii "record") with
    | none => .error .parse
    | some n => (recordFromNode now n).map .insert
  else (parseKind obj name).elim (.error .parse) .ok

/-- `asper_op_from_node`. -/
def opFromNode (now : Int) (node : XNode) : Except Err Op :=
  match node.value with
  | .object entries =>
    match ((objField (.object entries) (ascii "kind")).bind valStr),
      (objField (.object entries) (ascii "at")).bind valTime with
    | some name, some at_ => (opKindFromNode now (.object entries) name.val).map (Op.mk at_)
    | _, _ => .error .parse
  | _ => .error .parse

/-! ## Text -/

/-- `xcdn_to_string_pretty` and `xcdn_to_string_compact` of a document with one node, and
`xcdn_parse_str`. -/
structure XcdnText where
  pretty : XNode → Bytes
  compact : XNode → Bytes
  parse : Bytes → Option (List XNode)

mutual

/-- What is read where this tree was written: the reader returns the text of a string undecoded. -/
def XValue.read (esc : UInt8 → Bytes) : XValue → XValue
  | .string s => .string (literalText esc s)
  | .array items => .array (nodesRead esc items)
  | .object entries => .object (entriesRead esc entries)
  | .null => .null
  | .bool b => .bool b
  | .int i => .int i
  | .float x => .float x
  | .uuid s => .uuid s
  | .datetime s => .datetime s

def XNode.read (esc : UInt8 → Bytes) : XNode → XNode
  | .mk tags value => .mk tags (value.read esc)

def nodesRead (esc : UInt8 → Bytes) : List XNode → List XNode
  | [] => []
  | n :: ns => n.read esc :: nodesRead esc ns

def entriesRead (esc : UInt8 → Bytes) : List (Bytes × XNode) → List (Bytes × XNode)
  | [] => []
  | (key, n) :: es => (key, n.read esc) :: entriesRead esc es

end

/-- The operation of a journal frame, decoded at `now`. -/
def opParse (X : XcdnText) (now : Int) (text : Bytes) : Except Err Op :=
  match X.parse text with
  | some [n] => if n.tags = [ascii "op"] then opFromNode now n else .error .parse
  | _ => .error .parse

/-- `asper_op_serialize` and its inverse at `now`. -/
def opText (X : XcdnText) (now : Int) : OpText where
  serialize op := .ok (X.compact (opBuildNode op))
  decode := opParse X now

end Asper
