import Asper.Source.Store
import Asper.Xcdn.Node

/-! # Scoped events

The public operations on a scope: `eventAppend`, `eventList`, `eventSearch`, `eventSetPinned`
(`source_events.c`), the view (`source_view.c`) and the checkpoint (`source_checkpoint.c`).
`Codec` holds the parser and the writer the store takes from elsewhere. -/

namespace Asper

open Durable

/-- The text formats the store does not define itself. -/
structure Codec where
  /-- `xcdn_parse_str`: the nodes of a document. -/
  parse : Bytes → Option (List XNode)
  /-- `asmodel_json_write` of an object whose only entry is `"project"`. -/
  projectJson : Bytes → Bytes

/-- A value of the clock. -/
abbrev Clock := {t : Int // -2 ^ 63 ≤ t ∧ t < 2 ^ 63}

/-- The active project, empty for none. -/
abbrev ActiveProject := {p : Bytes // p = [] ∨ slugValid p = true}

/-- What one call draws from outside: new ids, the time and the active project. -/
structure Env where
  id : Uuid
  tmp : Uuid
  now : Clock
  project : ActiveProject

structure EventInput where
  scope : CStr
  kind : Int
  pinned : Bool
  /-- Empty when the caller gives none. -/
  objectRef : CStr
  text : CStr

def eventKindOf (kind : Int) : Option EventKind :=
  if 0 ≤ kind then EventKind.ofCode kind.toNat else none

/-- Turns are what the user and the assistant say. -/
def EventKind.isTurn : EventKind → Bool
  | .user | .assistant => true
  | _ => false

section
variable (D : Digest) (X : Codec)

/-- The object that records the project a turn belongs to. -/
def turnText (project : Bytes) : Bytes := ascii "#turn " ++ X.projectJson project

def turnOrigin (env : Env) : Io Bytes := objectPut D (turnText X env.project.val) env.tmp

/-- The object reference of a new event: the caller's, or the origin of a turn. -/
def eventObject (env : Env) (objectRef : Bytes) (kind : EventKind) : Io Bytes :=
  if objectRef ≠ [] then pure objectRef
  else if kind.isTurn then turnOrigin D X env
  else pure []

/-- The part of an append that follows the checks. -/
def eventStore (env : Env) (input : EventInput) (kind : EventKind) : Io Bytes := do
  let path ← sourceScopePath input.scope.val (ascii "events.log") .io
  let ref ← eventObject D X env input.objectRef.val kind
  registerScope input.scope.val
  let _ ← eventLogAppend D path
    { sequence := 0, at_ := env.now.val, kind, pinned := input.pinned, id := env.id.val
      objectRef := ref, text := input.text.val }
  pure env.id.val

/-- The durable part of `asper_event_append`. -/
def eventCommit (env : Env) (input : EventInput) : Io Bytes := do
  require (sourceScopeValid input.scope.val = true) .invalid
  match eventKindOf input.kind with
  | none => Act.fail .invalid
  | some kind => do
    require (utf8Valid input.text.val = true ∧
      (input.objectRef.val = [] ∨ sourceObjectValid input.objectRef.val = true)) .invalid
    eventStore D X env input kind

/-- A page of events with the pins laid over it. -/
def eventPage (scope query : Bytes) (after limit : Nat) : Io (List Event × Nat) := do
  let path ← sourceScopePath scope (ascii "events.log") .io
  let (es, next) ← eventLogPage D path query after limit
  let pins ← pinsLoad scope
  pure (es.map (pinsApply pins), next)

/-- `SIZE_MAX` bounds the page. -/
def eventList (scope : CStr) : Io (List Event) := do
  require (sourceScopeValid scope.val = true) .invalid
  let (es, _) ← eventPage D scope.val [] 0 (2 ^ 64 - 1)
  pure es

def eventSearch (scope query : CStr) (after limit : Nat) : Io (List Event × Nat) := do
  require (sourceScopeValid scope.val = true ∧ limit ≠ 0 ∧ limit ≤ 1000) .invalid
  eventPage D scope.val query.val after limit

/-- The events of one page of the search for an event to pin. -/
def pinPage : Nat := 256

/-- Look for the event `id` page by page. A page that is not full is the last. -/
def eventFind (scope id : Bytes) : Nat → Nat → Io Unit
  | 0, _ => Act.fail .notFound
  | fuel + 1, cursor => do
    let (es, next) ← eventPage D scope [] cursor pinPage
    if es.any (·.id = id) then pure ()
    else if es.length = pinPage then eventFind scope id fuel next
    else Act.fail .notFound

/-- Append the row of a pin. -/
def pinAppend (scope : Bytes) (p : Pin) : Io Unit := do
  let path ← sourceScopePath scope (ascii "pins.log") .io
  let bytes ← orElse (osFileSize path) .notFound 0
  require (bytes ≤ pinBytes - pinRow) .limit
  osAppend path (pinLine p)

/-- A log has fewer events than `eventLogBytes`, which bounds the search. -/
def eventSetPinned (scope id : CStr) (pinned : Bool) : Io Unit := do
  require (sourceScopeValid scope.val = true ∧ uuidValid id.val = true) .invalid
  eventFind D scope.val id.val eventLogBytes 0
  pinAppend scope.val ⟨id.val, pinned⟩

/-! ## Views -/

/-- An opened log with its pins. -/
structure View where
  path : Path
  files : EventFiles
  pins : List Pin

def viewOpen (scope : Bytes) : Io View := do
  let path ← sourceScopePath scope (ascii "events.log") .nomem
  let pins ← pinsLoad scope
  let files ← orElse (filesOpen D path) .notFound ⟨[], [], 0⟩
  pure ⟨path, files, pins⟩

def viewRead (v : View) (seq : Nat) : Io (Event × View) := do
  let (e, files) ← filesRead D v.path v.files seq
  pure (pinsApply v.pins e, { v with files })

def viewHead (v : View) (seq : Nat) : Io (Event × View) := do
  let (e, files) ← filesHead D v.path v.files seq
  pure (pinsApply v.pins e, { v with files })

/-- `asper_source_view_open` as the host calls it. -/
def sourceViewOpen (scope : CStr) : Io View := do
  require (sourceScopeValid scope.val = true) .invalid
  viewOpen D scope.val

/-! ## Checkpoints -/

/-- Write `path` by way of a temporary file. -/
def atomicText (path : Path) (text : Bytes) : Io Unit := do
  match ← (do osWriteFile (ext path (ascii ".tmp")) text
              osFileReplace (ext path (ascii ".tmp")) path : Io Unit).attempt with
  | .ok _ => pure ()
  | .error e => do
    ignore (osRemoveFile (ext path (ascii ".tmp")))
    Act.fail e

def checkpointCommit (env : Env) (scope text : CStr) : Io Bytes := do
  require (sourceScopeValid scope.val = true ∧ utf8Valid text.val = true) .invalid
  let ref ← objectPut D text.val env.tmp
  -- no turn, so the curation queue is not told
  let id ← eventCommit D X env
    { scope, kind := EventKind.checkpoint.code, pinned := false, objectRef := cstr ref, text }
  let path ← sourceScopePath scope.val (ascii "checkpoint.txt") .io
  atomicText path text.val
  pure id

/-- The text of the last checkpoint among the first `n` events. -/
def lastCheckpoint : Nat → View → Io Bytes
  | 0, _ => Act.fail .notFound
  | n + 1, v => do
    let (h, v) ← viewHead D v (n + 1)
    if h.kind = .checkpoint then do
      let (e, _) ← viewRead D v (n + 1)
      pure e.text
    else lastCheckpoint n v

def checkpointLoad (scope : CStr) : Io Bytes := do
  require (sourceScopeValid scope.val = true) .invalid
  let path ← sourceScopePath scope.val (ascii "checkpoint.txt") .io
  match ← (sourceTextRead path eventBytes).attempt with
  | .ok text => pure text
  | .error .notFound => do
    let v ← viewOpen D scope.val
    lastCheckpoint D v.files.count v
  | .error e => Act.fail e

end

end Asper
