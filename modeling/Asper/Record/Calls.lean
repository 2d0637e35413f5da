import Asper.Source.Events
import Asper.Record.Funnel

/-! # What the host does to records

The public calls that change records (`api.c`): each checks its arguments, builds an operation
(`HostCall.op`) and sends it through the funnel (`HostCall.run`). -/

namespace Asper

open Durable

/-- A `char` array of `n` bytes. -/
abbrev CharArray (n : Nat) := {s : Bytes // s.length = n}

/-- `asper_evidence` as the host fills it in. A confidence that is no finite number is `none`. -/
structure EvidenceInput where
  kind : Int
  confidenceKind : Int
  confidence : Option ℚ
  observedAt : Int
  expiresAt : Int
  provenance : CharArray 256
  workspace : CharArray 1024
  commit : CharArray 65

def Section.ofCode (n : Int) : Option Section :=
  if n = 0 then some .identity else if n = 1 then some .context
  else if n = 2 then some .project else none

def confidenceOk : Option ℚ → Option ℚ
  | none => none
  | some q => if 0 ≤ q ∧ q ≤ 1 then some q else none

/-- The evidence of the host, if it is well formed. -/
def EvidenceInput.check (e : EvidenceInput) : Except Err Evidence :=
  match EvidenceKind.ofCode e.kind, ConfidenceKind.ofCode e.confidenceKind,
    confidenceOk e.confidence with
  | some kind, some confidenceKind, some confidence =>
    if 0 ∈ e.provenance.val ∧ 0 ∈ e.workspace.val ∧ 0 ∈ e.commit.val ∧
        (cstr e.provenance.val).val ≠ [] ∧ 0 ≤ e.observedAt ∧ 0 ≤ e.expiresAt then
      .ok { kind, confidenceKind, confidence, observedAt := e.observedAt, expiresAt := e.expiresAt
            provenance := (cstr e.provenance.val).val, workspace := (cstr e.workspace.val).val
            commit := (cstr e.commit.val).val }
    else .error .invalid
  | _, _, _ => .error .invalid

/-- The evidence of a claim the host gives none for. -/
def manualEvidence : Evidence :=
  ⟨.declared, .heuristic, 1, 0, 0, ascii "user:manual", [], []⟩

/-- The evidence of a new claim. -/
def evidenceOf : Option EvidenceInput → Except Err Evidence
  | some e => e.check
  | none => .ok manualEvidence

/-- Fill in the times the host left open. -/
def Evidence.dated (e : Evidence) (now : Int) : Evidence :=
  { e with observedAt := if e.observedAt = 0 then now else e.observedAt
           expiresAt := if e.kind = .inferred ∧ e.expiresAt = 0 then now + days 30
             else e.expiresAt }

/-- A new record of the host. -/
def manualRecord (id : Uuid) (section_ : Section) (project : Option Bytes) (content : Bytes)
    (locked : Bool) (evidence : Evidence) (now : Int) : Record where
  id := id.val
  section_
  project
  content
  source := .manual
  evidence := evidence.dated now
  createdAt := now
  updatedAt := now
  lastAccess := now
  accessCount := 0
  relevance := roundDouble (4 / 5)
  locked
  deprecated := false
  deprecatedAt := 0
  tags := []
  sourceRefs := []

/-- The project of a new record: the one given, else the active one. -/
def insertProject (section_ : Section) (project : Option CStr) (active : ActiveProject) :
    Except Err (Option Bytes) :=
  if section_ = .project then
    match project with
    | some p => .ok (some p.val)
    | none => if active.val = [] then .error .invalid else .ok (some active.val)
  else .ok none

inductive HostCall where
  /-- `asper_memory_insert_evidenced`. -/
  | insert (id : Uuid) (section_ : Int) (project : Option CStr) (content : CStr) (locked : Bool)
      (evidence : Option EvidenceInput)
  /-- `asper_memory_update`. -/
  | update (id content : CStr)
  /-- `asper_memory_deprecate`. -/
  | setDeprecated (id : CStr) (reason : Option CStr)
  /-- `asper_memory_set_locked`. -/
  | setLocked (id : CStr) (value : Bool)

def insertOp (active : ActiveProject) (now : Int) (id : Uuid) (section_ : Int)
    (project : Option CStr) (content : CStr) (locked : Bool) (evidence : Option EvidenceInput) :
    Except Err Op := do
  let e ← evidenceOf evidence
  match Section.ofCode section_ with
  | none => .error .invalid
  | some s =>
    if strBlank content.val then .error .invalid
    else do
      let p ← insertProject s project active
      .ok ⟨now, .insert (manualRecord id s p content.val locked e now)⟩

/-- The operation a call builds. -/
def HostCall.op (active : ActiveProject) (now : Int) : HostCall → Except Err Op
  | .insert id section_ project content locked evidence =>
    insertOp active now id section_ project content locked evidence
  | .update id content =>
    if uuidValid id.val then .ok ⟨now, .update id.val content.val true⟩ else .error .invalid
  | .setDeprecated id reason =>
    if uuidValid id.val = true ∧ reason.all (fun r => utf8Valid r.val) = true then
      .ok ⟨now, .setDeprecated id.val (reason.map (·.val))⟩
    else .error .invalid
  | .setLocked id value =>
    if uuidValid id.val then .ok ⟨now, .setLocked id.val value⟩ else .error .invalid

section
variable {V : Type} (S : Settings) (T : OpText) (D : Digest)

def HostCall.run (c : HostCall) (active : ActiveProject) (w : Draw V) (x : Ctx V) :
    Io (Ctx V × Option Err) :=
  match c.op active w.now with
  | .error e => pure (x, some e)
  | .ok op => applyOp S T D w x op false

end

end Asper
