import Asper.Journal.Journal
import Asper.Record.Store

/-! # The funnel of operations

Every change of the live store goes through `applyOp` (`asper_apply_op`): the checks of
`applyValidate`, the journal, then memory and the index of embeddings. Only curation cycles and
the bookkeeping of the worker call it with `fromCurator`. -/

namespace Asper

open Durable

/-- The part of the configuration the funnel reads. -/
structure Settings where
  contentMaxChars : Int
  identityMaxRecords : Int
  /-- `journal_sync` is `ASPER_SYNC_ALWAYS`. -/
  syncAlways : Bool

/-- An `int` as a `size_t`. -/
def castSize (n : Int) : Nat := (n % 2 ^ 64).toNat

/-- How operations are spelled in the journal. -/
structure OpText where
  serialize : Op → Except Err Bytes
  decode : Bytes → Except Err Op

def OpText.codec (T : OpText) : OpCodec Memory Op := ⟨Op.at_, T.serialize, T.decode, storeApply⟩

/-! ## The index -/

/-- The rows of the index, each with the id of its record. -/
abbrev Index (V : Type) := List (Bytes × V)

section
variable {V : Type}

def Index.row (ix : Index V) (id : Bytes) : Option Nat := ix.findIdx? (·.1 = id)

/-- `asper_index_put`; `full` when the index cannot grow. -/
def Index.put (full : Bool) (ix : Index V) (id : Bytes) (v : V) : Index V :=
  match ix.row id with
  | some i => ix.set i (id, v)
  | none => if full ∨ 2 ^ 31 - 1 ≤ ix.length then ix else ix ++ [(id, v)]

/-- `asper_index_remove`: the last row takes the place. -/
def Index.remove (ix : Index V) (id : Bytes) : Index V :=
  match ix.row id, ix.getLast? with
  | some i, some l => (ix.set i l).dropLast
  | _, _ => ix

/-! ## A context -/

/-- The parts of `asper_ctx` the funnel works on; `receipt` when a curation receipt is retained. -/
structure Ctx (V : Type) where
  memory : Memory
  index : Index V
  journal : JournalState
  knowledge : Option Knowledge
  receipt : Bool

/-- What one call meets: the time, a new id, the embedding of a text if there is an embedder, and
the failures. -/
structure Draw (V : Type) where
  now : Int
  id : Uuid
  embedded : Option (Except Err V)
  journal : JournalFaults
  /-- An allocation of `asper_store_apply` fails. -/
  nomem : Bool
  /-- The index cannot grow. -/
  full : Bool

/-- `asper_knowledge_guard`. -/
def knowledgeGuard (x : Ctx V) : Except Err Unit :=
  if x.journal.poisoned = true ∨ x.knowledge.any (·.poisoned) = true then .error .io else .ok ()

/-! ## Checks -/

section
variable (S : Settings) (m : Memory)

def identityActiveCount : Nat :=
  (m.table.recs.filter fun r => r.section_ = .identity ∧ r.deprecated = false).length

/-- The text of a claim. -/
def contentCheck (content : Bytes) : Except Err Unit :=
  if strBlank content then .error .invalid
  else match utf8Count content with
    | none => .error .invalid
    | some chars => if castSize S.contentMaxChars < chars then .error .invalid else .ok ()

/-- A project is given for project records only, and known. -/
def projectCheck (r : Record) : Except Err Unit :=
  match r.section_, r.project with
  | .project, none => .error .invalid
  | .project, some slug =>
    if slugValid slug = false then .error .invalid
    else if m.projects.known slug then .ok () else .error .notFound
  | _, none => .ok ()
  | _, some _ => .error .invalid

def insertValidate (r : Record) : Except Err Unit := do
  if uuidValid r.id = false then throw .invalid
  contentCheck S r.content
  projectCheck m r
  if r.section_ = .identity ∧ castSize S.identityMaxRecords ≤ identityActiveCount m then
    throw .invalid
  if recordLimit ≤ m.table.recs.length then throw .limit
  if (m.table.get r.id).isSome then throw .invalid

def updateValidate (id content : Bytes) (declared fromCurator : Bool) : Except Err Record := do
  contentCheck S content
  match m.table.get id with
  | none => .error .notFound
  | some t =>
    if fromCurator = true ∧ (t.evidence.kind ≠ .inferred ∨ declared = true) then .error .locked
    else if t.locked then .error .locked
    else if t.deprecated then .error .invalid
    else .ok t

def deprecateValidate (id : Bytes) : Except Err Record :=
  match m.table.get id with
  | none => .error .notFound
  | some t => if t.locked then .error .locked else .ok t

/-- Hosts may keep a locked record. -/
def keepValidate (id : Bytes) (fromCurator : Bool) : Except Err Record :=
  match m.table.get id with
  | none => .error .notFound
  | some t => if fromCurator = true ∧ t.locked = true then .error .locked else .ok t

def lockValidate (id : Bytes) : Except Err Record :=
  match m.table.get id with
  | none => .error .notFound
  | some t => .ok t

def projectValidate (slug : Bytes) : Except Err Unit :=
  if m.projects.known slug = false ∧ projectLimit ≤ m.projects.slugs.length then .error .limit
  else if slugValid slug = false then .error .invalid
  else .ok ()

/-- `apply_validate`: the record the operation is about. -/
def applyValidate (fromCurator : Bool) : OpKind → Except Err (Option Record)
  | .insert r => (insertValidate S m r).map fun _ => none
  | .update id content declared => (updateValidate S m id content declared fromCurator).map some
  | .setDeprecated id _ => (deprecateValidate m id).map some
  | .keep id => (keepValidate m id fromCurator).map some
  | .setLocked id _ => (lockValidate m id).map some
  | .access _ => .ok none
  | .projectCreate slug => (projectValidate m slug).map fun _ => none

end

/-! ## Applying -/

/-- The operations that allocate when they are applied. -/
def OpKind.allocates (m : Memory) : OpKind → Bool
  | .insert _ | .update .. => true
  | .projectCreate slug => !m.projects.known slug
  | _ => false

/-- `asper_store_apply`. -/
def storeApplyIn (nomem : Bool) (m : Memory) (op : Op) : Except Err Memory :=
  match storeApply m op with
  | .error e => .error e
  | .ok m' => if nomem = true ∧ op.kind.allocates m = true then .error .nomem else .ok m'

/-- Move the index along with the table. Only new texts and rescued records are embedded. -/
def reindex (w : Draw V) (ix : Index V) : OpKind → Index V
  | .insert r => match w.embedded with
    | some (.ok v) => ix.put w.full r.id v
    | _ => ix
  | .update id _ _ => match w.embedded with
    | some (.ok v) => ix.put w.full id v
    | _ => ix.remove id
  | .keep id => match ix.row id, w.embedded with
    | none, some (.ok v) => ix.put w.full id v
    | _, _ => ix
  | .setDeprecated id _ => ix.remove id
  | _ => ix

def journalFile : Path := [ascii "journal.xcdn"]

/-- An operation without a time takes place now. -/
def Op.timed (op : Op) (now : Int) : Op := if op.at_ = 0 then { op with at_ := now } else op

section
variable (S : Settings) (T : OpText) (D : Digest)

/-- The part of `asper_apply_op` that follows the checks: the operation goes to the journal first. -/
def applyValid (w : Draw V) (x : Ctx V) (op : Op) (fromCurator : Bool) :
    Io (Ctx V × Option Err) := do
  match ← journalAppend T.codec w.journal D journalFile x.journal op w.id
      (!fromCurator || S.syncAlways) with
  | (j, some e) => pure ({ x with journal := j }, some e)
  | (j, none) => match storeApplyIn w.nomem x.memory op with
    -- the journal stays, and nothing more is done until the store is reopened
    | .error e => pure ({ x with journal := j.poison }, some e)
    | .ok m => pure ({ x with memory := m, journal := j, index := reindex w x.index op.kind }, none)

/-- `asper_apply_op`: the context after the call, and the error if it failed. -/
def applyOp (w : Draw V) (x : Ctx V) (op : Op) (fromCurator : Bool) : Io (Ctx V × Option Err) :=
  match (do knowledgeGuard x
            applyValidate S x.memory fromCurator op.kind : Except Err (Option Record)) with
  | .error e => pure (x, some e)
  | .ok _ => applyValid S T D w x (op.timed w.now) fromCurator

end

end

end Asper
