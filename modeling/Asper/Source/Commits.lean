import Asper.Source.Events
import Asper.Lib.Runs

/-! # Concurrent checkpoint commits

A call of `checkpointCommit` stores an object, appends an event and replaces the file of the
checkpoint (`CommitCall.put`, `CommitCall.append`, `CommitCall.replace`). Each of the three holds
the lock of the store, none is held from one to the next, so calls interleave between them
(`Commits.Step`). `CheckpointAgrees` says that the file and the log give the same checkpoint. -/

namespace Asper

open Durable

/-- The arguments of a call and what it draws from outside. -/
structure CommitCall where
  env : Env
  scope : CStr
  text : CStr

section
variable (D : Digest) (X : Codec)

def CommitCall.put (c : CommitCall) : Io Bytes := do
  require (sourceScopeValid c.scope.val = true ∧ utf8Valid c.text.val = true) .invalid
  objectPut D c.text.val c.env.tmp

/-- The event a commit appends. -/
def CommitCall.input (c : CommitCall) (ref : Bytes) : EventInput :=
  { scope := c.scope, kind := EventKind.checkpoint.code, pinned := false, objectRef := cstr ref
    text := c.text }

def CommitCall.append (c : CommitCall) (ref : Bytes) : Io Bytes :=
  eventCommit D X c.env (c.input ref)

def CommitCall.replace (c : CommitCall) : Io Unit := do
  let path ← sourceScopePath c.scope.val (ascii "checkpoint.txt") .io
  atomicText path c.text.val

/-- **A commit is its three steps.** -/
theorem checkpointCommit_steps (c : CommitCall) :
    checkpointCommit D X c.env c.scope c.text = (do
      let ref ← c.put D
      let id ← c.append D X ref
      c.replace
      pure id : Io Bytes) := by
  simp only [CommitCall.put, CommitCall.replace, Act.bind_assoc]
  rfl

/-- How far a call has come. -/
inductive CommitPhase where
  | called
  | stored (ref : Bytes)
  | appended (id : Bytes)
  | returned (id : Bytes)

inductive CommitStep where
  | put | append | replace
  deriving DecidableEq

/-- The disk and the calls under way. -/
structure Commits where
  disk : Disk
  calls : List (CommitCall × CommitPhase)

/-- One of the calls makes its next step, which succeeds. -/
inductive Commits.Step : Commits → CommitStep × CommitCall → Commits → Prop where
  | put {d : Disk} {pre post : List (CommitCall × CommitPhase)} {c : CommitCall} {ref : Bytes}
      (h : (c.put D).result d = .ok ref) :
      Step ⟨d, pre ++ (c, .called) :: post⟩ (.put, c)
        ⟨(c.put D).final d, pre ++ (c, .stored ref) :: post⟩
  | append {d : Disk} {pre post : List (CommitCall × CommitPhase)} {c : CommitCall}
      {ref id : Bytes} (h : (c.append D X ref).result d = .ok id) :
      Step ⟨d, pre ++ (c, .stored ref) :: post⟩ (.append, c)
        ⟨(c.append D X ref).final d, pre ++ (c, .appended id) :: post⟩
  | replace {d : Disk} {pre post : List (CommitCall × CommitPhase)} {c : CommitCall} {id : Bytes}
      (h : c.replace.result d = .ok ()) :
      Step ⟨d, pre ++ (c, .appended id) :: post⟩ (.replace, c)
        ⟨c.replace.final d, pre ++ (c, .returned id) :: post⟩

/-- The calls `cs` on the disk `d`, none of which has made a step. -/
def Commits.start (d : Disk) (cs : List CommitCall) : Commits := ⟨d, cs.map (·, .called)⟩

/-- Every call has returned. -/
def Commits.Done (m : Commits) : Prop := ∀ x ∈ m.calls, ∃ id, x.2 = .returned id

/-! ## Agreement -/

def checkpointFile (s : Bytes) : Path := scopeFile s (ascii "checkpoint.txt")

/-- The text of the checkpoint event with the highest sequence number. -/
def checkpointOf (es : List Event) : Except Err Bytes :=
  match es.reverse.find? (·.kind = .checkpoint) with
  | some e => .ok e.text
  | none => .error .notFound

/-- The checkpoint of the scope is that of its log, with and without the file. -/
def CheckpointAgrees (scope : CStr) (d : Disk) : Prop :=
  ∃ es, (eventList D scope).result d = .ok es ∧
    (checkpointLoad D scope).result d = checkpointOf es ∧
    (checkpointLoad D scope).result (d.set (checkpointFile scope.val) none) = checkpointOf es

/-- The text a step works on, when it is the step `k` on the scope `s`. -/
def stepText (k : CommitStep) (s : Bytes) (l : CommitStep × CommitCall) : Option Bytes :=
  if l.1 = k ∧ l.2.scope.val = s then some l.2.text.val else none

/-- The last text appended to the log of `s` is the last its file was replaced by. -/
def LastReplacedLast (s : Bytes) (ls : List (CommitStep × CommitCall)) : Prop :=
  lastSome (stepText .append s) ls = lastSome (stepText .replace s) ls

end

end Asper
