import Asper.Source.Pending

/-! # The store from call to call

`Store` is what the calls work on, the disk and the memory of the admission. `Call.run` is what
one call makes of it and `runCalls` what a sequence of calls makes of it. -/

namespace Asper

open Durable

structure Store where
  disk : Disk
  source : Source

/-- The calls that concern the events and their admission to curation. -/
inductive Call where
  | append (env : Env) (input : EventInput)
  /-- The last step of opening the store, and every later fill. -/
  | replay
  /-- The memory of a store opened anew, with the decisions of the operator. -/
  | reopen (eventMax : Int) (deferrals : List Deferral) (suspended : Bool)
  /-- What a curation cycle does to the queue, the curated ids and their file. -/
  | curate (file : Bytes) (curated : List Bytes) (queue : Queue) (suspended frozen : Bool)

section
variable (D : Digest) (X : Codec)

def Call.run : Call → Store → Store
  | .append env input, s =>
    let o := eventAppend D X env input s.source s.disk
    ⟨applyAll o.writes s.disk, match o.result with
      | .ok (_, m) => m
      | .error _ => s.source⟩
  | .replay, s =>
    let o := replayPending D X s.source s.disk
    ⟨applyAll o.writes s.disk, match o.result with
      | .ok (m, _) => m
      | .error _ => s.source⟩
  | .reopen eventMax deferrals suspended, s =>
    ⟨s.disk, ⟨none, ⟨eventMax, [], 0, 0⟩, deferrals, suspended⟩⟩
  | .curate file curated queue suspended frozen, s =>
    ⟨s.disk.set curatedFile (some (.file file)), { s.source with
      queue, suspended, pending := s.source.pending.map fun p => { p with curated, frozen } }⟩

def runCalls (calls : List Call) (s : Store) : Store := calls.foldl (fun s c => c.run D X s) s

/-- Every call of the sequence meets `P` where it is made. -/
def AllCalls (P : Call → Store → Prop) : List Call → Store → Prop
  | [], _ => True
  | c :: cs, s => P c s ∧ AllCalls P cs (c.run D X s)

/-- How many events a view of the scope has. -/
def viewCount (scope : Bytes) (d : Disk) : Nat :=
  match (viewOpen D scope).result d with
  | .ok v => v.files.count
  | .error _ => 0

/-- The event at the position `i` of a view. -/
def viewAt (scope : Bytes) (i : Nat) : Io Event := do
  let v ← viewOpen D scope
  let (e, _) ← viewRead D v (i + 1)
  pure e

/-- A view of the scope has the event `e` at the position `i`. -/
def Shows (d : Disk) (scope : Bytes) (i : Nat) (e : Event) : Prop :=
  i < viewCount D scope d ∧ (viewAt D scope i).result d = .ok e

/-! ## Pins among other calls -/

/-- What threads do to the source one after the other, each step under the lock. A pin call looks for
the event page by page, each page a step of its own (`search`), and writes its row last (`row`);
`setPinned` is a call that nothing comes between. -/
inductive PinStep where
  | append (env : Env) (input : EventInput)
  | list (scope : CStr)
  | search (scope query : CStr) (after limit : Nat)
  | view (scope : CStr)
  | read (v : View) (scope : CStr) (path : v.path = scopeFile scope.val (ascii "events.log")) (seq : Nat)
  | setPinned (scope id : CStr) (pinned : Bool)
  | row (scope id : CStr) (pinned : Bool)

/-- The end of `asper_event_set_pinned`, once the event is found. -/
def pinSet (scope id : CStr) (pinned : Bool) : Io Unit := do
  require (sourceScopeValid scope.val = true ∧ uuidValid id.val = true) .invalid
  pinAppend scope.val ⟨id.val, pinned⟩

def PinStep.run : PinStep → Io Unit
  | .append env input => do let _ ← eventCommit D X env input
  | .list scope => do let _ ← eventList D scope
  | .search scope query after limit => do let _ ← eventSearch D scope query after limit
  | .view scope => do let _ ← sourceViewOpen D scope
  | .read v _ _ seq => do let _ ← viewRead D v seq
  | .setPinned scope id pinned => eventSetPinned D scope id pinned
  | .row scope id pinned => pinSet scope id pinned

/-- The rows in the log of `s` of a pin call with this result: one when it succeeds. -/
def rowsOf (s scope : Bytes) (p : Pin) : Except Err Unit → List Pin
  | .ok _ => if scope = s then [p] else []
  | .error _ => []

/-- The rows that a step adds to the pin log of `s`. -/
def PinStep.adds (s : Bytes) (d : Disk) : PinStep → List Pin
  | .setPinned scope id pinned =>
    rowsOf s scope.val ⟨id.val, pinned⟩ ((eventSetPinned D scope id pinned).result d)
  | .row scope id pinned => rowsOf s scope.val ⟨id.val, pinned⟩ ((pinSet scope id pinned).result d)
  | _ => []

def pinSteps (cs : List PinStep) (d : Disk) : Disk := cs.foldl (fun d c => (c.run D X).final d) d

/-- The rows that the steps add, in order. -/
def pinsAdded (s : Bytes) : List PinStep → Disk → List Pin
  | [], _ => []
  | c :: cs, d => c.adds D s d ++ pinsAdded s cs ((c.run D X).final d)

end

end Asper
