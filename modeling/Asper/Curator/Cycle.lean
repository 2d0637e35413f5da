import Asper.Curator.Acknowledge
import Asper.Curator.Queue
import Asper.Lib.Runs
import Asper.Record.Calls

/-! # A curation cycle

A cycle takes a batch of turns, shows the model a transcript with the records related to it, and
carries out what the model proposes (`curator.c`). The host works on the store all the while:
`Curating.Step` is one step of the cycle, of the host or of the worker, and its label says what an
observer sees of it. Which records are related, what the model answers and what fails is open. -/

namespace Asper

open Durable

/-- The part of the configuration a cycle reads. -/
structure CycleSettings extends Settings where
  turnBatch : Int
  transcriptTokens : Int
  identityConfirmWindow : Int
  maxOpsPerCycle : Int

/-! ## Proposals -/

/-- One line of the model's answer. Handles count from 1. -/
inductive Cop where
  | insert (section_ : Section) (text : CStr)
  | update (handle : Nat) (text : CStr)
  | setDeprecated (handle : Nat) (text : CStr)
  | keep (handle : Nat)
  | cite (handle : Nat)
  | answer (text : CStr)
  | noop
  | nomem

/-- The parser accepts the handles it was given only. -/
def Cop.fits (handles : Nat) : Cop → Bool
  | .update h _ | .setDeprecated h _ | .keep h | .cite h => 1 ≤ h ∧ h ≤ handles
  | _ => true

/-- What a change of an identity record is known by. -/
structure Proposal where
  id : Bytes
  update : Bool
  hash : UInt64
  deriving DecidableEq

/-- A proposal that waits for a later cycle to repeat it. -/
structure Waiting where
  proposal : Proposal
  firstAt : Int

/-- Remove the element at `i`; the last takes its place. -/
def dropAt {α : Type} (xs : List α) (i : Nat) : List α :=
  match xs.getLast? with
  | none => xs
  | some l => (xs.set i l).dropLast

/-- The loop of `quorum_check`, which also drops what has waited too long. -/
def quorumScan (window now : Int) (p : Proposal) :
    Nat → Nat → List Waiting → Bool → List Waiting × Bool
  | 0, _, ps, confirmed => (ps, confirmed)
  | fuel + 1, i, ps, confirmed =>
    match ps[i]? with
    | none => (ps, confirmed)
    | some q =>
      if window < now - q.firstAt then quorumScan window now p fuel i (dropAt ps i) confirmed
      else if confirmed = false ∧ q.proposal = p then
        quorumScan window now p fuel i (dropAt ps i) true
      else quorumScan window now p fuel (i + 1) ps confirmed

/-- `quorum_check`: confirmed by an earlier cycle, or noted for a later one. -/
def quorumCheck (window now : Int) (p : Proposal) (ps : List Waiting) : List Waiting × Bool :=
  let r := quorumScan window now p ps.length 0 ps false
  if r.2 then r else (r.1 ++ [⟨p, now⟩], false)

/-! ## Carrying out a proposal -/

/-- The text of a proposal. -/
def proposalOk (S : Settings) (text : Bytes) : Bool :=
  !strBlank text && match utf8Count text with
    | none => false
    | some chars => !(0 < S.contentMaxChars && castSize S.contentMaxChars < chars)

/-- The ids of the turns, each once; what is no id is left out. -/
def sourceRefsOf (ts : List Turn) : List Bytes :=
  ts.foldl (fun refs t =>
    if uuidValid t.sourceId = false ∨ t.sourceId ∈ refs then refs else refs ++ [t.sourceId]) []

/-- A cycle under way: its time, its turns, what the model is shown of them, and the records it is
shown with them, as they were when they were looked up. -/
structure Cycle where
  now : Int
  batch : List Turn
  transcript : Bytes
  handles : List Record

/-- What the first turn of the batch says about where it comes from. -/
def Cycle.origin (cy : Cycle) : Origin :=
  match cy.batch with
  | [] => ⟨[], [], []⟩
  | t :: _ => ⟨t.workspace, t.commit, t.project⟩

def Cycle.project (cy : Cycle) : Option Bytes :=
  if cy.origin.project = [] then none else some cy.origin.project

def Cycle.scope (cy : Cycle) : Bytes :=
  match cy.batch with
  | [] => ascii "unknown"
  | t :: _ => t.scope

/-- The evidence of what the model inferred. -/
def Cycle.evidence (cy : Cycle) : Evidence where
  kind := .inferred
  confidenceKind := .heuristic
  confidence := 1 / 2
  observedAt := cy.now
  expiresAt := cy.now + days 30
  provenance := ascii "curator:scope:" ++ cy.scope ++ ascii "; candidate_sources"
  workspace := cy.origin.workspace
  commit := cy.origin.commit

def Cycle.record (cy : Cycle) (id : Uuid) (section_ : Section) (text : Bytes) : Record where
  id := id.val
  section_
  project := if section_ = .project then cy.project else none
  content := text
  source := .curator
  evidence := cy.evidence
  createdAt := cy.now
  updatedAt := cy.now
  lastAccess := cy.now
  accessCount := 0
  relevance := roundDouble (3 / 5)
  locked := false
  deprecated := false
  deprecatedAt := 0
  tags := []
  sourceRefs := sourceRefsOf cy.batch

/-- `cycle_do_insert` up to the funnel; `dup` when the index holds nearly the same claim. -/
def Cycle.insertOp (S : Settings) (cy : Cycle) (dup : Bool) (id : Uuid) (section_ : Section)
    (text : Bytes) : Option Op :=
  if proposalOk S text = false ∨ (section_ = .project ∧ cy.project = none) ∨ dup = true then none
  else some ⟨cy.now, .insert (cy.record id section_ text)⟩

/-- The operation that a change of the record `id` is. -/
def changeOp (now : Int) (id : Bytes) (update : Bool) (text : Bytes) : Op :=
  ⟨now, if update then .update id text false else .setDeprecated id (some text)⟩

/-- `cycle_do_mutate` up to the funnel, on the record as the cycle knows it. -/
def mutatePlan (S : CycleSettings) (now : Int) (target : Record) (update : Bool) (text : Bytes)
    (quorum : List Waiting) (seen : List Proposal) :
    Option Op × List Waiting × List Proposal :=
  let p : Proposal := ⟨target.id, update, fnv1a64 (if update then text else [])⟩
  if target.evidence.kind ≠ .inferred ∨ target.locked = true ∨
      (update = true ∧ proposalOk S.toSettings text = false) then (none, quorum, seen)
  else if target.section_ ≠ .identity then (some (changeOp now target.id update text), quorum, seen)
  -- a change of an identity record must be proposed in two cycles
  else if p ∈ seen then (none, quorum, seen)
  else
    let r := quorumCheck S.identityConfirmWindow now p quorum
    if r.2 then (some (changeOp now target.id update text), r.1, seen)
    else (none, r.1, seen ++ [p])

/-! ## The system -/

inductive Phase where
  | idle
  | taken (now : Int) (batch : List Turn)
  /-- The turns that did not fit are back in the queue; the model is asked. -/
  | shown (cy : Cycle)
  /-- The receipt with the ids `sources` is written; `cops` are still to be carried out. -/
  | acting (cy : Cycle) (sources : List Bytes) (cops : List Cop) (seen : List Proposal)
      (processed : Nat)

structure Curating (V : Type) where
  disk : Disk
  ctx : Ctx V
  slots : QueueSlots
  quorum : List Waiting
  phase : Phase

/-- What an observer sees of a step. -/
inductive CurationEvent where
  | hosted (c : HostCall) (ok : Bool)
  | accessed
  | registered
  | reviewed
  | synced
  | learnt
  | arrived (ts : List Turn)
  | took (batch : List Turn)
  | shown (included omitted : List Turn) (transcript : Bytes)
  | cloned (rs : List Record)
  | begun (sources : List Bytes)
  | skipped
  | inserted (r : Record)
  /-- A change of the record, which is given as it was when it was changed. -/
  | mutated (update : Bool) (r : Record)
  | acknowledged (ids : List Bytes)
  | failed
  | lost (ts : List Turn)

/-- Turns join the queue, each when there is room for it. -/
def enqueueAll : List Turn → QueueSlots → Option QueueSlots
  | [], s => some s
  | t :: ts, s =>
    if roomFor s.queue (t.text.length + 1) = false then none
    else enqueueAll ts
      { queue := { s.queue with turns := s.queue.turns ++ [t] }
        cap := growSlots s.cap (s.queue.turns.length + s.queue.inflight) }

/-- The records looked up that are not among the handles yet. -/
def newHandles (handles : List Record) : List Record → List Record
  | [] => []
  | r :: rs =>
    if handles.any (·.id = r.id) then newHandles handles rs
    else r :: newHandles (handles ++ [r]) rs

/-- The end of a cycle that failed: the turns go back, or are lost where the queue has no place. -/
def giveBack (ts : List Turn) (s : QueueSlots) : QueueSlots × CurationEvent :=
  match restoreTurns ts s with
  | some s => (s, .failed)
  | none => ({ s with queue := releaseTurns ts s.queue }, .lost ts)

section
variable {V : Type}

def Ctx.withReceipt (x : Ctx V) (receipt : Bool) : Ctx V := { x with receipt }

def Ctx.withKnowledge (x : Ctx V) (knowledge : Option Knowledge) : Ctx V := { x with knowledge }

def Ctx.synced (x : Ctx V) (F : JournalFaults) : Ctx V :=
  { x with journal := (journalSync F x.journal).1 }

/-- Note a proposal that is carried out by no operation. -/
def Curating.skip (σ : Curating V) (quorum : List Waiting) (phase : Phase) : Curating V :=
  { σ with quorum, phase }

variable (S : CycleSettings) (T : OpText) (D : Digest) (tokens : Bytes → Int)

/-- The cycle's turn at the proposal `cop`: the operation it is, if any. -/
def Cycle.plan (cy : Cycle) (dup : Bool) (id : Uuid) (quorum : List Waiting)
    (seen : List Proposal) (processed : Nat) : Cop → Option Op × List Waiting × List Proposal
  | .noop => (none, quorum, seen)
  | cop =>
    if 0 < S.maxOpsPerCycle ∧ castSize S.maxOpsPerCycle ≤ processed then (none, quorum, seen)
    else match cop with
      | .insert section_ text => (cy.insertOp S.toSettings dup id section_ text.val, quorum, seen)
      | .update h text => match cy.handles[h - 1]? with
        | some target => mutatePlan S cy.now target true text.val quorum seen
        | none => (none, quorum, seen)
      | .setDeprecated h text => match cy.handles[h - 1]? with
        | some target => mutatePlan S cy.now target false text.val quorum seen
        | none => (none, quorum, seen)
      | _ => (none, quorum, seen)

/-- How many proposals count as processed. -/
def Cop.counts (processed : Nat) : Cop → Nat
  | .noop => processed
  | _ => if 0 < S.maxOpsPerCycle ∧ castSize S.maxOpsPerCycle ≤ processed then processed
    else processed + 1

/-- What is seen of the operation `op` on the table `t`. -/
def Op.event (t : Table) (op : Op) : CurationEvent :=
  match op.kind with
  | .insert r => .inserted r
  | .update id _ _ => match t.get id with
    | some r => .mutated true r
    | none => .skipped
  | .setDeprecated id _ => match t.get id with
    | some r => .mutated false r
    | none => .skipped
  | _ => .skipped

inductive Curating.Step : Curating V → CurationEvent → Curating V → Prop where
  /-- The host calls. -/
  | host {σ : Curating V} (c : HostCall) (active : ActiveProject) (w : Draw V) {x : Ctx V}
      {e : Option Err} (h : (c.run S.toSettings T D active w σ.ctx).result σ.disk = .ok (x, e)) :
      Step σ (.hosted c e.isNone)
        { σ with disk := (c.run S.toSettings T D active w σ.ctx).final σ.disk, ctx := x }
  /-- The worker notes which records were read. -/
  | access {σ : Curating V} (ids : List Bytes) (w : Draw V) {x : Ctx V} {e : Option Err}
      (h : (applyOp S.toSettings T D w σ.ctx ⟨w.now, .access ids⟩ true).result σ.disk =
        .ok (x, e)) :
      Step σ .accessed { σ with
        disk := (applyOp S.toSettings T D w σ.ctx ⟨w.now, .access ids⟩ true).final σ.disk
        ctx := x }
  /-- The host selects a project that is new. -/
  | register {σ : Curating V} (slug : Bytes) (w : Draw V) {x : Ctx V} {e : Option Err}
      (h : (applyOp S.toSettings T D w σ.ctx ⟨w.now, .projectCreate slug⟩ false).result σ.disk =
        .ok (x, e)) :
      Step σ .registered { σ with
        disk := (applyOp S.toSettings T D w σ.ctx ⟨w.now, .projectCreate slug⟩ false).final σ.disk
        ctx := x }
  /-- A verdict of the maintenance review, which runs between two cycles. -/
  | review {σ : Curating V} (kind : OpKind) (now : Int) (w : Draw V) {x : Ctx V} {e : Option Err}
      (hp : σ.phase = .idle)
      (hk : (∃ id, kind = .keep id) ∨ ∃ id reason, kind = .setDeprecated id reason)
      (h : (applyOp S.toSettings T D w σ.ctx ⟨now, kind⟩ true).result σ.disk = .ok (x, e)) :
      Step σ .reviewed { σ with
        disk := (applyOp S.toSettings T D w σ.ctx ⟨now, kind⟩ true).final σ.disk
        ctx := x }
  | sync {σ : Curating V} (F : JournalFaults) : Step σ .synced { σ with ctx := σ.ctx.synced F }
  /-- The host works on the knowledge, or finds it unusable. -/
  | learn {σ : Curating V} (knowledge : Option Knowledge) :
      Step σ .learnt { σ with ctx := σ.ctx.withKnowledge knowledge }
  | arrive {σ : Curating V} (ts : List Turn) {s : QueueSlots}
      (h : enqueueAll ts σ.slots = some s) : Step σ (.arrived ts) { σ with slots := s }
  | take {σ : Curating V} (force : Bool) (now : Int) (hp : σ.phase = .idle)
      (hr : σ.ctx.receipt = false) (hq : σ.slots.queue.turns ≠ []) :
      Step σ (.took (takeTurns force S.turnBatch σ.slots.queue).1) { σ with
        slots := { σ.slots with queue := (takeTurns force S.turnBatch σ.slots.queue).2 }
        phase := .taken now (takeTurns force S.turnBatch σ.slots.queue).1 }
  | show_ {σ : Curating V} {now : Int} {batch : List Turn} {text : Bytes} {n : Nat} {s : QueueSlots}
      (hp : σ.phase = .taken now batch)
      (ht : curationTranscript tokens S.transcriptTokens batch = .ok (text, n))
      (hs : restoreTurns (batch.drop n) σ.slots = some s) :
      Step σ (.shown (batch.take n) (batch.drop n) text)
        { σ with slots := s, phase := .shown ⟨now, batch.take n, text, []⟩ }
  /-- The transcript cannot be made, or the turns left out cannot be given back. -/
  | showFail {σ : Curating V} {now : Int} {batch : List Turn} (hp : σ.phase = .taken now batch)
      (ht : ∀ text n, curationTranscript tokens S.transcriptTokens batch = .ok (text, n) →
        restoreTurns (batch.drop n) σ.slots = none) :
      Step σ (giveBack batch σ.slots).2
        { σ with slots := (giveBack batch σ.slots).1, phase := .idle }
  /-- Records related to the turns are looked up. -/
  | collect {σ : Curating V} {cy : Cycle} (rs : List Record) (hp : σ.phase = .shown cy)
      (hrs : ∀ r ∈ rs, r ∈ σ.ctx.memory.table.recs) :
      Step σ (.cloned (newHandles cy.handles rs))
        { σ with phase := .shown { cy with handles := cy.handles ++ newHandles cy.handles rs } }
  /-- The model has answered: of the records `handles` were shown to it. The receipt is written. -/
  | begin {σ : Curating V} {cy : Cycle} (handles : List Record) (cops : List Cop)
      (hp : σ.phase = .shown cy) (hh : List.Subperm handles cy.handles)
      (hc : ∀ c ∈ cops, c.fits handles.length = true) (hr : σ.ctx.receipt = false)
      (hj : σ.ctx.journal.poisoned = false)
      (hs : (cy.batch.map (·.sourceId)).Nodup ∧ ∀ t ∈ cy.batch, uuidValid t.sourceId = true) :
      Step σ (.begun (cy.batch.map (·.sourceId))) { σ with
        ctx := σ.ctx.withReceipt true
        phase := .acting { cy with handles } (cy.batch.map (·.sourceId)) cops [] 0 }
  /-- A proposal that is no operation. -/
  | skip {σ : Curating V} {cy : Cycle} {sources : List Bytes} {cop : Cop} {cops : List Cop}
      {seen seen' : List Proposal} {processed : Nat} {quorum : List Waiting} (dup : Bool) (id : Uuid)
      (hp : σ.phase = .acting cy sources (cop :: cops) seen processed)
      (hplan : cy.plan S dup id σ.quorum seen processed cop = (none, quorum, seen')) :
      Step σ .skipped
        (σ.skip quorum (.acting cy sources cops seen' (cop.counts S processed)))
  /-- A proposal that goes through the funnel. -/
  | act {σ : Curating V} {cy : Cycle} {sources : List Bytes} {cop : Cop} {cops : List Cop}
      {seen seen' : List Proposal} {processed : Nat} {quorum : List Waiting} {op : Op} (dup : Bool)
      (id : Uuid) (w : Draw V) {x : Ctx V} {e : Option Err}
      (hp : σ.phase = .acting cy sources (cop :: cops) seen processed)
      (hplan : cy.plan S dup id σ.quorum seen processed cop = (some op, quorum, seen'))
      (h : (applyOp S.toSettings T D w σ.ctx op true).result σ.disk = .ok (x, e)) :
      Step σ (if e = none then op.event σ.ctx.memory.table else .skipped)
        { σ with
          disk := (applyOp S.toSettings T D w σ.ctx op true).final σ.disk
          ctx := x, quorum
          phase := .acting cy sources cops seen' (cop.counts S processed) }
  /-- The batch is acknowledged and the receipt removed. -/
  | finish {σ : Curating V} {cy : Cycle} {sources : List Bytes} {seen : List Proposal}
      {processed : Nat} (uuid : Uuid) (hp : σ.phase = .acting cy sources [] seen processed)
      (h : (markCurated sources uuid).result σ.disk = .ok ()) :
      Step σ (.acknowledged sources) { σ with
        disk := (markCurated sources uuid).final σ.disk
        ctx := σ.ctx.withReceipt false
        slots := { σ.slots with queue := releaseTurns cy.batch σ.slots.queue }
        phase := .idle }
  /-- The cycle fails after the transcript was made; a receipt that is written stays. -/
  | fail {σ : Curating V} {cy : Cycle} (receipt : Bool)
      (hp : σ.phase = .shown cy ∨ ∃ sources cops seen n, σ.phase = .acting cy sources cops seen n)
      (hr : σ.ctx.receipt = true → receipt = true) :
      Step σ (giveBack cy.batch σ.slots).2 { σ with
        ctx := σ.ctx.withReceipt receipt
        slots := (giveBack cy.batch σ.slots).1
        phase := .idle }

end

end Asper
