import Asper.Curator.Queue

/-! # The counters of the queue

`asper_ctx` does not add up the sizes of its turns: it keeps `turns_bytes`, `turns_inflight` and
`turns_inflight_bytes`, and every function that moves a turn changes them (`turn_queue.c`,
`curator.c`). `TurnArray` has these fields as the code has them, in `size_t` arithmetic, and
`Owners.act` is one critical section of an enqueuer or of a cycle. -/

namespace Asper

open Durable (Bytes)

/-- `strlen(text) + 1`. -/
def Turn.bytes (t : Turn) : Nat := t.text.length + 1

/-- The fields of the queue. No code reads `wrapped`, which tells that a subtraction went below
zero. -/
structure TurnArray where
  turns : List Turn
  cap : Nat
  bytes : Nat
  inflight : Nat
  inflightBytes : Nat
  wrapped : Bool
  deriving DecidableEq, Repr

structure QueueSettings where
  eventQueueMax : Int
  turnBatch : Int

/-- `asper_turn_queue_limit`. -/
def QueueSettings.limit (S : QueueSettings) : Nat :=
  if S.eventQueueMax < 1 then 1 else min S.eventQueueMax.toNat queueEvents

namespace TurnArray

def empty : TurnArray := ⟨[], 0, 0, 0, 0, false⟩

/-- The turns that keep a slot. -/
def used (a : TurnArray) : Nat := a.turns.length + a.inflight

/-- `ASPER_QUEUE_BYTES - c->turns_bytes - c->turns_inflight_bytes`. -/
def spare (a : TurnArray) : Nat := sizeSub (sizeSub queueBytes a.bytes) a.inflightBytes

/-- The subtractions of `spare` are made. -/
def spareRead (a : TurnArray) : TurnArray :=
  { a with wrapped := a.wrapped || queueBytes < a.bytes ||
      sizeSub queueBytes a.bytes < a.inflightBytes }

/-- The condition of `room_for`, which `asper_enqueue_turn` checks once more under the lock. The
bytes are looked at only while there is a turn to spare. -/
def roomFor (S : QueueSettings) (a : TurnArray) (bytes : Nat) : Bool × TurnArray :=
  if a.used < S.limit then (bytes ≤ a.spare, a.spareRead) else (false, a)

/-- The critical section of `asper_enqueue_turn`; `grows` is whether `realloc` finds memory. -/
def enqueue (S : QueueSettings) (grows : Bool) (t : Turn) (a : TurnArray) :
    Except Err Unit × TurnArray :=
  let r := a.roomFor S t.bytes
  let cap := growSlots a.cap a.used
  if r.1 = false then (.error .busy, r.2)
  else if a.used = a.cap ∧ grows = false then (.error .nomem, r.2)
  else (.ok (), { r.2 with
    turns := a.turns ++ [t], cap := cap, bytes := sizeAdd a.bytes t.bytes })

/-- The bytes of one turn move to those in flight. -/
def holdBytes (a : TurnArray) (t : Turn) : TurnArray :=
  { a with
    bytes := sizeSub a.bytes t.bytes
    inflightBytes := sizeAdd a.inflightBytes t.bytes
    wrapped := a.wrapped || a.bytes < t.bytes }

/-- `take_turns`; `alloc` is whether `malloc` finds memory for the batch. -/
def take (S : QueueSettings) (force alloc : Bool) (a : TurnArray) : List Turn × TurnArray :=
  let batch := nextBatch force S.turnBatch a.turns
  if batch = [] ∨ alloc = false then ([], a)
  else
    let a := batch.foldl holdBytes a
    (batch, { a with
      inflight := sizeAdd a.inflight batch.length
      turns := a.turns.drop batch.length })

/-- The bytes of one turn move back. -/
def restoreBytes (a : TurnArray) (t : Turn) : TurnArray :=
  { a with
    bytes := sizeAdd a.bytes t.bytes
    inflightBytes := sizeSub a.inflightBytes t.bytes
    wrapped := a.wrapped || a.inflightBytes < t.bytes }

/-- `restore_turns`. -/
def restore (ts : List Turn) (a : TurnArray) : Option TurnArray :=
  if ts = [] then some a
  else if a.inflight < ts.length ∨ a.cap < a.turns.length ∨ a.cap - a.turns.length < ts.length then
    none
  else
    some <| ts.foldl restoreBytes { a with
      turns := ts ++ a.turns
      inflight := sizeSub a.inflight ts.length
      wrapped := a.wrapped || a.inflight < ts.length }

/-- One turn of a cycle is dropped. -/
def releaseTurn (a : TurnArray) (t : Turn) : TurnArray :=
  { a with
    inflight := sizeSub a.inflight 1
    inflightBytes := sizeSub a.inflightBytes t.bytes
    wrapped := a.wrapped || a.inflight < 1 || a.inflightBytes < t.bytes }

/-- `asper_turn_queue_release`. -/
def release (ts : List Turn) (a : TurnArray) : TurnArray := ts.foldl releaseTurn a

/-- The end of a cycle that failed. Turns that went back have no text left to release. -/
def giveBack (ts : List Turn) (a : TurnArray) : TurnArray :=
  match a.restore ts with
  | some a => a
  | none => a.release ts

end TurnArray

/-! ## Several owners -/

/-- The queue and the batches of the cycles that run. -/
structure Owners where
  array : TurnArray
  held : List (List Turn)

/-- What holders of the lock do. A cycle is named by its place in `held`. -/
inductive QueueAct where
  /-- Some caller asks for room. -/
  | room (bytes : Nat)
  | enqueue (t : Turn) (grows : Bool)
  | take (force alloc : Bool)
  /-- Only the first turns of a batch fit into the transcript. -/
  | shorten (i included : Nat)
  | succeed (i : Nat)
  | fail (i : Nat)

namespace Owners

def start : Owners := ⟨.empty, []⟩

/-- `asper_enqueue_turn` with a text and an id that are in order. -/
def enqueueTurn (S : QueueSettings) (t : Turn) (grows : Bool) (σ : Owners) : Owners :=
  if queueBytes < t.bytes then σ
  else { σ with array := (σ.array.enqueue S grows t).2 }

/-- A cycle starts, unless it gets no turn. -/
def takeTurns (S : QueueSettings) (force alloc : Bool) (σ : Owners) : Owners :=
  let r := σ.array.take S force alloc
  if r.1 = [] then { σ with array := r.2 } else ⟨r.2, σ.held ++ [r.1]⟩

/-- A cycle hands back what it cannot show. -/
def shortenBatch (i included : Nat) (σ : Owners) : Owners :=
  match σ.held[i]? with
  | none => σ
  | some ts => match σ.array.restore (ts.drop included) with
    | some a => ⟨a, σ.held.set i (ts.take included)⟩
    | none => ⟨σ.array.giveBack ts, σ.held.eraseIdx i⟩

/-- A cycle ends. -/
def finish (ok : Bool) (i : Nat) (σ : Owners) : Owners :=
  match σ.held[i]? with
  | none => σ
  | some ts => ⟨if ok then σ.array.release ts else σ.array.giveBack ts, σ.held.eraseIdx i⟩

def act (S : QueueSettings) (σ : Owners) : QueueAct → Owners
  | .room bytes => { σ with array := (σ.array.roomFor S bytes).2 }
  | .enqueue t grows => σ.enqueueTurn S t grows
  | .take force alloc => σ.takeTurns S force alloc
  | .shorten i included => σ.shortenBatch i included
  | .succeed i => σ.finish true i
  | .fail i => σ.finish false i

end Owners

end Asper
