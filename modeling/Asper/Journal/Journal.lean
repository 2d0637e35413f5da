import Asper.Event.Index

/-! # The operation journal

The journal is a log of frames, each holding one operation (`journal.c`). `journalReplay` applies
the operations of the file and truncates a cut frame at its end; `journalAppend` writes one
operation, with every way the writing of it can fail (`JournalFaults`). What an operation is, how
it is spelled and what it does to the store is an `OpCodec`. -/

namespace Asper

open Durable

/-- Operations on a store: their time, their text and their effect. -/
structure OpCodec (σ Op : Type) where
  at_ : Op → Int
  serialize : Op → Except Err Bytes
  decode : Bytes → Except Err Op
  apply : σ → Op → Except Err σ

section
variable {σ Op : Type} (C : OpCodec σ Op)

/-! ## Replay -/

/-- Replay reports every error but a failed allocation as damage. -/
def replayErr : Err → Err
  | .nomem => .nomem
  | _ => .parse

/-- Apply the operation of frame `sequence` of the journal. -/
def replayFrame (s : σ) (event : Event) (sequence : Nat) : Except Err σ :=
  if event.sequence ≠ sequence ∨ event.kind ≠ .diagnostic ∨ event.pinned = true ∨
      event.objectRef ≠ [] then .error .parse
  else match C.decode event.text with
    | .error e => .error (replayErr e)
    | .ok op =>
      if C.at_ op ≠ event.at_ then .error .parse
      else match C.apply s op with
        | .error e => .error (replayErr e)
        | .ok s => .ok s

/-- Apply the operations of the frames from sequence number `n + 1` on. -/
def replayAll : σ → Nat → List Event → Except Err σ
  | s, _, [] => .ok s
  | s, n, e :: es => (replayFrame C s e (n + 1)).bind fun s => replayAll s (n + 1) es

/-- A replay under way: the store, the number of frames, the end of the last one, and whether a
cut frame follows. -/
structure Replay (σ : Type) where
  store : σ
  count : Nat
  good : Nat
  torn : Bool

/-- Replay the frames of `s`, which stands at `acc.good` in the journal. -/
def replayFrom (D : Digest) : Nat → Replay σ → Bytes → Except Err (Replay σ)
  | 0, acc, _ => .ok acc
  | fuel + 1, acc, s =>
    if s.isEmpty then .ok acc
    else match frameRead D s with
      | .error .notFound => .ok { acc with torn := true }
      | .error e => .error e
      | .ok (event, rest) =>
        match replayFrame C acc.store event (acc.count + 1) with
        | .error e => .error e
        | .ok st =>
          replayFrom D fuel ⟨st, acc.count + 1, acc.good + (s.length - rest.length), false⟩ rest

/-- The bytes of a regular file, where any failure to open it is an I/O error. -/
def readable (d : Disk) (p : Path) : Except Err Bytes :=
  match blob d p with
  | .ok b => .ok b
  | .error _ => .error .io

def osOpenRead (p : Path) : Io Bytes := Act.read (readable · p)

/-- Discard a cut frame and make the truncation durable. -/
def discardTail (path : Path) (r : Replay σ) : Io Unit :=
  if r.torn then do
    osTruncate path r.good
    osAppend path []
  else pure ()

/-- Replay the journal over `s`: the store and the number of operations. -/
def journalReplay (D : Digest) (path : Path) (s : σ) : Io (σ × Nat) := do
  match ← (osFileSize path).attempt with
  | .error .notFound => pure (s, 0)
  | .error e => Act.fail e
  | .ok size => do
    require (size ≤ eventLogBytes) .limit
    let log ← osOpenRead path
    let r ← Act.lift (replayFrom C D log.length ⟨s, 0, 0, false⟩ log)
    discardTail path r
    pure (r.store, r.count)

/-! ## Append -/

/-- The writer of the journal: the number of operations in the file, whether the outcome of a
write is unknown, and whether the file is open. -/
structure JournalState where
  ops : Nat
  poisoned : Bool
  isOpen : Bool
  deriving DecidableEq, Repr

/-- The writer after `asper_open`. -/
def JournalState.opened (ops : Nat) : JournalState := ⟨ops, false, true⟩

/-- What fails in one append. `write` is the number of bytes of the frame that reached the file
when its write or flush failed. -/
structure JournalFaults where
  nomem : Bool
  seek : Bool
  write : Option Nat
  sync : Bool
  truncate : Bool
  reopen : Bool
  deriving DecidableEq, Repr

def JournalFaults.none : JournalFaults := ⟨false, false, .none, false, false, false⟩

/-- Close the journal for good: what the file holds is not known. -/
def JournalState.poison (j : JournalState) : JournalState :=
  { j with poisoned := true, isOpen := false }

/-- Take a failed write back by truncating the file to `offset`. -/
def journalRollback (F : JournalFaults) (path : Path) (j : JournalState) (offset : Nat) :
    Io JournalState :=
  if F.truncate then pure j.poison
  else do
    Act.emit (.truncate path offset)
    pure (if F.reopen then j.poison else j)

/-- The frame of operation `op`. -/
def journalEvent (j : JournalState) (op : Op) (text : Bytes) (id : Uuid) : Event :=
  ⟨j.ops + 1, C.at_ op, .diagnostic, false, id.val, [], text⟩

/-- The bytes at `path`, whose end is the offset of the next frame. -/
def journalBytes (path : Path) : Io Nat := Act.look fun d => (d.data path).length

/-- Write the frame of an operation, and sync it when `sync` is set. -/
def journalWrite (F : JournalFaults) (D : Digest) (path : Path) (j : JournalState) (sync : Bool)
    (offset : Nat) (event : Event) : Io (JournalState × Option Err) :=
  match frameWrite D event with
  | .error e => do
    let j ← journalRollback F path j offset
    pure (j, some e)
  | .ok frame => match F.write with
    | some k => do
      Act.emit (.append path (frame.take k))
      let j ← journalRollback F path j offset
      pure (j, some .io)
    | none => do
      Act.emit (.append path frame)
      pure (if sync && F.sync then (j.poison, some .io) else ({ j with ops := j.ops + 1 }, none))

/-- Append `op` to the journal: the writer after it, and the error if it failed. -/
def journalAppend (F : JournalFaults) (D : Digest) (path : Path) (j : JournalState) (op : Op)
    (id : Uuid) (sync : Bool) : Io (JournalState × Option Err) :=
  if F.nomem then pure (j, some .nomem)
  else match C.serialize op with
    | .error e => pure (j, some e)
    | .ok text => do
      let offset ← journalBytes path
      if j.poisoned = true ∨ j.isOpen = false ∨ F.seek = true then pure (j, some .io)
      else if eventBytes < text.length ∨ eventLogBytes < offset + text.length + 512 then
        pure (j, some .limit)
      else journalWrite F D path j sync offset (journalEvent C j op text id)

/-- `asper_journal_sync`. -/
def journalSync (F : JournalFaults) (j : JournalState) : JournalState × Option Err :=
  if j.poisoned = true ∨ j.isOpen = false ∨ F.sync = true then (j.poison, some .io) else (j, none)

end

end Asper
