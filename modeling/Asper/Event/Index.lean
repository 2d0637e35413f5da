import Asper.Event.Frame
import Asper.Base.Os

/-! # The offset index of an event log

`filesOpen` opens a log with its index (`event_index.c`). The index is trusted when its last row
ends at the end of the log, and is rebuilt from the frames otherwise; a frame cut at the end of
the log is truncated on the way. `filesRead` and `filesHead` read one event by its row. -/

namespace Asper

open Durable

def indexMagic : Bytes := ascii "AEIDX2" ++ [13, 10]

/-- The bytes of one row. -/
def indexRecord : Nat := 48

/-- Eight bytes, least significant first. -/
def put64 (n : Nat) : Bytes := (List.range 8).map fun i => UInt8.ofNat (n / 256 ^ i % 256)

def get64 (bs : Bytes) : Nat := bs.foldr (fun b n => 256 * n + b.toNat) 0

/-- The row of a frame at `[start, stop)` of the log. -/
def indexRow (D : Digest) (start stop : Nat) : Bytes :=
  put64 start ++ put64 stop ++ D.sha (put64 start ++ put64 stop)

/-- An opened log: its bytes, the bytes of its index and the number of rows. -/
structure EventFiles where
  log : Bytes
  index : Bytes
  count : Nat
  deriving DecidableEq, Repr

/-- The extent of event `seq` in the log, none when its row is missing or damaged. -/
def indexRead (D : Digest) (fs : EventFiles) (seq : Nat) : Option (Nat × Nat) :=
  let row := (fs.index.drop (8 + (seq - 1) * indexRecord)).take indexRecord
  let a := get64 (row.take 8)
  let b := get64 ((row.drop 8).take 8)
  if seq = 0 ∨ fs.count < seq ∨ row.length ≠ indexRecord then none
  else if D.sha (row.take 16) = row.drop 16 ∧ a < b ∧ b ≤ fs.log.length then some (a, b)
  else none

/-- What a scan of the log found: the rows of the whole frames, the end of the last one, their
number, and whether a cut frame follows. -/
structure Scan where
  rows : Bytes
  good : Nat
  count : Nat
  torn : Bool
  deriving DecidableEq, Repr

/-- Read frames off `s`, which stands at `acc.good` in the log. -/
def scanLog (D : Digest) : Nat → Scan → Bytes → Except Err Scan
  | 0, acc, _ => .ok acc
  | fuel + 1, acc, s =>
    if s.isEmpty then .ok acc
    else match frameRead D s with
      | .error .notFound => .ok { acc with torn := true }
      | .error e => .error e
      | .ok (e, rest) =>
        let stop := acc.good + (s.length - rest.length)
        if e.sequence ≠ acc.count + 1 then .error .parse
        else scanLog D fuel
          ⟨acc.rows ++ indexRow D acc.good stop, stop, acc.count + 1, false⟩ rest

def indexPath (path : Path) : Path := ext path (ascii ".idx")

def indexTmp (path : Path) : Path := ext (indexPath path) (ascii ".tmp")

/-- Scan the log into the new index, cut the log after its last whole frame, and put the index
in place. -/
def rebuildInto (D : Digest) (path : Path) (log : Bytes) : Io EventFiles := do
  let s ← Act.lift (scanLog D log.length ⟨indexMagic, 0, 0, false⟩ log)
  if s.torn then osTruncate path s.good
  osAppend (indexTmp path) s.rows
  osFileReplace (indexTmp path) (indexPath path)
  pure ⟨log.take s.good, s.rows, s.count⟩

/-- Write the index anew from the frames of `log`. -/
def rebuild (D : Digest) (path : Path) (log : Bytes) : Io EventFiles := do
  osWriteFile (indexTmp path) []
  match ← (rebuildInto D path log).attempt with
  | .ok fs => pure fs
  | .error e => do
    ignore (osRemoveFile (indexTmp path))
    Act.fail e

/-- Whether the index `index` can be used as it is, and with how many rows. -/
def indexUsable (D : Digest) (log index : Bytes) : Option Nat :=
  if index.length < 8 ∨ eventLogBytes < index.length ∨ (index.length - 8) % indexRecord ≠ 0 then none
  else
    let count := (index.length - 8) / indexRecord
    if index.take 8 ≠ indexMagic then none
    else if count = 0 ∧ log = [] then some 0
    else match indexRead D ⟨log, index, count⟩ count with
      | none => none
      | some (a, b) =>
        if b ≠ log.length then none
        else match frameRead D (log.drop a) with
          | .error _ => none
          | .ok (e, rest) => if e.sequence = count ∧ log.length - rest.length = b then some count
            else none

/-- Take the index as it is or write it anew. -/
def filesUse (D : Digest) (path : Path) (log index : Bytes) : Io EventFiles :=
  match indexUsable D log index with
  | some count => pure ⟨log, index, count⟩
  | none => rebuild D path log

def filesOpen (D : Digest) (path : Path) : Io EventFiles := do
  let log ← osBlobOpen path
  require (log.length ≤ eventLogBytes) .limit
  let index ← orElse (osBlobOpen (indexPath path)) .notFound []
  filesUse D path log index

/-- The row of event `seq`, after a rebuild when it is damaged. -/
def filesRow (D : Digest) (path : Path) (fs : EventFiles) (seq : Nat) :
    Io (EventFiles × Nat × Nat) := do
  require (0 < seq ∧ seq ≤ fs.count) .notFound
  match indexRead D fs seq with
  | some (a, b) => pure (fs, a, b)
  | none => do
    let fs ← rebuild D path fs.log
    match indexRead D fs seq with
    | some (a, b) => pure (fs, a, b)
    | none => Act.fail .parse

/-- An indexed frame must be complete. -/
def indexedErr : Err → Err
  | .notFound => .parse
  | e => e

def filesRead (D : Digest) (path : Path) (fs : EventFiles) (seq : Nat) :
    Io (Event × EventFiles) := do
  let (fs, a, b) ← filesRow D path fs seq
  match frameRead D (fs.log.drop a) with
  | .error e => Act.fail (indexedErr e)
  | .ok (e, rest) =>
    if e.sequence ≠ seq ∨ fs.log.length - rest.length ≠ b then Act.fail .parse
    else pure (e, fs)

/-- Read the metadata of an event only. -/
def filesHead (D : Digest) (path : Path) (fs : EventFiles) (seq : Nat) :
    Io (Event × EventFiles) := do
  let (fs, a, b) ← filesRow D path fs seq
  match frameHead D (fs.log.drop a) with
  | .error e => Act.fail (indexedErr e)
  | .ok (h, rest) =>
    if h.event.sequence ≠ seq ∨
        fs.log.length - rest.length + h.objectBytes + h.textBytes + 1 ≠ b then Act.fail .parse
    else pure (h.event, fs)

end Asper
