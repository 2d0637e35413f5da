import Asper.Event.Log
import Asper.Event.Proof.Frame
import Asper.Lib.Runs

/-! # An event log and what may happen to its index

`IndexedLog.Step` is one step of a log whose index is not to be relied on: an append, which may fail
at any of its writes, a call that reads the log, which may be cut short while it repairs the index,
and damage to the index between two calls. -/

namespace Asper

open Durable

/-- Row `i` of an index. -/
def rowAt (index : Bytes) (i : Nat) : Bytes := (index.drop (8 + i * indexRecord)).take indexRecord

/-- The row is whole and its checksum is right. -/
def RowSealed (D : Digest) (row : Bytes) : Prop :=
  row.length = indexRecord ∧ D.sha (row.take 16) = row.drop 16

/-- The index that a rebuild writes for the log. -/
def scanIndex (D : Digest) (log : Bytes) : Bytes :=
  match scanLog D log.length ⟨indexMagic, 0, 0, false⟩ log with
  | .ok s => s.rows
  | .error _ => indexMagic

/-- What the callers of an append make sure of: all but the size of the text. -/
def Event.Appended (e : Event) : Prop := eventBytes < e.text.length ∨ e.Fields

/-- A call that reads the log. -/
inductive LogRead where
  | open_
  | event (seq : Nat)
  | head (seq : Nat)
  | page (query : Bytes) (after limit : Nat)

def LogRead.call (D : Digest) (path : Path) : LogRead → Io Unit
  | .open_ => do
    let _ ← filesOpen D path
    pure ()
  | .event seq => do
    let fs ← filesOpen D path
    let _ ← filesRead D path fs seq
    pure ()
  | .head seq => do
    let fs ← filesOpen D path
    let _ ← filesHead D path fs seq
    pure ()
  | .page query after limit => do
    let _ ← eventLogPage D path query after limit
    pure ()

inductive LogLabel where
  /-- An append, and the event as it was acknowledged. -/
  | append (e : Event) (r : Option Event)
  | other

section
variable (D : Digest) (q : Path) (n : Bytes)

inductive IndexedLog.Step (d : Disk) : LogLabel → Disk → Prop where
  | append {e e' : Event} (he : e.Appended)
      (h : (eventLogAppend D (q ++ [n]) e).result d = .ok e') :
      Step d (.append e (some e')) ((eventLogAppend D (q ++ [n]) e).final d)
  /-- The log has the whole frame, and the write of the index after it fails or is cut. -/
  | unindexed {e e' : Event} {cut : Option (Write × Write)} {d' : Disk} (he : e.Appended)
      (h : (eventLogAppend D (q ++ [n]) e).result d = .ok e')
      (hc : Crash ((eventLogAppend D (q ++ [n]) e).writes d) d cut d')
      (hf : d' (q ++ [n]) = (eventLogAppend D (q ++ [n]) e).final d (q ++ [n])) :
      Step d (.append e (some e')) d'
  /-- The append fails, whatever of its writes landed. -/
  | broken {e : Event} {cut : Option (Write × Write)} {d' : Disk} (he : e.Appended)
      (hc : Crash ((eventLogAppend D (q ++ [n]) e).writes d) d cut d') :
      Step d (.append e none) d'
  /-- A read, to its end or to any point of the repair of the index. -/
  | read {cut : Option (Write × Write)} {d' : Disk} (r : LogRead)
      (hc : Crash ((r.call D (q ++ [n])).writes d) d cut d') : Step d .other d'
  /-- The index is deleted, truncated or overwritten. A row that still passes its checksum is one
  that a rebuild would write. -/
  | damage (x : Option Bytes)
      (hx : ∀ b ∈ x, ∀ i, RowSealed D (rowAt b i) →
        ∃ j, RowSealed D (rowAt (scanIndex D (d.data (q ++ [n]))) j) ∧
          rowAt b i = rowAt (scanIndex D (d.data (q ++ [n]))) j) :
      Step d .other (d.set (indexPath (q ++ [n])) (x.map .file))
  /-- Other files change. -/
  | elsewhere (d' : Disk) (hdir : d'.find q = d.find q)
      (h : ∀ p ∈ [q ++ [n], indexPath (q ++ [n]), indexTmp (q ++ [n])], d' p = d p) :
      Step d .other d'

/-- The directory has no log yet. -/
structure NewLog (d : Disk) : Prop where
  dir : d.find q = .found .dir
  log : d (q ++ [n]) = none
  index : d (indexPath (q ++ [n])) = none
  tmp : d (indexTmp (q ++ [n])) = none

/-- The log after the appends of `es`, when nothing fails. -/
def appendAll (path : Path) (es : List Event) (d : Disk) : Disk :=
  es.foldl (fun d e => (eventLogAppend D path e).final d) d

end

end Asper
