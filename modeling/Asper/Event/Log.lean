import Asper.Event.Index

/-! # Appending events and reading pages of them

`eventLogAppend` writes the frame of the next event and its index row, `eventLogPage` reads the
events after a cursor (`event_log.c`). -/

namespace Asper

open Durable

/-- The index row of the frame appended to `fs`, which now ends at `stop`. Its failure is not
reported: the log is durable without it. -/
def appendIndexRow (D : Digest) (path : Path) (fs : EventFiles) (stop : Nat) : Io Unit :=
  if fs.count = 0 then
    ignore (osWriteFile (indexPath path) (indexMagic ++ indexRow D fs.log.length stop))
  else ignore (osAppend (indexPath path) (indexRow D fs.log.length stop))

def appendFrame (D : Digest) (path : Path) (fs : EventFiles) (event : Event) : Io Event :=
  match frameWrite D event with
  | .error e => do
    osAppend path []
    Act.fail e
  | .ok frame => do
    osAppend path frame
    appendIndexRow D path fs (fs.log.length + frame.length)
    pure event

/-- Append `event` under the next sequence number. -/
def eventLogAppend (D : Digest) (path : Path) (event : Event) : Io Event := do
  let fs ← orElse (filesOpen D path) .notFound ⟨[], [], 0⟩
  require (event.text.length ≤ eventBytes ∧
    fs.log.length + event.text.length + 512 ≤ eventLogBytes) .invalid
  appendFrame D path fs { event with sequence := fs.count + 1 }

/-- `strstr`. -/
def hasText (s query : Bytes) : Bool := s.tails.any (query.isPrefixOf ·)

/-- Read on from `cursor` until `limit` events match or the log ends. -/
def pageFrom (D : Digest) (path : Path) (query : Bytes) (limit : Nat) :
    Nat → EventFiles → Nat → List Event → Io (List Event × Nat)
  | 0, _, cursor, page => pure (page, cursor)
  | fuel + 1, fs, cursor, page => do
    if cursor < fs.count ∧ page.length < limit then do
      let (e, fs) ← filesRead D path fs (cursor + 1)
      if query ≠ [] ∧ hasText e.text query = false then
        pageFrom D path query limit fuel fs (cursor + 1) page
      else pageFrom D path query limit fuel fs (cursor + 1) (page ++ [e])
    else pure (page, cursor)

/-- The events after `after` that contain `query`, at most `limit`, and the next cursor. -/
def eventLogPage (D : Digest) (path : Path) (query : Bytes) (after limit : Nat) :
    Io (List Event × Nat) := do
  match ← (filesOpen D path).attempt with
  | .error .notFound => pure ([], after)
  | .error e => Act.fail e
  | .ok fs => pageFrom D path query limit (max fs.count fs.log.length) fs after []

end Asper
