import Asper.Base.Files
import Asper.Lib.Lines
import Asper.Source.Paths

/-! # Compaction as a transaction of several files

Before the files of the store are compacted a marker lists them with the digests of their backups
(`store_transaction.c`). `compactRecover` undoes a compaction that was not committed: it checks every
backup before it restores any file, and keeps the backups until the marker is gone. -/

namespace Asper

open Durable

/-! ## Files -/

/-- The text of a checked file, which is one frame. -/
def checkedText (D : Digest) (limit : Nat) (s : Bytes) : Except Err Bytes :=
  if limit + 512 < s.length then .error .limit
  else match frameRead D s with
    | .error .notFound => .error .parse
    | .error e => .error e
    | .ok (event, rest) =>
      if event.sequence = 1 ∧ event.at_ = 0 ∧ event.pinned = false ∧ event.kind = .diagnostic ∧
          event.objectRef = [] ∧ rest = [] ∧ event.text.length ≤ limit then .ok event.text
      else .error .parse

/-- `asper_store_file_read` of a checked file. -/
def storeFileReadChecked (D : Digest) (p : Path) (limit : Nat) : Io Bytes := do
  let s ← osBlobOpen p
  Act.lift (checkedText D limit s)

/-- `asper_store_file_copy` without a destination, which checks a file. -/
def storeFileVerify (D : Digest) (src : Path) (expected : Bytes) : Io Unit := do
  let data ← osBlobOpen src
  require (data.length ≤ storeFileMax) .limit
  require (hexDigest D data = expected) .parse

/-- `asper_store_file_copy`: the copy is visible only when the whole file has the digest. -/
def storeFileCopy (D : Digest) (src dst : Path) (expected : Bytes) (uuid : Uuid) : Io Unit := do
  let data ← osBlobOpen src
  require (data.length ≤ storeFileMax) .limit
  osBlobCreate (temporaryFile dst uuid) data
  match ← (do
      require (hexDigest D data = expected) .parse
      osFileReplace (temporaryFile dst uuid) dst : Io Unit).attempt with
  | .ok _ => pure ()
  | .error e => do
    ignore (osRemoveFile (temporaryFile dst uuid))
    Act.fail e

/-! ## The marker -/

def compactMarker : Path := [ascii "compact.pending"]

def markerMax : Nat := 1024 * 1024

def maxFiles : Nat := 4096

/-- A file of the transaction: its name below the root, the digest of its backup and whether it was
there. -/
structure CompactRow where
  rel : Bytes
  hash : Bytes
  existed : Bool
  deriving DecidableEq

/-- `relative_valid`. -/
def relativeValid (rel : Bytes) : Bool :=
  rel = ascii "identity.xcdn" ∨ rel = ascii "context.xcdn" ∨ rel = ascii "journal.xcdn" ∨
    (rel.take 9 = ascii "projects/" ∧ 14 < rel.length ∧
      rel.drop (rel.length - 5) = ascii ".xcdn" ∧
      slugValid ((rel.drop 9).take (rel.length - 14)) = true)

/-- The row of a line, none if it is damaged. -/
def compactRow (text : Bytes) : Option CompactRow :=
  if text.head? = some 69 ∧ 68 ≤ text.length ∧ text[1]? = some 32 ∧ text[66]? = some 32 then
    if ((text.drop 2).take 64).all isLowerHex = true ∧ relativeValid (text.drop 67) = true then
      some ⟨text.drop 67, (text.drop 2).take 64, true⟩
    else none
  else if text.take 4 = ascii "M - " ∧ relativeValid (text.drop 4) = true then
    some ⟨text.drop 4, [], false⟩
  else none

/-- One line after another; a file is listed once. -/
def compactRows (rows : List CompactRow) : List Bytes → Except Err (List CompactRow)
  | [] => .ok rows
  | text :: rest =>
    if maxFiles ≤ rows.length then .error .parse
    else match compactRow text with
      | none => .error .parse
      | some row =>
        if rows.any (·.rel = row.rel) then .error .parse else compactRows (rows ++ [row]) rest

/-- `parse`. Each line ends in a newline, and there is one at least. -/
def compactParse (text : Bytes) : Except Err (List CompactRow) :=
  match compactRows [] (splitRows text).1 with
  | .error e => .error e
  | .ok rows => if (splitRows text).2 ≠ [] ∨ rows = [] then .error .parse else .ok rows

/-! ## Recovery -/

def CompactRow.target (row : CompactRow) : Path := resolve row.rel

/-- `backup_path`. -/
def backupPath (target : Path) : Path := ext target (ascii ".compact.bak")

def CompactRow.backup (row : CompactRow) : Path := backupPath row.target

/-- `restore` in the first pass. -/
def restoreCheck (D : Digest) (row : CompactRow) : Io Unit :=
  if row.existed then storeFileVerify D row.backup row.hash else pure ()

/-- `restore` in the second pass; `uuids` names the temporary copies. -/
def restoreApply (D : Digest) (uuids : Bytes → Uuid) (row : CompactRow) : Io Unit :=
  if row.existed then storeFileCopy D row.backup row.target row.hash (uuids row.rel)
  else orElse (osRemoveFile row.target) .notFound ()

/-- One row after another, until one fails. -/
def eachRow (f : CompactRow → Io Unit) : List CompactRow → Io Unit
  | [] => pure ()
  | row :: rows => do
    f row
    eachRow f rows

/-- `cleanup`. -/
def compactCleanup (row : CompactRow) : Io Unit := ignore (osRemoveFile row.backup)

/-- The rows of the marker. -/
def markerRows (D : Digest) : Io (List CompactRow) := do
  let text ← storeFileReadChecked D compactMarker markerMax
  Act.lift (compactParse text)

/-- `asper_compact_recover` when there is a marker. -/
def compactRestore (D : Digest) (uuids : Bytes → Uuid) (rows : List CompactRow) : Io Unit := do
  eachRow (restoreCheck D) rows
  eachRow (restoreApply D uuids) rows
  osRemoveFile compactMarker
  eachRow compactCleanup rows

/-- `asper_compact_recover`. -/
def compactRecover (D : Digest) (uuids : Bytes → Uuid) : Io Unit := do
  match ← (storeFileReadChecked D compactMarker markerMax).attempt with
  | .error .notFound => pure ()
  | .error e => Act.fail e
  | .ok text => do
    let rows ← Act.lift (compactParse text)
    compactRestore D uuids rows

end Asper
