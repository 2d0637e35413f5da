import Asper.Record.Calls
import Asper.Record.Marker
import Asper.Record.Snapshot

/-! # A compaction of the live store

`asper_store_compact` with the files it works on (`store_compact.c`, `store_transaction.c`,
`store_files.c`): `compactBegin` backs up the files and writes the marker, `compactBody` replaces
them, `compactCommit` removes the marker. What fails on the way is a parameter (`FileFaults`,
`CompactFaults`). -/

namespace Asper

open Durable

/-! ## Files that may fail -/

/-- What fails when a file is written, moved or removed. -/
structure FileFaults where
  /-- Writing the new copy of a file, or making it durable, fails when so many bytes of it are
  there. -/
  write : Path → Option Nat
  /-- Moving a file there, or removing it, fails. -/
  change : Path → Bool
  /-- The change is made, but the directory cannot be made durable. -/
  sync : Path → Bool

section
variable (F : FileFaults)

/-- The error of a directory that cannot be made durable. -/
def syncParent (path : Path) : Io Unit := if F.sync path then Act.fail .io else pure ()

/-- `os_file_replace`. -/
def osFileReplaceIn (src dst : Path) : Io Unit := do
  if F.change dst then Act.fail .io
  else do
    osFileReplace src dst
    syncParent F dst

/-- `os_remove_file`. -/
def osRemoveFileIn (path : Path) : Io Unit := do
  if F.change path then Act.fail .io
  else do
    osRemoveFile path
    syncParent F path

/-- What of the new copy of a file is written. -/
def FileFaults.landed (path : Path) (data : Bytes) : Bytes :=
  match F.write path with
  | none => data
  | some k => data.take k

/-- A new file for `path`, moved there when it is whole. Only a file this call made is removed. -/
def installFile (path : Path) (uuid : Uuid) (data : Bytes) : Io Unit := do
  osBlobCreate (temporaryFile path uuid) (F.landed path data)
  match ← (do
      require ((F.write path).isNone = true) .io
      osFileReplaceIn F (temporaryFile path uuid) path : Io Unit).attempt with
  | .ok _ => pure ()
  | .error e => do
    ignore (osRemoveFileIn F (temporaryFile path uuid))
    Act.fail e

/-- `asper_store_file_write` of an unchecked file. -/
def storeFileWriteIn (path : Path) (data : Bytes) (uuid : Uuid) : Io Unit := do
  require (data.length ≤ storeFileMax) .limit
  installFile F path uuid data

/-- `asper_store_file_write` of a checked file, whose frame has the id `id`. -/
def storeFileWriteChecked (D : Digest) (path : Path) (text : Bytes) (id uuid : Uuid) : Io Unit := do
  let data ← Act.lift (checkedFile D id text)
  installFile F path uuid data

/-- `asper_store_file_copy` of a file of any digest: the digest of what was copied. -/
def storeFileBackup (D : Digest) (src dst : Path) (uuid : Uuid) : Io Bytes := do
  let data ← osBlobOpen src
  require (data.length ≤ storeFileMax) .limit
  installFile F dst uuid data
  pure (hexDigest D data)

end

/-! ## The transaction -/

/-- What one compaction draws: the time and the ids of the frames, and the names of its temporary
files, those of a rollback among them. -/
structure CompactNames extends CompactDraw where
  tmp : Path → Uuid
  back : Bytes → Uuid

section
variable (F : FileFaults) (D : Digest) (w : CompactNames)

/-- Back up the file `rel`: its row in the marker. -/
def backupRow (rel : Bytes) : Io CompactRow := do
  match ← (storeFileBackup F D (resolve rel) (backupPath (resolve rel))
      (w.tmp (backupPath (resolve rel)))).attempt with
  | .ok hash => pure ⟨rel, hash, true⟩
  | .error .notFound => pure ⟨rel, [], false⟩
  | .error e => Act.fail e

def backupRows : List Bytes → Io (List CompactRow)
  | [] => pure []
  | rel :: rels => do
    let row ← backupRow F D w rel
    let rows ← backupRows rels
    pure (row :: rows)

/-- The backups, and last the marker. -/
def compactArm (rels : List Bytes) : Io Unit := do
  let rows ← backupRows F D w rels
  storeFileWriteChecked F D compactMarker (markerText rows) (w.ids (ascii "compact.pending"))
    (w.tmp compactMarker)

/-- `cleanup` of the files `rels`. -/
def cleanupAll : List Bytes → Io Unit
  | [] => pure ()
  | rel :: rels => do
    ignore (osRemoveFileIn F (backupPath (resolve rel)))
    cleanupAll rels

/-- `asper_compact_begin`: its error, and whether the store is poisoned, which a marker that is
there does. -/
def compactBegin (rels : List Bytes) : Io (Option Err × Bool) := do
  if rels = [] ∨ maxFiles < rels.length then pure (some .limit, false)
  else if ¬ ((∀ rel ∈ rels, relativeValid rel = true) ∧ rels.Nodup) then
    pure (some .invalid, false)
  else do
    let pending ← osFileExists compactMarker
    if pending then pure (some .io, true)
    else do
      match ← (compactArm F D w rels).attempt with
      | .ok _ => pure (none, false)
      | .error e => do
        let armed ← osFileExists compactMarker
        if armed then pure (some e, true)
        else do
          cleanupAll F rels
          pure (some e, false)

/-- `asper_compact_commit`. -/
def compactCommit (rels : List Bytes) : Io Unit := do
  osRemoveFileIn F compactMarker
  cleanupAll F rels

end

/-! ## The compaction -/

/-- What else fails in a compaction: the checkpoints of the store, opening the journal again after
it was replaced or rolled back, and saving the manifest. -/
structure CompactFaults extends FileFaults where
  checkpoint : Nat → Option Err
  reopen : Bool
  reopenBack : Bool
  manifest : Option Err

def identityFile : Path := [ascii "identity.xcdn"]

def contextFile : Path := [ascii "context.xcdn"]

/-- The name of the file of a project below the root. -/
def projectRel (slug : Bytes) : Bytes := ascii "projects/" ++ slug ++ ascii ".xcdn"

def projectFile (slug : Bytes) : Path := [ascii "projects", slug ++ ascii ".xcdn"]

/-- The files of a transaction. -/
def compactRels (ps : Projects) : List Bytes :=
  ascii "identity.xcdn" :: ascii "context.xcdn" :: ascii "journal.xcdn" :: ps.slugs.map projectRel

/-- Register the projects of the records, until one cannot be. -/
def registerAll : Projects → List Record → Projects × Option Err
  | ps, [] => (ps, none)
  | ps, r :: rs =>
    match registerRecord ps r with
    | .error e => (ps, some e)
    | .ok ps => registerAll ps rs

section
variable {V : Type} (F : CompactFaults) (X : XcdnText) (D : Digest) (w : CompactNames)

/-- `checkpoint`. -/
def checkpoint (stage : Nat) : Io Unit :=
  match F.checkpoint stage with
  | none => pure ()
  | some e => Act.fail e

/-- Replace the files of the projects. -/
def writeProjects (rs : List Record) : List Bytes → Io Unit
  | [] => pure ()
  | slug :: slugs => do
    storeFileWriteChecked F.toFileFaults D (projectFile slug)
      (sectionText X (rs.filter fun r => r.section_ = .project ∧ r.project = some slug))
      (w.ids slug) (w.tmp (projectFile slug))
    writeProjects rs slugs

/-- Replace the files with the records `rs`, and the journal with an empty one. -/
def compactBody (ps : Projects) (rs : List Record) : Io Unit := do
  checkpoint F 1
  require (rs.all (hasFile ps) = true) .invalid
  storeFileWriteChecked F.toFileFaults D identityFile
    (sectionText X (rs.filter (·.section_ = .identity))) (w.ids (ascii "identity"))
    (w.tmp identityFile)
  checkpoint F 2
  storeFileWriteChecked F.toFileFaults D contextFile
    (sectionText X (rs.filter (·.section_ = .context))) (w.ids (ascii "context"))
    (w.tmp contextFile)
  writeProjects F X D w rs ps.slugs
  checkpoint F 3
  storeFileWriteIn F.toFileFaults journalFile [] (w.tmp journalFile)
  require (F.reopen = false) .io
  checkpoint F 4

/-- Why no compaction begins. -/
def compactGate (x : Ctx V) : Option Err :=
  if x.journal.poisoned then some .io else if x.receipt then some .busy else none

/-- Drop the records that are due, from the last, and their rows of the index. -/
def purgeIndex (due : Record → Bool) : Nat → Table → Index V → Index V
  | 0, _, ix => ix
  | i + 1, t, ix =>
    match t.recs[i]? with
    | none => purgeIndex due i t ix
    | some r =>
      if due r then purgeIndex due i (t.remove r.id) (ix.remove r.id) else purgeIndex due i t ix

/-- The context after a compaction. -/
def Ctx.compacted (x : Ctx V) (purgeAfter : Int) : Ctx V :=
  let due := purgeDue purgeAfter w.now
  { x with
    memory := ⟨purgeRows due x.memory.table.recs.length x.memory.table, x.memory.projects⟩
    index := purgeIndex due x.memory.table.recs.length x.memory.table x.index
    journal := .opened 0 }

/-- Undo a transaction that failed. The journal is closed on the way and opened again. -/
def compactRollback (x : Ctx V) (e : Err) : Io (Ctx V × Option Err) := do
  let undone ← (compactRecover D w.back).attempt
  pure ({ x with journal := ⟨x.journal.ops, !undone.isOk || F.reopenBack, !F.reopenBack⟩ }, some e)

/-- `asper_store_compact`: the context after the call, and the error if it failed. -/
def storeCompactLive (purgeAfter : Int) (x : Ctx V) : Io (Ctx V × Option Err) :=
  match compactGate x with
  | some e => pure (x, some e)
  | none =>
    match registerAll x.memory.projects x.memory.table.recs with
    | (ps, some e) => pure ({ x with memory := ⟨x.memory.table, ps⟩ }, some e)
    | (ps, none) => do
      let x := { x with memory := ⟨x.memory.table, ps⟩ }
      match ← compactBegin F.toFileFaults D w (compactRels ps) with
      | (some e, poisoned) =>
        pure ({ x with journal := { x.journal with poisoned := poisoned } }, some e)
      | (none, _) =>
        match ← (compactBody F X D w ps
            (x.memory.table.recs.filter fun r => !purgeDue purgeAfter w.now r)).attempt with
        | .error e => compactRollback F D w x e
        | .ok _ =>
          match ← (do
              compactCommit F.toFileFaults (compactRels ps)
              checkpoint F 5 : Io Unit).attempt with
          | .error e => pure ({ x with journal := (JournalState.opened 0).poison }, some e)
          | .ok _ => pure (x.compacted w purgeAfter, F.manifest)

end

end Asper
