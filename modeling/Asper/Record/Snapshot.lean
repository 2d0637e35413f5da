import Asper.Record.Codec
import Asper.Record.Shelf
import Asper.Record.Transaction

/-! # The snapshot of a store

The records of a store lie in one checked file for each section and project (`SectionFiles`).
`storeLoad` reads them (`store.c`), `storeCompact` writes them anew without the records that are to
be purged (`store_compact.c`). -/

namespace Asper

open Durable

def sectionMax : Nat := 16 * 1024 * 1024

/-- The files of the records; those in `projects/` by name. -/
structure SectionFiles where
  identity : Option Bytes
  context : Option Bytes
  projects : List (Bytes × Bytes)
  nodup : (projects.map (·.1)).Nodup

def SectionFiles.empty : SectionFiles := ⟨none, none, [], List.nodup_nil⟩

/-! ## Loading -/

section
variable (X : XcdnText) (D : Digest) (now : Int)

/-- One record of a file of the section `want`, and of the project `slug`. -/
def loadNode (want : Section) (slug : Bytes) (t : Table) (n : XNode) : Except Err Table :=
  if n.tags ≠ [ascii "memory"] then .error .parse
  else match recordFromNode now n with
    | .error e => .error e
    | .ok r =>
      if r.section_ ≠ want ∨ (want = .project ∧ r.project ≠ some slug) then .error .parse
      else t.add r

/-- A record that is there already is damage. -/
def loadErr : Err → Err
  | .invalid => .parse
  | e => e

/-- `store_load_section_file`. -/
def loadSectionFile (want : Section) (slug : Bytes) (file : Option Bytes) (t : Table) :
    Except Err Table :=
  match file with
  | none => .ok t
  | some data => match checkedText D sectionMax data with
    | .error e => .error e
    | .ok text => match X.parse text with
      | none => .error .parse
      | some nodes => (nodes.foldlM (loadNode now want slug) t).mapError loadErr

/-- The slug of a file in `projects/`. -/
def fileSlug (name : Bytes) : Option Bytes :=
  if 5 < name.length ∧ name.drop (name.length - 5) = ascii ".xcdn" ∧
      slugValid (name.take (name.length - 5)) = true then some (name.take (name.length - 5))
  else none

/-- One file of `projects/`; those with other names are ignored. -/
def loadProject (m : Memory) (file : Bytes × Bytes) : Except Err Memory :=
  match fileSlug file.1 with
  | none => .ok m
  | some slug => do
    let table ← loadSectionFile X D now .project slug (some file.2) m.table
    let projects ← m.projects.add slug
    return ⟨table, projects⟩

/-- The order of `name_cmp`. -/
def nameLe (a b : Bytes × Bytes) : Bool := strcmp a.1 b.1 ≠ .gt

/-- The records of the files, in `asper_store_open`. -/
def storeLoad (files : SectionFiles) : Except Err Memory := do
  let t ← loadSectionFile X D now .identity [] files.identity .empty
  let t ← loadSectionFile X D now .context [] files.context t
  (files.projects.mergeSort nameLe).foldlM (loadProject X D now) ⟨t, .empty⟩

/-- The records of the files with the operations of the journal over them, as `asper_store_open`
finds them. -/
def storeOpen (files : SectionFiles) (journal : List Event) : Except Err Memory := do
  let m ← storeLoad X D now files
  replayAll (opText X now).codec m 0 journal

end

/-! ## Compaction -/

/-- The data of a checked file with this text. -/
def checkedFile (D : Digest) (id : Uuid) (text : Bytes) : Except Err Bytes :=
  if sectionMax < text.length then .error .limit
  else if 0 ∈ text then .error .invalid
  else frameWrite D ⟨1, 0, .diagnostic, false, id.val, [], text⟩

section
variable (X : XcdnText)

/-- A record more in the buffer of a file; an empty line stands between two. -/
def appendRecord (b : Bytes) (r : Record) : Bytes :=
  (if b = [] then b else b ++ [10]) ++ X.pretty (recordBuildNode r) ++ [10]

/-- The text of the records of one file. -/
def sectionText (rs : List Record) : Bytes := rs.foldl (appendRecord X) []

end

/-- Register the project of a record. -/
def registerRecord (ps : Projects) (r : Record) : Except Err Projects :=
  match r.section_, r.project with
  | .project, some slug => if ps.known slug then .ok ps else ps.add slug
  | _, _ => .ok ps

/-- The file of the record is one of the files written. -/
def hasFile (ps : Projects) (r : Record) : Bool :=
  match r.section_, r.project with
  | .project, some slug => ps.known slug
  | .project, none => false
  | _, _ => true

def writeProject (name data : Bytes) (files : List (Bytes × Bytes)) : List (Bytes × Bytes) :=
  files.filter (·.1 ≠ name) ++ [(name, data)]

theorem writeProject_nodup {name data : Bytes} {files : List (Bytes × Bytes)}
    (h : (files.map (·.1)).Nodup) : ((writeProject name data files).map (·.1)).Nodup := by
  rw [writeProject, List.map_append]
  refine List.nodup_append'.2 ⟨(List.filter_sublist.map _).nodup h, List.nodup_singleton _, ?_⟩
  simp

/-- The files of the transaction, of which `ids` draws the ids. -/
structure CompactDraw where
  now : Int
  ids : Bytes → Uuid

section
variable (X : XcdnText) (D : Digest) (w : CompactDraw)

/-- Replace the file of the project `slug`. -/
def compactProject (rs : List Record) (files : SectionFiles) (slug : Bytes) :
    Except Err SectionFiles := do
  let data ← checkedFile D (w.ids slug)
    (sectionText X (rs.filter fun r => r.section_ = .project ∧ r.project = some slug))
  return { files with projects := writeProject (slug ++ ascii ".xcdn") data files.projects
                      nodup := writeProject_nodup files.nodup }

/-- Replace the files with the records `rs`, the projects being `ps`. -/
def compactFiles (ps : Projects) (rs : List Record) (files : SectionFiles) :
    Except Err SectionFiles := do
  if rs.all (hasFile ps) = false then throw .invalid
  let identity ← checkedFile D (w.ids (ascii "identity"))
    (sectionText X (rs.filter (·.section_ = .identity)))
  let context ← checkedFile D (w.ids (ascii "context"))
    (sectionText X (rs.filter (·.section_ = .context)))
  ps.slugs.foldlM (compactProject X D w rs)
    { files with identity := some identity, context := some context }

/-- Drop the records that are due, from the last. -/
def purgeRows (due : Record → Bool) : Nat → Table → Table
  | 0, t => t
  | i + 1, t =>
    match t.recs[i]? with
    | none => purgeRows due i t
    | some r => purgeRows due i (if due r then t.remove r.id else t)

/-- `asper_store_compact` where every file operation succeeds: the store and its files; the journal
is empty then. -/
def storeCompact (purgeAfter : Int) (m : Memory) (files : SectionFiles) :
    Except Err (Memory × SectionFiles) := do
  let ps ← m.table.recs.foldlM registerRecord m.projects
  let files ← compactFiles X D w ps (m.table.recs.filter fun r => !purgeDue purgeAfter w.now r) files
  return (⟨purgeRows (purgeDue purgeAfter w.now) m.table.recs.length m.table, ps⟩, files)

end

end Asper
