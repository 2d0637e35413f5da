import Asper.Record.Compaction
import Asper.Record.Runs

/-! # A store on its disk

`storeOpenLive` opens the store that lies on a disk (`store.c`), which undoes a compaction that was
not committed, loads the files and replays the journal. `LiveEvent` is what happens to a store whose
process may stop at any time, also while it opens the store. -/

namespace Asper

open Durable

/-! ## Opening -/

def cacheDir : Path := [ascii "cache"]

/-- What opening a store meets: the time, the names of the copies of a recovery, the error of
loading the manifest, and the files that are listed in `projects/`. -/
structure OpenDraw where
  now : Int
  uuids : Bytes → Uuid
  manifest : Option Err
  names : List Bytes

section
variable (X : XcdnText) (D : Digest)

/-- The directories of the store, and the undoing of a compaction. -/
def storeRecover (uuids : Bytes → Uuid) : Io Unit := do
  osMkdirP [ascii "projects"]
  osMkdirP cacheDir
  compactRecover D uuids

/-- `store_load_section_file`, of the file at `path`. -/
def loadSectionIn (now : Int) (want : Section) (slug : Bytes) (path : Path) (t : Table) :
    Io Table := do
  match ← (osBlobOpen path).attempt with
  | .error .notFound => pure t
  | .error e => Act.fail e
  | .ok data => Act.lift (loadSectionFile X D now want slug (some data) t)

/-- The file `name` of `projects/`, if it is one of a project. -/
def loadProjectIn (now : Int) (m : Memory) (name : Bytes) : Io Memory :=
  match fileSlug name with
  | none => pure m
  | some slug => do
    let table ← loadSectionIn X D now .project slug [ascii "projects", name] m.table
    let projects ← Act.lift (m.projects.add slug)
    pure ⟨table, projects⟩

def loadNamesIn (now : Int) : List Bytes → Memory → Io Memory
  | [], m => pure m
  | name :: names, m => do
    let m ← loadProjectIn X D now m name
    loadNamesIn now names m

/-- The order in which `store_load_projects` sorts the names. -/
def nameBefore (a b : Bytes) : Bool := strcmp a b ≠ .gt

/-- The records of the files. -/
def storeLoadIn (w : OpenDraw) : Io Memory := do
  let t ← loadSectionIn X D w.now .identity [] identityFile .empty
  let t ← loadSectionIn X D w.now .context [] contextFile t
  loadNamesIn X D w.now (w.names.mergeSort nameBefore) ⟨t, .empty⟩

/-- `asper_store_open`. -/
def storeOpenLive (w : OpenDraw) : Io (Memory × JournalState) := do
  storeRecover D w.uuids
  Act.lift (w.manifest.elim (.ok ()) .error)
  let m ← storeLoadIn X D w
  let r ← journalReplay (opText X w.now).codec D journalFile m
  osAppend journalFile []
  pure (r.1, .opened r.2)

end

/-! ## A process -/

/-- A running store with its disk, or the disk alone. -/
inductive LiveStore (V : Type) where
  | up (x : Ctx V) (d : Disk)
  | down (d : Disk)

/-- What happens to a store. -/
inductive LiveEvent (V : Type) where
  /-- An operation is sent through the funnel and answered. -/
  | apply (w : Draw V) (op : Op) (fromCurator : Bool) (answer : Option Err)
  | compact (F : CompactFaults) (w : CompactNames) (answer : Option Err)
  /-- `asper_journal_sync`. -/
  | sync (F : JournalFaults)
  /-- The other parts of the program: the index, the knowledge, a receipt, and other files. -/
  | other
  | opened (w : OpenDraw)
  /-- The process stops in the call. -/
  | applyStopped (w : Draw V) (op : Op) (fromCurator : Bool)
  | compactStopped (F : CompactFaults) (w : CompactNames)
  /-- It stops while it opens the store, or that fails. -/
  | openStopped (w : OpenDraw)
  /-- It closes the store, or stops between calls. -/
  | stopped

/-- Running `m` on `d` stops, or ends, at `d'`. -/
def Stops {α : Type} (m : Io α) (d d' : Disk) : Prop := ∃ t, Crash (m.writes d) d t d'

end Asper
