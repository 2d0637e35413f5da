import Asper.Base.Text
import Asper.Lib.Runs
import Asper.Lib.Volume
import Mathlib.Algebra.GroupWithZero.Nat
import Mathlib.Data.Finset.Dedup
import Mathlib.Data.List.Sort

/-! # Erasing a store

`erase.py` deletes a store file by file under a guard that `asper_open` looks for (`api.c`). A
`Volume` holds the directories; the root has no number, so that no directory holds it. The script is
a `Run` that `Run.next` takes from one file operation to the next, `Step` is all that can happen to
a store: openings, the work of its host, runs of the script, their ends and crashes. What `stat`
says of an entry is up to the file system at every step (`Stats`). -/

namespace Asper

open Durable

namespace Erase

def lockName : Bytes := ascii ".writer.lock"
def eraseName : Bytes := ascii ".erase.pending"
def manifestName : Bytes := ascii "manifest.xcdn"

/-- What a name stands for; `ι` numbers the directories below the root. -/
inductive Entry (ι : Type) where
  | file (data : Bytes)
  | link (target : Bytes)
  | special
  | dir (i : ι)
  deriving DecidableEq

/-- A directory: the root, or one below it. -/
abbrev Fd (ι : Type) := Option ι

abbrev Store (ι : Type) := Volume (Fd ι) Bytes (Entry ι)

/-- The fields of `identity`. -/
structure Stat where
  dev : Nat
  ino : Nat
  mode : Nat
  uid : Nat
  gid : Nat
  nlink : Nat
  size : Nat
  mtime : Int
  ctime : Int
  deriving DecidableEq

/-- What the file system says at one time. -/
structure Stats (ι : Type) where
  lstat : Fd ι → Bytes → Stat
  fstat : Fd ι → Stat
  mountId : Fd ι → Nat
  euid : Nat

inductive Kind where
  | directory | file | hardlink | symlink | special
  deriving DecidableEq

/-- An entry of the inventory. -/
structure Row where
  kind : Kind
  identity : Stat
  bytes : Nat
  sha256 : Option Bytes
  deriving DecidableEq

structure Plan where
  root : Stat
  entries : List (Path × Row)
  bytes : Nat

/-- The hash, and the canonical JSON of an inventory. -/
structure Digests where
  sha256 : Bytes → Bytes
  encoded : Plan → Bytes

/-! ## The inventory -/

def maxEntries : Nat := 65536
def maxBytes : Nat := 4 * 1024 ^ 3
def maxFile : Nat := 512 * 1024 ^ 2
def maxDepth : Nat := 64
def maxNames : Nat := 16 * 1024 ^ 2

section
variable {ι : Type} [DecidableEq ι]

def Entry.isLink : Entry ι → Bool
  | .link _ => true
  | _ => false

def Entry.isFile : Entry ι → Bool
  | .file _ => true
  | _ => false

def Entry.isDir : Entry ι → Bool
  | .dir _ => true
  | _ => false

/-- `check_owner`: owned by this user and not writable by others. -/
def checkOwner (S : Stats ι) (st : Stat) (link : Bool) : Bool :=
  st.uid = S.euid ∧ (link = true ∨ st.mode &&& 0o022 = 0)

/-- The row of an entry that is no directory. -/
def leafRow (H : Digests) (st : Stat) : Entry ι → Row
  | .file data =>
    if st.nlink = 1 then ⟨.file, st, st.size, some (H.sha256 data)⟩ else ⟨.hardlink, st, 0, none⟩
  | .link target => ⟨.symlink, st, 0, some (H.sha256 target)⟩
  | _ => ⟨.special, st, 0, none⟩

/-- The rows of one directory; none where a check of `walk` raises. -/
def walk (H : Digests) (S : Stats ι) (v : Store ι) : Nat → Fd ι → Path →
    Option (List (Path × Row))
  | 0, _, _ => none
  | n + 1, fd, path =>
    if checkOwner S (S.fstat fd) false ∧ (S.fstat fd).dev = (S.fstat none).dev ∧
        S.mountId fd = S.mountId none then do
      let rows ← (v.now fd).entries.mapM fun e =>
        let st := S.lstat fd e.1
        if path = [] ∧ e.1 = lockName then some []
        else if checkOwner S st e.2.isLink = false then none
        else match e.2 with
          | .dir i =>
            if S.fstat (some i) = st then
              (walk H S v n (some i) (path ++ [e.1])).map
                ((path ++ [e.1], ⟨.directory, st, 0, none⟩) :: ·)
            else none
          | e' =>
            if st.nlink = 1 ∧ e'.isFile = true ∧ maxFile < st.size then none
            else some [(path ++ [e.1], leafRow H st e')]
      pure rows.flatten
    else none

def pathText (path : Path) : Bytes := [47].intercalate path

/-- `inventory` without the writer lock; the rows are sorted by path. -/
def inventory (H : Digests) (S : Stats ι) (v : Store ι) : Option Plan := do
  let rows ← walk H S v (maxDepth + 1) none []
  let bytes := (rows.map (·.2.bytes)).sum
  if rows.length ≤ maxEntries ∧ (rows.map fun r => (pathText r.1).length).sum ≤ maxNames ∧
      bytes ≤ maxBytes then
    pure ⟨S.fstat none, rows.insertionSort fun a b => pathText a.1 ≤ pathText b.1, bytes⟩
  else none

def snapshot (H : Digests) (plan : Plan) : Bytes := H.sha256 (H.encoded plan)

/-! ## The script -/

/-- A directory that is pruned: the names that are still to be removed, in order. -/
structure Frame (ι : Type) where
  fd : Fd ι
  path : Path
  todo : List Bytes

/-- The next file operation of `erase_store`. -/
inductive Stage (ι : Type) where
  /-- `write_new` makes the file, syncs it and its directory. -/
  | create | syncFile | syncName
  /-- The file becomes the guard, which is synced. -/
  | replace | syncGuard
  | list
  | prune (frames : List (Frame ι))
  | sync (fd : Fd ι) (frames : List (Frame ι))
  | erased

structure Run (ι : Type) where
  operation : Bytes
  expected : Bytes
  /-- The rows of the inventory, less the guard's. -/
  entries : List (Path × Row)
  removed : Nat
  stage : Stage ι

def Run.temporary (r : Run ι) : Bytes := ascii ".erase-" ++ r.operation ++ ascii ".tmp"

def Run.guardData (r : Run ι) : Bytes :=
  ascii "\x7b\"format\":\"asper-erasure\",\"operation\":\"" ++ r.operation ++
    ascii "\",\"source_snapshot\":\"" ++ r.expected ++ ascii "\",\"version\":1\x7d\n"

/-- `names_at`. -/
def namesAt (v : Store ι) (fd : Fd ι) (limit : Nat) : Option (List Bytes) :=
  if (v.now fd).keys.length ≤ limit then some (v.now fd).keys else none

/-- The names that the inventory has in a directory. -/
def Run.children (r : Run ι) (path : Path) : List Bytes :=
  (r.entries.filter fun row => row.1.dropLast = path ∧ row.1 ≠ []).filterMap (·.1.getLast?)

def Run.filesLimit (r : Run ι) : Nat := r.entries.length + 2

/-- The names to be removed from a directory. -/
def ownNames (path : Path) (names : List Bytes) : List Bytes :=
  if path = [] then names.filter fun c => c ≠ lockName ∧ c ≠ eraseName else names

/-- Start on a directory, in which the names must be those of the inventory. -/
def Run.enter (r : Run ι) (v : Store ι) (fd : Fd ι) (path : Path) : Option (Frame ι) :=
  match namesAt v fd r.filesLimit with
  | none => none
  | some names =>
    if (ownNames path names).toFinset = (r.children path).toFinset then
      some ⟨fd, path, (ownNames path names).insertionSort fun a b => a ≤ b⟩
    else none

/-- Whether an entry is still the one of the inventory. Another link to the file may be gone. -/
def sameEntry (row : Row) (current : Stat) : Bool :=
  if row.kind = .hardlink then
    (current.dev, current.ino, current.mode, current.uid, current.gid, current.size,
        current.mtime) =
      (row.identity.dev, row.identity.ino, row.identity.mode, row.identity.uid, row.identity.gid,
        row.identity.size, row.identity.mtime)
  else current = row.identity

/-- `prune` looks at the name `c` of the directory `f`: it starts on a directory and unlinks all
else. -/
def Run.visit (S : Stats ι) (v : Store ι) (r : Run ι) (f : Frame ι) (c : Bytes) (todo : List Bytes)
    (frames : List (Frame ι)) : Option (Store ι × Stage ι) :=
  match r.entries.lookup (f.path ++ [c]), (v.now f.fd).lookup c with
  | some row, some e =>
    let current := S.lstat f.fd c
    if row.kind = .directory then
      match e with
      | .dir i =>
        if S.fstat (some i) = current ∧ current = row.identity ∧
            S.mountId (some i) = S.mountId f.fd then
          (r.enter v (some i) (f.path ++ [c])).map fun child =>
            (v, .prune (child :: { f with todo := c :: todo } :: frames))
        else none
      | _ => none
    else if sameEntry row current = true ∧ e.isDir = false then
      some (v.edit f.fd (AList.erase c), .sync f.fd ({ f with todo := todo } :: frames))
    else none
  | _, _ => none

/-- The directory under the first name of `f` is pruned. It must be the one that was opened, and
empty. -/
def Run.leave (S : Stats ι) (v : Store ι) (r : Run ι) (f : Frame ι) (frames : List (Frame ι)) :
    Option (Store ι × Stage ι) :=
  match f.todo with
  | [] => none
  | c :: todo =>
    match r.entries.lookup (f.path ++ [c]), (v.now f.fd).lookup c with
    | some row, some (.dir i) =>
      let current := S.lstat f.fd c
      if current.dev = row.identity.dev ∧ current.ino = row.identity.ino ∧
          (v.now (some i)).keys = [] then
        some (v.edit f.fd (AList.erase c), .sync f.fd ({ f with todo := todo } :: frames))
      else none
    | _, _ => none

/-- The next file operation, none when the script raises instead. -/
def Run.step (S : Stats ι) (v : Store ι) (r : Run ι) : Option (Store ι × Stage ι) :=
  match r.stage with
  | .create =>
    if (v.now none).lookup r.temporary = none then
      some (v.edit none (AList.insert r.temporary (.file r.guardData)), .syncFile)
    else none
  | .syncFile => some (v, .syncName)
  | .syncName => some (v.sync none, .replace)
  | .replace =>
    match (v.now none).lookup r.temporary, (v.now none).lookup eraseName with
    | _, some (.dir _) => none
    | some e, _ =>
      some (v.edit none fun es => (es.erase r.temporary).insert eraseName e, .syncGuard)
    | none, _ => none
  | .syncGuard => some (v.sync none, .list)
  | .list => (r.enter v none []).map fun f => (v, .prune [f])
  | .prune [] => none
  | .prune (f :: frames) =>
    match f.todo, frames with
    | c :: todo, frames => r.visit S v f c todo frames
    | [], g :: frames => r.leave S v g frames
    | [], [] =>
      match namesAt v none 2 with
      | some names =>
        if names.toFinset = [lockName, eraseName].toFinset then some (v, .erased) else none
      | none => none
  | .sync fd frames => some (v.sync fd, .prune frames)
  | .erased => none

/-- The run after the operation; `removed` counts the entries. -/
def Run.next (S : Stats ι) (v : Store ι) (r : Run ι) : Option (Store ι × Run ι) :=
  (r.step S v).map fun x => (x.1, { r with
    stage := x.2
    removed := match x.2 with | .sync _ _ => r.removed + 1 | _ => r.removed })

/-! ## Opening a store -/

/-- The lock file at hand: made when it is missing, refused when it is something else, has other
links or is locked. -/
def takeLock (S : Stats ι) (held : Bool) (v : Store ι) : Option (Store ι) :=
  match (v.now none).lookup lockName with
  | none => some (v.edit none (AList.insert lockName (.file [])))
  | some (.file _) => if (S.lstat none lockName).nlink = 1 ∧ held = false then some v else none
  | some _ => none

/-- `asper_open` up to where it logs and recovers: the writer lock, and the guard whatever it
holds. -/
def asperOpen (S : Stats ι) (held : Bool) (v : Store ι) : Store ι × Except Err Unit :=
  match takeLock S held v with
  | none => (v, .error .busy)
  | some v' =>
    match (v'.now none).lookup eraseName with
    | none => (v', .ok ())
    | some (.file _) => (v', .error .busy)
    | some _ => (v', .error .invalid)

/-- `store` for the command `erase`, then the head of `erase_store`: the store with the lock taken,
and the run unless a check raises. -/
def begin (H : Digests) (S : Stats ι) (held : Bool) (v : Store ι) (operation expected : Bytes) :
    Store ι × Option (Run ι) :=
  if checkOwner S (S.fstat none) false = false ∨
      ((v.now none).lookup manifestName = none ∧ (v.now none).lookup eraseName = none) then
    (v, none)
  else match takeLock S held v with
    | none => (v, none)
    | some v' =>
      if checkOwner S (S.lstat none lockName) false = false then (v', none)
      else match inventory H S (v'.sync none) with
        | none => (v'.sync none, none)
        | some plan =>
          if snapshot H plan ≠ expected then (v'.sync none, none)
          else (v'.sync none, some {
            operation := operation
            expected := expected
            entries := plan.entries.filter fun row => row.1 ≠ [eraseName]
            removed := 0
            stage := .create })

/-! ## All that can happen -/

structure World (ι : Type) where
  store : Store ι
  run : Option (Run ι)
  /-- A host has the store open. -/
  host : Bool

def World.held (w : World ι) : Bool := w.run.isSome || w.host

/-- A crash may cut or damage any file. -/
inductive Lands : Entry ι → Entry ι → Prop where
  | file (data data' : Bytes) : Lands (.file data) (.file data')
  | same (e : Entry ι) : Lands e e

inductive Event (ι : Type) where
  | opened (result : Except Err Unit)
  | work | close
  | begun
  | erase (before after : Store ι)
  | stop
  | crash

inductive Step (H : Digests) : World ι → Event ι → World ι → Prop where
  | opened {w : World ι} (S : Stats ι) :
    Step H w (.opened (asperOpen S w.held w.store).2)
      { w with store := (asperOpen S w.held w.store).1,
               host := w.host || (asperOpen S w.held w.store).2.isOk }
  /-- The host does anything to the store. It does not know the guard and keeps its lock. -/
  | work {w : World ι} {v' : Store ι} (h : w.host = true) (hg : w.store.Spares v' none eraseName)
      (hl : w.store.Spares v' none lockName) : Step H w .work { w with store := v' }
  | close {w : World ι} : Step H w .close { w with host := false }
  | begun {w : World ι} (S : Stats ι) (operation expected : Bytes) (h : w.run = none) :
    Step H w .begun { w with
      store := (begin H S w.held w.store operation expected).1,
      run := (begin H S w.held w.store operation expected).2 }
  | erase {w : World ι} {r r' : Run ι} {v' : Store ι} (S : Stats ι) (h : w.run = some r)
      (hn : r.next S w.store = some (v', r')) :
    Step H w (.erase w.store v') { w with store := v', run := some r' }
  /-- The script is killed, raises or ends. -/
  | stop {w : World ι} : Step H w .stop { w with run := none }
  | crash {w : World ι} {v' : Store ι} (h : w.store.Crash Lands v') :
    Step H w .crash ⟨v', none, false⟩

end

end Erase

end Asper
