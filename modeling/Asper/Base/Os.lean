import Asper.Base.Text
import Asper.Lib.Act

/-! # The platform shim

The file operations of `os_posix.c`, `os_common.c` and `os_blob.c` on a `Disk`. Paths name the
nodes below the store root. -/

namespace Asper

open Durable

abbrev Io := Act Err

/-- `path` with `suffix` after its last name. -/
def ext (p : Path) (suffix : Bytes) : Path := p.dropLast ++ [p.getLastD [] ++ suffix]

theorem ext_concat (q : Path) (n s : Bytes) : ext (q ++ [n]) s = q ++ [n ++ s] := by
  simp [ext]

/-- Open a regular file and read it whole. -/
def blob (d : Disk) (p : Path) : Except Err Bytes :=
  match d.find p with
  | .absent => .error .notFound
  | .blocked | .found .dir => .error .invalid
  | .found (.file b) => .ok b

def osBlobOpen (p : Path) : Io Bytes := Act.read (blob · p)

/-- `fopen` for writing finds a file, or a directory to make one in. -/
def writable (d : Disk) (p : Path) : Bool :=
  match d.find p with
  | .found (.file _) => true
  | .absent => d.find p.dropLast = .found .dir
  | _ => false

/-- Issue `w` to the file at `p` when it can be opened for writing. -/
def withWritable (p : Path) (w : Write) : Io Unit := do
  if ← Act.look (writable · p) then Act.emit w else Act.fail .io

/-- `fopen` in mode "ab" and one write. -/
def osAppend (p : Path) (data : Bytes) : Io Unit := withWritable p (.append p data)

/-- `os_write_file`: `fopen` in mode "wb" and one write. -/
def osWriteFile (p : Path) (data : Bytes) : Io Unit := withWritable p (.create p data)

def osFileReplace (src dst : Path) : Io Unit := do
  match ← Act.look (·.find src) with
  | .absent => Act.fail .notFound
  | .found (.file _) => withWritable dst (.rename src dst)
  | _ => Act.fail .io

def osRemoveFile (p : Path) : Io Unit := do
  match ← Act.look (·.find p) with
  | .absent => Act.fail .notFound
  | .found (.file _) => Act.emit (.remove p)
  | _ => Act.fail .io

def osTruncate (p : Path) (size : Nat) : Io Unit := do
  match ← Act.look (·.find p) with
  | .absent => Act.fail .notFound
  | .found (.file _) => Act.emit (.truncate p size)
  | _ => Act.fail .io

/-- `stat`: a directory has a size as well, which no caller depends on. -/
def fileSize (d : Disk) (p : Path) : Except Err Nat :=
  match d.find p with
  | .absent => .error .notFound
  | .blocked => .error .io
  | .found .dir => .ok 0
  | .found (.file b) => .ok b.length

def osFileSize (p : Path) : Io Nat := Act.read (fileSize · p)

def osFileExists (p : Path) : Io Bool :=
  Act.look fun d => match d.find p with
    | .found _ => true
    | _ => false

/-- `mkdir`, where a directory that is there already will do. -/
def mkdirStep (p : Path) : Io Unit := do
  match ← Act.look (· p) with
  | none => Act.emit (.mkdir p)
  | some .dir => pure ()
  | some (.file _) => Act.fail .io

/-- Make the directories `rest` one below the other, from `at_`. -/
def mkdirFrom (at_ : Path) : Path → Io Unit
  | [] => pure ()
  | c :: rest => do
    mkdirStep (at_ ++ [c])
    mkdirFrom (at_ ++ [c]) rest

def osMkdirP (p : Path) : Io Unit := mkdirFrom [] p

/-- Go on only when `c` holds. -/
def require (c : Prop) [Decidable c] (e : Err) : Io Unit := if c then pure () else Act.fail e

/-- `m`, with `other` in place of the error `e`. -/
def orElse {α : Type} (m : Io α) (e : Err) (other : α) : Io α := do
  match ← m.attempt with
  | .ok a => pure a
  | .error e' => if e' = e then pure other else Act.fail e'

/-- Run `m` and drop its error. -/
def ignore (m : Io Unit) : Io Unit := do
  let _ ← m.attempt

end Asper
