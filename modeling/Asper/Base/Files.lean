import Asper.Base.Os
import Asper.Base.Uuid

/-! # Files of the store

`storeFileWrite` replaces a file by way of a temporary one (`store_files.c`). -/

namespace Asper

open Durable

def storeFileMax : Nat := 512 * 1024 * 1024

/-- A new file can be made at the path. -/
def creatable (d : Disk) (p : Path) : Bool := d.find p = .absent ∧ d.find p.dropLast = .found .dir

/-- `os_blob_create` and one write: the file must be new. -/
def osBlobCreate (p : Path) (data : Bytes) : Io Unit := do
  if ← Act.look (creatable · p) then Act.emit (.create p data) else Act.fail .io

/-- Write a file as `tmp` and move it to `path`. -/
def writeReplace (tmp path : Path) (data : Bytes) : Io Unit := do
  osWriteFile tmp data
  osFileReplace tmp path

def temporaryFile (path : Path) (uuid : Uuid) : Path := ext path (ascii ".tmp-" ++ uuid.val)

/-- `asper_store_file_write` of an unchecked file. A failure removes only what this call made. -/
def storeFileWrite (path : Path) (data : Bytes) (uuid : Uuid) : Io Unit := do
  require (data.length ≤ storeFileMax) .limit
  osBlobCreate (temporaryFile path uuid) data
  match ← (osFileReplace (temporaryFile path uuid) path).attempt with
  | .ok _ => pure ()
  | .error e => do
    ignore (osRemoveFile (temporaryFile path uuid))
    Act.fail e

end Asper
