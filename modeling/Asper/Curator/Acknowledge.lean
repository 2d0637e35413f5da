import Asper.Base.Files
import Asper.Record.Store
import Asper.Source.Pending
import Mathlib.Data.List.Destutter

/-! # The acknowledgement of curated turns

The ids of the turns a cycle has processed are kept in one file, sorted and without repetition
(`source_replay.c`). `markCurated` adds the ids of a batch. -/

namespace Asper

open Durable

/-- Sort the ids and keep one of each. -/
def sortIds (ids : List Bytes) : List Bytes :=
  (ids.mergeSort fun a b => decide (a ≤ b)).destutter (· ≠ ·)

/-- The file of the ids. -/
def curatedText (ids : List Bytes) : Bytes := ids.flatMap (· ++ [10])

/-- `asper_source_curated_admit`: room for the ids of a batch. -/
def curatedAdmit (n : Nat) : Io Unit := do
  require (n ≤ curatedBytes / 37) .limit
  match ← (osBlobOpen curatedFile).attempt with
  | .error .notFound => pure ()
  | .error e => Act.fail e
  | .ok text =>
    if curatedBytes - n * 37 < text.length then Act.fail .limit
    else require (text.length % 37 = 0) .parse

/-- `asper_source_mark_curated`. -/
def markCurated (ids : List Bytes) (uuid : Uuid) : Io Unit := do
  require (ids.length ≤ curatedBytes / 37 ∧ ∀ id ∈ ids, uuidValid id = true) .invalid
  let old ← curatedLoad
  require ((sortIds (old ++ ids)).length * 37 ≤ curatedBytes) .limit
  storeFileWrite curatedFile (curatedText (sortIds (old ++ ids))) uuid

/-! ## Who is curated -/

/-- `asper_source_curated_load`: the array that `curated_ids_parse` makes of the rows. -/
def curatedIds : Io (List Bytes) := do
  let rows ← curatedLoad
  pure (sortIds rows)

/-- `asper_source_curated_has`: `bsearch` by `strcmp`. -/
def curatedHas (ids : List Bytes) (id : Bytes) : Bool := (Search.locate (slugOrder id) ids).2

end Asper
