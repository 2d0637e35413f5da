import Asper.Base.Files
import Asper.Record.Row
import Asper.Record.Shelf

/-! # The cache of embeddings

`embeddings.bin` (`cache.c`): a header, then for each record with a row its raw id, the hash of its
text and the row. A cache that does not fit the index is ignored, and so is an entry whose
record is gone, deprecated or of another text; the records then left without a row are embedded
anew when the store is opened (`indexOpen`). Sizes are computed by `fits`: loading is none when one
does not fit or an entry lies outside the bytes. -/

namespace Asper

open Durable

/-! ## Integers, low byte first -/

/-- `asper_put_u32le` and `asper_put_u64le`, for four and eight bytes. -/
def putLe : Nat → Nat → Bytes
  | 0, _ => []
  | n + 1, v => UInt8.ofNat (v % 256) :: putLe n (v / 256)

/-- `asper_get_u32le` and `asper_get_u64le`. -/
def getLe : Bytes → Nat
  | [] => 0
  | b :: s => b.toNat + 256 * getLe s

theorem putLe_length : ∀ n v : Nat, (putLe n v).length = n
  | 0, _ => rfl
  | n + 1, v => congrArg (· + 1) (putLe_length n (v / 256))

theorem getLe_putLe : ∀ n v : Nat, getLe (putLe n v) = v % 256 ^ n
  | 0, v => (Nat.mod_one v).symm
  | n + 1, v => by
    have hb : (UInt8.ofNat (v % 256)).toNat = v % 256 := by simp
    rw [putLe, getLe, hb, getLe_putLe n, Nat.pow_succ, Nat.mul_comm (256 ^ n), Nat.mod_mul]

/-- `asper_vec_encode`. -/
def vecEncode (v : Vec) : Bytes := v.flatMap fun x => putLe 4 x.toNat

/-- `asper_vec_decode`. -/
def vecDecode : Nat → Bytes → Vec
  | 0, _ => []
  | n + 1, s => UInt32.ofNat (getLe (s.take 4)) :: vecDecode n (s.drop 4)

/-- A value of type `size_t`, none if it does not fit. -/
def fits (n : Nat) : Option Nat := if n < 2 ^ 64 then some n else none

/-! ## Embedders -/

/-- What the cache is checked against: the dimension of the index and the hash of the model in the
manifest, if there is one. -/
structure CacheKey where
  dim : Nat
  hash : Option Bytes
  small : dim < 2 ^ 31
  hash_length : ∀ h ∈ hash, h.length = 32

/-- The model behind an embedder, as far as the store tells models apart. -/
structure Embedder where
  hash : Bytes
  dim : Nat
  hash_length : hash.length = 32
  pos : 0 < dim
  small : dim < 2 ^ 31

def Embedder.key (m : Embedder) : CacheKey :=
  ⟨m.dim, some m.hash, m.small, fun _ h => Option.some.inj h ▸ m.hash_length⟩

/-- The vectors that models compute of texts, and what zero times an infinity is on the platform. -/
structure Vectors where
  embed : Embedder → Bytes → Vec
  nan : UInt32
  embed_length : ∀ m t, (embed m t).length = m.dim

/-- The row that `asper_index_write_row` makes of a vector. -/
def Vectors.normal (X : Vectors) : Vec → Vec := indexWriteRow X.nan

/-! ## The file -/

structure CacheEntry where
  id : Bytes
  hash : Nat
  vec : Vec
  deriving DecidableEq

def CacheEntry.bytes (c : CacheEntry) : Bytes := c.id ++ putLe 8 c.hash ++ vecEncode c.vec

/-- A manifest without a model leaves zeros. -/
def cacheHeader (k : CacheKey) (count : Nat) : Bytes :=
  ascii "ASPE" ++ putLe 4 1 ++ putLe 4 k.dim ++ putLe 8 count ++ k.hash.getD (List.replicate 32 0)

def cacheBytes (k : CacheKey) (es : List CacheEntry) : Bytes :=
  cacheHeader k es.length ++ (es.map CacheEntry.bytes).flatten

def entrySize (dim : Nat) : Option Nat := (fits (dim * 4)).bind fun n => fits (16 + 8 + n)

def readEntries (dim size : Nat) : Nat → Bytes → Option (List CacheEntry)
  | 0, _ => some []
  | n + 1, s =>
    if s.length < size then none
    else (readEntries dim size n (s.drop size)).map fun es =>
      ⟨s.take 16, getLe ((s.drop 16).take 8), vecDecode dim (s.drop 24)⟩ :: es

/-- The entries of the file, if it was made for the index and is whole. -/
def cacheRead (k : CacheKey) (data : Bytes) : Option (Option (List CacheEntry)) :=
  let count := getLe ((data.drop 12).take 8)
  if data.length < 52 ∨ data.take 4 ≠ ascii "ASPE" then some none
  else if getLe ((data.drop 4).take 4) ≠ 1 then some none
  else if k.dim = 0 ∨ getLe ((data.drop 8).take 4) ≠ k.dim then some none
  else if k.hash ≠ some ((data.drop 20).take 32) then some none
  else (entrySize k.dim).bind fun size =>
    if (data.length - 52) / size < count then some none
    else (fits (count * size)).bind fun n => (fits (52 + n)).bind fun total =>
      if data.length ≠ total then some none
      else (readEntries k.dim size count (data.drop 52)).map some

/-! ## Loading -/

/-- What fails in a call: the file cannot be read whole, a vector or the list of places cannot be
allocated, the index cannot grow beyond so many rows. -/
structure CacheFaults where
  read : Bool
  vec : Bool
  stale : Bool
  grow : Nat → Bool

/-- `asper_index` and the number of rows it has room for. -/
structure RowIndex where
  shelf : Shelf Vec
  cap : Nat

/-- `asper_index_init`, over records that lie at the addresses `addr`. -/
def RowIndex.init (addr : Bytes → Ref) : RowIndex := ⟨.init addr, 0⟩

/-- The room after an index has grown, whose two arrays are sized in bytes. -/
def growCapacity (dim cap : Nat) : Option Nat :=
  (fits (if cap = 0 then 16 else cap * 2)).bind fun ncap =>
    (fits (ncap * dim)).bind fun n => (fits (n * 4)).bind fun _ => (fits (ncap * 8)).map fun _ => ncap

section
variable (X : Vectors) (w : CacheFaults) (k : CacheKey) (t : Table)

/-- `asper_index_put`. -/
def indexPut (ix : RowIndex) (p : Ref) (v : Vec) : Option (Except Err RowIndex) :=
  let n := ix.shelf.rows.length
  if k.dim = 0 then some (.error .invalid)
  else
    (if ix.shelf.embRow p < 0 ∧ n < 2 ^ 31 - 1 ∧ n = ix.cap then growCapacity k.dim ix.cap
      else some ix.cap).map fun cap =>
      match ix.shelf.put X.normal (decide (n = ix.cap) && w.grow n) p v with
      | (sh, none) => .ok ⟨sh, cap⟩
      | (_, some e) => .error e

/-- The id of the entry as text. -/
def CacheEntry.name (c : CacheEntry) : Bytes := uuidFromBytes fun i => c.id.getD i 0

/-- `asper_content_fnv`. -/
def contentFnv (r : Record) : Nat := (fnv1a64 r.content).toNat

/-- One entry of the file. -/
def adopt (ix : RowIndex) (c : CacheEntry) : Option (Except Err RowIndex) :=
  match t.get c.name with
  | none => some (.ok ix)
  | some r =>
    if r.deprecated = true ∨ c.hash ≠ contentFnv r then some (.ok ix)
    else indexPut X w k ix (ix.shelf.addr r.id) c.vec

def adoptAll : RowIndex → List CacheEntry → Option (Except Err RowIndex)
  | ix, [] => some (.ok ix)
  | ix, c :: cs => (adopt X w k t ix c).bind fun
    | .ok ix => adoptAll ix cs
    | .error e => some (.error e)

/-- The end of a call, which lists places of the table. -/
def listed (ix : RowIndex) (places : List Nat) : Option (Except Err (RowIndex × List Nat)) :=
  if t.recs = [] then some (.ok (ix, []))
  else (fits (t.recs.length * 8)).map fun _ =>
    if w.stale then .error .nomem else .ok (ix, places)

/-- `asper_cache_all_stale`: the places of the records that are not deprecated. -/
def allStale : List Nat :=
  (List.range t.recs.length).filter fun i => t.recs[i]?.any fun r => !r.deprecated

/-- The places of the records without a row. -/
def staleOf (sh : Shelf Vec) : List Nat :=
  (List.range t.recs.length).filter fun i =>
    t.recs[i]?.any fun r => !r.deprecated && decide (sh.embRow (sh.addr r.id) < 0)

/-- The bytes of the file; none when it is missing or cannot be read. The buffer of `os_read_file` ends
at 2^63 bytes, the last of them a NUL. -/
def cacheFile (d : Disk) (path : Path) : Option Bytes :=
  match d.find path with
  | .found (.file b) => if w.read = true ∨ 2 ^ 63 - 1 ≤ b.length then none else some b
  | _ => none

/-- `asper_cache_load` of the bytes: the index and the places of the records to be embedded. -/
def cacheLoad (ix : RowIndex) (data : Option Bytes) : Option (Except Err (RowIndex × List Nat)) :=
  (match data with
    | none => some none
    | some b => cacheRead k b).bind fun
  | none => listed w t ix (allStale t)
  | some es => (fits (k.dim * 4)).bind fun _ =>
    if w.vec then some (.error .nomem)
    else (adoptAll X w k t ix es).bind fun
      | .error e => some (.error e)
      | .ok ix => listed w t ix (staleOf t ix.shelf)

/-- `asper_cache_load`. -/
def asperCacheLoad (ix : RowIndex) (d : Disk) (path : Path) :
    Option (Except Err (RowIndex × List Nat)) := cacheLoad X w k t ix (cacheFile w d path)

/-- Embed the record at a place; `fails` at the places where the embedder does. -/
def reembed (m : Embedder) (fails : Nat → Bool) (sh : Shelf Vec) (i : Nat) : Shelf Vec :=
  match t.recs[i]? with
  | none => sh
  | some r =>
    if r.deprecated = true ∨ fails i = true then sh
    else (sh.put X.normal (w.grow sh.rows.length) (sh.addr r.id) (X.embed m r.content)).1

/-- The part of `asper_open` that fills the index. -/
def indexOpen (m : Option Embedder) (data : Option Bytes) (fails : Nat → Bool)
    (addr : Bytes → Ref) : Option (Except Err (Shelf Vec)) :=
  match m with
  | none => some (.ok (.init addr))
  | some m => (cacheLoad X w m.key t (.init addr) data).map fun
    | .ok (ix, stale) => .ok (stale.foldl (reembed X w t m fails) ix.shelf)
    | .error e => .error e

end

/-! ## Saving -/

/-- The entry of a record, if it has a row (`asper_cache_savable`). -/
def cacheEntry (sh : Shelf Vec) (r : Record) : Option CacheEntry :=
  if sh.embRow (sh.addr r.id) < 0 then none
  else match sh.rows[sh.row (sh.addr r.id)]?, uuidToBytes r.id with
    | some (_, v), some u => some ⟨u, contentFnv r, v⟩
    | _, _ => none

/-- What `asper_cache_save` writes. -/
def cacheSave (k : CacheKey) (t : Table) (sh : Shelf Vec) : Bytes :=
  cacheBytes k (t.recs.filterMap (cacheEntry sh))

def cacheTemporary (path : Path) : Path := ext path (ascii ".tmp")

/-- `asper_cache_save`; `full` when the bytes cannot be put together in memory. -/
def asperCacheSave (full : Bool) (k : CacheKey) (t : Table) (sh : Shelf Vec) (path : Path) :
    Io Unit := do
  require (0 < k.dim) .invalid
  require (full = false) .nomem
  match ← (writeReplace (cacheTemporary path) path (cacheSave k t sh)).attempt with
  | .ok _ => pure ()
  | .error e => do
    ignore (osRemoveFile (cacheTemporary path))
    Act.fail e

end Asper
