import Asper.Lib.Stream
import Asper.Source.Store

/-! # Ranges of objects

`asper_object_read` reads the whole file of an object in chunks, hashes all of it and keeps only the
range that is asked for (`source_objects.c`). -/

namespace Asper

open Durable

/-- The size of the buffer a chunk is read into. -/
def readBuffer : Nat := 8192

/-- How far `read_slice` is: what it has hashed, and the range it keeps. -/
structure SliceRead where
  position : Nat
  hashed : Bytes
  copy : Bytes

/-- Hash a chunk and copy what is in the range. -/
def sliceChunk (offset take : Nat) (s : SliceRead) (chunk : Bytes) : SliceRead :=
  let first := if s.position < offset then offset else s.position
  let last := if sizeAdd s.position chunk.length < sizeAdd offset take
    then sizeAdd s.position chunk.length else sizeAdd offset take
  { position := sizeAdd s.position chunk.length
    hashed := s.hashed ++ chunk
    copy := if first < last then
      blit s.copy (first - offset) ((chunk.drop (first - s.position)).take (last - first))
      else s.copy }

/-- The loop over the chunks of a file whose bytes from the position on are `rest`. -/
def readSliceFrom (total offset take : Nat) : Nat → Bytes → SliceRead → Except Err SliceRead
  | 0, _, s => .ok s
  | fuel + 1, rest, s =>
    let chunk := rest.take readBuffer
    if sizeSub total s.position < chunk.length then .error .parse
    else
      let s := if chunk = [] then s else sliceChunk offset take s chunk
      if chunk.length < readBuffer then .ok s
      else readSliceFrom total offset take fuel (rest.drop readBuffer) s

/-- `read_slice` of a file with the bytes `content`, for which the caller found the size `total`. Every
chunk but the last fills the buffer. -/
def readSlice (D : Digest) (content : Bytes) (total : Nat) (expected : Bytes) (offset take : Nat)
    (copy : Bytes) : Except Err Bytes := do
  let s ← readSliceFrom total offset take (content.length / readBuffer + 1) content ⟨0, [], copy⟩
  if s.position = total ∧ hexDigest D s.hashed = expected then .ok s.copy else .error .parse

/-- `out_data` and `out_size`. -/
structure ObjectRange where
  data : Bytes
  size : Nat
  deriving DecidableEq, Repr

/-- What a new buffer of a size holds. -/
abbrev Malloc := (n : Nat) → {b : Bytes // b.length = n}

/-- `asper_object_read`; `maxBytes` zero is no limit. -/
def objectReadRange (D : Digest) (malloc : Malloc) (ref : Bytes) (offset maxBytes : Nat) :
    Io ObjectRange := do
  require (sourceObjectValid ref = true) .invalid
  let path ← sourceObjectPath ref .io
  let content ← osBlobOpen path
  require (content.length ≤ objectBytes) .limit
  require (offset ≤ content.length) .invalid
  let left := content.length - offset
  let take := if maxBytes ≠ 0 ∧ maxBytes < left then maxBytes else left
  let copy ← Act.lift (readSlice D content content.length (ref.drop 7) offset take (malloc take))
  pure ⟨copy, take⟩

end Asper
