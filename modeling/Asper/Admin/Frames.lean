import Asper.Event.Frame

/-! # Frames in the maintenance scripts

`frames.py` reads event logs on its own, with what Python has for numbers and texts. `Py.event` is
its reader of one frame, `scan` a reader applied until it gives no frame. -/

namespace Asper

open Durable (Bytes)
open Decimal

namespace Py

/-! ## Python on ASCII texts -/

/-- White space at the ends of a number. -/
def isSpace (b : UInt8) : Bool := (9 ≤ b ∧ b ≤ 13) ∨ (28 ≤ b ∧ b ≤ 32)

def strip (s : Bytes) : Bytes := ((s.dropWhile isSpace).reverse.dropWhile isSpace).reverse

/-- Digits, with single underscores between them. -/
def natural (s : Bytes) : Option Nat :=
  if (s.splitOn 95).all (fun g => !g.isEmpty && g.all isDigit) then
    some (number (s.splitOn 95).flatten)
  else none

def signed (s : Bytes) : Option Int :=
  if s.head? = some 45 then (natural s.tail).map fun n : Nat => -(n : Int)
  else if s.head? = some 43 then (natural s.tail).map Int.ofNat
  else (natural s).map Int.ofNat

/-- `int`. -/
def int (s : Bytes) : Option Int := signed (strip s)

/-- `bytes.decode("utf-8")`. -/
def decodes (s : Bytes) : Bool := (ByteArray.mk s.toArray).validateUTF8

/-- `stream.readline(n)`, and what is left of the stream. -/
def readline (n : Nat) (s : Bytes) : Bytes × Bytes :=
  let l := (s.take n).takeWhile (· ≠ 10)
  if l.length < (s.take n).length then (l ++ [10], s.drop (l.length + 1)) else (l, s.drop l.length)

/-- The hyphens in the pattern `ID`. -/
def idDashes : List Bool :=
  List.replicate 8 false ++ (List.replicate 3 (true :: List.replicate 4 false)).flatten ++
    true :: List.replicate 12 false

/-- `ID.fullmatch`. -/
def idMatches (s : Bytes) : Bool := shapeAux isHex idDashes s

/-- The pattern of an object reference. -/
def originMatches (s : Bytes) : Bool :=
  s.take 7 = ascii "sha256:" ∧ s.length = 71 ∧ (s.drop 7).all isHex

/-! ## Frames -/

/-- `event` returned `None`, or raised an exception. -/
inductive End where
  | finished | raised
  deriving DecidableEq, Repr

/-- The numbers of a header. -/
structure Numbers where
  seq : Int
  at_ : Int
  kind : Int
  pinned : Int
  obj : Int
  size : Int

def numbers (fields : List Bytes) : Option Numbers := do
  let seq ← int (fields.getD 1 [])
  let at_ ← int (fields.getD 2 [])
  let kind ← int (fields.getD 3 [])
  let pinned ← int (fields.getD 4 [])
  let obj ← int (fields.getD 6 [])
  let size ← int (fields.getD 7 [])
  return ⟨seq, at_, kind, pinned, obj, size⟩

/-- The formatted string that a header begins with. -/
def headText (n : Numbers) (id : Bytes) : Bytes :=
  ascii "AEV2 " ++ decInt n.seq ++ [32] ++ decInt n.at_ ++ [32] ++ decInt n.kind ++ [32] ++
    decInt n.pinned ++ [32] ++ id ++ [32] ++ decInt n.obj ++ [32] ++ decInt n.size

def Numbers.ok (limit : Nat) (n : Numbers) : Bool :=
  (1 ≤ n.seq ∧ n.seq ≤ 2 ^ 64 - 1) ∧ (-2 ^ 63 ≤ n.at_ ∧ n.at_ ≤ 2 ^ 63 - 1) ∧
    (0 ≤ n.kind ∧ n.kind ≤ 7) ∧ (n.pinned = 0 ∨ n.pinned = 1) ∧ (n.obj = 0 ∨ n.obj = 71) ∧
    0 ≤ n.size ∧ n.size ≤ limit

/-- A header line that is in order: its numbers, its id, and the digest of the frame. -/
structure Header where
  numbers : Numbers
  id : Bytes
  hash : Bytes

/-- The part of `event` before the payload is read; none when an exception is raised. -/
def header (D : Digest) (limit : Nat) (hline : Bytes) : Option Header :=
  let fields := hline.dropLast.splitOn 32
  let id := fields.getD 5 []
  if hline.all (· < 128) = true ∧ hline.getLast? = some 10 ∧ fields.length = 10 ∧
      fields.getD 0 [] = ascii "AEV2" then
    match numbers fields with
    | none => none
    | some n =>
      if n.ok limit = true ∧ idMatches id = true ∧
          [32].intercalate (fields.take 8) = headText n id ∧
          fields.getD 8 [] = hexDigest D (headText n id) then
        some ⟨n, id, fields.getD 9 []⟩
      else none
  else none

/-- The part of `event` that reads the payload. -/
def payload (D : Digest) (h : Header) (rest : Bytes) : Option (Event × Bytes) :=
  let obj := h.numbers.obj.toNat
  let size := obj + h.numbers.size.toNat
  let data := rest.take size
  let origin := data.take obj
  let text := data.drop obj
  if data.length = size ∧ (rest.drop size).head? = some 10 ∧
      h.hash = hexDigest D (headText h.numbers h.id ++ data) ∧
      origin.all (· < 128) = true ∧ decodes text = true ∧
      0 ∉ text ∧ (origin = [] ∨ originMatches origin = true) then
    match EventKind.ofCode h.numbers.kind.toNat with
    | none => none
    | some kind => some (⟨h.numbers.seq.toNat, h.numbers.at_, kind, h.numbers.pinned == 1, h.id,
        origin, text⟩, rest.drop (size + 1))
  else none

/-- `event`. -/
def event (D : Digest) (limit : Nat) (s : Bytes) : Except End (Event × Bytes) :=
  let r := readline 352 s
  if r.1 = [] then .error .finished
  else match header D limit r.1 with
    | none => .error .raised
    | some h => match payload D h r.2 with
      | none => .error .raised
      | some x => .ok x

end Py

/-! ## Whole logs -/

/-- The frames a reader gives from the start of a stream, and what the first call without one
returns. -/
def scan {ε : Type} (read : Bytes → Except ε (Event × Bytes)) : Nat → Bytes → List Event × Option ε
  | 0, _ => ([], none)
  | n + 1, s =>
    match read s with
    | .error e => ([], some e)
    | .ok (e, rest) => (e :: (scan read n rest).1, (scan read n rest).2)

end Asper
