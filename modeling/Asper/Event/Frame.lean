import Asper.Base.Uuid
import Asper.Lib.Decimal

/-! # AEV2 frames

One event is one frame: a header line with the metadata and two digests, the object reference,
the text and a newline (`event_frame.c`). `frameWrite` makes the frame, `frameRead` reads the
first frame of a stream and returns what follows it; `Err.notFound` is an empty or cut stream,
`Err.parse` a damaged one. -/

namespace Asper

open Durable (Bytes)
open Decimal

/-- A digest function of 32 bytes. -/
structure Digest where
  sha : Bytes → Bytes
  length_sha : ∀ b, (sha b).length = 32

/-- The digest of a concrete run: the first 32 bytes. -/
def padDigest : Digest where
  sha b := (b ++ List.replicate 32 0).take 32
  length_sha b := by
    rw [List.length_take, List.length_append, List.length_replicate]
    omega

def hexDigest (D : Digest) (b : Bytes) : Bytes := (D.sha b).flatMap hexByte

inductive EventKind where
  | user | assistant | decision | toolCall | toolResult | diagnostic | checkpoint | artifact
  deriving DecidableEq, Repr

def EventKind.code : EventKind → Nat
  | .user => 0 | .assistant => 1 | .decision => 2 | .toolCall => 3 | .toolResult => 4
  | .diagnostic => 5 | .checkpoint => 6 | .artifact => 7

def EventKind.ofCode : Nat → Option EventKind
  | 0 => some .user | 1 => some .assistant | 2 => some .decision | 3 => some .toolCall
  | 4 => some .toolResult | 5 => some .diagnostic | 6 => some .checkpoint | 7 => some .artifact
  | _ => none

@[simp] theorem EventKind.ofCode_code (k : EventKind) : EventKind.ofCode k.code = some k := by
  cases k <;> rfl

theorem EventKind.code_le (k : EventKind) : k.code ≤ 7 := by
  cases k <;> decide

structure Event where
  sequence : Nat
  at_ : Int
  kind : EventKind
  pinned : Bool
  id : Bytes
  objectRef : Bytes
  text : Bytes
  deriving DecidableEq, Repr

def eventBytes : Nat := 16 * 1024 * 1024
def eventLogBytes : Nat := 512 * 1024 * 1024

/-- The header without its digests. -/
def headText (e : Event) (obj text : Nat) : Bytes :=
  ascii "AEV2 " ++ (dec e.sequence ++ 32 :: (decInt e.at_ ++ 32 :: (dec e.kind.code ++ 32 ::
    (dec e.pinned.toNat ++ 32 :: (e.id ++ 32 :: (dec obj ++ 32 :: dec text))))))

/-- The digest of a frame: header, object reference and text. -/
def frameDigest (D : Digest) (head : Bytes) (e : Event) : Bytes :=
  hexDigest D (head ++ e.objectRef ++ e.text)

def headLine (D : Digest) (e : Event) : Bytes :=
  let head := headText e e.objectRef.length e.text.length
  head ++ 32 :: (hexDigest D head ++ 32 :: (frameDigest D head e ++ [10]))

def frameBytes (D : Digest) (e : Event) : Bytes :=
  headLine D e ++ (e.objectRef ++ (e.text ++ [10]))

def frameWrite (D : Digest) (e : Event) : Except Err Bytes :=
  if eventBytes < e.text.length ∨ 192 ≤ (headText e e.objectRef.length e.text.length).length then
    .error .invalid
  else .ok (frameBytes D e)

/-! ## Reading -/

/-- One call of `fgets` with a buffer of `n` bytes: the line and the rest of the stream. -/
def fgets (n : Nat) (s : Bytes) : Bytes × Bytes :=
  let l := (s.take (n - 1)).takeWhile (· ≠ 10)
  if (s.take (n - 1)).length = l.length then (l, s.drop l.length)
  else (l ++ [10], s.drop (l.length + 1))

/-- A number of at most `max` and the space after it. -/
def scanNumber (max : Nat) (p : Bytes) : Option (Nat × Bytes) :=
  match scanNat p with
  | some (n, b :: rest) => if 2 ^ 64 ≤ n ∨ max < n ∨ b ≠ 32 then none else some (n, rest)
  | _ => none

/-- A `long long` and the space after it. -/
def scanTime (p : Bytes) : Option (Int × Bytes) :=
  match scanInt p with
  | some (i, b :: rest) => if i < -2 ^ 63 ∨ 2 ^ 63 ≤ i ∨ b ≠ 32 then none else some (i, rest)
  | _ => none

/-- The header of a frame: the event without its object reference and text, their lengths and
the digest of the frame. -/
structure FrameHead where
  event : Event
  objectBytes : Nat
  textBytes : Nat
  hash : Bytes
  deriving DecidableEq, Repr

/-- Parse a whole header line. The fields must be spelled as `headText` spells them. -/
def parseHead (D : Digest) (hline : Bytes) : Option FrameHead := do
  guard (hline.take 5 = ascii "AEV2 ")
  let (seq, p) ← scanNumber (2 ^ 64 - 1) (hline.drop 5)
  guard (seq ≠ 0)
  let (at_, p) ← scanTime p
  let (k, p) ← scanNumber 7 p
  let kind ← EventKind.ofCode k
  let (pin, p) ← scanNumber 1 p
  guard (37 ≤ p.length ∧ p[36]? = some 32)
  let id := p.take 36
  guard (uuidValid id = true)
  let (obj, p) ← scanNumber 71 (p.drop 37)
  guard (obj = 0 ∨ obj = 71)
  let (text, p) ← scanNumber eventBytes p
  guard (p.length = 130 ∧ p[64]? = some 32 ∧ p[129]? = some 10)
  let e : Event := ⟨seq, at_, kind, pin == 1, id, [], []⟩
  let head := headText e obj text
  guard (head.length < 192 ∧ hline.length = head.length + 1 + p.length)
  guard (hline.take head.length = head ∧ hline[head.length]? = some 32)
  guard (hexDigest D head = p.take 64)
  return ⟨e, obj, text, (p.drop 65).take 64⟩

def frameHead (D : Digest) (s : Bytes) : Except Err (FrameHead × Bytes) :=
  if s = [] then .error .notFound
  else
    let (hline, rest) := fgets 352 s
    let l := hline.takeWhile (· ≠ 0)
    if 10 ∉ l then
      -- only a header cut by the end of the file is torn
      if (10 ∉ hline ∧ s.length < 351) ∧ l.take 5 = (ascii "AEV2 ").take l.length then
        .error .notFound
      else .error .parse
    else match parseHead D l with
      | some h => .ok (h, rest)
      | none => .error .parse

def isXDigit (b : UInt8) : Bool := isHex b

/-- An object reference as the frame reader takes it. -/
def objectText (obj : Bytes) : Bool :=
  obj.take 7 = ascii "sha256:" ∧ (obj.drop 7).all isXDigit

def frameRead (D : Digest) (s : Bytes) : Except Err (Event × Bytes) :=
  match frameHead D s with
  | .error e => .error e
  | .ok (h, rest) =>
    let obj := rest.take h.objectBytes
    if obj.length < h.objectBytes then .error .notFound
    else if obj ≠ [] ∧ objectText obj = false then .error .parse
    else
      let text := (rest.drop h.objectBytes).take h.textBytes
      if text.length < h.textBytes then .error .notFound
      else match rest.drop (h.objectBytes + h.textBytes) with
        | [] => .error .notFound
        | term :: rest =>
          if term ≠ 10 ∨ 0 ∈ text ∨ utf8Valid text = false then .error .parse
          else
            let e := { h.event with objectRef := obj, text }
            if h.hash = frameDigest D (headText h.event h.objectBytes h.textBytes) e then
              .ok (e, rest)
            else .error .parse

end Asper
