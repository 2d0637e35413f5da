import Asper.Lib.Buffer
import Asper.Record.Transaction

/-! # The text of a compaction marker

`markerText` is what `asper_compact_begin` writes for the files of a transaction, a row for each
(`store_transaction.c`). `markerParse` is the `parse` of the same file as it runs, over the buffer
that holds the text: a pointer is the number of a cell, the newline of a row is overwritten to end
the row's name, and `none` is a read outside of the buffer. -/

namespace Asper

open Durable (Bytes joinRows)

/-! ## Writing -/

/-- The row of a file: with the digest of its backup, or without one when there was no file. -/
def CompactRow.text (row : CompactRow) : Bytes :=
  if row.existed then ascii "E " ++ row.hash ++ ascii " " ++ row.rel else ascii "M - " ++ row.rel

def markerText (rows : List CompactRow) : Bytes := joinRows (rows.map CompactRow.text)

/-! ## Parsing -/

/-- `entry` as `parse` fills it: the name is a pointer into the buffer. -/
structure MarkerEntry where
  rel : Nat
  hash : Bytes
  existed : Bool

/-- `exists && strlen(line) >= 68 && line[1] == ' ' && line[66] == ' '`. -/
def markerExists (mem : Bytes) (p : Nat) : Option Bool := do
  if (← mem[p]?) = 69 then
    if 68 ≤ (← Buffer.text 0 mem p).length then
      if (← mem[p + 1]?) = 32 then return (← mem[p + 66]?) = 32 else return false
    else return false
  else return false

/-- The entry of the row at `p` and whether its digest is one; a line that starts as no row does
has no entry. -/
def markerEntry (mem : Bytes) (p : Nat) : Option (Option (MarkerEntry × Bool)) := do
  if ← markerExists mem p then
    let hash ← Buffer.copy mem (p + 2) 64
    return some (⟨p + 67, hash, true⟩, hash.all isLowerHex)
  else if ← Buffer.begins mem p (ascii "M - ") then
    return some (⟨p + 4, [], false⟩, true)
  else return none

/-- The entry, unless its row is damaged, or names a file that is no part of the store or that an
earlier row names. -/
def markerRow (entries : List MarkerEntry) (mem : Bytes) (p : Nat) : Option (Option MarkerEntry) := do
  match ← markerEntry mem p with
  | none => return none
  | some (entry, digest) =>
    let rel ← Buffer.text 0 mem entry.rel
    let listed ← entries.mapM fun e => Buffer.text 0 mem e.rel
    return if digest ∧ relativeValid rel ∧ rel ∉ listed then some entry else none

/-- What the caller reads of an entry. -/
def MarkerEntry.read (mem : Bytes) (entry : MarkerEntry) : Option CompactRow := do
  return ⟨← Buffer.text 0 mem entry.rel, entry.hash, entry.existed⟩

/-- What a turn of the loop in `parse` comes to. -/
inductive MarkerTurn where
  | finished
  | refused
  | row (entry : MarkerEntry) (mem : Bytes) (next : Nat)

/-- A turn of the loop, at `p`. -/
def markerTurn (entries : List MarkerEntry) (mem : Bytes) (p : Nat) : Option MarkerTurn := do
  if (← mem[p]?) = 0 then return .finished
  else
    match ← Buffer.find 0 mem 10 p with
    | none => return .refused
    | some fin =>
      if entries.length = maxFiles then return .refused
      else
        match ← markerRow entries (mem.set fin 0) p with
        | none => return .refused
        | some entry => return .row entry (mem.set fin 0) (fin + 1)

/-- The loop, which the fuel bounds: each turn but the last fills an entry of the array. -/
def markerParseFrom : Nat → List MarkerEntry → Bytes → Nat → Option (Except Err (List CompactRow))
  | 0, _, _, _ => none
  | fuel + 1, entries, mem, p => do
    match ← markerTurn entries mem p with
    | .finished => return .ok (← entries.mapM (·.read mem))
    | .refused => return .error .parse
    | .row entry mem next => markerParseFrom fuel (entries ++ [entry]) mem next

/-- `parse`, of a buffer with the terminator in its last cell. -/
def markerParse (mem : Bytes) : Option (Except Err (List CompactRow)) := do
  match ← markerParseFrom (maxFiles + 1) [] mem 0 with
  | .error e => return .error e
  | .ok rows => return if rows = [] then .error .parse else .ok rows

end Asper
