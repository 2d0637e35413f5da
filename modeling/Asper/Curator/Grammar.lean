import Asper.Curator.Cycle
import Asper.Lib.Notation

/-! # The language of the curator's answers

Three definitions of it: the grammar that constrains the model (`asperGbnfBuild`), the regular
expression in the output contract (`pattern`, `output_contract.c`) and the parser
(`asperProtocolParse`, both in `grammar.c`). -/

namespace Asper

open Durable
open Decimal (dec isDigit)

inductive GrammarKind where
  | curation | review | recall
  deriving DecidableEq

/-! ## The grammar and the regular expression -/

/-- `M<n>` for the handles from 1. -/
def handleText (i : Nat) : Bytes := ascii "M" ++ dec (i + 1)

def gbnfHandleRule (handleCount : Nat) : Bytes :=
  ascii "handle ::= " ++
    (ascii " | ").intercalate ((List.range handleCount).map fun i =>
      ascii "\"" ++ handleText i ++ ascii "\"") ++ ascii "\n"

def asperGbnfBuild (kind : GrammarKind) (handleCount : Nat) : Bytes :=
  match kind with
  | .curation =>
    ascii "root ::= noop | opline+\n" ++
    (if 0 < handleCount then ascii "opline ::= insert | update | deprecate\n"
      else ascii "opline ::= insert\n") ++
    ascii "noop ::= \"NOOP\" \"\\n\"\n" ++
    ascii ("insert ::= \"INSERT \" (\"identity\" | \"context\" | \"project\") " ++
      "\" | \" text \"\\n\"\n") ++
    (if 0 < handleCount then
      ascii "update ::= \"UPDATE \" handle \" | \" text \"\\n\"\n" ++
      ascii "deprecate ::= \"DEPRECATE \" handle \" | \" text \"\\n\"\n" ++
      gbnfHandleRule handleCount
      else []) ++
    ascii "text ::= [^|\\n\\r]+\n"
  | .review =>
    if handleCount = 0 then
      ascii "root ::= noop\n" ++ ascii "noop ::= \"NOOP\" \"\\n\"\n"
    else
      ascii "root ::= noop | revline+\n" ++
      ascii "revline ::= deprecate | keep\n" ++
      ascii "noop ::= \"NOOP\" \"\\n\"\n" ++
      ascii "deprecate ::= \"DEPRECATE \" handle \" | \" text \"\\n\"\n" ++
      ascii "keep ::= \"KEEP \" handle \"\\n\"\n" ++
      gbnfHandleRule handleCount ++
      ascii "text ::= [^|\\n\\r]+\n"
  | .recall =>
    (if handleCount = 0 then ascii "root ::= nomem | answer\n"
      else ascii "root ::= nomem | (answer citeline*)\n") ++
    ascii "nomem ::= \"NOMEM\" \"\\n\"\n" ++
    ascii "answer ::= \"ANSWER | \" text \"\\n\"\n" ++
    (if 0 < handleCount then
      ascii "citeline ::= \"CITE \" handle \"\\n\"\n" ++ gbnfHandleRule handleCount
      else []) ++
    ascii "text ::= [^|\\n\\r]+\n"

/-- `handles` of the output contract. -/
def handlesPattern (n : Nat) : Bytes :=
  ascii "(" ++ (ascii "|").intercalate ((List.range n).map handleText) ++ ascii ")"

def pattern (kind : GrammarKind) (handleCount : Nat) : Bytes :=
  match kind with
  | .curation =>
    ascii "^(NOOP\\n|((INSERT (identity|context|project) \\| [^|\\n\\r]+" ++
    (if handleCount ≠ 0 then
      ascii "|(UPDATE|DEPRECATE) " ++ handlesPattern handleCount ++ ascii " \\| [^|\\n\\r]+"
      else []) ++
    ascii ")\\n)+)$"
  | .review =>
    if handleCount = 0 then ascii "^NOOP\\n$"
    else ascii "^(NOOP\\n|((DEPRECATE " ++ handlesPattern handleCount ++
      ascii " \\| [^|\\n\\r]+|KEEP " ++ handlesPattern handleCount ++ ascii ")\\n)+)$"
  | .recall =>
    ascii "^(NOMEM\\n|ANSWER \\| [^|\\n\\r]+\\n" ++
    (if handleCount ≠ 0 then ascii "(CITE " ++ handlesPattern handleCount ++ ascii "\\n)*"
      else []) ++
    ascii ")$"

/-! ## The parser -/

/-- `asper_str_trim`. -/
def strTrim (s : Bytes) : Bytes :=
  (s.reverse.dropWhile isAsciiSpace).reverse.dropWhile isAsciiSpace

def isBlank (b : UInt8) : Bool := b = 32 ∨ b = 9

/-- The word at the start of `s`, followed by a blank or the end: what comes after it and the
blanks. -/
def wordPrefix (s w : Bytes) : Option Bytes :=
  if s.take w.length = w then
    match s.drop w.length with
    | [] => some []
    | b :: r => if isBlank b then some ((b :: r).dropWhile isBlank) else none
  else none

/-- Where the separator of a line starts; trimming may have cut its last blank. -/
def findSep (s : Bytes) : Option Nat :=
  let sep := strstr (ascii " | ") s
  if 2 ≤ s.length ∧ s.drop (s.length - 2) = ascii " |" then
    match sep with
    | none => some (s.length - 2)
    | some i => if s.length - 2 < i then some (s.length - 2) else some i
  else sep

/-- The digits of a handle and what follows, none past a million. -/
def handleDigits : Nat → Bytes → Option (Nat × Bytes)
  | v, [] => some (v, [])
  | v, b :: s =>
    if isDigit b then
      if 1000000 < v * 10 + (b.toNat - 48) then none else handleDigits (v * 10 + (b.toNat - 48)) s
    else some (v, b :: s)

def parseHandle (tok : Bytes) (handleCount : Nat) : Option Nat :=
  match tok with
  | 77 :: b :: s =>
    if isDigit b then
      match handleDigits 0 (b :: s) with
      | some (v, []) => if v < 1 ∨ handleCount < v then none else some v
      | _ => none
    else none
  | _ => none

/-- What follows the first word is ignored. -/
def parseHandleToken (s : Bytes) (handleCount : Nat) : Option Nat :=
  parseHandle (s.takeWhile fun b => !isBlank b) handleCount

/-- The part of a trimmed line after `INSERT`. -/
def parseInsert (rest : Bytes) : Option Cop := do
  let sep ← findSep rest
  let section_ ← sectionParse (strTrim (rest.take sep))
  pure (.insert section_ (cstr (strTrim (rest.drop (sep + 2)))))

/-- The part after `UPDATE` or `DEPRECATE`. -/
def parseChange (handleCount : Nat) (op : Nat → CStr → Cop) (rest : Bytes) : Option Cop := do
  let sep ← findSep rest
  let handle ← parseHandleToken (strTrim (rest.take sep)) handleCount
  pure (op handle (cstr (strTrim (rest.drop (sep + 2)))))

def parseAnswer : Bytes → Option Cop
  | 124 :: s => some (.answer (cstr (strTrim s)))
  | _ => none

/-- `parse_line`. -/
def parseLine (t : Bytes) (handleCount : Nat) : Option Cop :=
  if t = ascii "NOOP" then some .noop
  else if t = ascii "NOMEM" then some .nomem
  else match wordPrefix t (ascii "INSERT") with
    | some rest => parseInsert rest
    | none => match wordPrefix t (ascii "UPDATE") with
      | some rest => parseChange handleCount .update rest
      | none => match wordPrefix t (ascii "DEPRECATE") with
        | some rest => parseChange handleCount .setDeprecated rest
        | none => match wordPrefix t (ascii "KEEP") with
          | some rest => (parseHandleToken rest handleCount).map .keep
          | none => match wordPrefix t (ascii "CITE") with
            | some rest => (parseHandleToken rest handleCount).map .cite
            | none => match wordPrefix t (ascii "ANSWER") with
              | some rest => parseAnswer rest
              | none => none

/-- Read one line, with the operations and the bad lines so far. -/
def parseRow (handleCount : Nat) (acc : List Cop × Nat) (row : Bytes) : List Cop × Nat :=
  if strTrim row = [] then acc
  else match parseLine (strTrim row) handleCount with
    | some op => (acc.1 ++ [op], acc.2)
    | none => (acc.1, acc.2 + 1)

/-- The lines of a text; the last need not end in a newline. -/
def textRows (text : Bytes) : List Bytes :=
  if (splitRows text).2 = [] then (splitRows text).1
  else (splitRows text).1 ++ [(splitRows text).2]

/-- `asper_protocol_parse`: the operations and the number of bad lines. -/
def asperProtocolParse (text : CStr) (handleCount : Nat) : List Cop × Nat :=
  (textRows text.val).foldl (parseRow handleCount) ([], 0)

end Asper
