import Asper.Curator.Grammar
import Asper.Curator.Wrapper
import Asper.Xcdn.Node

/-! # The structured output of the model

`asper_output_schema` and `asper_output_decode` of `output_contract.c`: the JSON schema that
constrains the provider and the reading of what it returns. The xCDN decoder is a parameter. -/

namespace Asper

open Durable (Bytes)
open Decimal (dec)

/-- `minLength` of the schema. -/
def schemaMin : Nat := 5

/-- `maxLength` of the schema. -/
def schemaMax : Nat := 32768

/-- The schema; none for a contract of too many handles. -/
def asperOutputSchema (kind : GrammarKind) (handles : Nat) : Option Bytes :=
  if 10000 < handles then none
  else some (ascii "\x7b\"type\":\"object\",\"properties\":\x7b\"output\":\x7b\"type\":\"string\"," ++
    ascii "\"minLength\":" ++ dec schemaMin ++ ascii ",\"maxLength\":" ++ dec schemaMax ++
    ascii ",\"pattern\":\"" ++
    (pattern kind handles).flatMap (fun b => if b = 92 ∨ b = 34 then [92, b] else [b]) ++
    ascii "\"\x7d\x7d,\"required\":[\"output\"],\"additionalProperties\":false\x7d")

/-- What `asper_output_decode` takes from a decoded value. -/
def outputValue (v : XValue) : Option CStr :=
  match v with
  | .object [(key, entry)] =>
    match entry.value with
    | .string s =>
      if strcmp (cstr key).val (ascii "output") = .eq ∧ 5 ≤ (cstr s).val.length ∧
          (cstr s).val.length ≤ 32768 ∧ utf8Valid (cstr s).val then some (cstr s)
      else none
    | _ => none
  | _ => none

/-- `asper_output_decode`: the text, which replaces the wrapper. -/
def asperOutputDecode (xcdnParse : Bytes → Option (List XNode)) (text : CStr) : Except Err CStr :=
  if wrapperValid (text.val ++ [0]) = some true then
    match xcdnParse text.val with
    | some [doc] =>
      match outputValue doc.value with
      | some decoded => .ok decoded
      | none => .error .parse
    | _ => .error .parse
  else .error .parse

end Asper
