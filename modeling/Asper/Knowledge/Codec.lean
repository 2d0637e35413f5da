import Asper.Knowledge.Status

/-! # Groundings as text

A committed grounding is one JSON object (`knowledge_codec.c`): `knowledgeEncode` builds it,
`knowledgeDecode` takes it apart and checks it. The JSON text itself is read and written by a
library the store takes from elsewhere (`JsonText`). -/

namespace Asper

open Durable (Bytes)

inductive Json where
  | null
  | bool (b : Bool)
  | int (n : Int)
  | string (s : Bytes)
  | array (xs : List Json)
  | object (fields : List (Bytes × Json))

/-- `asmodel_json_write` and `asmodel_json_parse`. -/
structure JsonText where
  write : Json → Option CStr
  parse : Bytes → Option Json

def knowledgeItems : Nat := 16
def knowledgeContent : Nat := 65536

/-- `knowledge_hash`. -/
def knowledgeHash (s : Bytes) : Bool := s.length = 64 ∧ s.all isLowerHex

/-! ## Writing -/

/-- `INT64_MAX` bounds the numbers of the format. -/
def jsonNumber (n : Nat) : Option Json := if 2 ^ 63 - 1 < n then none else some (.int n)

def spanValue (s : SourceSpan) : Option Json := do
  let sequence ← jsonNumber s.sequence
  let sourceBegin ← jsonNumber s.sourceBegin
  let sourceEnd ← jsonNumber s.sourceEnd
  let claimBegin ← jsonNumber s.claimBegin
  let claimEnd ← jsonNumber s.claimEnd
  return .object [(ascii "scope", .string s.scope), (ascii "event", .string s.eventId),
    (ascii "sequence", sequence), (ascii "source_begin", sourceBegin),
    (ascii "source_end", sourceEnd), (ascii "claim_begin", claimBegin),
    (ascii "claim_end", claimEnd)]

def dependencyValue (d : Dependency) : Json :=
  .object [(ascii "resource", .string d.resource), (ascii "version", .string d.version)]

/-- The values of `asper_relation_kind`. -/
def RelationKind.code : RelationKind → Nat
  | .supports => 0 | .contradicts => 1 | .supersedes => 2

def RelationKind.ofCode (n : Int) : Option RelationKind :=
  if n = 0 then some .supports else if n = 1 then some .contradicts
  else if n = 2 then some .supersedes else none

def linkValue (l : KnowledgeLink) : Json :=
  .object [(ascii "kind", .int l.kind.code), (ascii "id", .string l.recordId),
    (ascii "hash", .string l.contentSha256)]

def entryValue (e : KnowledgeEntry) : Option Json := do
  let revision ← jsonNumber e.revision
  let sources ← e.grounding.sources.mapM spanValue
  return .object [(ascii "schema", .int 1), (ascii "id", .string e.id),
    (ascii "hash", .string e.hash), (ascii "revision", revision),
    (ascii "content", .string e.content), (ascii "reason", .string e.grounding.reason),
    (ascii "revoked", .bool e.grounding.revoked), (ascii "sources", .array sources),
    (ascii "dependencies", .array (e.grounding.dependencies.map dependencyValue)),
    (ascii "links", .array (e.grounding.links.map linkValue))]

/-- `knowledge_encode`. -/
def knowledgeEncode (J : JsonText) (e : KnowledgeEntry) : Option CStr := (entryValue e).bind J.write

/-! ## Reading -/

/-- `asmodel_json_object_get`, and `asmodel_json_object_count`. -/
def Json.get (key : Bytes) : Json → Option Json
  | .object fields => (fields.find? (·.1 = key)).map (·.2)
  | _ => none

def Json.count : Json → Nat
  | .object fields => fields.length
  | _ => 0

/-- A text that fits a `char` array of `size` bytes. -/
def stringField (o : Json) (key : Bytes) (size : Nat) : Option Bytes :=
  match o.get key with
  | some (.string s) => if 0 ∈ s ∨ size ≤ s.length then none else some s
  | _ => none

def integerField (o : Json) (key : Bytes) : Option Nat :=
  match o.get key with
  | some (.int n) => if n < 0 then none else some n.toNat
  | _ => none

def boolField (o : Json) (key : Bytes) : Option Bool :=
  match o.get key with
  | some (.bool b) => some b
  | _ => none

def parseSpan (o : Json) : Option SourceSpan := do
  guard (o.count = 7)
  let scope ← stringField o (ascii "scope") 65
  let eventId ← stringField o (ascii "event") 37
  let sequence ← integerField o (ascii "sequence")
  let sourceBegin ← integerField o (ascii "source_begin")
  let sourceEnd ← integerField o (ascii "source_end")
  let claimBegin ← integerField o (ascii "claim_begin")
  let claimEnd ← integerField o (ascii "claim_end")
  return ⟨scope, eventId, sequence, sourceBegin, sourceEnd, claimBegin, claimEnd⟩

def parseDependency (o : Json) : Option Dependency := do
  guard (o.count = 2)
  let resource ← stringField o (ascii "resource") 256
  let version ← stringField o (ascii "version") 129
  return ⟨resource, version⟩

def parseLink (o : Json) : Option KnowledgeLink := do
  guard (o.count = 3)
  let n ← integerField o (ascii "kind")
  let kind ← RelationKind.ofCode n
  let recordId ← stringField o (ascii "id") 37
  let contentSha256 ← stringField o (ascii "hash") 65
  return ⟨kind, recordId, contentSha256⟩

/-- The items of one of the three arrays. -/
def parseItems {α : Type} (o : Json) (key : Bytes) (parse : Json → Option α) : Option (List α) :=
  match o.get key with
  | some (.array xs) => if knowledgeItems < xs.length then none else xs.mapM parse
  | _ => none

def parseContent (o : Json) : Option Bytes :=
  match o.get (ascii "content") with
  | some (.string s) => if s = [] ∨ knowledgeContent < s.length ∨ 0 ∈ s then none else some s
  | _ => none

def parseEntry (D : Digest) (o : Json) : Option KnowledgeEntry := do
  guard (o.count = 10)
  let schema ← integerField o (ascii "schema")
  guard (schema = 1)
  let revision ← integerField o (ascii "revision")
  guard (revision ≠ 0)
  let id ← stringField o (ascii "id") 37
  guard (uuidValid id = true)
  let hash ← stringField o (ascii "hash") 65
  guard (knowledgeHash hash = true)
  let reason ← stringField o (ascii "reason") 256
  let revoked ← boolField o (ascii "revoked")
  let sources ← parseItems o (ascii "sources") parseSpan
  let dependencies ← parseItems o (ascii "dependencies") parseDependency
  let links ← parseItems o (ascii "links") parseLink
  let content ← parseContent o
  guard (contentHash D content = hash)
  return ⟨id, hash, content, revision, ⟨sources, dependencies, links, revoked, reason⟩, false⟩

/-- `knowledge_decode`; `nomem` when an allocation fails. -/
def knowledgeDecode (J : JsonText) (D : Digest) (nomem : Bool) (text : Bytes) :
    Except Err KnowledgeEntry :=
  match J.parse text with
  | none => .error .parse
  | some o =>
    if nomem then .error .nomem
    else match parseEntry D o with
      | none => .error .parse
      | some e => .ok e

end Asper
