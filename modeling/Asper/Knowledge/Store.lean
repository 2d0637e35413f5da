import Asper.Knowledge.Codec
import Asper.Source.Events

/-! # The store of groundings

The host grounds the claim of a record under an optimistic revision (`memoryGround`,
`knowledge_api.c`), once `knowledgeValidate` has checked it (`knowledge_validate.c`). Groundings
go to a log of their own, which `knowledgeOpen` reads back (`knowledge_store.c`). -/

namespace Asper

open Durable

/-! ## What the host gives -/

/-- The fields of `asper_source_span`. A `char` array without a terminator holds no text. -/
structure RawSpan where
  scope : Option Bytes
  eventId : Option Bytes
  sequence : Nat
  sourceBegin : Nat
  sourceEnd : Nat
  claimBegin : Nat
  claimEnd : Nat

structure RawDependency where
  resource : Option Bytes
  version : Option Bytes

structure RawLink where
  kind : Int
  recordId : Option Bytes
  contentSha256 : Option Bytes

structure RawGrounding where
  sources : List RawSpan
  dependencies : List RawDependency
  links : List RawLink
  revoked : Int
  reason : Option Bytes

/-- The text of a `char` array of `size` bytes. -/
def FitsArray (size : Nat) (s : Option Bytes) : Prop := ∀ b, s = some b → 0 ∉ b ∧ b.length < size

/-- The texts of a grounding fit the arrays they are held in. -/
structure RawGrounding.Fits (g : RawGrounding) : Prop where
  sources : ∀ s ∈ g.sources, FitsArray 65 s.scope ∧ FitsArray 37 s.eventId
  dependencies : ∀ d ∈ g.dependencies, FitsArray 256 d.resource ∧ FitsArray 129 d.version
  links : ∀ l ∈ g.links, FitsArray 37 l.recordId ∧ FitsArray 65 l.contentSha256
  reason : FitsArray 256 g.reason

/-- `asper_grounding`. -/
abbrev GroundingInput := {g : RawGrounding // g.Fits}

def RawSpan.read (s : RawSpan) : Option SourceSpan := do
  let scope ← s.scope
  let eventId ← s.eventId
  return ⟨scope, eventId, s.sequence, s.sourceBegin, s.sourceEnd, s.claimBegin, s.claimEnd⟩

def RawDependency.read (d : RawDependency) : Option Dependency := do
  let resource ← d.resource
  let version ← d.version
  return ⟨resource, version⟩

def RawLink.read (l : RawLink) : Option KnowledgeLink := do
  let kind ← RelationKind.ofCode l.kind
  let recordId ← l.recordId
  let contentSha256 ← l.contentSha256
  return ⟨kind, recordId, contentSha256⟩

/-- The grounding when every array holds a text and every kind is one. -/
def RawGrounding.read (g : RawGrounding) : Option Grounding := do
  let sources ← g.sources.mapM RawSpan.read
  let dependencies ← g.dependencies.mapM RawDependency.read
  let links ← g.links.mapM RawLink.read
  let reason ← g.reason
  return ⟨sources, dependencies, links, g.revoked ≠ 0, reason⟩

/-- A grounding of the store, as the fields of an `asper_grounding`. -/
def Grounding.raw (g : Grounding) : RawGrounding where
  sources := g.sources.map fun s => ⟨some s.scope, some s.eventId, s.sequence, s.sourceBegin,
    s.sourceEnd, s.claimBegin, s.claimEnd⟩
  dependencies := g.dependencies.map fun d => ⟨some d.resource, some d.version⟩
  links := g.links.map fun l => ⟨l.kind.code, some l.recordId, some l.contentSha256⟩
  revoked := g.revoked.toNat
  reason := some g.reason

/-! ## Checks -/

/-- `text_ok`. -/
def textOk (s : Option Bytes) (allowEmpty : Bool) : Bool :=
  match s with
  | none => false
  | some s => (allowEmpty || s ≠ []) && utf8Valid s

/-- No code point of the text spans the offset. The terminator is a boundary. -/
def boundary (text : Bytes) (i : Nat) : Bool := !isCont (text[i]?.getD 0)

def rangeOk (text : Bytes) (first stop : Nat) : Bool :=
  first < stop ∧ stop ≤ text.length ∧ boundary text first = true ∧ boundary text stop = true

/-- The deepest path of supports that is followed. -/
def supportDepth : Nat := 32

/-- How deep each id was visited, 0 for never. -/
abbrev Visited := Bytes → Nat

/-- Follow the supports among the links, until one gets there. -/
def reachesLinks (reach : Bytes → Visited → Bool × Visited) :
    List KnowledgeLink → Visited → Bool × Visited
  | [], v => (false, v)
  | l :: ls, v =>
    if l.kind = .supports then
      let r := reach l.recordId v
      if r.1 then r else reachesLinks reach ls r.2
    else reachesLinks reach ls v

/-- `reaches`, with `left` steps to the deepest path. -/
def reaches (k : Knowledge) (goal : Bytes) : Nat → Bytes → Visited → Bool × Visited
  | 0, _, v => (true, v)
  | left + 1, id, v =>
    if id = goal then (true, v)
    else match knowledgeFind k id with
      | none => (false, v)
      | some e =>
        let depth := supportDepth - (left + 1)
        if depth + 1 ≤ v id then (false, v)
        else reachesLinks (reaches k goal left) e.grounding.links (Function.update v id (depth + 1))

section
variable (D : Digest) (t : Table) (k : Knowledge) (r : Option Record)

def spanCheck (s : RawSpan) : Bool :=
  textOk s.scope false && s.scope.any sourceScopeValid && textOk s.eventId false &&
    s.eventId.any uuidValid && (s.sequence ≠ 0 && s.sequence ≤ 2 ^ 63 - 1) &&
    (s.sourceBegin < s.sourceEnd && s.claimBegin < s.claimEnd) &&
    (s.sourceEnd ≤ 2 ^ 63 - 1 && s.claimEnd ≤ 2 ^ 63 - 1) &&
    r.all fun r => rangeOk r.content s.claimBegin s.claimEnd

/-- No resource is depended on twice. -/
def dependenciesCheck : List (Option Bytes) → List RawDependency → Bool
  | _, [] => true
  | before, d :: ds => textOk d.resource false && textOk d.version false &&
      (d.resource ∉ before) && dependenciesCheck (before ++ [d.resource]) ds

/-- A link leads to another record, whose text is known; support must not lead back. -/
def linkTarget (l : RawLink) (r : Record) : Except Err Unit :=
  match l.recordId with
  | none => .error .invalid
  | some id => match t.get id with
    | none => .error .invalid
    | some other =>
      if r.id = id then .error .invalid
      else if some (contentHash D other.content) ≠ l.contentSha256 then .error .busy
      else if l.kind = 0 ∧ (reaches k r.id supportDepth id fun _ => 0).1 = true then .error .invalid
      else .ok ()

def linksCheck : List (Option Bytes) → List RawLink → Except Err Unit
  | _, [] => .ok ()
  | before, l :: ls =>
    if l.kind < 0 ∨ 2 < l.kind ∨ textOk l.recordId false = false ∨
        l.recordId.any uuidValid = false ∨ textOk l.contentSha256 false = false ∨
        l.contentSha256.any knowledgeHash = false ∨ l.recordId ∈ before then .error .invalid
    else match r with
      | none => linksCheck (before ++ [l.recordId]) ls
      | some r => do
        linkTarget D t k l r
        linksCheck (before ++ [l.recordId]) ls

/-- `knowledge_validate`; without a record when the log is read back. -/
def knowledgeValidate (g : RawGrounding) : Except Err Unit :=
  if knowledgeItems < g.sources.length ∨ knowledgeItems < g.dependencies.length ∨
      knowledgeItems < g.links.length ∨ (g.revoked ≠ 0 ∧ g.revoked ≠ 1) ∨
      textOk g.reason (g.revoked = 0) = false then .error .invalid
  else if r.any fun r => knowledgeContent < r.content.length then .error .limit
  else if g.sources.all (spanCheck r) = false then .error .invalid
  else if dependenciesCheck [] g.dependencies = false then .error .invalid
  else linksCheck D t k r [] g.links

end

/-- The event a span was taken from is where the span says. -/
def spanSource (D : Digest) (s : SourceSpan) : Io Unit := do
  require (sourceScopeValid s.scope = true) .invalid
  let (es, _) ← eventPage D s.scope [] (s.sequence - 1) 1
  match es with
  | e :: _ => require (e.sequence = s.sequence ∧ e.id = s.eventId ∧
      rangeOk e.text s.sourceBegin s.sourceEnd = true) .invalid
  | [] => Act.fail .invalid

/-- `knowledge_sources`. -/
def knowledgeSources (D : Digest) (g : Grounding) : Io Unit :=
  g.sources.forM (spanSource D)

/-! ## Commit -/

def knowledgeRecords : Nat := 16384

def knowledgeFile : Path := [ascii "knowledge.events"]

/-- Which allocations of a call fail: the text and the copy of the entry, its place, its text. -/
structure GroundFaults where
  encode : Bool
  decode : Bool
  reserve : Bool
  text : Bool
  deriving DecidableEq

def GroundFaults.none : GroundFaults := ⟨false, false, false, false⟩

/-- What a call draws from outside. -/
structure GroundDraw where
  now : Clock
  id : Uuid
  faults : GroundFaults

def Knowledge.poison (k : Knowledge) : Knowledge := { k with poisoned := true }

/-- The event an entry is logged as. -/
def knowledgeEvent (w : GroundDraw) (text : CStr) : Event :=
  ⟨0, w.now.val, .diagnostic, false, w.id.val, [], text.val⟩

/-- `reserve`. -/
def knowledgeReserve (k : Knowledge) (nomem : Bool) : Except Err Unit :=
  if knowledgeRecords ≤ k.entries.length then .error .limit
  else if nomem then .error .nomem
  else .ok ()

/-- `knowledge_commit` up to the append: the text of the entry. -/
def commitText (J : JsonText) (w : GroundDraw) (k : Knowledge) (e : KnowledgeEntry) :
    Except Err CStr :=
  if k.poisoned then .error .io
  else match if (knowledgeFind k e.id).isNone then knowledgeReserve k w.faults.reserve else .ok () with
    | .error err => .error err
    | .ok _ => match if w.faults.text then none else knowledgeEncode J e with
      | none => .error .nomem
      | some text => .ok text

/-- `replace`, when the id is one. -/
def Knowledge.store (k : Knowledge) (e : KnowledgeEntry) : Knowledge :=
  if h : uuidValid e.id = true then k.replace e h else k

/-- The append of `knowledge_commit`. The store is closed when the append fails. -/
def commitAppend (D : Digest) (w : GroundDraw) (k : Knowledge) (e : KnowledgeEntry) (text : CStr) :
    Io (Knowledge × Option Err) := do
  match ← (eventLogAppend D knowledgeFile (knowledgeEvent w text)).attempt with
  | .error err => pure (k.poison, some err)
  | .ok _ => pure (k.store { e with sourcesOk := true }, none)

section
variable (J : JsonText) (D : Digest)

/-- The checks of `asper_memory_ground` that read the store only. -/
def groundCheck (poisoned : Bool) (t : Table) (k : Knowledge) (id hash : Bytes) (expected : Nat)
    (g : GroundingInput) : Except Err (Record × Grounding) :=
  if poisoned ∨ k.poisoned then .error .io
  else match t.get id with
    | none => .error .notFound
    | some r =>
      if r.deprecated then .error .notFound
      else if expected ≠ ((knowledgeFind k id).map (·.revision)).getD 0 then .error .busy
      else if contentHash D r.content ≠ hash then .error .busy
      else match knowledgeValidate D t k (some r) g.val, g.val.read with
        | .error err, _ => .error err
        -- a grounding that passes the checks can be read
        | .ok _, none => .error .invalid
        | .ok _, some g => .ok (r, g)

/-- The entry `asper_memory_ground` commits: a copy, made by writing and reading it. -/
def groundCopy (w : GroundDraw) (id hash : Bytes) (expected : Nat) (r : Record) (g : Grounding) :
    Except Err KnowledgeEntry :=
  match if w.faults.encode then none
    else knowledgeEncode J ⟨id, hash, r.content, expected + 1, g, false⟩ with
  | none => .error .nomem
  | some text => knowledgeDecode J D w.faults.decode text.val

/-- The arguments of `asper_memory_ground`. -/
structure GroundCall where
  id : CStr
  hash : CStr
  expected : Nat
  grounding : GroundingInput

/-- `asper_memory_ground` up to the append: the entry and its text. -/
def groundPrepare (w : GroundDraw) (poisoned : Bool) (t : Table) (k : Knowledge) (c : GroundCall) :
    Io (KnowledgeEntry × CStr) := do
  require (uuidValid c.id.val = true ∧ knowledgeHash c.hash.val = true ∧
    c.expected < 2 ^ 63 - 1) .invalid
  let (r, g) ← Act.lift (groundCheck D poisoned t k c.id.val c.hash.val c.expected c.grounding)
  knowledgeSources D g
  let e ← Act.lift (groundCopy J D w c.id.val c.hash.val c.expected r g)
  let text ← Act.lift (commitText J w k e)
  pure (e, text)

/-- `asper_memory_ground`: the store after the call, and the error if it failed. -/
def memoryGround (w : GroundDraw) (poisoned : Bool) (t : Table) (k : Knowledge) (c : GroundCall) :
    Io (Knowledge × Option Err) := do
  match ← (groundPrepare J D w poisoned t k c).attempt with
  | .error err => pure (k, some err)
  | .ok p => commitAppend D w k p.1 p.2

/-! ## Reading the log back -/

/-- The entry of an event of the log, checked against those before it. -/
def openEntry (t : Table) (k : Knowledge) (event : Event) : Except Err KnowledgeEntry := do
  if event.kind ≠ .diagnostic then throw .parse
  let e ← knowledgeDecode J D false event.text
  knowledgeValidate D t k none e.grounding.raw
  if e.revision ≠ ((knowledgeFind k e.id).map (·.revision + 1)).getD 1 then throw .parse
  if (knowledgeFind k e.id).isNone then knowledgeReserve k false
  return e

def openEvents (t : Table) : List Event → Knowledge → Io Knowledge
  | [], k => pure k
  | event :: es, k => do
    let e ← Act.lift (openEntry J D t k event)
    let sources ← (knowledgeSources D e.grounding).attempt
    openEvents t es (k.store { e with sourcesOk := sources.isOk })

/-- The events of one page. -/
def knowledgePage : Nat := 64

/-- Read the log page by page, until a page is empty. -/
def openPages (t : Table) : Nat → Nat → Knowledge → Io Knowledge
  | 0, _, k => pure k
  | fuel + 1, next, k => do
    let (es, next) ← eventLogPage D knowledgeFile [] next knowledgePage
    let k ← openEvents J D t es k
    if es = [] then pure k else openPages t fuel next k

/-- The sources of an entry count only while its grounding passes the checks for the record. -/
def revalidated (t : Table) (k : Knowledge) (e : KnowledgeEntry) : KnowledgeEntry :=
  match t.get e.id with
  | none => e
  | some r =>
    if contentHash D r.content = e.hash ∧
        (knowledgeValidate D t k (some r) e.grounding.raw).isOk = false then
      { e with sourcesOk := false }
    else e

theorem revalidated_id (t : Table) (k : Knowledge) (e : KnowledgeEntry) :
    (revalidated D t k e).id = e.id := by
  unfold revalidated
  split
  · rfl
  · split <;> rfl

def Knowledge.revalidate (t : Table) (k : Knowledge) : Knowledge where
  entries := k.entries.map (revalidated D t k)
  observations := k.observations
  poisoned := k.poisoned
  sorted := by
    refine List.pairwise_map.2 (k.sorted.imp fun h => ?_)
    rwa [revalidated_id, revalidated_id]
  valid x hx := by
    obtain ⟨e, he, rfl⟩ := List.mem_map.1 hx
    rw [revalidated_id]
    exact k.valid e he

def Knowledge.empty : Knowledge := ⟨[], [], false, .nil, fun _ h => absurd h List.not_mem_nil⟩

/-- `asper_knowledge_open`. A log has fewer events than `eventLogBytes`, which bounds the pages. -/
def knowledgeOpen (t : Table) : Io Knowledge := do
  let k ← openPages J D t (eventLogBytes + 1) 0 .empty
  pure (k.revalidate D t)

end

end Asper
