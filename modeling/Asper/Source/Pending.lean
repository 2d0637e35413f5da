import Asper.Source.Events

/-! # Admission of turns to curation

The store keeps a bounded queue of turns in memory (`turn_queue.c`) and fills it from the event
logs (`source_pending.c`): `inventory` reads the registry, `fillScope` moves the cursor of one
scope forward, `refill` goes round the scopes, and `replayPending` does both when the store is
opened. `Source` is the memory they share. -/

namespace Asper

open Durable

/-! ## The queue -/

inductive Role where
  | user | assistant
  deriving DecidableEq, Repr

/-- A queued turn: the event's text with where it came from. -/
structure Turn where
  role : Role
  text : Bytes
  at_ : Int
  sourceId : Bytes
  scope : Bytes
  provenance : Bytes
  workspace : Bytes
  commit : Bytes
  project : Bytes
  deriving DecidableEq, Repr

def queueEvents : Nat := 4096
def queueBytes : Nat := 32 * 1024 * 1024

/-- The turns that wait, and the number and bytes of those a cycle holds; `eventMax` is the
configured bound. -/
structure Queue where
  eventMax : Int
  turns : List Turn
  inflight : Nat
  inflightBytes : Nat

def turnQueueLimit (q : Queue) : Nat :=
  if q.eventMax < 1 then 1 else min q.eventMax.toNat queueEvents

/-- The bytes of the waiting turns, with their terminators. -/
def Queue.bytes (q : Queue) : Nat := (q.turns.map fun t => t.text.length + 1).sum

def roomFor (q : Queue) (bytes : Nat) : Bool :=
  q.turns.length + q.inflight < turnQueueLimit q ∧ bytes ≤ queueBytes - q.bytes - q.inflightBytes

def turnQueueRoom (q : Queue) : Bool := roomFor q 1

/-! ## Admitting one turn -/

/-- The text of the entry `key`, none when there is none; longer than `cap` it is refused. -/
def originText (v : XValue) (key : Bytes) (cap : Nat) : Except Err Bytes :=
  match objectGet v key with
  | none => .ok []
  | some n => match n.value with
    | .string s => if (cstr s).val.length < cap then .ok (cstr s).val else .error .parse
    | _ => .error .parse

/-- Workspace, commit and project of a turn. -/
structure Origin where
  workspace : Bytes
  commit : Bytes
  project : Bytes
  deriving DecidableEq, Repr

def originFields (v : XValue) : Except Err Origin := do
  let workspace ← originText v (ascii "workspace") 1024
  let commit ← originText v (ascii "commit") 65
  let project ← originText v (ascii "project") 65
  return ⟨workspace, commit, project⟩

def isObject : XValue → Bool
  | .object _ => true
  | _ => false

/-- The origin an object records. Only a document of one node tagged `turn` records any. -/
def originOf : Option (List XNode) → Except Err Origin
  | some [n] =>
    if n.hasTag (ascii "turn") then
      if isObject n.value then originFields n.value else .error .parse
    else .ok ⟨[], [], []⟩
  | _ => .ok ⟨[], [], []⟩

section
variable (D : Digest) (X : Codec)

def turnOriginRead (objectRef : Bytes) : Io Origin :=
  if objectRef = [] then pure ⟨[], [], []⟩
  else do
    let data ← objectRead D objectRef
    Act.lift (originOf (X.parse data))

/-- `asper_enqueue_turn`: the turn of the event `e`. -/
def enqueueTurn (q : Queue) (role : Role) (scope : Bytes) (e : Event) : Io Turn := do
  require (strBlank e.text = false) .invalid
  require (utf8Valid e.text = true) .invalid
  require (uuidValid e.id = true) .invalid
  require (e.text.length + 1 ≤ queueBytes) .limit
  require (roomFor q (e.text.length + 1) = true) .busy
  let o ← turnOriginRead D X e.objectRef
  pure ⟨role, e.text, e.at_, e.id, scope, ascii "scope:" ++ scope, o.workspace, o.commit, o.project⟩

/-! ## Filling -/

structure PendingScope where
  scope : Bytes
  cursor : Nat
  stop : Nat
  refresh : Bool
  deriving DecidableEq, Repr

/-- The scopes with their cursors, the next one to serve, and the ids curated before. -/
structure Pending where
  scopes : List PendingScope
  next : Nat
  curated : List Bytes
  frozen : Bool
  dirty : Bool

/-- A decision of the operator to leave an event out of curation. -/
structure Deferral where
  scope : Bytes
  id : Bytes
  sequence : Nat
  hash : Bytes
  deriving DecidableEq, Repr

def deferredMatches (r : Deferral) (e : Event) : Bool :=
  r.sequence = e.sequence ∧ e.kind.isTurn ∧
    r.hash = hexDigest D (UInt8.ofNat e.kind.code :: (e.objectRef ++ 0 :: e.text))

/-- What the store remembers between the calls; `suspended` while a curation receipt is
retained. -/
structure Source where
  pending : Option Pending
  queue : Queue
  deferrals : List Deferral
  suspended : Bool

/-- Where an event leads the fill: past it, with a turn or without, or to a full queue. -/
inductive Admit where
  | skip
  | turn (t : Turn)
  | full

def roleOf : EventKind → Option Role
  | .user => some .user
  | .assistant => some .assistant
  | _ => none

def admitTurn (deferrals : List Deferral) (q : Queue) (role : Role) (scope : Bytes) (e : Event) :
    Io Admit :=
  match deferrals.find? fun r => r.scope = scope ∧ r.id = e.id with
  | some r => if deferredMatches D r e then pure .skip else Act.fail .parse
  | none => do
    match ← (enqueueTurn D X q role scope e).attempt with
    | .ok t => pure (.turn t)
    | .error .busy => pure .full
    | .error e => Act.fail e

/-- Admit the event `seq` of the view. Only turns are read whole. -/
def admitEvent (p : Pending) (deferrals : List Deferral) (q : Queue) (scope : Bytes) (v : View)
    (seq : Nat) : Io (Admit × View) := do
  let (h, v) ← viewHead D v seq
  match roleOf h.kind with
  | none => pure (.skip, v)
  | some role =>
    if h.id ∈ p.curated then pure (.skip, v)
    else do
      let (e, v) ← viewRead D v seq
      let a ← admitTurn D X deferrals q role scope e
      pure (a, v)

/-- The loop of `fill_scope`: the cursor and the queue it ends with, and its error. -/
def fillFrom (p : Pending) (deferrals : List Deferral) (s : PendingScope) :
    Nat → View → Nat → Queue → Io (Nat × Queue × Except Err Unit)
  | 0, _, cursor, q => pure (cursor, q, .ok ())
  | fuel + 1, v, cursor, q => do
    if cursor < s.stop ∧ turnQueueRoom q then do
      match ← (admitEvent D X p deferrals q s.scope v (cursor + 1)).attempt with
      | .error e => pure (cursor, q, .error e)
      | .ok (.full, _) => pure (cursor, q, .ok ())
      | .ok (.skip, v) => fillFrom p deferrals s fuel v (cursor + 1) q
      | .ok (.turn t, v) =>
        fillFrom p deferrals s fuel v (cursor + 1) { q with turns := q.turns ++ [t] }
    else pure (cursor, q, .ok ())

def fillScope (p : Pending) (deferrals : List Deferral) (s : PendingScope) (q : Queue) :
    Io (Nat × Queue × Except Err Unit) := do
  match ← (viewOpen D s.scope).attempt with
  | .error e => pure (s.cursor, q, .error e)
  | .ok v =>
    if v.files.count < s.stop then pure (s.cursor, q, .error .io)
    else fillFrom D X p deferrals s (s.stop - s.cursor) v s.cursor q

/-- Look how far the log of `s` reaches by now. -/
def captureScope (s : PendingScope) : Io PendingScope := do
  let v ← viewOpen D s.scope
  if v.files.count < s.cursor then Act.fail .io
  else pure { s with stop := v.files.count, refresh := false }

/-! ## The registry in memory -/

def pendingScopes : Nat := 16384

def addScope (p : Pending) (scope : Bytes) : Except Err Pending :=
  if p.scopes.any (·.scope = scope) then
    .ok { p with scopes := p.scopes.map fun s =>
      if s.scope = scope then { s with refresh := true } else s }
  else if p.scopes.length = pendingScopes then .error .limit
  else .ok { p with scopes := p.scopes ++ [⟨scope, 0, 0, true⟩] }

/-- Add the scopes of the rows up to the first row that cannot be added. -/
def addRows : List Bytes → Pending → Pending × Except Err Unit
  | [], p => (p, .ok ())
  | r :: rs, p =>
    if r.length = 0 ∨ 65 ≤ r.length ∨ sourceScopeValid r = false then (p, .error .parse)
    else match addScope p r with
      | .error e => (p, .error e)
      | .ok p => addRows rs p

/-- The rows of the registry text, which must be terminated. -/
def inventoryText (text : Bytes) (p : Pending) : Pending × Except Err Unit :=
  match addRows (splitRows text).1 p with
  | (p, .error e) => (p, .error e)
  | (p, .ok ()) =>
    if (splitRows text).2 = [] then ({ p with dirty := false }, .ok ()) else (p, .error .parse)

def inventory (p : Pending) : Io (Pending × Except Err Unit) := do
  match ← (do orFail (osMkdirP scopesDir) .nomem
              orElse (sourceTextRead scopeIndex scopeIndexBytes) .notFound [] :
              Io Bytes).attempt with
  | .error e => pure (p, .error e)
  | .ok text => pure (inventoryText text p)

/-! ## Curated ids -/

def curatedBytes : Nat := 8 * 1024 * 1024

def curatedFile : Path := [ascii "curated-events.log"]

/-- Ids of 36 bytes, each with its newline. -/
def curatedRows : Nat → Bytes → Option (List Bytes)
  | 0, _ => some []
  | n + 1, s =>
    if s[36]? = some 10 ∧ uuidValid (s.take 36) then
      (curatedRows n (s.drop 37)).map (s.take 36 :: ·)
    else none

def curatedIdsParse (data : Bytes) : Except Err (List Bytes) :=
  if data.length % 37 ≠ 0 then .error .parse
  else match curatedRows (data.length / 37) data with
    | some ids => .ok ids
    | none => .error .parse

def curatedLoad : Io (List Bytes) := do
  let text ← orElse (sourceTextRead curatedFile curatedBytes) .notFound []
  Act.lift (curatedIdsParse text)

/-! ## Going round -/

/-- Read the registry, once the curated ids are read. -/
def pendingRead (m : Source) (curated : List Bytes) : Io (Source × Except Err Unit) := do
  match ← inventory ⟨[], 0, curated, false, false⟩ with
  | (_, .error e) => pure (m, .error e)
  | (p, .ok ()) => pure ({ m with pending := some p }, .ok ())

/-- Start the admission: the curated ids and the inventory of the registry. -/
def pendingInitialize (m : Source) : Io (Source × Except Err Unit) :=
  match m.pending with
  | some _ => pure (m, .ok ())
  | none => do
    match ← curatedLoad.attempt with
    | .error e => pure (m, .error e)
    | .ok curated => pendingRead m curated

/-- Serve the scope `s`: its new cursors, the queue and the error. -/
def serveScope (p : Pending) (deferrals : List Deferral) (s : PendingScope) (q : Queue) :
    Io (PendingScope × Queue × Except Err Unit) := do
  match ← (if s.refresh ∧ p.frozen = false then captureScope D s else pure s).attempt with
  | .error e => pure (s, q, .error e)
  | .ok s =>
    if s.cursor < s.stop then do
      let (cursor, q, r) ← fillScope D X p deferrals s q
      pure ({ s with cursor }, q, r)
    else pure (s, q, .ok ())

/-- Serve up to `n` scopes, from the next one on, while the queue has room. -/
def serveScopes (deferrals : List Deferral) :
    Nat → Pending → Queue → Io (Pending × Queue × Except Err Unit)
  | 0, p, q => pure (p, q, .ok ())
  | n + 1, p, q =>
    if turnQueueRoom q = false then pure (p, q, .ok ())
    else match p.scopes[p.next]? with
      | none => pure (p, q, .ok ())
      | some s => do
        let (s, q, r) ← serveScope D X p deferrals s q
        let p := { p with scopes := p.scopes.set p.next s, next := (p.next + 1) % p.scopes.length }
        match r with
        | .error e => pure (p, q, .error e)
        | .ok () => serveScopes deferrals n p q

/-- Read the registry again when a scope could not be noted. -/
def inventoryDue (p : Pending) : Io (Pending × Except Err Unit) :=
  if p.dirty ∧ p.frozen = false then inventory p else pure (p, .ok ())

def refill (m : Source) (p : Pending) : Io (Source × Except Err Unit) := do
  let (p, r) ← inventoryDue p
  match r with
  | .error e => pure ({ m with pending := some p }, .error e)
  | .ok () => do
    let (p, q, r) ← serveScopes D X m.deferrals p.scopes.length p m.queue
    pure ({ m with pending := some p, queue := q }, r)

/-- `asper_source_replay_pending`, the last step of opening the store. -/
def replayPending (m : Source) : Io (Source × Except Err Unit) :=
  if m.suspended then pure (m, .ok ())
  else do
    match ← pendingInitialize m with
    | (m, .error e) => pure (m, .error e)
    | (m, .ok ()) => match m.pending with
      | none => pure (m, .ok ())
      | some p => refill D X m p

/-- Put `scope` among the scopes to serve. -/
def noteScope (m : Source) (scope : Bytes) : Source × Except Err Unit :=
  match m.pending with
  | none => (m, .ok ())
  | some p => match addScope p scope with
    | .ok p => ({ m with pending := some p }, .ok ())
    | .error e => ({ m with pending := some { p with dirty := true } }, .error e)

/-- `asper_source_pending_note`, after a turn was appended. Its error is only logged. -/
def pendingNote (m : Source) (scope : Bytes) : Io (Source × Except Err Unit) := do
  match ← pendingInitialize m with
  | (m, .error e) =>
    pure ({ m with pending := m.pending.map fun p => { p with dirty := true } }, .error e)
  | (m, .ok ()) => match noteScope m scope with
    | (m, .error e) => pure (m, .error e)
    | (m, .ok ()) => match m.pending with
      | none => pure (m, .ok ())
      | some p => if p.frozen ∨ m.suspended then pure (m, .ok ()) else refill D X m p

/-- `asper_event_append`: the event is durable when the curation queue hears of it. -/
def eventAppend (env : Env) (input : EventInput) (m : Source) : Io (Bytes × Source) := do
  let id ← eventCommit D X env input
  match (eventKindOf input.kind).bind roleOf with
  | none => pure (id, m)
  | some _ => do
    let (m, _) ← pendingNote D X m input.scope.val
    pure (id, m)

/-! ## A full flush -/

/-- Capture the scopes to refresh, up to the first that fails. -/
def captureScopes : List PendingScope → Io (List PendingScope × Except Err Unit)
  | [] => pure ([], .ok ())
  | s :: ss => do
    match ← (if s.refresh then captureScope D s else pure s).attempt with
    | .error e => pure (s :: ss, .error e)
    | .ok s => do
      let (ss, r) ← captureScopes ss
      pure (s :: ss, r)

/-- The events between the cursors and the ends, added to `budget`. -/
def addBacklog : List PendingScope → Nat → Except Err Nat
  | [], budget => .ok budget
  | s :: ss, budget =>
    if 2 ^ 64 - 1 - budget < s.stop - s.cursor then .error .limit
    else addBacklog ss (budget + (s.stop - s.cursor))

/-- Freeze the ends of the scopes as they are now. -/
def freeze (m : Source) (p : Pending) : Io (Source × Except Err Nat) := do
  let (p, r) ← if p.dirty then inventory p else pure (p, .ok ())
  match r with
  | .error e => pure ({ m with pending := some p }, .error e)
  | .ok () => do
    let (scopes, r) ← captureScopes D p.scopes
    match r with
    | .error e => pure ({ m with pending := some { p with scopes } }, .error e)
    | .ok () => match addBacklog scopes m.queue.turns.length with
      | .error e => pure ({ m with pending := some { p with scopes } }, .error e)
      | .ok budget => pure ({ m with pending := some { p with scopes, frozen := true } }, .ok budget)

/-- `asper_source_pending_capture`: how many cycles the flush may run. -/
def pendingCapture (m : Source) : Io (Source × Except Err Nat) := do
  match ← pendingInitialize m with
  | (m, .error e) => pure (m, .error e)
  | (m, .ok ()) => match m.pending with
    | none => pure (m, .ok 0)
    | some p => freeze D m p

/-- `asper_source_pending_release`. -/
def pendingRelease (m : Source) : Source :=
  { m with pending := m.pending.map fun p => { p with frozen := false } }

end

end Asper
