import Asper.Knowledge.Store
import Asper.Source.Pages

/-! # The history of a grounding

`asper_memory_grounding_history` reads the revisions of one record off the log, page by page
(`knowledge_history.c`). -/

namespace Asper

open Durable

/-- `asper_grounding_revision`. -/
structure GroundingRevision where
  content : Bytes
  contentSha256 : Bytes
  revision : Nat
  sequence : Nat
  at_ : Int
  grounding : Grounding
  deriving DecidableEq

/-- What fails in a call: the allocation of the rows, the reading of the `i`-th page, and an
allocation at its `j`-th event. -/
structure HistoryFaults where
  rows : Bool
  page : Nat → Option Err
  decode : Nat → Nat → Bool

def HistoryFaults.none : HistoryFaults := ⟨false, fun _ => .none, fun _ _ => false⟩

/-- What `asper_memory_grounding_history` leaves: the store, the cursor it reports and the rows. -/
structure HistoryResult where
  knowledge : Knowledge
  next : Nat
  rows : Except Err (List GroundingRevision)

/-- What the text of an entry is searched for. -/
def historyNeedle (id : Bytes) : Bytes := ascii "\"id\":\"" ++ id ++ ascii "\""

def historyRow (event : Event) (e : KnowledgeEntry) : GroundingRevision :=
  ⟨e.content, e.hash, e.revision, event.sequence, event.at_, e.grounding⟩

section
variable (J : JsonText) (D : Digest) (F : HistoryFaults) (id : Bytes)

/-- The entries of the id among the events of the `i`-th page, from the `j`-th on. -/
def historyEvents (i : Nat) : Nat → List Event → Except Err (List GroundingRevision)
  | _, [] => .ok []
  | j, event :: es =>
    if event.kind ≠ .diagnostic then .error .parse
    else match knowledgeDecode J D (F.decode i j) event.text with
      | .error e => .error e
      | .ok e => (historyEvents i (j + 1) es).map fun rows =>
        if e.id = id then historyRow event e :: rows else rows

/-- What a call makes of its `i`-th page: an error, an end, or one more page by `go`. -/
def historyTurn (i : Nat) (rows : List GroundingRevision)
    (go : Nat → List GroundingRevision → Io (Nat × Except Err (List GroundingRevision)))
    (next : Nat) : Except Err (List Event) → Io (Nat × Except Err (List GroundingRevision))
  | .error e => pure (next, .error e)
  | .ok es => match historyEvents J D F id i 0 es with
    | .error e => pure (next, .error e)
    | .ok more => if es = [] then pure (next, .ok rows) else go next (rows ++ more)

/-- The loop over the pages, from the `i`-th on, with the rows so far. -/
def historyPages (limit : Nat) : Nat → Nat → Nat → List GroundingRevision →
    Io (Nat × Except Err (List GroundingRevision))
  | 0, _, next, rows => pure (next, .ok rows)
  | fuel + 1, i, next, rows => do
    if rows.length < limit then
      let p ← eventLogPageAt D (F.page i) knowledgeFile (historyNeedle id) next
        (limit - rows.length)
      historyTurn J D F id i rows (historyPages limit fuel (i + 1)) p.1 p.2
    else pure (next, .ok rows)

/-- An error of the log closes the store. -/
def historyPoison (k : Knowledge) : Except Err (List GroundingRevision) → Knowledge
  | .error .parse | .error .io => k.poison
  | _ => k

/-- The rows, and the cursor that is reported whether the call fails or not. -/
def historyRead (poisoned : Bool) (k : Knowledge) (after limit : Nat) :
    Io (Nat × Except Err (List GroundingRevision)) :=
  if poisoned ∨ k.poisoned then pure (after, .error .io)
  else historyPages J D F id limit (eventLogBytes + 1) 0 after []

/-- `asper_memory_grounding_history`. -/
def memoryGroundingHistory (poisoned : Bool) (k : Knowledge) (id : CStr) (after limit : Nat) :
    Io HistoryResult := do
  require (uuidValid id.val = true ∧ limit ≠ 0 ∧ limit ≤ 100) .invalid
  if F.rows then pure ⟨k, after, .error .nomem⟩
  else do
    let (next, rows) ← historyRead J D F id.val poisoned k after limit
    pure ⟨historyPoison k rows, next, rows⟩

end

end Asper
