import Asper.Source.Events
import Asper.Lib.Search

/-! # The history section of a context

`asper_source_history` (`source_history.c`): pinned events, oldest first, then the others, newest
first, as long as they fit into one budget of tokens and bytes; the section shows them in ascending
order. `EventView` is what the selection sees of a view, `View.events` the one of a view on a
disk. -/

namespace Asper

open Durable

/-- The events of an opened view. They are numbered from 1, and the head of an event has the kind
and the pin of the whole. -/
structure EventView where
  count : Nat
  read : Nat → Except Err Event
  head : Nat → Except Err Event
  numbered : ∀ n e, read n = .ok e → e.sequence = n
  head_read : ∀ n e h, read n = .ok e → head n = .ok h → h.kind = e.kind ∧ h.pinned = e.pinned

/-- The fields of `asper_context_request` that concern the events. -/
structure ContextRequest where
  query : CStr
  historyTokens : Nat
  historyTokens_lt : historyTokens < 2 ^ 64
  checkpointTokens : Nat
  /-- None is the heuristic. -/
  countTokens : Option (Bytes → Int)

def contextBytes : Nat := 4 * 1024 * 1024
def contextEvents : Nat := 4096

/-- `asper_source_tokens`. -/
def sourceTokens (R : ContextRequest) (text : Bytes) : Nat :=
  if text = [] then 0
  else
    let n := match R.countTokens with
      | some count => count text
      | none => -1
    if 0 ≤ n then n.toNat else (text.length + 3) / 4

def EventKind.name : EventKind → Bytes
  | .user => ascii "user" | .assistant => ascii "assistant" | .decision => ascii "decision"
  | .toolCall => ascii "tool_call" | .toolResult => ascii "tool_result"
  | .diagnostic => ascii "diagnostic" | .checkpoint => ascii "checkpoint"
  | .artifact => ascii "artifact"

def heading : Bytes := ascii "## Memory source events\n"

/-- The line of an event. -/
def eventLine (e : Event) : Bytes :=
  ascii "[" ++ e.kind.name ++ ascii ":" ++ e.id ++ ascii "] " ++ e.text ++
    (if e.objectRef ≠ [] then ascii " [source " ++ e.objectRef ++ ascii "]" else []) ++ [10]

structure SelectedLine where
  sequence : Nat
  text : Bytes
  deriving DecidableEq, Repr

/-- No code reads `wrapped`, which tells that a subtraction went below zero. -/
structure Selection where
  lines : List SelectedLine
  bytes : Nat
  tokens : Nat
  byteLimit : Nat
  wrapped : Bool
  deriving DecidableEq, Repr

/-- `s->byte_limit - s->bytes`. -/
def Selection.spareBytes (s : Selection) : Nat := sizeSub s.byteLimit s.bytes

/-- `request->history_tokens - s->tokens`. -/
def Selection.spareTokens (R : ContextRequest) (s : Selection) : Nat :=
  sizeSub R.historyTokens s.tokens

/-- `select_event`. -/
def selectEvent (R : ContextRequest) (s : Selection) (e : Event) : Selection :=
  let s1 := { s with wrapped := s.wrapped || s.byteLimit < s.bytes }
  if s.spareBytes < e.text.length then s1
  else
    let row := eventLine e
    let cost := sourceTokens R row
    let s2 := { s1 with wrapped := s1.wrapped || R.historyTokens < s.tokens }
    if s.spareTokens R < cost ∨ s.spareBytes < row.length then s2
    else { s2 with
      lines := s.lines ++ [⟨e.sequence, row⟩]
      bytes := s.bytes + row.length
      tokens := s.tokens + cost }

/-- `already_pinned`: the first `pins` lines have it. -/
def alreadyPinned (s : Selection) (pins sequence : Nat) : Bool :=
  let rows := s.lines.take pins
  match rows[Search.lowerBound (fun l => decide (l.sequence < sequence)) rows]? with
  | some l => l.sequence = sequence
  | none => false

/-- The event `sequence` in the pass over the pinned events. -/
def pinnedStep (V : EventView) (R : ContextRequest) (s : Selection) (sequence : Nat) :
    Except Err Selection := do
  let h ← V.head sequence
  if h.kind ≠ .checkpoint ∧ h.pinned then do
    let e ← V.read sequence
    pure (selectEvent R s e)
  else pure s

/-- What the second pass takes: no checkpoint, and not the turn that is being answered. -/
def EventKind.eligible (kind : EventKind) (text : Bytes) (R : ContextRequest) : Bool :=
  kind ≠ .checkpoint ∧ ¬ ((kind = .user ∨ kind = .assistant) ∧ text = R.query.val)

/-- The event `sequence` in the pass over the other events. -/
def recentStep (V : EventView) (R : ContextRequest) (pins : Nat) (s : Selection) (sequence : Nat) :
    Except Err Selection :=
  if alreadyPinned s pins sequence then pure s
  else do
    let e ← V.read sequence
    pure (if e.kind.eligible e.text R then selectEvent R s e else s)

/-- A pass over events, while the selection may grow. -/
def historyPass (step : Selection → Nat → Except Err Selection) :
    Selection → List Nat → Except Err Selection
  | s, [] => .ok s
  | s, n :: ns =>
    if s.lines.length < contextEvents then do
      let s ← step s n
      historyPass step s ns
    else .ok s

/-- The events from the first on, and from the last on. -/
def EventView.ascending (V : EventView) : List Nat := (List.range V.count).map (· + 1)
def EventView.descending (V : EventView) : List Nat := (List.range V.count).map (V.count - ·)

structure HistoryOut where
  context : Bytes
  available : Nat
  included : Nat
  wrapped : Bool
  deriving DecidableEq, Repr

/-- Both passes. -/
def historySelect (V : EventView) (R : ContextRequest) (s : Selection) : Except Err Selection := do
  let s ← historyPass (pinnedStep V R) s V.ascending
  historyPass (recentStep V R s.lines.length) s V.descending

/-- The section for the selected lines, counted once more as a whole. -/
def historySection (R : ContextRequest) (s : Selection) : Except Err Bytes :=
  let rows := s.lines.mergeSort fun a b => a.sequence ≤ b.sequence
  let text := heading ++ rows.flatMap (·.text)
  if R.historyTokens < sourceTokens R text then .error .limit else .ok text

/-- `asper_source_history` from the opened view on. -/
def sourceHistory (V : EventView) (R : ContextRequest) (context : Bytes) : Except Err HistoryOut :=
  let tokens := sourceTokens R heading
  if R.historyTokens = 0 ∨ R.historyTokens < tokens ∨
      contextBytes - heading.length < context.length then
    .ok ⟨context, V.count, 0, false⟩
  else do
    let limit := sizeSub (sizeSub contextBytes context.length) heading.length
    let wrapped := contextBytes < context.length ||
      sizeSub contextBytes context.length < heading.length
    let s ← historySelect V R ⟨[], 0, tokens, limit, wrapped⟩
    if s.lines = [] then pure ⟨context, V.count, 0, s.wrapped⟩
    else do
      let text ← historySection R s
      pure ⟨context ++ text, V.count, s.lines.length, s.wrapped⟩

/-- `append_checkpoint`, with what `asper_checkpoint_load` gives. -/
def appendCheckpoint (R : ContextRequest) (load : Except Err Bytes) (context : Bytes) :
    Except Err Bytes :=
  if R.checkpointTokens = 0 then .ok context
  else match load with
    | .error .notFound => .ok context
    | .error e => .error e
    | .ok text =>
      let part := ascii "## Working checkpoint\n" ++ text ++ ascii "\n\n"
      if text ≠ [] ∧ text.length ≤ contextBytes - 24 ∧ sourceTokens R part ≤ R.checkpointTokens then
        .ok (context ++ part)
      else .ok context

end Asper
