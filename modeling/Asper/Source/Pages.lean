import Asper.Source.Events

/-! # Pages and the cursor they report

`asper_event_log_page` and `asper_event_search` write the next cursor whether they fail or not
(`event_log.c`, `source_events.c`). Here both are told, and an operation of the call may fail. -/

namespace Asper

open Durable

/-- `m`, in which an operation fails with `fault`. -/
def failing {α : Type} (fault : Option Err) (m : Io α) : Io α :=
  match fault with
  | some e => Act.fail e
  | none => m

/-- The page and its cursor; every error leaves the cursor at `after`. -/
def reported {α : Type} (after : Nat) (m : Io (List α × Nat)) : Io (Nat × Except Err (List α)) := do
  match ← m.attempt with
  | .ok (page, next) => pure (next, .ok page)
  | .error e => pure (after, .error e)

section
variable (D : Digest) (fault : Option Err)

/-- `asper_event_log_page`. -/
def eventLogPageAt (path : Path) (query : Bytes) (after limit : Nat) :
    Io (Nat × Except Err (List Event)) :=
  reported after (failing fault (eventLogPage D path query after limit))

/-- `asper_event_search`. The cursor is not written when an argument is not valid. -/
def eventSearchAt (scope query : CStr) (after limit : Nat) : Io (Nat × Except Err (List Event)) := do
  require (sourceScopeValid scope.val = true ∧ limit ≠ 0 ∧ limit ≤ 1000) .invalid
  reported after (failing fault (eventPage D scope.val query.val after limit))

end

end Asper
