import Asper.Base.Time
import Asper.Lib.Fixed
import Asper.Record.Shelf
import Asper.Curator.Cycle

/-! # Timeouts

The durations of the configuration (`config.c`) and what is computed from them: whether work is
due (`worker.c`, `curator.c`, `store_compact.c`), how long the worker waits, and when a recall gives
up (`api.c`). Every sum and product is an `int64_t`; one that overflows leaves no value. -/

namespace Asper

open Durable (Bytes)
open Fixed

/-! ## Configuration -/

/-- The keys of kind `K_DUR`. -/
inductive DurationKey where
  | idleFlush
  | identityConfirmWindow
  | maintenanceInterval
  | recallTimeout
  | contextHalfLife
  | projectHalfLife
  | purgeAfter
  deriving DecidableEq

def DurationKey.path : DurationKey → Bytes
  | idleFlush => ascii "curation.idle_flush"
  | identityConfirmWindow => ascii "curation.identity_confirm_window"
  | maintenanceInterval => ascii "curation.maintenance_interval"
  | recallTimeout => ascii "recall.timeout"
  | contextHalfLife => ascii "decay.context_half_life"
  | projectHalfLife => ascii "decay.project_half_life"
  | purgeAfter => ascii "decay.purge_after"

/-- The durations of `asper_config`, in seconds. -/
abbrev Durations := DurationKey → Int

/-- `asper_config_defaults`. -/
def cfgDefaults : Durations
  | .idleFlush => 30
  | .identityConfirmWindow => 7 * 86400
  | .maintenanceInterval => 86400
  | .recallTimeout => 10
  | .contextHalfLife => 30 * 86400
  | .projectHalfLife => 90 * 86400
  | .purgeAfter => 60 * 86400

/-- A value of a configuration file. -/
inductive CfgValue where
  | duration (s : Option CStr)
  | string (s : Option CStr)
  /-- A value of another type, of that name. -/
  | other (type : Bytes)

/-- The text of a duration, when the value is of the right type. -/
def CfgValue.text : CfgValue → Except Bytes (Option CStr)
  | duration s => .ok s
  | string s => .ok s
  | other type => .error type

/-- The message about the key. -/
def cfgError (k : DurationKey) (message : Bytes) : Bytes :=
  ascii "config: " ++ k.path ++ ascii ": " ++ message

/-- The case `K_DUR` of `cfg_apply`. -/
def cfgApply (cfg : Durations) (k : DurationKey) (v : CfgValue) : Except Bytes Durations :=
  match v.text with
  | .error type => .error (cfgError k (ascii "expected duration, got " ++ type))
  | .ok none => .error (cfgError k (ascii "invalid ISO 8601 duration \"\""))
  | .ok (some s) => match asperDurationParse s with
    | .error _ => .error (cfgError k (ascii "invalid ISO 8601 duration \"" ++ s.val ++ ascii "\""))
    | .ok secs =>
      if secs ≤ 0 then .error (cfgError k (ascii "duration must be positive"))
      else .ok (Function.update cfg k secs)

/-- `asper_config_load`, of the keys that are durations, in the order of the file. -/
def cfgLoad (es : List (DurationKey × CfgValue)) : Except Bytes Durations :=
  es.foldlM (fun cfg e => cfgApply cfg e.1 e.2) cfgDefaults

/-! ## What is due -/

/-- `now - base >= d`. -/
def elapsed (d base now : Int) : Option Bool := (fit 64 (now - base)).map fun t => d ≤ t

/-- What the worker reads under `ev_mu`, and `cfg.turn_batch`. -/
structure Worker where
  turns : Nat
  turnBatch : Int
  sourceBacklog : Bool
  lastTurnAt : Int
  lastMaintenance : Int
  lastReviewTry : Int
  hasCurator : Bool
  cycleBusy : Bool
  recallWaiting : Int

namespace Worker

variable (cfg : Durations) (w : Worker) (now : Int)

def batchTrig : Bool := w.sourceBacklog || (0 < w.turnBatch && w.turnBatch ≤ w.turns)

def canWork : Bool := w.hasCurator && !w.cycleBusy && w.recallWaiting = 0

/-- `mbase`. -/
def reviewBase : Int :=
  if w.lastReviewTry < w.lastMaintenance then w.lastMaintenance else w.lastReviewTry

def idleTrig : Option Bool :=
  if 0 < w.turns ∧ 0 < cfg .idleFlush then elapsed (cfg .idleFlush) w.lastTurnAt now
  else some false

end Worker

/-- A review is due, `base` being the time of the last. -/
def maintDue (cfg : Durations) (base now : Int) : Option Bool :=
  if 0 < cfg .maintenanceInterval then elapsed (cfg .maintenanceInterval) base now else some false

/-- The test of `asper_maintenance_review` that sends it back. -/
def reviewEarly (cfg : Durations) (force : Bool) (lastMaintenance now : Int) : Option Bool :=
  if force = false ∧ lastMaintenance ≠ 0 then
    (fit 64 (now - lastMaintenance)).map fun t => t < cfg .maintenanceInterval
  else some false

/-- The test of `quorum_check` that drops a proposal. -/
def windowPassed (cfg : Durations) (now : Int) (q : Waiting) : Option Bool :=
  (fit 64 (now - q.firstAt)).map fun t => cfg .identityConfirmWindow < t

/-- `purge_due`. -/
def purgeTest (cfg : Durations) (now : Int) (r : Record) : Option Bool :=
  if r.deprecated then elapsed (cfg .purgeAfter) r.deprecatedAt now else some false

/-! ## The wait of the worker -/

/-- The milliseconds until `d` seconds after `base`. -/
def remaining (d base now : Int) : Option Int := do
  let deadline ← fit 64 (base + d)
  let left ← fit 64 (deadline - now)
  let rem ← fit 64 (left * 1000)
  return if rem < 0 then 0 else rem

namespace Worker

variable (cfg : Durations) (w : Worker) (now : Int)

def idleWait : Option Int :=
  if 0 < w.turns ∧ 0 < cfg .idleFlush then remaining (cfg .idleFlush) w.lastTurnAt now
  else some (-1)

/-- The sooner of the wait so far and the next review. -/
def reviewWait (ms : Int) : Option Int :=
  if w.hasCurator ∧ 0 < cfg .maintenanceInterval then
    (remaining (cfg .maintenanceInterval) w.reviewBase now).map fun rem =>
      if ms < 0 ∨ rem < ms then rem else ms
  else some ms

/-- `wait_ms`: negative for a wait that only a signal ends. -/
def waitMs : Option Int := do
  let ms ← w.idleWait cfg now
  let ms ← w.reviewWait cfg now ms
  return if ms = 0 then -1 else ms

/-- What an iteration of `asper_worker_main` does. -/
inductive Next where
  | cycle (force : Bool)
  | review
  | wait (ms : Int)

def next : Option Next := do
  let idle ← w.idleTrig cfg now
  let maint ← maintDue cfg w.reviewBase now
  if w.canWork && (w.batchTrig || idle) then return .cycle (idle && !w.batchTrig)
  else if w.canWork && maint then return .review
  else return .wait (← w.waitMs cfg now)

end Worker

/-! ## The deadline of a recall -/

def recallTimeoutMs (cfg : Durations) : Option Int :=
  if 0 < cfg .recallTimeout then fit 64 (cfg .recallTimeout * 1000) else some 0

/-- `deadline` of `asper_recall_project`, 0 for none; `mono` is the monotonic clock. -/
def recallDeadline (cfg : Durations) (mono : Int) : Option Int := do
  let timeout ← recallTimeoutMs cfg
  if 0 < timeout then fit 64 (mono + timeout) else return 0

/-- What is left of it, while the recall waits for its turn and when it starts. -/
def recallLeft (deadline mono : Int) : Option Int := fit 64 (deadline - mono)

end Asper
