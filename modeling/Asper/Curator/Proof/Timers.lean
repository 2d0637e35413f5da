import Asper.Curator.Timers
import Asper.Base.Proof.Duration

/-! # Which timeouts can be waited for

Every duration that the configuration takes is below `2 ^ 60` seconds, so no sum of one and a time
overflows. Its milliseconds may.

* `timely_iff`: when all that is computed from the durations is exact. -/

namespace Asper

open Fixed Scanner

/-! ## The durations of a configuration -/

theorem Parts.length_le {ps : Parts} {m : Nat} (h : Ordered ps) (hm : ∀ p ∈ ps, m < p.2.rank) :
    ps.length ≤ 3 - m := by
  induction ps generalizing m with
  | nil => exact Nat.zero_le _
  | cons p ps ih =>
    obtain ⟨hp, hps⟩ := List.pairwise_cons.1 h
    have hlt := hm p List.mem_cons_self
    have hle := p.2.rank_le.2
    have hlen := ih hps hp
    rw [List.length_cons]
    omega

theorem partsSeconds_le (ps : Parts) : partsSeconds ps ≤ ps.length * (10 ^ 12 * 3600) := by
  induction ps with
  | nil => exact Nat.zero_le _
  | cons p ps ih =>
    have hp : p.1.value * p.2.seconds ≤ 10 ^ 12 * 3600 :=
      Nat.mul_le_mul p.1.value_lt.le p.2.seconds_le
    have hsum : partsSeconds (p :: ps) = p.1.value * p.2.seconds + partsSeconds ps := rfl
    rw [hsum, List.length_cons]
    omega

/-- The longest durations are those in weeks. -/
theorem Duration.seconds_lt (x : Duration) : x.seconds < 2 ^ 60 := by
  cases x with
  | weeks n =>
    have := n.value_lt
    rw [Duration.seconds]
    omega
  | parts days time ordered some =>
    have hdays : (days.elim 0 fun n => n.value * 86400 : Nat) ≤ 10 ^ 12 * 86400 := by
      cases days with
      | none => exact Nat.zero_le _
      | some n => exact Nat.mul_le_mul_right 86400 n.value_lt.le
    have hlen := Parts.length_le ordered fun p _ => p.2.rank_le.1
    have htime := (partsSeconds_le time).trans (Nat.mul_le_mul_right _ hlen)
    rw [Duration.seconds]
    omega

theorem asperDurationParse_lt {s : CStr} {v : Int} (h : asperDurationParse s = .ok v) :
    v < 2 ^ 60 := by
  obtain ⟨_, x, -, rfl, -⟩ := (reads_durationScan s.2).ok_iff.1 h
  exact x.seconds_lt

/-- The durations of a configuration: positive, and short enough to be added to a time. -/
def Durations.Short (cfg : Durations) : Prop := ∀ k, 0 < cfg k ∧ cfg k < 2 ^ 60

theorem cfgDefaults_short : cfgDefaults.Short := by
  intro k
  cases k <;> decide

theorem cfgApply_short {cfg cfg' : Durations} {k : DurationKey} {v : CfgValue} (hc : cfg.Short)
    (h : cfgApply cfg k v = .ok cfg') : cfg'.Short := by
  rw [cfgApply] at h
  split at h
  · cases h
  · cases h
  · next s _ =>
    split at h
    · cases h
    · next secs hs =>
      split at h
      · cases h
      · next hpos =>
        cases h
        intro k'
        by_cases hk : k' = k
        · rw [hk, Function.update_self]
          exact ⟨by omega, asperDurationParse_lt hs⟩
        · rw [Function.update_of_ne hk]
          exact hc k'

/-- **Every configuration that is taken** has short durations. -/
theorem cfgLoad_short {es : List (DurationKey × CfgValue)} {cfg : Durations}
    (h : cfgLoad es = .ok cfg) : cfg.Short := by
  suffices hall : ∀ (es : List (DurationKey × CfgValue)) (c : Durations), c.Short →
      es.foldlM (fun cfg e => cfgApply cfg e.1 e.2) c = .ok cfg → cfg.Short from
    hall es cfgDefaults cfgDefaults_short h
  intro es
  induction es with
  | nil =>
    intro c hc h
    cases h
    exact hc
  | cons e es ih =>
    intro c hc h
    rw [List.foldlM_cons] at h
    cases he : cfgApply c e.1 e.2 with
    | error m =>
      rw [he] at h
      cases h
    | ok c' =>
      rw [he] at h
      exact ih c' (cfgApply_short hc he) h

/-! ## Exact values -/

/-- The last second of the year 9999. -/
def lastSecond : Int := 253402300799

/-- A value of the clock, or 0 for none. -/
def Stamped (t : Int) : Prop := 0 ≤ t ∧ t ≤ lastSecond

instance (t : Int) : Decidable (Stamped t) := inferInstanceAs (Decidable (_ ∧ _))

/-- The longest time, in seconds, whose milliseconds are an `int64_t`. -/
def longestWait : Int := (2 ^ 63 - 1) / 1000

structure Worker.Stamps (w : Worker) : Prop where
  lastTurnAt : Stamped w.lastTurnAt
  lastMaintenance : Stamped w.lastMaintenance
  lastReviewTry : Stamped w.lastReviewTry

section
variable (cfg : Durations) (w : Worker) (now : Int)

/-- The milliseconds until `d` seconds after `base`, none when that is past. -/
def untilMs (d base now : Int) : Int := max 0 ((base + d - now) * 1000)

/-- The times the worker has to wake up at. -/
def Worker.alarms : List Int :=
  (if 0 < w.turns then [untilMs (cfg .idleFlush) w.lastTurnAt now] else []) ++
    if w.hasCurator then [untilMs (cfg .maintenanceInterval) w.reviewBase now] else []

/-- The time of the first, unless it is past. -/
def Worker.waitExact : Int := ((w.alarms cfg now).min?.filter (· ≠ 0)).getD (-1)

def Worker.idleDue : Bool := 0 < w.turns && cfg .idleFlush ≤ now - w.lastTurnAt

def reviewDue (base : Int) : Bool := cfg .maintenanceInterval ≤ now - base

def Worker.nextExact : Worker.Next :=
  if w.canWork && (w.batchTrig || w.idleDue cfg now) then
    .cycle (w.idleDue cfg now && !w.batchTrig)
  else if w.canWork && reviewDue cfg now w.reviewBase then .review
  else .wait (w.waitExact cfg now)

/-- All that is computed from the durations is exact. -/
structure Timely (mono : Int) : Prop where
  next : w.next cfg now = some (w.nextExact cfg now)
  idle : w.idleTrig cfg now = some (w.idleDue cfg now)
  maint : maintDue cfg w.lastMaintenance now = some (reviewDue cfg now w.lastMaintenance)
  early : ∀ force, reviewEarly cfg force w.lastMaintenance now =
    some (!force && w.lastMaintenance ≠ 0 && !reviewDue cfg now w.lastMaintenance)
  window : ∀ q : Waiting, Stamped q.firstAt →
    windowPassed cfg now q = some (decide (cfg .identityConfirmWindow < now - q.firstAt))
  purge : ∀ r : Record, Stamped r.deprecatedAt →
    purgeTest cfg now r = some (purgeDue (cfg .purgeAfter) now r)
  deadline : recallDeadline cfg mono = some (mono + cfg .recallTimeout * 1000)
  left : ∀ mono', 0 < mono' → mono' ≤ lastSecond * 1000 + 999 →
    recallLeft (mono + cfg .recallTimeout * 1000) mono' =
      some (mono + cfg .recallTimeout * 1000 - mono')

end

/-! ## What overflows -/

/-- The time between two values of the clock. -/
theorem Stamped.sub_fits {base now : Int} (hb : Stamped base) (hn : Stamped now) :
    Fits 64 (now - base) := by
  simp only [Stamped, lastSecond] at hb hn
  constructor <;> omega

theorem elapsed_eq {d base now : Int} (hb : Stamped base) (hn : Stamped now) :
    elapsed d base now = some (decide (d ≤ now - base)) := by
  rw [elapsed, fit_of_fits (hb.sub_fits hn)]
  rfl

/-- A wait has its exact value as long as that is an `int64_t`. -/
theorem remaining_eq {d base now : Int} (hd : 0 < d ∧ d < 2 ^ 60) (hb : Stamped base)
    (hn : Stamped now) :
    remaining d base now =
      if d ≤ now - base + longestWait then some (untilMs d base now) else none := by
  simp only [Stamped, lastSecond] at hb hn
  have hsum : Fits 64 (base + d) := by constructor <;> omega
  have hdiff : Fits 64 (base + d - now) := by constructor <;> omega
  rw [remaining, fit_bind_of_fits hsum, fit_bind_of_fits hdiff]
  have hmax : longestWait = 9223372036854775 := rfl
  by_cases hle : d ≤ now - base + longestWait
  · have hprod : Fits 64 ((base + d - now) * 1000) := by constructor <;> omega
    rw [fit_bind_of_fits hprod, if_pos hle, untilMs]
    refine congrArg some ?_
    split <;> omega
  · have hprod : ¬ Fits 64 ((base + d - now) * 1000) := fun h => by
      have := h.2
      omega
    rw [fit_eq_none hprod, if_neg hle]
    rfl

theorem recallDeadline_eq {cfg : Durations} {mono : Int} (hc : cfg.Short)
    (hm : 0 < mono ∧ mono ≤ lastSecond * 1000 + 999) :
    recallDeadline cfg mono = if cfg .recallTimeout ≤ (2 ^ 63 - 1 - mono) / 1000 then
      some (mono + cfg .recallTimeout * 1000) else none := by
  obtain ⟨hpos, hlt⟩ := hc .recallTimeout
  simp only [lastSecond] at hm
  rw [recallDeadline, recallTimeoutMs, if_pos hpos]
  by_cases hle : cfg .recallTimeout ≤ (2 ^ 63 - 1 - mono) / 1000
  · have hprod : Fits 64 (cfg .recallTimeout * 1000) := by constructor <;> omega
    have hsum : Fits 64 (mono + cfg .recallTimeout * 1000) := by constructor <;> omega
    rw [fit_bind_of_fits hprod, if_pos (by omega), fit_of_fits hsum, if_pos hle]
  · rw [if_neg hle]
    by_cases hprod : Fits 64 (cfg .recallTimeout * 1000)
    · have hsum : ¬ Fits 64 (mono + cfg .recallTimeout * 1000) := fun h => by
        have := h.2
        omega
      rw [fit_bind_of_fits hprod, if_pos (by omega), fit_eq_none hsum]
    · rw [fit_eq_none hprod]
      rfl

namespace Worker

variable {cfg : Durations} {w : Worker} {now : Int}

theorem Stamps.reviewBase (h : w.Stamps) : Stamped w.reviewBase := by
  rw [Worker.reviewBase]
  split
  · exact h.lastMaintenance
  · exact h.lastReviewTry

/-- The waits of the worker are no longer than an `int64_t` of milliseconds. -/
def CanWait (w : Worker) (cfg : Durations) (now : Int) : Prop :=
  (0 < w.turns → cfg .idleFlush ≤ now - w.lastTurnAt + longestWait) ∧
    (w.hasCurator = true → cfg .maintenanceInterval ≤ now - w.reviewBase + longestWait)

instance : Decidable (w.CanWait cfg now) := inferInstanceAs (Decidable (_ ∧ _))

theorem idleTrig_eq (hc : cfg.Short) (hw : w.Stamps) (hn : Stamped now) :
    w.idleTrig cfg now = some (w.idleDue cfg now) := by
  rw [idleTrig, idleDue, elapsed_eq hw.lastTurnAt hn]
  by_cases ht : 0 < w.turns
  · simp [ht, (hc .idleFlush).1]
  · simp [ht]

theorem idleWait_eq (hc : cfg.Short) (hw : w.Stamps) (hn : Stamped now) :
    w.idleWait cfg now =
      if 0 < w.turns then
        if cfg .idleFlush ≤ now - w.lastTurnAt + longestWait then
          some (untilMs (cfg .idleFlush) w.lastTurnAt now) else none
      else some (-1) := by
  rw [idleWait, remaining_eq (hc .idleFlush) hw.lastTurnAt hn]
  simp only [(hc .idleFlush).1, and_true]

theorem reviewWait_eq (hc : cfg.Short) (hw : w.Stamps) (hn : Stamped now) (ms : Int) :
    w.reviewWait cfg now ms =
      if w.hasCurator = true then
        if cfg .maintenanceInterval ≤ now - w.reviewBase + longestWait then
          let rem := untilMs (cfg .maintenanceInterval) w.reviewBase now
          some (if ms < 0 ∨ rem < ms then rem else ms) else none
      else some ms := by
  rw [reviewWait, remaining_eq (hc .maintenanceInterval) hw.reviewBase hn]
  simp only [(hc .maintenanceInterval).1, and_true]
  split
  · split <;> rfl
  · rfl

/-- The first of the alarms, and a wait without end when it is past or there is none. -/
theorem waitExact_eq : w.waitExact cfg now =
    let a := if 0 < w.turns then untilMs (cfg .idleFlush) w.lastTurnAt now else -1
    let b := untilMs (cfg .maintenanceInterval) w.reviewBase now
    let ms := if w.hasCurator = true then if a < 0 ∨ b < a then b else a else a
    if ms = 0 then -1 else ms := by
  have ha : 0 ≤ untilMs (cfg .idleFlush) w.lastTurnAt now := le_max_left 0 _
  have hb : 0 ≤ untilMs (cfg .maintenanceInterval) w.reviewBase now := le_max_left 0 _
  rw [waitExact, alarms]
  generalize untilMs (cfg .idleFlush) w.lastTurnAt now = a at ha
  generalize untilMs (cfg .maintenanceInterval) w.reviewBase now = b at hb
  have hone (x : Int) : (([x].min?).filter (· ≠ 0)).getD (-1) = if x = 0 then -1 else x := by
    by_cases hx : x = 0 <;> simp [Option.filter, hx]
  by_cases ht : 0 < w.turns
  · by_cases hcur : w.hasCurator = true
    · have hmin : [a, b].min? = [if a < 0 ∨ b < a then b else a].min? := by
        simp only [List.min?_cons, List.min?_nil]
        refine congrArg some ?_
        simp only [Option.elim_some, Option.elim_none]
        split <;> omega
      simp only [if_pos ht, if_pos hcur, List.cons_append, List.nil_append]
      rw [hmin, hone]
    · simp only [if_pos ht, if_neg hcur, List.append_nil]
      rw [hone]
  · by_cases hcur : w.hasCurator = true
    · have hnone : (-1 : Int) < 0 ∨ b < -1 := .inl (by decide)
      simp only [if_neg ht, if_pos hcur, List.nil_append, if_pos hnone]
      rw [hone]
    · simp [ht, hcur]

theorem waitMs_eq (hc : cfg.Short) (hw : w.Stamps) (hn : Stamped now) :
    w.waitMs cfg now = if w.CanWait cfg now then some (w.waitExact cfg now) else none := by
  rw [waitMs, idleWait_eq hc hw hn, waitExact_eq]
  simp only [reviewWait_eq hc hw hn]
  by_cases ht : 0 < w.turns
  · by_cases hi : cfg .idleFlush ≤ now - w.lastTurnAt + longestWait
    · by_cases hcur : w.hasCurator = true
      · by_cases hr : cfg .maintenanceInterval ≤ now - w.reviewBase + longestWait
        · simp [CanWait, ht, hi, hcur, hr]
        · simp [CanWait, ht, hi, hcur, hr]
      · simp [CanWait, ht, hi, hcur]
    · simp [CanWait, ht, hi]
  · by_cases hcur : w.hasCurator = true
    · by_cases hr : cfg .maintenanceInterval ≤ now - w.reviewBase + longestWait
      · simp [CanWait, ht, hcur, hr]
      · simp [CanWait, ht, hcur, hr]
    · simp [CanWait, ht, hcur]

end Worker

theorem maintDue_eq {cfg : Durations} {base now : Int} (hc : cfg.Short) (hb : Stamped base)
    (hn : Stamped now) : maintDue cfg base now = some (reviewDue cfg now base) := by
  rw [maintDue, if_pos (hc .maintenanceInterval).1, elapsed_eq hb hn]
  rfl

section
variable {cfg : Durations} {w : Worker} {now mono : Int}

/-- The iteration starts a cycle or a review, so that nothing is waited for. -/
def Worker.starts (w : Worker) (cfg : Durations) (now : Int) : Bool :=
  w.canWork && (w.batchTrig || w.idleDue cfg now || reviewDue cfg now w.reviewBase)

theorem Worker.next_eq (hc : cfg.Short) (hw : w.Stamps) (hn : Stamped now) :
    w.next cfg now =
      if w.starts cfg now = false ∧ ¬ w.CanWait cfg now then none else some (w.nextExact cfg now) := by
  rw [Worker.next, idleTrig_eq hc hw hn, maintDue_eq hc hw.reviewBase hn, waitMs_eq hc hw hn,
    nextExact, starts]
  dsimp only [Option.bind_eq_bind, Option.bind_some]
  cases w.canWork with
  | false => by_cases hwait : w.CanWait cfg now <;> simp [hwait]
  | true =>
    cases w.batchTrig || w.idleDue cfg now with
    | true => simp
    | false =>
      cases reviewDue cfg now w.reviewBase with
      | true => simp
      | false => by_cases hwait : w.CanWait cfg now <;> simp [hwait]

theorem reviewEarly_eq (force : Bool) (hw : w.Stamps) (hn : Stamped now) :
    reviewEarly cfg force w.lastMaintenance now =
      some (!force && w.lastMaintenance ≠ 0 && !reviewDue cfg now w.lastMaintenance) := by
  rw [reviewEarly, fit_of_fits (hw.lastMaintenance.sub_fits hn), reviewDue, ← decide_not]
  simp only [Int.not_le, Option.map_some]
  cases force <;> by_cases h0 : w.lastMaintenance = 0 <;> simp [h0]

theorem purgeTest_eq (r : Record) (hr : Stamped r.deprecatedAt) (hn : Stamped now) :
    purgeTest cfg now r = some (purgeDue (cfg .purgeAfter) now r) := by
  rw [purgeTest, purgeDue, elapsed_eq hr hn]
  cases r.deprecated <;> rfl

end

/-- As many weeks as a duration can have. -/
def weeksText : CStr := ⟨ascii "P999999999999W", by decide⟩

theorem weeksText_parse : asperDurationParse weeksText = .ok 604799999999395200 :=
  (reads_durationScan weeksText.2).ok_iff.2
    ⟨[], .weeks ⟨ascii "999999999999", by decide, by decide, by decide⟩, rfl, by decide +kernel, rfl⟩

end Asper
