import Asper.Curator.Slot

/-! # Who has the cycle slot

The places of the threads are those of a monitor with one slot (`SlotInv`), over every
interleaving. So one thread at most has the slot, `cycle_busy` says whether one has it,
`recall_waiting` counts those who wait, and the worker takes the slot only when nobody waits. -/

namespace Asper

open Durable

/-- The worker is the thread that gives way. -/
abbrev GivesWay (a : SlotThread) : Prop := a = .worker

/-- The system is at the monitor `m`. -/
structure SlotInv (x : SlotSystem) (m : Monitor SlotThread) : Prop where
  follows : Follows GivesWay m x.stance
  mutex : x.shared.mutex = m.owner
  busy : x.shared.busy = m.holder.isSome
  waiting : x.shared.waiting = m.waiters.card

theorem SlotShared.lock_some {α : Type} {s s' : SlotShared} {me : SlotThread} {next at_ : α}
    (h : s.lock me next = some (s', at_)) :
    s.mutex = none ∧ s' = { s with mutex := some me } ∧ at_ = next := by
  unfold SlotShared.lock at h
  split at h
  · next hn =>
    cases h
    exact ⟨hn, rfl, rfl⟩
  · cases h

theorem slotInv_init : SlotInv .init ⟨none, none, ∅⟩ where
  follows := by
    refine ⟨fun a => ?_, fun a => ?_, fun a => ?_, fun a => ?_⟩ <;>
      cases a <;> simp [SlotSystem.stance, SlotSystem.init, WorkerAt.stance, SlotShared.init]
  mutex := rfl
  busy := rfl
  waiting := rfl

section
variable {x : SlotSystem} {m : Monitor SlotThread} {s : SlotShared}

/-- The owner of the mutex is a thread, not another's critical section. -/
theorem SlotInv.owner_ne (hI : SlotInv x m) {a : SlotThread} (ha : a ≠ .other)
    (hin : (x.stance a).inside = true) : x.shared.mutex = some a ∧ x.shared.mutex ≠ some .other := by
  have ho : x.shared.mutex = some a := by rw [hI.mutex, ← hI.follows.inside a, hin]
  refine ⟨ho, ?_⟩
  rw [ho]
  exact fun he => ha (Option.some.inj he)

/-! ## Callers -/

theorem caller_moves {i : Nat} {c : Caller} (s : SlotShared) (at_ : CallerAt)
    (hc : x.callers[i]? = some c)
    (ho : s.mutex = some .other ↔ x.shared.mutex = some .other) :
    Moves x.stance
      (SlotSystem.stance { x with shared := s, callers := x.callers.set i { c with at_ } })
      (.caller i) c.at_.stance at_.stance where
  before := by simp [SlotSystem.stance, hc]
  after := by
    obtain ⟨hi, -⟩ := List.getElem?_eq_some_iff.1 hc
    simp [SlotSystem.stance, hi]
  others b hb := by
    cases b with
    | worker => rfl
    | caller j =>
      have hij : i ≠ j := fun he => hb (by rw [he])
      simp [SlotSystem.stance, List.getElem?_set_ne hij]
    | other => simp [SlotSystem.stance, ho]

/-- **A caller's statement** is a move of the monitor. -/
theorem SlotInv.caller (hI : SlotInv x m) {i : Nat} {c : Caller} {at_ : CallerAt} {now : Int}
    (hc : x.callers[i]? = some c)
    (h : callerNext c.purpose.deadline (.caller i) now x.shared c.at_ = some (s, at_)) :
    ∃ m', SlotInv { x with shared := s, callers := x.callers.set i { c with at_ } } m' := by
  have hst : x.stance (.caller i) = c.at_.stance := by simp [SlotSystem.stance, hc]
  have hlock {next : CallerAt} (hl : x.shared.lock (.caller i) next = some (s, at_))
      {waits holds : Bool} (h0 : c.at_.stance = ⟨false, waits, holds, false⟩)
      (h1 : next.stance = ⟨true, waits, holds, false⟩) :
      ∃ m', SlotInv { x with shared := s, callers := x.callers.set i { c with at_ } } m' := by
    obtain ⟨hn, rfl, rfl⟩ := SlotShared.lock_some hl
    have hm := caller_moves { x.shared with mutex := some (.caller i) } at_ hc (by simp [hn])
    rw [h0, h1] at hm
    exact ⟨_, hI.follows.lock (by rw [← hI.mutex, hn]) hm, rfl, hI.busy, hI.waiting⟩
  have hunlock {waits holds : Bool} (h0 : c.at_.stance = ⟨true, waits, holds, false⟩)
      (h1 : at_.stance = ⟨false, waits, holds, false⟩) (hs : s = x.shared.unlock) :
      ∃ m', SlotInv { x with shared := s, callers := x.callers.set i { c with at_ } } m' := by
    obtain rfl := hs
    obtain ⟨-, hne⟩ := hI.owner_ne (a := .caller i) (fun he => nomatch he) (by rw [hst, h0])
    have hm := caller_moves x.shared.unlock at_ hc (by simp [SlotShared.unlock, hne])
    rw [h0, h1] at hm
    exact ⟨_, hI.follows.unlock hm, rfl, hI.busy, hI.waiting⟩
  have hmove {s' : SlotShared} (hs : s'.mutex = x.shared.mutex) :=
    caller_moves s' at_ hc (by rw [hs])
  cases hat : c.at_ with
  | calling =>
    rw [hat] at h hlock
    exact hlock h rfl rfl
  | entered =>
    rw [hat] at h hmove
    cases h
    obtain ⟨hf, hw⟩ := hI.follows.wait (hmove rfl)
    refine ⟨_, hf, hI.mutex, hI.busy, ?_⟩
    rw [Finset.card_insert_of_notMem hw]
    simp [hI.waiting]
  | testing =>
    rw [hat] at h hmove hunlock
    simp only [callerNext] at h
    split at h
    · next hb =>
      cases h
      have hn : m.holder = none := by
        rw [hI.busy] at hb
        simpa using hb
      have hp : ¬ GivesWay (.caller i) := fun he => nomatch he
      exact ⟨m, hI.follows.claim hn (absurd · hp) (hmove rfl), hI.mutex, hI.busy, hI.waiting⟩
    · split at h
      · cases h
        exact hunlock rfl rfl rfl
      · split at h
        · cases h
          exact ⟨m, hI.follows.stay (hmove rfl) rfl rfl rfl rfl, hI.mutex, hI.busy, hI.waiting⟩
        · cases h
          exact hunlock rfl rfl rfl
  | parked =>
    rw [hat] at h hmove
    cases h
    exact ⟨m, hI.follows.stay (hmove rfl) rfl rfl rfl rfl, hI.mutex, hI.busy, hI.waiting⟩
  | waking =>
    rw [hat] at h hlock
    exact hlock h rfl rfl
  | claiming =>
    rw [hat] at h hmove
    cases h
    exact ⟨_, (hI.follows.take (hmove rfl)).1, hI.mutex, rfl, hI.waiting⟩
  | claimed =>
    rw [hat] at h hmove
    cases h
    obtain ⟨hf, hw⟩ := hI.follows.leave (hmove rfl)
    refine ⟨_, hf, hI.mutex, hI.busy, ?_⟩
    have hpos := Finset.card_pos.2 ⟨_, hw⟩
    rw [Finset.card_erase_of_mem hw]
    simp only [hI.waiting]
    omega
  | served =>
    rw [hat] at h hunlock
    cases h
    exact hunlock rfl rfl rfl
  | running =>
    rw [hat] at h hlock
    exact hlock h rfl rfl
  | releasing =>
    rw [hat] at h hmove
    cases h
    exact ⟨_, (hI.follows.release (hmove rfl)).1, hI.mutex, rfl, hI.waiting⟩
  | released =>
    rw [hat] at h hunlock
    cases h
    exact hunlock rfl rfl rfl
  | late =>
    rw [hat] at h hmove
    cases h
    obtain ⟨hf, hw⟩ := hI.follows.leave (hmove rfl)
    refine ⟨_, hf, hI.mutex, hI.busy, ?_⟩
    have hpos := Finset.card_pos.2 ⟨_, hw⟩
    rw [Finset.card_erase_of_mem hw]
    simp only [hI.waiting]
    omega
  | leaving =>
    rw [hat] at h hunlock
    cases h
    exact hunlock rfl rfl rfl
  | done =>
    rw [hat] at h
    cases h

/-! ## The worker -/

theorem worker_moves (x : SlotSystem) (s : SlotShared) (at_ : WorkerAt)
    (ho : s.mutex = some .other ↔ x.shared.mutex = some .other) :
    Moves x.stance (SlotSystem.stance { x with shared := s, worker := at_ })
      .worker x.worker.stance at_.stance where
  before := rfl
  after := rfl
  others b hb := by
    cases b with
    | worker => exact absurd rfl hb
    | caller j => rfl
    | other => simp [SlotSystem.stance, ho]

/-- **The worker's statement** is a move of the monitor; it takes the slot when nobody waits. -/
theorem SlotInv.worker (hI : SlotInv x m) {curator : Bool} {sees : WorkerSees} {at_ : WorkerAt}
    (h : workerNext curator sees x.shared x.worker = some (s, at_)) :
    (∃ m', SlotInv { x with shared := s, worker := at_ } m') ∧
      ∀ task, x.worker = .claiming task → x.shared.waiting = 0 := by
  have hst : x.stance .worker = x.worker.stance := rfl
  have hlock {next : WorkerAt} (hl : x.shared.lock .worker next = some (s, at_))
      {waits holds : Bool} (h0 : x.worker.stance = ⟨false, waits, holds, false⟩)
      (h1 : next.stance = ⟨true, waits, holds, false⟩) :
      ∃ m', SlotInv { x with shared := s, worker := at_ } m' := by
    obtain ⟨hn, rfl, rfl⟩ := SlotShared.lock_some hl
    have hm := worker_moves x { x.shared with mutex := some .worker } at_ (by simp [hn])
    rw [h0, h1] at hm
    exact ⟨_, hI.follows.lock (by rw [← hI.mutex, hn]) hm, rfl, hI.busy, hI.waiting⟩
  have hunlock {waits holds : Bool} (h0 : x.worker.stance = ⟨true, waits, holds, false⟩)
      (h1 : at_.stance = ⟨false, waits, holds, false⟩) (hs : s = x.shared.unlock) :
      ∃ m', SlotInv { x with shared := s, worker := at_ } m' := by
    obtain rfl := hs
    obtain ⟨-, hne⟩ := hI.owner_ne (a := .worker) (fun he => nomatch he) (by rw [hst, h0])
    have hm := worker_moves x x.shared.unlock at_ (by simp [SlotShared.unlock, hne])
    rw [h0, h1] at hm
    exact ⟨_, hI.follows.unlock hm, rfl, hI.busy, hI.waiting⟩
  have hmove (s' : SlotShared) (hs : s'.mutex = x.shared.mutex) :=
    worker_moves x s' at_ (by rw [hs])
  have hstay {s' : Stance} (h0 : x.worker.stance = s') (h1 : at_.stance = s')
      (hc : s'.claims = false) (hs : s = x.shared) :
      ∃ m', SlotInv { x with shared := s, worker := at_ } m' := by
    obtain rfl := hs
    have hm := hmove x.shared rfl
    rw [h0, h1] at hm
    exact ⟨m, hI.follows.stay hm rfl rfl rfl hc, hI.mutex, hI.busy, hI.waiting⟩
  cases hat : x.worker with
  | absent =>
    rw [hat] at h
    cases h
  | starting =>
    rw [hat] at h hlock
    exact ⟨hlock h rfl rfl, fun _ hn => nomatch hn⟩
  | looping =>
    rw [hat] at h hmove hunlock hstay
    refine ⟨?_, fun _ hn => nomatch hn⟩
    have hclaim (hb : x.shared.busy = false) (hw : x.shared.waiting = 0) {task : SlotTask}
        (ha : at_ = .claiming task) (hs : s = x.shared) :
        ∃ m', SlotInv { x with shared := s, worker := at_ } m' := by
      obtain rfl := hs
      have hm := hmove x.shared rfl
      rw [ha] at hm ⊢
      have hn : m.holder = none := by
        rw [hI.busy] at hb
        simpa using hb
      have hz : m.waiters = ∅ := by
        rw [hI.waiting] at hw
        exact Finset.card_eq_zero.1 (by exact_mod_cast hw)
      exact ⟨m, hI.follows.claim hn (fun _ => hz) hm, hI.mutex, hI.busy, hI.waiting⟩
    simp only [workerNext] at h
    split at h
    · cases h
      exact hstay rfl rfl rfl rfl
    · split at h
      · next hc =>
        cases h
        exact hclaim hc.2.1 hc.2.2.1 rfl rfl
      · split at h
        · next hc =>
          cases h
          exact hclaim hc.2.1 hc.2.2.1 rfl rfl
        · cases h
          exact hunlock rfl rfl rfl
  | claiming task =>
    rw [hat] at h hmove
    cases h
    obtain ⟨hf, -, hp⟩ := hI.follows.take (hmove _ rfl)
    refine ⟨⟨_, hf, hI.mutex, rfl, hI.waiting⟩, fun _ _ => ?_⟩
    rw [hI.waiting, hp rfl]
    rfl
  | claimed task =>
    rw [hat] at h hunlock
    cases h
    exact ⟨hunlock rfl rfl rfl, fun _ hn => nomatch hn⟩
  | working task =>
    rw [hat] at h hlock
    exact ⟨hlock h rfl rfl, fun _ hn => nomatch hn⟩
  | releasing task =>
    rw [hat] at h hmove
    cases h
    exact ⟨⟨_, (hI.follows.release (hmove _ rfl)).1, hI.mutex, rfl, hI.waiting⟩,
      fun _ hn => nomatch hn⟩
  | released task =>
    rw [hat] at h hunlock hstay
    refine ⟨?_, fun _ hn => nomatch hn⟩
    simp only [workerNext] at h
    split at h
    · cases h
      exact hunlock rfl rfl rfl
    · cases h
      exact hstay rfl rfl rfl rfl
  | compacting task =>
    rw [hat] at h hlock
    exact ⟨hlock h rfl rfl, fun _ hn => nomatch hn⟩
  | settled task =>
    rw [hat] at h hunlock hstay
    refine ⟨?_, fun _ hn => nomatch hn⟩
    simp only [workerNext] at h
    split at h
    · cases h
      exact hunlock rfl rfl rfl
    · cases h
      exact hstay rfl rfl rfl rfl
  | parked =>
    rw [hat] at h hstay
    cases h
    exact ⟨hstay rfl rfl rfl rfl, fun _ hn => nomatch hn⟩
  | waking =>
    rw [hat] at h hlock
    exact ⟨hlock h rfl rfl, fun _ hn => nomatch hn⟩
  | ending =>
    rw [hat] at h hunlock
    cases h
    exact ⟨hunlock rfl rfl rfl, fun _ hn => nomatch hn⟩
  | exited =>
    rw [hat] at h
    cases h

/-! ## The system -/

/-- A step that leaves every thread's stance and the slot. -/
theorem SlotInv.same {y : SlotSystem} (hI : SlotInv x m) (hs : y.stance = x.stance)
    (hm : y.shared.mutex = x.shared.mutex) (hb : y.shared.busy = x.shared.busy)
    (hw : y.shared.waiting = x.shared.waiting) : SlotInv y m where
  follows := by
    rw [hs]
    exact hI.follows
  mutex := by rw [hm, hI.mutex]
  busy := by rw [hb, hI.busy]
  waiting := by rw [hw, hI.waiting]

/-- A critical section of some other thread. -/
theorem SlotInv.other (hI : SlotInv x m) {o : Option SlotThread}
    (ho : x.shared.mutex = none ∧ o = some .other ∨ x.shared.mutex = some .other ∧ o = none) :
    ∃ m', SlotInv { x with shared := { x.shared with mutex := o } } m' := by
  have hb {f' : SlotThread → Stance} (hf : f' = SlotSystem.stance
      { x with shared := { x.shared with mutex := o } }) : ∀ b, b ≠ .other → f' b = x.stance b := by
    intro b hb
    rw [hf]
    cases b with
    | worker => rfl
    | caller i => rfl
    | other => exact absurd rfl hb
  rcases ho with ⟨hn, rfl⟩ | ⟨hn, rfl⟩
  · have hm : Moves x.stance _ .other ⟨false, false, false, false⟩ ⟨true, false, false, false⟩ :=
      ⟨by simp [SlotSystem.stance, hn], by simp [SlotSystem.stance], hb rfl⟩
    exact ⟨_, hI.follows.lock (by rw [← hI.mutex, hn]) hm, rfl, hI.busy, hI.waiting⟩
  · have hm : Moves x.stance _ .other ⟨true, false, false, false⟩ ⟨false, false, false, false⟩ :=
      ⟨by simp [SlotSystem.stance, hn], by simp [SlotSystem.stance], hb rfl⟩
    exact ⟨_, hI.follows.unlock hm, rfl, hI.busy, hI.waiting⟩

/-- **One step** of any thread. -/
theorem SlotInv.step (hI : SlotInv x m) {curator : Bool} {l : SlotEvent} {y : SlotSystem}
    (h : SlotSystem.Step curator x l y) :
    (∃ m', SlotInv y m') ∧ ∀ task, l = .started task → x.shared.waiting = 0 := by
  cases h with
  | call p =>
    refine ⟨⟨m, hI.same ?_ rfl rfl rfl⟩, fun _ hl => nomatch hl⟩
    funext a
    cases a with
    | worker => rfl
    | other => rfl
    | caller i =>
      by_cases hi : i < x.callers.length
      · simp only [SlotSystem.stance, List.getElem?_append_left hi]
      · have hle := Nat.le_of_not_lt hi
        simp only [SlotSystem.stance, List.getElem?_append_right hle, List.getElem?_eq_none hle]
        cases i - x.callers.length <;> rfl
  | caller i now c hc h => exact ⟨hI.caller hc h, fun _ hl => nomatch hl⟩
  | worker sees hn h => exact ⟨(hI.worker h).1, fun _ hl => nomatch hl⟩
  | begin sees task hw h => exact ⟨(hI.worker h).1, fun _ _ => (hI.worker h).2 task hw⟩
  | start hw =>
    refine ⟨⟨m, hI.same ?_ rfl rfl rfl⟩, fun _ hl => nomatch hl⟩
    funext a
    cases a with
    | worker => simp [SlotSystem.stance, hw, WorkerAt.stance]
    | other => rfl
    | caller i => rfl
  | lock hm => exact ⟨hI.other (.inl ⟨hm, rfl⟩), fun _ hl => nomatch hl⟩
  | stop hm =>
    refine ⟨⟨m, hI.same ?_ rfl rfl rfl⟩, fun _ hl => nomatch hl⟩
    funext a
    cases a <;> rfl
  | unlock hm => exact ⟨hI.other (.inr ⟨hm, rfl⟩), fun _ hl => nomatch hl⟩
  | join hw =>
    refine ⟨⟨m, hI.same ?_ rfl rfl rfl⟩, fun _ hl => nomatch hl⟩
    funext a
    cases a with
    | worker => simp [SlotSystem.stance, hw, WorkerAt.stance]
    | other => rfl
    | caller i => rfl

/-- **Every run** leads to a state of a monitor. -/
theorem runs_slotInv {curator : Bool} {ls : List SlotEvent}
    (h : Runs (SlotSystem.Step curator) .init ls x) : ∃ m, SlotInv x m :=
  h.inv (I := fun _ x => ∃ m, SlotInv x m) ⟨_, slotInv_init⟩
    fun _ _ _ _ hi hs => hi.elim fun _ hI => (hI.step hs).1

/-- While nobody is in the critical section, a caller waits exactly when it waits on the
condition. -/
theorem CallerAt.waits_iff {c : CallerAt} (h : c.stance.inside = false) :
    c.stance.waits = true ↔ c = .parked ∨ c = .waking := by
  cases c <;> simp_all [CallerAt.stance]

/-- In every interleaving one thread at most has the slot, `cycle_busy` is set exactly while one
has it, `recall_waiting` is the number of callers that wait for it (those at the condition, when
nobody is in the critical section), and the worker starts a cycle or a review only when it is 0. -/
theorem slot_exclusive {curator : Bool} {ls : List SlotEvent}
    (h : Runs (SlotSystem.Step curator) .init ls x) :
    (∀ a b, (x.stance a).holds = true → (x.stance b).holds = true → a = b) ∧
    (x.shared.busy = true ↔ ∃ a, (x.stance a).holds = true) ∧
    (∃ waiters : Finset SlotThread, x.shared.waiting = waiters.card ∧
      (∀ a, a ∈ waiters ↔ (x.stance a).waits = true) ∧
      (x.shared.mutex = none → ∀ a, a ∈ waiters ↔ ∃ i c, a = .caller i ∧
        x.callers[i]? = some c ∧ (c.at_ = .parked ∨ c.at_ = .waking))) ∧
    ∀ task y, SlotSystem.Step curator x (.started task) y → x.shared.waiting = 0 := by
  obtain ⟨m, hI⟩ := runs_slotInv h
  refine ⟨fun a b ha hb => ?_, ?_, ⟨m.waiters, hI.waiting, fun a => (hI.follows.waits a).symm,
    fun hn a => ?_⟩, fun task y hs => (hI.step hs).2 task rfl⟩
  · rw [hI.follows.holds] at ha hb
    exact Option.some.inj (ha.symm.trans hb)
  · rw [hI.busy, Option.isSome_iff_exists]
    exact exists_congr fun a => (hI.follows.holds a).symm
  · rw [← hI.follows.waits]
    have hout : (x.stance a).inside = false := by
      rw [Bool.eq_false_iff, ne_eq, hI.follows.inside, ← hI.mutex, hn]
      simp
    cases a with
    | worker => cases hw : x.worker <;> simp [SlotSystem.stance, hw, WorkerAt.stance]
    | other => simp [SlotSystem.stance]
    | caller i =>
      unfold SlotSystem.stance at hout ⊢
      dsimp only at hout ⊢
      cases hc : x.callers[i]? with
      | none => simp [hc]
      | some c =>
        rw [hc] at hout
        rw [CallerAt.waits_iff hout]
        simp [hc]

/-- A flush that has taken the slot. -/
theorem flush_runs : ∃ ls, Runs (SlotSystem.Step true) .init ls
    ⟨⟨none, true, 0, false⟩, .absent, [⟨.flush, .running⟩]⟩ := by
  have h : Runs (SlotSystem.Step true) .init _ _ := Runs.single (.call .flush)
  have h := h.snoc (.caller 0 0 ⟨.flush, .calling⟩ rfl rfl)
  have h := h.snoc (.caller 0 0 ⟨.flush, .entered⟩ rfl rfl)
  have h := h.snoc (.caller 0 0 ⟨.flush, .testing⟩ rfl rfl)
  have h := h.snoc (.caller 0 0 ⟨.flush, .claiming⟩ rfl rfl)
  have h := h.snoc (.caller 0 0 ⟨.flush, .claimed⟩ rfl rfl)
  have h := h.snoc (.caller 0 0 ⟨.flush, .served⟩ rfl rfl)
  exact ⟨_, h⟩

theorem slot_exclusive_flush : ∃ a, ((⟨⟨none, true, 0, false⟩, .absent, [⟨.flush, .running⟩]⟩ :
    SlotSystem).stance a).holds = true := by
  obtain ⟨ls, h⟩ := flush_runs
  exact (slot_exclusive h).2.1.1 rfl

end

end Asper
