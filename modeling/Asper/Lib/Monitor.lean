import Mathlib.Data.Finset.Card

/-! # A monitor that guards one slot

Threads enter a critical section one at a time. In it they may join those who wait for the slot,
leave them, take the slot when it is free, or give it back.

* `Monitor`: who is in the critical section, who has the slot, who waits for it.
* `Stance`: what a thread's place in its program says of these; `claims` is the moment between
  finding the slot free and taking it.
* `Follows`: the stances of all threads are what the monitor says. Each move of a thread keeps it
  (`Follows.lock`, `.unlock`, `.wait`, `.leave`, `.claim`, `.take`, `.release`). -/

namespace Durable

variable {α : Type}

structure Monitor (α : Type) where
  owner : Option α
  holder : Option α
  waiters : Finset α

structure Stance where
  inside : Bool
  waits : Bool
  holds : Bool
  claims : Bool
  deriving DecidableEq

/-- The monitor `m` is what the stances `f` say; the threads in `polite` claim the slot only when
nobody waits for it. -/
structure Follows (polite : α → Prop) (m : Monitor α) (f : α → Stance) : Prop where
  inside : ∀ a, (f a).inside = true ↔ m.owner = some a
  waits : ∀ a, (f a).waits = true ↔ a ∈ m.waiters
  holds : ∀ a, (f a).holds = true ↔ m.holder = some a
  claims : ∀ a, (f a).claims = true → m.owner = some a ∧ m.holder = none ∧
    (polite a → m.waiters = ∅)

/-- The thread `a` alone changes its stance, from `s` to `s'`. -/
structure Moves (f f' : α → Stance) (a : α) (s s' : Stance) : Prop where
  before : f a = s
  after : f' a = s'
  others : ∀ b, b ≠ a → f' b = f b

section
variable {polite : α → Prop} {m m' : Monitor α} {f f' : α → Stance} {a : α} {s s' : Stance}

/-- A move of the thread `a`, which is in the critical section, enters it, or changes nothing. -/
theorem Follows.move (h : Follows polite m f) (hf : Moves f f' a s s')
    (hm : m' = m ∨ m.owner = none ∨ m.owner = some a)
    (hin : s'.inside = true ↔ m'.owner = some a)
    (hin' : ∀ b, b ≠ a → (m'.owner = some b ↔ m.owner = some b))
    (hw : s'.waits = true ↔ a ∈ m'.waiters)
    (hw' : ∀ b, b ≠ a → (b ∈ m'.waiters ↔ b ∈ m.waiters))
    (hh : s'.holds = true ↔ m'.holder = some a)
    (hh' : ∀ b, b ≠ a → (m'.holder = some b ↔ m.holder = some b))
    (hc : s'.claims = true → m'.owner = some a ∧ m'.holder = none ∧
      (polite a → m'.waiters = ∅)) : Follows polite m' f' := by
  have hs : ∀ b, b ≠ a → f' b = f b := hf.others
  refine ⟨fun b => ?_, fun b => ?_, fun b => ?_, fun b hb => ?_⟩
  · by_cases hba : b = a
    · rw [hba, hf.after]
      exact hin
    · rw [hs b hba, h.inside, hin' b hba]
  · by_cases hba : b = a
    · rw [hba, hf.after]
      exact hw
    · rw [hs b hba, h.waits, hw' b hba]
  · by_cases hba : b = a
    · rw [hba, hf.after]
      exact hh
    · rw [hs b hba, h.holds, hh' b hba]
  · by_cases hba : b = a
    · rw [hba] at hb ⊢
      rw [hf.after] at hb
      exact hc hb
    · rw [hs b hba] at hb
      obtain ⟨ho, hn, hp⟩ := h.claims b hb
      -- `b` is in the critical section, so `a` is not
      rcases hm with rfl | hm | hm
      · exact ⟨ho, hn, hp⟩
      · rw [hm] at ho
        cases ho
      · rw [hm] at ho
        exact absurd (Option.some.inj ho).symm hba

/-- A move that no other thread can tell. -/
theorem Follows.stay (h : Follows polite m f) (hf : Moves f f' a s s')
    (hi : s'.inside = s.inside) (hw : s'.waits = s.waits) (hh : s'.holds = s.holds)
    (hc : s'.claims = false) : Follows polite m f' := by
  obtain rfl := hf.before
  refine h.move hf (.inl rfl) ?_ (fun _ _ => .rfl) ?_ (fun _ _ => .rfl) ?_ (fun _ _ => .rfl) ?_
  · rw [hi, h.inside]
  · rw [hw, h.waits]
  · rw [hh, h.holds]
  · rw [hc]
    exact fun hn => absurd hn Bool.false_ne_true

theorem Follows.lock (h : Follows polite m f) (ho : m.owner = none) {waits holds : Bool}
    (hf : Moves f f' a ⟨false, waits, holds, false⟩ ⟨true, waits, holds, false⟩) :
    Follows polite { m with owner := some a } f' := by
  have hs := hf.before
  refine h.move hf (.inr (.inl ho)) (by simp) (fun b hb => ?_) ?_ (fun _ _ => .rfl) ?_
    (fun _ _ => .rfl) (fun hn => absurd hn Bool.false_ne_true)
  · simp [ho, Ne.symm hb]
  · rw [← h.waits a, hs]
  · rw [← h.holds a, hs]

theorem Follows.unlock (h : Follows polite m f) {waits holds : Bool}
    (hf : Moves f f' a ⟨true, waits, holds, false⟩ ⟨false, waits, holds, false⟩) :
    Follows polite { m with owner := none } f' := by
  have hs := hf.before
  have ho : m.owner = some a := by rw [← h.inside, hs]
  refine h.move hf (.inr (.inr ho)) (by simp) (fun b hb => ?_) ?_ (fun _ _ => .rfl) ?_
    (fun _ _ => .rfl) (fun hn => absurd hn Bool.false_ne_true)
  · simp [ho, Ne.symm hb]
  · rw [← h.waits a, hs]
  · rw [← h.holds a, hs]

/-- The thread joins those who wait. -/
theorem Follows.wait [DecidableEq α] (h : Follows polite m f)
    (hf : Moves f f' a ⟨true, false, false, false⟩ ⟨true, true, false, false⟩) :
    Follows polite { m with waiters := insert a m.waiters } f' ∧ a ∉ m.waiters := by
  have hs := hf.before
  have ho : m.owner = some a := by rw [← h.inside, hs]
  have hw : a ∉ m.waiters := by
    rw [← h.waits a, hs]
    exact Bool.false_ne_true
  refine ⟨h.move hf (.inr (.inr ho)) (by simp [ho]) (fun _ _ => .rfl) (by simp)
    (fun b hb => by simp [hb]) ?_ (fun _ _ => .rfl) (fun hn => absurd hn Bool.false_ne_true), hw⟩
  rw [← h.holds a, hs]

/-- The thread leaves those who wait, with the slot or without. -/
theorem Follows.leave [DecidableEq α] (h : Follows polite m f) {holds : Bool}
    (hf : Moves f f' a ⟨true, true, holds, false⟩ ⟨true, false, holds, false⟩) :
    Follows polite { m with waiters := m.waiters.erase a } f' ∧ a ∈ m.waiters := by
  have hs := hf.before
  have ho : m.owner = some a := by rw [← h.inside, hs]
  have hw : a ∈ m.waiters := by rw [← h.waits a, hs]
  refine ⟨h.move hf (.inr (.inr ho)) (by simp [ho]) (fun _ _ => .rfl) (by simp)
    (fun b hb => by simp [hb]) ?_ (fun _ _ => .rfl) (fun hn => absurd hn Bool.false_ne_true), hw⟩
  rw [← h.holds a, hs]

/-- The thread finds the slot free. -/
theorem Follows.claim (h : Follows polite m f) {waits : Bool} (hn : m.holder = none)
    (hp : polite a → m.waiters = ∅)
    (hf : Moves f f' a ⟨true, waits, false, false⟩ ⟨true, waits, false, true⟩) :
    Follows polite m f' := by
  have hs := hf.before
  have ho : m.owner = some a := by rw [← h.inside, hs]
  refine h.move hf (.inl rfl) (by simp [ho]) (fun _ _ => .rfl) ?_ (fun _ _ => .rfl) ?_
    (fun _ _ => .rfl) (fun _ => ⟨ho, hn, hp⟩)
  · rw [← h.waits a, hs]
  · rw [← h.holds a, hs]

/-- The thread takes the slot it has found free. -/
theorem Follows.take (h : Follows polite m f) {waits : Bool}
    (hf : Moves f f' a ⟨true, waits, false, true⟩ ⟨true, waits, true, false⟩) :
    Follows polite { m with holder := some a } f' ∧ m.holder = none ∧
      (polite a → m.waiters = ∅) := by
  have hs := hf.before
  obtain ⟨ho, hn, hp⟩ := h.claims a (by rw [hs])
  refine ⟨h.move hf (.inr (.inr ho)) (by simp [ho]) (fun _ _ => .rfl) ?_ (fun _ _ => .rfl)
    (by simp) (fun b hb => ?_) (fun hn => absurd hn Bool.false_ne_true), hn, hp⟩
  · rw [← h.waits a, hs]
  · simp [hn, Ne.symm hb]

theorem Follows.release (h : Follows polite m f)
    (hf : Moves f f' a ⟨true, false, true, false⟩ ⟨true, false, false, false⟩) :
    Follows polite { m with holder := none } f' ∧ m.holder = some a := by
  have hs := hf.before
  have ho : m.owner = some a := by rw [← h.inside, hs]
  have hh : m.holder = some a := by rw [← h.holds, hs]
  refine ⟨h.move hf (.inr (.inr ho)) (by simp [ho]) (fun _ _ => .rfl) ?_ (fun _ _ => .rfl)
    (by simp) (fun b hb => ?_) (fun hn => absurd hn Bool.false_ne_true), hh⟩
  · rw [← h.waits a, hs]
  · simp [hh, Ne.symm hb]

end

end Durable
