import Asper.Lib.Act

/-! # What an operation guarantees, whole or stopped

`Act.Wp P m Q d`: run on `d`, `m` leaves a disk of `P` wherever it is stopped, and ends in `Q`,
which speaks of its result and of the disk. `Wp.bind` follows a sequence; the file operations that
only touch nodes `P` does not depend on (`Stable`) keep it (`Keeps.wp`, `Keeps.emit`). -/

namespace Durable

variable {ε α β : Type} {P P' : Disk → Prop} {d : Disk}

namespace Act

/-- A sequence that writes nothing is a sequence of its results. -/
theorem bind_quiet {m : Act ε α} {f : α → Act ε β} {x : Except ε α} {g : α → Except ε β}
    (h : m d = ⟨[], x⟩) (hf : ∀ a, x = .ok a → f a d = ⟨[], g a⟩) :
    (m >>= f) d = ⟨[], x.bind g⟩ := by
  cases x with
  | error e => exact bind_run_error h
  | ok a => exact bind_run_run h (hf a rfl)

/-- From `d`, `m` is in `P` wherever it is stopped, and ends in `Q`. -/
def Wp (P : Disk → Prop) (m : Act ε α) (Q : Except ε α → Disk → Prop) (d : Disk) : Prop :=
  Steps (fun _ _ => False) d (m.writes d) P (Q (m.result d))

section
variable {m : Act ε α} {Q Q' : Except ε α → Disk → Prop}

theorem Wp.of_run {ws : List Write} {r : Except ε α} (h : m d = ⟨ws, r⟩)
    (hs : Steps (fun _ _ => False) d ws P (Q r)) : Wp P m Q d := by
  unfold Wp
  rwa [writes, result, h]

/-- An operation that writes nothing. -/
theorem Wp.of_quiet {r : Except ε α} (h : m d = ⟨[], r⟩) (hP : P d) (hQ : Q r d) : Wp P m Q d :=
  .of_run h (.nil hP hQ)

theorem Wp.pure {a : α} (hP : P d) (hQ : Q (.ok a) d) : Wp P (Pure.pure a) Q d := .of_quiet rfl hP hQ

theorem Wp.fail {e : ε} (hP : P d) (hQ : Q (.error e) d) : Wp P (Act.fail e) Q d :=
  .of_quiet rfl hP hQ

theorem Wp.look {f : Disk → α} (hP : P d) (hQ : Q (.ok (f d)) d) : Wp P (Act.look f) Q d :=
  .of_quiet rfl hP hQ

theorem Wp.read {f : Disk → Except ε α} (hP : P d) (hQ : Q (f d) d) : Wp P (Act.read f) Q d :=
  .of_quiet rfl hP hQ

theorem Wp.lift {x : Except ε α} (hP : P d) (hQ : Q x d) : Wp P (Act.lift x) Q d :=
  .of_quiet rfl hP hQ

/-- **A sequence**: what the first part ends in is where the second starts. -/
theorem Wp.bind {f : α → Act ε β} {R : Except ε β → Disk → Prop} (h : Wp P m Q d)
    (hok : ∀ a d', Q (.ok a) d' → Wp P (f a) R d')
    (herr : ∀ e d', Q (.error e) d' → R (.error e) d') : Wp P (m >>= f) R d := by
  unfold Wp at h ⊢
  cases hm : m.result d with
  | error e =>
    rw [writes_bind_error hm, result_bind_error hm]
    rw [hm] at h
    exact h.weaken (fun _ hp => hp) fun d' hq => herr e d' hq
  | ok a =>
    rw [writes_bind hm, result_bind hm]
    rw [hm] at h
    exact h.append (hok a _ h.final)

/-- A sequence whose first part hands its error on. -/
theorem Wp.bind_attempt {f : Except ε α → Act ε β} {R : Except ε β → Disk → Prop} (h : Wp P m Q d)
    (hf : ∀ r d', Q r d' → Wp P (f r) R d') : Wp P (m.attempt >>= f) R d := by
  unfold Wp at h ⊢
  rw [writes_attempt_bind, result_attempt_bind]
  exact h.append (hf _ _ h.final)

/-- What an operation does on `d` is all that counts. -/
theorem Wp.congr {m' : Act ε α} (h : m d = m' d) (hm : Wp P m' Q d) : Wp P m Q d := by
  unfold Wp writes result at hm ⊢
  rwa [h]

/-- A sequence whose first part writes nothing and succeeds. -/
theorem Wp.after {f : α → Act ε β} {R : Except ε β → Disk → Prop} {a : α} (h : m d = ⟨[], .ok a⟩)
    (hf : Wp P (f a) R d) : Wp P (m >>= f) R d := .congr (bind_run h) hf

theorem Wp.ite {c : Prop} [Decidable c] {m' : Act ε α} (h : c → Wp P m Q d)
    (h' : ¬ c → Wp P m' Q d) : Wp P (if c then m else m') Q d := by
  split
  · next hc => exact h hc
  · next hc => exact h' hc

theorem Wp.weaken (h : Wp P m Q d) (hP : ∀ d', P d' → P' d') (hQ : ∀ r d', Q r d' → Q' r d') :
    Wp P' m Q' d := Steps.weaken h hP (hQ _)

theorem Wp.and (h : Wp P m Q d) (h' : Wp P' m Q' d) :
    Wp (fun d => P d ∧ P' d) m (fun r d => Q r d ∧ Q' r d) d :=
  ⟨fun hc hb => ⟨h.crash hc hb, h'.crash hc hb⟩, h.final, h'.final⟩

/-- An operation ends on its final disk. -/
theorem Wp.at_final (h : Wp P m Q d) : Wp P m (fun r d' => Q r d' ∧ d' = m.final d) d :=
  ⟨h.crash, h.final, rfl⟩

/-- An operation that keeps `I` started in it. -/
theorem Keeps.wp {I : Disk → Prop} {R : α → Prop} (h : Keeps (fun _ _ => False) I m R) (hd : I d) :
    Wp I m (fun r d' => I d' ∧ ∀ a, r = .ok a → R a) d :=
  (h.steps d hd).weaken (fun _ hi => hi) fun _ hi => ⟨hi, fun a ha => h.value d a hd ha⟩

end

/-! ## Operations that stay in a property -/

/-- From `d`, `m` stays in `P`, and gives what `R` says when it succeeds. -/
def Within (P : Disk → Prop) (m : Act ε α) (R : α → Disk → Prop) (d : Disk) : Prop :=
  Wp P m (fun r d' => P d' ∧ ∀ a, r = .ok a → R a d') d

section
variable {m : Act ε α} {R R' : α → Disk → Prop}

theorem Within.pure {a : α} (hP : P d) (hR : R a d) : Within P (Pure.pure a : Act ε α) R d :=
  Wp.pure hP ⟨hP, fun _ ha => Except.ok.inj ha ▸ hR⟩

theorem Within.fail {e : ε} (hP : P d) : Within P (Act.fail e) R d := Wp.fail hP ⟨hP, nofun⟩

theorem Within.lift {x : Except ε α} (hP : P d) (h : ∀ a, x = .ok a → R a d) :
    Within P (Act.lift x) R d := Wp.lift hP ⟨hP, h⟩

theorem Within.bind {f : α → Act ε β} {S : β → Disk → Prop} (h : Within P m R d)
    (hf : ∀ a d', P d' → R a d' → Within P (f a) S d') : Within P (m >>= f) S d :=
  Wp.bind h (fun a d' hd => hf a d' hd.1 (hd.2 a rfl)) fun _ _ hd => ⟨hd.1, nofun⟩

theorem Within.weaken (h : Within P m R d) (hR : ∀ a d', R a d' → R' a d') : Within P m R' d :=
  Wp.weaken h (fun _ hp => hp) fun _ _ hd => ⟨hd.1, fun a ha => hR a _ (hd.2 a ha)⟩

theorem Keeps.within {I : Disk → Prop} {R : α → Prop} (h : Keeps (fun _ _ => False) I m R)
    (hd : I d) : Within I m (fun a _ => R a) d := h.wp hd

end

/-! ## Nodes a property does not depend on -/

/-- Whether `I` holds does not depend on the node at `p`. -/
def Stable (I : Disk → Prop) (p : Path) : Prop := ∀ d x, I d → I (d.set p x)

theorem Stable.apply {I : Disk → Prop} {w : Write} (h : ∀ p ∈ w.paths, Stable I p) (hd : I d) :
    I (w.apply d) := by
  cases w with
  | rename s t =>
    have hs := h s (by simp [Write.paths])
    have ht := h t (by simp [Write.paths])
    exact hs _ _ (ht _ _ hd)
  | _ => exact h _ (List.mem_singleton_self _) _ _ hd

/-- A write to nodes that `I` does not depend on. -/
theorem Keeps.emit {Bad : Write → Write → Prop} {I : Disk → Prop} {w : Write}
    (h : ∀ p ∈ w.paths, Stable I p) :
    Keeps Bad I (Act.emit w : Act ε Unit) fun _ => True where
  steps _ hd := .single hd
    (fun _ _ hk _ => Stable.apply (fun p hp => h p (Write.cut_paths hk ▸ hp)) hd)
    (Stable.apply h hd) (Stable.apply h hd)
  value _ _ _ _ := trivial

end Act

end Durable
