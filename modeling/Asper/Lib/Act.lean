import Asper.Lib.Disk

/-! # Operations on a disk

An `Act ε α` reads the disk, issues writes in order and ends in a value or an error; the writes
issued before an error stay. `writes_bind` and `result_bind` run a sequence step by step.
`Confined G m`: `m` touches only the nodes of `G` and depends on no other, the form in which
an operation is framed (`Confined.final_other`) and moved between disks (`Confined.eq`,
`Confined.agree`). -/

namespace Durable

structure Outcome (ε α : Type) where
  writes : List Write
  result : Except ε α

def Act (ε α : Type) := Disk → Outcome ε α

variable {ε α β : Type}

namespace Act

def writes (m : Act ε α) (d : Disk) : List Write := (m d).writes

def result (m : Act ε α) (d : Disk) : Except ε α := (m d).result

/-- The disk when all writes have landed. -/
def final (m : Act ε α) (d : Disk) : Disk := applyAll (m.writes d) d

def bind (m : Act ε α) (f : α → Act ε β) : Act ε β := fun d =>
  match m.result d with
  | .ok a => ⟨m.writes d ++ (f a).writes (m.final d), (f a).result (m.final d)⟩
  | .error e => ⟨m.writes d, .error e⟩

instance : Monad (Act ε) where
  pure a := fun _ => ⟨[], .ok a⟩
  bind := bind

def fail (e : ε) : Act ε α := fun _ => ⟨[], .error e⟩

/-- Read the disk. -/
def look (f : Disk → α) : Act ε α := fun d => ⟨[], .ok (f d)⟩

/-- Read the disk and fail on what it does not hold. -/
def read (f : Disk → Except ε α) : Act ε α := fun d => ⟨[], f d⟩

def lift (x : Except ε α) : Act ε α := fun _ => ⟨[], x⟩

def emit (w : Write) : Act ε Unit := fun _ => ⟨[w], .ok ()⟩

/-- Run `m` and hand its error to the caller. -/
def attempt (m : Act ε α) : Act ε (Except ε α) := fun d => ⟨m.writes d, .ok (m.result d)⟩

@[simp] theorem writes_pure (a : α) (d : Disk) : (pure a : Act ε α).writes d = [] := rfl
@[simp] theorem result_pure (a : α) (d : Disk) : (pure a : Act ε α).result d = .ok a := rfl
@[simp] theorem writes_fail (e : ε) (d : Disk) : (fail e : Act ε α).writes d = [] := rfl
@[simp] theorem result_fail (e : ε) (d : Disk) : (fail e : Act ε α).result d = .error e := rfl
@[simp] theorem writes_look (f : Disk → α) (d : Disk) : (look f : Act ε α).writes d = [] := rfl
@[simp] theorem result_look (f : Disk → α) (d : Disk) :
    (look f : Act ε α).result d = .ok (f d) := rfl
@[simp] theorem writes_read (f : Disk → Except ε α) (d : Disk) : (read f).writes d = [] := rfl
@[simp] theorem result_read (f : Disk → Except ε α) (d : Disk) : (read f).result d = f d := rfl
@[simp] theorem final_read (f : Disk → Except ε α) (d : Disk) : (read f).final d = d := rfl
@[simp] theorem writes_lift (x : Except ε α) (d : Disk) : (lift x).writes d = [] := rfl
@[simp] theorem result_lift (x : Except ε α) (d : Disk) : (lift x).result d = x := rfl
@[simp] theorem writes_emit (w : Write) (d : Disk) : (emit w : Act ε Unit).writes d = [w] := rfl
@[simp] theorem result_emit (w : Write) (d : Disk) :
    (emit w : Act ε Unit).result d = .ok () := rfl
@[simp] theorem writes_attempt (m : Act ε α) (d : Disk) : m.attempt.writes d = m.writes d := rfl
@[simp] theorem result_attempt (m : Act ε α) (d : Disk) :
    m.attempt.result d = .ok (m.result d) := rfl
@[simp] theorem final_attempt (m : Act ε α) (d : Disk) : m.attempt.final d = m.final d := rfl

theorem final_of_nil {m : Act ε α} {d : Disk} (h : m.writes d = []) : m.final d = d := by
  rw [final, h, applyAll_nil]

@[simp] theorem final_pure (a : α) (d : Disk) : (pure a : Act ε α).final d = d := rfl
@[simp] theorem final_fail (e : ε) (d : Disk) : (fail e : Act ε α).final d = d := rfl
@[simp] theorem final_look (f : Disk → α) (d : Disk) : (look f : Act ε α).final d = d := rfl
@[simp] theorem final_lift (x : Except ε α) (d : Disk) : (lift x).final d = d := rfl
@[simp] theorem final_emit (w : Write) (d : Disk) : (emit w : Act ε Unit).final d = w.apply d := rfl

/-- **A sequence whose first part succeeds** writes the writes of both parts. -/
theorem bind_ok {m : Act ε α} {f : α → Act ε β} {d : Disk} {a : α} (h : m.result d = .ok a) :
    (m >>= f) d = ⟨m.writes d ++ (f a).writes (m.final d), (f a).result (m.final d)⟩ := by
  show bind m f d = _
  rw [bind, h]

theorem bind_error {m : Act ε α} {f : α → Act ε β} {d : Disk} {e : ε}
    (h : m.result d = .error e) : (m >>= f) d = ⟨m.writes d, .error e⟩ := by
  show bind m f d = _
  rw [bind, h]

/-- Run a sequence whose first part is known. -/
theorem bind_run {m : Act ε α} {f : α → Act ε β} {d : Disk} {w : List Write} {a : α}
    (h : m d = ⟨w, .ok a⟩) :
    (m >>= f) d = ⟨w ++ (f a).writes (applyAll w d), (f a).result (applyAll w d)⟩ := by
  have hw : m.writes d = w := by rw [writes, h]
  rw [bind_ok (show m.result d = .ok a by rw [result, h]), final, hw]

theorem bind_run_error {m : Act ε α} {f : α → Act ε β} {d : Disk} {ws : List Write} {e : ε}
    (h : m d = ⟨ws, .error e⟩) : (m >>= f) d = ⟨ws, .error e⟩ := by
  have hw : m.writes d = ws := by rw [writes, h]
  rw [bind_error (show m.result d = .error e by rw [result, h]), hw]

/-- The first part of a sequence counts at the disk it runs on only. -/
theorem bind_congr {m m' : Act ε α} (f : α → Act ε β) {d : Disk} (h : m d = m' d) :
    (m >>= f) d = (m' >>= f) d := by
  show bind m f d = bind m' f d
  simp only [bind, result, writes, final, h]

/-- Run a sequence both of whose parts are known. -/
theorem bind_run_run {m : Act ε α} {f : α → Act ε β} {d : Disk} {w v : List Write} {a : α}
    {r : Except ε β} (h : m d = ⟨w, .ok a⟩) (hf : f a (applyAll w d) = ⟨v, r⟩) :
    (m >>= f) d = ⟨w ++ v, r⟩ := by
  rw [bind_run h, writes, result, hf]

theorem attempt_run {m : Act ε α} {d : Disk} {ws : List Write} {r : Except ε α}
    (h : m d = ⟨ws, r⟩) : m.attempt d = ⟨ws, .ok r⟩ := by
  rw [attempt, writes, result, h]

theorem writes_bind {m : Act ε α} {f : α → Act ε β} {d : Disk} {a : α}
    (h : m.result d = .ok a) :
    (m >>= f).writes d = m.writes d ++ (f a).writes (m.final d) := by
  rw [writes, bind_ok h]

theorem result_bind {m : Act ε α} {f : α → Act ε β} {d : Disk} {a : α}
    (h : m.result d = .ok a) : (m >>= f).result d = (f a).result (m.final d) := by
  rw [result, bind_ok h]

theorem final_bind {m : Act ε α} {f : α → Act ε β} {d : Disk} {a : α}
    (h : m.result d = .ok a) : (m >>= f).final d = (f a).final (m.final d) := by
  rw [final, writes_bind h, applyAll_append]
  rfl

theorem writes_bind_error {m : Act ε α} {f : α → Act ε β} {d : Disk} {e : ε}
    (h : m.result d = .error e) : (m >>= f).writes d = m.writes d := by
  rw [writes, bind_error h]

theorem result_bind_error {m : Act ε α} {f : α → Act ε β} {d : Disk} {e : ε}
    (h : m.result d = .error e) : (m >>= f).result d = .error e := by
  rw [result, bind_error h]

theorem final_bind_error {m : Act ε α} {f : α → Act ε β} {d : Disk} {e : ε}
    (h : m.result d = .error e) : (m >>= f).final d = m.final d := by
  rw [final, writes_bind_error h]
  rfl

theorem bind_assoc {γ : Type} (m : Act ε α) (f : α → Act ε β) (g : β → Act ε γ) :
    m >>= f >>= g = m >>= fun a => f a >>= g := by
  funext d
  cases hm : m.result d with
  | error e => rw [bind_error (result_bind_error hm), bind_error hm, writes_bind_error hm]
  | ok a =>
    rw [bind_ok hm]
    cases hf : (f a).result (m.final d) with
    | error e =>
      rw [bind_error (by rw [result_bind hm, hf]), writes_bind hm, writes_bind_error hf,
        result_bind_error hf]
    | ok b =>
      rw [bind_ok (by rw [result_bind hm, hf]), writes_bind hm, writes_bind hf, result_bind hf,
        final_bind hm, List.append_assoc]

/-- A sequence succeeds when both its parts do. -/
theorem bind_eq_ok {m : Act ε α} {f : α → Act ε β} {d : Disk} {b : β}
    (h : (m >>= f).result d = .ok b) :
    ∃ a, m.result d = .ok a ∧ (f a).result (m.final d) = .ok b := by
  cases hm : m.result d with
  | error e => rw [result_bind_error hm] at h; cases h
  | ok a => exact ⟨a, rfl, by rw [← h, result_bind hm]⟩

section Pure
variable {f : Disk → α} {d : Disk}

@[simp] theorem writes_look_bind (k : α → Act ε β) :
    (look f >>= k).writes d = (k (f d)).writes d := rfl

@[simp] theorem result_look_bind (k : α → Act ε β) :
    (look f >>= k).result d = (k (f d)).result d := rfl

@[simp] theorem final_look_bind (k : α → Act ε β) :
    (look f >>= k).final d = (k (f d)).final d := rfl

@[simp] theorem writes_attempt_bind (m : Act ε α) (k : Except ε α → Act ε β) :
    (m.attempt >>= k).writes d = m.writes d ++ (k (m.result d)).writes (m.final d) := rfl

@[simp] theorem result_attempt_bind (m : Act ε α) (k : Except ε α → Act ε β) :
    (m.attempt >>= k).result d = (k (m.result d)).result (m.final d) := rfl

theorem result_attempt_of {m : Act ε α} {x : Except ε α} (h : m.result d = x)
    (k : Except ε α → Act ε β) : (m.attempt >>= k).result d = (k x).result (m.final d) := by
  rw [result_attempt_bind, h]

@[simp] theorem final_attempt_bind (m : Act ε α) (k : Except ε α → Act ε β) :
    (m.attempt >>= k).final d = (k (m.result d)).final (m.final d) :=
  final_bind (m := m.attempt) rfl

theorem final_attempt_of {m : Act ε α} {x : Except ε α} (h : m.result d = x)
    (k : Except ε α → Act ε β) : (m.attempt >>= k).final d = (k x).final (m.final d) := by
  rw [final_attempt_bind, h]

end Pure

/-! ## Confined operations -/

/-- `m` names only nodes of `G`, and does the same on disks that agree on `G`. -/
structure Confined (G : Path → Prop) (m : Act ε α) : Prop where
  within : ∀ d, ∀ w ∈ m.writes d, ∀ p ∈ w.paths, G p
  eq : ∀ {d d' : Disk}, (∀ p, G p → d p = d' p) → m d = m d'

end Act

theorem Disk.data_congr {d d' : Disk} {p : Path} (h : d p = d' p) : d.data p = d'.data p := by
  rw [Disk.data, Disk.data, h]

/-- The same write takes disks that agree on `G` to disks that agree on `G`. -/
theorem Write.apply_agree {G : Path → Prop} {w : Write} {d d' : Disk}
    (hw : ∀ p ∈ w.paths, G p) (h : ∀ p, G p → d p = d' p) {p : Path} (hp : G p) :
    w.apply d p = w.apply d' p := by
  by_cases hm : p ∈ w.paths
  · cases w with
    | rename s t =>
      have hs := h s (hw s (by simp [paths]))
      by_cases hps : p = s
      · subst hps; simp only [apply, Disk.set_self]
      · obtain rfl : p = t := by simpa [paths, hps] using hm
        simp only [apply, Disk.set_ne _ _ hps, Disk.set_self, hs]
    | _ =>
      obtain rfl : p = _ := by simpa [paths] using hm
      simp only [apply, Disk.set_self, Disk.data_congr (h _ hp)]
  · rw [Write.apply_other d hm, Write.apply_other d' hm, h p hp]

theorem applyAll_agree {G : Path → Prop} : ∀ {ws : List Write} {d d' : Disk},
    (∀ w ∈ ws, ∀ p ∈ w.paths, G p) → (∀ p, G p → d p = d' p) →
    ∀ p, G p → applyAll ws d p = applyAll ws d' p
  | [], _, _, _, h => h
  | w :: _, _, _, hw, h => by
    simp only [applyAll_cons]
    exact applyAll_agree (fun w hm => hw w (.tail _ hm))
      fun _ => Write.apply_agree (hw w (.head _)) h

namespace Act

section
variable {G : Path → Prop} {m : Act ε α}

theorem Confined.agree (h : Confined G m) {d d' : Disk} (hd : ∀ p, G p → d p = d' p) :
    ∀ p, G p → m.final d p = m.final d' p := by
  have he := h.eq hd
  rw [final, final, writes, writes, ← he]
  exact applyAll_agree (h.within d) hd

/-- **A confined operation leaves every other node alone**, wherever it is stopped. -/
theorem Confined.crash_other (h : Confined G m) {d d' : Disk} {t : Option (Write × Write)}
    (hc : Crash (m.writes d) d t d') {p : Path} (hp : ¬ G p) : d' p = d p :=
  hc.frame fun w hw hm => hp (h.within d w hw p hm)

theorem Confined.final_other (h : Confined G m) (d : Disk) {p : Path} (hp : ¬ G p) :
    m.final d p = d p :=
  h.crash_other (Crash.complete _ d) hp

theorem Confined.mono {H : Path → Prop} (h : Confined G m) (hG : ∀ p, G p → H p) :
    Confined H m :=
  ⟨fun d w hw p hp => hG p (h.within d w hw p hp), fun hd => h.eq fun p hp => hd p (hG p hp)⟩

theorem Confined.pure (a : α) : Confined G (Pure.pure a : Act ε α) :=
  ⟨fun _ _ h => absurd h List.not_mem_nil, fun _ => rfl⟩

theorem Confined.lift (x : Except ε α) : Confined G (Act.lift x) :=
  ⟨fun _ _ h => absurd h List.not_mem_nil, fun _ => rfl⟩

theorem Confined.fail (e : ε) : Confined G (Act.fail e : Act ε α) := .lift (.error e)

theorem Confined.look {f : Disk → α} (h : ∀ d d' : Disk, (∀ p, G p → d p = d' p) → f d = f d') :
    Confined G (Act.look f : Act ε α) :=
  ⟨fun _ _ h => absurd h List.not_mem_nil, fun hd => by rw [Act.look, Act.look, h _ _ hd]⟩

theorem Confined.read {f : Disk → Except ε α}
    (h : ∀ d d' : Disk, (∀ p, G p → d p = d' p) → f d = f d') : Confined G (Act.read f) :=
  ⟨fun _ _ h => absurd h List.not_mem_nil, fun hd => by rw [Act.read, Act.read, h _ _ hd]⟩

theorem Confined.emit {w : Write} (h : ∀ p ∈ w.paths, G p) :
    Confined G (Act.emit w : Act ε Unit) :=
  ⟨fun _ _ hw p hp => h p (List.mem_singleton.1 hw ▸ hp), fun _ => rfl⟩

theorem Confined.attempt (h : Confined G m) : Confined G m.attempt :=
  ⟨h.within, fun hd => by
    have he := h.eq hd
    rw [Act.attempt, Act.attempt, writes, writes, result, result, he]⟩

/-- The second part need be confined only for the values the first can give. -/
theorem Confined.bind_of {f : α → Act ε β} (h : Confined G m)
    (hf : ∀ a d, m.result d = .ok a → Confined G (f a)) : Confined G (m >>= f) := by
  refine ⟨fun d w hw p hp => ?_, fun {d d'} hd => ?_⟩
  · cases hm : m.result d with
    | error e =>
      rw [writes_bind_error hm] at hw
      exact h.within d w hw p hp
    | ok a =>
      rw [writes_bind hm, List.mem_append] at hw
      exact hw.elim (fun hw => h.within d w hw p hp) fun hw => (hf a d hm).within _ w hw p hp
  · have he := h.eq hd
    have hr : m.result d' = m.result d := by rw [result, result, he]
    have hw : m.writes d' = m.writes d := by rw [writes, writes, he]
    cases hm : m.result d with
    | error e => rw [bind_error hm, bind_error (hr.trans hm), hw]
    | ok a =>
      have ha := (hf a d hm).eq (h.agree hd)
      rw [bind_ok hm, bind_ok (hr.trans hm), hw]
      simp only [writes, result] at ha ⊢
      rw [ha]

theorem Confined.bind {f : α → Act ε β} (h : Confined G m) (hf : ∀ a, Confined G (f a)) :
    Confined G (m >>= f) := h.bind_of fun a _ _ => hf a

theorem Confined.ite {c : Prop} [Decidable c] {m' : Act ε α} (h : Confined G m)
    (h' : Confined G m') : Confined G (if c then m else m') := by
  split
  · exact h
  · exact h'

end

/-! ## Operations that keep a property of the disk -/

/-- `m` keeps `I`, whole or stopped, and gives values of `R`. -/
structure Keeps (Bad : Write → Write → Prop) (I : Disk → Prop) (m : Act ε α) (R : α → Prop) :
    Prop where
  steps : ∀ d, I d → Steps Bad d (m.writes d) I I
  value : ∀ d a, I d → m.result d = .ok a → R a

section
variable {Bad : Write → Write → Prop} {I : Disk → Prop} {m : Act ε α} {R : α → Prop}

theorem Keeps.silent (hw : ∀ d, m.writes d = []) (hv : ∀ d a, I d → m.result d = .ok a → R a) :
    Keeps Bad I m R := ⟨fun d h => by rw [hw]; exact .nil h h, hv⟩

theorem Keeps.pure {a : α} (h : R a) : Keeps Bad I (Pure.pure a : Act ε α) R :=
  .silent (fun _ => rfl) fun _ _ _ he => Except.ok.inj he ▸ h

theorem Keeps.fail (e : ε) : Keeps Bad I (Act.fail e : Act ε α) R :=
  .silent (fun _ => rfl) fun _ _ _ he => nomatch he

theorem keeps_true (m : Act ε α) : Keeps Bad (fun _ => True) m fun _ => True :=
  ⟨fun _ _ => ⟨fun _ _ => trivial, trivial⟩, fun _ _ _ _ => trivial⟩

/-- A confined operation keeps what the disk holds elsewhere. -/
theorem Confined.keeps_frame {G : Path → Prop} (h : Confined G m) (d0 : Disk) :
    Keeps Bad (fun d => ∀ p, ¬ G p → d p = d0 p) m fun _ => True :=
  ⟨fun d hd => ⟨fun hc _ p hp => (h.crash_other hc hp).trans (hd p hp),
    fun p hp => (h.final_other d hp).trans (hd p hp)⟩, fun _ _ _ _ => trivial⟩

theorem Keeps.weaken {R' : α → Prop} (h : Keeps Bad I m R) (hR : ∀ a, R a → R' a) :
    Keeps Bad I m R' := ⟨h.steps, fun d a hd ha => hR a (h.value d a hd ha)⟩

theorem Keeps.bind {f : α → Act ε β} {S : β → Prop} (h : Keeps Bad I m R)
    (hf : ∀ a, R a → Keeps Bad I (f a) S) : Keeps Bad I (m >>= f) S := by
  refine ⟨fun d hd => ?_, fun d b hd hb => ?_⟩
  · cases hm : m.result d with
    | error e =>
      rw [writes_bind_error hm]
      exact h.steps d hd
    | ok a =>
      rw [writes_bind hm]
      exact (h.steps d hd).append ((hf a (h.value d a hd hm)).steps _ (h.steps d hd).final)
  · obtain ⟨a, ha, hb⟩ := bind_eq_ok hb
    exact (hf a (h.value d a hd ha)).value _ b (h.steps d hd).final hb

theorem Keeps.attempt (h : Keeps Bad I m R) :
    Keeps Bad I m.attempt fun r => ∀ a, r = .ok a → R a :=
  ⟨h.steps, fun d _ hd he a ha => h.value d a hd (Except.ok.inj he ▸ ha)⟩

theorem Keeps.ite {c : Prop} [Decidable c] {m' : Act ε α} (h : c → Keeps Bad I m R)
    (h' : ¬ c → Keeps Bad I m' R) : Keeps Bad I (if c then m else m') R := by
  split
  · next hc => exact h hc
  · next hc => exact h' hc

end

/-- `m` only reads. -/
structure Silent (m : Act ε α) : Prop where
  nil : ∀ d, m.writes d = []

section
variable {m : Act ε α}

theorem Silent.pure (a : α) : Silent (Pure.pure a : Act ε α) := ⟨fun _ => rfl⟩

theorem Silent.fail (e : ε) : Silent (Act.fail e : Act ε α) := ⟨fun _ => rfl⟩

theorem silent_read (f : Disk → Except ε α) : Silent (Act.read f) := ⟨fun _ => rfl⟩

theorem silent_look (f : Disk → α) : Silent (Act.look f : Act ε α) := ⟨fun _ => rfl⟩

theorem silent_lift (x : Except ε α) : Silent (Act.lift x) := ⟨fun _ => rfl⟩

theorem Silent.attempt (h : Silent m) : Silent m.attempt := ⟨h.nil⟩

theorem Silent.bind {f : α → Act ε β} (h : Silent m) (hf : ∀ a, Silent (f a)) :
    Silent (m >>= f) := ⟨fun d => by
  cases hm : m.result d with
  | error e => rw [writes_bind_error hm, h.nil]
  | ok a => rw [writes_bind hm, h.nil, (hf a).nil, List.append_nil]⟩

theorem Silent.ite {c : Prop} [Decidable c] {m' : Act ε α} (h : Silent m) (h' : Silent m') :
    Silent (if c then m else m') := by
  split
  · exact h
  · exact h'

theorem Silent.keeps {Bad : Write → Write → Prop} {I : Disk → Prop} (h : Silent m) :
    Keeps Bad I m fun _ => True := .silent h.nil fun _ _ _ _ => trivial

end

/-- `m` never ends in an error. -/
structure Total (m : Act ε α) : Prop where
  ok : ∀ d, ∃ a, m.result d = .ok a

section
variable {m : Act ε α}

theorem Total.pure (a : α) : Total (Pure.pure a : Act ε α) := ⟨fun _ => ⟨a, rfl⟩⟩

theorem total_attempt (m : Act ε α) : Total m.attempt := ⟨fun d => ⟨m.result d, rfl⟩⟩

theorem Total.bind {f : α → Act ε β} (h : Total m) (hf : ∀ a, Total (f a)) : Total (m >>= f) :=
  ⟨fun d => by
    obtain ⟨a, ha⟩ := h.ok d
    obtain ⟨b, hb⟩ := (hf a).ok (m.final d)
    exact ⟨b, by rw [result_bind ha, hb]⟩⟩

theorem Total.ite {c : Prop} [Decidable c] {m' : Act ε α} (h : Total m) (h' : Total m') :
    Total (if c then m else m') := by
  split
  · exact h
  · exact h'

end

end Act

end Durable
