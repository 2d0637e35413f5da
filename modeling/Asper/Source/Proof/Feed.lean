import Asper.Lib.Slice
import Asper.Source.Proof.Pending

/-! # What the fill feeds to the queue

A fill goes forward in the log of a scope and puts a turn in the queue for every event that is
owed one.

* `admitEvent_feeds`, `fillFrom_feeds`, `serveScope_feeds`: one event, one fill, one scope.
* `Moved`: what a round over the scopes does to the cursors and the queue. `serveScopes_feeds` says
  so of the whole round, and where it ends. -/

namespace Asper

open Durable

/-! ## One event -/

/-- The fill owes the event a turn: it is one, was not curated and is not left out. -/
def owed (curated : List Bytes) (deferrals : List Deferral) (s : Bytes) (e : Event) : Bool :=
  e.kind.isTurn && !decide (e.id ∈ curated) &&
    !deferrals.any fun r => r.scope = s ∧ r.id = e.id

/-- The fill goes past the event whatever it holds: no decision about it is about another event,
its text is not blank and its origin can be read. -/
structure Admissible (D : Digest) (X : Codec) (d : Disk) (deferrals : List Deferral) (s : Bytes)
    (e : Event) : Prop where
  decided : DeferralsMatch D deferrals s e
  spoken : ¬ Deferred deferrals s e → strBlank e.text = false
  origin : ¬ Deferred deferrals s e → ∃ o, (turnOriginRead D X e.objectRef).result d = .ok o

/-- Turns join the queue one by one, each when there is room for it. -/
inductive Joins : List Turn → Queue → Queue → Prop where
  | nil (q : Queue) : Joins [] q q
  | cons {t : Turn} {ts : List Turn} {q q' : Queue} (hr : roomFor q (t.text.length + 1) = true)
    (h : Joins ts { q with turns := q.turns ++ [t] } q') : Joins (t :: ts) q q'

theorem Joins.append {ts us : List Turn} {q q' q'' : Queue} (h : Joins ts q q')
    (h' : Joins us q' q'') : Joins (ts ++ us) q q'' := by
  induction h with
  | nil => exact h'
  | cons hr _ ih => exact .cons hr (ih h')

theorem Joins.eq {ts : List Turn} {q q' : Queue} (h : Joins ts q q') :
    q' = { q with turns := q.turns ++ ts } := by
  induction h with
  | nil => simp
  | cons _ _ ih => rw [ih]; simp

/-- Nothing waits and nothing is held. -/
structure Queue.Clear (q : Queue) : Prop where
  turns : q.turns = []
  inflight : q.inflight = 0
  bytes : q.inflightBytes = 0

theorem Queue.Clear.room {q : Queue} (h : q.Clear) {n : Nat} (hn : n ≤ eventBytes) :
    roomFor q (n + 1) = true := by
  obtain ⟨eventMax, turns, inflight, inflightBytes⟩ := q
  obtain ⟨rfl, rfl, rfl⟩ := h
  have hl : 0 + 0 < turnQueueLimit ⟨eventMax, [], 0, 0⟩ := by
    unfold turnQueueLimit queueEvents
    dsimp only
    split <;> omega
  have hb : n + 1 ≤ queueBytes - 0 - 0 := by
    unfold eventBytes at hn
    unfold queueBytes
    omega
  exact decide_eq_true ⟨hl, hb⟩

/-- A queue that turns joined is clear only when there were none. -/
theorem Joins.clear {ts : List Turn} {q q' : Queue} (h : Joins ts q q') (hc : q'.Clear) :
    ts = [] ∧ q.Clear := by
  have heq := h.eq
  subst heq
  obtain ⟨h1, h2⟩ := List.append_eq_nil_iff.1 hc.turns
  exact ⟨h2, h1, hc.inflight, hc.bytes⟩

/-- `m` never finds the queue full. -/
def Unbusy {α : Type} (m : Io α) : Prop := ∀ d, m.result d ≠ .error .busy

theorem Unbusy.bind {α β : Type} {m : Io α} {f : α → Io β} (h : Unbusy m)
    (hf : ∀ a, Unbusy (f a)) : Unbusy (m >>= f) := by
  intro d hd
  cases hm : m.result d with
  | error e =>
    rw [Act.result_bind_error hm] at hd
    exact h d (hm.trans (by rw [Except.error.inj hd]))
  | ok a =>
    rw [Act.result_bind hm] at hd
    exact hf a _ hd

theorem unbusy_pure {α : Type} (a : α) : Unbusy (pure a : Io α) := fun _ h => by cases h

theorem unbusy_lift {α : Type} {x : Except Err α} (h : x ≠ .error .busy) :
    Unbusy (Act.lift x) := fun _ => h

theorem unbusy_require (c : Prop) [Decidable c] {e : Err} (h : e ≠ .busy) :
    Unbusy (require c e) := by
  intro d
  unfold require
  split
  · exact fun hn => by cases hn
  · exact fun hn => h (Except.error.inj hn)

theorem unbusy_orFail {α : Type} (m : Io α) {e : Err} (h : e ≠ .busy) : Unbusy (orFail m e) := by
  intro d
  unfold orFail
  rw [Act.result_attempt_bind]
  cases m.result d with
  | ok a => exact fun hn => by cases hn
  | error e' => exact fun hn => h (Except.error.inj hn)

theorem unbusy_osBlobOpen (p : Path) : Unbusy (osBlobOpen p) := by
  intro d
  show blob d p ≠ _
  unfold blob
  split <;> simp

theorem unbusy_objectRead (D : Digest) (ref : Bytes) : Unbusy (objectRead D ref) := by
  have hpath : Unbusy (sourceObjectPath ref .io) :=
    (unbusy_require _ (by decide)).bind fun _ =>
      (unbusy_orFail _ (by decide)).bind fun _ => unbusy_pure _
  refine (unbusy_require _ (by decide)).bind fun _ => hpath.bind fun path =>
    (unbusy_osBlobOpen path).bind fun data => (unbusy_lift ?_).bind fun _ => unbusy_pure _
  unfold objectCheck
  split
  · simp
  · split <;> simp

theorem originText_error {v : XValue} {key : Bytes} {cap : Nat} {e : Err}
    (h : originText v key cap = .error e) : e = .parse := by
  unfold originText at h
  split at h
  · cases h
  · split at h
    · split at h
      · cases h
      · exact (Except.error.inj h).symm
    · exact (Except.error.inj h).symm

theorem originOf_error {x : Option (List XNode)} {e : Err} (h : originOf x = .error e) :
    e = .parse := by
  unfold originOf at h
  split at h
  · split at h
    · split at h
      · unfold originFields at h
        simp only [bind, Except.bind] at h
        split at h
        · next he => exact originText_error (he.trans (congrArg Except.error (Except.error.inj h)))
        · split at h
          · next he => exact originText_error (he.trans (congrArg Except.error (Except.error.inj h)))
          · split at h
            · next he => exact originText_error (he.trans (congrArg Except.error (Except.error.inj h)))
            · cases h
      · exact (Except.error.inj h).symm
    · cases h
  · cases h

theorem unbusy_turnOriginRead (D : Digest) (X : Codec) (ref : Bytes) :
    Unbusy (turnOriginRead D X ref) := by
  unfold turnOriginRead
  split
  · exact unbusy_pure _
  · refine (unbusy_objectRead D ref).bind fun data => unbusy_lift fun h => ?_
    cases originOf_error h

section
variable {D : Digest} {X : Codec} {Good : Bytes → Prop} {d d' : Disk} {s : Bytes} {st : SourceState}
  {q : Queue} {deferrals : List Deferral} {p : Pending} {v : View} {e : Event} {x : PendingScope}

theorem owed_iff {curated : List Bytes} : owed curated deferrals s e = true ↔
    e.kind.isTurn = true ∧ e.id ∉ curated ∧ ¬ Deferred deferrals s e := by
  unfold owed Deferred
  simp only [Bool.and_eq_true, Bool.not_eq_true', decide_eq_false_iff_not, List.any_eq_false,
    decide_eq_true_eq, not_exists, not_and, and_assoc]

/-- Where the queue leads the turn of the event `e`. -/
inductive Enqueues (D : Digest) (X : Codec) (d : Disk) (s : Bytes) (q : Queue) (e : Event) :
    Except Err Turn → Prop where
  | ok {t : Turn} (ht : TurnOf s e t) (hr : roomFor q (e.text.length + 1) = true) :
    Enqueues D X d s q e (.ok t)
  | full (hr : roomFor q (e.text.length + 1) = false) : Enqueues D X d s q e (.error .busy)
  | stuck {err : Err} (hb : err ≠ .busy) (h : strBlank e.text = true ∨
    ¬ ∃ o, (turnOriginRead D X e.objectRef).result d = .ok o) : Enqueues D X d s q e (.error err)

theorem enqueueTurn_enqueues (role : Role) (he : e.Ok) :
    Enqueues D X d s q e ((enqueueTurn D X q role s e).result d) := by
  cases hb : strBlank e.text with
  | true =>
    rw [Act.result, enqueueTurn_blank role hb]
    exact .stuck (by decide) (.inl hb)
  | false =>
    cases hr : roomFor q (e.text.length + 1) with
    | false =>
      rw [Act.result, enqueueTurn_full role hb he hr]
      exact .full hr
    | true =>
      rw [Act.result, enqueueTurn_room role hb he hr]
      cases ho : (turnOriginRead D X e.objectRef).result d with
      | error err =>
        have hres := Act.result_bind_error (f := fun o : Origin => (pure ⟨role, e.text, e.at_, e.id,
          s, ascii "scope:" ++ s, o.workspace, o.commit, o.project⟩ : Io Turn)) ho
        rw [Act.result] at hres
        rw [hres]
        refine .stuck (fun hn => ?_) (.inr ?_)
        · exact unbusy_turnOriginRead D X e.objectRef d (ho.trans (by rw [hn]))
        · rintro ⟨o, hok⟩
          cases ho.symm.trans hok
      | ok o =>
        have hres := Act.result_bind (f := fun o : Origin => (pure ⟨role, e.text, e.at_, e.id,
          s, ascii "scope:" ++ s, o.workspace, o.commit, o.project⟩ : Io Turn)) ho
        rw [Act.result] at hres
        rw [hres]
        exact .ok ⟨rfl, rfl, rfl⟩ hr

/-- Where the event `e` leads the fill. -/
inductive Feeds (D : Digest) (X : Codec) (d : Disk) (curated : List Bytes)
    (deferrals : List Deferral) (s : Bytes) (q : Queue) (e : Event) : Except Err Admit → Prop where
  | skip (h : owed curated deferrals s e = false) : Feeds D X d curated deferrals s q e (.ok .skip)
  | turn {t : Turn} (h : owed curated deferrals s e = true) (ht : TurnOf s e t)
    (hr : roomFor q (t.text.length + 1) = true) :
    Feeds D X d curated deferrals s q e (.ok (.turn t))
  | full (hr : roomFor q (e.text.length + 1) = false) :
    Feeds D X d curated deferrals s q e (.ok .full)
  | stuck {err : Err} (ht : e.kind.isTurn = true) (hc : e.id ∉ curated)
    (h : ¬ Admissible D X d deferrals s e) : Feeds D X d curated deferrals s q e (.error err)

theorem admitTurn_feeds {curated : List Bytes} (role : Role) (he : e.Ok)
    (ht : e.kind.isTurn = true) (hc : e.id ∉ curated) :
    Feeds D X d curated deferrals s q e ((admitTurn D X deferrals q role s e).result d) := by
  by_cases hd : Deferred deferrals s e
  · by_cases hm : DeferralsMatch D deferrals s e
    · rw [Act.result, admitTurn_deferred role hd hm]
      refine .skip (Bool.eq_false_iff.2 fun ho => (owed_iff.1 ho).2.2 hd)
    · unfold admitTurn
      split
      · split
        · exact .skip (Bool.eq_false_iff.2 fun ho => (owed_iff.1 ho).2.2 hd)
        · exact .stuck ht hc fun ha => hm ha.decided
      · next hf =>
        obtain ⟨r, hr, hrs, hri⟩ := hd
        have hno := List.find?_eq_none.1 hf r hr
        simp [hrs, hri] at hno
  · have howed : owed curated deferrals s e = true := owed_iff.2 ⟨ht, hc, hd⟩
    have henq := enqueueTurn_enqueues (D := D) (X := X) (d := d) (s := s) (q := q) role he
    rw [admitTurn_not_deferred role hd, Act.result_attempt_bind]
    generalize (enqueueTurn D X q role s e).result d = r at henq
    cases henq with
    | ok htof hr => exact .turn howed htof (by rw [htof.text]; exact hr)
    | full hr => exact .full hr
    | @stuck err hb h =>
      have hna : ¬ Admissible D X d deferrals s e := fun ha => h.elim
        (fun hbl => by rw [ha.spoken hd] at hbl; cases hbl) fun ho => ho (ha.origin hd)
      cases err with
      | busy => exact absurd rfl hb
      | _ => exact .stuck ht hc hna

theorem owed_pinsApply {curated : List Bytes} (ps : List Pin) (e : Event) :
    owed curated deferrals s (pinsApply ps e) = owed curated deferrals s e := by
  simp only [owed, pinsApply_kind, pinsApply_id]

theorem turnOf_pinsApply {ps : List Pin} {t : Turn} :
    TurnOf s (pinsApply ps e) t ↔ TurnOf s e t :=
  ⟨fun h => ⟨by simpa using h.text, by simpa using h.source, h.scope⟩,
    fun h => ⟨by simpa using h.text, by simpa using h.source, h.scope⟩⟩

theorem deferred_pinsApply {ps : List Pin} :
    Deferred deferrals s (pinsApply ps e) ↔ Deferred deferrals s e := by
  simp only [Deferred, pinsApply_id]

theorem Admissible.pins (ps : List Pin) (h : Admissible D X d deferrals s e) :
    Admissible D X d deferrals s (pinsApply ps e) where
  decided r hr hrs hri := by
    rw [deferredMatches_pinsApply]
    exact h.decided r hr hrs (by rw [hri, pinsApply_id])
  spoken hd := by
    rw [pinsApply_text]
    exact h.spoken fun hn => hd (deferred_pinsApply.2 hn)
  origin hd := by
    rw [pinsApply_objectRef]
    exact h.origin fun hn => hd (deferred_pinsApply.2 hn)

theorem Feeds.pins {curated : List Bytes} {ps : List Pin} {r : Except Err Admit}
    (h : Feeds D X d curated deferrals s q (pinsApply ps e) r) :
    Feeds D X d curated deferrals s q e r := by
  cases h with
  | skip h => exact .skip (owed_pinsApply ps e ▸ h)
  | turn h ht hr => exact .turn (owed_pinsApply ps e ▸ h) (turnOf_pinsApply.1 ht) hr
  | full hr => exact .full (pinsApply_text ps e ▸ hr)
  | stuck ht hc h =>
    exact .stuck (pinsApply_kind ps e ▸ ht) (pinsApply_id ps e ▸ hc) fun ha => h (ha.pins ps)

/-- **One event of the fill.** -/
theorem admitEvent_feeds (X : Codec) (p : Pending) (deferrals : List Deferral) (q : Queue)
    {es : List Event} {ps : List Pin} (hv : ViewOf D s es ps v) (h : Opened D d s es) {i : Nat} (hi : i < es.length) :
    ∃ r, Feeds D X d p.curated deferrals s q es[i] r ∧
      (admitEvent D X p deferrals q s v (i + 1)).result d = r.map (·, v) := by
  rw [admitEvent_result hv h hi]
  cases ht : es[i].kind.isTurn with
  | false =>
    rw [roleOf_none ht]
    exact ⟨.ok .skip, .skip (by simp [owed, ht]), rfl⟩
  | true =>
    obtain ⟨role, hrole⟩ := roleOf_turn ht
    rw [hrole]
    by_cases hc : es[i].id ∈ p.curated
    · refine ⟨.ok .skip, .skip (by simp [owed, hc]), ?_⟩
      dsimp only
      rw [if_pos hc]
      rfl
    · refine ⟨_, (admitTurn_feeds role (pinsApply_ok ps (h.log.ok.get hi).1)
        (by rw [pinsApply_kind]; exact ht) (by rw [pinsApply_id]; exact hc)).pins, ?_⟩
      dsimp only
      rw [if_neg hc]

/-! ## One fill -/

theorem turnOriginRead_keeps (h : ObjectsAt D Good d) (h' : ObjectsAt D Good d') (hk : Keeps d d')
    {ref : Bytes} {o : Origin} (ho : (turnOriginRead D X ref).result d = .ok o) :
    (turnOriginRead D X ref).result d' = .ok o := by
  unfold turnOriginRead at ho ⊢
  split at ho
  · next hn =>
    rw [if_pos hn]
    exact ho
  · next hn =>
    rw [if_neg hn]
    obtain ⟨c, hc, hlift⟩ := Act.bind_eq_ok ho
    obtain ⟨hv, hf⟩ := objectRead_ok h hc
    have hf' : d' (objectFile ref) = some (.file c) := by
      rw [hk ref (by rw [hf]; exact Option.some_ne_none _), hf]
    have hc' : (objectRead D ref).result d' = .ok c := by rw [Act.result, objectRead_file h' hv hf']
    exact (Act.result_bind hc').trans hlift

theorem Admissible.keeps (h : Admissible D X d deferrals s e) (ho : ObjectsAt D Good d)
    (ho' : ObjectsAt D Good d') (hk : Keeps d d') : Admissible D X d' deferrals s e where
  decided := h.decided
  spoken := h.spoken
  origin hd := (h.origin hd).imp fun _ hr => turnOriginRead_keeps ho ho' hk hr

/-- No fill goes past the event. -/
structure Stuck (D : Digest) (X : Codec) (d : Disk) (curated : List Bytes)
    (deferrals : List Deferral) (s : Bytes) (e : Event) : Prop where
  turn : e.kind.isTurn = true
  curated : e.id ∉ curated
  admissible : ¬ Admissible D X d deferrals s e

/-- What a fill of the scope `x` from `cursor` and `q` ends with. -/
structure Filled (D : Digest) (X : Codec) (d : Disk) (st : SourceState) (curated : List Bytes)
    (deferrals : List Deferral) (x : PendingScope) (cursor : Nat) (q : Queue)
    (r : Nat × Queue × Except Err Unit) : Prop where
  ge : cursor ≤ r.1
  le : r.1 ≤ x.stop
  fed : ∃ ts, Joins ts q r.2.1 ∧ List.Forall₂ (TurnOf x.scope)
    ((slice (st.events x.scope) cursor r.1).filter (owed curated deferrals x.scope)) ts
  drained : r.2.2 = .ok () → r.2.1.Clear → r.1 = x.stop
  stuck : ∀ err, r.2.2 = .error err → r.1 < x.stop ∧ ∃ h : r.1 < (st.events x.scope).length,
    Stuck D X d curated deferrals x.scope (st.events x.scope)[r.1]

theorem Filled.stay {curated : List Bytes} {cursor : Nat} (hc : cursor ≤ x.stop)
    {r : Except Err Unit} (hd : r = .ok () → q.Clear → cursor = x.stop)
    (hs : ∀ err, r = .error err → cursor < x.stop ∧ ∃ h : cursor < (st.events x.scope).length,
      Stuck D X d curated deferrals x.scope (st.events x.scope)[cursor]) :
    Filled D X d st curated deferrals x cursor q (cursor, q, r) where
  ge := Nat.le_refl _
  le := hc
  fed := ⟨[], .nil q, by simp⟩
  drained := hd
  stuck := hs

/-- One step more at the front of a fill. -/
theorem Filled.step {curated : List Bytes} {cursor : Nat} {us : List Turn} {q' : Queue}
    {r : Nat × Queue × Except Err Unit} (hl : cursor < (st.events x.scope).length)
    (hj : Joins us q q') (hu : List.Forall₂ (TurnOf x.scope)
      ([(st.events x.scope)[cursor]].filter (owed curated deferrals x.scope)) us)
    (h : Filled D X d st curated deferrals x (cursor + 1) q' r) :
    Filled D X d st curated deferrals x cursor q r where
  ge := Nat.le_of_succ_le h.ge
  le := h.le
  fed := by
    obtain ⟨ts, hts, hf⟩ := h.fed
    refine ⟨us ++ ts, hj.append hts, ?_⟩
    rw [← slice_join _ (Nat.le_succ cursor) h.ge, slice_step hl, List.filter_append]
    exact List.rel_append hu hf
  drained := h.drained
  stuck := h.stuck

theorem fillFrom_feeds (ho : ObjectsAt D Good d) (hv : ViewOf D x.scope (st.events x.scope)
      (st.pins x.scope) v) (hstop : x.stop ≤ (st.events x.scope).length) :
    ∀ {fuel cursor : Nat} {q : Queue}, cursor ≤ x.stop → x.stop - cursor ≤ fuel →
      Act.Keeps RowCut (Stays D Good d st x.scope) (fillFrom D X p deferrals x fuel v cursor q)
        (Filled D X d st p.curated deferrals x cursor q) := by
  intro fuel
  induction fuel with
  | zero =>
    intro cursor q hc hf
    exact .pure (.stay hc (fun _ _ => by omega) fun _ hn => nomatch hn)
  | succ fuel ih =>
    intro cursor q hc hf
    refine .ite (fun hlt => ?_) fun hn => ?_
    · have hl : cursor < (st.events x.scope).length := Nat.lt_of_lt_of_le hlt.1 hstop
      have hatt : Act.Keeps RowCut (Stays D Good d st x.scope)
          (admitEvent D X p deferrals q x.scope v (cursor + 1)).attempt fun r =>
            (st.events x.scope)[cursor].Ok ∧ ∃ r' d1, Holds D Good d st d1 ∧
              Feeds D X d1 p.curated deferrals x.scope q (st.events x.scope)[cursor] r' ∧
              r = r'.map (·, v) := by
        refine ⟨(admitEvent_keeps D X Good d p deferrals q hv hl).attempt.steps,
          fun d1 r h1 hr => ⟨(h1.2.log.ok.get hl).1, ?_⟩⟩
        obtain ⟨r', hfeed, hres⟩ := admitEvent_feeds X p deferrals q hv h1.2 hl
        exact ⟨r', d1, h1.1, hfeed, (Except.ok.inj hr).symm.trans hres⟩
      refine hatt.bind fun r hr => ?_
      obtain ⟨hok, r', d1, h1, hfeed, rfl⟩ := hr
      cases hfeed with
      | skip h =>
        refine (ih (Nat.succ_le_of_lt hlt.1) (by omega)).weaken fun _ hr => hr.step hl (.nil q) ?_
        rw [List.filter_cons_of_neg (by simp [h])]
        exact .nil
      | turn h ht hr =>
        refine (ih (Nat.succ_le_of_lt hlt.1) (by omega)).weaken fun _ hr' =>
          hr'.step hl (.cons hr (.nil _)) ?_
        rw [List.filter_cons_of_pos h]
        exact .cons ht .nil
      | full hr =>
        refine .pure (.stay hc (fun _ hcl => ?_) fun _ hn => nomatch hn)
        rw [hcl.room hok.size] at hr
        cases hr
      | stuck ht hcur hna =>
        refine .pure (.stay hc (fun hn => nomatch hn) fun _ _ => ⟨hlt.1, hl, ht, hcur, fun ha => ?_⟩)
        exact hna (ha.keeps ho h1.1.objects h1.2)
    · refine .pure (.stay hc (fun _ hcl => ?_) fun _ hn => nomatch hn)
      have hroom : turnQueueRoom q = true := hcl.room (Nat.zero_le _)
      by_contra hne
      exact hn ⟨Nat.lt_of_le_of_ne hc hne, hroom⟩

theorem fillScope_feeds (ho : ObjectsAt D Good d)
    (hn : sourceScopeValid x.scope = true ∧ x.scope ≠ indexName) (hx : ScopeOk st x) :
    Act.Keeps RowCut (Holds D Good d st) (fillScope D X p deferrals x q)
      (Filled D X d st p.curated deferrals x x.cursor q) := by
  refine viewOpen_keeps hn.1 hn.2 fun v hview => ?_
  refine .ite (fun hc => ?_) fun hc => ?_
  · have hstop := hx.stop
    rw [hview.count] at hc
    omega
  · exact fillFrom_feeds ho hview hx.stop hx.cursor (Nat.le_refl _)

/-! ## One scope -/

/-- What serving the scope `x` does. -/
structure Served (D : Digest) (X : Codec) (d : Disk) (st : SourceState) (p : Pending)
    (deferrals : List Deferral) (x : PendingScope) (q : Queue)
    (r : PendingScope × Queue × Except Err Unit) : Prop where
  scope : r.1.scope = x.scope
  ok : ScopeOk st r.1
  ge : x.cursor ≤ r.1.cursor
  fed : ∃ ts, Joins ts q r.2.1 ∧ List.Forall₂ (TurnOf x.scope)
    ((slice (st.events x.scope) x.cursor r.1.cursor).filter
      (owed p.curated deferrals x.scope)) ts
  stop : p.frozen = true → r.1.stop = x.stop
  drained : r.2.2 = .ok () → r.2.1.Clear → r.1.cursor = r.1.stop
  stuck : ∀ err, r.2.2 = .error err → r.1.cursor < r.1.stop ∧
    ∃ h : r.1.cursor < (st.events x.scope).length,
      Stuck D X d p.curated deferrals x.scope (st.events x.scope)[r.1.cursor]

theorem serveScope_feeds (ho : ObjectsAt D Good d)
    (hn : sourceScopeValid x.scope = true ∧ x.scope ≠ indexName) (hx : ScopeOk st x) :
    Act.Keeps RowCut (Holds D Good d st) (serveScope D X p deferrals x q)
      (Served D X d st p deferrals x q) := by
  have hcap : Act.Keeps RowCut (Holds D Good d st)
      (if x.refresh ∧ p.frozen = false then captureScope D x else pure x).attempt fun r =>
        ∃ y, r = .ok y ∧ y.scope = x.scope ∧ y.cursor = x.cursor ∧ ScopeOk st y ∧
          (p.frozen = true → y.stop = x.stop) := by
    by_cases hc : x.refresh ∧ p.frozen = false
    · rw [if_pos hc]
      refine (captureScope_keeps hn hx).weaken fun r hr => ?_
      obtain ⟨y, rfl, hys, hyc, hy⟩ := hr
      exact ⟨y, rfl, hys, hyc, hy, fun hf => absurd hf (by rw [hc.2]; exact Bool.noConfusion)⟩
    · rw [if_neg hc]
      exact ⟨fun d1 h1 => .nil h1 h1, fun d1 r _ hr =>
        ⟨x, (Except.ok.inj hr).symm, rfl, rfl, hx, fun _ => rfl⟩⟩
  refine hcap.bind fun r hr => ?_
  obtain ⟨y, rfl, hys, hyc, hy, hstop⟩ := hr
  refine .ite (fun _ => ?_) fun hn => ?_
  · refine (fillScope_feeds ho (hys ▸ hn) hy).bind fun cqr hr => .pure ?_
    obtain ⟨cursor, q', r⟩ := cqr
    exact
      { scope := hys
        ok := ⟨hy.listed, hr.le, hy.stop⟩
        ge := hyc ▸ hr.ge
        fed := hyc ▸ hys ▸ hr.fed
        stop := hstop
        drained := hr.drained
        stuck := hys ▸ hr.stuck }
  · refine .pure
      { scope := hys
        ok := hy
        ge := Nat.le_of_eq hyc.symm
        fed := ⟨[], .nil q, by rw [hyc, slice_self]; exact .nil⟩
        stop := hstop
        drained := fun _ _ => Nat.le_antisymm hy.cursor (Nat.le_of_not_lt hn)
        stuck := fun _ hn => nomatch hn }

end

end Asper
