import Asper.Source.Pending
import Asper.Source.Proof.Pins
import Asper.Source.Proof.View

/-! # Admitting one event

The append takes any text, the queue refuses a blank one. `admitTurn_goes` and `admitEvent_goes`
say where an event leads the fill: past it, to a full queue, or to an error when its text is
blank. -/

namespace Asper

open Durable

/-- The parser reads the origin objects the store writes as written. -/
def OriginParses (X : Codec) : Prop := ∀ p : ActiveProject, X.parse (turnText X p.val) =
  some [.mk [ascii "turn"] (.object [(ascii "project", (XValue.string p.val).node)])]

/-- The origin object of some project. -/
def IsOrigin (X : Codec) (c : Bytes) : Prop := ∃ p : ActiveProject, c = turnText X p.val

/-- The queue reads every object of the store. -/
def ReadsObjects (X : Codec) (Good : Bytes → Prop) : Prop :=
  ∀ c, Good c → ∃ o, originOf (X.parse c) = .ok o

/-- The event has its object. -/
def HasObject (d : Disk) (e : Event) : Prop :=
  sourceObjectValid e.objectRef = true ∧ d (objectFile e.objectRef) ≠ none

section
variable {D : Digest} {X : Codec} {Good : Bytes → Prop} {d d' : Disk} {s : Bytes} {st : SourceState} {q : Queue}
  {deferrals : List Deferral} {p : Pending} {v : View} {e : Event}

theorem length_slug {b : Bytes} (h : slugValid b = true) : b.length ≤ 64 := by
  cases b with
  | nil => exact Nat.zero_le _
  | cons a b =>
    simp only [slugValid, Bool.decide_and, Bool.and_eq_true, decide_eq_true_eq] at h
    rw [List.length_cons]
    omega

theorem ActiveProject.length_le (p : ActiveProject) : p.val.length ≤ 64 := by
  rcases p.2 with h | h
  · rw [h]
    exact Nat.zero_le _
  · exact length_slug h

/-- An origin object gives the queue its fields. -/
theorem readsObjects_origin (hX : OriginParses X) : ReadsObjects X (IsOrigin X) := by
  rintro _ ⟨p, rfl⟩
  have hl : (cstr p.val).val.length < 65 :=
    Nat.lt_of_le_of_lt (List.takeWhile_prefix _).length_le (Nat.lt_succ_of_le p.length_le)
  let v : XValue := .object [(ascii "project", (XValue.string p.val).node)]
  have h1 : originText v (ascii "workspace") 1024 = .ok [] := rfl
  have h2 : originText v (ascii "commit") 65 = .ok [] := rfl
  have h3 : originText v (ascii "project") 65 = .ok (cstr p.val).val := if_pos hl
  refine ⟨⟨[], [], (cstr p.val).val⟩, ?_⟩
  rw [hX p]
  show originFields v = _
  rw [originFields, h1, h2, h3]
  rfl

theorem turnOriginRead_ok (hX : ReadsObjects X Good) (h : ObjectsAt D Good d)
    (he : HasObject d e) : ∃ o, (turnOriginRead D X e.objectRef).result d = .ok o := by
  obtain ⟨c, hc, hread⟩ := objectRead_run h he.1 he.2
  obtain ⟨o, ho⟩ := hX c hc
  have hne : e.objectRef ≠ [] := fun hn => by
    have := he.1
    rw [hn] at this
    exact absurd this (by decide)
  refine ⟨o, ?_⟩
  rw [turnOriginRead, if_neg hne, Act.result, Act.bind_run hread]
  exact ho

@[simp] theorem pinsApply_text (ps : List Pin) (e : Event) : (pinsApply ps e).text = e.text := by
  rw [pinsApply_eq, overlaid]

@[simp] theorem pinsApply_id (ps : List Pin) (e : Event) : (pinsApply ps e).id = e.id := by
  rw [pinsApply_eq, overlaid]

@[simp] theorem pinsApply_kind (ps : List Pin) (e : Event) : (pinsApply ps e).kind = e.kind := by
  rw [pinsApply_eq, overlaid]

@[simp] theorem pinsApply_objectRef (ps : List Pin) (e : Event) :
    (pinsApply ps e).objectRef = e.objectRef := by
  rw [pinsApply_eq, overlaid]

@[simp] theorem pinsApply_sequence (ps : List Pin) (e : Event) :
    (pinsApply ps e).sequence = e.sequence := by
  rw [pinsApply_eq, overlaid]

theorem deferredMatches_pinsApply (r : Deferral) (ps : List Pin) (e : Event) :
    deferredMatches D r (pinsApply ps e) = deferredMatches D r e := by
  simp only [deferredMatches, pinsApply_sequence, pinsApply_kind, pinsApply_objectRef,
    pinsApply_text]

/-- The operator left the event out. -/
def Deferred (deferrals : List Deferral) (s : Bytes) (e : Event) : Prop :=
  ∃ r ∈ deferrals, r.scope = s ∧ r.id = e.id

/-- The decisions about the event are about this event. -/
def DeferralsMatch (D : Digest) (deferrals : List Deferral) (s : Bytes) (e : Event) : Prop :=
  ∀ r ∈ deferrals, r.scope = s → r.id = e.id → deferredMatches D r e = true

/-- The turn is the turn of the event `e` of `s`. -/
structure TurnOf (s : Bytes) (e : Event) (t : Turn) : Prop where
  text : t.text = e.text
  source : t.sourceId = e.id
  scope : t.scope = s

/-- A blank text is refused, whatever else holds. -/
theorem enqueueTurn_blank (role : Role) (hb : strBlank e.text = true) :
    enqueueTurn D X q role s e d = ⟨[], .error .invalid⟩ :=
  require_bind_fail (by simp [hb])

theorem enqueueTurn_full (role : Role) (hb : strBlank e.text = false) (he : e.Ok)
    (hr : roomFor q (e.text.length + 1) = false) :
    enqueueTurn D X q role s e d = ⟨[], .error .busy⟩ := by
  have hl : e.text.length + 1 ≤ queueBytes := by
    have := he.size
    unfold eventBytes at this
    unfold queueBytes
    omega
  exact (require_bind hb).trans ((require_bind he.utf8).trans ((require_bind he.id_valid).trans
    ((require_bind hl).trans (require_bind_fail (by simp [hr])))))

/-- Once there is room, the origin of the turn decides. -/
theorem enqueueTurn_room (role : Role) (hb : strBlank e.text = false) (he : e.Ok)
    (hr : roomFor q (e.text.length + 1) = true) :
    enqueueTurn D X q role s e d = (do
      let o ← turnOriginRead D X e.objectRef
      pure ⟨role, e.text, e.at_, e.id, s, ascii "scope:" ++ s, o.workspace, o.commit, o.project⟩ :
      Io Turn) d := by
  have hl : e.text.length + 1 ≤ queueBytes := by
    have := he.size
    unfold eventBytes at this
    unfold queueBytes
    omega
  exact (require_bind hb).trans ((require_bind he.utf8).trans ((require_bind he.id_valid).trans
    ((require_bind hl).trans (require_bind hr))))

theorem enqueueTurn_ok (hX : ReadsObjects X Good) (role : Role) (ho : ObjectsAt D Good d)
    (hb : strBlank e.text = false) (he : e.Ok) (hobj : HasObject d e)
    (hr : roomFor q (e.text.length + 1) = true) :
    ∃ t, TurnOf s e t ∧ (enqueueTurn D X q role s e).result d = .ok t := by
  obtain ⟨o, hro⟩ := turnOriginRead_ok hX ho hobj
  refine ⟨⟨role, e.text, e.at_, e.id, s, ascii "scope:" ++ s, o.workspace, o.commit, o.project⟩,
    ⟨rfl, rfl, rfl⟩, ?_⟩
  rw [Act.result, enqueueTurn_room role hb he hr, Act.bind_ok hro]
  rfl

theorem pinsApply_ok (ps : List Pin) (h : e.Ok) : (pinsApply ps e).Ok := by
  rw [pinsApply_eq]
  exact ⟨⟨h.at_ge, h.at_lt, h.id_valid, h.object, h.no_nul, h.utf8, h.size⟩, h.seq_pos, h.seq_lt⟩

/-! ## One turn -/

theorem admitTurn_deferred (role : Role) (hd : Deferred deferrals s e)
    (hm : DeferralsMatch D deferrals s e) :
    admitTurn D X deferrals q role s e d = ⟨[], .ok .skip⟩ := by
  obtain ⟨r, hr, hrs, hri⟩ := hd
  cases hf : deferrals.find? fun r => r.scope = s ∧ r.id = e.id with
  | none =>
    have := List.find?_eq_none.1 hf r hr
    simp [hrs, hri] at this
  | some r' =>
    have hr' := List.find?_some hf
    simp only [decide_eq_true_eq] at hr'
    have := hm r' (List.mem_of_find?_eq_some hf) hr'.1 hr'.2
    simp only [admitTurn, hf]
    rw [if_pos this]
    rfl

theorem admitTurn_not_deferred (role : Role) (hd : ¬ Deferred deferrals s e) :
    admitTurn D X deferrals q role s e = (do
      match ← (enqueueTurn D X q role s e).attempt with
      | .ok t => pure (.turn t)
      | .error .busy => pure .full
      | .error e => Act.fail e) := by
  have hf : (deferrals.find? fun r => r.scope = s ∧ r.id = e.id) = none := by
    rw [List.find?_eq_none]
    intro r hr
    simp only [decide_eq_true_eq]
    exact fun h => hd ⟨r, hr, h.1, h.2⟩
  rw [admitTurn]
  split
  · next r hr => cases hr.symm.trans hf
  · rfl

/-- Where the turn `e` of `s` leads the fill. -/
inductive TurnGoes (s : Bytes) (q : Queue) (e : Event) : Except Err Admit → Prop where
  | blank (h : strBlank e.text = true) : TurnGoes s q e (.error .invalid)
  | full (h : strBlank e.text = false) (hr : roomFor q (e.text.length + 1) = false) :
    TurnGoes s q e (.ok .full)
  | turn (h : strBlank e.text = false) (hr : roomFor q (e.text.length + 1) = true) {t : Turn}
    (ht : TurnOf s e t) : TurnGoes s q e (.ok (.turn t))

theorem admitTurn_goes (hX : ReadsObjects X Good) (role : Role) (ho : ObjectsAt D Good d)
    (he : e.Ok) (hobj : HasObject d e) (hd : ¬ Deferred deferrals s e) :
    TurnGoes s q e ((admitTurn D X deferrals q role s e).result d) := by
  rw [admitTurn_not_deferred role hd]
  cases hb : strBlank e.text with
  | true =>
    have := Act.bind_run (f := fun r => match r with
      | .ok t => (pure (.turn t) : Io Admit)
      | .error .busy => pure .full
      | .error e => Act.fail e) (Act.attempt_run (enqueueTurn_blank (D := D) (X := X) (q := q)
        (s := s) (d := d) role hb))
    rw [Act.result, this]
    exact .blank hb
  | false =>
    cases hr : roomFor q (e.text.length + 1) with
    | false =>
      have := Act.bind_run (f := fun r => match r with
        | .ok t => (pure (.turn t) : Io Admit)
        | .error .busy => pure .full
        | .error e => Act.fail e) (Act.attempt_run (enqueueTurn_full (D := D) (X := X)
          (s := s) (d := d) role hb he hr))
      rw [Act.result, this]
      exact .full hb hr
    | true =>
      obtain ⟨t, htof, ht⟩ := enqueueTurn_ok (s := s) hX role ho hb he hobj hr
      have hatt : ((enqueueTurn D X q role s e).attempt).result d = .ok (.ok t) := by
        rw [Act.result_attempt, ht]
      rw [Act.result_bind hatt]
      exact .turn hb hr htof

/-! ## One event -/

theorem admitEvent_result {es : List Event} {ps : List Pin} (hv : ViewOf D s es ps v)
    (h : Opened D d s es) {i : Nat} (hi : i < es.length) :
    (admitEvent D X p deferrals q s v (i + 1)).result d =
      match roleOf es[i].kind with
      | none => .ok (.skip, v)
      | some role =>
        if es[i].id ∈ p.curated then .ok (.skip, v)
        else ((admitTurn D X deferrals q role s (pinsApply ps es[i])).result d).map (·, v) := by
  have hkind : (pinsApply ps es[i].bare).kind = es[i].kind := pinsApply_kind ..
  have hid : (pinsApply ps es[i].bare).id = es[i].id := pinsApply_id ..
  rw [admitEvent, Act.result, Act.bind_run (viewHead_run hv h hi)]
  simp only [hkind, hid, applyAll_nil]
  cases roleOf es[i].kind with
  | none => rfl
  | some role =>
    dsimp only
    split
    · rfl
    · have hbind := Act.bind_run (f := fun ev => do
        let a ← admitTurn D X deferrals q role s ev.1
        (pure (a, ev.2) : Io (Admit × View))) (viewRead_run hv h hi)
      refine (congrArg Outcome.result hbind).trans ?_
      dsimp only [applyAll_nil]
      cases ha : (admitTurn D X deferrals q role s (pinsApply ps es[i])).result d with
      | error e => exact Act.result_bind_error ha
      | ok a => exact (Act.result_bind ha).trans rfl

theorem roleOf_turn {k : EventKind} (h : k.isTurn = true) : ∃ role, roleOf k = some role := by
  cases k with
  | user => exact ⟨.user, rfl⟩
  | assistant => exact ⟨.assistant, rfl⟩
  | _ => cases h

theorem roleOf_none {k : EventKind} (h : k.isTurn = false) : roleOf k = none := by
  cases k with
  | user => cases h
  | assistant => cases h
  | _ => rfl

/-- The fill leaves the turn out. -/
def Skipped (p : Pending) (deferrals : List Deferral) (s : Bytes) (e : Event) : Prop :=
  e.id ∈ p.curated ∨ Deferred deferrals s e

/-- Where an event leads the fill. -/
inductive EventGoes (p : Pending) (deferrals : List Deferral) (s : Bytes) (q : Queue) (e : Event)
    (v : View) : Except Err (Admit × View) → Prop where
  | skip (h : e.kind.isTurn = false ∨ Skipped p deferrals s e) :
    EventGoes p deferrals s q e v (.ok (.skip, v))
  | turn (ht : e.kind.isTurn = true) (hs : ¬ Skipped p deferrals s e) {r : Except Err Admit}
    (h : TurnGoes s q e r) : EventGoes p deferrals s q e v (r.map (·, v))

theorem admitEvent_goes {es : List Event} {ps : List Pin} (hX : ReadsObjects X Good)
    (ho : ObjectsAt D Good d) (hv : ViewOf D s es ps v) (h : Opened D d s es) {i : Nat}
    (hi : i < es.length) (hobj : es[i].kind.isTurn = true → HasObject d es[i])
    (hm : DeferralsMatch D deferrals s es[i]) :
    EventGoes p deferrals s q es[i] v ((admitEvent D X p deferrals q s v (i + 1)).result d) := by
  rw [admitEvent_result hv h hi]
  cases ht : es[i].kind.isTurn with
  | false =>
    rw [roleOf_none ht]
    exact .skip (.inl ht)
  | true =>
    obtain ⟨role, hrole⟩ := roleOf_turn ht
    rw [hrole]
    dsimp only
    split
    · next hc => exact .skip (.inr (.inl hc))
    · next hc =>
      by_cases hd : Deferred deferrals s es[i]
      · have hd' : Deferred deferrals s (pinsApply ps es[i]) := by
          simpa only [Deferred, pinsApply_id] using hd
        have hm' : DeferralsMatch D deferrals s (pinsApply ps es[i]) := fun r hr hrs hri => by
          rw [deferredMatches_pinsApply]
          exact hm r hr hrs (by rw [hri, pinsApply_id])
        rw [Act.result, admitTurn_deferred role hd' hm']
        exact .skip (.inr (.inr hd))
      · have hd' : ¬ Deferred deferrals s (pinsApply ps es[i]) := by
          simpa only [Deferred, pinsApply_id] using hd
        have hobj' : HasObject d (pinsApply ps es[i]) := by
          rw [HasObject, pinsApply_objectRef]
          exact hobj ht
        have hgo := admitTurn_goes (q := q) hX role ho (pinsApply_ok ps (h.log.ok.get hi).1)
          hobj' hd'
        refine .turn ht (fun hs => hs.elim hc hd) ?_
        generalize (admitTurn D X deferrals q role s (pinsApply ps es[i])).result d = r at hgo
        cases hgo with
        | blank hb => exact .blank (by simpa using hb)
        | full hb hr => exact .full (by simpa using hb) (by simpa using hr)
        | turn hb hr htof =>
          exact .turn (by simpa using hb) (by simpa using hr)
            ⟨by simpa using htof.text, by simpa using htof.source, htof.scope⟩

end

end Asper
