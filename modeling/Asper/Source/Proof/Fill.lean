import Asper.Source.Calls
import Asper.Source.Proof.Touch
import Mathlib.Data.List.Nodup

/-! # What the fill makes of a run

* `Call.run_sound`: every call keeps a state of the store, in which the logs only grow.
* `Call.run_clean`: as long as no blank turn is appended, every turn can be admitted.
* `appends_admitted`: an accepted turn can be admitted at every later time exactly when its text
  is not blank, and without blank turns no replay fails on an event. -/

namespace Asper

open Durable

section
variable {D : Digest} {X : Codec} {Good : Bytes → Prop} {d d' : Disk} {s : Bytes}
  {st : SourceState} {m m' : Source} {env : Env} {input : EventInput} {kind : EventKind}

/-! ## What a view shows -/

theorem SourceAt.viewCount_eq (h : SourceAt D Good d st) (hv : sourceScopeValid s = true)
    (hi : s ≠ indexName) : viewCount D s d = (st.events s).length := by
  obtain ⟨ws, v, hopen, hview, -⟩ := h.viewOpen_run hv hi
  rw [viewCount, Act.result, hopen]
  exact hview.count

theorem SourceAt.viewAt_eq (h : SourceAt D Good d st) (hv : sourceScopeValid s = true)
    (hi : s ≠ indexName) {i : Nat} (hl : i < (st.events s).length) :
    (viewAt D s i).result d = .ok (pinsApply (st.pins s) (st.events s)[i]) := by
  obtain ⟨ws, v, hopen, hview, hsteps⟩ := h.viewOpen_run hv hi
  have hread := viewRead_run hview hsteps.final.2 hl
  rw [viewAt, Act.result, Act.bind_run hopen]
  exact congrArg Outcome.result (Act.bind_run hread)

theorem SourceAt.shows_iff (h : SourceAt D Good d st) (hv : sourceScopeValid s = true)
    (hi : s ≠ indexName) {i : Nat} {e : Event} :
    Shows D d s i e ↔
      ∃ hl : i < (st.events s).length, e = pinsApply (st.pins s) (st.events s)[i] := by
  rw [Shows, h.viewCount_eq hv hi]
  constructor
  · rintro ⟨hl, he⟩
    rw [h.viewAt_eq hv hi hl] at he
    exact ⟨hl, (Except.ok.inj he).symm⟩
  · rintro ⟨hl, rfl⟩
    exact ⟨hl, h.viewAt_eq hv hi hl⟩

/-! ## What every call keeps -/

/-- The store holds the state, and its memory fits to it. -/
structure Sound (D : Digest) (Good : Bytes → Prop) (s : Store) (st : SourceState) : Prop where
  disk : SourceAt D Good s.disk st
  source : SourceOk st s.source

theorem SourceAt.congr (h : SourceAt D Good d st)
    (hd : ∀ q, d' (ascii "scopes" :: q) = d (ascii "scopes" :: q))
    (ho : ∀ p, objectArea p → d' p = d p) : SourceAt D Good d' st where
  registry := h.registry.congr (h.registry.dir.congr (hd _)) (hd _)
  names := h.names
  scope s hv hi := (h.scope s hv hi).congr (h.registry.dir.congr (hd _)) (hd _) fun _ => hd _
  objects := h.objects.congr ho
  listed := h.listed

theorem curatedFile_ne_scopes (q : Path) : ascii "scopes" :: q ≠ curatedFile := fun h =>
  absurd (List.cons.inj h).1 (by decide)

theorem not_objectArea_curated : ¬ objectArea curatedFile := by
  rintro (h | ⟨n, h⟩)
  · exact absurd (List.cons.inj h).1 (by decide)
  · exact absurd (List.cons.inj h).1 (by decide)

theorem not_sourceArea_curated : ¬ sourceArea curatedFile := by
  rintro (⟨q, hq⟩ | hq)
  · exact curatedFile_ne_scopes q hq.symm
  · exact not_objectArea_curated hq

/-- The file of the curated ids is none of the files of the sources. -/
theorem SourceAt.curated (h : SourceAt D Good d st) (x : Option Node) :
    Holds D Good d st (d.set curatedFile x) := by
  have ho : ∀ p, objectArea p → (d.set curatedFile x) p = d p := fun p hp =>
    Disk.set_ne _ _ fun he => not_objectArea_curated (he ▸ hp)
  exact ⟨h.congr (fun q => Disk.set_ne _ _ (curatedFile_ne_scopes q)) ho, Keeps.congr ho⟩

/-- An append does nothing, registers the scope, or adds the event too. -/
theorem SourceState.appendInput_cases (D : Digest) (X : Codec) (st : SourceState) (env : Env)
    (input : EventInput) (kind : EventKind) : (st.appendInput D X env input kind).1 = st ∨
    (st.appendInput D X env input kind).1 = st.register input.scope.val ∨
    (st.appendInput D X env input kind).2 = .ok () ∧ (st.appendInput D X env input kind).1 =
      (st.register input.scope.val).push input.scope.val (newEvent D X env input kind) := by
  rw [SourceState.appendInput]
  split
  · rw [SourceState.append]
    split
    · exact .inl rfl
    · split
      · exact .inr (.inl rfl)
      · exact .inr (.inr ⟨rfl, rfl⟩)
  · exact .inl rfl

theorem appendInput_grows_any : Grows st (st.appendInput D X env input kind).1 := by
  rcases st.appendInput_cases D X env input kind with h | h | ⟨-, h⟩
  · rw [h]
    exact .refl st
  · rw [h]
    exact grows_register st _
  · rw [h]
    exact (grows_register st _).trans (grows_push _ _ _)

theorem SourceOk.congr_scopes (h : SourceOk st m) {f : Pending → Pending}
    (hf : ∀ p, (f p).scopes = p.scopes) (hm : m'.pending = m.pending.map f) : SourceOk st m' := by
  intro p hp
  rw [hm] at hp
  obtain ⟨p', hp', rfl⟩ := Option.map_eq_some_iff.1 hp
  exact ⟨hf p' ▸ (h p' hp').scopes, hf p' ▸ (h p' hp').nodup⟩

/-- What an append that is not for the name of the registry does. -/
theorem Sound.append (env : Env) {s : Store} (h : Sound D Good s st)
    (hg : ∀ p : ActiveProject, Good (turnText X p.val)) (hi : input.scope.val ≠ indexName) :
    (input.check = none ∧ (Call.append env input).run D X s = s) ∨
    ∃ kind, input.check = some kind ∧
      Sound D Good ((Call.append env input).run D X s) (st.appendInput D X env input kind).1 ∧
      Keeps s.disk ((Call.append env input).run D X s).disk ∧
      ((Call.append env input).run D X s).source.deferrals = s.source.deferrals ∧
      ((eventAppend D X env input s.source).result s.disk).map (·.1) =
        (st.appendInput D X env input kind).2.map (fun _ => env.id.val) ∧
      ((st.appendInput D X env input kind).2 = .ok () → TakesOrigin input.objectRef.val kind →
        ((Call.append env input).run D X s).disk
          (objectFile (eventRef D X env input.objectRef.val kind)) ≠ none) := by
  obtain ⟨d, m⟩ := s
  cases hk : input.check with
  | none =>
    refine .inl ⟨rfl, ?_⟩
    have hfail : eventAppend D X env input m d = ⟨[], .error .invalid⟩ :=
      Act.bind_run_error (eventCommit_none hk d)
    simp only [Call.run, hfail]
    rfl
  | some kind =>
    obtain ⟨ws, r, hrun, hr, hn, hsteps⟩ := h.disk.eventAppend_run h.source hk hi (hg env.project)
    refine .inr ⟨kind, rfl, ?_⟩
    simp only [Call.run, hrun, Act.result]
    refine ⟨⟨hsteps.final.1.1, ?_⟩, hsteps.final.1.2, ?_, hr, hsteps.final.2⟩
    · cases r with
      | ok a => exact (hn a rfl).1
      | error e => exact h.source.grow appendInput_grows_any
    · cases r with
      | ok a => exact (hn a rfl).2
      | error e => rfl

theorem Sound.replay {s : Store} (h : Sound D Good s st) :
    Sound D Good (Call.replay.run D X s) st ∧ Keeps s.disk (Call.replay.run D X s).disk ∧
      (Call.replay.run D X s).source.deferrals = s.source.deferrals := by
  have hk := replayPending_keeps D X Good s.disk
    (fun s hs => h.disk.named_scopes hs) h.source
  have hfin := (hk.steps s.disk ⟨h.disk, .refl _⟩).final
  obtain ⟨a, ha⟩ := (total_replayPending (D := D) (X := X) s.source).ok s.disk
  have hval := hk.value s.disk a ⟨h.disk, .refl _⟩ ha
  have hrun : (replayPending D X s.source s.disk).result = .ok a := ha
  simp only [Call.run, hrun]
  exact ⟨⟨hfin.1, hval.1⟩, hfin.2, hval.2⟩

/-- An append writes nothing but source. -/
theorem append_elsewhere {s : Store} :
    SameElsewhere s.disk ((Call.append env input).run D X s).disk :=
  ((elsewhere_eventAppend D X RowCut s.disk env input s.source).steps s.disk
    fun _ _ => rfl).final

/-- Only an append under the name of the registry is left out. -/
def Call.Legal : Call → Store → Prop
  | .append _ input, _ => input.scope.val ≠ indexName
  | _, _ => True

/-- **Every call keeps a state**, and the logs only grow. -/
theorem Call.run_sound {s : Store} {c : Call} (hg : ∀ p : ActiveProject, Good (turnText X p.val))
    (h : Sound D Good s st) (hc : c.Legal s) :
    ∃ st', Sound D Good (c.run D X s) st' ∧ Grows st st' ∧ Keeps s.disk (c.run D X s).disk := by
  cases c with
  | append env input =>
    rcases h.append env hg hc with ⟨-, heq⟩ | ⟨kind, -, hs, hk, -⟩
    · rw [heq]
      exact ⟨st, h, .refl st, .refl _⟩
    · exact ⟨_, hs, appendInput_grows_any, hk⟩
  | replay => exact ⟨st, h.replay.1, .refl st, h.replay.2.1⟩
  | reopen eventMax deferrals suspended =>
    exact ⟨st, ⟨h.disk, fun _ hp => nomatch hp⟩, .refl st, .refl _⟩
  | curate file curated queue suspended frozen =>
    have hd := h.disk.curated (some (.file file))
    exact ⟨st, ⟨hd.1, h.source.congr_scopes (f := fun p => { p with curated, frozen }) (fun _ => rfl) rfl⟩, .refl st, hd.2⟩

theorem runCalls_sound {calls : List Call} {s : Store}
    (hg : ∀ p : ActiveProject, Good (turnText X p.val)) (h : Sound D Good s st)
    (hc : AllCalls D X Call.Legal calls s) :
    ∃ st', Sound D Good (runCalls D X calls s) st' ∧ Grows st st' ∧
      Keeps s.disk (runCalls D X calls s).disk := by
  induction calls generalizing s st with
  | nil => exact ⟨st, h, .refl st, .refl _⟩
  | cons c calls ih =>
    obtain ⟨st1, h1, hgrow1, hk1⟩ := c.run_sound hg h hc.1
    obtain ⟨st2, h2, hgrow2, hk2⟩ := ih h1 hc.2
    exact ⟨st2, h2, hgrow1.trans hgrow2, hk1.trans hk2⟩

/-! ## One accepted turn -/

/-- The fill admits the event at the position `i` of the scope: whatever the queue holds, once it
has room, and whatever was curated or decided, the fill with its cursor there goes past it. -/
def Admits (D : Digest) (X : Codec) (d : Disk) (s : Bytes) (i : Nat) : Prop :=
  ∀ (p : Pending) (deferrals : List Deferral) (x : PendingScope) (q : Queue) (e : Event),
    Shows D d s i e → x.scope = s → x.cursor = i → i < x.stop → x.stop ≤ viewCount D s d →
    DeferralsMatch D deferrals s e → roomFor q (e.text.length + 1) = true →
    ∃ r, (fillScope D X p deferrals x q).result d = .ok r ∧ Admitted p deferrals s e i q r

theorem admitted_pinsApply {p : Pending} {deferrals : List Deferral} {ps : List Pin} {e : Event}
    {i : Nat} {q : Queue} {r : Nat × Queue × Except Err Unit} :
    Admitted p deferrals s (pinsApply ps e) i q r ↔ Admitted p deferrals s e i q r := by
  have ht (t : Turn) : TurnOf s (pinsApply ps e) t ↔ TurnOf s e t :=
    ⟨fun h => ⟨by simpa using h.text, by simpa using h.source, h.scope⟩,
     fun h => ⟨by simpa using h.text, by simpa using h.source, h.scope⟩⟩
  simp only [Admitted, pinsApply_skipped, ht]

theorem deferralsMatch_pinsApply {deferrals : List Deferral} {ps : List Pin} {e : Event} :
    DeferralsMatch D deferrals s (pinsApply ps e) ↔ DeferralsMatch D deferrals s e := by
  simp only [DeferralsMatch, pinsApply_id, deferredMatches_pinsApply]

/-- An empty queue has room for any event. -/
theorem roomFor_empty (eventMax : Int) {n : Nat} (h : n ≤ eventBytes) :
    roomFor ⟨eventMax, [], 0, 0⟩ (n + 1) = true := by
  have hl : 0 + 0 < turnQueueLimit ⟨eventMax, [], 0, 0⟩ := by
    unfold turnQueueLimit queueEvents
    dsimp only
    split <;> omega
  have hb : n + 1 ≤ queueBytes - 0 - 0 := by
    unfold eventBytes at h
    unfold queueBytes
    omega
  exact decide_eq_true ⟨hl, hb⟩

/-- **The fill admits a turn with its object** exactly when its text is not blank. -/
theorem SourceAt.admits_iff (h : SourceAt D Good d st) (hX : ReadsObjects X Good)
    (hv : sourceScopeValid s = true) (hi : s ≠ indexName) {i : Nat} (hl : i < (st.events s).length)
    (ht : (st.events s)[i].kind.isTurn = true) (hobj : HasObject d (st.events s)[i]) :
    Admits D X d s i ↔ strBlank (st.events s)[i].text = false := by
  have hshow : Shows D d s i (pinsApply (st.pins s) (st.events s)[i]) :=
    (h.shows_iff hv hi).2 ⟨hl, rfl⟩
  constructor
  · intro ha
    have hok : (st.events s)[i].Ok := by
      obtain ⟨t, hlog⟩ := (h.scope s hv hi).log
      exact (hlog.ok.get hl).1
    have hq := roomFor_empty 1 hok.size
    obtain ⟨r, hr, hadm⟩ := ha (.blank []) [] ⟨s, i, i + 1, false⟩ ⟨1, [], 0, 0⟩ _ hshow rfl rfl
      (Nat.lt_succ_self i) (by rw [h.viewCount_eq hv hi]; exact hl) (fun _ hn => absurd hn List.not_mem_nil)
      (by rw [pinsApply_text]; exact hq)
    obtain ⟨r', hr', hiff, -⟩ := h.fillScope_admits_iff [] (X := X) (p := .blank [])
      (x := ⟨s, i, i + 1, false⟩) (q := ⟨1, [], 0, 0⟩) hX hv hi (Nat.lt_succ_self i) hl hobj ht
      (fun _ hn => absurd hn List.not_mem_nil) hq
    obtain rfl : r = r' := Except.ok.inj (hr.symm.trans hr')
    refine (hiff.1 (admitted_pinsApply.1 hadm)).resolve_right ?_
    rintro (hc | ⟨r, hr, -⟩)
    · exact absurd hc List.not_mem_nil
    · exact absurd hr List.not_mem_nil
  · intro hb p deferrals x q e he hxs hxc hlt hstop hm hq
    obtain ⟨_, rfl⟩ := (h.shows_iff hv hi).1 he
    subst hxs hxc
    rw [h.viewCount_eq hv hi] at hstop
    rw [pinsApply_text] at hq
    obtain ⟨r, hr, hiff, -⟩ := h.fillScope_admits_iff deferrals (p := p) hX hv hi hlt hstop hobj ht
      (deferralsMatch_pinsApply.1 hm) hq
    exact ⟨r, hr, admitted_pinsApply.2 (hiff.2 (.inl hb))⟩

/-- A turn that carries no object of the caller is accepted by the append. -/
structure AcceptedTurn (D : Digest) (X : Codec) (s : Store) (env : Env) (input : EventInput) :
    Prop where
  turn : ∃ kind, eventKindOf input.kind = some kind ∧ kind.isTurn = true
  plain : input.objectRef.val = []
  ok : ∃ a, (eventAppend D X env input s.source).result s.disk = .ok a

/-- The accepted turn is at the end of its log, with its object. -/
theorem Sound.accepted {s : Store} (h : Sound D (IsOrigin X) s st)
    (ha : AcceptedTurn D X s env input) :
    ∃ st' e, Sound D (IsOrigin X) ((Call.append env input).run D X s) st' ∧
      sourceScopeValid input.scope.val = true ∧ input.scope.val ≠ indexName ∧
      st'.events input.scope.val = st.events input.scope.val ++ [e] ∧ e.id = env.id.val ∧
      e.text = input.text.val ∧ e.kind.isTurn = true ∧
      HasObject ((Call.append env input).run D X s).disk e := by
  obtain ⟨a, hok⟩ := ha.ok
  obtain ⟨kind, hk, hi, hres, -⟩ := h.disk.append_ok (fun p => ⟨p, rfl⟩) h.source
    (show eventAppend D X env input s.source s.disk =
      ⟨(eventAppend D X env input s.source).writes s.disk, .ok a⟩ by rw [← hok]; rfl)
  obtain ⟨hc, hkind⟩ := EventInput.check_some hk
  obtain ⟨kind', hkind', hturn⟩ := ha.turn
  obtain rfl : kind = kind' := Option.some.inj (hkind.symm.trans hkind')
  have hto : TakesOrigin input.objectRef.val kind := ⟨ha.plain, hturn⟩
  rcases h.append env (fun p => ⟨p, rfl⟩) hi with ⟨hnone, -⟩ | ⟨kind'', hk', hs, -, -, -, hobj⟩
  · rw [hk] at hnone
    cases hnone
  · obtain rfl : kind = kind'' := Option.some.inj (hk.symm.trans hk')
    refine ⟨_, nextEvent (st.events input.scope.val) (newEvent D X env input kind), hs, hc.scope, hi,
      ?_, rfl, rfl, hturn, ?_, hobj hres hto⟩
    · rw [appendInput_ok hres, SourceState.push, SourceState.setEvents]
      simp only [Function.update_self, events_register]
    · show sourceObjectValid (eventRef D X env input.objectRef.val kind) = true
      rw [eventRef_origin hto]
      exact sourceObjectValid_objectRef ..

/-- At every later time a view shows the accepted turn, and the fill admits it. -/
def AdmittedLater (D : Digest) (X : Codec) (s : Store) (env : Env) (input : EventInput) : Prop :=
  ∀ after, AllCalls D X Call.Legal after ((Call.append env input).run D X s) →
    ∃ e, Shows D (runCalls D X after ((Call.append env input).run D X s)).disk input.scope.val
        (viewCount D input.scope.val s.disk) e ∧
      e.id = env.id.val ∧ e.text = input.text.val ∧
      Admits D X (runCalls D X after ((Call.append env input).run D X s)).disk input.scope.val
        (viewCount D input.scope.val s.disk)

theorem Sound.admittedLater_iff {s : Store} (hX : OriginParses X) (h : Sound D (IsOrigin X) s st)
    (ha : AcceptedTurn D X s env input) :
    AdmittedLater D X s env input ↔ strBlank input.text.val = false := by
  obtain ⟨st1, e, h1, hv, hi, hev, hid, htext, hturn, hobj⟩ := h.accepted ha
  -- what the logs hold at every later time
  have hlater (after : List Call)
      (hafter : AllCalls D X Call.Legal after ((Call.append env input).run D X s)) :
      ∃ e', Shows D (runCalls D X after ((Call.append env input).run D X s)).disk input.scope.val
          (viewCount D input.scope.val s.disk) e' ∧ e'.id = env.id.val ∧
        e'.text = input.text.val ∧
        (Admits D X (runCalls D X after ((Call.append env input).run D X s)).disk input.scope.val
          (viewCount D input.scope.val s.disk) ↔ strBlank input.text.val = false) := by
    obtain ⟨st2, h2, hgrow, hkeep⟩ := runCalls_sound (X := X) (fun p => ⟨p, rfl⟩) h1 hafter
    obtain ⟨rest, hrest⟩ := hgrow.events input.scope.val
    rw [hev, List.append_assoc] at hrest
    have hcount := h.disk.viewCount_eq hv hi
    have hl : (st.events input.scope.val).length < (st2.events input.scope.val).length := by
      rw [← hrest]
      simp
    have hget : (st2.events input.scope.val)[(st.events input.scope.val).length] = e := by
      simp [← hrest]
    rw [hcount]
    refine ⟨_, (h2.disk.shows_iff hv hi).2 ⟨hl, rfl⟩, by rw [pinsApply_id, hget, hid],
      by rw [pinsApply_text, hget, htext], ?_⟩
    rw [h2.disk.admits_iff (readsObjects_origin hX) hv hi hl (by rw [hget]; exact hturn)
      (by rw [hget]; exact ⟨hobj.1, by rw [hkeep _ hobj.2]; exact hobj.2⟩), hget, htext]
  constructor
  · intro hadm
    obtain ⟨-, -, -, -, hiff⟩ := hlater [] trivial
    obtain ⟨-, -, -, -, h0⟩ := hadm [] trivial
    exact hiff.1 h0
  · intro hb after hafter
    obtain ⟨e', hshow, hid', htext', hiff⟩ := hlater after hafter
    exact ⟨e', hshow, hid', htext', hiff.2 hb⟩

/-! ## Runs without blank turns -/

/-- The call appends no blank turn and no turn with an object of the caller, draws a new id, and
reopens with decisions about events that are there. -/
def Call.Plain (D : Digest) : Call → Store → Prop
  | .append env input, s => input.scope.val ≠ indexName ∧
      (∀ i e, Shows D s.disk input.scope.val i e → e.id ≠ env.id.val) ∧
      ∀ kind, eventKindOf input.kind = some kind → kind.isTurn = true →
        input.objectRef.val = [] ∧ strBlank input.text.val = false
  | .reopen _ deferrals _, s => ∀ r ∈ deferrals, sourceScopeValid r.scope = true ∧
      r.scope ≠ indexName ∧ ∃ e, Shows D s.disk r.scope (r.sequence - 1) e ∧ e.id = r.id ∧
        deferredMatches D r e = true
  | _, _ => True

/-- No turn is blank, ids are used once, and the decisions are about events of the state. -/
structure Clean (D : Digest) (d : Disk) (deferrals : List Deferral) (st : SourceState) : Prop where
  turn : ∀ n, ∀ e ∈ st.events n, e.kind.isTurn = true → strBlank e.text = false ∧ HasObject d e
  ids : ∀ n, ((st.events n).map (·.id)).Nodup
  decided : ∀ r ∈ deferrals, ∃ e ∈ st.events r.scope, e.id = r.id ∧ deferredMatches D r e = true

variable {deferrals : List Deferral}

theorem Clean.turnsOk (h : Clean D d deferrals st) (hX : OriginParses X) :
    TurnsOk D X (IsOrigin X) d st deferrals where
  reads := readsObjects_origin hX
  turn n _ := h.turn n
  decided n _ e he r hr hs hid := by
    subst hs
    obtain ⟨e', he', hid', hm⟩ := h.decided r hr
    have : e = e' := List.inj_on_of_nodup_map (h.ids _) he he' (hid.symm.trans hid'.symm)
    exact this ▸ hm

theorem Clean.keeps (h : Clean D d deferrals st) (hk : Keeps d d') : Clean D d' deferrals st where
  turn n e he ht := by
    obtain ⟨hb, hv, ho⟩ := h.turn n e he ht
    exact ⟨hb, hv, by rw [hk _ ho]; exact ho⟩
  ids := h.ids
  decided := h.decided

theorem Clean.register (h : Clean D d deferrals st) : Clean D d deferrals (st.register s) where
  turn n := by
    rw [events_register]
    exact h.turn n
  ids n := by
    rw [events_register]
    exact h.ids n
  decided r hr := by
    rw [events_register]
    exact h.decided r hr

/-- A new event keeps the state clean, when a turn has a text and an object. -/
theorem Clean.push {e : Event} (h : Clean D d deferrals st) (hid : ∀ e' ∈ st.events s, e'.id ≠ e.id)
    (ht : e.kind.isTurn = true → strBlank e.text = false ∧ HasObject d e) :
    Clean D d deferrals (st.push s e) where
  turn n e' he' hturn := by
    rw [events_push] at he'
    split at he'
    · rcases List.mem_append.1 he' with he' | he'
      · exact h.turn s e' he' hturn
      · obtain rfl := List.mem_singleton.1 he'
        exact ht hturn
    · exact h.turn n e' he' hturn
  ids n := by
    rw [events_push]
    split
    · rw [List.map_append, List.nodup_append]
      refine ⟨h.ids s, List.pairwise_singleton _ _, fun a ha b hb hab => ?_⟩
      obtain ⟨e', he', rfl⟩ := List.mem_map.1 ha
      obtain rfl := List.mem_singleton.1 hb
      exact hid e' he' hab
    · exact h.ids n
  decided r hr := by
    obtain ⟨e', he', hm⟩ := h.decided r hr
    refine ⟨e', ?_, hm⟩
    rw [events_push]
    split
    · next heq => exact List.mem_append.2 (.inl (heq ▸ he'))
    · exact he'

/-- An append that meets `Call.Plain` keeps the state clean. -/
theorem Sound.append_clean {s : Store} (hs : Sound D (IsOrigin X) s st)
    (h : Clean D s.disk s.source.deferrals st) (hc : (Call.append env input).Plain D s) :
    ∃ st', Sound D (IsOrigin X) ((Call.append env input).run D X s) st' ∧
      Clean D ((Call.append env input).run D X s).disk
        ((Call.append env input).run D X s).source.deferrals st' := by
  obtain ⟨hi, hfresh, hplain⟩ := hc
  rcases hs.append env (fun p => ⟨p, rfl⟩) hi with
    ⟨-, heq⟩ | ⟨kind, hk, hs', hkeep, hd, -, hobj⟩
  · rw [heq]
    exact ⟨st, hs, h⟩
  · obtain ⟨hchk, hkind⟩ := EventInput.check_some hk
    refine ⟨_, hs', ?_⟩
    rw [hd]
    rcases st.appendInput_cases D X env input kind with h1 | h1 | ⟨hok, h1⟩
    · rw [h1]
      exact h.keeps hkeep
    · rw [h1]
      exact (h.keeps hkeep).register
    · rw [h1]
      refine (h.keeps hkeep).register.push (fun e' he' => ?_) fun hturn => ?_
      · rw [events_register] at he'
        obtain ⟨i, hl, rfl⟩ := List.getElem_of_mem he'
        have := hfresh i _ ((hs.disk.shows_iff hchk.scope hi).2 ⟨hl, rfl⟩)
        rwa [pinsApply_id] at this
      · have hturn' : kind.isTurn = true := hturn
        obtain ⟨href, hblank⟩ := hplain kind hkind hturn'
        refine ⟨hblank, ?_, hobj hok ⟨href, hturn'⟩⟩
        show sourceObjectValid (eventRef D X env input.objectRef.val kind) = true
        rw [eventRef_origin ⟨href, hturn'⟩]
        exact sourceObjectValid_objectRef ..

theorem Call.run_clean {s : Store} {c : Call} (hs : Sound D (IsOrigin X) s st)
    (h : Clean D s.disk s.source.deferrals st) (hc : c.Plain D s) :
    ∃ st', Sound D (IsOrigin X) (c.run D X s) st' ∧
      Clean D (c.run D X s).disk (c.run D X s).source.deferrals st' := by
  cases c with
  | append env input => exact hs.append_clean h hc
  | replay =>
    obtain ⟨hs', hkeep, hd⟩ := hs.replay
    exact ⟨st, hs', hd ▸ h.keeps hkeep⟩
  | reopen eventMax deferrals suspended =>
    refine ⟨st, ⟨hs.disk, fun _ hp => nomatch hp⟩, h.turn, h.ids, fun r hr => ?_⟩
    obtain ⟨hv, hi, e, he, hid, hm⟩ := hc r hr
    obtain ⟨hl, rfl⟩ := (hs.disk.shows_iff hv hi).1 he
    exact ⟨_, List.getElem_mem hl, by rw [← hid, pinsApply_id], by rwa [deferredMatches_pinsApply] at hm⟩
  | curate file curated queue suspended frozen =>
    have hd := hs.disk.curated (some (.file file))
    exact ⟨st, ⟨hd.1, hs.source.congr_scopes (f := fun p => { p with curated, frozen })
      (fun _ => rfl) rfl⟩, h.keeps hd.2⟩

theorem runCalls_clean {calls : List Call} {s : Store} (hs : Sound D (IsOrigin X) s st)
    (h : Clean D s.disk s.source.deferrals st) (hc : AllCalls D X (Call.Plain D) calls s) :
    ∃ st', Sound D (IsOrigin X) (runCalls D X calls s) st' ∧
      Clean D (runCalls D X calls s).disk (runCalls D X calls s).source.deferrals st' := by
  induction calls generalizing s st with
  | nil => exact ⟨st, hs, h⟩
  | cons c calls ih =>
    obtain ⟨st1, hs1, h1⟩ := c.run_clean hs h hc.1
    exact ih hs1 h1 hc.2

/-- Replaying the pending turns ends well, unless the registry has more scopes than the inventory
takes. -/
def ReplayGoes (D : Digest) (X : Codec) (s : Store) : Prop :=
  ∃ m r, (replayPending D X s.source).result s.disk = .ok (m, r) ∧
    (r = .ok () ∨ r = .error .limit ∧ pendingScopes < (splitRows (s.disk.data scopeIndex)).1.length)

theorem Sound.replayGoes {s : Store} (hX : OriginParses X) (hs : Sound D (IsOrigin X) s st)
    (h : Clean D s.disk s.source.deferrals st) {ids : List Bytes}
    (hc : curatedLoad.result s.disk = .ok ids) : ReplayGoes D X s := by
  obtain ⟨⟨m, r⟩, hr⟩ := (total_replayPending (D := D) (X := X) s.source).ok s.disk
  refine ⟨m, r, hr, ?_⟩
  rw [hs.disk.registry.data, splitRows_registry hs.disk.registry.valid]
  exact hs.disk.replayPending_smooth hs.source (h.turnsOk hX) hc hr

end

/-- The store before the first call. -/
structure Fresh (s : Store) : Prop where
  disk : NoSource s.disk
  pending : s.source.pending = none
  deferrals : s.source.deferrals = []

theorem Fresh.sound {D : Digest} {Good : Bytes → Prop} {s : Store} (h : Fresh s) :
    Sound D Good s .empty :=
  ⟨h.disk.state, fun _ hp => by cases h.pending.symm.trans hp⟩

theorem Fresh.clean {D : Digest} {s : Store} (h : Fresh s) :
    Clean D s.disk s.source.deferrals .empty :=
  ⟨fun _ _ he => absurd he List.not_mem_nil, fun _ => .nil,
    fun _ hr => absurd (h.deferrals ▸ hr) List.not_mem_nil⟩

/-- **An accepted turn** is admitted at every later time exactly when its text is not blank; and as
long as no turn is blank, replaying the pending turns does not fail on any. -/
theorem appends_admitted {D : Digest} {X : Codec} (hX : OriginParses X) {s : Store} (h : Fresh s)
    (calls : List Call) :
    (AllCalls D X Call.Legal calls s → ∀ env input,
      AcceptedTurn D X (runCalls D X calls s) env input →
      (AdmittedLater D X (runCalls D X calls s) env input ↔ strBlank input.text.val = false)) ∧
    (AllCalls D X (Call.Plain D) calls s → ∀ ids,
      curatedLoad.result (runCalls D X calls s).disk = .ok ids →
      ReplayGoes D X (runCalls D X calls s)) := by
  constructor
  · intro hlegal env input ha
    obtain ⟨st, hs, -⟩ := runCalls_sound (fun p => ⟨p, rfl⟩)
      (h.sound : Sound D (IsOrigin X) s .empty) hlegal
    exact hs.admittedLater_iff hX ha
  · intro hplain ids hc
    obtain ⟨st, hs, hclean⟩ := runCalls_clean h.sound h.clean hplain
    exact hs.replayGoes hX hclean hc

/-! ## A blank turn -/

section
variable {D : Digest} {X : Codec} {Good : Bytes → Prop} {d : Disk} {s : Bytes} {st : SourceState}

theorem SourceAt.captureScope_result (h : SourceAt D Good d st) (hv : sourceScopeValid s = true)
    (hi : s ≠ indexName) :
    (captureScope D (freshScope s)).result d = .ok ⟨s, 0, (st.events s).length, false⟩ ∧
      Holds D Good d st ((captureScope D (freshScope s)).final d) := by
  obtain ⟨ws, v, hopen, hview, hsteps⟩ := h.viewOpen_run hv hi
  have hrun := Act.bind_run_run (f := fun v => if v.files.count < (freshScope s).cursor then
      Act.fail .io else pure { freshScope s with stop := v.files.count, refresh := false }) hopen
    (v := []) (r := .ok ⟨s, 0, v.files.count, false⟩) ((congrFun (if_neg (Nat.not_lt_zero _)) _).trans rfl)
  rw [List.append_nil] at hrun
  have hcap : captureScope D (freshScope s) d = ⟨ws, .ok ⟨s, 0, v.files.count, false⟩⟩ := hrun
  rw [Act.result, Act.final, Act.writes, hcap, ← hview.count]
  exact ⟨rfl, hsteps.final.1⟩

/-- A store whose only event is a blank turn cannot be opened again. -/
theorem SourceAt.replay_stuck (h : SourceAt D Good d st) (hX : ReadsObjects X Good) {e : Event}
    (hs : st.scopes = [s]) (hev : st.events s = [e]) (ht : e.kind.isTurn = true)
    (hobj : HasObject d e) (hb : strBlank e.text = true) (hc : curatedLoad.result d = .ok [])
    {q : Queue} (hq : roomFor q (e.text.length + 1) = true) :
    ∃ m, (replayPending D X ⟨none, q, [], false⟩).result d = .ok (m, .error .invalid) := by
  obtain ⟨hv, hi⟩ := h.named_scopes (r := s) (by rw [hs]; exact List.mem_singleton_self s)
  let p : Pending := ⟨[freshScope s], 0, [], false, false⟩
  -- the registry is read
  have hinv : (inventory (.blank [])).result d = .ok (p, .ok ()) := by
    rw [Act.result, h.registry.inventory_run, inventoryText_fits h.registry.valid h.registry.nodup
      (by rw [hs, List.length_singleton]; decide), hs]
    rfl
  have h1 : Holds D Good d st ((inventory (.blank [])).final d) :=
    ((inventory_keeps (p := .blank []) ⟨fun _ hx => absurd hx List.not_mem_nil, .nil⟩).steps d
      ⟨h, .refl d⟩).final
  have hatt : curatedLoad.attempt d = ⟨[], .ok (.ok [])⟩ := by
    rw [Act.attempt, silent_curatedLoad.nil, hc]
  have hinit : (pendingInitialize ⟨none, q, [], false⟩).result d =
        .ok (⟨some p, q, [], false⟩, .ok ()) ∧
      (pendingInitialize ⟨none, q, [], false⟩).final d = (inventory (.blank [])).final d := by
    have hread : pendingRead ⟨none, q, [], false⟩ [] d =
        ⟨(inventory (.blank [])).writes d ++ [], .ok (⟨some p, q, [], false⟩, .ok ())⟩ :=
      Act.bind_ok hinv
    have hrun : pendingInitialize ⟨none, q, [], false⟩ d =
        ⟨(inventory (.blank [])).writes d ++ [], .ok (⟨some p, q, [], false⟩, .ok ())⟩ :=
      Act.bind_run_run (w := []) hatt hread
    rw [List.append_nil] at hrun
    rw [Act.result, Act.final, Act.writes, hrun]
    exact ⟨rfl, rfl⟩
  -- the scope is looked at
  obtain ⟨hcap, h2⟩ := h1.1.captureScope_result hv hi
  rw [hev] at hcap
  have hkeep := h1.2.trans h2.2
  -- and its only event is stuck
  have hl : 0 < (st.events s).length := by
    rw [hev]
    exact Nat.zero_lt_one
  have hget : (st.events s)[0] = e := by simp [hev]
  obtain ⟨r, hr, hiff, hstuck⟩ := h2.1.fillScope_admits_iff [] (X := X) (p := p)
    (x := ⟨s, 0, 1, false⟩) (q := q) hX hv hi Nat.zero_lt_one (by rw [hev]; exact Nat.le_refl 1)
    (by rw [hget]; exact ⟨hobj.1, by rw [hkeep _ hobj.2]; exact hobj.2⟩) (by rw [hget]; exact ht)
    (fun _ hn => absurd hn List.not_mem_nil) (by rw [hget]; exact hq)
  have hfail : r = (0, q, .error .invalid) := hstuck fun ha => by
    rcases hiff.1 ha with hnb | ⟨hcur | ⟨r, hr, -⟩⟩
    · rw [hget, hb] at hnb
      cases hnb
    · exact absurd hcur List.not_mem_nil
    · exact absurd hr List.not_mem_nil
  subst hfail
  have hserve : (serveScope D X p [] (freshScope s) q).result ((inventory (.blank [])).final d) =
      .ok (⟨s, 0, 1, false⟩, q, .error .invalid) := by
    have hif : (if (freshScope s).refresh ∧ p.frozen = false then captureScope D (freshScope s)
        else pure (freshScope s)) = captureScope D (freshScope s) := if_pos ⟨rfl, rfl⟩
    rw [serveScope, hif, Act.result_attempt_bind, hcap]
    exact Act.result_bind hr
  have hserves : ∃ p', (serveScopes D X [] 1 p q).result ((inventory (.blank [])).final d) =
      .ok (p', q, .error .invalid) := by
    have hnext : p.scopes[p.next]? = some (freshScope s) := rfl
    rw [serveScopes, if_neg (by rw [roomFor_turnQueueRoom hq]; exact Bool.noConfusion), hnext]
    exact ⟨⟨_, _, _, _, _⟩, Act.result_bind hserve⟩
  obtain ⟨p', hserves⟩ := hserves
  have hrefill : (refill D X ⟨some p, q, [], false⟩ p).result ((inventory (.blank [])).final d) =
      .ok (⟨some p', q, [], false⟩, .error .invalid) :=
    Act.result_bind (m := serveScopes D X [] 1 p q) hserves
  refine ⟨⟨some p', q, [], false⟩, ?_⟩
  have hbind : (replayPending D X ⟨none, q, [], false⟩).result d =
      (refill D X ⟨some p, q, [], false⟩ p).result
        ((pendingInitialize ⟨none, q, [], false⟩).final d) := Act.result_bind hinit.1
  rw [hbind, hinit.2, hrefill]

end

theorem plainCodec_parses : OriginParses plainCodec := fun p => by
  have hhead : projectHead = ascii "#turn " ++ ascii "\x7b\"project\":\"" := by decide
  have htext : turnText plainCodec p.val = projectHead ++ (p.val ++ ascii "\"\x7d") := by
    rw [hhead, turnText, List.append_assoc]
    simp only [plainCodec, List.append_assoc]
  have hdrop : (turnText plainCodec p.val).drop projectHead.length = p.val ++ ascii "\"\x7d" := by
    rw [htext, List.drop_left]
  have hlast : (turnText plainCodec p.val).drop ((turnText plainCodec p.val).length - 2) =
      ascii "\"\x7d" := by
    rw [htext, ← List.append_assoc, List.length_append,
      show (ascii "\"\x7d").length = 2 from rfl, Nat.add_sub_cancel, List.drop_left]
  have hinner : (p.val ++ ascii "\"\x7d").dropLast.dropLast = p.val := by
    have h1 : p.val ++ ascii "\"\x7d" = (p.val ++ [34]) ++ [125] := by
      rw [List.append_assoc]
      rfl
    rw [h1, List.dropLast_concat, List.dropLast_concat]
  show (if _ then _ else _) = _
  rw [if_pos ⟨by rw [htext, List.take_left], hlast⟩, hdrop, hinner]

/-- What the user says to the scope `a`. -/
def say (text : CStr) : EventInput :=
  ⟨scopeA, EventKind.user.code, false, .empty, text⟩

def emptyStore : Store := ⟨emptyDisk, idle⟩

theorem emptyStore_fresh : Fresh emptyStore := ⟨noSource_empty, rfl, rfl⟩

theorem say_appendInput {text : CStr} (ht : text.val.length ≤ 100) :
    (SourceState.empty.appendInput zeroDigest plainCodec plainEnv (say text) .user) =
      ((SourceState.empty.register (ascii "a")).push (ascii "a")
        (newEvent zeroDigest plainCodec plainEnv (say text) .user), .ok ()) := by
  have hfits : OriginFits plainCodec plainEnv (say text).objectRef.val .user := fun _ => by decide
  have hplace : SourceState.empty.hasPlace (ascii "a") := .inr (by decide)
  have hroom : SourceState.empty.hasRoom zeroDigest (ascii "a")
      (newEvent zeroDigest plainCodec plainEnv (say text) .user) := by
    show text.val.length ≤ eventBytes ∧ 0 + text.val.length + 512 ≤ eventLogBytes
    unfold eventBytes eventLogBytes
    omega
  rw [SourceState.appendInput, if_pos hfits]
  exact (if_neg (not_not.2 hplace)).trans (if_neg (not_not.2 hroom))

theorem say_check {text : CStr} (ht : utf8Valid text.val = true) :
    (say text).check = some .user := by
  have hs : sourceScopeValid (ascii "a") = true := by decide
  exact if_pos ⟨hs, ht, .inl rfl⟩

theorem say_accepted (text : CStr) (hu : utf8Valid text.val = true) (ht : text.val.length ≤ 100) :
    AcceptedTurn zeroDigest plainCodec emptyStore plainEnv (say text) := by
  refine ⟨⟨.user, rfl, rfl⟩, rfl, ?_⟩
  have hsound : Sound zeroDigest (IsOrigin plainCodec) emptyStore .empty := emptyStore_fresh.sound
  have hi : (say text).scope.val ≠ indexName := by
    show ascii "a" ≠ indexName
    decide
  rcases hsound.append plainEnv (fun p => ⟨p, rfl⟩) hi with ⟨hnone, -⟩ | ⟨kind, hk, -, -, -, hr, -⟩
  · rw [say_check hu] at hnone
    cases hnone
  · obtain rfl : .user = kind := Option.some.inj ((say_check hu).symm.trans hk)
    rw [say_appendInput ht] at hr
    cases ha : (eventAppend zeroDigest plainCodec plainEnv (say text) emptyStore.source).result
        emptyStore.disk with
    | ok a => exact ⟨a, rfl⟩
    | error e =>
      rw [ha] at hr
      cases hr

theorem appends_admitted_spoken :
    AdmittedLater zeroDigest plainCodec emptyStore plainEnv (say spoken) ∧
      ReplayGoes zeroDigest plainCodec emptyStore := by
  obtain ⟨h1, h2⟩ := appends_admitted (D := zeroDigest) plainCodec_parses emptyStore_fresh []
  exact ⟨(h1 trivial plainEnv (say spoken) (say_accepted spoken (by decide) (by decide))).2 (by decide),
    h2 trivial [] rfl⟩

theorem curatedLoad_none {d : Disk} (h : d curatedFile = none) : curatedLoad.result d = .ok [] := by
  have hfind : d.find curatedFile = .absent := Disk.find_top_none h
  have hblob : osBlobOpen curatedFile d = ⟨[], .error .notFound⟩ := by
    rw [osBlobOpen, Act.read, blob, hfind]
  have hread : orElse (sourceTextRead curatedFile curatedBytes) .notFound [] d = ⟨[], .ok []⟩ :=
    orElse_run .notFound [] (Act.bind_run_error hblob) fun e he => Except.error.inj he ▸ rfl
  exact congrArg Outcome.result
    (Act.bind_run_run (f := fun text => Act.lift (curatedIdsParse text)) hread rfl)

/-- A blank text. -/
def blankText : CStr := ⟨ascii " ", by decide⟩

/-- The append accepts a blank turn, which then is never admitted: opening the store fails on
it. -/
theorem blank_turn_stuck :
    AcceptedTurn zeroDigest plainCodec emptyStore plainEnv (say blankText) ∧
    ¬ AdmittedLater zeroDigest plainCodec emptyStore plainEnv (say blankText) ∧
    ∃ m, (replayPending zeroDigest plainCodec idle).result
      ((Call.append plainEnv (say blankText)).run zeroDigest plainCodec emptyStore).disk =
        .ok (m, .error .invalid) := by
  have hacc := say_accepted blankText (by decide) (by decide)
  have hsound : Sound zeroDigest (IsOrigin plainCodec) emptyStore .empty := emptyStore_fresh.sound
  refine ⟨hacc, fun hn => ?_, ?_⟩
  · exact absurd ((hsound.admittedLater_iff plainCodec_parses hacc).1 hn) (by decide)
  · have hi : (say blankText).scope.val ≠ indexName := by decide
    rcases hsound.append plainEnv (fun p => ⟨p, rfl⟩) hi with ⟨hnone, -⟩ | ⟨kind, hk, hs, -, -, -, hobj⟩
    · rw [say_check (by decide)] at hnone
      cases hnone
    · obtain rfl : .user = kind := Option.some.inj ((say_check (by decide)).symm.trans hk)
      rw [say_appendInput (by decide)] at hs hobj
      have hcurated : ((Call.append plainEnv (say blankText)).run zeroDigest plainCodec
          emptyStore).disk curatedFile = none :=
        append_elsewhere (s := emptyStore) curatedFile not_sourceArea_curated
      exact hs.disk.replay_stuck (readsObjects_origin plainCodec_parses) (s := ascii "a")
        (e := nextEvent [] (newEvent zeroDigest plainCodec plainEnv (say blankText) .user)) rfl
        (by rw [events_push, if_pos rfl]; rfl) rfl
        ⟨sourceObjectValid_objectRef .., hobj rfl ⟨rfl, rfl⟩⟩ (by decide) (curatedLoad_none hcurated)
        (q := ⟨256, [], 0, 0⟩) (roomFor_empty 256 (by show 1 ≤ eventBytes; unfold eventBytes; omega))

end Asper
