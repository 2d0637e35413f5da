import Asper.Source.Proof.State

/-! # Appending events

`SourceState.append` is what an append does to the state. `eventStore_run` says that the code does
it: with the same result, and stopped anywhere but inside a row of the registry, the disk holds
the state before, the state with the scope registered, or the state after. -/

namespace Asper

open Durable

/-! ## The directories and the registry of a scope -/

/-- The directories of `s` are there. -/
structure Ready (d : Disk) (s : Bytes) : Prop where
  scopes : d scopesDir = some .dir
  dir : d (scopeDir s) = some .dir

section
variable {D : Digest} {Good : Bytes → Prop} {d d' : Disk} {s : Bytes} {es : List Event}
  {st : SourceState}

theorem Ready.made_eq (h : Ready d s) : made d s = d := by
  funext p
  by_cases h1 : p = scopeDir s
  · rw [h1, made_dir, h.dir]
  · by_cases h2 : p = scopesDir
    · rw [h2, made_scopes, h.scopes]
    · exact made_other h2 h1

theorem ready_made : Ready (made d s) s := ⟨made_scopes, made_dir⟩

theorem Ready.congr (h : Ready d s) (h1 : d' scopesDir = d scopesDir)
    (h2 : d' (scopeDir s) = d (scopeDir s)) : Ready d' s := ⟨h1.trans h.scopes, h2.trans h.dir⟩

theorem Ready.find (h : Ready d s) : d.find (scopeDir s) = .found .dir :=
  find_scopeDir h.scopes h.dir

theorem setEvents_self (st : SourceState) (s : Bytes) : st.setEvents s (st.events s) = st := by
  rw [SourceState.setEvents, Function.update_eq_self]

theorem mem_register (st : SourceState) (s : Bytes) : s ∈ (st.register s).scopes := by
  rw [SourceState.register]
  split
  · assumption
  · simp

theorem register_of_mem (h : s ∈ st.scopes) : st.register s = st := if_pos h

@[simp] theorem events_register (st : SourceState) (s : Bytes) :
    (st.register s).events = st.events := by
  rw [SourceState.register]
  split <;> rfl

theorem Keeps.refl (d : Disk) : Keeps d d := fun _ _ => rfl

theorem Keeps.trans {d'' : Disk} (h : Keeps d d') (h' : Keeps d' d'') : Keeps d d'' :=
  fun ref hr => by rw [h' ref (by rw [h ref hr]; exact hr), h ref hr]

/-- The state the disk holds, whose objects are those of `d` at least. -/
def Holds (D : Digest) (Good : Bytes → Prop) (d : Disk) (st : SourceState) (d' : Disk) : Prop :=
  SourceAt D Good d' st ∧ Keeps d d'

theorem SourceAt.dirs_steps (h : SourceAt D Good d st) (hv : sourceScopeValid s = true)
    (hi : s ≠ indexName) : Steps RowCut d (dirWrites d s) (Holds D Good d st)
      fun d' => Holds D Good d st d' ∧ d' = made d s := by
  have hdirs := (h.scope s hv hi).dirs
  have hobj {p : Path} (hp : objectArea p) : p ≠ scopesDir ∧ p ≠ scopeDir s :=
    ⟨fun he => not_objectArea_scopes _ (he ▸ hp), fun he => not_objectArea_scopes _ (he ▸ hp)⟩
  refine (dirWrites_steps hdirs).weaken (fun d' hd' => ⟨h.dirs' hi hd'.1 hd'.2.1 hd'.2.2,
    Keeps.congr fun p hp => hd'.2.2 p (hobj hp).1 (hobj hp).2⟩) ?_
  rintro d' rfl
  exact ⟨⟨h.dirs' hi .made made_made fun p h1 h2 => made_other h1 h2,
    Keeps.congr fun p hp => made_other (hobj hp).1 (hobj hp).2⟩, rfl⟩

theorem SourceAt.log_at (h : SourceAt D Good d st) (hv : sourceScopeValid s = true)
    (hi : s ≠ indexName) (hd : Ready d s) :
    ∃ t, LogAt D d (scopeDir s) eventsName (st.events s) t := by
  have hl := (h.scope s hv hi).log
  rwa [hd.made_eq] at hl

/-- Whether the registry has a place for `s`. -/
def SourceState.hasPlace (st : SourceState) (s : Bytes) : Prop :=
  s ∈ st.scopes ∨ (joinRows (st.scopes ++ [s])).length ≤ scopeIndexBytes

instance (st : SourceState) (s : Bytes) : Decidable (st.hasPlace s) :=
  inferInstanceAs (Decidable (_ ∨ _))

theorem SourceAt.register_run (h : SourceAt D Good d st) (hv : sourceScopeValid s = true)
    (hi : s ≠ indexName) (hd : Ready d s) (hp : st.hasPlace s) :
    ∃ ws, registerScope s d = ⟨ws, .ok ()⟩ ∧
      Steps RowCut d ws (fun d' => Holds D Good d st d' ∨ Holds D Good d (st.register s) d')
        fun d' => Holds D Good d (st.register s) d' ∧ Ready d' s := by
  by_cases hs : s ∈ st.scopes
  · rw [register_of_mem hs]
    exact ⟨[], registerScope_old h.registry hd.scopes hs,
      .nil (.inl ⟨h, .refl d⟩) ⟨⟨h, .refl d⟩, hd⟩⟩
  · have hroom := hp.resolve_left hs
    have hst : st.register s = { st with scopes := st.scopes ++ [s] } := if_neg hs
    have hsteps := (h.registry.push_steps hv hs hroom).framed (G := (· = scopeIndex))
      fun w hw p hp => by
        rw [List.mem_singleton.1 hw] at hp
        exact List.mem_singleton.1 hp
    have hk {d' : Disk} (hd' : ∀ p, ¬ p = scopeIndex → d' p = d p) : Keeps d d' :=
      Keeps.congr fun p hp => hd' p fun he => not_objectArea_scopes _ (he ▸ hp)
    have hnew {d' : Disk} (hr : RegistryAt d' (st.scopes ++ [s]))
        (hd' : ∀ p, ¬ p = scopeIndex → d' p = d p) : Holds D Good d (st.register s) d' := by
      rw [hst]
      refine ⟨h.registry' hr ?_ (fun x hx => List.mem_append.2 (.inl hx)) hd', hk hd'⟩
      simp [h.names, hi.symm]
    refine ⟨_, registerScope_new h.registry hd.scopes hs hroom, hsteps.weaken ?_ ?_⟩
    · rintro d' ⟨hr | hr, hd'⟩
      · exact .inl ⟨h.registry' hr h.names (fun _ => id) hd', hk hd'⟩
      · exact .inr (hnew hr hd')
    · rintro d' ⟨hr, hd'⟩
      exact ⟨hnew hr hd', hd.congr (hd' _ (by decide))
        (hd' _ fun he => hi (scopeDir_inj (he.trans scopeIndex_eq)))⟩

/-! ## The object of an event -/

theorem sourceObjectPath_result {ref : Bytes} {e : Err} {p : Path}
    (h : (sourceObjectPath ref e).result d = .ok p) : p = objectFile ref := by
  obtain ⟨_, -, h⟩ := Act.bind_eq_ok h
  obtain ⟨_, -, h⟩ := Act.bind_eq_ok h
  exact (Except.ok.inj h).symm

theorem covers_object (n : Bytes) : Covers objectArea (objectsDir ++ [n]) := fun r hr hp => by
  rcases r with _ | ⟨c, _ | ⟨c', _ | ⟨c'', r⟩⟩⟩
  · exact absurd rfl hr
  · rw [show objectsDir ++ [n] = ascii "objects" :: [n] from rfl, List.cons_prefix_cons] at hp
    exact .inl (by rw [hp.1]; rfl)
  · exact .inr ⟨n, hp.eq_of_length rfl⟩
  · exact absurd hp.length_le (by simp [objectsDir])

/-- Storing an object touches the directory of objects only. -/
theorem confined_objectPut (D : Digest) (data : Bytes) (uuid : Uuid) :
    Act.Confined objectArea (objectPut D data uuid) := by
  have hf := covers_object ((objectRef D data).drop 7 ++ ascii ".bin")
  have ht := covers_object (ascii "." ++ (objectRef D data).drop 7 ++ ascii ".tmp." ++ uuid.val)
  have hnf : objectFile (objectRef D data) ≠ [] := by simp [objectFile]
  have hnt : objectTmp (objectRef D data) uuid ≠ [] := by simp [objectTmp]
  have hwrite (there : Bool) :
      Act.Confined objectArea (objectWrite D (objectRef D data) data uuid there) := by
    refine .ite (.bind (confined_osBlobOpen hf) fun _ => .lift _) (.bind (Act.Confined.attempt
      (.bind (confined_osWriteFile ht hnt _) fun _ =>
        confined_osFileReplace ht hf hnt hnf)) fun r => ?_)
    cases r with
    | ok _ => exact .pure _
    | error e => exact .bind (confined_ignore (confined_osRemoveFile ht hnt)) fun _ => .fail _
  have hmk : Act.Confined objectArea (sourceObjectPath (objectRef D data) .io) := by
    refine .bind (confined_require _) fun _ => .bind (confined_orFail ?_ _) fun _ => .pure _
    exact confined_osMkdirP fun r hr hp => covers_object [] r hr (hp.trans (List.prefix_append ..))
  refine .bind (confined_require _) fun _ => hmk.bind_of fun path d hpath => ?_
  rw [sourceObjectPath_result hpath]
  exact .bind (confined_osFileExists hf) fun _ => .bind (hwrite _) fun _ => .pure _

section
variable (D) (X : Codec) (env : Env) (ref : Bytes) (kind : EventKind)

/-- The object reference a new event gets. -/
def eventRef : Bytes :=
  if ref ≠ [] then ref
  else if kind.isTurn then objectRef D (turnText X env.project.val)
  else []

/-- The event gets an origin object. -/
def TakesOrigin : Prop := ref = [] ∧ kind.isTurn = true

instance : Decidable (TakesOrigin ref kind) := inferInstanceAs (Decidable (_ ∧ _))

end

variable {X : Codec} {env : Env} {ref : Bytes} {kind : EventKind}

theorem eventObject_origin (h : TakesOrigin ref kind) :
    eventObject D X env ref kind = turnOrigin D X env := by
  rw [eventObject, if_neg (not_not.2 h.1), if_pos h.2]

theorem eventRef_origin (h : TakesOrigin ref kind) :
    eventRef D X env ref kind = objectRef D (turnText X env.project.val) := by
  rw [eventRef, if_neg (not_not.2 h.1), if_pos h.2]

theorem eventRef_given (h : ¬ TakesOrigin ref kind) : eventRef D X env ref kind = ref := by
  rw [eventRef]
  by_cases hr : ref = []
  · rw [if_neg (not_not.2 hr), if_neg fun hk => h ⟨hr, hk⟩, hr]
  · rw [if_pos hr]

theorem eventObject_given (h : ¬ TakesOrigin ref kind) :
    eventObject D X env ref kind = pure (eventRef D X env ref kind) := by
  rw [eventRef_given h, eventObject]
  by_cases hr : ref = []
  · rw [if_neg (not_not.2 hr), if_neg fun hk => h ⟨hr, hk⟩, hr]
  · rw [if_pos hr]

theorem SourceAt.eventObject_run (env : Env) (h : SourceAt D Good d st) (hg : Good (turnText X env.project.val))
    (hl : TakesOrigin ref kind → (turnText X env.project.val).length ≤ objectBytes) :
    ∃ ws, eventObject D X env ref kind d = ⟨ws, .ok (eventRef D X env ref kind)⟩ ∧
      Steps RowCut d ws (Holds D Good d st) fun d' => Holds D Good d st d' ∧
        (∀ p, ¬ objectArea p → d' p = d p) ∧
        (TakesOrigin ref kind → d' (objectFile (eventRef D X env ref kind)) ≠ none) := by
  by_cases ht : TakesOrigin ref kind
  · obtain ⟨ws, hrun, hsteps⟩ := objectPut_run h.objects env.tmp hg (hl ht)
    have hw : ∀ w ∈ ws, ∀ p ∈ w.paths, objectArea p := by
      have := (confined_objectPut D (turnText X env.project.val) env.tmp).within d
      rwa [Act.writes, hrun] at this
    rw [eventObject_origin ht, eventRef_origin ht]
    refine ⟨ws, hrun, ((hsteps RowCut).framed hw).weaken ?_ ?_⟩
    · exact fun d' hd' => ⟨h.objects' hd'.1.1 hd'.2, hd'.1.2⟩
    · exact fun d' hd' => ⟨⟨h.objects' hd'.1.1 hd'.2, hd'.1.2.1⟩, hd'.2, fun _ => hd'.1.2.2⟩
  · rw [eventObject_given ht]
    exact ⟨[], rfl, .nil ⟨h, .refl d⟩ ⟨⟨h, .refl d⟩, fun _ _ => rfl, fun ht' => absurd ht' ht⟩⟩

theorem eventObject_limit (hr : TakesOrigin ref kind)
    (hl : objectBytes < (turnText X env.project.val).length) :
    eventObject D X env ref kind d = ⟨[], .error .limit⟩ := by
  rw [eventObject_origin hr]
  exact require_bind_fail (by omega)

/-! ## The append -/

/-- Whether the log of `s` has room for the event. -/
def SourceState.hasRoom (D : Digest) (st : SourceState) (s : Bytes) (e : Event) : Prop :=
  e.text.length ≤ eventBytes ∧
    (logBytes D (st.events s)).length + e.text.length + 512 ≤ eventLogBytes

instance (D : Digest) (st : SourceState) (s : Bytes) (e : Event) : Decidable (st.hasRoom D s e) :=
  inferInstanceAs (Decidable (_ ∧ _))

def SourceState.push (st : SourceState) (s : Bytes) (e : Event) : SourceState :=
  st.setEvents s (st.events s ++ [nextEvent (st.events s) e])

theorem events_push (st : SourceState) (s n : Bytes) (e : Event) :
    (st.push s e).events n = if n = s then st.events s ++ [nextEvent (st.events s) e]
      else st.events n := by
  rw [SourceState.push, SourceState.setEvents]
  dsimp only
  split
  · next h => rw [h, Function.update_self]
  · next h => rw [Function.update_of_ne h]

/-- What an append does to the state, and its result. -/
def SourceState.append (D : Digest) (st : SourceState) (s : Bytes) (e : Event) :
    SourceState × Except Err Unit :=
  if ¬ st.hasPlace s then (st, .error .limit)
  else if ¬ st.hasRoom D s e then (st.register s, .error .invalid)
  else ((st.register s).push s e, .ok ())

theorem LogRun.steps (Bad : Write → Write → Prop) {q : Path} {n : Bytes} {ws : List Write}
    {P Q : Disk → Prop} (h : LogRun d q n ws P Q) :
    Steps Bad d ws (fun d' => P d' ∧ ∀ p, p ∉ logFiles q n → d' p = d p)
      fun d' => Q d' ∧ ∀ p, p ∉ logFiles q n → d' p = d p :=
  Steps.framed (G := (· ∈ logFiles q n)) ⟨fun hc _ => h.crash hc, h.final⟩ h.within

theorem scopesDir_not_log (s : Bytes) : scopesDir ∉ logFiles (scopeDir s) eventsName := fun h =>
  (logFiles_scope h).elim fun n hn => (scopeFile_ne n).1 hn.symm

theorem scopeDir_not_log (s s' : Bytes) : scopeDir s' ∉ logFiles (scopeDir s) eventsName := fun h =>
  (logFiles_scope h).elim fun _ hn => scopeFile_ne_dir _ _ _ hn.symm

theorem objectArea_not_log (s : Bytes) {p : Path} (hp : objectArea p) :
    p ∉ logFiles (scopeDir s) eventsName := fun h =>
  (logFiles_scope h).elim fun _ hn => not_objectArea_scopes _ (hn ▸ hp)

theorem SourceAt.append_run (h : SourceAt D Good d st) (hv : sourceScopeValid s = true)
    (hi : s ≠ indexName) (hd : Ready d s) (hs : s ∈ st.scopes) {e : Event}
    (he : e.text.length ≤ eventBytes → e.Fields) :
    ∃ ws, eventLogAppend D (scopeFile s eventsName) e d =
        ⟨ws, if st.hasRoom D s e then .ok (nextEvent (st.events s) e) else .error .invalid⟩ ∧
      Steps RowCut d ws (fun d' => Holds D Good d st d' ∨
          Holds D Good d (if st.hasRoom D s e then st.push s e else st) d')
        (Holds D Good d (if st.hasRoom D s e then st.push s e else st)) := by
  obtain ⟨t, hl⟩ := h.log_at hv hi hd
  have hsame {d' : Disk} {t' : Bytes} (hl' : LogAt D d' (scopeDir s) eventsName (st.events s) t')
      (hd' : ∀ p, p ∉ logFiles (scopeDir s) eventsName → d' p = d p) : Holds D Good d st d' := by
    have := h.log' hd.made_eq.symm (fun _ => hs) hl' hd'
    rw [setEvents_self] at this
    exact ⟨this, Keeps.congr fun p hp => hd' p (objectArea_not_log s hp)⟩
  by_cases hroom : st.hasRoom D s e
  · obtain ⟨ws, hrun, hlr⟩ := eventLogAppend_run hl (he hroom.1) hroom.2
    have hnew {d' : Disk} (hl' : LogAt D d' (scopeDir s) eventsName
        (st.events s ++ [nextEvent (st.events s) e]) [])
        (hd' : ∀ p, p ∉ logFiles (scopeDir s) eventsName → d' p = d p) :
        Holds D Good d (st.push s e) d' :=
      ⟨h.log' hd.made_eq.symm (fun _ => hs) hl' hd', Keeps.congr fun p hp => hd' p (objectArea_not_log s hp)⟩
    simp only [if_pos hroom]
    refine ⟨ws, hrun, (hlr.steps RowCut).weaken ?_ fun d' hd' => hnew hd'.1 hd'.2⟩
    rintro d' ⟨⟨t', hl'⟩ | hl', hd'⟩
    · exact .inl (hsame hl' hd')
    · exact .inr (hnew hl' hd')
  · obtain ⟨ws, hrun, hlr⟩ := eventLogAppend_full (e := e) hl (by
      rw [SourceState.hasRoom, not_and_or] at hroom
      exact hroom.imp Nat.lt_of_not_le Nat.lt_of_not_le)
    simp only [if_neg hroom]
    refine ⟨ws, hrun, (hlr.steps RowCut).weaken ?_ fun d' hd' => hsame hd'.1 hd'.2⟩
    rintro d' ⟨⟨t', hl'⟩, hd'⟩
    exact .inl (hsame hl' hd')

theorem SourceAt.register_full (h : SourceAt D Good d st) (hd : Ready d s) (hp : ¬ st.hasPlace s) :
    registerScope s d = ⟨[], .error .limit⟩ := by
  rw [SourceState.hasPlace, not_or] at hp
  exact registerScope_full h.registry hd.scopes hp.1 (Nat.lt_of_not_le hp.2)

theorem Holds.trans {st st' : SourceState} {d1 d2 : Disk} (h : Holds D Good d st d1)
    (h' : Holds D Good d1 st' d2) : Holds D Good d st' d2 := ⟨h'.1, h.2.trans h'.2⟩

/-- The event an append writes, whose sequence number the log decides. -/
def newEvent (D : Digest) (X : Codec) (env : Env) (input : EventInput) (kind : EventKind) : Event :=
  { sequence := 0, at_ := env.now.val, kind, pinned := input.pinned, id := env.id.val
    objectRef := eventRef D X env input.objectRef.val kind, text := input.text.val }

theorem objectText_of_valid {ref : Bytes} (h : sourceObjectValid ref = true) :
    ref.length = 71 ∧ objectText ref = true := by
  simp only [sourceObjectValid, Bool.decide_and, Bool.and_eq_true, decide_eq_true_eq] at h
  refine ⟨h.2.1, ?_⟩
  simp only [objectText, h.1, true_and, decide_eq_true_eq]
  exact List.all_eq_true.2 fun b hb => by
    have := List.all_eq_true.1 h.2.2 b hb
    simp [isXDigit, isHex, this]

/-- What the checks of an append leave. -/
structure EventInput.Checked (input : EventInput) : Prop where
  scope : sourceScopeValid input.scope.val = true
  utf8 : utf8Valid input.text.val = true
  object : input.objectRef.val = [] ∨ sourceObjectValid input.objectRef.val = true

theorem eventRef_object {input : EventInput} (hc : input.Checked) (kind : EventKind) :
    eventRef D X env input.objectRef.val kind = [] ∨
      sourceObjectValid (eventRef D X env input.objectRef.val kind) = true := by
  by_cases ht : TakesOrigin input.objectRef.val kind
  · rw [eventRef_origin ht]
    exact .inr (sourceObjectValid_objectRef ..)
  · rw [eventRef_given ht]
    exact hc.object

theorem newEvent_fields {input : EventInput} (hc : input.Checked) (kind : EventKind)
    (hsize : input.text.val.length ≤ eventBytes) : (newEvent D X env input kind).Fields where
  at_ge := env.now.2.1
  at_lt := env.now.2.2
  id_valid := env.id.valid
  object := (eventRef_object hc kind).imp_right objectText_of_valid
  no_nul := input.text.2
  utf8 := hc.utf8
  size := hsize

/-- The tail of an append, once the scope has its directory and its object. -/
def storeTail (D : Digest) (env : Env) (s : Bytes) (e : Event) : Io Bytes := do
  registerScope s
  let _ ← eventLogAppend D (scopeFile s eventsName) e
  pure env.id.val

theorem SourceAt.storeTail_run (env : Env) (h : SourceAt D Good d st) (hv : sourceScopeValid s = true)
    (hi : s ≠ indexName) (hd : Ready d s) {e : Event} (he : e.text.length ≤ eventBytes → e.Fields) :
    ∃ ws, storeTail D env s e d = ⟨ws, (st.append D s e).2.map fun _ => env.id.val⟩ ∧
      Steps RowCut d ws
        (fun d' => Holds D Good d st d' ∨ Holds D Good d (st.register s) d' ∨
          Holds D Good d (st.append D s e).1 d')
        (Holds D Good d (st.append D s e).1) := by
  by_cases hp : st.hasPlace s
  · obtain ⟨ws, hreg, hsteps⟩ := h.register_run hv hi hd hp
    obtain ⟨h1, hd1⟩ := hsteps.final
    obtain ⟨vs, hlog, hlsteps⟩ := h1.1.append_run hv hi hd1 (mem_register st s) he
    have hroom : (st.register s).hasRoom D s e ↔ st.hasRoom D s e := by
      rw [SourceState.hasRoom, SourceState.hasRoom, events_register]
    have hfst : (st.append D s e).1 =
        if (st.register s).hasRoom D s e then (st.register s).push s e else st.register s := by
      rw [SourceState.append, if_neg (not_not.2 hp)]
      by_cases hr : st.hasRoom D s e
      · rw [if_neg (not_not.2 hr), if_pos (hroom.2 hr)]
      · rw [if_pos hr, if_neg (mt hroom.1 hr)]
    refine ⟨ws ++ vs, ?_, (hsteps.weaken (fun d' hd' => hd'.imp_right .inl) fun d' hd' =>
      hd').append (hlsteps.weaken (fun d' hd' => ?_) fun d' hd' => ?_)⟩
    · have htail : (do
          let _ ← eventLogAppend D (scopeFile s eventsName) e
          pure env.id.val : Io Bytes) (applyAll ws d) =
            ⟨vs, (st.append D s e).2.map fun _ => env.id.val⟩ := by
        rw [SourceState.append, if_neg (not_not.2 hp)]
        by_cases hr : st.hasRoom D s e
        · rw [if_neg (not_not.2 hr)]
          rw [if_pos (hroom.2 hr)] at hlog
          have := Act.bind_run_run (f := fun _ => (pure env.id.val : Io Bytes)) hlog rfl
          rwa [List.append_nil] at this
        · rw [if_pos hr]
          rw [if_neg (mt hroom.1 hr)] at hlog
          exact Act.bind_run_error hlog
      exact Act.bind_run_run hreg htail
    · rcases hd' with hd' | hd'
      · exact .inr (.inl (h1.trans hd'))
      · rw [hfst]
        exact .inr (.inr (h1.trans hd'))
    · rw [hfst]
      exact h1.trans hd'
  · have happ : st.append D s e = (st, .error .limit) := if_pos hp
    rw [happ]
    exact ⟨[], Act.bind_run_error (h.register_full hd hp),
      .nil (.inl ⟨h, .refl d⟩) ⟨h, .refl d⟩⟩

/-- The origin object of the event fits, when it gets one. -/
def OriginFits (X : Codec) (env : Env) (ref : Bytes) (kind : EventKind) : Prop :=
  TakesOrigin ref kind → (turnText X env.project.val).length ≤ objectBytes

instance (X : Codec) (env : Env) (ref : Bytes) (kind : EventKind) :
    Decidable (OriginFits X env ref kind) := inferInstanceAs (Decidable (_ → _))

/-- **An append does what `SourceState.append` says**, and leaves the origin object of a turn. -/
theorem SourceAt.eventStore_run (h : SourceAt D Good d st) {input : EventInput}
    (hc : input.Checked) (hi : input.scope.val ≠ indexName) (hg : Good (turnText X env.project.val))
    (hl : OriginFits X env input.objectRef.val kind) :
    ∃ ws, eventStore D X env input kind d = ⟨ws,
        (st.append D input.scope.val (newEvent D X env input kind)).2.map fun _ => env.id.val⟩ ∧
      Steps RowCut d ws
        (fun d' => Holds D Good d st d' ∨ Holds D Good d (st.register input.scope.val) d' ∨
          Holds D Good d (st.append D input.scope.val (newEvent D X env input kind)).1 d')
        fun d' => Holds D Good d (st.append D input.scope.val (newEvent D X env input kind)).1 d' ∧
          (TakesOrigin input.objectRef.val kind →
            d' (objectFile (eventRef D X env input.objectRef.val kind)) ≠ none) := by
  have hdirs := h.dirs_steps hc.scope hi
  obtain ⟨h1, hd1⟩ := hdirs.final
  have hready1 : Ready (applyAll (dirWrites d input.scope.val) d) input.scope.val := by
    rw [hd1]
    exact ready_made
  obtain ⟨ws, hobj, hosteps⟩ := h1.1.eventObject_run env hg hl
  obtain ⟨h2, hsame, hthere⟩ := hosteps.final
  have hready2 := hready1.congr (hsame _ (not_objectArea_scopes _)) (hsame _ (not_objectArea_scopes _))
  obtain ⟨vs, htail, htsteps⟩ := h2.1.storeTail_run env hc.scope hi hready2
    (e := newEvent D X env input kind) (newEvent_fields hc kind)
  refine ⟨dirWrites d input.scope.val ++ (ws ++ vs), ?_, (hdirs.weaken (fun _ h => .inl h)
    fun _ h => h).append (.append (hosteps.weaken (fun _ h => .inl (h1.trans h)) fun _ h => h)
      (Steps.weaken ⟨htsteps.crash, htsteps.final⟩ (fun d' hd' => ?_) fun d' hd' => ?_))⟩
  · exact Act.bind_run_run (sourceScopePath_run (h.scope _ hc.scope hi).dirs eventsName .io)
      (Act.bind_run_run hobj htail)
  · exact hd'.imp (fun h => h1.trans (h2.trans h))
      (Or.imp (fun h => h1.trans (h2.trans h)) fun h => h1.trans (h2.trans h))
  · refine ⟨h1.trans (h2.trans hd'), fun ht => ?_⟩
    rw [hd'.2 _ (hthere ht)]
    exact hthere ht

/-- An append whose origin object is too large fails before it changes anything. -/
theorem SourceAt.eventStore_limit (h : SourceAt D Good d st) {input : EventInput}
    (hc : input.Checked) (hi : input.scope.val ≠ indexName)
    (hl : ¬ OriginFits X env input.objectRef.val kind) :
    ∃ ws, eventStore D X env input kind d = ⟨ws, .error .limit⟩ ∧
      Steps RowCut d ws (Holds D Good d st) (Holds D Good d st) := by
  rw [OriginFits, Classical.not_imp, Nat.not_le] at hl
  have hrun := Act.bind_run_run (f := fun path => do
    let ref ← eventObject D X env input.objectRef.val kind
    registerScope input.scope.val
    let _ ← eventLogAppend D path
      { sequence := 0, at_ := env.now.val, kind, pinned := input.pinned, id := env.id.val
        objectRef := ref, text := input.text.val }
    pure env.id.val)
    (sourceScopePath_run (h.scope _ hc.scope hi).dirs eventsName .io)
    (Act.bind_run_error (eventObject_limit hl.1 hl.2))
  exact ⟨_, hrun, by
    rw [List.append_nil]
    exact (h.dirs_steps hc.scope hi).weaken (fun _ h => h) fun _ h => h.1⟩

/-- The kind of the event, when the checks of the append pass. -/
def EventInput.check (input : EventInput) : Option EventKind :=
  if sourceScopeValid input.scope.val = true ∧ utf8Valid input.text.val = true ∧
      (input.objectRef.val = [] ∨ sourceObjectValid input.objectRef.val = true) then
    eventKindOf input.kind
  else none

theorem EventInput.check_some {input : EventInput} (h : input.check = some kind) :
    input.Checked ∧ eventKindOf input.kind = some kind := by
  rw [check] at h
  split at h
  · next hc => exact ⟨⟨hc.1, hc.2.1, hc.2.2⟩, h⟩
  · cases h

theorem eventCommit_some {input : EventInput} (h : input.check = some kind) (d : Disk) :
    eventCommit D X env input d = eventStore D X env input kind d := by
  obtain ⟨hc, hk⟩ := EventInput.check_some h
  refine (require_bind hc.scope).trans ?_
  rw [hk]
  exact require_bind ⟨hc.utf8, hc.object⟩

theorem eventCommit_none {input : EventInput} (h : input.check = none) (d : Disk) :
    eventCommit D X env input d = ⟨[], .error .invalid⟩ := by
  rw [EventInput.check] at h
  by_cases hs : sourceScopeValid input.scope.val = true
  · refine (require_bind hs).trans ?_
    cases hk : eventKindOf input.kind with
    | none => rfl
    | some k =>
      refine require_bind_fail fun hc => ?_
      rw [if_pos ⟨hs, hc⟩, hk] at h
      cases h
  · exact require_bind_fail hs

end

end Asper
