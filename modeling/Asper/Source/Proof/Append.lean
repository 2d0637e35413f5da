import Asper.Source.Proof.Pending

/-! # Runs of appends

* `SourceAt.eventAppend_run`: `asper_event_append` as the host sees it, with the note to the
  curation queue.
* `eventStore_index`: no event reaches the scope whose name the registry takes.
* `Appended.state`: after any run of successful appends the disk holds the scopes and events of
  the run. -/

namespace Asper

open Durable

/-- A result that is an error. -/
def Failed {α : Type} (r : Except Err α) : Prop := ∃ e, r = .error e

theorem Failed.ne_ok {α : Type} {r : Except Err α} {a : α} (h : Failed r) : r ≠ .ok a := by
  obtain ⟨e, rfl⟩ := h
  simp

theorem Failed.bind {α β : Type} {m : Io α} {f : α → Io β} {d : Disk} (h : Failed (m.result d)) :
    Failed ((m >>= f).result d) :=
  h.imp fun _ he => Act.result_bind_error he

/-- A sequence fails when its second part fails on every value of the first. -/
theorem Failed.bind_of {α β : Type} {m : Io α} {f : α → Io β} {d : Disk}
    (h : ∀ a, m.result d = .ok a → Failed ((f a).result (m.final d))) :
    Failed ((m >>= f).result d) := by
  cases hm : m.result d with
  | error e => exact .bind ⟨e, hm⟩
  | ok a =>
    rw [Act.result_bind hm]
    exact h a hm

section
variable {D : Digest} {Good : Bytes → Prop} {d d' : Disk} {s : Bytes} {st : SourceState}
  {X : Codec} {env : Env} {input : EventInput} {kind : EventKind} {m m' : Source}

/-! ## The name of the registry -/

theorem confined_eventObject (D : Digest) (X : Codec) (env : Env) (kind : EventKind)
    (ref : Bytes) : Act.Confined objectArea (eventObject D X env ref kind) :=
  .ite (.pure _) (.ite (confined_objectPut ..) (.pure _))

/-- A directory in the place of the registry stops every registration. -/
theorem registerScope_blocked (h1 : d scopesDir = some .dir) (h2 : d scopeIndex = some .dir) :
    Failed ((registerScope s).result d) := by
  have hm : mkdirWrites d scopesDir = [] := by rw [mkdirWrites, if_neg (by simp [h1])]
  have hrun := orFail_run .io (osMkdirP_scopesDir (.inr h1))
  rw [hm] at hrun
  have hb := blob_child (ascii "index.log") (find_scopesDir h1)
  have h2' : d (scopesDir ++ [ascii "index.log"]) = some .dir := h2
  rw [h2'] at hb
  have hopen : osBlobOpen scopeIndex d = ⟨[], .error .invalid⟩ := by
    rw [osBlobOpen, Act.read]
    exact congrArg _ hb
  have hread : orElse (sourceTextRead scopeIndex scopeIndexBytes) .notFound [] d =
      ⟨[], .error .invalid⟩ := by
    have ht : sourceTextRead scopeIndex scopeIndexBytes d = ⟨[], .error .invalid⟩ :=
      Act.bind_run_error hopen
    exact Act.bind_run (Act.attempt_run ht)
  refine ⟨.invalid, ?_⟩
  have hb := Act.bind_run_run (f := fun _ => do
    let data ← orElse (sourceTextRead scopeIndex scopeIndexBytes) .notFound []
    require (data = [] ∨ data.getLast? = some 10) .parse
    addScopeRow s data) hrun (Act.bind_run_error hread)
  exact congrArg Outcome.result hb

/-- No event is stored under the name of the registry. -/
theorem SourceAt.eventStore_index (h : SourceAt D Good d st) (hs : input.scope.val = indexName) :
    Failed ((eventStore D X env input kind).result d) := by
  rw [eventStore, hs]
  rcases h.registry.file with ⟨hf, -⟩ | hf
  · -- the directory is made, and the registration meets it
    have hdirs : DirsOk d indexName := ⟨h.registry.dir, .inl hf⟩
    have hrun := sourceScopePath_run hdirs (ascii "events.log") .io
    refine Failed.bind_of fun path _ => Failed.bind_of fun ref _ => Failed.bind ?_
    have hfin : (sourceScopePath indexName (ascii "events.log") .io).final d = made d indexName := by
      rw [Act.final, Act.writes, hrun, applyAll_dirWrites hdirs]
    have hother {p : Path} (hp : ¬ objectArea p) := (confined_eventObject D X env kind
      input.objectRef.val).final_other (made d indexName) hp
    rw [hfin]
    refine registerScope_blocked ?_ ?_
    · exact (hother (not_objectArea_scopes _)).trans made_scopes
    · exact (hother (not_objectArea_scopes _)).trans made_dir
  · -- the registry is a file, so the directory cannot be made
    refine Failed.bind ⟨.io, ?_⟩
    have h1 := orFail_run .io (osMkdirP_scopesDir h.registry.dir)
    have hd1 : applyAll (mkdirWrites d scopesDir) d scopesDir = some .dir := by
      rw [applyAll_mkdirWrites h.registry.dir, Disk.set_self]
    have hf1 : applyAll (mkdirWrites d scopesDir) d scopeIndex =
        some (.file (joinRows st.scopes)) := by
      rw [applyAll_mkdirWrites h.registry.dir, Disk.set_ne _ _ (by decide), hf]
    have hstep : mkdirStep scopeIndex (applyAll (mkdirWrites d scopesDir) d) = ⟨[], .error .io⟩ := by
      rw [mkdirStep, Act.bind_run (w := []) (a := some (.file (joinRows st.scopes)))
        (by rw [Act.look, hf1])]
      rfl
    have hdir := mkdirStep_run (.inr hd1)
    have hn : mkdirWrites (applyAll (mkdirWrites d scopesDir) d) scopesDir = [] := by
      rw [mkdirWrites, if_neg (by simp [hd1])]
    rw [hn] at hdir
    have hmk : osMkdirP (scopeDir indexName) (applyAll (mkdirWrites d scopesDir) d) =
        ⟨[], .error .io⟩ :=
      Act.bind_run_run (f := fun _ => mkdirFrom scopesDir [indexName]) hdir
        (Act.bind_run_error (f := fun _ => mkdirFrom scopeIndex []) hstep)
    have hfail : orFail (osMkdirP (scopeDir indexName)) .io
        (applyAll (mkdirWrites d scopesDir) d) = ⟨[], .error .io⟩ :=
      (Act.bind_run (Act.attempt_run hmk)).trans rfl
    have hall := Act.bind_run_run (f := fun _ => do
      orFail (osMkdirP (scopeDir indexName)) .io
      pure (scopeFile indexName (ascii "events.log"))) h1 (Act.bind_run_error hfail)
    exact congrArg Outcome.result hall

/-! ## The whole append -/

/-- What happens to the state when an event passes the checks. -/
def SourceState.appendInput (D : Digest) (X : Codec) (st : SourceState) (env : Env)
    (input : EventInput) (kind : EventKind) : SourceState × Except Err Unit :=
  if OriginFits X env input.objectRef.val kind then
    st.append D input.scope.val (newEvent D X env input kind)
  else (st, .error .limit)

/-- The state only grew. -/
structure Grows (st st' : SourceState) : Prop where
  scopes : ∀ s ∈ st.scopes, s ∈ st'.scopes
  events : ∀ s, st.events s <+: st'.events s

theorem Grows.refl (st : SourceState) : Grows st st := ⟨fun _ h => h, fun _ => List.prefix_refl _⟩

theorem Grows.trans {st st' st'' : SourceState} (h : Grows st st') (h' : Grows st' st'') :
    Grows st st'' :=
  ⟨fun s hs => h'.scopes s (h.scopes s hs), fun s => (h.events s).trans (h'.events s)⟩

theorem SourceOk.grow {st st' : SourceState} (h : SourceOk st m) (hg : Grows st st') :
    SourceOk st' m := fun p hp =>
  ⟨fun x hx => ⟨hg.scopes _ ((h p hp).scopes x hx).listed, ((h p hp).scopes x hx).cursor,
    Nat.le_trans ((h p hp).scopes x hx).stop (hg.events _).length_le⟩, (h p hp).nodup⟩

theorem grows_register (st : SourceState) (s : Bytes) : Grows st (st.register s) := by
  refine ⟨fun x hx => ?_, fun _ => by simp⟩
  rw [SourceState.register]
  split
  · exact hx
  · exact List.mem_append.2 (.inl hx)

theorem grows_push (st : SourceState) (s : Bytes) (e : Event) : Grows st (st.push s e) := by
  refine ⟨fun _ h => h, fun x => ?_⟩
  rw [SourceState.push, SourceState.setEvents]
  dsimp only
  by_cases hx : x = s
  · subst hx
    rw [Function.update_self]
    exact List.prefix_append ..
  · simp [Function.update_of_ne hx]

/-- A successful append registers the scope and adds the event at the end of its log. -/
theorem appendInput_ok (h : (st.appendInput D X env input kind).2 = .ok ()) :
    (st.appendInput D X env input kind).1 =
      (st.register input.scope.val).push input.scope.val (newEvent D X env input kind) := by
  rw [SourceState.appendInput] at h ⊢
  split at h
  · next hl =>
    rw [if_pos hl]
    rw [SourceState.append] at h ⊢
    split at h
    · cases h
    · next hp =>
      split at h
      · cases h
      · next hr => rw [if_neg hp, if_neg hr]
  · cases h

theorem appendInput_grows (h : (st.appendInput D X env input kind).2 = .ok ()) :
    Grows st (st.appendInput D X env input kind).1 ∧
      input.scope.val ∈ (st.appendInput D X env input kind).1.scopes := by
  rw [appendInput_ok h]
  exact ⟨(grows_register st _).trans (grows_push _ _ _), mem_register st _⟩

theorem SourceAt.eventCommit_run (env : Env) (h : SourceAt D Good d st) (hk : input.check = some kind)
    (hi : input.scope.val ≠ indexName) (hg : Good (turnText X env.project.val)) :
    ∃ ws, eventCommit D X env input d =
        ⟨ws, (st.appendInput D X env input kind).2.map fun _ => env.id.val⟩ ∧
      Steps RowCut d ws
        (fun d' => Holds D Good d st d' ∨ Holds D Good d (st.register input.scope.val) d' ∨
          Holds D Good d (st.appendInput D X env input kind).1 d')
        fun d' => Holds D Good d (st.appendInput D X env input kind).1 d' ∧
          ((st.appendInput D X env input kind).2 = .ok () → TakesOrigin input.objectRef.val kind →
            d' (objectFile (eventRef D X env input.objectRef.val kind)) ≠ none) := by
  obtain ⟨hc, -⟩ := EventInput.check_some hk
  rw [eventCommit_some hk]
  by_cases hl : OriginFits X env input.objectRef.val kind
  · have heq : st.appendInput D X env input kind =
        st.append D input.scope.val (newEvent D X env input kind) := if_pos hl
    obtain ⟨ws, hrun, hsteps⟩ := h.eventStore_run hc hi hg hl
    rw [heq]
    exact ⟨ws, hrun, hsteps.weaken (fun _ h => h) fun _ h => ⟨h.1, fun _ => h.2⟩⟩
  · have heq : st.appendInput D X env input kind = (st, .error .limit) := if_neg hl
    obtain ⟨ws, hrun, hsteps⟩ := h.eventStore_limit hc hi hl
    rw [heq]
    exact ⟨ws, hrun, hsteps.weaken (fun _ h => .inl h) fun _ h => ⟨h, fun hn => nomatch hn⟩⟩

/-- **An append** does to the state what `SourceState.appendInput` says, with its result; the note
to the queue changes nothing. -/
theorem SourceAt.eventAppend_run (h : SourceAt D Good d st) (hm : SourceOk st m)
    (hk : input.check = some kind) (hi : input.scope.val ≠ indexName)
    (hg : Good (turnText X env.project.val)) :
    ∃ ws r, eventAppend D X env input m d = ⟨ws, r⟩ ∧
      (r.map fun a => a.1) = (st.appendInput D X env input kind).2.map (fun _ => env.id.val) ∧
      (∀ a, r = .ok a → MemGives (st.appendInput D X env input kind).1 m a.2) ∧
      Steps RowCut d ws
        (fun d' => Holds D Good d st d' ∨ Holds D Good d (st.register input.scope.val) d' ∨
          Holds D Good d (st.appendInput D X env input kind).1 d')
        fun d' => Holds D Good d (st.appendInput D X env input kind).1 d' ∧
          ((st.appendInput D X env input kind).2 = .ok () → TakesOrigin input.objectRef.val kind →
            d' (objectFile (eventRef D X env input.objectRef.val kind)) ≠ none) := by
  obtain ⟨hc, -⟩ := EventInput.check_some hk
  obtain ⟨ws, hrun, hsteps⟩ := h.eventCommit_run env hk hi hg
  cases hr : (st.appendInput D X env input kind).2 with
  | error e =>
    rw [hr] at hrun hsteps
    exact ⟨ws, .error e, Act.bind_run_error hrun, rfl, (fun _ hn => nomatch hn), hsteps⟩
  | ok u =>
    rw [hr] at hrun hsteps
    have hrun' : eventCommit D X env input d = ⟨ws, .ok env.id.val⟩ := hrun
    cases hrole : (eventKindOf input.kind).bind roleOf with
    | none =>
      have hpure := Act.bind_run_run (f := fun id => (pure (id, m) : Io (Bytes × Source))) hrun' rfl
      rw [List.append_nil] at hpure
      refine ⟨ws, .ok (env.id.val, m), ?_, rfl,
        (fun a ha => Except.ok.inj ha ▸ ⟨hm.grow (appendInput_grows hr).1, rfl⟩), hsteps⟩
      simp only [eventAppend, hrole]
      exact hpure
    | some role =>
      obtain ⟨h1, hobj⟩ := hsteps.final
      have hkeep (d' : Disk) := pendingNote_keeps D X Good d'
        (fun s hs => h1.1.named_scopes hs) (hm.grow (appendInput_grows hr).1)
        (appendInput_grows hr).2
      have hnote := (hkeep _).steps (applyAll ws d) ⟨h1.1, .refl _⟩
      obtain ⟨⟨m', r⟩, hm'⟩ :=
        (total_pendingNote (D := D) (X := X) m input.scope.val).ok (applyAll ws d)
      have hrunN : pendingNote D X m input.scope.val (applyAll ws d) =
          ⟨(pendingNote D X m input.scope.val).writes (applyAll ws d), .ok (m', r)⟩ := by
        rw [← hm']
        rfl
      refine ⟨_ ++ _, .ok (env.id.val, m'), ?_, rfl, (fun a ha => ?_), hsteps.append
        (hnote.weaken (fun d' h' => .inr (.inr (h1.trans h'))) fun d' h' =>
          ⟨h1.trans h', fun ho ht => ?_⟩)⟩
      · have hall := Act.bind_run_run (f := fun mr => (pure (env.id.val, mr.1) : Io (Bytes × Source)))
          hrunN rfl
        rw [List.append_nil] at hall
        simp only [eventAppend, hrole]
        exact Act.bind_run_run hrun' hall
      · exact Except.ok.inj ha ▸ (hkeep _).value _ _ ⟨h1.1, .refl _⟩ hm'
      · rw [h'.2 _ (hobj ho ht)]
        exact hobj ho ht

/-! ## Runs -/

/-- No source was stored on the disk yet. -/
def NoSource (d : Disk) : Prop := ∀ q, d (ascii "scopes" :: q) = none ∧ d (ascii "objects" :: q) = none

theorem NoSource.state (h : NoSource d) : SourceAt D Good d .empty where
  registry := ⟨.inl (h _).1, .inl ⟨(h _).1, rfl⟩, fun _ hs => absurd hs List.not_mem_nil, .nil,
    Nat.zero_le _⟩
  names := List.not_mem_nil
  scope s _ _ := by
    refine ⟨⟨.inl (h _).1, .inl (h _).1⟩, ⟨[], ⟨find_scopeDir made_scopes made_dir, trivial,
      frameRead_nil D, Nat.zero_le _, .inr ⟨?_, rfl, rfl⟩, .inl ?_, ?_⟩⟩, .inl ⟨(h _).1, rfl⟩,
      fun _ hp => absurd hp List.not_mem_nil, Nat.zero_le _⟩
    · exact (made_file _).trans (h _).1
    · rw [indexPath_concat]
      exact (made_file _).trans (h _).1
    · rw [indexTmp_concat]
      exact fun hd => by cases ((made_file _).trans (h _).1).symm.trans hd
  objects := ⟨.inl (h _).2, fun _ => .inl (h _).2, fun _ _ hd => by cases (h _).2.symm.trans hd⟩
  listed s hs := absurd rfl hs

/-- A run of successful appends, from the disk `d` and the memory `m`. -/
inductive Appended (D : Digest) (X : Codec) (d : Disk) (m : Source) :
    List (Env × EventInput) → Disk → Source → Prop where
  | nil : Appended D X d m [] d m
  | append {log : List (Env × EventInput)} {d' : Disk} {m' m'' : Source} {env : Env}
      {input : EventInput} {ws : List Write} {id : Bytes} (run : Appended D X d m log d' m')
      (ok : eventAppend D X env input m' d' = ⟨ws, .ok (id, m'')⟩) :
      Appended D X d m (log ++ [(env, input)]) (applyAll ws d') m''

/-- A successful append passed the checks, is not for the name of the registry and found room. -/
theorem SourceAt.append_ok (h : SourceAt D Good d st)
    (hg : ∀ p : ActiveProject, Good (turnText X p.val)) (hm : SourceOk st m) {ws : List Write} {a : Bytes × Source}
    (hok : eventAppend D X env input m d = ⟨ws, .ok a⟩) :
    ∃ kind, input.check = some kind ∧ input.scope.val ≠ indexName ∧
      (st.appendInput D X env input kind).2 = .ok () ∧
      MemGives (st.appendInput D X env input kind).1 m a.2 ∧
      Holds D Good d (st.appendInput D X env input kind).1 (applyAll ws d) ∧
      (TakesOrigin input.objectRef.val kind →
        applyAll ws d (objectFile (eventRef D X env input.objectRef.val kind)) ≠ none) := by
  cases hk : input.check with
  | none =>
    have hfail : eventAppend D X env input m d = ⟨[], .error .invalid⟩ :=
      Act.bind_run_error (eventCommit_none hk d)
    rw [hfail] at hok
    cases hok
  | some kind =>
    have hi : input.scope.val ≠ indexName := fun hi => by
      have hf : Failed ((eventAppend D X env input m).result d) := by
        refine Failed.bind ?_
        rw [Act.result, eventCommit_some hk]
        exact h.eventStore_index hi
      rw [Act.result, hok] at hf
      exact hf.ne_ok rfl
    obtain ⟨ws', r, hrun, hr, hn, hsteps⟩ := h.eventAppend_run hm hk hi (hg env.project)
    rw [hrun] at hok
    cases hok
    have hres : (st.appendInput D X env input kind).2 = .ok () := by
      cases hx : (st.appendInput D X env input kind).2 with
      | ok u => rfl
      | error e => rw [hx] at hr; cases hr
    exact ⟨kind, rfl, hi, hres, hn _ rfl, hsteps.final.1, hsteps.final.2 hres⟩

theorem appendInput_scopes (hok : (st.appendInput D X env input kind).2 = .ok ()) {x : Bytes} :
    x ∈ (st.appendInput D X env input kind).1.scopes ↔ x ∈ st.scopes ∨ x = input.scope.val := by
  rw [appendInput_ok hok]
  show x ∈ (st.register input.scope.val).scopes ↔ _
  rw [SourceState.register]
  split
  · next hs => exact ⟨.inl, fun h => h.elim id (· ▸ hs)⟩
  · simp

/-- **After a run of appends** the disk holds a state whose scopes are those of the run. -/
theorem Appended.state (Good : Bytes → Prop) {log : List (Env × EventInput)}
    (hg : ∀ p : ActiveProject, Good (turnText X p.val)) (h : SourceAt D Good d .empty)
    (hm : SourceOk .empty m) (run : Appended D X d m log d' m') :
    ∃ st, SourceAt D Good d' st ∧ SourceOk st m' ∧
      ∀ x, x ∈ st.scopes ↔ ∃ a ∈ log, a.2.scope.val = x := by
  induction run with
  | nil => exact ⟨.empty, h, hm, by simp [SourceState.empty]⟩
  | append run ok ih =>
    obtain ⟨st, hst, hm', hscopes⟩ := ih
    obtain ⟨kind, -, -, hres, hn, hold, -⟩ := hst.append_ok hg hm' ok
    refine ⟨_, hold.1, hn.1, fun x => ?_⟩
    rw [appendInput_scopes hres, hscopes]
    simp [or_and_right, exists_or, eq_comm]

end

/-! ## A store to run -/

/-- The disk before anything was stored, and the memory of a store just opened. -/
def emptyDisk : Disk := fun _ => none

theorem noSource_empty : NoSource emptyDisk := fun _ => ⟨rfl, rfl⟩

def idle : Source := ⟨none, ⟨256, [], 0, 0⟩, [], false⟩

theorem idle_ok (st : SourceState) : SourceOk st idle := fun _ hp => nomatch hp

/-- The text of an event. -/
def spoken : CStr := ⟨ascii "x", by decide⟩

/-- The scope `a`. -/
def scopeA : CStr := ⟨ascii "a", by decide⟩

/-- A digest and a codec to run the store with. -/
def zeroDigest : Digest := ⟨fun _ => List.replicate 32 0, fun _ => List.length_replicate⟩

def projectHead : Bytes := ascii "#turn \x7b\"project\":\""

def plainCodec : Codec where
  projectJson p := ascii "\x7b\"project\":\"" ++ p ++ ascii "\"\x7d"
  parse s :=
    if s.take projectHead.length = projectHead ∧ s.drop (s.length - 2) = ascii "\"\x7d" then
      some [.mk [ascii "turn"] (.object [(ascii "project",
        (XValue.string ((s.drop projectHead.length).dropLast.dropLast)).node)])]
    else none

def plainEnv : Env := ⟨uuidV4 fun _ => 0, uuidV4 fun _ => 0, ⟨0, by decide⟩, ⟨[], .inl rfl⟩⟩

end Asper
