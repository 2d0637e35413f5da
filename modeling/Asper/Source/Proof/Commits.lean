import Asper.Source.Commits
import Asper.Source.Proof.Touch
import Asper.Source.Proof.Append
import Asper.Source.Proof.View
import Mathlib.Data.List.Induction

/-! # Concurrent commits and the checkpoint file

Every step of a commit keeps the state of the store: `CommitCall.put_ok`, `append_ok` and
`replace_ok` say what a step that succeeds did. `CommitsInv` ties a run of interleaved steps to the
disk: the log ends with the text appended last, the file holds the text put there last. Loading
prefers the file (`checkpointLoad_file`, `checkpointLoad_log`), so that file and log agree exactly
when these are the same text (`commits_agree_iff`). -/

namespace Asper

open Durable

section
variable {D : Digest} {X : Codec} {Good : Bytes → Prop} {d d' : Disk} {s : Bytes}
  {st : SourceState} {es : List Event} {ps : List Pin}

/-! ## The names of the checkpoint -/

def checkpointTmp (s : Bytes) : Path := scopeFile s (ascii "checkpoint.txt" ++ ascii ".tmp")

theorem checkpointFile_ext (s : Bytes) : ext (checkpointFile s) (ascii ".tmp") = checkpointTmp s :=
  ext_concat ..

theorem checkpointTmp_ne (s : Bytes) : checkpointTmp s ≠ checkpointFile s := fun h =>
  absurd (List.singleton_inj.1 (List.append_cancel_left h)) (by decide)

/-- A name in the directory of a scope that no other part of the store uses. -/
structure FreeName (n : Bytes) : Prop where
  log : ∀ s, scopeFile s n ∉ logFiles (scopeDir s) eventsName
  pins : ∀ s, scopeFile s n ≠ pinsFile s

theorem freeName_of {n : Bytes} (h1 : n ≠ eventsName) (h2 : n ≠ eventsName ++ ascii ".idx")
    (h3 : n ≠ eventsName ++ ascii ".idx" ++ ascii ".tmp") (h4 : n ≠ ascii "pins.log") :
    FreeName n where
  log s := by
    simp only [logFiles, List.mem_cons, List.not_mem_nil, or_false, indexPath_concat,
      indexTmp_concat, scopeFile, List.append_cancel_left_eq, List.cons.injEq, and_true, h1, h2, h3,
      or_self, not_false_eq_true]
  pins s h := h4 (List.singleton_inj.1 (List.append_cancel_left h))

theorem freeName_checkpoint : FreeName (ascii "checkpoint.txt") :=
  freeName_of (by decide) (by decide) (by decide) (by decide)

theorem freeName_checkpointTmp : FreeName (ascii "checkpoint.txt" ++ ascii ".tmp") :=
  freeName_of (by decide) (by decide) (by decide) (by decide)

/-- A change of a file of free name. -/
theorem SourceAt.free (h : SourceAt D Good d st) {n : Bytes} (hn : FreeName n)
    (x : Option Node) : SourceAt D Good (d.set (scopeFile s n) x) st := by
  have hd : ∀ p, p ≠ scopeFile s n → (d.set (scopeFile s n) x) p = d p := fun p hp =>
    Disk.set_ne _ _ hp
  have hd' : ∀ p, (∀ n, p ≠ scopeFile s n) → (d.set (scopeFile s n) x) p = d p := fun p hp =>
    hd p (hp _)
  refine ⟨h.registry_file hd', h.names, fun s' hv hi => ?_, h.objects_file hd', h.listed⟩
  by_cases hs : s' = s
  · subst hs
    obtain ⟨t, hl⟩ := (h.scope s' hv hi).log
    have hdirs := (h.scope s' hv hi).dirs
    refine ⟨⟨?_, ?_⟩, ⟨t, hl.congr (find_scopeDir made_scopes made_dir) fun p hm => ?_⟩, ?_⟩
    · rw [DirOk, hd' _ fun n => (scopeFile_ne n).1.symm]
      exact hdirs.scopes
    · rw [DirOk, hd' _ fun n => (scopeFile_ne n).2.symm]
      exact hdirs.dir
    · obtain ⟨m, rfl⟩ := logFiles_scope hm
      rw [made_file, made_file]
      exact hd _ fun he => hn.log s' (he ▸ hm)
    · exact (h.scope s' hv hi).pins.congr (hd _ (hn.pins s').symm)
  · exact h.other hv hi hs hd'

/-! ## The steps of a commit -/

/-- What an appended text passed. -/
structure TextOk (t : Bytes) : Prop where
  no_nul : 0 ∉ t
  utf8 : utf8Valid t = true
  size : t.length ≤ eventBytes

/-- What an appended commit passed. -/
structure CommitCall.Accepted (c : CommitCall) : Prop where
  scope : sourceScopeValid c.scope.val = true
  index : c.scope.val ≠ indexName
  text : TextOk c.text.val

/-- A stored object changes nothing but the objects. -/
theorem CommitCall.put_ok {c : CommitCall} {ref : Bytes} (h : SourceAt D (fun _ => True) d st)
    (hr : (c.put D).result d = .ok ref) :
    SourceAt D (fun _ => True) ((c.put D).final d) st ∧
      (∀ p, ¬ objectArea p → (c.put D).final d p = d p) ∧ ref = objectRef D c.text.val := by
  obtain ⟨_, hreq, hput⟩ := Act.bind_eq_ok hr
  have hfin : (c.put D).final d = (objectPut D c.text.val c.env.tmp).final d := by
    rw [put, Act.final_bind hreq, require, if_pos (require_ok hreq)]
    rfl
  rw [require, if_pos (require_ok hreq)] at hput
  obtain ⟨_, hsize, -⟩ := Act.bind_eq_ok hput
  obtain ⟨ws, hrun, hsteps⟩ := objectPut_run h.objects c.env.tmp trivial (require_ok hsize)
  have hother : ∀ p, ¬ objectArea p → (objectPut D c.text.val c.env.tmp).final d p = d p :=
    fun p hp => (confined_objectPut D c.text.val c.env.tmp).final_other d hp
  have hws : (objectPut D c.text.val c.env.tmp).final d = applyAll ws d := by
    rw [Act.final, Act.writes, hrun]
  rw [hfin]
  refine ⟨h.objects' (hws ▸ (hsteps fun _ _ => True).final.1) hother, hother, ?_⟩
  have hres : (objectPut D c.text.val c.env.tmp).result d = .ok ref := hput
  rw [Act.result, hrun] at hres
  exact (Except.ok.inj hres).symm

/-- The nodes an append to `s` works on. -/
def appendArea (s : Bytes) (p : Path) : Prop :=
  p = scopesDir ∨ p = scopeIndex ∨ p = scopeDir s ∨ p ∈ logFiles (scopeDir s) eventsName ∨
    objectArea p

theorem appendIn_area (s : Bytes) : AppendIn (appendArea s) s := by
  have hdir : Covers (appendArea s) (scopeDir s) := covers_pair (.inl rfl) (.inr (.inr (.inl rfl)))
  have hfile : ∀ {n : Bytes}, scopeFile s n ∈ logFiles (scopeDir s) eventsName →
      Covers (appendArea s) (scopeFile s n) := fun hn =>
    covers_concat hdir (.inr (.inr (.inr (.inl hn))))
  refine ⟨.inl rfl, .inr (.inl rfl), .inr (.inr (.inl rfl)), ⟨hfile ?_, ?_, ?_, scopeFile_ne_nil _ _⟩,
    fun p hp => .inr (.inr (.inr (.inr hp)))⟩
  · simp [logFiles, scopeFile]
  · rw [scopeFile, indexPath_concat]
    refine hfile ?_
    rw [scopeFile, ← indexPath_concat]
    simp [logFiles]
  · rw [scopeFile, indexTmp_concat]
    refine hfile ?_
    rw [scopeFile, ← indexTmp_concat]
    simp [logFiles]

theorem FreeName.not_append {n : Bytes} (hn : FreeName n) (s s' : Bytes) :
    ¬ appendArea s (scopeFile s' n) := by
  rintro (h | h | h | h | h)
  · exact (scopeFile_ne _).1 h
  · exact scopeFile_ne_index _ _ h
  · exact scopeFile_ne_dir _ _ _ h
  · obtain ⟨m, hm⟩ := logFiles_scope h
    obtain rfl := scopeFile_scope hm
    exact hn.log _ h
  · exact not_objectArea_scopes _ h

theorem appendInput_room {env : Env} {input : EventInput} {kind : EventKind}
    (h : (st.appendInput D X env input kind).2 = .ok ()) :
    input.text.val.length ≤ eventBytes := by
  rw [SourceState.appendInput] at h
  split at h
  · rw [SourceState.append] at h
    split at h
    · cases h
    · split at h
      · cases h
      · next hr => exact (not_not.1 hr).1
  · cases h

/-- The event a commit appends. -/
def CommitCall.event (D : Digest) (X : Codec) (c : CommitCall) (ref : Bytes) : Event :=
  newEvent D X c.env (c.input ref) .checkpoint

/-- The files of free names an append leaves alone. -/
theorem CommitCall.append_free (c : CommitCall) (ref : Bytes) {n : Bytes} (hn : FreeName n)
    (s : Bytes) : (c.append D X ref).final d (scopeFile s n) = d (scopeFile s n) :=
  (confined_eventCommit D X c.env (c.input ref) (appendIn_area _)).final_other d
    (hn.not_append _ _)

/-- A successful append adds a checkpoint with the text of the commit to the log of its scope. -/
theorem CommitCall.append_ok {c : CommitCall} {ref id : Bytes}
    (h : SourceAt D (fun _ => True) d st) (hr : (c.append D X ref).result d = .ok id) :
    c.Accepted ∧ SourceAt D (fun _ => True) ((c.append D X ref).final d)
      ((st.register c.scope.val).push c.scope.val (c.event D X ref)) := by
  have hcheck : (c.input ref).check = some .checkpoint := by
    cases hk : (c.input ref).check with
    | none =>
      rw [append, Act.result, eventCommit_none hk] at hr
      cases hr
    | some k => exact congrArg _ (Option.some.inj (EventInput.check_some hk).2).symm
  obtain ⟨hc, -⟩ := EventInput.check_some hcheck
  have hi : c.scope.val ≠ indexName := fun hi => by
    have hf : Failed ((c.append D X ref).result d) := by
      rw [append, Act.result, eventCommit_some hcheck]
      exact h.eventStore_index hi
    exact hf.ne_ok hr
  obtain ⟨ws, hrun, hsteps⟩ := h.eventCommit_run (X := X) c.env hcheck hi trivial
  have hres : (st.appendInput D X c.env (c.input ref) .checkpoint).2 = .ok () := by
    rw [append, Act.result, hrun] at hr
    cases hx : (st.appendInput D X c.env (c.input ref) .checkpoint).2 with
    | ok u => rfl
    | error e => rw [hx] at hr; cases hr
  have hfin : (c.append D X ref).final d = applyAll ws d := by
    rw [append, Act.final, Act.writes, hrun]
  have hstate := hsteps.final.1.1
  rw [appendInput_ok hres] at hstate
  exact ⟨⟨hc.scope, hi, c.text.2, hc.utf8, appendInput_room hres⟩, by rw [hfin]; exact hstate⟩

theorem atomicText_run {q : Path} {n : Bytes} (text : Bytes) (hd : d.find q = .found .dir)
    (h1 : d (q ++ [n ++ ascii ".tmp"]) ≠ some .dir) (h2 : d (q ++ [n]) ≠ some .dir) :
    atomicText (q ++ [n]) text d =
      ⟨[.create (q ++ [n ++ ascii ".tmp"]) text, .rename (q ++ [n ++ ascii ".tmp"]) (q ++ [n])],
        .ok ()⟩ := by
  have hne : q ++ [n] ≠ q ++ [n ++ ascii ".tmp"] := fun h => by
    have := congrArg List.length (List.singleton_inj.1 (List.append_cancel_left h))
    rw [List.length_append, show (ascii ".tmp").length = 4 by decide] at this
    omega
  have hw := osWriteFile_child _ text hd h1
  have hd' : (d.set (q ++ [n ++ ascii ".tmp"]) (some (.file text))).find q = .found .dir := by
    rw [Disk.find_set_child, hd]
  have hr := osFileReplace_child (n ++ ascii ".tmp") n hd'
    (Disk.set_self d (q ++ [n ++ ascii ".tmp"]) (some (.file text)))
    (by rw [Disk.set_ne _ _ hne]; exact h2)
  have hseq := Act.bind_run_run
    (f := fun _ => osFileReplace (q ++ [n ++ ascii ".tmp"]) (q ++ [n])) hw hr
  rw [atomicText, ext_concat]
  exact (Act.bind_run (Act.attempt_run hseq)).trans rfl

/-- What stops a file from being replaced. -/
theorem atomicText_ok {q : Path} {n text : Bytes} (hd : d.find q = .found .dir)
    (h : (atomicText (q ++ [n]) text).result d = .ok ()) :
    d (q ++ [n ++ ascii ".tmp"]) ≠ some .dir ∧ d (q ++ [n]) ≠ some .dir := by
  have hne : q ++ [n] ≠ q ++ [n ++ ascii ".tmp"] := fun h => by
    have := congrArg List.length (List.singleton_inj.1 (List.append_cancel_left h))
    rw [List.length_append, show (ascii ".tmp").length = 4 by decide] at this
    omega
  -- the two parts succeeded
  have hinner : ∃ u, (do
      osWriteFile (q ++ [n ++ ascii ".tmp"]) text
      osFileReplace (q ++ [n ++ ascii ".tmp"]) (q ++ [n]) : Io Unit).result d = .ok u := by
    rw [atomicText, ext_concat] at h
    obtain ⟨r, hr, hk⟩ := Act.bind_eq_ok h
    obtain rfl := Except.ok.inj hr
    cases hx : (do
      osWriteFile (q ++ [n ++ ascii ".tmp"]) text
      osFileReplace (q ++ [n ++ ascii ".tmp"]) (q ++ [n]) : Io Unit).result d with
    | ok u => exact ⟨u, rfl⟩
    | error e =>
      rw [hx] at hk
      obtain ⟨_, -, hk⟩ := Act.bind_eq_ok hk
      cases hk
  have hblock : ∀ {d : Disk} {m : Bytes} {w : Write}, d.find q = .found .dir →
      d (q ++ [m]) = some .dir → (withWritable (q ++ [m]) w).result d = .error .io := by
    intro d m w hd hm
    have hwr : writable d (q ++ [m]) = false := by
      rw [writable, Disk.find_child_some hd hm]
    rw [Act.result, withWritable, Act.bind_run (w := []) (a := false) (by rw [Act.look, hwr])]
    rfl
  obtain ⟨u, hu⟩ := hinner
  obtain ⟨_, hw, hrep⟩ := Act.bind_eq_ok hu
  have h1 : d (q ++ [n ++ ascii ".tmp"]) ≠ some .dir := fun hx => by
    have := hblock (w := .create (q ++ [n ++ ascii ".tmp"]) text) hd hx
    rw [osWriteFile, this] at hw
    cases hw
  refine ⟨h1, fun hx => ?_⟩
  have hrun := osWriteFile_child _ text hd h1
  have hd1 : (osWriteFile (q ++ [n ++ ascii ".tmp"]) text).final d =
      d.set (q ++ [n ++ ascii ".tmp"]) (some (.file text)) := by
    rw [Act.final, Act.writes, hrun]
    rfl
  have hdir : (d.set (q ++ [n ++ ascii ".tmp"]) (some (.file text))).find q = .found .dir := by
    rw [Disk.find_set_child, hd]
  have hfind : (d.set (q ++ [n ++ ascii ".tmp"]) (some (.file text))).find
      (q ++ [n ++ ascii ".tmp"]) = .found (.file text) :=
    Disk.find_child_some hdir (Disk.set_self ..)
  rw [hd1, Act.result, osFileReplace, Act.bind_run (w := []) (a := .found (.file text))
    (by rw [Act.look, hfind])] at hrep
  have := hblock (w := .rename (q ++ [n ++ ascii ".tmp"]) (q ++ [n])) hdir
    (by rw [Disk.set_ne _ _ hne]; exact hx)
  dsimp only [applyAll_nil] at hrep
  rw [this] at hrep
  cases hrep

/-- No directory has a name of the checkpoint of `s`. -/
structure Clear (d : Disk) (s : Bytes) : Prop where
  file : d (checkpointFile s) ≠ some .dir
  tmp : d (checkpointTmp s) ≠ some .dir

theorem Clear.congr {s : Bytes} (h : Clear d s) (h1 : d' (checkpointFile s) = d (checkpointFile s))
    (h2 : d' (checkpointTmp s) = d (checkpointTmp s)) : Clear d' s :=
  ⟨h1 ▸ h.file, h2 ▸ h.tmp⟩

theorem CommitCall.replace_run {c : CommitCall} (hdirs : DirsOk d c.scope.val)
    (h : Clear d c.scope.val) :
    c.replace.result d = .ok () ∧
      c.replace.final d = ((made d c.scope.val).set (checkpointFile c.scope.val)
        (some (.file c.text.val))).set (checkpointTmp c.scope.val) none := by
  have hpath := sourceScopePath_run hdirs (ascii "checkpoint.txt") .io
  have hrun := atomicText_run c.text.val (q := scopeDir c.scope.val) (n := ascii "checkpoint.txt")
    (find_scopeDir (d := made d c.scope.val) made_scopes made_dir)
    (fun hx => h.tmp ((made_file _).symm.trans hx)) fun hx => h.file ((made_file _).symm.trans hx)
  rw [← applyAll_dirWrites hdirs] at hrun
  have hall := Act.bind_run_run (f := fun path => atomicText path c.text.val) hpath hrun
  refine ⟨congrArg Outcome.result hall, ?_⟩
  rw [Act.final, Act.writes, show c.replace d = _ from hall]
  show applyAll (dirWrites d c.scope.val ++ _) d = _
  rw [applyAll_append, applyAll_dirWrites hdirs]
  simp only [applyAll_cons, applyAll_nil]
  rw [Write.apply, Write.apply, Disk.set_self]
  funext p
  by_cases hp1 : p = checkpointTmp c.scope.val
  · rw [hp1, Disk.set_self]
    exact Disk.set_self ..
  · rw [Disk.set_ne _ _ hp1]
    refine (Disk.set_ne _ _ hp1).trans ?_
    by_cases hp2 : p = checkpointFile c.scope.val
    · rw [hp2, Disk.set_self]
      exact Disk.set_self ..
    · rw [Disk.set_ne _ _ hp2]
      exact (Disk.set_ne _ _ hp2).trans (Disk.set_ne _ _ hp1)

theorem CommitCall.replace_clear {c : CommitCall} (hdirs : DirsOk d c.scope.val)
    (h : c.replace.result d = .ok ()) : Clear d c.scope.val := by
  have hpath := sourceScopePath_run hdirs (ascii "checkpoint.txt") .io
  obtain ⟨path, hp, hat⟩ := Act.bind_eq_ok h
  obtain rfl := sourceScopePath_result hp
  rw [Act.final, Act.writes, hpath, applyAll_dirWrites hdirs] at hat
  obtain ⟨h1, h2⟩ := atomicText_ok (q := scopeDir c.scope.val) (n := ascii "checkpoint.txt")
    (find_scopeDir (d := made d c.scope.val) made_scopes made_dir) hat
  exact ⟨fun hx => h2 ((made_file _).trans hx), fun hx => h1 ((made_file _).trans hx)⟩

/-- A successful replacement leaves the text in the file of the scope and no other file changed
that the store reads. -/
theorem CommitCall.replace_ok {c : CommitCall} (h : SourceAt D Good d st)
    (hv : sourceScopeValid c.scope.val = true) (hi : c.scope.val ≠ indexName)
    (hr : c.replace.result d = .ok ()) :
    SourceAt D Good (c.replace.final d) st ∧
      c.replace.final d (checkpointFile c.scope.val) = some (.file c.text.val) ∧
      c.replace.final d (checkpointTmp c.scope.val) = none ∧
      ∀ s, s ≠ c.scope.val → c.replace.final d (checkpointFile s) = d (checkpointFile s) := by
  have hdirs := (h.scope _ hv hi).dirs
  have hst := (h.dirs_steps hv hi).final.1.1
  rw [applyAll_dirWrites hdirs] at hst
  rw [(CommitCall.replace_run hdirs (CommitCall.replace_clear hdirs hr)).2]
  refine ⟨(hst.free freeName_checkpoint _).free freeName_checkpointTmp _, ?_, Disk.set_self ..,
    fun s hs => ?_⟩
  · rw [Disk.set_ne _ _ (checkpointTmp_ne _).symm, Disk.set_self]
  · have h3 : checkpointFile s ≠ checkpointTmp c.scope.val := fun he => hs (scopeFile_scope he)
    have h4 : checkpointFile s ≠ checkpointFile c.scope.val := fun he => hs (scopeFile_scope he)
    rw [Disk.set_ne _ _ h3, Disk.set_ne _ _ h4]
    exact made_other (scopeFile_ne _).1 (scopeFile_ne_dir _ _ _)

/-! ## Steps that succeed -/

theorem CommitCall.put_goes {c : CommitCall} (h : SourceAt D (fun _ => True) d st)
    (hv : sourceScopeValid c.scope.val = true) (hu : utf8Valid c.text.val = true)
    (hl : c.text.val.length ≤ objectBytes) :
    (c.put D).result d = .ok (objectRef D c.text.val) := by
  obtain ⟨ws, hrun, -⟩ := objectPut_run h.objects c.env.tmp trivial hl
  rw [put, Act.result, require_bind ⟨hv, hu⟩, hrun]

theorem CommitCall.append_goes {c : CommitCall} {ref : Bytes}
    (h : SourceAt D (fun _ => True) d st) (hk : (c.input ref).check = some .checkpoint)
    (hi : c.scope.val ≠ indexName) (hp : st.hasPlace c.scope.val)
    (hr : st.hasRoom D c.scope.val (c.event D X ref)) :
    (c.append D X ref).result d = .ok c.env.id.val := by
  obtain ⟨ws, hrun, -⟩ := h.eventCommit_run (X := X) c.env hk hi trivial
  have hfits : OriginFits X c.env (c.input ref).objectRef.val .checkpoint := fun ht => nomatch ht.2
  have hstate : st.appendInput D X c.env (c.input ref) .checkpoint =
      ((st.register c.scope.val).push c.scope.val (c.event D X ref), .ok ()) := by
    rw [SourceState.appendInput, if_pos hfits]
    exact (if_neg (not_not.2 hp)).trans (if_neg (not_not.2 hr))
  rw [hstate] at hrun
  exact congrArg Outcome.result hrun

/-! ## Loading -/

@[simp] theorem checkpointOf_nil : checkpointOf [] = .error .notFound := rfl

theorem checkpointOf_concat (es : List Event) (e : Event) :
    checkpointOf (es ++ [e]) = if e.kind = .checkpoint then .ok e.text else checkpointOf es := by
  unfold checkpointOf
  by_cases hk : e.kind = .checkpoint <;> simp [hk]

/-- Pins do not change the checkpoint. -/
theorem checkpointOf_pins (ps : List Pin) (es : List Event) :
    checkpointOf (es.map (pinsApply ps)) = checkpointOf es := by
  induction es using List.reverseRecOn with
  | nil => rfl
  | append_singleton es e ih =>
    rw [List.map_append, List.map_singleton, checkpointOf_concat, checkpointOf_concat, ih,
      pinsApply_kind, pinsApply_text]

/-- **The search from the end** finds the last checkpoint. -/
theorem lastCheckpoint_run {v : View} (hv : ViewOf D s es ps v) (h : Opened D d s es) :
    ∀ {n : Nat}, n ≤ es.length → lastCheckpoint D n v d = ⟨[], checkpointOf (es.take n)⟩
  | 0, _ => rfl
  | n + 1, hn => by
    have hhead := viewHead_run hv h (i := n) hn
    have hread := viewRead_run hv h (i := n) hn
    rw [lastCheckpoint, Act.bind_run hhead, List.take_succ_eq_append_getElem hn,
      checkpointOf_concat]
    dsimp only [applyAll_nil, List.nil_append]
    rw [pinsApply_kind, show es[n].bare.kind = es[n].kind from rfl]
    split
    · rw [Act.writes, Act.result, Act.bind_run hread]
      show Outcome.mk [] (Except.ok (pinsApply ps es[n]).text) = _
      rw [pinsApply_text]
    · rw [Act.writes, Act.result, lastCheckpoint_run hv h (Nat.le_of_succ_le hn)]

/-- Listing gives the events of the scope with the pins laid over them. -/
theorem SourceAt.eventList_run (h : SourceAt D Good d st) {scope : CStr}
    (hv : sourceScopeValid scope.val = true) (hi : scope.val ≠ indexName) :
    (eventList D scope).result d =
      .ok ((st.events scope.val).map (pinsApply (st.pins scope.val))) := by
  have hdirs := h.dirs_steps hv hi
  obtain ⟨h1, hd1⟩ := hdirs.final
  have hready : Ready (applyAll (dirWrites d scope.val) d) scope.val := by
    rw [hd1]
    exact ready_made
  obtain ⟨t, hl⟩ := h1.1.log_at hv hi hready
  obtain ⟨ws, hpage, hrun⟩ := eventLogPage_run hl 0 (2 ^ 64 - 1)
  have hlen : (st.events scope.val).length ≤ 2 ^ 64 - 1 := by
    have := hl.seq_lt
    omega
  rw [List.drop_zero, List.take_of_length_le hlen] at hpage
  -- the pins are read where the log was opened
  have hpins := (h1.1.scope _ hv hi).pins.congr
    (applyAll_frame _ fun w hw hm => pinsFile_not_log scope.val (hrun.within w hw _ hm))
  have hready2 : Ready (applyAll ws (applyAll (dirWrites d scope.val) d)) scope.val :=
    hready.congr
      (applyAll_frame _ fun w hw hm => scopesDir_not_log scope.val (hrun.within w hw _ hm))
      (applyAll_frame _ fun w hw hm => scopeDir_not_log scope.val scope.val (hrun.within w hw _ hm))
  have hload := pinsLoad_run ⟨.inr hready2.scopes, .inr hready2.dir⟩ hpins
  have hpath := sourceScopePath_run (h.scope _ hv hi).dirs eventsName .io
  have hall := Act.bind_run_run (f := fun path => do
    let r ← eventLogPage D path [] 0 (2 ^ 64 - 1)
    let pins ← pinsLoad scope.val
    pure (r.1.map (pinsApply pins), r.2)) hpath
    (Act.bind_run_run hpage (Act.bind_run_run hload rfl))
  have hreq : (eventList D scope) d = (do
      let r ← eventPage D scope.val [] 0 (2 ^ 64 - 1)
      pure r.1 : Io (List Event)) d := require_bind hv
  rw [Act.result, hreq, Act.bind_run (show eventPage D scope.val [] 0 (2 ^ 64 - 1) d = _ from hall)]
  rfl

/-- A checkpoint file is taken as it is. -/
theorem SourceAt.checkpointLoad_file (h : SourceAt D Good d st) {scope : CStr}
    (hv : sourceScopeValid scope.val = true) (hi : scope.val ≠ indexName) {t : Bytes}
    (hf : d (checkpointFile scope.val) = some (.file t)) (ht : TextOk t) :
    (checkpointLoad D scope).result d = .ok t := by
  have hdirs := (h.scope _ hv hi).dirs
  have hpath := sourceScopePath_run hdirs (ascii "checkpoint.txt") .io
  have hblob : osBlobOpen (checkpointFile scope.val) (made d scope.val) = ⟨[], .ok t⟩ := by
    have hb := blob_child (ascii "checkpoint.txt")
      (find_scopeDir (d := made d scope.val) (s := scope.val) made_scopes made_dir)
    have hm : made d scope.val (scopeDir scope.val ++ [ascii "checkpoint.txt"]) =
        some (.file t) := (made_file _).trans hf
    rw [hm] at hb
    exact congrArg (Outcome.mk []) hb
  have hread : sourceTextRead (checkpointFile scope.val) eventBytes (made d scope.val) =
      ⟨[], .ok t⟩ :=
    Act.bind_run_run hblob ((require_bind ht.size).trans (require_bind ⟨ht.no_nul, ht.utf8⟩))
  rw [← applyAll_dirWrites hdirs] at hread
  rw [Act.result, checkpointLoad, require_bind hv, Act.bind_run hpath]
  dsimp only
  rw [Act.result, Act.bind_run (Act.attempt_run
    (show sourceTextRead (scopeFile scope.val (ascii "checkpoint.txt")) eventBytes _ = _ from hread))]
  rfl

/-- Without a file the log gives the checkpoint. -/
theorem SourceAt.checkpointLoad_log (h : SourceAt D Good d st) {scope : CStr}
    (hv : sourceScopeValid scope.val = true) (hi : scope.val ≠ indexName)
    (hf : d (checkpointFile scope.val) = none) :
    (checkpointLoad D scope).result d = checkpointOf (st.events scope.val) := by
  have hdirs := (h.scope _ hv hi).dirs
  have hpath := sourceScopePath_run hdirs (ascii "checkpoint.txt") .io
  have hst := (h.dirs_steps hv hi).final.1.1
  have hblob : osBlobOpen (checkpointFile scope.val) (made d scope.val) =
      ⟨[], .error .notFound⟩ := by
    have hb := blob_child (ascii "checkpoint.txt")
      (find_scopeDir (d := made d scope.val) (s := scope.val) made_scopes made_dir)
    have hm : made d scope.val (scopeDir scope.val ++ [ascii "checkpoint.txt"]) = none :=
      (made_file _).trans hf
    rw [hm] at hb
    exact congrArg (Outcome.mk []) hb
  have hread : sourceTextRead (checkpointFile scope.val) eventBytes (made d scope.val) =
      ⟨[], .error .notFound⟩ := Act.bind_run_error hblob
  rw [← applyAll_dirWrites hdirs] at hread
  obtain ⟨ws, v, hopen, hview, hsteps⟩ := hst.viewOpen_run hv hi
  have hlast := lastCheckpoint_run hview hsteps.final.2 (Nat.le_of_eq hview.count)
  rw [hview.count, List.take_length] at hlast
  rw [Act.result, checkpointLoad, require_bind hv, Act.bind_run hpath]
  dsimp only
  rw [Act.result, Act.bind_run (Act.attempt_run
    (show sourceTextRead (scopeFile scope.val (ascii "checkpoint.txt")) eventBytes _ = _ from hread))]
  dsimp only [applyAll_nil, List.nil_append]
  rw [Act.result, Act.bind_run hopen, hview.count]
  dsimp only
  rw [Act.result, hlast]

/-! ## Runs -/

/-- What a run with the steps `ls` leaves: the log of a scope ends with the text appended last,
and its file holds the text put there last. -/
structure CommitsInv (D : Digest) (cs : List CommitCall) (ls : List (CommitStep × CommitCall))
    (m : Commits) (st : SourceState) : Prop where
  disk : SourceAt D (fun _ => True) m.disk st
  calls : m.calls.map Prod.fst = cs
  accepted : ∀ c, (CommitStep.append, c) ∈ ls → c.Accepted
  waiting : ∀ c id, (c, CommitPhase.appended id) ∈ m.calls → (CommitStep.append, c) ∈ ls
  returned : ∀ c id, (c, CommitPhase.returned id) ∈ m.calls →
    (CommitStep.append, c) ∈ ls ∧ (CommitStep.replace, c) ∈ ls
  log : ∀ s t, lastSome (stepText .append s) ls = some t → checkpointOf (st.events s) = .ok t
  file : ∀ s t, lastSome (stepText .replace s) ls = some t →
    m.disk (checkpointFile s) = some (.file t) ∧ TextOk t

theorem stepText_ne {k k' : CommitStep} (h : k' ≠ k) (s : Bytes) (c : CommitCall) :
    stepText k s (k', c) = none := if_neg fun he => h he.1

theorem stepText_self (k : CommitStep) (s : Bytes) (c : CommitCall) :
    stepText k s (k, c) = if c.scope.val = s then some c.text.val else none := by
  simp [stepText]

theorem CommitsInv.start {cs : List CommitCall} (h : SourceAt D (fun _ => True) d st) :
    CommitsInv D cs [] (Commits.start d cs) st where
  disk := h
  calls := by simp [Commits.start, Function.comp_def]
  accepted c hc := absurd hc List.not_mem_nil
  waiting c id hc := by simp [Commits.start] at hc
  returned c id hc := by simp [Commits.start] at hc
  log s t ht := by simp at ht
  file s t ht := by simp at ht

/-- What is under way after one call has moved on. -/
theorem mem_moved {α : Type} {pre post : List α} {x x' y : α} (h : y ∈ pre ++ x' :: post) :
    y = x' ∨ y ∈ pre ++ x :: post := by
  simp only [List.mem_append, List.mem_cons] at h ⊢
  tauto

/-- Every step keeps the invariant. -/
theorem CommitsInv.step {cs : List CommitCall} {ls : List (CommitStep × CommitCall)}
    {l : CommitStep × CommitCall} {m m' : Commits} (h : CommitsInv D cs ls m st)
    (hs : Commits.Step D X m l m') : ∃ st', CommitsInv D cs (ls ++ [l]) m' st' := by
  have hold : ∀ {k c}, (k, c) ∈ ls → (k, c) ∈ ls ++ [l] := fun hm => List.mem_append_left _ hm
  have hnew : l ∈ ls ++ [l] := List.mem_append_right _ (List.mem_singleton_self _)
  cases hs with
  | @put d pre post c ref hr =>
    obtain ⟨hdisk, hother, -⟩ := CommitCall.put_ok h.disk hr
    refine ⟨st, hdisk, ?_, fun c' hc => ?_, fun c' id hc => ?_, fun c' id hc => ?_,
      fun s t ht => ?_, fun s t ht => ?_⟩
    · simpa using h.calls
    · rcases List.mem_append.1 hc with hc | hc
      · exact h.accepted c' hc
      · cases List.mem_singleton.1 hc
    · rcases mem_moved (x := (c, .called)) hc with hc | hc
      · cases hc
      · exact hold (h.waiting c' id hc)
    · rcases mem_moved (x := (c, .called)) hc with hc | hc
      · cases hc
      · exact (h.returned c' id hc).imp hold hold
    · rw [lastSome_concat, stepText_ne (by decide), Option.none_or] at ht
      exact h.log s t ht
    · rw [lastSome_concat, stepText_ne (by decide), Option.none_or] at ht
      dsimp only at hother ⊢
      rw [hother (checkpointFile s) (not_objectArea_scopes _)]
      exact h.file s t ht
  | @append d pre post c ref id hr =>
    obtain ⟨hacc, hdisk⟩ := CommitCall.append_ok h.disk hr
    have hfile := fun s => c.append_free (D := D) (X := X) (d := d) ref freeName_checkpoint s
    refine ⟨_, hdisk, ?_, fun c' hc => ?_, fun c' id' hc => ?_, fun c' id' hc => ?_,
      fun s t ht => ?_, fun s t ht => ?_⟩
    · simpa using h.calls
    · rcases List.mem_append.1 hc with hc | hc
      · exact h.accepted c' hc
      · obtain rfl := (Prod.mk.inj (List.mem_singleton.1 hc)).2
        exact hacc
    · rcases mem_moved (x := (c, .stored ref)) hc with hc | hc
      · obtain rfl := (Prod.mk.inj hc).1
        exact hnew
      · exact hold (h.waiting c' id' hc)
    · rcases mem_moved (x := (c, .stored ref)) hc with hc | hc
      · cases hc
      · exact (h.returned c' id' hc).imp hold hold
    · rw [lastSome_concat, stepText_self] at ht
      rw [events_push, events_register]
      by_cases hs : c.scope.val = s
      · rw [if_pos hs.symm, checkpointOf_concat]
        rw [if_pos hs] at ht
        obtain rfl := Option.some.inj ht
        exact if_pos rfl
      · rw [if_neg (Ne.symm hs)]
        rw [if_neg hs, Option.none_or] at ht
        exact h.log s t ht
    · rw [lastSome_concat, stepText_ne (by decide), Option.none_or] at ht
      dsimp only
      rw [checkpointFile, hfile]
      exact h.file s t ht
  | @replace d pre post c id hr =>
    have hmine := h.waiting c id (by simp)
    have hc := h.accepted c hmine
    obtain ⟨hdisk, hself, -, hother⟩ := CommitCall.replace_ok h.disk hc.scope hc.index hr
    refine ⟨st, hdisk, ?_, fun c' hc => ?_, fun c' id' hc => ?_, fun c' id' hc => ?_,
      fun s t ht => ?_, fun s t ht => ?_⟩
    · simpa using h.calls
    · rcases List.mem_append.1 hc with hc | hc
      · exact h.accepted c' hc
      · cases List.mem_singleton.1 hc
    · rcases mem_moved (x := (c, .appended id)) hc with hc | hc
      · cases hc
      · exact hold (h.waiting c' id' hc)
    · rcases mem_moved (x := (c, .appended id)) hc with hc | hc
      · obtain rfl := (Prod.mk.inj hc).1
        exact ⟨hold hmine, hnew⟩
      · exact (h.returned c' id' hc).imp hold hold
    · rw [lastSome_concat, stepText_ne (by decide), Option.none_or] at ht
      exact h.log s t ht
    · rw [lastSome_concat, stepText_self] at ht
      by_cases hs : c.scope.val = s
      · subst hs
        rw [if_pos rfl] at ht
        obtain rfl := Option.some.inj ht
        exact ⟨hself, hc.text⟩
      · rw [if_neg hs, Option.none_or] at ht
        dsimp only at hother ⊢
        rw [hother s (Ne.symm hs)]
        exact h.file s t ht

/-- **Every run** of commits keeps the store and does what the invariant says. -/
theorem commits_inv {cs : List CommitCall} {ls : List (CommitStep × CommitCall)} {m : Commits}
    (h : SourceAt D (fun _ => True) d st)
    (hrun : Runs (Commits.Step D X) (Commits.start d cs) ls m) :
    ∃ st', CommitsInv D cs ls m st' :=
  hrun.inv (I := fun ls m => ∃ st', CommitsInv D cs ls m st') ⟨st, .start h⟩
    fun _ _ _ _ hi hs => hi.elim fun _ hi => hi.step hs

/-- The checkpoint file and the log agree exactly when they hold the same text. -/
theorem SourceAt.checkpointAgrees_iff (h : SourceAt D Good d st) {scope : CStr}
    (hv : sourceScopeValid scope.val = true) (hi : scope.val ≠ indexName) {t u : Bytes}
    (hf : d (checkpointFile scope.val) = some (.file t)) (ht : TextOk t)
    (hu : checkpointOf (st.events scope.val) = .ok u) :
    CheckpointAgrees D scope d ↔ t = u := by
  have hlist := h.eventList_run hv hi
  have hfile := h.checkpointLoad_file hv hi hf ht
  have hlog := (h.free freeName_checkpoint none).checkpointLoad_log hv hi (Disk.set_self ..)
  have hes : checkpointOf ((st.events scope.val).map (pinsApply (st.pins scope.val))) = .ok u := by
    rw [checkpointOf_pins, hu]
  constructor
  · rintro ⟨es, hl, hload, -⟩
    obtain rfl := Except.ok.inj (hlist.symm.trans hl)
    rw [hfile, hes] at hload
    exact Except.ok.inj hload
  · rintro rfl
    exact ⟨_, hlist, hfile.trans hes.symm, hlog.trans (hu.trans hes.symm)⟩

end

/-- **Agreement of commits.** After any interleaving of calls that have all returned, the checkpoint
file of a scope and its log agree exactly when the text whose append came last is the text whose
replacement came last. -/
theorem commits_agree_iff {D : Digest} {X : Codec} {d : Disk} {st : SourceState}
    (h : SourceAt D (fun _ => True) d st) {cs : List CommitCall}
    {ls : List (CommitStep × CommitCall)} {m : Commits}
    (hrun : Runs (Commits.Step D X) (Commits.start d cs) ls m) (hdone : m.Done)
    {c : CommitCall} (hc : c ∈ cs) :
    CheckpointAgrees D c.scope m.disk ↔ LastReplacedLast c.scope.val ls := by
  obtain ⟨st', hi⟩ := commits_inv h hrun
  obtain ⟨x, hx, rfl⟩ := List.mem_map.1 (hi.calls ▸ hc)
  obtain ⟨id, hid⟩ := hdone x hx
  obtain ⟨happ, hrep⟩ := hi.returned x.1 id (hid ▸ hx)
  obtain ⟨u, hu⟩ := exists_lastSome (f := stepText .append x.1.scope.val) happ
    (by rw [stepText_self, if_pos rfl]; exact Option.some_ne_none _)
  obtain ⟨t, ht⟩ := exists_lastSome (f := stepText .replace x.1.scope.val) hrep
    (by rw [stepText_self, if_pos rfl]; exact Option.some_ne_none _)
  obtain ⟨hfile, htext⟩ := hi.file _ t ht
  have hacc := hi.accepted _ happ
  rw [hi.disk.checkpointAgrees_iff hacc.scope hacc.index hfile htext (hi.log _ u hu),
    LastReplacedLast, hu, ht, Option.some_inj, eq_comm]

/-! ## Two commits that cross -/

/-- A commit of the text to the scope `a`. -/
def commitOf (text : CStr) : CommitCall := ⟨plainEnv, scopeA, text⟩

/-- Another text. -/
def rewritten : CStr := ⟨ascii "y", by decide⟩

def objectOf (text : CStr) : Bytes := objectRef zeroDigest text.val

theorem scope_a : sourceScopeValid (ascii "a") = true ∧ ascii "a" ≠ indexName := by decide

section
variable {d : Disk} {st : SourceState} (text : CStr)

theorem commitOf_put (h : SourceAt zeroDigest (fun _ => True) d st) (hc : Clear d (ascii "a"))
    (hu : utf8Valid text.val = true) (ht : text.val.length ≤ 100) :
    ∃ d', (∀ pre post, Commits.Step zeroDigest plainCodec
        ⟨d, pre ++ (commitOf text, .called) :: post⟩ (.put, commitOf text)
        ⟨d', pre ++ (commitOf text, .stored (objectOf text)) :: post⟩) ∧
      SourceAt zeroDigest (fun _ => True) d' st ∧ Clear d' (ascii "a") := by
  have hgo := CommitCall.put_goes (c := commitOf text) h scope_a.1 hu
    (Nat.le_trans ht (by unfold objectBytes; omega))
  obtain ⟨hd, hother, -⟩ := CommitCall.put_ok h hgo
  exact ⟨_, fun _ _ => .put hgo, hd,
    hc.congr (hother _ (not_objectArea_scopes _)) (hother _ (not_objectArea_scopes _))⟩

theorem commitOf_append (h : SourceAt zeroDigest (fun _ => True) d st) (hc : Clear d (ascii "a"))
    (hu : utf8Valid text.val = true) (ht : text.val.length ≤ 100)
    (hlog : (logBytes zeroDigest (st.events (ascii "a"))).length ≤ 1000)
    (hp : st.hasPlace (ascii "a")) :
    ∃ d', (∀ pre post, Commits.Step zeroDigest plainCodec
        ⟨d, pre ++ (commitOf text, .stored (objectOf text)) :: post⟩ (.append, commitOf text)
        ⟨d', pre ++ (commitOf text, .appended plainEnv.id.val) :: post⟩) ∧
      SourceAt zeroDigest (fun _ => True) d' ((st.register (ascii "a")).push (ascii "a")
        ((commitOf text).event zeroDigest plainCodec (objectOf text))) ∧
      Clear d' (ascii "a") := by
  have hcheck : ((commitOf text).input (objectOf text)).check = some .checkpoint := by
    have href : (cstr (objectOf text)).val = objectOf text := by
      show (cstr (objectOf .empty)).val = objectOf .empty
      decide
    refine if_pos ⟨scope_a.1, hu, .inr ?_⟩
    show sourceObjectValid (cstr (objectOf text)).val = true
    rw [href]
    exact sourceObjectValid_objectRef ..
  have hroom : st.hasRoom zeroDigest (ascii "a")
      ((commitOf text).event zeroDigest plainCodec (objectOf text)) := by
    show text.val.length ≤ eventBytes ∧ _ + text.val.length + 512 ≤ eventLogBytes
    unfold eventBytes eventLogBytes
    omega
  have hgo := CommitCall.append_goes (c := commitOf text) h hcheck scope_a.2 hp hroom
  have hfree := fun {n : Bytes} (hn : FreeName n) => (commitOf text).append_free (D := zeroDigest)
    (X := plainCodec) (d := d) (objectOf text) hn (ascii "a")
  exact ⟨_, fun _ _ => .append hgo, (CommitCall.append_ok h hgo).2,
    hc.congr (hfree freeName_checkpoint) (hfree freeName_checkpointTmp)⟩

theorem commitOf_replace (h : SourceAt zeroDigest (fun _ => True) d st)
    (hc : Clear d (ascii "a")) (id : Bytes) :
    ∃ d', (∀ pre post, Commits.Step zeroDigest plainCodec
        ⟨d, pre ++ (commitOf text, .appended id) :: post⟩ (.replace, commitOf text)
        ⟨d', pre ++ (commitOf text, .returned id) :: post⟩) ∧
      SourceAt zeroDigest (fun _ => True) d' st ∧ Clear d' (ascii "a") := by
  have hdirs := (h.scope (ascii "a") scope_a.1 scope_a.2).dirs
  have hgo := (CommitCall.replace_run (c := commitOf text) hdirs hc).1
  obtain ⟨hd, hfile, htmp, -⟩ := CommitCall.replace_ok (c := commitOf text) h scope_a.1
    scope_a.2 hgo
  refine ⟨_, fun _ _ => .replace hgo, hd, ⟨?_, ?_⟩⟩
  · rw [show checkpointFile (ascii "a") = checkpointFile (commitOf text).scope.val from rfl, hfile]
    exact fun hn => nomatch hn
  · rw [show checkpointTmp (ascii "a") = checkpointTmp (commitOf text).scope.val from rfl, htmp]
    exact fun hn => nomatch hn

end

/-- The log of one event is little longer than its text. -/
theorem SourceAt.length_single {D : Digest} {Good : Bytes → Prop} {d : Disk} {st : SourceState}
    {s : Bytes} {e : Event} (h : SourceAt D Good d st) (hv : sourceScopeValid s = true)
    (hi : s ≠ indexName) (he : st.events s = [e]) :
    (logBytes D (st.events s)).length ≤ e.text.length + 308 := by
  obtain ⟨t, hl⟩ := (h.scope s hv hi).log
  have hok := hl.ok
  rw [he] at hok ⊢
  rw [logBytes_cons, logBytes_nil, List.append_nil]
  exact length_frameBytes_le D hok.1

/-- The steps of two commits, the first of which is overtaken before it replaces the file. -/
def crossed : List (CommitStep × CommitCall) :=
  [(.put, commitOf spoken), (.put, commitOf rewritten), (.append, commitOf spoken),
    (.append, commitOf rewritten), (.replace, commitOf rewritten), (.replace, commitOf spoken)]

theorem crossed_run : ∃ m, m.Done ∧
    Runs (Commits.Step zeroDigest plainCodec)
      (Commits.start emptyDisk [commitOf spoken, commitOf rewritten]) crossed m := by
  have hc : Clear emptyDisk (ascii "a") := ⟨fun h => (nomatch h), fun h => (nomatch h)⟩
  obtain ⟨d1, s1, h1, c1⟩ := commitOf_put spoken noSource_empty.state hc (by decide)
    (by decide)
  obtain ⟨d2, s2, h2, c2⟩ := commitOf_put rewritten h1 c1 (by decide) (by decide)
  obtain ⟨d3, s3, h3, c3⟩ := commitOf_append spoken h2 c2 (by decide) (by decide)
    (by decide) (.inr (by decide))
  obtain ⟨d4, s4, h4, c4⟩ := commitOf_append rewritten h3 c3 (by decide) (by decide)
    (Nat.le_trans (h3.length_single scope_a.1 scope_a.2 rfl) (by decide))
    (.inl (List.mem_singleton_self _))
  obtain ⟨d5, s5, h5, c5⟩ := commitOf_replace rewritten h4 c4 plainEnv.id.val
  obtain ⟨d6, s6, -⟩ := commitOf_replace spoken h5 c5 plainEnv.id.val
  refine ⟨⟨d6, [(commitOf spoken, .returned plainEnv.id.val),
    (commitOf rewritten, .returned plainEnv.id.val)]⟩, ?_, ?_⟩
  · intro x hx
    simp only [List.mem_cons, List.not_mem_nil, or_false] at hx
    rcases hx with rfl | rfl <;> exact ⟨_, rfl⟩
  · exact (((((Runs.single (s1 [] _)).snoc (s2 [_] [])).snoc (s3 [] _)).snoc (s4 [_] [])).snoc
      (s5 [_] [])).snoc (s6 [] _)

/-- The file keeps the older text, the log ends with the newer. -/
theorem commits_disagree : ¬ ∀ ls m,
    Runs (Commits.Step zeroDigest plainCodec)
      (Commits.start emptyDisk [commitOf spoken, commitOf rewritten]) ls m → m.Done →
    CheckpointAgrees zeroDigest (commitOf spoken).scope m.disk := by
  intro hall
  obtain ⟨m, hdone, hrun⟩ := crossed_run
  obtain ⟨st, hi⟩ := commits_inv noSource_empty.state hrun
  obtain ⟨hf, ht⟩ := hi.file (ascii "a") (ascii "x") (by decide)
  exact absurd ((@SourceAt.checkpointAgrees_iff _ _ _ _ hi.disk (commitOf spoken).scope scope_a.1
    scope_a.2 _ _ hf ht (hi.log (ascii "a") (ascii "y") (by decide))).1 (hall _ m hrun hdone))
    (by decide)

/-- The theorem for the commits that cross. -/
theorem commits_agree_crossed : ∃ m : Commits, m.Done ∧
    (CheckpointAgrees zeroDigest (commitOf spoken).scope m.disk ↔
      LastReplacedLast (commitOf spoken).scope.val crossed) := by
  obtain ⟨m, hdone, hrun⟩ := crossed_run
  exact ⟨m, hdone, commits_agree_iff noSource_empty.state hrun hdone (List.mem_cons_self ..)⟩

end Asper
