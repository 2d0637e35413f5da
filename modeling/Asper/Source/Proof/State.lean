import Asper.Source.Events
import Asper.Source.Proof.Store
import Asper.Event.Proof.Log
import Asper.Event.Proof.Touch

/-! # The source store as a whole

A `SourceState` says what the store is for: the scopes it lists, and for every scope its events
and its pins. `SourceAt D Good d st`: the disk `d` holds `st`. A change of one part of the disk
keeps the rest of the state (`SourceAt.objects`, `.registry`, `.log`, `.pins`, `.dirs`). -/

namespace Asper

open Durable

structure SourceState where
  scopes : List Bytes
  events : Bytes → List Event
  pins : Bytes → List Pin

/-- Nothing was stored yet. -/
def SourceState.empty : SourceState := ⟨[], fun _ => [], fun _ => []⟩

def SourceState.register (st : SourceState) (s : Bytes) : SourceState :=
  if s ∈ st.scopes then st else { st with scopes := st.scopes ++ [s] }

def SourceState.setEvents (st : SourceState) (s : Bytes) (es : List Event) : SourceState :=
  { st with events := Function.update st.events s es }

def SourceState.setPins (st : SourceState) (s : Bytes) (ps : List Pin) : SourceState :=
  { st with pins := Function.update st.pins s ps }

def eventsName : Bytes := ascii "events.log"

/-- The name the registry has in the directory of the scopes. -/
def indexName : Bytes := ascii "index.log"

/-- The directory of `s` holds the events `es` and the pins `ps`. -/
structure ScopeAt (D : Digest) (d : Disk) (s : Bytes) (es : List Event) (ps : List Pin) : Prop where
  dirs : DirsOk d s
  log : ∃ t, LogAt D (made d s) (scopeDir s) eventsName es t
  pins : PinsAt d s ps

structure SourceAt (D : Digest) (Good : Bytes → Prop) (d : Disk) (st : SourceState) : Prop where
  registry : RegistryAt d st.scopes
  names : indexName ∉ st.scopes
  scope : ∀ s, sourceScopeValid s = true → s ≠ indexName →
    ScopeAt D d s (st.events s) (st.pins s)
  objects : ObjectsAt D Good d
  listed : ∀ s, st.events s ≠ [] → s ∈ st.scopes

/-- The files of a scope's log are in its directory. -/
theorem logFiles_scope {s : Bytes} {p : Path} (h : p ∈ logFiles (scopeDir s) eventsName) :
    ∃ n, p = scopeFile s n := by
  simp only [logFiles, List.mem_cons, List.not_mem_nil, or_false, indexPath_concat,
    indexTmp_concat] at h
  rcases h with rfl | rfl | rfl <;> exact ⟨_, rfl⟩

theorem pinsFile_not_log (s : Bytes) : pinsFile s ∉ logFiles (scopeDir s) eventsName := by
  have h1 : ascii "pins.log" ≠ eventsName := by decide
  have h2 : ascii "pins.log" ≠ eventsName ++ ascii ".idx" := by decide
  have h3 : ascii "pins.log" ≠ eventsName ++ ascii ".idx" ++ ascii ".tmp" := by decide
  simp only [logFiles, List.mem_cons, List.not_mem_nil, or_false, indexPath_concat,
    indexTmp_concat, pinsFile, scopeFile]
  simp only [List.append_cancel_left_eq, List.cons.injEq, and_true, h1, h2, h3, or_self,
    not_false_eq_true]

section
variable {D : Digest} {Good : Bytes → Prop} {d d' : Disk} {s : Bytes} {es : List Event}
  {ps : List Pin} {st : SourceState}

/-- A scope is moved to a disk that has the same files of it. -/
theorem ScopeAt.congr (h : ScopeAt D d s es ps) (hs : DirOk d' scopesDir)
    (hd : d' (scopeDir s) = d (scopeDir s)) (hf : ∀ n, d' (scopeFile s n) = d (scopeFile s n)) :
    ScopeAt D d' s es ps where
  dirs := ⟨hs, h.dirs.dir.congr hd⟩
  log := by
    obtain ⟨t, hl⟩ := h.log
    refine ⟨t, hl.congr (find_scopeDir made_scopes made_dir) fun p hp => ?_⟩
    obtain ⟨n, rfl⟩ := logFiles_scope hp
    rw [made_file, made_file, hf]
  pins := h.pins.congr (hf _)

theorem scopeDir_inj {s s' : Bytes} (h : scopeDir s = scopeDir s') : s = s' :=
  List.singleton_inj.1 (List.append_cancel_left h)

theorem scopeFile_scope {s s' n n' : Bytes} (h : scopeFile s n = scopeFile s' n') : s = s' :=
  scopeDir_inj (List.append_inj_left' h rfl)

theorem scopeIndex_eq : scopeIndex = scopeDir indexName := rfl

theorem scopeFile_ne_index (s n : Bytes) : scopeFile s n ≠ scopeIndex := by
  simp [scopeFile, scopeDir, scopeIndex, scopesDir]

theorem scopeFile_ne_dir (s s' n : Bytes) : scopeFile s n ≠ scopeDir s' := by
  simp [scopeFile, scopeDir, scopesDir]

/-- The directory of objects and what is in it. -/
def objectArea (p : Path) : Prop := p = objectsDir ∨ ∃ n, p = objectsDir ++ [n]

theorem not_objectArea_scopes (q : Path) : ¬ objectArea (ascii "scopes" :: q) := by
  have h : ascii "scopes" ≠ ascii "objects" := by decide
  rintro (h' | ⟨n, h'⟩)
  · exact h (List.cons.inj h').1
  · exact h (List.cons.inj h').1

theorem ObjectsAt.congr (h : ObjectsAt D Good d) (hd : ∀ p, objectArea p → d' p = d p) :
    ObjectsAt D Good d' where
  dir := h.dir.congr (hd _ (.inl rfl))
  file ref := by rw [hd (objectFile ref) (.inr ⟨_, rfl⟩)]; exact h.file ref
  tmp ref uuid := by rw [hd (objectTmp ref uuid) (.inr ⟨_, rfl⟩)]; exact h.tmp ref uuid

theorem Keeps.congr (hd : ∀ p, objectArea p → d' p = d p) : Keeps d d' :=
  fun _ _ => hd _ (.inr ⟨_, rfl⟩)

/-! ## One part at a time -/

/-- A change among the objects. -/
theorem SourceAt.objects' (h : SourceAt D Good d st) (ho : ObjectsAt D Good d')
    (hd : ∀ p, ¬ objectArea p → d' p = d p) : SourceAt D Good d' st where
  registry := h.registry.congr (h.registry.dir.congr (hd _ (not_objectArea_scopes _)))
    (hd _ (not_objectArea_scopes _))
  names := h.names
  scope s hv hn := (h.scope s hv hn).congr
    (h.registry.dir.congr (hd _ (not_objectArea_scopes _)))
    (hd _ (not_objectArea_scopes _)) fun _ => hd _ (not_objectArea_scopes _)
  objects := ho
  listed := h.listed

/-- A change of the registry. -/
theorem SourceAt.registry' (h : SourceAt D Good d st) {ss : List Bytes} (hr : RegistryAt d' ss)
    (hn : indexName ∉ ss) (hss : ∀ s ∈ st.scopes, s ∈ ss)
    (hd : ∀ p, p ≠ scopeIndex → d' p = d p) : SourceAt D Good d' { st with scopes := ss } where
  registry := hr
  names := hn
  scope s hv hi := (h.scope s hv hi).congr hr.dir
    (hd _ fun he => hi (scopeDir_inj (he.trans scopeIndex_eq)))
    fun _ => hd _ (scopeFile_ne_index _ _)
  objects := h.objects.congr fun p hp => hd p fun he => not_objectArea_scopes _ (he ▸ hp)
  listed s hs := hss s (h.listed s hs)

/-- The other scopes when only files of `s` change. -/
theorem SourceAt.other (h : SourceAt D Good d st) {s' : Bytes} (hv : sourceScopeValid s' = true)
    (hi : s' ≠ indexName) (hs : s' ≠ s) (hd : ∀ p, (∀ n, p ≠ scopeFile s n) → d' p = d p) :
    ScopeAt D d' s' (st.events s') (st.pins s') := by
  have h1 : d' scopesDir = d scopesDir := hd _ fun _ => (scopeFile_ne _).1.symm
  exact (h.scope s' hv hi).congr (h.registry.dir.congr h1)
    (hd _ fun _ => (scopeFile_ne_dir _ _ _).symm) fun n => hd _ fun n' he => hs (scopeFile_scope he)

theorem SourceAt.registry_file (h : SourceAt D Good d st)
    (hd : ∀ p, (∀ n, p ≠ scopeFile s n) → d' p = d p) : RegistryAt d' st.scopes := by
  have h1 : d' scopesDir = d scopesDir := hd _ fun _ => (scopeFile_ne _).1.symm
  exact h.registry.congr (h.registry.dir.congr h1) (hd _ fun _ => (scopeFile_ne_index _ _).symm)

theorem SourceAt.objects_file (h : SourceAt D Good d st)
    (hd : ∀ p, (∀ n, p ≠ scopeFile s n) → d' p = d p) : ObjectsAt D Good d' :=
  h.objects.congr fun p hp => hd p fun _ he => not_objectArea_scopes _ (he ▸ hp)

/-- A change of the log of `s`, whose directory is there. -/
theorem SourceAt.log' (h : SourceAt D Good d st) (hm : d = made d s) (hr : es ≠ [] → s ∈ st.scopes)
    {t : Bytes} (hl : LogAt D d' (scopeDir s) eventsName es t)
    (hd : ∀ p, p ∉ logFiles (scopeDir s) eventsName → d' p = d p) :
    SourceAt D Good d' (st.setEvents s es) := by
  have hd' : ∀ p, (∀ n, p ≠ scopeFile s n) → d' p = d p := fun p hp => hd p fun hm =>
    (logFiles_scope hm).elim fun n hn => hp n hn
  refine ⟨h.registry_file hd', h.names, fun s' hv hi => ?_, h.objects_file hd', fun s' hs' => ?_⟩
  · by_cases hs : s' = s
    · subst hs
      have hscopes : d' scopesDir = some .dir := by
        rw [hd' _ fun n => (scopeFile_ne n).1.symm, hm, made_scopes]
      have hdir : d' (scopeDir s') = some .dir := by
        rw [hd' _ fun n => (scopeFile_ne n).2.symm, hm, made_dir]
      have hself : (st.setEvents s' es).events s' = es := Function.update_self ..
      rw [hself]
      refine ⟨⟨.inr hscopes, .inr hdir⟩, ⟨t, hl.congr (find_scopeDir made_scopes made_dir) ?_⟩, ?_⟩
      · intro p hp
        obtain ⟨n, rfl⟩ := logFiles_scope hp
        exact made_file n
      · exact (h.scope s' hv hi).pins.congr (hd _ (pinsFile_not_log s'))
    · rw [SourceState.setEvents]
      dsimp only
      rw [Function.update_of_ne hs]
      exact h.other hv hi hs hd'
  · rw [SourceState.setEvents] at hs'
    dsimp only at hs'
    by_cases hs : s' = s
    · subst hs
      rw [Function.update_self] at hs'
      exact hr hs'
    · rw [Function.update_of_ne hs] at hs'
      exact h.listed s' hs'

/-- A change of the pin log of `s`. -/
theorem SourceAt.pins' (h : SourceAt D Good d st) (hp : PinsAt d' s ps)
    (hd : ∀ p, p ≠ pinsFile s → d' p = d p) : SourceAt D Good d' (st.setPins s ps) := by
  have hd' : ∀ p, (∀ n, p ≠ scopeFile s n) → d' p = d p := fun p hp => hd p (hp _)
  refine ⟨h.registry_file hd', h.names, fun s' hv hi => ?_, h.objects_file hd', h.listed⟩
  by_cases hs : s' = s
  · subst hs
    obtain ⟨t, hl⟩ := (h.scope s' hv hi).log
    have hdirs := (h.scope s' hv hi).dirs
    refine ⟨⟨?_, ?_⟩, ⟨t, hl.congr (find_scopeDir made_scopes made_dir) fun p hm => ?_⟩, ?_⟩
    · rw [DirOk, hd' _ fun n => (scopeFile_ne n).1.symm]
      exact hdirs.scopes
    · rw [DirOk, hd' _ fun n => (scopeFile_ne n).2.symm]
      exact hdirs.dir
    · obtain ⟨n, rfl⟩ := logFiles_scope hm
      rw [made_file, made_file]
      exact hd _ fun he => pinsFile_not_log s' (he ▸ hm)
    · rw [SourceState.setPins]
      dsimp only
      rw [Function.update_self]
      exact hp
  · rw [SourceState.setPins]
    dsimp only
    rw [Function.update_of_ne hs]
    exact h.other hv hi hs hd'

/-- Some of the directories of `s` are made. -/
theorem SourceAt.dirs' (h : SourceAt D Good d st) (hi : s ≠ indexName) (hdirs : DirsOk d' s)
    (hm : made d' s = made d s) (hd : ∀ p, p ≠ scopesDir → p ≠ scopeDir s → d' p = d p) :
    SourceAt D Good d' st := by
  have hidx : d' scopeIndex = d scopeIndex :=
    hd _ (by decide) fun he => hi (scopeDir_inj (he.symm.trans scopeIndex_eq))
  have hfile (s' n : Bytes) : d' (scopeFile s' n) = d (scopeFile s' n) :=
    hd _ (scopeFile_ne n).1 (scopeFile_ne_dir _ _ _)
  refine ⟨h.registry.congr hdirs.scopes hidx, h.names, fun s' hv hi' => ?_,
    h.objects.congr fun p hp => hd p ?_ ?_, h.listed⟩
  · by_cases hs : s' = s
    · subst hs
      obtain ⟨t, hl⟩ := (h.scope s' hv hi').log
      exact ⟨hdirs, ⟨t, by rw [hm]; exact hl⟩, (h.scope s' hv hi').pins.congr (hfile _ _)⟩
    · have hne : scopeDir s' ≠ scopesDir := scopeDir_ne
      exact (h.scope s' hv hi').congr hdirs.scopes
        (hd _ hne fun he => hs (scopeDir_inj he)) fun n => hfile _ n
  · exact fun he => not_objectArea_scopes _ (he ▸ hp)
  · exact fun he => not_objectArea_scopes _ (he ▸ hp)

end

end Asper
