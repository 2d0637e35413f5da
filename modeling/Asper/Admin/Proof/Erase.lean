import Asper.Admin.Erase

/-! # A guard outlives what it guards

`Moves` lists the file operations of the script. The guard is on the medium before the first of them
that removes an entry, and none of them removes the guard or the lock, so `Inv` holds in every world
(`step_inv`). From it follow that nothing is deleted before, that no host opens the store after
(`erasure_guarded`), and what is left when the script ends. -/

namespace Asper

open Durable

namespace Erase

theorem lock_ne_erase : lockName ≠ eraseName := by decide

section
variable {ι : Type}

theorem temporary_ne_erase (r : Run ι) : r.temporary ≠ eraseName := by
  intro h
  have := congrArg (fun l : Bytes => l[6]?) h
  simp [Run.temporary, eraseName, ascii] at this

theorem temporary_ne_lock (r : Run ι) : r.temporary ≠ lockName := by
  intro h
  have := congrArg (fun l : Bytes => l[1]?) h
  simp [Run.temporary, lockName, ascii] at this

/-- Neither the guard nor the lock is to be removed from the root. -/
def Spared (frames : List (Frame ι)) : Prop :=
  ∀ f ∈ frames, f.fd = none → lockName ∉ f.todo ∧ eraseName ∉ f.todo

section
variable {f : Frame ι} {frames frames' : List (Frame ι)} {c : Bytes} {todo : List Bytes}

theorem Spared.tail (h : Spared (f :: frames)) (hf : f.todo = c :: todo) :
    Spared ({ f with todo := todo } :: frames) := by
  intro g hg hfd
  rcases List.mem_cons.1 hg with rfl | hg
  · have hf' := h f (.head _) hfd
    rw [hf] at hf'
    exact ⟨fun hm => hf'.1 (.tail _ hm), fun hm => hf'.2 (.tail _ hm)⟩
  · exact h g (.tail _ hg) hfd

theorem Spared.suffix (h : Spared frames') (hs : frames <:+ frames') : Spared frames :=
  fun f hf => h f (hs.subset hf)

/-- The name that is removed from the root is neither the lock's nor the guard's. -/
theorem Spared.head (h : Spared (f :: frames)) (hf : f.todo = c :: todo) (hfd : f.fd = none) :
    lockName ≠ c ∧ eraseName ≠ c := by
  have hf' := h f (.head _) hfd
  rw [hf] at hf'
  exact ⟨fun he => hf'.1 (he ▸ .head _), fun he => hf'.2 (he ▸ .head _)⟩

end

theorem enter_fd {v : Store ι} {r : Run ι} {f : Frame ι} {fd : Fd ι} {path : Path}
    (h : r.enter v fd path = some f) :
    f.fd = fd ∧ (path = [] → lockName ∉ f.todo ∧ eraseName ∉ f.todo) := by
  unfold Run.enter at h
  split at h
  · cases h
  · split at h
    · cases h
      refine ⟨rfl, fun hp => ?_⟩
      rw [List.mem_insertionSort, List.mem_insertionSort, ownNames, if_pos hp]
      simp
    · cases h

theorem keys_empty {es : Entries Bytes (Entry ι)}
    (h : es.keys.toFinset = [lockName, eraseName].toFinset) (c : Bytes) :
    es.lookup c ≠ none ↔ c = lockName ∨ c = eraseName := by
  rw [ne_eq, AList.lookup_eq_none, not_not, AList.mem_keys, ← List.mem_toFinset, h]
  simp

end

section
variable {ι : Type} [DecidableEq ι] {H : Digests} {S : Stats ι} {v v' : Store ι} {r : Run ι}

/-! ## The operations of the script -/

inductive Moves (v : Store ι) (r : Run ι) : Stage ι → Store ι → Stage ι → Prop where
  | create :
    Moves v r .create (v.edit none (AList.insert r.temporary (.file r.guardData))) .syncFile
  | syncFile : Moves v r .syncFile v .syncName
  | syncName : Moves v r .syncName (v.sync none) .replace
  | replace {e : Entry ι} (h : (v.now none).lookup r.temporary = some e) :
    Moves v r .replace (v.edit none fun es => (es.erase r.temporary).insert eraseName e) .syncGuard
  | syncGuard : Moves v r .syncGuard (v.sync none) .list
  | list {f : Frame ι} (h : r.enter v none [] = some f) : Moves v r .list v (.prune [f])
  | descend {f child : Frame ι} {frames : List (Frame ι)} {i : ι} {path : Path}
    (h : r.enter v (some i) path = some child) :
    Moves v r (.prune (f :: frames)) v (.prune (child :: f :: frames))
  | remove {f : Frame ι} {frames frames' : List (Frame ι)} {c : Bytes} {todo : List Bytes}
    (hf : f :: frames <:+ frames') (h : f.todo = c :: todo) :
    Moves v r (.prune frames') (v.edit f.fd (AList.erase c))
      (.sync f.fd ({ f with todo := todo } :: frames))
  | erased {f : Frame ι}
    (h : (v.now none).keys.toFinset = [lockName, eraseName].toFinset) :
    Moves v r (.prune [f]) v .erased
  | sync {fd : Fd ι} {frames : List (Frame ι)} :
    Moves v r (.sync fd frames) (v.sync fd) (.prune frames)

theorem visit_moves {f : Frame ι} {c : Bytes} {todo : List Bytes} {frames : List (Frame ι)}
    {st' : Stage ι} (hf : f.todo = c :: todo)
    (h : r.visit S v f c todo frames = some (v', st')) :
    Moves v r (.prune (f :: frames)) v' st' := by
  unfold Run.visit at h
  split at h
  · dsimp only at h
    split at h
    · split at h
      · split at h
        · obtain ⟨child, hc, he⟩ := Option.map_eq_some_iff.1 h
          cases he
          rw [← hf]
          exact .descend hc
        · cases h
      · cases h
    · split at h
      · cases h
        exact .remove List.suffix_rfl hf
      · cases h
  · cases h

theorem leave_moves {f g : Frame ι} {frames : List (Frame ι)} {st' : Stage ι}
    (h : r.leave S v g frames = some (v', st')) :
    Moves v r (.prune (f :: g :: frames)) v' st' := by
  unfold Run.leave at h
  split at h
  · cases h
  · next c todo htodo =>
    split at h
    · dsimp only at h
      split at h
      · cases h
        exact .remove (List.suffix_cons _ _) htodo
      · cases h
    · cases h

theorem step_moves {st' : Stage ι} (h : r.step S v = some (v', st')) :
    Moves v r r.stage v' st' := by
  unfold Run.step at h
  split at h
  · next hst =>
    rw [hst]
    split at h
    · cases h
      exact .create
    · cases h
  · next hst =>
    cases h
    rw [hst]
    exact .syncFile
  · next hst =>
    cases h
    rw [hst]
    exact .syncName
  · next hst =>
    rw [hst]
    split at h
    · cases h
    · next he _ =>
      cases h
      exact .replace he
    · cases h
  · next hst =>
    cases h
    rw [hst]
    exact .syncGuard
  · next hst =>
    rw [hst]
    obtain ⟨f, hf, he⟩ := Option.map_eq_some_iff.1 h
    cases he
    exact .list hf
  · cases h
  · next f frames hst =>
    rw [hst]
    split at h
    · next hf => exact visit_moves hf h
    · exact leave_moves h
    · split at h
      · next hn =>
        split at h
        · next hnames =>
          cases h
          unfold namesAt at hn
          split at hn
          · cases hn
            exact .erased hnames
          · cases hn
        · cases h
      · cases h
  · next hst =>
    cases h
    rw [hst]
    exact .sync
  · cases h

/-! ## What holds in every world -/

/-- The guard is there, whatever it holds, and no crash takes it away. -/
def Guarded (v : Store ι) : Prop := v.Sure none eraseName fun o => ∃ data, o = some (.file data)

def Locked (v : Store ι) : Prop := ∃ data, (v.now none).lookup lockName = some (.file data)

/-- Only the lock and the guard are left. -/
def Empty (v : Store ι) : Prop :=
  ∀ es ∈ v.versions none, ∀ c, es.lookup c ≠ none ↔ c = lockName ∨ c = eraseName

def StageInv (v : Store ι) (r : Run ι) : Stage ι → Prop
  | .create => True
  | .syncFile | .syncName | .replace => ∃ data, (v.now none).lookup r.temporary = some (.file data)
  | .syncGuard => ∃ data, (v.now none).lookup eraseName = some (.file data)
  | .list => Guarded v ∧ v.Clean none
  | .prune frames => Guarded v ∧ v.Clean none ∧ Spared frames
  | .sync fd frames => Guarded v ∧ (fd ≠ none → v.Clean none) ∧ Spared frames
  | .erased => Guarded v ∧ Empty v

theorem moves_guarded {st st' : Stage ι} (h : Moves v r st v' st') (hi : StageInv v r st)
    (hg : Guarded v) : Guarded v' := by
  cases h with
  | create => exact hg.insert fun _ => (temporary_ne_erase r).symm
  | replace he =>
    obtain ⟨data, hd⟩ := hi
    refine hg.edit fun _ => ⟨data, ?_⟩
    rw [AList.lookup_insert, ← he, hd]
  | remove hf htodo => exact hg.erase fun hfd => ((hi.2.2.suffix hf).head htodo hfd).2
  | syncName | syncGuard | sync => exact hg.sync _
  | syncFile | list | descend | erased => exact hg

theorem moves_locked {st st' : Stage ι} (h : Moves v r st v' st') (hi : StageInv v r st)
    (hl : Locked v) : Locked v' := by
  obtain ⟨data, hl⟩ := hl
  cases h with
  | create => exact ⟨data, by simp [AList.lookup_insert_ne (temporary_ne_lock r).symm, hl]⟩
  | replace he =>
    refine ⟨data, ?_⟩
    rw [Volume.now_edit_self, AList.lookup_insert_ne lock_ne_erase,
      AList.lookup_erase_ne (temporary_ne_lock r).symm, hl]
  | @remove f _ _ c todo hf htodo =>
    refine ⟨data, ?_⟩
    by_cases hfd : f.fd = none
    · rw [hfd, Volume.now_edit_self,
        AList.lookup_erase_ne ((hi.2.2.suffix hf).head htodo hfd).1, hl]
    · rw [Volume.now_edit_ne (Ne.symm hfd), hl]
  | syncName | syncGuard | sync => exact ⟨data, by rw [Volume.now_sync, hl]⟩
  | syncFile | list | descend | erased => exact ⟨data, hl⟩

theorem moves_stage {st st' : Stage ι} (h : Moves v r st v' st') (hi : StageInv v r st) :
    StageInv v' r st' := by
  cases h with
  | create => exact ⟨r.guardData, by simp⟩
  | syncFile => exact hi
  | syncName =>
    obtain ⟨data, hd⟩ := hi
    exact ⟨data, by rw [Volume.now_sync, hd]⟩
  | replace he =>
    obtain ⟨data, hd⟩ := hi
    exact ⟨data, by rw [Volume.now_edit_self, AList.lookup_insert, ← he, hd]⟩
  | syncGuard => exact ⟨Volume.sure_sync hi, Volume.clean_sync⟩
  | list hf =>
    refine ⟨hi.1, hi.2, fun g hg hfd => ?_⟩
    rw [List.mem_singleton.1 hg]
    exact (enter_fd hf).2 rfl
  | descend hc =>
    refine ⟨hi.1, hi.2.1, fun g hg hfd => ?_⟩
    rcases List.mem_cons.1 hg with rfl | hg
    · rw [(enter_fd hc).1] at hfd
      cases hfd
    · exact hi.2.2 g hg hfd
  | remove hf htodo =>
    exact ⟨moves_guarded (.remove hf htodo) hi hi.1, fun hfd => hi.2.1.edit_ne (Ne.symm hfd),
      (hi.2.2.suffix hf).tail htodo⟩
  | erased h =>
    refine ⟨hi.1, fun es hes c => ?_⟩
    rw [hi.2.1.versions, List.mem_singleton] at hes
    rw [hes]
    exact keys_empty h c
  | @sync fd frames =>
    refine ⟨hi.1.sync fd, ?_, hi.2.2⟩
    by_cases hfd : fd = none
    · rw [hfd]
      exact Volume.clean_sync
    · exact (hi.2.1 hfd).sync fd

/-- Nothing is removed before the guard is on the medium. -/
theorem moves_removes {st st' : Stage ι} (h : Moves v r st v' st') (hi : StageInv v r st)
    {fd : Fd ι} {c : Bytes} (hc : (v.now fd).lookup c ≠ none) (hc' : (v'.now fd).lookup c = none) :
    fd = none ∧ c = r.temporary ∨ Guarded v := by
  cases h with
  | create =>
    by_cases hfd : fd = none
    · subst hfd
      rw [Volume.now_edit_self] at hc'
      by_cases hct : c = r.temporary
      · exact .inl ⟨rfl, hct⟩
      · rw [AList.lookup_insert_ne hct] at hc'
        exact absurd hc' hc
    · rw [Volume.now_edit_ne hfd] at hc'
      exact absurd hc' hc
  | replace he =>
    by_cases hfd : fd = none
    · subst hfd
      rw [Volume.now_edit_self] at hc'
      by_cases hct : c = r.temporary
      · exact .inl ⟨rfl, hct⟩
      · by_cases hce : c = eraseName
        · rw [hce, AList.lookup_insert] at hc'
          cases hc'
        · rw [AList.lookup_insert_ne hce, AList.lookup_erase_ne hct] at hc'
          exact absurd hc' hc
    · rw [Volume.now_edit_ne hfd] at hc'
      exact absurd hc' hc
  | remove => exact .inr hi.1
  | syncName | syncGuard | sync =>
    rw [Volume.now_sync] at hc'
    exact absurd hc' hc
  | syncFile | list | descend | erased => exact absurd hc' hc

theorem takeLock_some {held : Bool} (h : takeLock S held v = some v') : Locked v' ∧
    (v' = v ∧ held = false ∨
      (v.now none).lookup lockName = none ∧
        v' = v.edit none (AList.insert lockName (.file []))) := by
  unfold takeLock at h
  split at h
  · next hn =>
    cases h
    exact ⟨⟨[], by simp⟩, .inr ⟨hn, rfl⟩⟩
  · next data hd =>
    split at h
    · next hh =>
      cases h
      exact ⟨⟨data, hd⟩, .inl ⟨rfl, hh.2⟩⟩
    · cases h
  · cases h

theorem takeLock_held (h : Locked v) : takeLock S true v = none := by
  obtain ⟨data, hd⟩ := h
  simp [takeLock, hd]

theorem Guarded.takeLock {held : Bool} (hg : Guarded v) (h : takeLock S held v = some v') :
    Guarded v' := by
  rcases (takeLock_some h).2 with ⟨rfl, -⟩ | ⟨-, rfl⟩
  · exact hg
  · exact hg.insert fun _ => lock_ne_erase.symm

/-- A store with a guard is not opened. -/
theorem Guarded.busy {held : Bool} (hg : Guarded v) :
    (asperOpen S held v).2 = .error .busy := by
  unfold asperOpen
  split
  · rfl
  · next v' h =>
    obtain ⟨data, hd⟩ := (hg.takeLock h).now
    simp only [hd]

/-- What opening does to a store. -/
theorem asperOpen_cases (S : Stats ι) (held : Bool) (v : Store ι) :
    asperOpen S held v = (v, .error .busy) ∨
    ∃ v', takeLock S held v = some v' ∧ (asperOpen S held v).1 = v' ∧
      ((asperOpen S held v).2.isOk = true → (v'.now none).lookup eraseName = none) := by
  unfold asperOpen
  split
  · exact .inl rfl
  · next v' h =>
    refine .inr ⟨v', h, ?_⟩
    split
    · next hn => exact ⟨rfl, fun _ => hn⟩
    · exact ⟨rfl, nofun⟩
    · exact ⟨rfl, nofun⟩

/-- What the head of the script does to a store. -/
theorem begin_cases (H : Digests) (S : Stats ι) (held : Bool) (v : Store ι)
    (operation expected : Bytes) :
    begin H S held v operation expected = (v, none) ∨
    ∃ v', takeLock S held v = some v' ∧
      (begin H S held v operation expected = (v', none) ∨
        (begin H S held v operation expected).1 = v'.sync none ∧
        ∀ r, (begin H S held v operation expected).2 = some r → r.stage = .create) := by
  unfold begin
  split
  · exact .inl rfl
  split
  · exact .inl rfl
  next v' h =>
  refine .inr ⟨v', h, ?_⟩
  split
  · exact .inl rfl
  split
  · exact .inr ⟨rfl, nofun⟩
  split
  · exact .inr ⟨rfl, nofun⟩
  · exact .inr ⟨rfl, fun r hr => by cases hr; rfl⟩

structure Inv (w : World ι) : Prop where
  alone : w.run ≠ none → w.host = false
  locked : w.held = true → Locked w.store
  unguarded : w.host = true → (w.store.now none).lookup eraseName = none
  stage : ∀ r, w.run = some r → StageInv w.store r r.stage

/-- A world in which nobody has the store. -/
theorem inv_idle (v : Store ι) : Inv ⟨v, none, false⟩ :=
  ⟨fun h => absurd rfl h, nofun, nofun, nofun⟩

theorem Inv.not_held {w : World ι} (hh : w.held = false) : w.run = none ∧ w.host = false := by
  simpa [World.held] using hh

theorem Locked.of_eq (h : Locked v)
    (he : (v'.now none).lookup lockName = (v.now none).lookup lockName) : Locked v' := by
  obtain ⟨data, hd⟩ := h
  exact ⟨data, by rw [he, hd]⟩

theorem next_moves {r' : Run ι} (h : r.next S v = some (v', r')) :
    Moves v r r.stage v' r'.stage ∧ r'.temporary = r.temporary := by
  obtain ⟨x, hx, he⟩ := Option.map_eq_some_iff.1 h
  cases he
  exact ⟨step_moves hx, rfl⟩

/-- What is known of a stage depends on the name of the run only. -/
theorem StageInv.congr {r' : Run ι} {st : Stage ι} (h : StageInv v r st)
    (he : r'.temporary = r.temporary) : StageInv v r' st := by
  cases st with
  | syncFile | syncName | replace =>
    unfold StageInv
    rw [he]
    exact h
  | create | syncGuard | list | prune | sync | erased => exact h

theorem step_inv {w w' : World ι} {e : Event ι} (hi : Inv w) (h : Step H w e w') : Inv w' := by
  cases h with
  | opened S =>
    rcases asperOpen_cases S w.held w.store with he | ⟨v', ht, hv, hok⟩
    · rw [he]
      simpa [Except.isOk, Except.toBool] using hi
    · have hheld : w.held = false := by
        cases hh : w.held with
        | false => rfl
        | true =>
          rw [hh, takeLock_held (hi.locked hh)] at ht
          cases ht
      obtain ⟨hrun, hhost⟩ := Inv.not_held hheld
      rw [hv]
      refine ⟨fun hr => absurd hrun hr, fun _ => (takeLock_some ht).1, fun hh => hok ?_,
        fun r hr => ?_⟩
      · simpa [hhost] using hh
      · rw [hrun] at hr
        cases hr
  | work hh hg hl =>
    refine ⟨hi.alone, fun hheld => (hi.locked hheld).of_eq hl.now,
      fun hh' => hg.now.trans (hi.unguarded hh'), fun r hr => ?_⟩
    rw [hi.alone (by rw [hr]; nofun)] at hh
    cases hh
  | close =>
    refine ⟨fun _ => rfl, fun hh => hi.locked ?_, nofun, hi.stage⟩
    simp only [World.held, Bool.or_false] at hh
    simp [World.held, hh]
  | begun S operation expected hrun =>
    rcases begin_cases H S w.held w.store operation expected with he | ⟨v', ht, he⟩
    · rw [he]
      refine ⟨fun h => absurd rfl h, fun hh => hi.locked ?_, hi.unguarded, nofun⟩
      simp only [World.held, Option.isSome_none, Bool.false_or] at hh
      simp [World.held, hh]
    · have hheld : w.held = false := by
        cases hh : w.held with
        | false => rfl
        | true =>
          rw [hh, takeLock_held (hi.locked hh)] at ht
          cases ht
      have hhost := (Inv.not_held hheld).2
      have hlock := (takeLock_some ht).1
      rcases he with he | ⟨hv, hr⟩
      · rw [he]
        exact ⟨fun h => absurd rfl h, fun _ => hlock,
          fun hh => (nomatch hhost.symm.trans hh), nofun⟩
      · refine ⟨fun _ => hhost, fun _ => ?_, fun hh => ?_, fun r hr' => ?_⟩
        · rw [hv]
          exact hlock.of_eq (by rw [Volume.now_sync])
        · rw [hhost] at hh
          cases hh
        · rw [hr r hr']
          trivial
  | erase S hr hn =>
    obtain ⟨hm, ht⟩ := next_moves hn
    have hst := hi.stage _ hr
    have hhost := hi.alone (by rw [hr]; nofun)
    refine ⟨fun _ => hhost, fun _ => moves_locked hm hst (hi.locked ?_), fun hh => ?_,
      fun r' hr' => ?_⟩
    · simp [World.held, hr]
    · rw [hhost] at hh
      cases hh
    · cases hr'
      exact (moves_stage hm hst).congr ht
  | stop =>
    refine ⟨fun h => absurd rfl h, fun hh => hi.locked ?_, hi.unguarded, nofun⟩
    simp only [World.held, Option.isSome_none, Bool.false_or] at hh
    simp [World.held, hh]
  | crash => exact inv_idle _

theorem Guarded.crash (hg : Guarded v) (h : v.Crash Lands v') : Guarded v' := by
  refine Volume.Sure.crash hg h ?_
  rintro o o' hrel ⟨data, rfl⟩
  cases hrel with
  | some hl =>
    cases hl with
    | file _ data' => exact ⟨data', rfl⟩
    | same => exact ⟨data, rfl⟩

/-- **The guard stays.** -/
theorem step_guarded {w w' : World ι} {e : Event ι} (hi : Inv w) (hg : Guarded w.store)
    (h : Step H w e w') : Guarded w'.store ∧ ∀ r, e = .opened r → r = .error .busy := by
  cases h with
  | opened S =>
    refine ⟨?_, fun r hr => ?_⟩
    · rcases asperOpen_cases S w.held w.store with he | ⟨v', ht, hv, -⟩
      · rw [he]
        exact hg
      · rw [hv]
        exact hg.takeLock ht
    · cases hr
      exact hg.busy
  | work hh =>
    obtain ⟨data, hd⟩ := hg.now
    rw [hi.unguarded hh] at hd
    cases hd
  | begun S operation expected =>
    refine ⟨?_, nofun⟩
    rcases begin_cases H S w.held w.store operation expected with he | ⟨v', ht, he | ⟨hv, -⟩⟩
    · rw [he]
      exact hg
    · rw [he]
      exact hg.takeLock ht
    · rw [hv]
      exact (hg.takeLock ht).sync none
  | erase S hr hn => exact ⟨moves_guarded (next_moves hn).1 (hi.stage _ hr) hg, nofun⟩
  | close | stop => exact ⟨hg, nofun⟩
  | crash hc => exact ⟨hg.crash hc, nofun⟩

theorem runs_inv {w w' : World ι} {es : List (Event ι)} (hi : Inv w) (h : Runs (Step H) w es w') :
    Inv w' :=
  h.inv hi fun _ _ _ _ hi hs => step_inv hi hs

theorem runs_guarded {w w' : World ι} {es : List (Event ι)} (hi : Inv w) (hg : Guarded w.store)
    (h : Runs (Step H) w es w') :
    (Inv w' ∧ Guarded w'.store) ∧ ∀ r, .opened r ∈ es → r = .error .busy := by
  refine h.inv
    (I := fun es w' => (Inv w' ∧ Guarded w'.store) ∧ ∀ r, .opened r ∈ es → r = .error .busy)
    ⟨⟨hi, hg⟩, nofun⟩ fun es w e w' ⟨⟨hi, hg⟩, hb⟩ hs => ?_
  obtain ⟨hg', hb'⟩ := step_guarded hi hg hs
  refine ⟨⟨step_inv hi hs, hg'⟩, fun r hr => ?_⟩
  rcases List.mem_append.1 hr with hr | hr
  · exact hb r hr
  · exact hb' r (List.mem_singleton.1 hr).symm

/-- **Erasure never resurrects data**, from any store that nobody has: before the guard is on the
medium nothing is removed, after that the store stays guarded and is not opened, and when a run of
the script ends only the lock and the guard are left, on the medium as well. -/
theorem erasure_guarded (v : Store ι) {w : World ι} {es : List (Event ι)}
    (h : Runs (Step H) ⟨v, none, false⟩ es w) :
    (∀ S r v' r', w.run = some r → r.next S w.store = some (v', r') → ∀ fd c,
      (w.store.now fd).lookup c ≠ none → (v'.now fd).lookup c = none →
        fd = none ∧ c = r.temporary ∨ Guarded w.store) ∧
    (Guarded w.store → ∀ es' w', Runs (Step H) w es' w' →
      Guarded w'.store ∧ w'.host = false ∧
      (∀ S, (asperOpen S w'.held w'.store).2 = .error .busy) ∧
      ∀ r, .opened r ∈ es' → r = .error .busy) ∧
    ∀ r, w.run = some r → r.stage = .erased → Empty w.store := by
  have hi := runs_inv (inv_idle v) h
  refine ⟨fun S r v' r' hr hn fd c => moves_removes (next_moves hn).1 (hi.stage r hr),
    fun hg es' w' h' => ?_, fun r hr hst => ?_⟩
  · obtain ⟨⟨hi', hg'⟩, hb⟩ := runs_guarded hi hg h'
    refine ⟨hg', ?_, fun S => hg'.busy, hb⟩
    by_contra hhost
    obtain ⟨data, hd⟩ := hg'.now
    rw [hi'.unguarded (by simpa using hhost)] at hd
    cases hd
  · have hst' := hi.stage r hr
    rw [hst] at hst'
    exact hst'.2

/-! ## A store that is erased -/

/-- `n` operations of the script. -/
def iterate (S : Stats ι) : Nat → Store ι × Run ι → Option (Store ι × Run ι)
  | 0, x => some x
  | n + 1, x => (x.2.next S x.1).bind (iterate S n)

theorem iterate_runs {n : Nat} {w : World ι} {x : Store ι × Run ι} (hr : w.run = some r)
    (h : iterate S n (w.store, r) = some x) :
    ∃ es, Runs (Step H) w es { w with store := x.1, run := some x.2 } := by
  induction n generalizing w r with
  | zero =>
    cases h
    exact ⟨[], by rw [← hr]; exact .nil⟩
  | succ n ih =>
    obtain ⟨⟨v', r'⟩, hn, h⟩ := Option.bind_eq_some_iff.1 h
    obtain ⟨es, hes⟩ := ih (w := { w with store := v', run := some r' }) rfl h
    exact ⟨_, (Runs.single (.erase S hr hn)).append hes⟩

def Stage.isErased : Stage ι → Bool
  | .erased => true
  | _ => false

theorem Stage.eq_erased {st : Stage ι} (h : st.isErased = true) : st = .erased := by
  cases st <;> first | rfl | cases h

end

def plainStat : Stat := ⟨0, 0, 0, 0, 0, 1, 0, 0, 0⟩

def plainStats : Stats Unit := ⟨fun _ _ => plainStat, fun _ => plainStat, fun _ => 0, 0⟩

def objectsName : Bytes := ascii "objects"

/-- A manifest, and a directory with a file. -/
def plainStore : Store Unit
  | none => ⟨(AList.insert objectsName (.dir ()) ∅).insert manifestName (.file []), []⟩
  | some () => ⟨AList.insert (ascii "a") (.file [1]) ∅, []⟩

def plainDigests : Digests := ⟨fun b => b, fun _ => []⟩

def plainBegin : Store Unit × Option (Run Unit) :=
  begin plainDigests plainStats false plainStore (ascii "1") []

def plainRun : Option (Store Unit × Run Unit) :=
  plainBegin.2.bind fun r => iterate plainStats 14 (plainBegin.1, r)

/-- The script erases the store to its end. -/
theorem plain_erased : ∃ es w r, Runs (Step plainDigests) ⟨plainStore, none, false⟩ es w ∧
    w.run = some r ∧ r.removed = 3 ∧ r.stage = .erased ∧ Empty w.store := by
  have hend : (plainRun.any fun x => x.2.stage.isErased && x.2.removed == 3) = true := by decide
  obtain ⟨x, hx⟩ : ∃ x, plainRun = some x := by
    rw [← Option.isSome_iff_exists]
    decide
  rw [hx] at hend
  obtain ⟨hst, hrem⟩ := Bool.and_eq_true_iff.1 (hend : (x.2.stage.isErased && _) = true)
  obtain ⟨r, hr, hit⟩ := Option.bind_eq_some_iff.1 hx
  have hbegin : Step plainDigests ⟨plainStore, none, false⟩ .begun
      ⟨plainBegin.1, plainBegin.2, false⟩ := .begun plainStats (ascii "1") [] rfl
  obtain ⟨es, hes⟩ := iterate_runs (w := ⟨plainBegin.1, plainBegin.2, false⟩) hr hit
  have hruns := (Runs.single hbegin).append hes
  exact ⟨_, _, x.2, hruns, rfl, eq_of_beq hrem, Stage.eq_erased hst,
    (erasure_guarded plainStore hruns).2.2 _ rfl (Stage.eq_erased hst)⟩

end Erase

end Asper
