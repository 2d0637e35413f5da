import Asper.Source.Store
import Asper.Base.Proof.Os

/-! # Directories of the source store

Every operation makes the directories it needs first. `made d s` is the disk `d` with the
directory of the scope `s`; `sourceScopePath_run` and `sourceObjectPath_run` say that the
operations get there, with writes that change nothing but these directories. -/

namespace Asper

open Durable

/-- A directory, or the place for one. -/
def DirOk (d : Disk) (p : Path) : Prop := d p = none ∨ d p = some .dir

theorem DirOk.congr {d d' : Disk} {p : Path} (h : DirOk d p) (hd : d' p = d p) : DirOk d' p := by
  rwa [DirOk, hd]

def mkdirWrites (d : Disk) (p : Path) : List Write := if d p = none then [.mkdir p] else []

theorem applyAll_mkdirWrites {d : Disk} {p : Path} (h : DirOk d p) :
    applyAll (mkdirWrites d p) d = d.set p (some .dir) := by
  rcases h with h | h
  · rw [mkdirWrites, if_pos h]
    rfl
  · rw [mkdirWrites, if_neg (by simp [h]), applyAll_nil]
    exact (Function.update_eq_self_iff.2 h.symm).symm

theorem mkdirStep_run {d : Disk} {p : Path} (h : DirOk d p) :
    mkdirStep p d = ⟨mkdirWrites d p, .ok ()⟩ := by
  rcases h with h | h
  · rw [mkdirStep, Act.bind_run (w := []) (a := none) (by rw [Act.look, h]), mkdirWrites,
      if_pos h]
    rfl
  · rw [mkdirStep, Act.bind_run (w := []) (a := some .dir) (by rw [Act.look, h]), mkdirWrites,
      if_neg (by simp [h])]
    rfl

/-- Making a directory stops before it or after it. -/
theorem mkdirWrites_steps {Bad : Write → Write → Prop} {P : Disk → Prop} {d : Disk} {p : Path}
    (h : DirOk d p) (h0 : P d) (h1 : P (d.set p (some .dir))) :
    Steps Bad d (mkdirWrites d p) P fun d' => d' = d.set p (some .dir) := by
  rcases h with h | h
  · rw [mkdirWrites, if_pos h]
    exact .whole (fun _ => rfl) h0 h1 rfl
  · rw [mkdirWrites, if_neg (by simp [h])]
    exact .nil h0 (Function.update_eq_self_iff.2 h.symm).symm

theorem orFail_run {α : Type} {m : Io α} {d : Disk} {ws : List Write} {a : α} (e : Err)
    (h : m d = ⟨ws, .ok a⟩) : orFail m e d = ⟨ws, .ok a⟩ := by
  have ha : m.attempt d = ⟨ws, .ok (.ok a)⟩ := by rw [Act.attempt, Act.writes, Act.result, h]
  rw [orFail, Act.bind_run ha, Act.writes_pure, Act.result_pure, List.append_nil]

theorem orFail_ok {α : Type} {d : Disk} {m : Io α} {e : Err} {a : α} (h : (orFail m e).result d = .ok a) :
    m.result d = .ok a := by
  cases hm : m.result d with
  | ok b =>
    rw [orFail, Act.result_attempt_of hm, Act.result_pure] at h
    exact h
  | error e' =>
    rw [orFail, Act.result_attempt_of hm, Act.result_fail] at h
    cases h

theorem mkdirStep_ok {d : Disk} {p : Path} (h : (mkdirStep p).result d = .ok ()) : DirOk d p := by
  cases hd : d p with
  | none => exact .inl hd
  | some x =>
    cases x with
    | dir => exact .inr hd
    | file b =>
      rw [mkdirStep, Act.result_look_bind, hd] at h
      cases h

theorem confined_orFail {α : Type} {G : Path → Prop} {m : Io α} (h : Act.Confined G m) (e : Err) :
    Act.Confined G (orFail m e) :=
  .bind h.attempt fun r => by
    cases r with
    | ok a => exact .pure _
    | error _ => exact .fail _

section
variable {Bad : Write → Write → Prop} {I : Disk → Prop}

theorem keeps_require {c : Prop} [Decidable c] (e : Err) :
    Act.Keeps Bad I (require c e) fun _ => c :=
  .ite (fun h => .pure h) fun _ => .fail e

theorem keeps_orFail {α : Type} {m : Io α} {R : α → Prop} (h : Act.Keeps Bad I m R) (e : Err) :
    Act.Keeps Bad I (orFail m e) R :=
  h.attempt.bind fun r hr => by
    cases r with
    | ok a => exact .pure (hr a rfl)
    | error _ => exact .fail e

theorem keeps_osBlobOpen (p : Path) : Act.Keeps Bad I (osBlobOpen p) fun _ => True :=
  .silent (fun _ => rfl) fun _ _ _ _ => trivial

theorem keeps_lift {α : Type} (x : Except Err α) :
    Act.Keeps Bad I (Act.lift x : Io α) fun a => x = .ok a :=
  .silent (fun _ => rfl) fun _ _ _ h => h

end

section
variable {d : Disk} {s : Bytes}

/-- `d` with the directory of `s`. -/
def made (d : Disk) (s : Bytes) : Disk := (d.set scopesDir (some .dir)).set (scopeDir s) (some .dir)

theorem scopeDir_ne : scopeDir s ≠ scopesDir := by simp [scopeDir, scopesDir]

theorem scopeFile_ne (n : Bytes) : scopeFile s n ≠ scopesDir ∧ scopeFile s n ≠ scopeDir s := by
  simp [scopeFile, scopeDir, scopesDir]

theorem made_scopes : made d s scopesDir = some .dir := by
  rw [made, Disk.set_ne _ _ scopeDir_ne.symm, Disk.set_self]

theorem made_dir : made d s (scopeDir s) = some .dir := Disk.set_self ..

theorem made_other {p : Path} (h1 : p ≠ scopesDir) (h2 : p ≠ scopeDir s) : made d s p = d p := by
  rw [made, Disk.set_ne _ _ h2, Disk.set_ne _ _ h1]

theorem made_file (n : Bytes) : made d s (scopeFile s n) = d (scopeFile s n) :=
  made_other (scopeFile_ne n).1 (scopeFile_ne n).2

theorem find_scopesDir (h : d scopesDir = some .dir) : d.find scopesDir = .found .dir :=
  Disk.find_top_some h

theorem find_scopeDir (h : d scopesDir = some .dir) (hs : d (scopeDir s) = some .dir) :
    d.find (scopeDir s) = .found .dir := Disk.find_child_some (find_scopesDir h) hs

/-- The directories of `s` are there or can be made. -/
structure DirsOk (d : Disk) (s : Bytes) : Prop where
  scopes : DirOk d scopesDir
  dir : DirOk d (scopeDir s)

theorem DirsOk.made : DirsOk (made d s) s := ⟨.inr made_scopes, .inr made_dir⟩

theorem made_made : made (made d s) s = made d s := by
  funext p
  by_cases h1 : p = scopeDir s
  · subst h1; rw [made_dir, made_dir]
  · by_cases h2 : p = scopesDir
    · subst h2; rw [made_scopes, made_scopes]
    · rw [made_other h2 h1]

theorem made_set_scopes : made (d.set scopesDir (some .dir)) s = made d s := by
  rw [made, made, Disk.set_set]

/-- The writes that make the directories of `s`. -/
def dirWrites (d : Disk) (s : Bytes) : List Write :=
  mkdirWrites d scopesDir ++ mkdirWrites (d.set scopesDir (some .dir)) (scopeDir s)

theorem DirsOk.step (h : DirsOk d s) : DirOk (d.set scopesDir (some .dir)) (scopeDir s) := by
  rw [DirOk, Disk.set_ne _ _ scopeDir_ne]
  exact h.dir

theorem applyAll_dirWrites (h : DirsOk d s) : applyAll (dirWrites d s) d = made d s := by
  rw [dirWrites, applyAll_append, applyAll_mkdirWrites h.scopes, applyAll_mkdirWrites h.step]
  rfl

theorem osMkdirP_scopesDir (h : DirOk d scopesDir) :
    osMkdirP scopesDir d = ⟨mkdirWrites d scopesDir, .ok ()⟩ := by
  have := Act.bind_run_run (f := fun _ => mkdirFrom scopesDir []) (mkdirStep_run h) rfl
  rw [List.append_nil] at this
  exact this

theorem osMkdirP_scopeDir (h : d scopesDir = some .dir) (hs : DirOk d (scopeDir s)) :
    osMkdirP (scopeDir s) d = ⟨mkdirWrites d (scopeDir s), .ok ()⟩ := by
  have hn : mkdirWrites d scopesDir = [] := by rw [mkdirWrites, if_neg (by simp [h])]
  have h2 := Act.bind_run_run (f := fun _ => mkdirFrom (scopeDir s) []) (mkdirStep_run hs) rfl
  have h1 := mkdirStep_run (.inr h)
  rw [hn] at h1
  have := Act.bind_run_run (f := fun _ => mkdirFrom scopesDir [s]) h1 h2
  rw [List.append_nil] at this
  exact this

theorem sourceScopePath_run (h : DirsOk d s) (name : Bytes) (e : Err) :
    sourceScopePath s name e d = ⟨dirWrites d s, .ok (scopeFile s name)⟩ := by
  have h1 := orFail_run e (osMkdirP_scopesDir h.scopes)
  have hd : applyAll (mkdirWrites d scopesDir) d = d.set scopesDir (some .dir) :=
    applyAll_mkdirWrites h.scopes
  have h2 := orFail_run e (osMkdirP_scopeDir (d := d.set scopesDir (some .dir))
    (Disk.set_self ..) h.step)
  rw [← hd] at h2
  have h3 := Act.bind_run_run (f := fun _ => (pure (scopeFile s name) : Io Path)) h2 rfl
  rw [List.append_nil] at h3
  have := Act.bind_run_run (f := fun _ => do
    orFail (osMkdirP (scopeDir s)) e
    pure (scopeFile s name)) h1 h3
  rw [hd] at this
  exact this

/-- Making the directories stops with some of them made. -/
theorem dirWrites_steps {Bad : Write → Write → Prop} (h : DirsOk d s) :
    Steps Bad d (dirWrites d s) (fun d' => DirsOk d' s ∧ made d' s = made d s ∧
      ∀ p, p ≠ scopesDir → p ≠ scopeDir s → d' p = d p) fun d' => d' = made d s := by
  have h1 : DirsOk (d.set scopesDir (some .dir)) s := ⟨.inr (Disk.set_self ..), h.step⟩
  refine (mkdirWrites_steps h.scopes ⟨h, rfl, fun _ _ _ => rfl⟩
    ⟨h1, made_set_scopes, fun p hp _ => Disk.set_ne _ _ hp⟩).append ?_
  rw [applyAll_mkdirWrites h.scopes]
  refine mkdirWrites_steps h.step ⟨h1, made_set_scopes, fun p hp _ => Disk.set_ne _ _ hp⟩
    ⟨.made, made_made, fun p hp hp' => made_other hp hp'⟩

end

end Asper
