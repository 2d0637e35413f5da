import Asper.Source.Proof.Events

/-! # Views

`viewOpen_run`: opening a view gives the events and the pins of the scope. `viewHead_run` and
`viewRead_run` read one event of it. -/

namespace Asper

open Durable

/-- The log of `s` is there whole, in its directory. -/
structure Opened (D : Digest) (d : Disk) (s : Bytes) (es : List Event) : Prop where
  ready : Ready d s
  log : LogAt D d (scopeDir s) eventsName es []

/-- The view of a scope with the events `es` and the pins `ps`. -/
structure ViewOf (D : Digest) (s : Bytes) (es : List Event) (ps : List Pin) (v : View) : Prop where
  path : v.path = scopeFile s eventsName
  pins : v.pins = ps
  count : v.files.count = es.length
  files : es ≠ [] → v.files = filesOf D es

section
variable {D : Digest} {Good : Bytes → Prop} {d d' : Disk} {s : Bytes} {es : List Event}
  {st : SourceState} {ps : List Pin} {v : View}

theorem Opened.congr (h : Opened D d s es) (h1 : d' scopesDir = d scopesDir)
    (h2 : d' (scopeDir s) = d (scopeDir s))
    (hf : ∀ p ∈ logFiles (scopeDir s) eventsName, d' p = d p) : Opened D d' s es :=
  ⟨h.ready.congr h1 h2, h.log.congr (h.ready.congr h1 h2).find hf⟩

theorem dirWrites_ready (h : Ready d s) : dirWrites d s = [] := by
  have h1 : d.set scopesDir (some .dir) = d := Function.update_eq_self_iff.2 h.scopes.symm
  rw [dirWrites, mkdirWrites, mkdirWrites, h1, if_neg (by simp [h.scopes]),
    if_neg (by simp [h.dir]), List.append_nil]

theorem SourceAt.viewOpen_run (h : SourceAt D Good d st) (hv : sourceScopeValid s = true)
    (hi : s ≠ indexName) :
    ∃ ws v, viewOpen D s d = ⟨ws, .ok v⟩ ∧ ViewOf D s (st.events s) (st.pins s) v ∧
      Steps RowCut d ws (Holds D Good d st)
        fun d' => Holds D Good d st d' ∧ Opened D d' s (st.events s) := by
  have hdirs := h.dirs_steps hv hi
  obtain ⟨h1, hd1⟩ := hdirs.final
  have hready : Ready (applyAll (dirWrites d s) d) s := by
    rw [hd1]
    exact ready_made
  have hpins : pinsLoad s (applyAll (dirWrites d s) d) = ⟨[], .ok (st.pins s)⟩ := by
    have := pinsLoad_run (h1.1.scope s hv hi).dirs (h1.1.scope s hv hi).pins
    rwa [dirWrites_ready hready] at this
  obtain ⟨t, hl⟩ := h1.1.log_at hv hi hready
  obtain ⟨ws, fs, hopen, -, hcount, hfs, hlr⟩ := open_for_append hl
  have hsame {d' : Disk} {t' : Bytes} (hl' : LogAt D d' (scopeDir s) eventsName (st.events s) t')
      (hd' : ∀ p, p ∉ logFiles (scopeDir s) eventsName →
        d' p = applyAll (dirWrites d s) d p) : Holds D Good d st d' := by
    have hk := Keeps.congr fun p hp => hd' p (objectArea_not_log s hp)
    have := h1.1.log' hready.made_eq.symm (h.listed s) hl' hd'
    rw [setEvents_self] at this
    exact ⟨this, h1.2.trans hk⟩
  refine ⟨dirWrites d s ++ ([] ++ (ws ++ [])), ⟨scopeFile s eventsName, fs, st.pins s⟩, ?_,
    ⟨rfl, rfl, hcount, hfs⟩, (hdirs.weaken (fun _ h => h) fun _ h => h).append ?_⟩
  · exact Act.bind_run_run (sourceScopePath_run (h.scope s hv hi).dirs eventsName .nomem)
      (Act.bind_run_run hpins (Act.bind_run_run hopen rfl))
  · rw [List.append_nil, List.nil_append]
    refine (LogRun.steps RowCut hlr).weaken (fun d' hd' => ?_) fun d' hd' => ?_
    · obtain ⟨⟨t', hl'⟩, hd'⟩ := hd'
      exact hsame hl' hd'
    · exact ⟨hsame hd'.1.1 hd'.2, hready.congr (hd'.2 _ (scopesDir_not_log s))
        (hd'.2 _ (scopeDir_not_log s s)), hd'.1.1⟩

theorem viewHead_run (hv : ViewOf D s es ps v) (h : Opened D d s es) {i : Nat} (hi : i < es.length) :
    viewHead D v (i + 1) d = ⟨[], .ok (pinsApply ps es[i].bare, v)⟩ := by
  have hf := hv.files fun hn => by simp [hn] at hi
  obtain ⟨path, files, pins⟩ := v
  obtain rfl : files = filesOf D es := hf
  obtain rfl : path = scopeFile s eventsName := hv.path
  obtain rfl : pins = ps := hv.pins
  exact Act.bind_run_run (filesHead_run h.log hi) rfl

theorem viewRead_run (hv : ViewOf D s es ps v) (h : Opened D d s es) {i : Nat} (hi : i < es.length) :
    viewRead D v (i + 1) d = ⟨[], .ok (pinsApply ps es[i], v)⟩ := by
  have hf := hv.files fun hn => by simp [hn] at hi
  obtain ⟨path, files, pins⟩ := v
  obtain rfl : files = filesOf D es := hf
  obtain rfl : path = scopeFile s eventsName := hv.path
  obtain rfl : pins = ps := hv.pins
  exact Act.bind_run_run (filesRead_run h.log hi) rfl

end

end Asper
