import Asper.Source.Calls
import Asper.Source.Proof.History
import Asper.Source.Proof.Touch

/-! # Pins among other calls

A step other than the row of a pin call leaves every pin log alone, and the row of a pin call is added
at its end (`pinStep_data`), so the rows of a log are those it had and those of the pin calls since, in
order (`pinSteps_data`). Every report of an event gives it the state of its last row (`Reports`). -/

namespace Asper

open Durable

section
variable {s : Bytes} {d : Disk}

/-! ## Naming a file of a scope -/

/-- The directories of a scope one of whose files could be named. -/
theorem dirsOk_of_path {name : Bytes} {e : Err} {p : Path}
    (h : (sourceScopePath s name e).result d = .ok p) : DirsOk d s := by
  obtain ⟨_, h1, h⟩ := Act.bind_eq_ok h
  obtain ⟨_, h2, -⟩ := Act.bind_eq_ok h
  obtain ⟨_, h1, -⟩ := Act.bind_eq_ok (orFail_ok h1)
  have hscopes : DirOk d scopesDir := mkdirStep_ok h1
  have hfinal : (orFail (osMkdirP scopesDir) e).final d = d.set scopesDir (some .dir) := by
    rw [Act.final, Act.writes, orFail_run e (osMkdirP_scopesDir hscopes)]
    exact applyAll_mkdirWrites hscopes
  rw [hfinal] at h2
  obtain ⟨_, h3, h4⟩ := Act.bind_eq_ok (orFail_ok h2)
  obtain ⟨_, h4, -⟩ := Act.bind_eq_ok h4
  have hset : d.set scopesDir (some .dir) (scopeDir s) = d (scopeDir s) :=
    Disk.set_ne _ _ scopeDir_ne
  have hstep : (mkdirStep scopesDir).final (d.set scopesDir (some .dir)) =
      d.set scopesDir (some .dir) := by
    rw [Act.final, Act.writes, mkdirStep_run (.inr (Disk.set_self ..)), mkdirWrites,
      if_neg (by rw [Disk.set_self]; simp)]
    rfl
  have hdir : DirOk (d.set scopesDir (some .dir)) (scopeDir s) := by
    have h5 := mkdirStep_ok h4
    rwa [show ([] : Path) ++ [ascii "scopes"] = scopesDir from rfl, hstep] at h5
  exact ⟨hscopes, hdir.congr hset.symm⟩

/-! ## What leaves a pin log alone -/

/-- `m` leaves the pin log of `s` alone. -/
def Spares (s : Bytes) {α : Type} (m : Io α) : Prop :=
  ∀ x, Act.Keeps RowCut (fun d => d (pinsFile s) = x) m fun _ => True

section
variable {α β : Type} {m : Io α}

theorem Spares.final (h : Spares s m) (d : Disk) : m.final d (pinsFile s) = d (pinsFile s) :=
  ((h _).steps d rfl).final

theorem Spares.bind {f : α → Io β} (h : Spares s m) (hf : ∀ a, Spares s (f a)) :
    Spares s (m >>= f) := fun x => (h x).bind fun a _ => hf a x

theorem Spares.ite {c : Prop} [Decidable c] {m' : Io α} (h : Spares s m) (h' : Spares s m') :
    Spares s (if c then m else m') := fun x => .ite (fun _ => h x) fun _ => h' x

theorem Spares.silent (h : Act.Silent m) : Spares s m := fun _ => h.keeps

theorem Spares.confined (h : Act.Confined (· ≠ pinsFile s) m) : Spares s m := fun _ =>
  ⟨fun _ hd => ⟨fun hc _ => (h.crash_other hc fun hn => hn rfl).trans hd,
    (h.final_other _ fun hn => hn rfl).trans hd⟩, fun _ _ _ _ => trivial⟩

/-- The second part need leave it alone only for the values the first can give. -/
theorem Spares.bind_of {f : α → Io β} (h : Spares s m)
    (hf : ∀ a d, m.result d = .ok a → Spares s (f a)) : Spares s (m >>= f) := fun x => by
  have hm : Act.Keeps RowCut (fun d => d (pinsFile s) = x) m fun a => ∃ d, m.result d = .ok a :=
    ⟨(h x).steps, fun d a _ ha => ⟨d, ha⟩⟩
  exact hm.bind fun a ⟨d, ha⟩ => hf a d ha x

end

theorem silent_require {c : Prop} [Decidable c] (e : Err) : Act.Silent (require c e) :=
  .ite (.pure _) (.fail _)

theorem silent_orElse {α : Type} {m : Io α} (h : Act.Silent m) (e : Err) (a : α) :
    Act.Silent (orElse m e a) :=
  .bind h.attempt fun r => by
    cases r with
    | ok a => exact .pure _
    | error e' => exact .ite (.pure _) (.fail _)

/-- Only the pin log has its path. -/
theorem covers_other {s' n : Bytes} (h : s' ≠ s ∨ n ≠ ascii "pins.log") :
    Covers (· ≠ pinsFile s) (scopeFile s' n) := by
  intro r hr hp he
  have hlen : r.length = (scopeFile s' n).length := by
    rw [he]
    simp [pinsFile, scopeFile, scopeDir, scopesDir]
  have hpath : pinsFile s = scopeFile s' n := he ▸ hp.eq_of_length hlen
  rcases h with h | h
  · exact h (scopeFile_scope hpath).symm
  · exact h (List.singleton_inj.1 (List.append_inj' hpath rfl).2).symm

theorem appendIn_other (s s' : Bytes) : AppendIn (· ≠ pinsFile s) s' := by
  have hname : ∀ sfx : Bytes, eventsName ++ sfx ≠ ascii "pins.log" := by
    intro sfx h
    have := congrArg (List.take 1) h
    rw [List.take_append_of_le_length (by decide)] at this
    exact absurd this (by decide)
  have hdir : ∀ n, [ascii "scopes", n] ≠ pinsFile s := fun n h => by
    have := congrArg List.length h
    simp [pinsFile, scopeFile, scopeDir, scopesDir] at this
  refine ⟨fun h => ?_, hdir _, hdir s', ⟨covers_other (.inr ?_), ?_, ?_, scopeFile_ne_nil _ _⟩,
    fun p hp h => not_objectArea_scopes _ (h ▸ hp)⟩
  · have := congrArg List.length h
    simp [pinsFile, scopeFile, scopeDir, scopesDir] at this
  · exact List.append_nil eventsName ▸ hname []
  · rw [scopeFile, indexPath_concat]
    exact covers_other (.inr (hname _))
  · rw [scopeFile, indexTmp_concat, List.append_assoc]
    exact covers_other (.inr (hname _))

theorem spares_path (s' name : Bytes) (e : Err) : Spares s (sourceScopePath s' name e) :=
  .confined (confined_sourceScopePath (appendIn_other s s').dir (appendIn_other s s').scope name e)

theorem silent_pinsText (path : Path) : Act.Silent (do
    let data ← orElse (osBlobOpen path) .notFound []
    Act.lift (pinsText data) : Io (List Pin)) :=
  .bind (silent_orElse (Act.silent_read _) _ _) fun _ => Act.silent_lift _

theorem spares_pinsLoad (s' : Bytes) : Spares s (pinsLoad s') :=
  (spares_path s' _ _).bind fun _ => .silent (silent_pinsText _)

variable (D : Digest) (X : Codec)

theorem spares_eventPage (s' query : Bytes) (after limit : Nat) :
    Spares s (eventPage D s' query after limit) :=
  (spares_path s' _ _).bind_of fun _ _ hp => by
    rw [sourceScopePath_result hp]
    exact .bind (.confined (confined_eventLogPage D (appendIn_other s s').log query after limit))
      fun _ => (spares_pinsLoad s').bind fun _ => .silent (.pure _)

theorem spares_eventList (scope : CStr) : Spares s (eventList D scope) :=
  .bind (.silent (silent_require _)) fun _ => (spares_eventPage D _ _ _ _).bind fun _ => .silent (.pure _)

theorem spares_eventSearch (scope query : CStr) (after limit : Nat) :
    Spares s (eventSearch D scope query after limit) :=
  .bind (.silent (silent_require _)) fun _ => spares_eventPage D _ _ _ _

theorem spares_eventFind (s' id : Bytes) :
    ∀ fuel cursor, Spares s (eventFind D s' id fuel cursor)
  | 0, _ => .silent (.fail _)
  | fuel + 1, cursor => (spares_eventPage D s' [] cursor pinPage).bind fun _ =>
      .ite (.silent (.pure _)) (.ite (spares_eventFind s' id fuel _) (.silent (.fail _)))

theorem spares_viewOpen (scope : CStr) : Spares s (sourceViewOpen D scope) := by
  refine .bind (.silent (silent_require _)) fun _ => (spares_path _ _ _).bind_of fun _ _ hp =>
    (spares_pinsLoad _).bind fun _ => ?_
  rw [sourceScopePath_result hp]
  exact .bind (.confined (confined_orElse (confined_filesOpen D (appendIn_other s _).log) _ _))
    fun _ => .silent (.pure _)

theorem spares_pinAppend {s' : Bytes} (h : s' ≠ s) (p : Pin) : Spares s (pinAppend s' p) :=
  .confined (confined_pinAppend ⟨(appendIn_other s s').dir, (appendIn_other s s').index,
    (appendIn_other s s').scope, fun _ hn => h (scopeFile_scope hn), (appendIn_other s s').object⟩ p)

/-! ## The row of a pin call -/

variable {D X}

theorem data_of_spares {α : Type} {m : Io α} (h : Spares s m) (d : Disk) :
    (m.final d).data (pinsFile s) = d.data (pinsFile s) := Disk.data_congr (h.final d)

/-- A row is added at the end, or the log is left alone. -/
theorem pinAppend_data (p : Pin) (d : Disk) :
    ((pinAppend s p).result d = .ok () ∧
      ((pinAppend s p).final d).data (pinsFile s) = d.data (pinsFile s) ++ pinLine p) ∨
    (∃ e, (pinAppend s p).result d = .error e) ∧
      ((pinAppend s p).final d).data (pinsFile s) = d.data (pinsFile s) := by
  have hpath := data_of_spares (spares_path (s := s) s (ascii "pins.log") .io) d
  cases hp : (sourceScopePath s (ascii "pins.log") .io).result d with
  | error e =>
    rw [pinAppend, Act.result_bind_error hp, Act.final_bind_error hp]
    exact .inr ⟨⟨e, rfl⟩, hpath⟩
  | ok path =>
    obtain rfl : path = pinsFile s := sourceScopePath_result hp
    rw [pinAppend, Act.result_bind hp, Act.final_bind hp]
    generalize (sourceScopePath s (ascii "pins.log") .io).final d = d1 at hpath ⊢
    have hsize : (orElse (osFileSize (pinsFile s)) .notFound 0).writes d1 = [] :=
      (silent_orElse (Act.silent_read _) .notFound 0).nil d1
    cases hb : (orElse (osFileSize (pinsFile s)) .notFound 0).result d1 with
    | error e =>
      rw [Act.result_bind_error hb, Act.final_bind_error hb, Act.final_of_nil hsize]
      exact .inr ⟨⟨e, rfl⟩, hpath⟩
    | ok bytes =>
      rw [Act.result_bind hb, Act.final_bind hb, Act.final_of_nil hsize]
      by_cases hroom : bytes ≤ pinBytes - pinRow
      · cases hw : writable d1 (pinsFile s) with
        | true =>
          have happ : osAppend (pinsFile s) (pinLine p) d1 =
              ⟨[.append (pinsFile s) (pinLine p)], .ok ()⟩ :=
            Act.bind_run_run (w := []) (a := true) (by rw [Act.look, hw]) rfl
          refine .inl ⟨?_, ?_⟩
          · rw [Act.result, require_bind hroom, happ]
          · rw [Act.final, Act.writes, require_bind hroom, happ, ← hpath]
            show (d1.set _ _).data _ = _
            rw [Disk.data, Disk.set_self]
        | false =>
          have happ : osAppend (pinsFile s) (pinLine p) d1 = ⟨[], .error .io⟩ :=
            Act.bind_run_run (w := []) (a := false) (by rw [Act.look, hw]) rfl
          refine .inr ⟨⟨.io, ?_⟩, ?_⟩
          · rw [Act.result, require_bind hroom, happ]
          · rw [Act.final, Act.writes, require_bind hroom, happ]
            exact hpath
      · refine .inr ⟨⟨.limit, ?_⟩, ?_⟩
        · rw [Act.result, require_bind_fail hroom]
        · rw [Act.final, Act.writes, require_bind_fail hroom]
          exact hpath

theorem pinSet_data (scope id : CStr) (pinned : Bool) (d : Disk) :
    ((pinSet scope id pinned).final d).data (pinsFile s) = d.data (pinsFile s) ++
      pinsBytes (rowsOf s scope.val ⟨id.val, pinned⟩ ((pinSet scope id pinned).result d)) := by
  by_cases hreq : sourceScopeValid scope.val = true ∧ uuidValid id.val = true
  · have hrun : pinSet scope id pinned d = pinAppend scope.val ⟨id.val, pinned⟩ d :=
      require_bind hreq
    rw [Act.final, Act.writes, Act.result, hrun, ← Act.writes, ← Act.final, ← Act.result]
    by_cases hs : scope.val = s
    · subst hs
      rcases pinAppend_data ⟨id.val, pinned⟩ d with ⟨hok, hd⟩ | ⟨⟨e, he⟩, hd⟩
      · rw [hok, hd, rowsOf, if_pos rfl, pinsBytes, List.flatMap_singleton]
      · rw [he, hd]
        exact (List.append_nil _).symm
    · have hnone : ∀ r, rowsOf s scope.val ⟨id.val, pinned⟩ r = [] := fun r => by
        cases r with
        | ok _ => exact if_neg hs
        | error e => rfl
      rw [hnone, data_of_spares (spares_pinAppend hs _)]
      exact (List.append_nil _).symm
  · have hrun : pinSet scope id pinned d = ⟨[], .error .invalid⟩ := require_bind_fail hreq
    rw [Act.final, Act.writes, Act.result, hrun]
    exact (List.append_nil _).symm

/-- A pin call that succeeds ends with its row. -/
theorem eventSetPinned_row (scope id : CStr) (pinned : Bool) (d : Disk) :
    (∃ d1, d1 (pinsFile s) = d (pinsFile s) ∧
      (eventSetPinned D scope id pinned).final d = (pinSet scope id pinned).final d1 ∧
      (eventSetPinned D scope id pinned).result d = (pinSet scope id pinned).result d1) ∨
    (∃ e, (eventSetPinned D scope id pinned).result d = .error e) ∧
      (eventSetPinned D scope id pinned).final d (pinsFile s) = d (pinsFile s) := by
  by_cases hreq : sourceScopeValid scope.val = true ∧ uuidValid id.val = true
  · have hrun : eventSetPinned D scope id pinned d = (eventFind D scope.val id.val eventLogBytes 0 >>=
        fun _ => pinAppend scope.val ⟨id.val, pinned⟩) d := require_bind hreq
    have hfind := (spares_eventFind D (s := s) scope.val id.val eventLogBytes 0).final d
    rw [Act.final, Act.writes, Act.result, hrun, ← Act.writes, ← Act.final, ← Act.result]
    cases hf : (eventFind D scope.val id.val eventLogBytes 0).result d with
    | error e =>
      rw [Act.result_bind_error hf, Act.final_bind_error hf]
      exact .inr ⟨⟨e, rfl⟩, hfind⟩
    | ok _ =>
      rw [Act.result_bind hf, Act.final_bind hf]
      generalize (eventFind D scope.val id.val eventLogBytes 0).final d = d1 at hfind ⊢
      have hset : pinSet scope id pinned d1 = pinAppend scope.val ⟨id.val, pinned⟩ d1 :=
        require_bind hreq
      refine .inl ⟨d1, hfind, ?_, ?_⟩
      · rw [Act.final, Act.final, Act.writes, Act.writes, hset]
      · rw [Act.result, Act.result, hset]
  · have hrun : eventSetPinned D scope id pinned d = ⟨[], .error .invalid⟩ := require_bind_fail hreq
    rw [Act.final, Act.writes, Act.result, hrun]
    exact .inr ⟨⟨.invalid, rfl⟩, rfl⟩

/-! ## Runs -/

theorem spares_discard {α : Type} {m : Io α} (h : Spares s m) : Spares s (do let _ ← m) :=
  h.bind fun _ => .silent (.pure _)

/-- **One step** adds its row, if it has one, at the end of the pin log. -/
theorem pinStep_data (c : PinStep) (d : Disk) :
    ((c.run D X).final d).data (pinsFile s) = d.data (pinsFile s) ++ pinsBytes (c.adds D s d) := by
  have hother : ∀ {α : Type} {m : Io α}, Spares s m →
      ((do let _ ← m : Io Unit).final d).data (pinsFile s) = d.data (pinsFile s) ++ pinsBytes [] := by
    intro α m h
    rw [data_of_spares (spares_discard h)]
    exact (List.append_nil _).symm
  cases c with
  | append env input => exact hother (.confined (confined_eventCommit D X env input (appendIn_other s _)))
  | list scope => exact hother (spares_eventList D scope)
  | search scope query after limit => exact hother (spares_eventSearch D scope query after limit)
  | view scope => exact hother (spares_viewOpen D scope)
  | read v scope path seq =>
    refine hother (.confined (confined_viewRead D ?_ seq))
    rw [path]
    exact (appendIn_other s scope.val).log
  | row scope id pinned => exact pinSet_data scope id pinned d
  | setPinned scope id pinned =>
    rcases eventSetPinned_row (D := D) (s := s) scope id pinned d with
      ⟨d1, hd, hfinal, hres⟩ | ⟨⟨e, he⟩, hd⟩
    · rw [PinStep.run, PinStep.adds, hfinal, hres, pinSet_data, Disk.data_congr hd]
    · rw [PinStep.run, PinStep.adds, he, Disk.data_congr hd]
      exact (List.append_nil _).symm

theorem pinSteps_data (cs : List PinStep) (d : Disk) :
    (pinSteps D X cs d).data (pinsFile s) =
      d.data (pinsFile s) ++ pinsBytes (pinsAdded D X s cs d) := by
  induction cs generalizing d with
  | nil => exact (List.append_nil _).symm
  | cons c cs ih =>
    refine (ih ((c.run D X).final d)).trans ?_
    rw [pinStep_data, List.append_assoc, pinsAdded, pinsBytes, pinsBytes, pinsBytes, List.flatMap_append]

theorem rowsOf_valid {scope id : CStr} {pinned : Bool} {d : Disk} {p : Pin}
    (h : p ∈ rowsOf s scope.val ⟨id.val, pinned⟩ ((pinSet scope id pinned).result d)) :
    uuidValid p.id = true := by
  cases hr : (pinSet scope id pinned).result d with
  | error e =>
    rw [hr] at h
    cases h
  | ok _ =>
    rw [hr, rowsOf] at h
    split at h
    · obtain rfl := List.mem_singleton.1 h
      obtain ⟨_, hreq, -⟩ := Act.bind_eq_ok hr
      exact (require_ok hreq).2
    · cases h

theorem adds_valid {c : PinStep} {d : Disk} {p : Pin} (h : p ∈ c.adds D s d) :
    uuidValid p.id = true := by
  cases c with
  | setPinned scope id pinned =>
    rcases eventSetPinned_row (D := D) (s := s) scope id pinned d with
      ⟨d1, -, -, hres⟩ | ⟨⟨e, he⟩, -⟩
    · rw [PinStep.adds, hres] at h
      exact rowsOf_valid h
    · rw [PinStep.adds, he] at h
      cases h
  | row scope id pinned => exact rowsOf_valid h
  | _ => cases h

theorem pinsAdded_valid (cs : List PinStep) (d : Disk) {p : Pin} (h : p ∈ pinsAdded D X s cs d) :
    uuidValid p.id = true := by
  induction cs generalizing d with
  | nil => cases h
  | cons c cs ih => exact (List.mem_append.1 h).elim adds_valid (ih _)

theorem pinsAdded_append (cs cs' : List PinStep) (d : Disk) :
    pinsAdded D X s (cs ++ cs') d =
      pinsAdded D X s cs d ++ pinsAdded D X s cs' (pinSteps D X cs d) := by
  induction cs generalizing d with
  | nil => rfl
  | cons c cs ih =>
    rw [List.cons_append, pinsAdded, pinsAdded, ih, List.append_assoc]
    rfl

/-! ## Reports -/

/-- The pins that could be loaded are the rows of the log. -/
theorem pinsLoad_rows {ps : List Pin} (h : (pinsLoad s).result d = .ok ps) :
    pinsText (d.data (pinsFile s)) = .ok ps := by
  obtain ⟨path, hp, h⟩ := Act.bind_eq_ok h
  obtain rfl : path = pinsFile s := sourceScopePath_result hp
  have hdirs := dirsOk_of_path hp
  have hfinal : (sourceScopePath s (ascii "pins.log") .nomem).final d = made d s := by
    rw [Act.final, Act.writes, sourceScopePath_run hdirs]
    exact applyAll_dirWrites hdirs
  rw [hfinal] at h
  obtain ⟨data, hdata, h⟩ := Act.bind_eq_ok h
  have hsame : (made d s).data (pinsFile s) = d.data (pinsFile s) := Disk.data_congr (made_file _)
  have hblob := blob_child (ascii "pins.log") (find_scopeDir (d := made d s) (s := s) made_scopes made_dir)
  rw [show scopeDir s ++ [ascii "pins.log"] = pinsFile s from rfl] at hblob
  suffices hd : data = d.data (pinsFile s) from hd ▸ h
  rw [← hsame, Disk.data]
  have hread : (osBlobOpen (pinsFile s)).result (made d s) = blob (made d s) (pinsFile s) := rfl
  cases hn : made d s (pinsFile s) with
  | none =>
    rw [hn] at hblob
    rw [orElse, Act.result_attempt_of (hread.trans hblob)] at hdata
    exact (Except.ok.inj hdata).symm
  | some x =>
    cases x with
    | dir =>
      rw [hn] at hblob
      rw [orElse, Act.result_attempt_of (hread.trans hblob)] at hdata
      cases hdata
    | file b =>
      rw [hn] at hblob
      rw [orElse, Act.result_attempt_of (hread.trans hblob)] at hdata
      exact (Except.ok.inj hdata).symm

theorem pinsText_rows {rows ps : List Pin} (hids : ∀ p ∈ rows, uuidValid p.id = true)
    (h : pinsText (pinsBytes rows) = .ok ps) : ps = rows := by
  have hsize : (pinsBytes rows).length ≤ pinBytes := by
    by_contra hlong
    rw [pinsText, if_pos (by omega)] at h
    cases h
  rw [pinsText_pinsBytes hids hsize] at h
  exact (Except.ok.inj h).symm

/-- A page of the log itself, once the directories of the scope are made. -/
def rawPage (D : Digest) (d : Disk) (s query : Bytes) (after limit : Nat) :
    Except Err (List Event × Nat) :=
  (eventLogPage D (scopeFile s eventsName) query after limit).result
    ((sourceScopePath s eventsName .io).final d)

theorem eventPage_reports {rows : List Pin} {query : Bytes} {after limit next : Nat}
    {es : List Event} (hlog : d.data (pinsFile s) = pinsBytes rows)
    (hids : ∀ p ∈ rows, uuidValid p.id = true)
    (h : (eventPage D s query after limit).result d = .ok (es, next)) :
    ∃ raw, rawPage D d s query after limit = .ok (raw, next) ∧ es = raw.map (overlaid rows) := by
  obtain ⟨path, hp, h⟩ := Act.bind_eq_ok h
  obtain rfl : path = scopeFile s eventsName := sourceScopePath_result hp
  obtain ⟨⟨raw, next'⟩, hpage, h⟩ := Act.bind_eq_ok h
  obtain ⟨ps, hps, h⟩ := Act.bind_eq_ok h
  obtain ⟨rfl, rfl⟩ := Prod.mk.inj (Except.ok.inj h)
  have hspare := (spares_path (s := s) s (ascii "events.log") .io).bind fun _ =>
    Spares.confined (confined_eventLogPage D (appendIn_other s s).log query after limit)
  have hdata := data_of_spares hspare d
  rw [Act.final_bind hp] at hdata
  have hrows := pinsLoad_rows hps
  rw [hdata, hlog] at hrows
  obtain rfl := pinsText_rows hids hrows
  exact ⟨raw, hpage, congrArg (raw.map ·) (funext fun e => pinsApply_eq ps e)⟩

theorem viewOpen_reports {rows : List Pin} {scope : CStr} {v : View}
    (hlog : d.data (pinsFile scope.val) = pinsBytes rows) (hids : ∀ p ∈ rows, uuidValid p.id = true)
    (h : (sourceViewOpen D scope).result d = .ok v) : v.pins = rows := by
  obtain ⟨_, hreq, h⟩ := Act.bind_eq_ok h
  rw [Act.final_of_nil ((silent_require _).nil d)] at h
  obtain ⟨path, hp, h⟩ := Act.bind_eq_ok h
  obtain ⟨ps, hps, h⟩ := Act.bind_eq_ok h
  obtain ⟨files, -, h⟩ := Act.bind_eq_ok h
  obtain rfl := Except.ok.inj h
  have hdata := data_of_spares (spares_path (s := scope.val) scope.val (ascii "events.log") .nomem) d
  have hrows := pinsLoad_rows hps
  rw [hdata, hlog] at hrows
  exact pinsText_rows hids hrows

variable (D X)

/-- Every report of events of `s` on the disk `d` gives them the states of `rows`: a listing and a
search, the events and the heads of a view, and the first pass of the history over a view. -/
structure Reports (d : Disk) (s : CStr) (rows : List Pin) : Prop where
  list : ∀ es, (eventList D s).result d = .ok es →
    ∃ raw next, rawPage D d s.val [] 0 (2 ^ 64 - 1) = .ok (raw, next) ∧ es = raw.map (overlaid rows)
  search : ∀ query after limit es next,
    (eventSearch D s query after limit).result d = .ok (es, next) →
    ∃ raw, rawPage D d s.val query.val after limit = .ok (raw, next) ∧ es = raw.map (overlaid rows)
  read : ∀ v, (sourceViewOpen D s).result d = .ok v → ∀ d' n raw fs,
    (filesRead D v.path v.files n).result d' = .ok (raw, fs) →
    (v.events D d').read n = .ok (overlaid rows raw)
  head : ∀ v, (sourceViewOpen D s).result d = .ok v → ∀ d' n raw fs,
    (filesHead D v.path v.files n).result d' = .ok (raw, fs) →
    (v.events D d').head n = .ok (overlaid rows raw)
  history : ∀ v, (sourceViewOpen D s).result d = .ok v → ∀ d' n raw fs,
    (filesHead D v.path v.files n).result d' = .ok (raw, fs) → ∀ R sel,
    pinnedStep (v.events D d') R sel n =
      if raw.kind ≠ .checkpoint ∧ (overlaid rows raw).pinned then
        ((v.events D d').read n).map (selectEvent R sel)
      else .ok sel

theorem reports {s : CStr} {rows : List Pin} (hlog : d.data (pinsFile s.val) = pinsBytes rows)
    (hids : ∀ p ∈ rows, uuidValid p.id = true) : Reports D d s rows := by
  have hhead : ∀ v, (sourceViewOpen D s).result d = .ok v → ∀ d' n raw fs,
      (filesHead D v.path v.files n).result d' = .ok (raw, fs) →
      (v.events D d').head n = .ok (overlaid rows raw) := by
    intro v hv d' n raw fs hraw
    have hview : (viewHead D v n).result d' = .ok (pinsApply v.pins raw, { v with files := fs }) := by
      rw [viewHead, Act.result_bind hraw]
      rfl
    show ((viewHead D v n).result d').map Prod.fst = _
    rw [hview, viewOpen_reports hlog hids hv, pinsApply_eq]
    rfl
  refine ⟨fun es h => ?_, fun query after limit es next h => ?_, fun v hv d' n raw fs hraw => ?_,
    hhead, fun v hv d' n raw fs hraw R sel => ?_⟩
  · obtain ⟨_, -, h⟩ := Act.bind_eq_ok h
    rw [Act.final_of_nil ((silent_require _).nil d)] at h
    obtain ⟨⟨es', next⟩, hpage, h⟩ := Act.bind_eq_ok h
    obtain rfl := Except.ok.inj h
    obtain ⟨raw, hraw, he⟩ := eventPage_reports hlog hids hpage
    exact ⟨raw, next, hraw, he⟩
  · obtain ⟨_, -, h⟩ := Act.bind_eq_ok h
    rw [Act.final_of_nil ((silent_require _).nil d)] at h
    exact eventPage_reports hlog hids h
  · have hview : (viewRead D v n).result d' = .ok (pinsApply v.pins raw, { v with files := fs }) := by
      rw [viewRead, Act.result_bind hraw]
      rfl
    show ((viewRead D v n).result d').map Prod.fst = _
    rw [hview, viewOpen_reports hlog hids hv, pinsApply_eq]
    rfl
  · rw [pinnedStep, hhead v hv d' n raw fs hraw]
    show (if (overlaid rows raw).kind ≠ .checkpoint ∧ (overlaid rows raw).pinned = true then _ else _) = _
    rw [show (overlaid rows raw).kind = raw.kind from rfl]
    split
    · cases (v.events D d').read n <;> rfl
    · rfl

/-- **The last writer of a pin wins.** Whatever rows the pin log of a scope has and whatever steps follow
one another, every report of an event gives it the state of the last row of the event in the order of
the log, and the event's own flag when there is none. After a pin call that succeeds it is the state
just set, as long as no later pin call on the event succeeds. -/
theorem pins_last_writer {s : CStr} {rows : List Pin} (hlog : d.data (pinsFile s.val) = pinsBytes rows)
    (hids : ∀ p ∈ rows, uuidValid p.id = true) (cs : List PinStep) :
    Reports D (pinSteps D X cs d) s (rows ++ pinsAdded D X s.val cs d) ∧
      ∀ before c after p, cs = before ++ c :: after →
        c.adds D s.val (pinSteps D X before d) = [p] →
        (∀ q ∈ pinsAdded D X s.val after (pinSteps D X (before ++ [c]) d), q.id ≠ p.id) →
        ∀ e : Event, e.id = p.id →
          (overlaid (rows ++ pinsAdded D X s.val cs d) e).pinned = p.pinned := by
  refine ⟨reports D ?_ fun p hp => ?_, fun before c after p hcs hc hafter e he => ?_⟩
  · rw [pinSteps_data, hlog, pinsBytes, pinsBytes, pinsBytes, List.flatMap_append]
  · exact (List.mem_append.1 hp).elim (hids p) (pinsAdded_valid cs d)
  · have hadded : pinsAdded D X s.val cs d = pinsAdded D X s.val before d ++
        ([p] ++ pinsAdded D X s.val after (pinSteps D X (before ++ [c]) d)) := by
      rw [hcs, pinsAdded_append, pinsAdded, hc, pinSteps, pinSteps, List.foldl_append]
      rfl
    have hlast : pinState (rows ++ pinsAdded D X s.val cs d) e.id = some p.pinned := by
      rw [hadded, pinState_append, pinState_append, pinState_append, pinState_single, if_pos he.symm,
        pinState_none.2 fun q hq => he ▸ hafter q hq]
      rfl
    show (pinState (rows ++ pinsAdded D X s.val cs d) e.id).getD e.pinned = p.pinned
    rw [hlast]
    rfl

end

theorem rows_data (d : Disk) (s : Bytes) (ps : List Pin) :
    (d.set (pinsFile s) (some (.file (pinsBytes ps)))).data (pinsFile s) = pinsBytes ps := by
  rw [Disk.data, Disk.set_self]

/-- Two rows of one event. -/
def twoRows : List Pin := [⟨(uuidV4 fun _ => 0).val, true⟩, ⟨(uuidV4 fun _ => 0).val, false⟩]

/-- The second of the rows counts. -/
theorem pins_last_writer_two :
    Reports zeroDigest (Disk.set (fun _ => none) (pinsFile (ascii "a"))
      (some (.file (pinsBytes twoRows)))) ⟨ascii "a", by decide⟩ twoRows ∧
    pinState twoRows (uuidV4 fun _ => 0).val = some false :=
  ⟨(pins_last_writer (s := ⟨ascii "a", by decide⟩) zeroDigest plainCodec
    (rows_data (fun _ => none) (ascii "a") twoRows)
    (show ∀ p ∈ twoRows, uuidValid p.id = true by simp [twoRows, Uuid.valid]) []).1, rfl⟩

end Asper
