import Asper.Event.Proof.Touch
import Asper.Source.Proof.Append

/-! # What the operations on a scope touch

The operations on a scope stay inside any set of nodes with its files, the registry and the
objects (`ScopeIn`); what the admission writes is in the files of the scopes (`sourceArea`). -/

namespace Asper

open Durable

/-- `G` holds what the operations on the scope `s` work on. -/
structure ScopeIn (G : Path → Prop) (s : Bytes) : Prop where
  dir : G scopesDir
  index : G scopeIndex
  scope : G (scopeDir s)
  file : ∀ n, G (scopeFile s n)
  object : ∀ p, objectArea p → G p

/-- `G` holds what an append to the scope `s` works on. -/
structure AppendIn (G : Path → Prop) (s : Bytes) : Prop where
  dir : G scopesDir
  index : G scopeIndex
  scope : G (scopeDir s)
  log : LogIn G (scopeFile s eventsName)
  object : ∀ p, objectArea p → G p

/-- The scopes and the objects. -/
def sourceArea (p : Path) : Prop := (∃ q, p = ascii "scopes" :: q) ∨ objectArea p

theorem scopeIn_source (s : Bytes) : ScopeIn sourceArea s :=
  ⟨.inl ⟨_, rfl⟩, .inl ⟨_, rfl⟩, .inl ⟨_, rfl⟩, fun _ => .inl ⟨_, rfl⟩, fun _ h => .inr h⟩

theorem covers_pair {G : Path → Prop} {a b : Bytes} (ha : G [a]) (hb : G [a, b]) :
    Covers G [a, b] := fun r hr hp => by
  rcases r with _ | ⟨x, _ | ⟨y, _ | ⟨z, r⟩⟩⟩
  · exact absurd rfl hr
  · rw [List.cons_prefix_cons] at hp
    exact hp.1 ▸ ha
  · exact hp.eq_of_length rfl ▸ hb
  · exact absurd hp.length_le (by simp)

theorem covers_concat {G : Path → Prop} {p : Path} {n : Bytes} (h : Covers G p) (hn : G (p ++ [n])) :
    Covers G (p ++ [n]) := fun r hr hp => by
  rcases Nat.lt_or_eq_of_le hp.length_le with hl | hl
  · have hp' : r <+: p := by
      rw [List.length_append, List.length_singleton] at hl
      obtain ⟨t, ht⟩ := hp
      rcases List.eq_nil_or_concat t with rfl | ⟨t', x, rfl⟩
      · rw [List.append_nil] at ht
        rw [ht, List.length_append, List.length_singleton] at hl
        omega
      · rw [List.concat_eq_append, ← List.append_assoc] at ht
        exact ⟨t', (List.append_inj' ht rfl).1⟩
    exact h r hr hp'
  · exact hp.eq_of_length hl ▸ hn

section
variable {G : Path → Prop} {s : Bytes}

theorem ScopeIn.coversDir (h : ScopeIn G s) : Covers G (scopeDir s) := covers_pair h.dir h.scope

theorem ScopeIn.covers (h : ScopeIn G s) (n : Bytes) : Covers G (scopeFile s n) :=
  covers_concat h.coversDir (h.file n)

theorem ScopeIn.coversIndex (h : ScopeIn G s) : Covers G scopeIndex := covers_pair h.dir h.index

theorem ScopeIn.coversScopes (h : ScopeIn G s) : Covers G scopesDir := fun r hr hp =>
  h.coversIndex r hr (hp.trans (List.prefix_append ..))

theorem scopeFile_ne_nil (s n : Bytes) : scopeFile s n ≠ [] := by simp [scopeFile]

theorem ScopeIn.log (h : ScopeIn G s) : LogIn G (scopeFile s eventsName) where
  log := h.covers _
  index := by
    rw [scopeFile, indexPath_concat]
    exact h.covers _
  tmp := by
    rw [scopeFile, indexTmp_concat]
    exact h.covers _
  ne := scopeFile_ne_nil _ _

theorem ScopeIn.append (h : ScopeIn G s) : AppendIn G s := ⟨h.dir, h.index, h.scope, h.log, h.object⟩

/-- Naming a file of the scope makes the directories on the way. -/
theorem confined_sourceScopePath (h : G scopesDir) (hs : G (scopeDir s)) (name : Bytes) (e : Err) :
    Act.Confined G (sourceScopePath s name e) := by
  have hd : Covers G (scopeDir s) := covers_pair h hs
  have hc : Covers G scopesDir := fun r hr hp => hd r hr (hp.trans (List.prefix_append ..))
  exact .bind (confined_orFail (confined_osMkdirP hc) _) fun _ =>
    .bind (confined_orFail (confined_osMkdirP hd) _) fun _ => .pure _

theorem sourceScopePath_result {name : Bytes} {e : Err} {d : Disk} {p : Path}
    (h : (sourceScopePath s name e).result d = .ok p) : p = scopeFile s name := by
  obtain ⟨_, -, h⟩ := Act.bind_eq_ok h
  obtain ⟨_, -, h⟩ := Act.bind_eq_ok h
  exact (Except.ok.inj h).symm

/-- An operation on a file of the scope, once it is named. -/
theorem confined_withPath {α : Type} (h : ScopeIn G s) {name : Bytes} {e : Err} {f : Path → Io α}
    (hf : Act.Confined G (f (scopeFile s name))) :
    Act.Confined G (sourceScopePath s name e >>= f) :=
  (confined_sourceScopePath h.dir h.scope name e).bind_of fun _ _ hp =>
    sourceScopePath_result hp ▸ hf

theorem confined_sourceTextRead {p : Path} (h : Covers G p) (limit : Nat) :
    Act.Confined G (sourceTextRead p limit) :=
  .bind (confined_osBlobOpen h) fun _ => .bind (confined_require _) fun _ =>
    .bind (confined_require _) fun _ => .pure _

theorem confined_registerScope (h : G scopesDir) (hi : G scopeIndex) :
    Act.Confined G (registerScope s) := by
  have hd : Covers G scopeIndex := covers_pair h hi
  have hc : Covers G scopesDir := fun r hr hp => hd r hr (hp.trans (List.prefix_append ..))
  exact .bind (confined_orFail (confined_osMkdirP hc) _) fun _ =>
    .bind (confined_orElse (confined_sourceTextRead hd _) _ _) fun _ =>
      .bind (confined_require _) fun _ => .ite (.pure _) (.bind (confined_require _) fun _ =>
        confined_osAppend hd (by decide) _)

theorem confined_objectRead (D : Digest) (ref : Bytes) :
    Act.Confined objectArea (objectRead D ref) := by
  have hmk : Act.Confined objectArea (sourceObjectPath ref .io) :=
    .bind (confined_require _) fun _ => .bind (confined_orFail (confined_osMkdirP fun r hr hp =>
      covers_object [] r hr (hp.trans (List.prefix_append ..))) _) fun _ => .pure _
  refine .bind (confined_require _) fun _ => hmk.bind_of fun path d hpath => ?_
  rw [sourceObjectPath_result hpath]
  exact .bind (confined_osBlobOpen (covers_object _)) fun _ => .bind (.lift _) fun _ => .pure _

theorem confined_pinsLoad (h : ScopeIn G s) : Act.Confined G (pinsLoad s) :=
  confined_withPath h (.bind (confined_orElse (confined_osBlobOpen (h.covers _)) _ _) fun _ => .lift _)

variable (D : Digest) (X : Codec)

theorem confined_eventStore (env : Env) (input : EventInput) (kind : EventKind)
    (h : AppendIn G input.scope.val) : Act.Confined G (eventStore D X env input kind) := by
  refine (confined_sourceScopePath h.dir h.scope _ _).bind_of fun path d hp => ?_
  rw [sourceScopePath_result hp]
  exact .bind ((confined_eventObject D X env kind _).mono h.object) fun _ =>
    .bind (confined_registerScope h.dir h.index) fun _ =>
      .bind (confined_eventLogAppend D h.log _) fun _ => .pure _

theorem confined_eventCommit (env : Env) (input : EventInput) (h : AppendIn G input.scope.val) :
    Act.Confined G (eventCommit D X env input) := by
  refine .bind (confined_require _) fun _ => ?_
  split
  · exact .fail _
  · exact .bind (confined_require _) fun _ => confined_eventStore D X env input _ h

/-! ## Pages and pins -/

theorem confined_eventPage (h : ScopeIn G s) (query : Bytes) (after limit : Nat) :
    Act.Confined G (eventPage D s query after limit) :=
  confined_withPath h (.bind (confined_eventLogPage D h.log query after limit) fun _ =>
    .bind (confined_pinsLoad h) fun _ => .pure _)

theorem confined_eventFind (h : ScopeIn G s) (id : Bytes) :
    ∀ (fuel cursor : Nat), Act.Confined G (eventFind D s id fuel cursor)
  | 0, _ => .fail _
  | fuel + 1, cursor => .bind (confined_eventPage D h [] cursor pinPage) fun _ =>
      .ite (.pure _) (.ite (confined_eventFind h id fuel _) (.fail _))

theorem confined_pinAppend (h : ScopeIn G s) (p : Pin) : Act.Confined G (pinAppend s p) :=
  confined_withPath h (.bind (confined_orElse (confined_osFileSize (h.covers _)) _ _) fun _ =>
    .bind (confined_require _) fun _ => confined_osAppend (h.covers _) (scopeFile_ne_nil _ _) _)

/-! ## Views -/

theorem confined_viewOpen (h : ScopeIn G s) : Act.Confined G (viewOpen D s) :=
  confined_withPath h (.bind (confined_pinsLoad h) fun _ =>
    .bind (confined_orElse (confined_filesOpen D h.log) _ _) fun _ => .pure _)

theorem viewOpen_path {d : Disk} {v : View} (h : (viewOpen D s).result d = .ok v) :
    v.path = scopeFile s eventsName := by
  obtain ⟨p, hp, h⟩ := Act.bind_eq_ok h
  obtain ⟨_, -, h⟩ := Act.bind_eq_ok h
  obtain ⟨_, -, h⟩ := Act.bind_eq_ok h
  exact (Except.ok.inj h) ▸ sourceScopePath_result hp

theorem confined_viewRead {v : View} (h : LogIn G v.path) (seq : Nat) :
    Act.Confined G (viewRead D v seq) :=
  .bind (confined_filesRead D h _ _) fun _ => .pure _

theorem confined_viewHead {v : View} (h : LogIn G v.path) (seq : Nat) :
    Act.Confined G (viewHead D v seq) :=
  .bind (confined_filesHead D h _ _) fun _ => .pure _

theorem viewHead_path {v : View} {seq : Nat} {d : Disk} {r : Event × View}
    (h : (viewHead D v seq).result d = .ok r) : r.2.path = v.path := by
  obtain ⟨_, -, h⟩ := Act.bind_eq_ok h
  exact Except.ok.inj h ▸ rfl

theorem viewRead_path {v : View} {seq : Nat} {d : Disk} {r : Event × View}
    (h : (viewRead D v seq).result d = .ok r) : r.2.path = v.path := by
  obtain ⟨_, -, h⟩ := Act.bind_eq_ok h
  exact Except.ok.inj h ▸ rfl

/-! ## Checkpoints -/

theorem confined_atomicText {path : Path} (h : Covers G path) (hn : path ≠ [])
    (ht : Covers G (ext path (ascii ".tmp"))) (text : Bytes) :
    Act.Confined G (atomicText path text) := by
  refine .bind (Act.Confined.attempt (.bind (confined_osWriteFile ht (ext_ne_nil _ _) _) fun _ =>
    confined_osFileReplace ht h (ext_ne_nil _ _) hn)) fun r => ?_
  cases r with
  | ok _ => exact .pure _
  | error e => exact .bind (confined_ignore (confined_osRemoveFile ht (ext_ne_nil _ _))) fun _ => .fail _

theorem confined_checkpointCommit (env : Env) (scope text : CStr) (h : ScopeIn G scope.val) :
    Act.Confined G (checkpointCommit D X env scope text) :=
  .bind (confined_require _) fun _ => .bind ((confined_objectPut D _ _).mono h.object) fun _ =>
    .bind (confined_eventCommit D X env _ h.append) fun _ => confined_withPath h
      (.bind (confined_atomicText (h.covers _) (scopeFile_ne_nil _ _)
        (by rw [ext, scopeFile, List.dropLast_concat]; exact h.covers _) _) fun _ => .pure _)

theorem confined_lastCheckpoint : ∀ (n : Nat) {v : View} (_ : LogIn G v.path),
    Act.Confined G (lastCheckpoint D n v)
  | 0, _, _ => .fail _
  | n + 1, _, h => (confined_viewHead D h _).bind_of fun r _ hr => by
      have h' : LogIn G r.2.path := viewHead_path D hr ▸ h
      exact .ite (.bind (confined_viewRead D h' _) fun _ => .pure _) (confined_lastCheckpoint n h')

theorem confined_checkpointLoad (scope : CStr) (h : ScopeIn G scope.val) :
    Act.Confined G (checkpointLoad D scope) := by
  refine .bind (confined_require _) fun _ => confined_withPath h
    (.bind (confined_sourceTextRead (h.covers _) _).attempt fun r => ?_)
  cases r with
  | ok text => exact .pure _
  | error e =>
    cases e with
    | notFound => exact (confined_viewOpen D h).bind_of fun v _ hv =>
        confined_lastCheckpoint D _ (viewOpen_path D hv ▸ h.log)
    | _ => exact .fail _

/-! ## The admission -/

theorem confined_enqueueTurn (h : ∀ p, objectArea p → G p) (q : Queue) (role : Role) (e : Event) :
    Act.Confined G (enqueueTurn D X q role s e) :=
  .bind (confined_require _) fun _ => .bind (confined_require _) fun _ =>
    .bind (confined_require _) fun _ => .bind (confined_require _) fun _ =>
    .bind (confined_require _) fun _ => .bind
      (.ite (.pure _) (.bind ((confined_objectRead D _).mono h) fun _ => .lift _)) fun _ => .pure _

theorem confined_admitTurn (h : ∀ p, objectArea p → G p) (deferrals : List Deferral) (q : Queue)
    (role : Role) (e : Event) : Act.Confined G (admitTurn D X deferrals q role s e) := by
  rw [admitTurn]
  split
  · exact .ite (.pure _) (.fail _)
  · refine .bind (confined_enqueueTurn D X h q role e).attempt fun r => ?_
    cases r with
    | ok t => exact .pure _
    | error e =>
      cases e with
      | busy => exact .pure _
      | _ => exact .fail _

theorem confined_admitEvent (h : ∀ p, objectArea p → G p) (p : Pending) (deferrals : List Deferral)
    (q : Queue) {v : View} (hv : LogIn G v.path) (seq : Nat) :
    Act.Confined G (admitEvent D X p deferrals q s v seq) := by
  refine (confined_viewHead D hv seq).bind_of fun (e, v') _ hr => ?_
  have hv' : LogIn G v'.path := viewHead_path D hr ▸ hv
  dsimp only
  split
  · exact .pure _
  · exact .ite (.pure _) (.bind (confined_viewRead D hv' seq) fun _ =>
      .bind (confined_admitTurn D X h deferrals q _ _) fun _ => .pure _)

theorem admitEvent_path {p : Pending} {deferrals : List Deferral} {q : Queue} {v : View} {seq : Nat}
    {d : Disk} {r : Admit × View} (h : (admitEvent D X p deferrals q s v seq).result d = .ok r) :
    r.2.path = v.path := by
  obtain ⟨⟨e, v'⟩, hv', h⟩ := Act.bind_eq_ok h
  rw [← viewHead_path D hv']
  dsimp only at h
  split at h
  · exact Except.ok.inj h ▸ rfl
  · split at h
    · exact Except.ok.inj h ▸ rfl
    · obtain ⟨a, ha, h⟩ := Act.bind_eq_ok h
      obtain ⟨_, -, h⟩ := Act.bind_eq_ok h
      exact Except.ok.inj h ▸ viewRead_path D ha

theorem confined_fillFrom (h : ∀ p, objectArea p → G p) (p : Pending) (deferrals : List Deferral)
    (x : PendingScope) : ∀ (fuel : Nat) {v : View} (_ : LogIn G v.path) (cursor : Nat) (q : Queue),
      Act.Confined G (fillFrom D X p deferrals x fuel v cursor q)
  | 0, _, _, _, _ => .pure _
  | fuel + 1, _, hv, cursor, q =>
    .ite ((confined_admitEvent D X h p deferrals q hv _).attempt.bind_of fun r d hr => by
      cases r with
      | error e => exact .pure _
      | ok av =>
        obtain ⟨a, v'⟩ := av
        have hv' : LogIn G v'.path := admitEvent_path D X (Except.ok.inj hr) ▸ hv
        cases a with
        | full => exact .pure _
        | skip => exact confined_fillFrom h p deferrals x fuel hv' _ _
        | turn t => exact confined_fillFrom h p deferrals x fuel hv' _ _) (.pure _)

theorem confined_fillScope {x : PendingScope} (h : ScopeIn G x.scope) (p : Pending)
    (deferrals : List Deferral) (q : Queue) : Act.Confined G (fillScope D X p deferrals x q) :=
  (confined_viewOpen D h).attempt.bind_of fun r d hr => by
    cases r with
    | error e => exact .pure _
    | ok v =>
      have hv : LogIn G v.path := viewOpen_path D (Except.ok.inj hr) ▸ h.log
      exact .ite (.pure _) (confined_fillFrom D X h.object p deferrals x _ hv _ _)

theorem confined_captureScope {x : PendingScope} (h : ScopeIn G x.scope) :
    Act.Confined G (captureScope D x) :=
  .bind (confined_viewOpen D h) fun _ => .ite (.fail _) (.pure _)

theorem captureScope_scope {x y : PendingScope} {d : Disk}
    (h : (captureScope D x).result d = .ok y) : y.scope = x.scope := by
  obtain ⟨v, -, h⟩ := Act.bind_eq_ok h
  split at h
  · cases h
  · exact Except.ok.inj h ▸ rfl

theorem confined_serveScope {x : PendingScope} (h : ScopeIn G x.scope) (p : Pending)
    (deferrals : List Deferral) (q : Queue) : Act.Confined G (serveScope D X p deferrals x q) := by
  have hcap : Act.Confined G
      (if x.refresh ∧ p.frozen = false then captureScope D x else pure x) :=
    .ite (confined_captureScope D h) (.pure _)
  refine hcap.attempt.bind_of fun r d hr => ?_
  cases r with
  | error e => exact .pure _
  | ok y =>
    have hy := Except.ok.inj hr
    have hscope : y.scope = x.scope := by
      split at hy
      · exact captureScope_scope D hy
      · exact congrArg PendingScope.scope (Except.ok.inj hy).symm
    exact .ite (.bind (confined_fillScope D X (hscope ▸ h) p deferrals q) fun _ => .pure _)
      (.pure _)

theorem confined_inventory (h : ScopeIn G s) (p : Pending) : Act.Confined G (inventory p) := by
  refine .bind (Act.Confined.attempt (.bind (confined_orFail (confined_osMkdirP h.coversScopes) _)
    fun _ => confined_orElse (confined_sourceTextRead h.coversIndex _) _ _)) fun r => ?_
  cases r with
  | error e => exact .pure _
  | ok text => exact .pure _

theorem confined_serveScopes (h : ∀ s, ScopeIn G s) (deferrals : List Deferral) :
    ∀ (n : Nat) (p : Pending) (q : Queue), Act.Confined G (serveScopes D X deferrals n p q)
  | 0, _, _ => .pure _
  | n + 1, p, q => .ite (.pure _) (by
      cases p.scopes[p.next]? with
      | none => exact .pure _
      | some x =>
        refine .bind (confined_serveScope D X (h _) p deferrals q) fun (y, q', r) => ?_
        cases r with
        | error e => exact .pure _
        | ok _ => exact confined_serveScopes h deferrals n _ _)

theorem confined_refill (h : ∀ s, ScopeIn G s) (m : Source) (p : Pending) :
    Act.Confined G (refill D X m p) := by
  refine .bind (.ite (confined_inventory (h []) p) (.pure _)) fun (p', r) => ?_
  cases r with
  | error e => exact .pure _
  | ok _ => exact .bind (confined_serveScopes D X h _ _ _ _) fun _ => .pure _

/-! ## What is written elsewhere

The admission reads the curated ids too, but writes nothing but source. -/

/-- Everything but the source is as on `d0`. -/
def SameElsewhere (d0 d : Disk) : Prop := ∀ p, ¬ sourceArea p → d p = d0 p

variable (Bad : Write → Write → Prop) (d0 : Disk)

theorem elsewhere_pendingInitialize (m : Source) :
    Act.Keeps Bad (SameElsewhere d0) (pendingInitialize m) fun _ => True := by
  rw [pendingInitialize]
  split
  · exact .pure trivial
  · refine silent_curatedLoad.attempt.keeps.bind fun r _ => ?_
    cases r with
    | error e => exact .pure trivial
    | ok curated =>
      refine ((confined_inventory (scopeIn_source []) _).keeps_frame d0).bind fun pr _ => ?_
      obtain ⟨p, r⟩ := pr
      cases r with
      | error e => exact .pure trivial
      | ok _ => exact .pure trivial

theorem elsewhere_replayPending (m : Source) :
    Act.Keeps Bad (SameElsewhere d0) (replayPending D X m) fun _ => True := by
  refine .ite (fun _ => .pure trivial) fun _ =>
    (elsewhere_pendingInitialize Bad d0 m).bind fun (m', r) _ => ?_
  cases r with
  | error e => exact .pure trivial
  | ok _ =>
    dsimp only
    cases m'.pending with
    | none => exact .pure trivial
    | some p => exact (confined_refill D X scopeIn_source _ _).keeps_frame d0

theorem elsewhere_pendingNote (m : Source) (s : Bytes) :
    Act.Keeps Bad (SameElsewhere d0) (pendingNote D X m s) fun _ => True := by
  refine (elsewhere_pendingInitialize Bad d0 m).bind fun (m', r) _ => ?_
  cases r with
  | error e => exact .pure trivial
  | ok _ =>
    dsimp only
    cases noteScope m' s with
    | mk m'' r =>
      cases r with
      | error e => exact .pure trivial
      | ok _ =>
        dsimp only
        cases m''.pending with
        | none => exact .pure trivial
        | some p => exact .ite (fun _ => .pure trivial) fun _ =>
            (confined_refill D X scopeIn_source _ _).keeps_frame d0

/-- **An append** writes nothing but source, whole or stopped. -/
theorem elsewhere_eventAppend (env : Env) (input : EventInput) (m : Source) :
    Act.Keeps Bad (SameElsewhere d0) (eventAppend D X env input m) fun _ => True := by
  refine ((confined_eventCommit D X env input (scopeIn_source _).append).keeps_frame d0).bind fun id _ => ?_
  split
  · exact .pure trivial
  · exact (elsewhere_pendingNote D X Bad d0 _ _).bind fun _ _ => .pure trivial

end

end Asper
