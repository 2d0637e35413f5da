import Asper.Source.Proof.Admit
import Mathlib.Data.List.Perm.Subperm

/-! # The inventory and the fill

* `inventory_run`: reading the registry of a state gives its scopes, up to the bound on their
  number (`inventory_fits`, `inventory_over`).
* `replayPending_keeps`, `pendingNote_keeps`: the admission of turns changes nothing of the
  state, and fails only where a turn cannot be admitted (`TurnsOk`) or the registry lists too many
  scopes (`Smooth`).
* `fillScope_admits_iff`: the fill moves its cursor past a turn exactly when the text is not blank
  or the turn is skipped. -/

namespace Asper

open Durable

/-! ## Inventory -/

/-- A scope just read from the registry. -/
def freshScope (s : Bytes) : PendingScope := ⟨s, 0, 0, true⟩

/-- The admission before the registry is read. -/
def Pending.blank (curated : List Bytes) : Pending := ⟨[], 0, curated, false, false⟩

section
variable {D : Digest} {Good : Bytes → Prop} {d d' : Disk} {s : Bytes} {st : SourceState}
  {X : Codec}

theorem addScope_new {p : Pending} (h : ∀ x ∈ p.scopes, x.scope ≠ s)
    (hn : p.scopes.length ≠ pendingScopes) :
    addScope p s = .ok { p with scopes := p.scopes ++ [freshScope s] } := by
  have ha : p.scopes.any (·.scope = s) = false := by
    rw [List.any_eq_false]
    exact fun x hx => by simpa using h x hx
  rw [addScope, if_neg (by simp [ha]), if_neg hn]
  rfl

theorem addScope_over {p : Pending} (h : ∀ x ∈ p.scopes, x.scope ≠ s)
    (hn : p.scopes.length = pendingScopes) : addScope p s = .error .limit := by
  have ha : p.scopes.any (·.scope = s) = false := by
    rw [List.any_eq_false]
    exact fun x hx => by simpa using h x hx
  rw [addScope, if_neg (by simp [ha]), if_pos hn]

theorem addRows_row {r : Bytes} {rs : List Bytes} {p : Pending} (h : sourceScopeValid r = true) :
    addRows (r :: rs) p = match addScope p r with
      | .error e => (p, .error e)
      | .ok p => addRows rs p := by
  obtain ⟨h1, h2⟩ := sourceScopeValid_length h
  have hok : ¬ (r.length = 0 ∨ 65 ≤ r.length ∨ sourceScopeValid r = false) := by
    simp only [h, Bool.true_eq_false, or_false, not_or]
    exact ⟨fun h0 => h1 (List.length_eq_zero_iff.1 h0), by omega⟩
  exact if_neg hok

/-- Rows of new scopes are added in order, as long as there is a place. -/
theorem addRows_new : ∀ {rs : List Bytes} {p : Pending}, (∀ r ∈ rs, sourceScopeValid r = true) →
    rs.Nodup → (∀ x ∈ p.scopes, x.scope ∉ rs) → p.scopes.length + rs.length ≤ pendingScopes →
    addRows rs p = ({ p with scopes := p.scopes ++ rs.map freshScope }, .ok ())
  | [], p, _, _, _, _ => by simp [addRows]
  | r :: rs, p, hv, hn, hp, hl => by
    rw [List.length_cons] at hl
    rw [addRows_row (hv r (.head _)), addScope_new (fun x hx he => hp x hx (he ▸ .head _)) (by omega)]
    dsimp only
    rw [addRows_new (fun x hx => hv x (.tail _ hx)) hn.of_cons _ (by simp; omega)]
    · simp
    · intro x hx
      rcases List.mem_append.1 hx with hx | hx
      · exact fun hm => hp x hx (.tail _ hm)
      · rw [List.mem_singleton.1 hx]
        exact (List.nodup_cons.1 hn).1

/-- One scope too many and the rows are refused. -/
theorem addRows_over : ∀ {rs : List Bytes} {p : Pending}, (∀ r ∈ rs, sourceScopeValid r = true) →
    rs.Nodup → (∀ x ∈ p.scopes, x.scope ∉ rs) → p.scopes.length ≤ pendingScopes →
    pendingScopes < p.scopes.length + rs.length → (addRows rs p).2 = .error .limit
  | [], p, _, _, _, h1, h2 => by
    rw [List.length_nil] at h2
    omega
  | r :: rs, p, hv, hn, hp, h1, h2 => by
    rw [List.length_cons] at h2
    have hne : ∀ x ∈ p.scopes, x.scope ≠ r := fun x hx he => hp x hx (he ▸ .head _)
    rw [addRows_row (hv r (.head _))]
    by_cases hl : p.scopes.length = pendingScopes
    · rw [addScope_over hne hl]
    · rw [addScope_new hne hl]
      dsimp only
      refine addRows_over (fun x hx => hv x (.tail _ hx)) hn.of_cons (fun x hx => ?_)
        (by simp; omega) (by simp; omega)
      rcases List.mem_append.1 hx with hx | hx
      · exact fun hm => hp x hx (.tail _ hm)
      · rw [List.mem_singleton.1 hx]
        exact (List.nodup_cons.1 hn).1

/-- The inventory makes the directory of the scopes and takes the rows of the registry. -/
theorem RegistryAt.inventory_run {ss : List Bytes} (h : RegistryAt d ss) (p : Pending) :
    inventory p d = ⟨mkdirWrites d scopesDir, .ok (inventoryText (joinRows ss) p)⟩ := by
  have hmk := applyAll_mkdirWrites h.dir
  have hd : applyAll (mkdirWrites d scopesDir) d scopesDir = some .dir := by
    rw [hmk, Disk.set_self]
  have hr : RegistryAt (applyAll (mkdirWrites d scopesDir) d) ss :=
    h.congr (.inr hd) (by rw [hmk, Disk.set_ne _ _ (by decide)])
  have hread := Act.attempt_run (Act.bind_run_run
    (f := fun _ => orElse (sourceTextRead scopeIndex scopeIndexBytes) .notFound [])
    (orFail_run .nomem (osMkdirP_scopesDir h.dir)) (hr.read hd))
  have hrun : inventory p d = ⟨mkdirWrites d scopesDir ++ [] ++ [],
      .ok (inventoryText (joinRows ss) p)⟩ := Act.bind_run_run hread rfl
  rw [List.append_nil, List.append_nil] at hrun
  exact hrun

theorem inventoryText_fits {ss : List Bytes} (hv : ∀ s ∈ ss, sourceScopeValid s = true)
    (hn : ss.Nodup) (hl : ss.length ≤ pendingScopes) (curated : List Bytes) :
    inventoryText (joinRows ss) (.blank curated) =
      ({ Pending.blank curated with scopes := ss.map freshScope }, .ok ()) := by
  rw [inventoryText, splitRows_registry hv, addRows_new hv hn (by simp [Pending.blank])
    (by simpa [Pending.blank] using hl)]
  rfl

theorem inventoryText_over {ss : List Bytes} (hv : ∀ s ∈ ss, sourceScopeValid s = true)
    (hn : ss.Nodup) (hl : pendingScopes < ss.length) (curated : List Bytes) :
    (inventoryText (joinRows ss) (.blank curated)).2 = .error .limit := by
  have := addRows_over (p := .blank curated) hv hn (by simp [Pending.blank]) (Nat.zero_le _)
    (by simpa [Pending.blank] using hl)
  rw [inventoryText, splitRows_registry hv]
  dsimp only
  cases ha : addRows ss (.blank curated) with
  | mk p r =>
    rw [ha] at this
    obtain rfl : r = .error .limit := this
    rfl

/-! ## The admission never fails as a whole -/

theorem total_inventory (p : Pending) : Act.Total (inventory p) :=
  .bind (Act.total_attempt _) fun r => by
    cases r with
    | error e => exact .pure _
    | ok text => exact .pure _

theorem total_pendingInitialize (m : Source) : Act.Total (pendingInitialize m) := by
  rw [pendingInitialize]
  split
  · exact .pure _
  · refine .bind (Act.total_attempt _) fun r => ?_
    cases r with
    | error e => exact .pure _
    | ok ids =>
      refine .bind (total_inventory _) fun (p, r) => ?_
      cases r with
      | error e => exact .pure _
      | ok _ => exact .pure _

theorem total_fillFrom {p : Pending} {deferrals : List Deferral} {x : PendingScope} :
    ∀ {fuel : Nat} {v : View} {cursor : Nat} {q : Queue},
      Act.Total (fillFrom D X p deferrals x fuel v cursor q) := by
  intro fuel
  induction fuel with
  | zero => exact .pure _
  | succ fuel ih =>
    intro v cursor q
    refine .ite (.bind (Act.total_attempt _) fun r => ?_) (.pure _)
    cases r with
    | error e => exact .pure _
    | ok av =>
      obtain ⟨a, v'⟩ := av
      cases a with
      | full => exact .pure _
      | skip => exact ih
      | turn t => exact ih

theorem total_fillScope (p : Pending) (deferrals : List Deferral) (x : PendingScope) (q : Queue) :
    Act.Total (fillScope D X p deferrals x q) := by
  refine .bind (Act.total_attempt _) fun r => ?_
  cases r with
  | error e => exact .pure _
  | ok v => exact .ite (.pure _) total_fillFrom

theorem total_serveScope (p : Pending) (deferrals : List Deferral) (x : PendingScope) (q : Queue) :
    Act.Total (serveScope D X p deferrals x q) := by
  refine .bind (Act.total_attempt _) fun r => ?_
  cases r with
  | error e => exact .pure _
  | ok y => exact .ite (.bind (total_fillScope ..) fun _ => .pure _) (.pure _)

theorem total_serveScopes {deferrals : List Deferral} : ∀ {n : Nat} {p : Pending} {q : Queue},
    Act.Total (serveScopes D X deferrals n p q) := by
  intro n
  induction n with
  | zero => exact .pure _
  | succ n ih =>
    intro p q
    refine .ite (.pure _) ?_
    cases p.scopes[p.next]? with
    | none => exact .pure _
    | some x =>
      refine .bind (total_serveScope ..) fun (y, q', r) => ?_
      cases r with
      | error e => exact .pure _
      | ok _ => exact ih

theorem total_refill (m : Source) (p : Pending) : Act.Total (refill D X m p) := by
  refine .bind (.ite (total_inventory p) (.pure _)) fun (p', r) => ?_
  cases r with
  | error e => exact .pure _
  | ok _ => exact .bind total_serveScopes fun _ => .pure _

theorem total_replayPending (m : Source) : Act.Total (replayPending D X m) := by
  refine .ite (.pure _) (.bind (total_pendingInitialize m) fun (m', r) => ?_)
  cases r with
  | error e => exact .pure _
  | ok _ =>
    dsimp only
    cases m'.pending with
    | none => exact .pure _
    | some p => exact total_refill ..

theorem total_pendingNote (m : Source) (s : Bytes) : Act.Total (pendingNote D X m s) := by
  refine .bind (total_pendingInitialize m) fun (m', r) => ?_
  cases r with
  | error e => exact .pure _
  | ok _ =>
    dsimp only
    cases noteScope m' s with
    | mk m'' r =>
      cases r with
      | error e => exact .pure _
      | ok _ =>
        dsimp only
        cases m''.pending with
        | none => exact .pure _
        | some p => exact .ite (.pure _) (total_refill ..)

/-! ## What the admission keeps -/

/-- The cursors of a scope stay inside its log. -/
structure ScopeOk (st : SourceState) (x : PendingScope) : Prop where
  listed : x.scope ∈ st.scopes
  cursor : x.cursor ≤ x.stop
  stop : x.stop ≤ (st.events x.scope).length

/-- The admission serves scopes of the registry, each once. -/
structure PendingOk (st : SourceState) (p : Pending) : Prop where
  scopes : ∀ x ∈ p.scopes, ScopeOk st x
  nodup : (p.scopes.map (·.scope)).Nodup

def SourceOk (st : SourceState) (m : Source) : Prop := ∀ p, m.pending = some p → PendingOk st p

/-- Every turn of the state can be admitted. -/
structure TurnsOk (D : Digest) (X : Codec) (Good : Bytes → Prop) (d : Disk) (st : SourceState)
    (deferrals : List Deferral) : Prop where
  reads : ReadsObjects X Good
  turn : ∀ s ∈ st.scopes, ∀ e ∈ st.events s, e.kind.isTurn = true →
    strBlank e.text = false ∧ HasObject d e
  decided : ∀ s ∈ st.scopes, ∀ e ∈ st.events s, DeferralsMatch D deferrals s e

/-- The only error: the registry lists more scopes than the inventory takes. -/
def Smooth (st : SourceState) (r : Except Err Unit) : Prop :=
  r = .ok () ∨ r = .error .limit ∧ pendingScopes < st.scopes.length

/-- The state is held, and the log of `s` is open. -/
def Stays (D : Digest) (Good : Bytes → Prop) (d : Disk) (st : SourceState) (s : Bytes) (d' : Disk) :
    Prop :=
  Holds D Good d st d' ∧ Opened D d' s (st.events s)

theorem Stays.made (h : Stays D Good d st s d') : Stays D Good d st s (madeObjects d') := by
  have hd : ∀ p, ¬ objectArea p → madeObjects d' p = d' p := fun p hp =>
    Disk.set_ne _ _ fun he => hp (.inl he)
  have hk : Keeps d' (madeObjects d') := fun ref _ => Disk.set_ne _ _ (objectFile_ne ref)
  exact ⟨⟨h.1.1.objects' h.1.1.objects.made hd, h.1.2.trans hk⟩,
    h.2.congr (hd _ (not_objectArea_scopes _)) (hd _ (not_objectArea_scopes _)) fun p hp =>
      hd p fun ha => objectArea_not_log s ha hp⟩

/-- Reading an object makes its directory at most. -/
theorem objectRead_keeps (ref : Bytes) :
    Act.Keeps RowCut (Stays D Good d st s) (objectRead D ref) fun _ => True := by
  have hmk : Act.Keeps RowCut (Stays D Good d st s) (osMkdirP objectsDir) fun _ => True := by
    refine ⟨fun d1 h1 => ?_, fun _ _ _ _ => trivial⟩
    rw [Act.writes, osMkdirP_objectsDir h1.1.1.objects.dir]
    refine (mkdirWrites_steps h1.1.1.objects.dir h1 h1.made).weaken (fun _ h => h) ?_
    rintro d2 rfl
    exact h1.made
  refine (keeps_require _).bind fun _ _ => .bind (R := fun _ => True) ?_ fun path _ =>
    (keeps_osBlobOpen path).bind fun data _ => (keeps_lift _).bind fun _ _ => .pure trivial
  exact (keeps_require _).bind fun _ _ => (keeps_orFail hmk _).bind fun _ _ => .pure trivial

variable {deferrals : List Deferral} {q : Queue} {v : View} {p : Pending} {x : PendingScope}

theorem admitTurn_keeps (role : Role) (e : Event) :
    Act.Keeps RowCut (Stays D Good d st s) (admitTurn D X deferrals q role s e) fun _ => True := by
  have henqueue : Act.Keeps RowCut (Stays D Good d st s) (enqueueTurn D X q role s e)
      fun _ => True := by
    refine (keeps_require _).bind fun _ _ => (keeps_require _).bind fun _ _ =>
      (keeps_require _).bind fun _ _ => (keeps_require _).bind fun _ _ =>
      (keeps_require _).bind fun _ _ => .bind (R := fun _ => True) ?_ fun _ _ => .pure trivial
    exact .ite (fun _ => .pure trivial) fun _ => (objectRead_keeps _).bind fun data _ =>
      (keeps_lift _).weaken fun _ _ => trivial
  rw [admitTurn]
  split
  · exact .ite (fun _ => .pure trivial) fun _ => .fail _
  · refine henqueue.attempt.bind fun r _ => ?_
    cases r with
    | ok t => exact .pure trivial
    | error e =>
      cases e with
      | busy => exact .pure trivial
      | _ => exact .fail _

theorem admitEvent_keeps (D : Digest) (X : Codec) (Good : Bytes → Prop) (d : Disk) (p : Pending)
    (deferrals : List Deferral) (q : Queue) (hv : ViewOf D s (st.events s) (st.pins s) v) {i : Nat}
    (hi : i < (st.events s).length) :
    Act.Keeps RowCut (Stays D Good d st s) (admitEvent D X p deferrals q s v (i + 1))
      fun a => a.2 = v := by
  have hhead : Act.Keeps RowCut (Stays D Good d st s) (viewHead D v (i + 1)) fun a => a.2 = v := by
    refine ⟨fun d1 h1 => ?_, fun d1 a h1 ha => ?_⟩
    · rw [Act.writes, viewHead_run hv h1.2 hi]
      exact .nil h1 h1
    · rw [Act.result, viewHead_run hv h1.2 hi] at ha
      exact (Except.ok.inj ha) ▸ rfl
  have hread : Act.Keeps RowCut (Stays D Good d st s) (viewRead D v (i + 1)) fun a => a.2 = v := by
    refine ⟨fun d1 h1 => ?_, fun d1 a h1 ha => ?_⟩
    · rw [Act.writes, viewRead_run hv h1.2 hi]
      exact .nil h1 h1
    · rw [Act.result, viewRead_run hv h1.2 hi] at ha
      exact (Except.ok.inj ha) ▸ rfl
  refine hhead.bind fun hv' hv => ?_
  obtain ⟨e, v'⟩ := hv'
  obtain rfl : v' = v := hv
  dsimp only
  split
  · exact .pure rfl
  · refine .ite (fun _ => .pure rfl) fun _ => hread.bind fun ev'' hv'' => ?_
    obtain ⟨e, v''⟩ := ev''
    obtain rfl : v'' = v' := hv''
    exact (admitTurn_keeps _ _).bind fun a _ => .pure rfl

/-- The objects of `d` serve on a disk that holds its state. -/
theorem TurnsOk.keeps (h : TurnsOk D X Good d st deferrals) (hk : Keeps d d') :
    TurnsOk D X Good d' st deferrals where
  reads := h.reads
  turn s hs e he ht := by
    obtain ⟨hb, hv, ho⟩ := h.turn s hs e he ht
    exact ⟨hb, hv, by rw [hk _ ho]; exact ho⟩
  decided := h.decided

/-- No event of the state stops the fill with an error. -/
theorem admitEvent_ok (h : TurnsOk D X Good d st deferrals) (hs : s ∈ st.scopes)
    (hst : Stays D Good d st s d') (hv : ViewOf D s (st.events s) (st.pins s) v) {i : Nat}
    (hi : i < (st.events s).length) :
    ∃ a, (admitEvent D X p deferrals q s v (i + 1)).result d' = .ok a := by
  have h' := h.keeps hst.1.2
  have hgo := admitEvent_goes (p := p) (q := q) h'.reads hst.1.1.objects hv hst.2 hi
    (fun ht => (h'.turn s hs _ (List.getElem_mem hi) ht).2)
    (h'.decided s hs _ (List.getElem_mem hi))
  generalize (admitEvent D X p deferrals q s v (i + 1)).result d' = r at hgo
  cases hgo with
  | skip _ => exact ⟨_, rfl⟩
  | turn ht _ hturn =>
    cases hturn with
    | blank hb =>
      have := (h'.turn s hs _ (List.getElem_mem hi) ht).1
      rw [hb] at this
      cases this
    | full _ _ => exact ⟨_, rfl⟩
    | turn _ _ t => exact ⟨_, rfl⟩

/-- What a fill returns: a cursor inside the log, and no error where all turns can be admitted. -/
def FillGives (D : Digest) (X : Codec) (Good : Bytes → Prop) (d : Disk) (st : SourceState)
    (deferrals : List Deferral) (stop : Nat) (r : Nat × Queue × Except Err Unit) : Prop :=
  r.1 ≤ stop ∧ (TurnsOk D X Good d st deferrals → r.2.2 = .ok ())

theorem fillFrom_keeps (hs : x.scope ∈ st.scopes) (hv : ViewOf D x.scope (st.events x.scope)
      (st.pins x.scope) v) (hstop : x.stop ≤ (st.events x.scope).length) :
    ∀ {fuel cursor : Nat} {q : Queue}, cursor ≤ x.stop →
      Act.Keeps RowCut (Stays D Good d st x.scope)
        (fillFrom D X p deferrals x fuel v cursor q) (FillGives D X Good d st deferrals x.stop) := by
  intro fuel
  induction fuel with
  | zero => exact fun hc => .pure ⟨hc, fun _ => rfl⟩
  | succ fuel ih =>
    intro cursor q hc
    refine .ite (fun hlt => ?_) fun _ => .pure ⟨hc, fun _ => rfl⟩
    have hev := admitEvent_keeps D X Good d p deferrals q hv
      (show cursor < (st.events x.scope).length by omega)
    have hatt : Act.Keeps RowCut (Stays D Good d st x.scope)
        (admitEvent D X p deferrals q x.scope v (cursor + 1)).attempt fun r =>
          (∀ a, r = .ok a → a.2 = v) ∧ (TurnsOk D X Good d st deferrals → ∃ a, r = .ok a) :=
      ⟨hev.steps, fun d1 r h1 hr => ⟨hev.attempt.value d1 r h1 hr, fun ht => by
        obtain ⟨a, ha⟩ := admitEvent_ok (p := p) (q := q) ht hs h1 hv (i := cursor) (by omega)
        exact ⟨a, (Except.ok.inj hr).symm.trans ha⟩⟩⟩
    refine hatt.bind fun r hr => ?_
    cases r with
    | error e =>
      refine .pure ⟨hc, fun ht => ?_⟩
      obtain ⟨a, ha⟩ := hr.2 ht
      cases ha
    | ok av =>
      obtain ⟨a, v'⟩ := av
      obtain rfl : v' = v := hr.1 _ rfl
      cases a with
      | full => exact .pure ⟨hc, fun _ => rfl⟩
      | skip => exact ih (by omega)
      | turn t => exact ih (by omega)

/-- Whatever follows the opening of a view and keeps the open log keeps the state. -/
theorem viewOpen_keeps {α : Type} {f : Except Err View → Io α} {R : α → Prop}
    (hv : sourceScopeValid s = true) (hi : s ≠ indexName)
    (hf : ∀ v, ViewOf D s (st.events s) (st.pins s) v →
      Act.Keeps RowCut (Stays D Good d st s) (f (.ok v)) R) :
    Act.Keeps RowCut (Holds D Good d st) ((viewOpen D s).attempt >>= f) R := by
  refine ⟨fun d1 h1 => ?_, fun d1 a h1 ha => ?_⟩
  · obtain ⟨ws, v, hrun, hview, hsteps⟩ := h1.1.viewOpen_run hv hi
    have hstay : Stays D Good d st s (applyAll ws d1) := ⟨h1.trans hsteps.final.1, hsteps.final.2⟩
    rw [Act.writes, Act.bind_run (Act.attempt_run hrun)]
    exact (hsteps.weaken (fun _ h => h1.trans h) fun _ h => h).append
      (((hf v hview).steps _ hstay).weaken (fun _ h => h.1) fun _ h => h.1)
  · obtain ⟨ws, v, hrun, hview, hsteps⟩ := h1.1.viewOpen_run hv hi
    have hstay : Stays D Good d st s (applyAll ws d1) := ⟨h1.trans hsteps.final.1, hsteps.final.2⟩
    rw [Act.result, Act.bind_run (Act.attempt_run hrun)] at ha
    exact (hf v hview).value _ a hstay ha

/-- The registry lists the names of the admission. -/
theorem SourceAt.named_scopes (h : SourceAt D Good d st) {r : Bytes} (hr : r ∈ st.scopes) :
    sourceScopeValid r = true ∧ r ≠ indexName :=
  ⟨h.registry.valid r hr, fun he => h.names (he ▸ hr)⟩

theorem fillScope_keeps (hn : sourceScopeValid x.scope = true ∧ x.scope ≠ indexName)
    (hx : ScopeOk st x) :
    Act.Keeps RowCut (Holds D Good d st) (fillScope D X p deferrals x q)
      (FillGives D X Good d st deferrals x.stop) := by
  refine viewOpen_keeps hn.1 hn.2 fun v hview => ?_
  refine .ite (fun hc => ?_) fun hc => ?_
  · have := hx.stop
    rw [hview.count] at hc
    omega
  · exact fillFrom_keeps hx.listed hview hx.stop hx.cursor

theorem captureScope_keeps (hn : sourceScopeValid x.scope = true ∧ x.scope ≠ indexName)
    (hx : ScopeOk st x) :
    Act.Keeps RowCut (Holds D Good d st) (captureScope D x).attempt fun r =>
      ∃ y, r = .ok y ∧ y.scope = x.scope ∧ y.cursor = x.cursor ∧ ScopeOk st y := by
  have hrun {d1 : Disk} (h1 : Holds D Good d st d1) :
      ∃ ws, captureScope D x d1 = ⟨ws, .ok { x with
        stop := (st.events x.scope).length, refresh := false }⟩ ∧
        Steps RowCut d1 ws (Holds D Good d st) (Holds D Good d st) := by
    obtain ⟨ws, v, hrun, hview, hsteps⟩ := h1.1.viewOpen_run hn.1 hn.2
    have hle : x.cursor ≤ (st.events x.scope).length := Nat.le_trans hx.cursor hx.stop
    have htail : (if v.files.count < x.cursor then Act.fail .io
        else pure { x with stop := v.files.count, refresh := false } : Io PendingScope)
        (applyAll ws d1) = ⟨[], .ok { x with
          stop := (st.events x.scope).length, refresh := false }⟩ := by
      rw [hview.count, if_neg (by omega)]
      rfl
    refine ⟨ws ++ [], Act.bind_run_run hrun htail, ?_⟩
    rw [List.append_nil]
    exact hsteps.weaken (fun _ h => h1.trans h) fun _ h => h1.trans h.1
  refine ⟨fun d1 h1 => ?_, fun d1 r h1 hr => ?_⟩
  · obtain ⟨ws, hrun, hsteps⟩ := hrun h1
    rw [Act.writes, Act.attempt_run hrun]
    exact hsteps
  · obtain ⟨ws, hrun, -⟩ := hrun h1
    rw [Act.result, Act.attempt_run hrun] at hr
    exact ⟨_, (Except.ok.inj hr).symm, rfl, rfl, hx.listed, Nat.le_trans hx.cursor hx.stop,
      Nat.le_refl _⟩

theorem serveScope_keeps (hn : sourceScopeValid x.scope = true ∧ x.scope ≠ indexName)
    (hx : ScopeOk st x) :
    Act.Keeps RowCut (Holds D Good d st) (serveScope D X p deferrals x q) fun r =>
      r.1.scope = x.scope ∧ ScopeOk st r.1 ∧
        (TurnsOk D X Good d st deferrals → r.2.2 = .ok ()) := by
  have hcap : Act.Keeps RowCut (Holds D Good d st)
      (if x.refresh ∧ p.frozen = false then captureScope D x else pure x).attempt fun r =>
        ∃ y, r = .ok y ∧ y.scope = x.scope ∧ ScopeOk st y := by
    by_cases hc : x.refresh ∧ p.frozen = false
    · rw [if_pos hc]
      exact (captureScope_keeps hn hx).weaken fun r hr =>
        hr.imp fun _ hy => ⟨hy.1, hy.2.1, hy.2.2.2⟩
    · rw [if_neg hc]
      exact ⟨fun d1 h1 => .nil h1 h1, fun d1 r _ hr => ⟨x, (Except.ok.inj hr).symm, rfl, hx⟩⟩
  refine hcap.bind fun r hr => ?_
  obtain ⟨y, rfl, hys, hy⟩ := hr
  refine .ite (fun _ => ?_) fun _ => .pure ⟨hys, hy, fun _ => rfl⟩
  refine (fillScope_keeps (hys ▸ hn) hy).bind fun (cursor, q', r) hr => .pure ?_
  exact ⟨hys, ⟨hy.listed, hr.1, hy.stop⟩, hr.2⟩

theorem PendingOk.set (h : PendingOk st p) {i : Nat} {x y : PendingScope}
    (hx : p.scopes[i]? = some x) (hs : y.scope = x.scope) (hy : ScopeOk st y) (next : Nat) :
    PendingOk st { p with scopes := p.scopes.set i y, next } where
  scopes z hz := (List.mem_or_eq_of_mem_set hz).elim (h.scopes z) (· ▸ hy)
  nodup := by
    have hmap : (p.scopes.set i y).map (·.scope) = p.scopes.map (·.scope) := by
      obtain ⟨hi, rfl⟩ := List.getElem?_eq_some_iff.1 hx
      rw [List.map_set, hs]
      have := @List.set_getElem_self _ (p.scopes.map (·.scope)) i (by simpa using hi)
      simpa using this
    exact (show (p.scopes.set i y).map (·.scope) = _ from hmap) ▸ h.nodup

theorem serveScopes_keeps (hnames : ∀ s ∈ st.scopes, sourceScopeValid s = true ∧ s ≠ indexName) :
    ∀ {n : Nat} {p : Pending} {q : Queue}, PendingOk st p →
    Act.Keeps RowCut (Holds D Good d st) (serveScopes D X deferrals n p q) fun r =>
      PendingOk st r.1 ∧ (TurnsOk D X Good d st deferrals → r.2.2 = .ok ()) := by
  intro n
  induction n with
  | zero => exact fun hp => .pure ⟨hp, fun _ => rfl⟩
  | succ n ih =>
    intro p q hp
    refine .ite (fun _ => .pure ⟨hp, fun _ => rfl⟩) fun _ => ?_
    cases hx : p.scopes[p.next]? with
    | none => exact .pure ⟨hp, fun _ => rfl⟩
    | some x =>
      have hxo := hp.scopes x (List.mem_of_getElem? hx)
      refine (serveScope_keeps (hnames _ hxo.listed) hxo).bind fun yqr hy => ?_
      obtain ⟨y, q', r⟩ := yqr
      have hp' := hp.set hx hy.1 hy.2.1 ((p.next + 1) % p.scopes.length)
      cases r with
      | error e => exact .pure ⟨hp', fun ht => by cases hy.2.2 ht⟩
      | ok _ => exact ih hp'

/-! ## Scopes of the registry -/

theorem addScope_ok (hp : PendingOk st p) {r : Bytes} (hr : r ∈ st.scopes) :
    (∃ p', addScope p r = .ok p' ∧ PendingOk st p') ∨
      addScope p r = .error .limit ∧ pendingScopes < st.scopes.length := by
  rw [addScope]
  split
  · refine .inl ⟨_, rfl, fun x hx => ?_, ?_⟩
    · obtain ⟨y, hy, rfl⟩ := List.mem_map.1 hx
      split
      · exact ⟨(hp.scopes y hy).listed, (hp.scopes y hy).cursor, (hp.scopes y hy).stop⟩
      · exact hp.scopes y hy
    · have hmap : (p.scopes.map fun x => if x.scope = r then { x with refresh := true } else x).map
          (·.scope) = p.scopes.map (·.scope) := by
        rw [List.map_map]
        refine List.map_congr_left fun x _ => ?_
        dsimp only [Function.comp_apply]
        split <;> rfl
      exact hmap ▸ hp.nodup
  · next hany =>
    have hnew : r ∉ p.scopes.map (·.scope) := fun hm => by
      obtain ⟨x, hx, he⟩ := List.mem_map.1 hm
      exact hany (List.any_eq_true.2 ⟨x, hx, by simpa using he⟩)
    split
    · next hl =>
      have hsub : r :: p.scopes.map (·.scope) ⊆ st.scopes := fun y hy => by
        rcases List.mem_cons.1 hy with rfl | hy
        · exact hr
        · obtain ⟨x, hx, rfl⟩ := List.mem_map.1 hy
          exact (hp.scopes x hx).listed
      have := (List.Nodup.subperm (List.nodup_cons.2 ⟨hnew, hp.nodup⟩) hsub).length_le
      rw [List.length_cons, List.length_map, hl] at this
      exact .inr ⟨rfl, this⟩
    · refine .inl ⟨_, rfl, fun x hx => ?_, ?_⟩
      · rcases List.mem_append.1 hx with hx | hx
        · exact hp.scopes x hx
        · rw [List.mem_singleton.1 hx]
          exact ⟨hr, Nat.le_refl _, Nat.zero_le _⟩
      · rw [List.map_append, List.nodup_append]
        refine ⟨hp.nodup, List.pairwise_singleton _ _, fun a ha b hb hab => ?_⟩
        obtain rfl := List.mem_singleton.1 hb
        exact hnew (hab ▸ ha)

theorem addRows_ok : ∀ {rs : List Bytes} {p : Pending}, PendingOk st p →
    (∀ r ∈ rs, r ∈ st.scopes ∧ sourceScopeValid r = true) →
    PendingOk st (addRows rs p).1 ∧ Smooth st (addRows rs p).2
  | [], _, hp, _ => ⟨hp, .inl rfl⟩
  | r :: rs, p, hp, hr => by
    obtain ⟨hm, hv⟩ := hr r (.head _)
    rw [addRows_row hv]
    rcases addScope_ok hp hm with ⟨p', ha, hp'⟩ | ⟨ha, hl⟩
    · rw [ha]
      exact addRows_ok hp' fun x hx => hr x (.tail _ hx)
    · rw [ha]
      exact ⟨hp, .inr ⟨rfl, hl⟩⟩

theorem inventoryText_ok (hp : PendingOk st p) (h : ∀ r ∈ st.scopes, sourceScopeValid r = true) :
    PendingOk st (inventoryText (joinRows st.scopes) p).1 ∧
      Smooth st (inventoryText (joinRows st.scopes) p).2 := by
  have hn := addRows_ok hp fun r hr => ⟨hr, h r hr⟩
  rw [inventoryText, splitRows_registry h]
  dsimp only
  cases ha : addRows st.scopes p with
  | mk p' r =>
    rw [ha] at hn
    cases r with
    | error e => exact hn
    | ok _ => exact ⟨⟨hn.1.scopes, hn.1.nodup⟩, .inl rfl⟩

theorem SourceAt.scopes_made (h : SourceAt D Good d st) :
    SourceAt D Good (d.set scopesDir (some .dir)) st where
  registry := h.registry.congr (.inr (Disk.set_self ..)) (Disk.set_ne _ _ (by decide))
  names := h.names
  scope s hv hi := (h.scope s hv hi).congr (.inr (Disk.set_self ..))
    (Disk.set_ne _ _ scopeDir_ne) fun n => Disk.set_ne _ _ (scopeFile_ne n).1
  objects := h.objects.congr fun p hp =>
    Disk.set_ne _ _ fun he => not_objectArea_scopes _ (he ▸ hp)
  listed := h.listed

theorem inventory_keeps (hp : PendingOk st p) :
    Act.Keeps RowCut (Holds D Good d st) (inventory p) fun r =>
      PendingOk st r.1 ∧ Smooth st r.2 := by
  refine ⟨fun d1 h1 => ?_, fun d1 r h1 hr => ?_⟩
  · have hk : Keeps d1 (d1.set scopesDir (some .dir)) := Keeps.congr fun p hp =>
      Disk.set_ne _ _ fun he => not_objectArea_scopes _ (he ▸ hp)
    have hm : Holds D Good d st (d1.set scopesDir (some .dir)) :=
      h1.trans ⟨h1.1.scopes_made, hk⟩
    rw [Act.writes, h1.1.registry.inventory_run]
    exact (mkdirWrites_steps h1.1.registry.dir h1 hm).weaken (fun _ h => h)
      fun _ he => he ▸ hm
  · rw [Act.result, h1.1.registry.inventory_run] at hr
    exact Except.ok.inj hr ▸ inventoryText_ok hp h1.1.registry.valid

/-! ## The admission as a whole -/

variable {m : Source}

theorem SourceOk.some {p : Pending} (h : PendingOk st p) (hm : m.pending = some p) :
    SourceOk st m := fun _ hp' => Option.some.inj (hm.symm.trans hp') ▸ h

/-- What a step of the admission leaves in memory. -/
def MemGives (st : SourceState) (m : Source) (m' : Source) : Prop :=
  SourceOk st m' ∧ m'.deferrals = m.deferrals

theorem silent_curatedLoad : Act.Silent curatedLoad := by
  have hread : Act.Silent (sourceTextRead curatedFile curatedBytes) :=
    .bind (Act.silent_read _) fun _ => .bind (.ite (.pure _) (.fail _)) fun _ =>
      .bind (.ite (.pure _) (.fail _)) fun _ => .pure _
  refine .bind (.bind hread.attempt fun r => ?_) fun text => Act.silent_lift _
  cases r with
  | ok a => exact .pure _
  | error e => exact .ite (.pure _) (.fail _)

theorem pendingInitialize_keeps (hm : SourceOk st m) :
    Act.Keeps RowCut (Holds D Good d st) (pendingInitialize m) fun r =>
      MemGives st m r.1 := by
  rw [pendingInitialize]
  cases hp : m.pending with
  | some p => exact .pure ⟨hm, rfl⟩
  | none =>
    refine silent_curatedLoad.attempt.keeps.bind fun r _ => ?_
    cases r with
    | error e => exact .pure ⟨hm, rfl⟩
    | ok curated =>
      have hb : PendingOk st (.blank curated) := ⟨fun x hx => absurd hx List.not_mem_nil, .nil⟩
      refine (inventory_keeps hb).bind fun (p, r) hpr => ?_
      cases r with
      | error e => exact .pure ⟨hm, rfl⟩
      | ok _ => exact .pure ⟨.some hpr.1 rfl, rfl⟩

theorem refill_keeps (hnames : ∀ s ∈ st.scopes, sourceScopeValid s = true ∧ s ≠ indexName)
    (hp : PendingOk st p) :
    Act.Keeps RowCut (Holds D Good d st) (refill D X m p) fun r =>
      MemGives st m r.1 ∧ (TurnsOk D X Good d st m.deferrals → Smooth st r.2) := by
  have hinv : Act.Keeps RowCut (Holds D Good d st) (inventoryDue p) fun r =>
      PendingOk st r.1 ∧ Smooth st r.2 :=
    .ite (fun _ => inventory_keeps hp) fun _ => .pure ⟨hp, .inl rfl⟩
  refine hinv.bind fun (p', r) hp' => ?_
  cases r with
  | error e => exact .pure ⟨⟨.some hp'.1 rfl, rfl⟩, fun _ => hp'.2⟩
  | ok _ =>
    refine (serveScopes_keeps hnames hp'.1).bind fun (p'', q, r) hp'' => .pure ?_
    exact ⟨⟨.some hp''.1 rfl, rfl⟩, fun ht => .inl (hp''.2 ht)⟩

/-- **Replaying the pending turns** changes nothing of the state. -/
theorem replayPending_keeps (D : Digest) (X : Codec) (Good : Bytes → Prop) (d : Disk)
    (hnames : ∀ s ∈ st.scopes, sourceScopeValid s = true ∧ s ≠ indexName) (hm : SourceOk st m) :
    Act.Keeps RowCut (Holds D Good d st) (replayPending D X m) fun r => MemGives st m r.1 := by
  refine .ite (fun _ => .pure ⟨hm, rfl⟩) fun _ =>
    (pendingInitialize_keeps hm).bind fun (m', r) hm' => ?_
  cases r with
  | error e => exact .pure hm'
  | ok _ =>
    dsimp only
    cases hp : m'.pending with
    | none => exact .pure hm'
    | some p =>
      exact (refill_keeps hnames (hm'.1 p hp)).weaken fun r hr => ⟨hr.1.1, hr.1.2.trans hm'.2⟩

theorem noteScope_ok (hm : SourceOk st m) (hs : s ∈ st.scopes) :
    MemGives st m (noteScope m s).1 := by
  rw [noteScope]
  cases hp : m.pending with
  | none => exact ⟨hm, rfl⟩
  | some p =>
    dsimp only
    rcases addScope_ok (hm p hp) hs with ⟨p', ha, hp'⟩ | ⟨ha, -⟩
    · rw [ha]
      exact ⟨.some hp' rfl, rfl⟩
    · rw [ha]
      exact ⟨.some (p := { p with dirty := true }) ⟨(hm p hp).scopes, (hm p hp).nodup⟩ rfl, rfl⟩

theorem pendingNote_keeps (D : Digest) (X : Codec) (Good : Bytes → Prop) (d : Disk)
    (hnames : ∀ s ∈ st.scopes, sourceScopeValid s = true ∧ s ≠ indexName) (hm : SourceOk st m)
    (hs : s ∈ st.scopes) :
    Act.Keeps RowCut (Holds D Good d st) (pendingNote D X m s) fun r => MemGives st m r.1 := by
  refine (pendingInitialize_keeps hm).bind fun (m', r) hm' => ?_
  cases r with
  | error e =>
    refine .pure ⟨fun p' hp' => ?_, hm'.2⟩
    cases hp : m'.pending with
    | none => simp [hp] at hp'
    | some p =>
      simp only [hp, Option.map_some, Option.some.injEq] at hp'
      subst hp'
      exact ⟨(hm'.1 p hp).scopes, (hm'.1 p hp).nodup⟩
  | ok _ =>
    have hn := noteScope_ok hm'.1 hs
    dsimp only
    cases hnote : noteScope m' s with
    | mk m'' r =>
      rw [hnote] at hn
      have hd : m''.deferrals = m.deferrals := hn.2.trans hm'.2
      cases r with
      | error e => exact .pure ⟨hn.1, hd⟩
      | ok _ =>
        dsimp only
        cases hp : m''.pending with
        | none => exact .pure ⟨hn.1, hd⟩
        | some p =>
          exact .ite (fun _ => .pure ⟨hn.1, hd⟩) fun _ =>
            (refill_keeps hnames (hn.1 p hp)).weaken fun r hr => ⟨hr.1.1, hr.1.2.trans hd⟩

/-- **The fill fails only where it must**: where the ids curated before can be read and every turn
can be admitted, replaying the pending turns ends well, unless the registry lists too many
scopes. -/
theorem SourceAt.replayPending_smooth (h : SourceAt D Good d st) (hm : SourceOk st m)
    (ht : TurnsOk D X Good d st m.deferrals) {ids : List Bytes}
    (hc : curatedLoad.result d = .ok ids) {r : Source × Except Err Unit}
    (hr : (replayPending D X m).result d = .ok r) : Smooth st r.2 := by
  have hnames := fun s (hs : s ∈ st.scopes) => h.named_scopes hs
  have hrefill {m' : Source} {p : Pending} (hp : PendingOk st p) (hd : m'.deferrals = m.deferrals) :
      Act.Keeps RowCut (Holds D Good d st) (refill D X m' p) fun r => Smooth st r.2 :=
    (refill_keeps hnames hp).weaken fun r hr => hr.2 (hd ▸ ht)
  -- starting the admission, once the curated ids are read
  obtain ⟨init, hinit, hk⟩ : ∃ init : Io (Source × Except Err Unit),
      pendingInitialize m d = init d ∧ Act.Keeps RowCut (Holds D Good d st) init fun r =>
        MemGives st m r.1 ∧ Smooth st r.2 := by
    cases hp : m.pending with
    | some p =>
      refine ⟨pure (m, .ok ()), ?_, .pure ⟨⟨hm, rfl⟩, .inl rfl⟩⟩
      rw [pendingInitialize, hp]
    | none =>
      have hb : PendingOk st (.blank ids) := ⟨fun x hx => absurd hx List.not_mem_nil, .nil⟩
      refine ⟨pendingRead m ids, ?_, (inventory_keeps hb).bind fun pr hpr => ?_⟩
      · have hatt : curatedLoad.attempt d = ⟨[], .ok (.ok ids)⟩ := by
          rw [Act.attempt, silent_curatedLoad.nil, hc]
        rw [pendingInitialize, hp]
        exact Act.bind_run hatt
      · obtain ⟨p, r⟩ := pr
        cases r with
        | error e => exact .pure ⟨⟨hm, rfl⟩, hpr.2⟩
        | ok _ => exact .pure ⟨⟨.some hpr.1 rfl, rfl⟩, hpr.2⟩
  rw [replayPending] at hr
  split at hr
  · exact Except.ok.inj hr ▸ .inl rfl
  · rw [Act.result, Act.bind_congr _ hinit] at hr
    refine (hk.bind (S := fun r => Smooth st r.2) fun mr hm' => ?_).value d r ⟨h, .refl d⟩ hr
    obtain ⟨m', r⟩ := mr
    cases r with
    | error e => exact .pure hm'.2
    | ok _ =>
      dsimp only
      cases hp : m'.pending with
      | none => exact .pure (.inl rfl)
      | some p => exact hrefill (hm'.1.1 p hp) hm'.1.2

/-! ## One turn at the cursor -/

/-- The cursor and the queue only grow. -/
theorem fillFrom_grows {x : PendingScope} : ∀ {fuel : Nat} {v : View} {cursor : Nat} {q : Queue},
    Act.Keeps (fun _ _ => False) (fun _ => True) (fillFrom D X p deferrals x fuel v cursor q)
      fun r => cursor ≤ r.1 ∧ q.turns <+: r.2.1.turns := by
  intro fuel
  induction fuel with
  | zero => exact .pure ⟨Nat.le_refl _, List.prefix_refl _⟩
  | succ fuel ih =>
    intro v cursor q
    refine .ite (fun _ => .bind (Act.keeps_true _) fun r _ => ?_) fun _ =>
      .pure ⟨Nat.le_refl _, List.prefix_refl _⟩
    cases r with
    | error e => exact .pure ⟨Nat.le_refl _, List.prefix_refl _⟩
    | ok av =>
      obtain ⟨a, v'⟩ := av
      cases a with
      | full => exact .pure ⟨Nat.le_refl _, List.prefix_refl _⟩
      | skip => exact ih.weaken fun _ h => ⟨Nat.le_of_succ_le h.1, h.2⟩
      | turn t => exact ih.weaken fun _ h =>
          ⟨Nat.le_of_succ_le h.1, (List.prefix_append ..).trans h.2⟩

/-- The first round of the loop decides whether the cursor moves. -/
theorem fillFrom_first {x : PendingScope} {fuel cursor : Nat} (hc : cursor < x.stop)
    (hq : turnQueueRoom q = true) {r : Nat × Queue × Except Err Unit}
    (hr : (fillFrom D X p deferrals x (fuel + 1) v cursor q).result d = .ok r) :
    match (admitEvent D X p deferrals q x.scope v (cursor + 1)).result d with
    | .error e => r = (cursor, q, .error e)
    | .ok (.full, _) => r = (cursor, q, .ok ())
    | .ok (.skip, _) => cursor < r.1
    | .ok (.turn t, _) => cursor < r.1 ∧ q.turns ++ [t] <+: r.2.1.turns := by
  rw [fillFrom, if_pos ⟨hc, hq⟩] at hr
  have hatt : ((admitEvent D X p deferrals q x.scope v (cursor + 1)).attempt).result d =
    .ok ((admitEvent D X p deferrals q x.scope v (cursor + 1)).result d) := rfl
  rw [Act.result_bind hatt] at hr
  cases ha : (admitEvent D X p deferrals q x.scope v (cursor + 1)).result d with
  | error e =>
    rw [ha] at hr
    exact (Except.ok.inj hr).symm
  | ok av =>
    obtain ⟨a, v'⟩ := av
    rw [ha] at hr
    cases a with
    | full => exact (Except.ok.inj hr).symm
    | skip => exact (fillFrom_grows.value _ _ trivial hr).1
    | turn t => exact fillFrom_grows.value _ _ trivial hr

theorem roomFor_turnQueueRoom {n : Nat} (h : roomFor q (n + 1) = true) : turnQueueRoom q = true := by
  simp only [turnQueueRoom, roomFor, decide_eq_true_eq] at h ⊢
  omega

/-- A fill from `cursor` and `q` that ended with `r` went past the event `e`, with its turn at the
end of the queue or because the turn is skipped. -/
def Admitted (p : Pending) (deferrals : List Deferral) (s : Bytes) (e : Event) (cursor : Nat)
    (q : Queue) (r : Nat × Queue × Except Err Unit) : Prop :=
  cursor < r.1 ∧ (Skipped p deferrals s e ∨ ∃ t, TurnOf s e t ∧ q.turns ++ [t] <+: r.2.1.turns)

theorem pinsApply_skipped (ps : List Pin) (e : Event) :
    Skipped p deferrals s (pinsApply ps e) ↔ Skipped p deferrals s e := by
  simp only [Skipped, Deferred, pinsApply_id]

/-- **The fill admits a turn** exactly when its text is not blank or the turn is skipped, once the
queue has room for it; a blank turn stops it with an error. -/
theorem SourceAt.fillScope_admits_iff (deferrals : List Deferral) (h : SourceAt D Good d st) (hX : ReadsObjects X Good)
    {x : PendingScope} (hv : sourceScopeValid x.scope = true) (hi : x.scope ≠ indexName)
    (hc : x.cursor < x.stop) (hs : x.stop ≤ (st.events x.scope).length)
    (hobj : HasObject d (st.events x.scope)[x.cursor])
    (ht : (st.events x.scope)[x.cursor].kind.isTurn = true)
    (hm : DeferralsMatch D deferrals x.scope (st.events x.scope)[x.cursor])
    (hq : roomFor q ((st.events x.scope)[x.cursor].text.length + 1) = true) :
    ∃ r, (fillScope D X p deferrals x q).result d = .ok r ∧
      (Admitted p deferrals x.scope (st.events x.scope)[x.cursor] x.cursor q r ↔
        strBlank (st.events x.scope)[x.cursor].text = false ∨
        Skipped p deferrals x.scope (st.events x.scope)[x.cursor]) ∧
      (¬ Admitted p deferrals x.scope (st.events x.scope)[x.cursor] x.cursor q r →
        r = (x.cursor, q, .error .invalid)) := by
  obtain ⟨ws, v, hopen, hview, hsteps⟩ := h.viewOpen_run hv hi
  obtain ⟨r, hr⟩ := (total_fillScope (D := D) (X := X) p deferrals x q).ok d
  refine ⟨r, hr, ?_⟩
  rw [fillScope, Act.result, Act.bind_run (Act.attempt_run hopen)] at hr
  dsimp only at hr
  rw [if_neg (by rw [hview.count]; omega)] at hr
  obtain ⟨fuel, hfuel⟩ : ∃ fuel, x.stop - x.cursor = fuel + 1 := ⟨x.stop - x.cursor - 1, by omega⟩
  rw [hfuel] at hr
  have hfirst := fillFrom_first hc (roomFor_turnQueueRoom hq) hr
  obtain ⟨⟨hst, hk⟩, hop⟩ := hsteps.final
  have hgo := admitEvent_goes (p := p) (q := q) hX hst.objects hview hop (by omega)
    (fun _ => ⟨hobj.1, by rw [hk _ hobj.2]; exact hobj.2⟩) hm
  generalize (admitEvent D X p deferrals q x.scope v (x.cursor + 1)).result (applyAll ws d) = a
    at hfirst hgo
  cases hgo with
  | skip hskip =>
    have hsk := hskip.resolve_left (by simp [ht])
    have hlt : x.cursor < r.1 := hfirst
    exact ⟨iff_of_true ⟨hlt, .inl hsk⟩ (.inr hsk), fun hn => absurd ⟨hlt, .inl hsk⟩ hn⟩
  | turn _ hns hturn =>
    cases hturn with
    | blank hb =>
      obtain rfl : r = (x.cursor, q, .error .invalid) := hfirst
      refine ⟨iff_of_false (fun ha => Nat.lt_irrefl _ ha.1) ?_, fun _ => rfl⟩
      rw [hb]
      exact fun hor => hor.elim Bool.noConfusion hns
    | full hb hr' => rw [hq] at hr'; cases hr'
    | turn hb hr' htof =>
      have hadm : Admitted p deferrals x.scope (st.events x.scope)[x.cursor] x.cursor q r :=
        ⟨hfirst.1, .inr ⟨_, htof, hfirst.2⟩⟩
      exact ⟨iff_of_true hadm (.inl hb), fun hn => absurd hadm hn⟩

end

end Asper
