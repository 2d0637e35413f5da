import Asper.Curator.Cycle
import Asper.Record.Proof.Journaled

/-! # The authority of the host over a curation cycle

The funnel checks every update of a cycle against the record as it is, but a deprecation against
its lock only; what evidence the record has is checked on the clone the cycle took before it asked
the model. `Known` follows the records a cycle has cloned through a run, and `authority_iff` says
which runs change a record of the host: those that deprecate a record which the host updated after
it was cloned. -/

namespace Asper

open Durable

/-- What a label says of the record `id`: cloned for a cycle, or updated by the host. -/
inductive Touch where
  | cloned | updated
  deriving DecidableEq

def touch (id : Bytes) : CurationEvent → Option Touch
  | .cloned rs => if rs.any (·.id = id) then some .cloned else none
  | .hosted (.update id' _) true => if id'.val = id then some .updated else none
  | _ => none

/-- The host updated the record after it was last cloned. -/
def HostUpdated (id : Bytes) (ls : List CurationEvent) : Prop :=
  lastSome (touch id) ls = some .updated

/-- The clones a cycle holds. -/
def Phase.handles : Phase → List Record
  | .shown cy => cy.handles
  | .acting cy _ _ _ _ => cy.handles
  | _ => []

/-- What the labels tell about a record that was cloned as `c`. -/
def KnownClone (ls : List CurationEvent) (t : Table) (c : Record) : Prop :=
  ∃ r, t.get c.id = some r ∧
    (c.evidence.kind = .inferred → (r.evidence.kind = .inferred ↔ ¬ HostUpdated c.id ls))

def Known {V : Type} (ls : List CurationEvent) (σ : Curating V) : Prop :=
  ∀ c ∈ σ.phase.handles, KnownClone ls σ.ctx.memory.table c

/-- What a change of a record in a cycle comes to. -/
def ChangeOk (ls : List CurationEvent) : CurationEvent → Prop
  | .mutated update r => r.locked = false ∧
      (r.evidence.kind = .inferred ↔ ¬ (update = false ∧ HostUpdated r.id ls))
  | _ => True

section
variable {V : Type} {S : CycleSettings} {T : OpText} {D : Digest} {tokens : Bytes → Int}
  {ls : List CurationEvent} {t t' : Table} {c : Record} {l : CurationEvent}

theorem hostUpdated_concat {id : Bytes} : HostUpdated id (ls ++ [l]) ↔
    touch id l = some .updated ∨ touch id l = none ∧ HostUpdated id ls := by
  unfold HostUpdated
  rw [lastSome_concat]
  cases touch id l <;> simp

/-- A label that says nothing of the record, over tables that agree on its evidence. -/
theorem KnownClone.keep (h : KnownClone ls t c) (hl : touch c.id l = none)
    (ht : ∀ r, t.get c.id = some r → ∃ r', t'.get c.id = some r' ∧
      r'.evidence.kind = r.evidence.kind) : KnownClone (ls ++ [l]) t' c := by
  obtain ⟨r, hr, hk⟩ := h
  obtain ⟨r', hr', hk'⟩ := ht r hr
  refine ⟨r', hr', fun hc => ?_⟩
  rw [hk', hk hc, hostUpdated_concat, hl]
  simp

/-- A label that says nothing of the records a cycle has cloned, over the same table. -/
theorem Known.still {σ σ' : Curating V} (h : Known ls σ)
    (hh : σ'.phase.handles ⊆ σ.phase.handles) (ht : σ'.ctx.memory.table = σ.ctx.memory.table)
    (hl : ∀ id, touch id l = none) : Known (ls ++ [l]) σ' := by
  intro c hc
  rw [ht]
  exact (h c (hh hc)).keep (hl _) fun r hr => ⟨r, hr, rfl⟩

theorem Known.none {σ : Curating V} (h : σ.phase.handles = []) : Known ls σ := by
  intro c hc
  rw [h] at hc
  cases hc

/-! ## What a proposal is -/

theorem mutatePlan_some {now : Int} {target : Record} {update : Bool} {text : Bytes}
    {quorum quorum' : List Waiting} {seen seen' : List Proposal} {op : Op}
    (h : mutatePlan S now target update text quorum seen = (some op, quorum', seen')) :
    target.evidence.kind = .inferred ∧ op = changeOp now target.id update text := by
  unfold mutatePlan at h
  dsimp only at h
  generalize (⟨target.id, update, fnv1a64 (if update = true then text else [])⟩ : Proposal) = p at h
  split at h
  · simp at h
  · next hn =>
    refine ⟨by_contra fun he => hn (.inl he), ?_⟩
    split at h
    · simp only [Prod.mk.injEq, Option.some.injEq] at h
      exact h.1.symm
    · split at h
      · simp at h
      · split at h
        · simp only [Prod.mk.injEq, Option.some.injEq] at h
          exact h.1.symm
        · simp at h

/-- A proposal that is an operation inserts a record of the cycle or changes one it has cloned. -/
theorem plan_some {cy : Cycle} {dup : Bool} {id : Uuid} {quorum quorum' : List Waiting}
    {seen seen' : List Proposal} {processed : Nat} {cop : Cop} {op : Op}
    (h : cy.plan S dup id quorum seen processed cop = (some op, quorum', seen')) :
    (∃ section_ text, op = ⟨cy.now, .insert (cy.record id section_ text)⟩) ∨
    ∃ target ∈ cy.handles, target.evidence.kind = .inferred ∧
      ∃ update text, op = changeOp cy.now target.id update text := by
  have hchange : ∀ {i : Nat} {target : Record} {update : Bool} {text : Bytes},
      cy.handles[i]? = some target →
      mutatePlan S cy.now target update text quorum seen = (some op, quorum', seen') →
      ∃ target ∈ cy.handles, target.evidence.kind = .inferred ∧
        ∃ update text, op = changeOp cy.now target.id update text := by
    intro i target update text ht hp
    obtain ⟨hk, hop⟩ := mutatePlan_some hp
    exact ⟨target, List.mem_of_getElem? ht, hk, update, text, hop⟩
  unfold Cycle.plan at h
  split at h
  · cases h
  · split at h
    · cases h
    · split at h
      · unfold Cycle.insertOp at h
        split at h
        · cases h
        · cases h
          exact .inl ⟨_, _, rfl⟩
      · split at h
        · next ht => exact .inr (hchange ht h)
        · cases h
      · split at h
        · next ht => exact .inr (hchange ht h)
        · cases h
      · cases h

/-! ## Evidence across a step -/

theorem updateValidate_curator {m : Memory} {id content : Bytes} {declared : Bool} {r : Record}
    (h : updateValidate S.toSettings m id content declared true = .ok r) :
    m.table.get id = some r ∧ r.locked = false ∧ r.evidence.kind = .inferred ∧
      declared = false := by
  unfold updateValidate at h
  cases hc : contentCheck S.toSettings content with
  | error e =>
    rw [hc] at h
    cases h
  | ok u =>
    rw [hc] at h
    cases hg : m.table.get id with
    | none =>
      rw [hg] at h
      cases h
    | some t =>
      rw [hg] at h
      simp only [bind, Except.bind] at h
      split at h
      · cases h
      · next h1 =>
        split at h
        · cases h
        · next h2 =>
          split at h
          · cases h
          · cases h
            simp only [true_and, not_or, ne_eq, not_not, Bool.not_eq_true] at h1
            exact ⟨rfl, by simpa using h2, h1.1, h1.2⟩

/-- A call of the curator keeps the evidence of every record. -/
theorem applyOp_curator_kind {d : Disk} {w : Draw V} {x x' : Ctx V} {op : Op} {e : Option Err}
    (h : (applyOp S.toSettings T D w x op true).result d = .ok (x', e)) {id : Bytes} {r : Record}
    (hr : x.memory.table.get id = some r) :
    ∃ r', x'.memory.table.get id = some r' ∧ r'.evidence.kind = r.evidence.kind := by
  refine ⟨_, applyOp_get h hr, ?_⟩
  split
  · next he =>
    obtain ⟨-, -, ⟨hn, -⟩ | ⟨-, ⟨t, hv⟩, -⟩⟩ := applyOp_inv h
    · exact absurd he hn
    · rw [Op.on_evidence, Op.timed_kind]
      cases hk : op.kind with
      | update i content declared =>
        dsimp only
        split
        · next hid =>
          rw [hk] at hv
          obtain ⟨t', ht', -⟩ := except_map_ok hv
          obtain ⟨hg, -, hi, rfl⟩ := updateValidate_curator ht'
          have hrt : r = t' := by
            rw [← hid, Table.get_id hr, hr] at hg
            exact Option.some.inj hg
          rw [if_neg Bool.false_ne_true, hrt, hi]
        · rfl
      | _ => rfl
  · rfl

/-- A call that gives no record a new text keeps the evidence of every record. -/
theorem applyOp_kind {d : Disk} {w : Draw V} {x x' : Ctx V} {op : Op} {fromCurator : Bool}
    {e : Option Err} (h : (applyOp S.toSettings T D w x op fromCurator).result d = .ok (x', e))
    (hop : ∀ id content declared, op.kind ≠ .update id content declared) {id : Bytes} {r : Record}
    (hr : x.memory.table.get id = some r) :
    ∃ r', x'.memory.table.get id = some r' ∧ r'.evidence.kind = r.evidence.kind := by
  refine ⟨_, applyOp_get h hr, ?_⟩
  split
  · rw [Op.on_evidence, Op.timed_kind]
    cases hk : op.kind with
    | update i content declared => exact absurd hk (hop i content declared)
    | _ => rfl
  · rfl

/-- A call of the host makes the evidence of a record its own, or keeps it. -/
theorem run_kind {d : Disk} {w : Draw V} {x x' : Ctx V} {call : HostCall} {active : ActiveProject}
    {e : Option Err} (h : (call.run S.toSettings T D active w x).result d = .ok (x', e))
    {id : Bytes} {r : Record} (hr : x.memory.table.get id = some r) :
    ∃ r', x'.memory.table.get id = some r' ∧ r'.evidence.kind =
      if touch id (.hosted call e.isNone) = some .updated then .declared
      else r.evidence.kind := by
  unfold HostCall.run at h
  split at h
  · cases h
    refine ⟨r, hr, ?_⟩
    cases call <;> rfl
  · next op hop =>
    refine ⟨_, applyOp_get h hr, ?_⟩
    cases e with
    | some e => cases call <;> rfl
    | none =>
      rw [if_pos rfl, Op.on_evidence, Op.timed_kind]
      cases call with
      | insert i section_ project content locked evidence =>
        obtain ⟨r, hk⟩ := insertOp_kind hop
        rw [hk]
        rfl
      | update i content =>
        obtain rfl := Table.get_id hr
        rw [updateCall_kind hop]
        by_cases hid : i.val = r.id
        · simp [touch, hid]
        · simp [touch, hid, Ne.symm hid]
      | setDeprecated i reason =>
        rw [deprecateCall_kind hop]
        rfl
      | setLocked i value =>
        rw [lockCall_kind hop]
        rfl

/-! ## Across a step -/

theorem newHandles_spec : ∀ (hs rs : List Record) {r : Record}, r ∈ newHandles hs rs →
    r ∈ rs ∧ ∀ c ∈ hs, c.id ≠ r.id
  | _, [], _, h => by cases h
  | hs, x :: rs, r, h => by
    unfold newHandles at h
    split at h
    · exact (newHandles_spec hs rs h).imp_left (List.mem_cons_of_mem _)
    · next hx =>
      rcases List.mem_cons.1 h with rfl | h
      · refine ⟨List.mem_cons_self, fun c hc he => hx ?_⟩
        exact List.any_eq_true.2 ⟨c, hc, by simpa using he⟩
      · obtain ⟨hm, hn⟩ := newHandles_spec (hs ++ [x]) rs h
        exact ⟨List.mem_cons_of_mem _ hm, fun c hc => hn c (List.mem_append_left _ hc)⟩

theorem giveBack_event (ts : List Turn) (s : QueueSlots) :
    (giveBack ts s).2 = .failed ∨ (giveBack ts s).2 = .lost ts := by
  unfold giveBack
  split
  · exact .inl rfl
  · exact .inr rfl

theorem event_touch (op : Op) (t : Table) (id : Bytes) : touch id (op.event t) = none := by
  unfold Op.event
  split
  · rfl
  · split <;> rfl
  · split <;> rfl
  · rfl

/-- What a cycle's operation does to a record, by the evidence the record has now. -/
theorem changeOk_act {d : Disk} {w : Draw V} {x x' : Ctx V} {cy : Cycle} {op : Op}
    {e : Option Err} (hk : ∀ c ∈ cy.handles, KnownClone ls x.memory.table c)
    (hop : (∃ section_ text id, op = ⟨cy.now, .insert (cy.record id section_ text)⟩) ∨
      ∃ target ∈ cy.handles, target.evidence.kind = .inferred ∧
        ∃ update text, op = changeOp cy.now target.id update text)
    (h : (applyOp S.toSettings T D w x op true).result d = .ok (x', e)) :
    ChangeOk ls (if e = none then op.event x.memory.table else .skipped) := by
  split
  · next he =>
    obtain ⟨-, -, ⟨hn, -⟩ | ⟨-, ⟨t, hv⟩, -⟩⟩ := applyOp_inv h
    · exact absurd he hn
    · rcases hop with ⟨section_, text, id, rfl⟩ | ⟨target, hm, hi, update, text, rfl⟩
      · trivial
      · obtain ⟨r, hr, hrk⟩ := hk target hm
        have hid := Table.get_id hr
        cases update with
        | true =>
          obtain ⟨t', ht', -⟩ := except_map_ok hv
          obtain ⟨hg, hl, hki, -⟩ := updateValidate_curator ht'
          rw [hr] at hg
          obtain rfl := Option.some.inj hg
          unfold Op.event changeOp
          simp only [if_pos, hr]
          exact ⟨hl, by simpa using hki⟩
        | false =>
          obtain ⟨t', ht', -⟩ := except_map_ok hv
          have hl : r.locked = false := by
            unfold deprecateValidate at ht'
            rw [hr] at ht'
            dsimp only at ht'
            split at ht'
            · cases ht'
            · next hn => simpa using hn
          unfold Op.event changeOp
          simp only [if_neg Bool.false_ne_true, hr]
          refine ⟨hl, (hrk hi).trans ?_⟩
          rw [hid]
          simp
  · trivial

/-- **One step**: the clones stay known, and a change goes by what is known. -/
theorem step_known {σ σ' : Curating V} (hi : Known ls σ) (h : Curating.Step S T D tokens σ l σ') :
    Known (ls ++ [l]) σ' ∧ ChangeOk ls l := by
  cases h with
  | @host call active w x e h =>
    refine ⟨fun c hc => ?_, trivial⟩
    obtain ⟨r, hr, hk⟩ := hi c hc
    obtain ⟨r', hr', hk'⟩ := run_kind h hr
    refine ⟨r', hr', fun hci => ?_⟩
    rw [hk', hostUpdated_concat]
    split
    · next ht => simp [ht]
    · next ht =>
      have hn : touch c.id (.hosted call e.isNone) = none := by
        unfold touch at ht ⊢
        split at ht <;> simp_all
      simpa [hn] using hk hci
  | access ids w h =>
    exact ⟨fun c hc => (hi c hc).keep rfl fun r hr => applyOp_curator_kind h hr, trivial⟩
  | register slug w h =>
    exact ⟨fun c hc => (hi c hc).keep rfl fun r hr => applyOp_kind h (fun _ _ _ hk => nomatch hk) hr,
      trivial⟩
  | review kind now w hp hk h => exact ⟨.none (by show σ.phase.handles = []; rw [hp]; rfl), trivial⟩
  | sync F => exact ⟨hi.still (List.Subset.refl _) rfl fun _ => rfl, trivial⟩
  | learn knowledge => exact ⟨hi.still (List.Subset.refl _) rfl fun _ => rfl, trivial⟩
  | arrive ts h => exact ⟨hi.still (List.Subset.refl _) rfl fun _ => rfl, trivial⟩
  | take force now hp hr hq => exact ⟨.none rfl, trivial⟩
  | show_ hp ht hs => exact ⟨.none rfl, trivial⟩
  | @showFail now batch hp ht =>
    refine ⟨.none rfl, ?_⟩
    obtain he | he := giveBack_event batch σ.slots <;> rw [he] <;> trivial
  | @collect cy rs hp hrs =>
    refine ⟨fun c hc => ?_, trivial⟩
    have hh : σ.phase.handles = cy.handles := by rw [hp]; rfl
    rcases List.mem_append.1 hc with hc | hc
    · have hn : touch c.id (.cloned (newHandles cy.handles rs)) = none := by
        refine if_neg fun ha => ?_
        obtain ⟨x, hx, hxc⟩ := List.any_eq_true.1 ha
        exact (newHandles_spec _ _ hx).2 c hc (of_decide_eq_true hxc).symm
      exact (hi c (hh ▸ hc)).keep hn fun r hr => ⟨r, hr, rfl⟩
    · have ht : touch c.id (.cloned (newHandles cy.handles rs)) = some .cloned :=
        if_pos (List.any_eq_true.2 ⟨c, hc, decide_eq_true rfl⟩)
      refine ⟨c, Table.get_self (hrs c (newHandles_spec _ _ hc).1), fun hci => ?_⟩
      rw [hostUpdated_concat, ht]
      simpa using hci
  | @begin cy handles cops hp hh hc hr hj hs =>
    refine ⟨hi.still ?_ rfl fun _ => rfl, trivial⟩
    rw [hp]
    exact hh.subset
  | @skip cy sources cop cops seen seen' processed quorum dup id hp hplan =>
    refine ⟨hi.still ?_ rfl fun _ => rfl, trivial⟩
    rw [hp]
    exact List.Subset.refl _
  | @act cy sources cop cops seen seen' processed quorum op dup id w x e hp hplan h =>
    have hk : ∀ c ∈ cy.handles, KnownClone ls σ.ctx.memory.table c := by
      unfold Known at hi
      rwa [hp] at hi
    refine ⟨fun c hc => (hk c hc).keep ?_ fun r hr => applyOp_curator_kind h hr,
      changeOk_act hk ?_ h⟩
    · split
      · exact event_touch _ _ _
      · rfl
    · obtain ⟨section_, text, he⟩ | ht := plan_some hplan
      · exact .inl ⟨section_, text, id, he⟩
      · exact .inr ht
  | finish uuid hp h => exact ⟨.none rfl, trivial⟩
  | @fail cy receipt hp hr =>
    refine ⟨.none rfl, ?_⟩
    obtain he | he := giveBack_event cy.batch σ.slots <;> rw [he] <;> trivial

/-! ## Runs -/

/-- **Every change of a run**, by the labels before it. -/
theorem runs_changeOk {σ σ' : Curating V} (h : Runs (Curating.Step S T D tokens) σ ls σ')
    (h0 : σ.phase = .idle) {pre post : List CurationEvent} (hl : ls = pre ++ l :: post) :
    ChangeOk pre l :=
  h.each (I := Known) (Q := ChangeOk) (.none (by rw [h0]; rfl))
    (fun _ _ _ _ hi hs => step_known hi hs) hl

/-- In a run of curation cycles beside the host, every record a cycle changes is unlocked and of
the evidence the model inferred, exactly when no record is deprecated by a cycle after the host
updated it since the cycle looked it up. -/
theorem authority_iff {σ σ' : Curating V} (h : Runs (Curating.Step S T D tokens) σ ls σ')
    (h0 : σ.phase = .idle) :
    (∀ update r, .mutated update r ∈ ls → r.locked = false ∧ r.evidence.kind = .inferred) ↔
      ∀ pre r post, ls = pre ++ .mutated false r :: post → ¬ HostUpdated r.id pre := by
  constructor
  · intro hall pre r post hl hu
    have hm : CurationEvent.mutated false r ∈ ls := by rw [hl]; simp
    obtain ⟨-, hk⟩ := runs_changeOk h h0 hl
    exact hk.1 (hall _ _ hm).2 ⟨rfl, hu⟩
  · intro hall update r hm
    obtain ⟨pre, post, hl⟩ := List.mem_iff_append.1 hm
    obtain ⟨hu, hk⟩ := runs_changeOk h h0 hl
    refine ⟨hu, hk.2 ?_⟩
    rintro ⟨rfl, hn⟩
    exact hall pre r post hl hn

end

/-! ## A host that comes late

The host makes an inferred record its own while the model is asked about the clone of it. -/

def lateSettings : CycleSettings where
  contentMaxChars := 100
  identityMaxRecords := 8
  syncAlways := false
  turnBatch := 8
  transcriptTokens := 100
  identityConfirmWindow := 0
  maxOpsPerCycle := 8

/-- Operations that are all spelled alike. -/
def lateText : OpText := ⟨fun _ => .ok (ascii "x"), fun _ => .error .parse⟩

def lateRecord : Record where
  id := (uuidV4 fun _ => 0).val
  section_ := .context
  project := none
  content := ascii "a"
  source := .curator
  evidence := ⟨.inferred, .heuristic, 1 / 2, 1, 1, ascii "p", [], []⟩
  createdAt := 1
  updatedAt := 1
  lastAccess := 1
  accessCount := 0
  relevance := 1
  locked := false
  deprecated := false
  deprecatedAt := 0
  tags := []
  sourceRefs := []

def lateTable (r : Record) (h : r.id ≠ []) : Table :=
  ⟨[r], List.nodup_singleton _, fun _ hx => List.mem_singleton.1 hx ▸ h⟩

def lateMemory (r : Record) (h : r.id ≠ []) : Memory := ⟨lateTable r h, Projects.empty⟩

def lateTurn : Turn :=
  ⟨.user, ascii "t", 1, (uuidV4 fun _ => 1).val, ascii "s", [], [], [], []⟩

def lateDraw : Draw Unit := ⟨1, uuidV4 fun _ => 2, none, .none, false, false⟩

/-- A store directory that holds an empty journal. -/
def lateDisk : Disk := fun p => if p = [] ++ [journalName] then some (.file []) else none

theorem lateRecord_named : lateRecord.id ≠ [] := by decide

def lateStart : Curating Unit where
  disk := lateDisk
  ctx :=
    { memory := lateMemory lateRecord lateRecord_named
      index := []
      journal := .opened 0
      knowledge := none
      receipt := false }
  slots := ⟨⟨8, [lateTurn], 0, 0⟩, 16⟩
  quorum := []
  phase := .idle

def lateCycle : Cycle := ⟨1, [lateTurn], transcriptHead ++ turnLine lateTurn ++ [], []⟩

def lateCloned : Cycle := { lateCycle with handles := [lateRecord] }

/-- The system in the cycle. -/
def latePhase (disk : Disk) (ctx : Ctx Unit) (phase : Phase) : Curating Unit :=
  ⟨disk, ctx, ⟨⟨8, [], 1, 2⟩, 16⟩, [], phase⟩

def lateUpdate : HostCall :=
  .update ⟨lateRecord.id, by decide⟩ ⟨ascii "b", by decide⟩

def lateLabels : List CurationEvent :=
  [.took [lateTurn], .shown [lateTurn] [] lateCycle.transcript,
    .cloned [lateRecord], .hosted lateUpdate true, .begun [lateTurn.sourceId],
    .mutated false (lateRecord.updated 1 (ascii "b") true)]

theorem lateDisk_journal : JournalFile sumDigest lateDisk [] journalName [] [] where
  dir := rfl
  ok := trivial
  torn := frameRead_nil sumDigest
  size := by decide
  log := if_pos rfl

theorem late_fields (n : Nat) (op : Op) (h : op.at_ = 1) :
    (journaled lateText lateDraw n op (ascii "x")).Fields := by
  have ht : (op.timed lateDraw.now).at_ = 1 := by
    unfold Op.timed
    rw [h]
    exact h
  exact
    { at_ge := by show -2 ^ 63 ≤ (op.timed lateDraw.now).at_; rw [ht]; decide
      at_lt := by show (op.timed lateDraw.now).at_ < 2 ^ 63; rw [ht]; decide
      id_valid := Uuid.valid _
      object := .inl rfl
      no_nul := by show (0 : UInt8) ∉ ascii "x"; decide
      utf8 := by show utf8Valid (ascii "x") = true; decide
      size := by show (ascii "x").length ≤ eventBytes; decide }

/-- A journal of one frame has room for another. -/
theorem late_room {n : Nat} (hn : n < 2 ^ 64 - 1) {op : Op} (h : op.at_ = 1) :
    (logBytes sumDigest ([] ++ [journaled lateText lateDraw n op (ascii "x")])).length +
      (ascii "x").length + 512 ≤ eventLogBytes := by
  have hl := length_frameBytes_le sumDigest (e := journaled lateText lateDraw n op (ascii "x"))
    { late_fields n op h with
      seq_pos := Nat.succ_pos n
      seq_lt := by show n + 1 < 2 ^ 64; omega }
  rw [List.nil_append, logBytes_cons, logBytes_nil, List.append_nil]
  have hroom : (ascii "x").length + 308 + (ascii "x").length + 512 ≤ eventLogBytes := by decide
  exact Nat.le_trans (Nat.add_le_add_right (Nat.add_le_add_right hl _) _) hroom

abbrev LateStep : Curating Unit → CurationEvent → Curating Unit → Prop :=
  Curating.Step lateSettings lateText sumDigest fun _ => 1

/-- The operation of the host. -/
def lateOp : Op := ⟨1, .update lateRecord.id (ascii "b") true⟩

/-- What the host makes of the record. -/
def lateUpdated : Record := lateRecord.updated 1 (ascii "b") true

def lateHosted : Ctx Unit :=
  lateStart.ctx.applied lateDraw lateOp 1 (lateMemory lateUpdated lateRecord_named)

theorem late_run : ∃ σ, Runs LateStep lateStart lateLabels σ := by
  have h1 : LateStep lateStart _ _ := .take false 1 rfl rfl (List.cons_ne_nil _ _)
  have h2 : LateStep (latePhase lateDisk lateStart.ctx (.taken 1 [lateTurn])) _ _ :=
    .show_ rfl (show curationTranscript _ _ _ = .ok (lateCycle.transcript, 1) from rfl) rfl
  have h3 : LateStep (latePhase lateDisk lateStart.ctx (.shown lateCycle)) _ _ :=
    .collect [lateRecord] rfl fun r hr => hr
  obtain ⟨ws, hrun, hj⟩ := @applyOp_run _ lateSettings.toSettings lateText sumDigest lateDraw
    lateStart.ctx lateOp false _ _ lateDisk_journal rfl rfl rfl rfl (some lateRecord) rfl (ascii "x")
    rfl (late_fields 0 _ rfl) (by decide) (lateMemory lateUpdated lateRecord_named) rfl
  have h4 : LateStep (latePhase lateDisk lateStart.ctx (.shown lateCloned)) _ _ :=
    .host lateUpdate ⟨[], .inl rfl⟩ lateDraw (congrArg Outcome.result hrun)
  have hfin : (lateUpdate.run lateSettings.toSettings lateText sumDigest ⟨[], .inl rfl⟩ lateDraw
      lateStart.ctx).final lateDisk = applyAll ws lateDisk :=
    congrArg (fun o : Outcome Err (Ctx Unit × Option Err) => applyAll o.writes lateDisk) hrun
  rw [← hfin] at hj
  have h5 : LateStep (latePhase ((lateUpdate.run lateSettings.toSettings lateText sumDigest
      ⟨[], .inl rfl⟩ lateDraw lateStart.ctx).final lateDisk) lateHosted (.shown lateCloned)) _ _ :=
    .begin [lateRecord] [.setDeprecated 1 ⟨ascii "c", by decide⟩] rfl (List.Subperm.refl _)
      (by decide) rfl rfl (by decide)
  obtain ⟨vs, hact, -⟩ := @applyOp_run _ lateSettings.toSettings lateText sumDigest lateDraw
    (lateHosted.withReceipt true) (changeOp 1 lateRecord.id false (ascii "c")) true _ _ hj rfl rfl rfl
    rfl (some lateUpdated) rfl (ascii "x") rfl (late_fields _ _ rfl) (late_room (by decide) rfl)
    (lateMemory (lateUpdated.deprecatedBy 1) lateRecord_named) rfl
  have h6 : LateStep (latePhase _ _ (.acting lateCloned [lateTurn.sourceId]
      [.setDeprecated 1 ⟨ascii "c", by decide⟩] [] 0)) _ _ :=
    .act false (uuidV4 fun _ => 3) lateDraw rfl rfl (congrArg Outcome.result hact)
  exact ⟨_, (((((Runs.single h1).snoc h2).snoc h3).snoc h4).snoc h5).snoc h6⟩

/-- The theorem for the host that comes late: its record is changed by the cycle. -/
theorem authority_late : ¬ ∀ update r, .mutated update r ∈ lateLabels →
    r.locked = false ∧ r.evidence.kind = .inferred := by
  obtain ⟨σ, hrun⟩ := late_run
  intro hall
  exact (authority_iff hrun rfl).1 hall (lateLabels.take 5) (lateRecord.updated 1 (ascii "b") true) []
    rfl (by unfold HostUpdated; decide)

theorem authority_lost : ¬ ∀ ls σ,
    Runs (Curating.Step lateSettings lateText sumDigest fun _ => 1) lateStart ls σ →
    ∀ update r, .mutated update r ∈ ls → r.locked = false ∧ r.evidence.kind = .inferred := by
  obtain ⟨σ, hrun⟩ := late_run
  intro hall
  have h := hall _ _ hrun false (lateRecord.updated 1 (ascii "b") true) (by simp [lateLabels])
  exact absurd h.2 (by decide)

end Asper
