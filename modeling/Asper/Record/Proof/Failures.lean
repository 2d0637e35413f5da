import Asper.Record.Proof.Durability
import Asper.Record.Proof.Journaled

/-! # Calls that may fail

A context agrees with its journal (`Agrees`) when replaying the journal gives its memory.
`applyOp_steps`: one call keeps the agreement or poisons the writer, and wherever the process stops
in it the journal gives the memory before the call or after it. `journal_survives` is the same of a
whole run of calls. -/

namespace Asper

open Durable
open JsonEscape

/-- The text of an operation is read back as the operation, and fits a frame. -/
structure OpWritable (X : XcdnText) (op : Op) : Prop where
  reads : ∀ now, opParse X now (X.compact (opBuildNode op)) = .ok op
  noNul : 0 ∉ X.compact (opBuildNode op)
  utf8 : utf8Valid (X.compact (opBuildNode op)) = true
  at_ge : -2 ^ 63 ≤ op.at_
  at_lt : op.at_ < 2 ^ 63

section
variable {V : Type} {S : Settings} {X : XcdnText} {D : Digest} {w : Draw V} {x x' : Ctx V} {op : Op}
  {fromCurator : Bool} {d d' : Disk} {es : List Event} {m₀ : Memory}

/-! ## What passes the checks can be applied -/

theorem insertValidate_new {m : Memory} {r : Record} (h : insertValidate S m r = .ok ()) :
    r.id ≠ [] ∧ m.table.get r.id = none ∧ m.table.recs.length < recordLimit := by
  unfold insertValidate at h
  dsimp only at h
  by_cases hid : uuidValid r.id = false
  · rw [if_pos hid] at h
    cases h
  rw [if_neg hid] at h
  obtain ⟨⟨⟩, -, h⟩ := except_bind_ok h
  obtain ⟨⟨⟩, -, h⟩ := except_bind_ok h
  by_cases hcap : r.section_ = .identity ∧ castSize S.identityMaxRecords ≤ identityActiveCount m
  · rw [if_pos hcap] at h
    cases h
  rw [if_neg hcap] at h
  by_cases hroom : recordLimit ≤ m.table.recs.length
  · rw [if_pos hroom] at h
    cases h
  rw [if_neg hroom] at h
  by_cases hold : (m.table.get r.id).isSome = true
  · rw [if_pos hold] at h
    cases h
  refine ⟨?_, by simpa using hold, Nat.lt_of_not_le hroom⟩
  intro he
  rw [he] at hid
  exact hid rfl

theorem updateValidate_ok {m : Memory} {id content : Bytes} {declared : Bool} {r : Record}
    (h : updateValidate S m id content declared fromCurator = .ok r) :
    m.table.get id = some r ∧ r.deprecated = false := by
  unfold updateValidate at h
  obtain ⟨⟨⟩, -, h⟩ := except_bind_ok h
  split at h
  · cases h
  · next t ht =>
    split at h
    · cases h
    split at h
    · cases h
    split at h
    · cases h
    next hd =>
    obtain rfl := Except.ok.inj h
    exact ⟨ht, by simpa using hd⟩

theorem projectValidate_adds {m : Memory} {slug : Bytes} (h : projectValidate m slug = .ok ()) :
    ∃ p, m.projects.add slug = .ok p := by
  unfold projectValidate at h
  split at h
  · cases h
  · next hfull =>
    split at h
    · cases h
    · next hslug =>
      unfold Projects.add
      rw [dif_pos (by simpa using hslug)]
      by_cases hk : (m.projects.index slug).2 = false
      · have hroom : ¬ projectLimit ≤ m.projects.slugs.length := fun hr => hfull ⟨hk, hr⟩
        rw [dif_pos hk, if_neg hroom]
        exact ⟨_, rfl⟩
      · rw [dif_neg hk]
        exact ⟨_, rfl⟩

/-- **An operation that passes the checks** can be applied. -/
theorem applyValidate_applies (op : Op) {m : Memory} {t : Option Record}
    (h : applyValidate S m fromCurator op.kind = .ok t) : ∃ m', storeApply m op = .ok m' := by
  have hfound : ∀ (id : Bytes) {e : Except Err Record}, e.map some = .ok t →
      (∀ r, e = .ok r → m.table.get id = some r) → ∃ r, m.table.get id = some r := by
    intro id e he hr
    obtain ⟨r, hok, -⟩ := except_map_ok he
    exact ⟨r, hr r hok⟩
  unfold storeApply
  cases hk : op.kind with
  | insert r =>
    rw [hk] at h
    obtain ⟨⟨⟩, hins, -⟩ := except_map_ok h
    obtain ⟨hid, hnew, hroom⟩ := insertValidate_new hins
    obtain ⟨t', ht'⟩ := Table.add_ok hid hnew hroom
    dsimp only
    rw [ht']
    exact ⟨_, rfl⟩
  | update id content declared =>
    rw [hk] at h
    obtain ⟨r, hup, -⟩ := except_map_ok h
    obtain ⟨hr, hd⟩ := updateValidate_ok hup
    dsimp only
    rw [hr]
    dsimp only
    rw [if_neg (by simp [hd])]
    exact ⟨_, rfl⟩
  | setDeprecated id reason =>
    rw [hk] at h
    obtain ⟨r, hr⟩ := hfound id h fun r hr => by
      unfold deprecateValidate at hr
      split at hr
      · cases hr
      · next ht =>
        split at hr
        · cases hr
        · rw [ht, Except.ok.inj hr]
    dsimp only
    rw [hr]
    exact ⟨_, rfl⟩
  | keep id =>
    rw [hk] at h
    obtain ⟨r, hr⟩ := hfound id h fun r hr => by
      unfold keepValidate at hr
      split at hr
      · cases hr
      · next ht =>
        split at hr
        · cases hr
        · rw [ht, Except.ok.inj hr]
    dsimp only
    rw [hr]
    exact ⟨_, rfl⟩
  | setLocked id value =>
    rw [hk] at h
    obtain ⟨r, hr⟩ := hfound id h fun r hr => by
      unfold lockValidate at hr
      split at hr
      · cases hr
      · next ht => rw [ht, Except.ok.inj hr]
    dsimp only
    rw [hr]
    exact ⟨_, rfl⟩
  | access ids => exact ⟨_, rfl⟩
  | projectCreate slug =>
    rw [hk] at h
    obtain ⟨⟨⟩, hp, -⟩ := except_map_ok h
    obtain ⟨p, hadd⟩ := projectValidate_adds hp
    dsimp only
    rw [hadd]
    exact ⟨_, rfl⟩

/-! ## One call -/

/-- The context `x` holds what replaying its journal over `m₀` gives, and knows where the journal
ends. -/
structure Agrees (X : XcdnText) (D : Digest) (m₀ : Memory) (es : List Event) (x : Ctx V) (d : Disk) :
    Prop where
  file : JournalFile D d [] journalName es []
  journal : x.journal = .opened es.length
  replay : ∀ now, replayAll (opText X now).codec m₀ 0 es = .ok x.memory

/-- Opening the store on the disk `d` gives a memory with `P`, whenever it is opened. -/
def Recovers (X : XcdnText) (D : Digest) (m₀ : Memory) (P : Memory → Prop) (d : Disk) : Prop :=
  ∃ m, P m ∧ ∀ now, ∃ n, (journalReplay (opText X now).codec D journalFile m₀).result d = .ok (m, n)

/-- The memory before or after the operation `op`. -/
def Around (m : Memory) (op : Op) (m' : Memory) : Prop := m' = m ∨ storeApply m op = .ok m'

theorem Recovers.mono {P Q : Memory → Prop} (h : Recovers X D m₀ P d) (hpq : ∀ m, P m → Q m) :
    Recovers X D m₀ Q d := by
  obtain ⟨m, hm, hr⟩ := h
  exact ⟨m, hpq m hm, hr⟩

theorem JournalFile.recovers {t : Bytes} (h : JournalFile D d [] journalName es t) {m : Memory}
    (hm : ∀ now, replayAll (opText X now).codec m₀ 0 es = .ok m) :
    Recovers X D m₀ (· = m) d := by
  refine ⟨m, rfl, fun now => ⟨es.length, ?_⟩⟩
  obtain ⟨ws, hrun, -⟩ := journalReplay_run (opText X now).codec h (hm now)
  have hrun' : journalReplay (opText X now).codec D journalFile m₀ d = ⟨ws, .ok (m, es.length)⟩ := hrun
  rw [Act.result, hrun']

theorem Agrees.recovers (h : Agrees X D m₀ es x d) : Recovers X D m₀ (· = x.memory) d :=
  h.file.recovers h.replay

/-- The frame of the operation `op`, which the call `w` sends. -/
def callFrame (X : XcdnText) (w : Draw V) (n : Nat) (op : Op) : Event :=
  journaled (opText X w.now) w n op (X.compact (opBuildNode (op.timed w.now)))

theorem OpWritable.fields (h : OpWritable X (op.timed w.now)) (n : Nat)
    (hlen : (X.compact (opBuildNode (op.timed w.now))).length ≤ eventBytes) :
    (callFrame X w n op).Fields where
  at_ge := h.at_ge
  at_lt := h.at_lt
  id_valid := w.id.valid
  object := .inl rfl
  no_nul := h.noNul
  utf8 := h.utf8
  size := hlen

theorem Agrees.push (h : Agrees X D m₀ es x d) (hop : OpWritable X (op.timed w.now)) {m : Memory}
    (ha : storeApply x.memory (op.timed w.now) = .ok m) (now : Int) :
    replayAll (opText X now).codec m₀ 0 (es ++ [callFrame X w es.length op]) = .ok m := by
  have hframe : callFrame X w es.length op = journalEvent (opText X now).codec (.opened es.length)
      (op.timed w.now) (X.compact (opBuildNode (op.timed w.now))) w.id := by
    unfold callFrame journaled journalEvent
    rfl
  rw [hframe]
  exact replayAll_push (opText X now).codec w.id (h.replay now) (hop.reads now) ha

/-- A journal that an append was cut in. -/
theorem Agrees.holds (h : Agrees X D m₀ es x d) (hop : OpWritable X (op.timed w.now)) {m : Memory}
    (ha : storeApply x.memory (op.timed w.now) = .ok m)
    (hd : JournalHolds D [] journalName es (callFrame X w es.length op) d') :
    Recovers X D m₀ (Around x.memory (op.timed w.now)) d' := by
  rcases hd with ⟨t, hf⟩ | hf
  · exact (hf.recovers h.replay).mono fun _ hm => .inl hm
  · exact (hf.recovers (h.push hop ha)).mono fun _ hm => .inr (hm ▸ ha)

/-- What a call left: the context, the answer and the journal, where `e` is its frame. -/
inductive OpLeft (D : Digest) (es : List Event) (e : Event) (x : Ctx V) (op : Op) :
    Ctx V × Option Err → Disk → Prop
  | done {x' : Ctx V} {d' : Disk} (ha : storeApply x.memory op = .ok x'.memory)
    (hj : x'.journal = .opened (es.length + 1))
    (h : JournalFile D d' [] journalName (es ++ [e]) []) : OpLeft D es e x op (x', none) d'
  | refused {x' : Ctx V} {d' : Disk} {err : Err} (hm : x'.memory = x.memory)
    (hj : x'.journal = .opened es.length) (h : JournalFile D d' [] journalName es []) :
    OpLeft D es e x op (x', some err) d'
  | unknown {x' : Ctx V} {d' : Disk} {err : Err} (hm : x'.memory = x.memory)
    (hp : x'.journal.poisoned = true) (h : JournalHolds D [] journalName es e d') :
    OpLeft D es e x op (x', some err) d'

/-- **A call that may fail** is refused by the checks, or passes them; then wherever it stops the
journal holds its frame, a part of it or nothing of it. -/
theorem applyOp_left (S : Settings) (fromCurator : Bool)
    (hf : JournalFile D d [] journalName es []) (hj : x.journal = .opened es.length)
    (hop : OpWritable X (op.timed w.now)) :
    (∃ err, applyOp S (opText X w.now) D w x op fromCurator d = ⟨[], .ok (x, some err)⟩) ∨
      (∃ t, applyValidate S x.memory fromCurator op.kind = .ok t) ∧
        (∃ m, storeApply x.memory (op.timed w.now) = .ok m) ∧ ∃ ws r,
          applyOp S (opText X w.now) D w x op fromCurator d = ⟨ws, .ok r⟩ ∧
          Steps (fun _ _ => False) d ws
            (JournalHolds D [] journalName es (callFrame X w es.length op))
            (OpLeft D es (callFrame X w es.length op) x (op.timed w.now) r) := by
  unfold applyOp
  cases hg : (do knowledgeGuard x
                 applyValidate S x.memory fromCurator op.kind : Except Err (Option Record)) with
  | error e => exact .inl ⟨e, rfl⟩
  | ok t =>
    obtain ⟨-, -, hv⟩ := except_bind_ok hg
    obtain ⟨m, ha⟩ := applyValidate_applies (op.timed w.now) ((Op.timed_kind op w.now).symm ▸ hv)
    obtain ⟨ws, ⟨j, e⟩, hrun, hsteps⟩ := journalAppend_steps (opText X w.now).codec hf
      (op.timed w.now) w.id rfl (fun hlen _ => hop.fields es.length hlen) w.journal
      (!fromCurator || S.syncAlways)
    have hrun' : journalAppend (opText X w.now).codec w.journal D journalFile x.journal
        (op.timed w.now) w.id (!fromCurator || S.syncAlways) d = ⟨ws, .ok (j, e)⟩ := by
      rw [hj]
      exact hrun
    refine .inr ⟨⟨t, hv⟩, ⟨m, ha⟩, ?_⟩
    dsimp only
    unfold applyValid
    rw [Act.bind_run hrun']
    cases e with
    | some e =>
      refine ⟨ws, ({ x with journal := j }, some e), ?_, hsteps.weaken (fun _ h => h)
        fun d' hd => ?_⟩
      · rw [Act.writes_pure, Act.result_pure, List.append_nil]
      · cases hd with
        | undone hf => exact .refused rfl rfl hf
        | unknown hp hh => exact .unknown rfl hp hh
    | none =>
      dsimp only
      cases hn : storeApplyIn w.nomem x.memory (op.timed w.now) with
      | error e =>
        refine ⟨ws, ({ x with journal := j.poison }, some e), ?_,
          hsteps.weaken (fun _ h => h) fun d' hd => ?_⟩
        · rw [Act.writes_pure, Act.result_pure, List.append_nil]
        · cases hd with
          | done hf => exact .unknown rfl rfl (.inr hf)
      | ok m' =>
        refine ⟨ws, _, by rw [Act.writes_pure, Act.result_pure, List.append_nil],
          hsteps.weaken (fun _ h => h) fun d' hd => ?_⟩
        cases hd with
        | done hf =>
          obtain rfl : m = m' := Except.ok.inj (ha.symm.trans (storeApplyIn_ok hn))
          exact .done ha rfl hf

/-- How a call ended. -/
inductive OpServed (X : XcdnText) (D : Digest) (m₀ : Memory) (x : Ctx V) (op : Op) :
    Ctx V × Option Err → Disk → Prop
  /-- The operation is in memory and in the journal. -/
  | done {x' : Ctx V} {es' : List Event} {d' : Disk} (ha : storeApply x.memory op = .ok x'.memory)
    (h : Agrees X D m₀ es' x' d') : OpServed X D m₀ x op (x', none) d'
  /-- It is in neither. -/
  | refused {x' : Ctx V} {es' : List Event} {d' : Disk} {e : Err} (hm : x'.memory = x.memory)
    (h : Agrees X D m₀ es' x' d') : OpServed X D m₀ x op (x', some e) d'
  /-- It is not in memory, and may be in the journal. -/
  | unknown {x' : Ctx V} {d' : Disk} {e : Err} (hm : x'.memory = x.memory)
    (hp : x'.journal.poisoned = true) (h : Recovers X D m₀ (Around x.memory op) d') :
    OpServed X D m₀ x op (x', some e) d'

/-- **A call that may fail**, by any of its failures, or by the end of the process in it. -/
theorem applyOp_steps (S : Settings) (fromCurator : Bool) (h : Agrees X D m₀ es x d)
    (hop : OpWritable X (op.timed w.now)) : ∃ ws r,
    applyOp S (opText X w.now) D w x op fromCurator d = ⟨ws, .ok r⟩ ∧
      Steps (fun _ _ => False) d ws (Recovers X D m₀ (Around x.memory (op.timed w.now)))
        (OpServed X D m₀ x (op.timed w.now) r) := by
  rcases applyOp_left S fromCurator h.file h.journal hop with
    ⟨err, hrun⟩ | ⟨-, ⟨m, ha⟩, ws, r, hrun, hsteps⟩
  · exact ⟨[], _, hrun, .nil (h.recovers.mono fun _ hm => .inl hm) (.refused rfl h)⟩
  · have hholds := fun d' (hd : JournalHolds D [] journalName es (callFrame X w es.length op) d') =>
      h.holds hop ha hd
    refine ⟨ws, r, hrun, hsteps.weaken hholds fun d' hd => ?_⟩
    cases hd with
    | @done x' _ ha' hj hf =>
      refine .done ha' ⟨hf, by rw [List.length_append]; exact hj, fun now => ?_⟩
      exact h.push hop ha' now
    | refused hm hj hf => exact .refused hm ⟨hf, hj, fun now => hm ▸ h.replay now⟩
    | unknown hm hp hh => exact .unknown hm hp (hholds d' hh)

/-- A call that a poisoned writer or the checks refuse does nothing. -/
theorem applyOp_refused {T : OpText} {e : Err} (h : (do
      knowledgeGuard x
      applyValidate S x.memory fromCurator op.kind : Except Err (Option Record)) = .error e) :
    applyOp S T D w x op fromCurator d = ⟨[], .ok (x, some e)⟩ := by
  unfold applyOp
  rw [h]
  rfl

theorem knowledgeGuard_poisoned (h : x.journal.poisoned = true) : knowledgeGuard x = .error .io :=
  if_pos (.inl h)

theorem applyOp_poisoned {T : OpText} (h : x.journal.poisoned = true) :
    applyOp S T D w x op fromCurator d = ⟨[], .ok (x, some .io)⟩ := by
  refine applyOp_refused ?_
  rw [knowledgeGuard_poisoned h]
  rfl

end

/-! ## A run of calls -/

/-- A call, what it meets, and its answer. -/
structure OpCall (V : Type) where
  draw : Draw V
  op : Op
  fromCurator : Bool
  answer : Option Err

section
variable {V : Type} (S : Settings) (X : XcdnText) (D : Digest)

/-- The operation a call sends. -/
def OpCall.sent (c : OpCall V) : Op := c.op.timed c.draw.now

def OpCall.run (c : OpCall V) (x : Ctx V) : Io (Ctx V × Option Err) :=
  applyOp S (opText X c.draw.now) D c.draw x c.op c.fromCurator

/-- One call, which ends as its label says. -/
def CallStep (s : Ctx V × Disk) (c : OpCall V) (s' : Ctx V × Disk) : Prop :=
  OpWritable X c.sent ∧
    ∃ ws, c.run S X D s.1 s.2 = ⟨ws, .ok (s'.1, c.answer)⟩ ∧ s'.2 = applyAll ws s.2

/-- The operations of the calls that succeeded. -/
def acknowledged (cs : List (OpCall V)) : List Op :=
  (cs.filter (·.answer = none)).map OpCall.sent

variable {S X D} {m₀ m₁ : Memory} {s s' : Ctx V × Disk} {c : OpCall V} {cs : List (OpCall V)}

theorem acknowledged_concat (cs : List (OpCall V)) (c : OpCall V) :
    acknowledged (cs ++ [c]) = acknowledged cs ++ if c.answer = none then [c.sent] else [] := by
  unfold acknowledged
  rw [List.filter_append, List.map_append, List.filter_singleton]
  by_cases hc : c.answer = none <;> simp [hc]

/-- Where the store is after the calls `cs`. -/
inductive Standing (X : XcdnText) (D : Digest) (m₀ : Memory) (cs : List (OpCall V)) :
    Ctx V × Disk → Prop
  | agrees {es : List Event} {x : Ctx V} {d : Disk} (h : Agrees X D m₀ es x d) :
    Standing X D m₀ cs (x, d)
  | unknown {x : Ctx V} {d : Disk} {pre post : List (OpCall V)} {c : OpCall V}
    (hcs : cs = pre ++ c :: post) (hno : ∀ b ∈ c :: post, b.answer ≠ none)
    (hp : x.journal.poisoned = true) (h : Recovers X D m₀ (Around x.memory c.sent) d) :
    Standing X D m₀ cs (x, d)

/-- **One call** of a run: the memory has the operations acknowledged so far. -/
theorem Standing.step (h : Standing X D m₀ cs s)
    (hm : (acknowledged cs).foldlM storeApply m₁ = .ok s.1.memory) (hc : CallStep S X D s c s') :
    Standing X D m₀ (cs ++ [c]) s' ∧
      (acknowledged (cs ++ [c])).foldlM storeApply m₁ = .ok s'.1.memory := by
  obtain ⟨x', d'⟩ := s'
  obtain ⟨hop, ws, hrun, hd⟩ := hc
  dsimp only at hrun hd
  have hrefused : c.answer ≠ none → x'.memory = s.1.memory →
      (acknowledged (cs ++ [c])).foldlM storeApply m₁ = .ok x'.memory := by
    intro hno hx
    rw [acknowledged_concat, if_neg hno, List.append_nil, hm, hx]
  cases h with
  | @agrees es x d h =>
    obtain ⟨ws', r, hrun', hsteps⟩ := applyOp_steps S c.fromCurator h hop
    obtain ⟨rfl, hr⟩ : ws' = ws ∧ r = (x', c.answer) := by
      have hsame := hrun'.symm.trans hrun
      injection hsame with hw hr
      exact ⟨hw, Except.ok.inj hr⟩
    have hfinal := hsteps.final
    rw [hr, ← hd] at hfinal
    generalize ha : c.answer = a at hfinal
    cases hfinal with
    | done happ h' =>
      refine ⟨.agrees h', ?_⟩
      rw [acknowledged_concat, if_pos ha, List.foldlM_append, hm]
      show [c.sent].foldlM storeApply x.memory = _
      rw [List.foldlM_cons, show storeApply x.memory c.sent = .ok x'.memory from happ]
      rfl
    | refused hx h' => exact ⟨.agrees h', hrefused (by rw [ha]; exact Option.some_ne_none _) hx⟩
    | unknown hx hp h' =>
      have hno : c.answer ≠ none := by
        rw [ha]
        exact Option.some_ne_none _
      refine ⟨.unknown rfl (fun b hb => ?_) hp (hx ▸ h'), hrefused hno hx⟩
      rw [List.mem_singleton.1 hb]
      exact hno
  | @unknown x d pre post b hcs hno hp h =>
    have hrefuse : c.run S X D x d = ⟨[], .ok (x, some .io)⟩ := applyOp_poisoned hp
    have hsame := hrefuse.symm.trans hrun
    injection hsame with hw hr
    obtain ⟨rfl, ha⟩ := Prod.mk.inj (Except.ok.inj hr)
    subst hw
    obtain rfl : d' = d := hd
    have hlast : c.answer ≠ none := by
      rw [← ha]
      exact Option.some_ne_none _
    have hcs' : cs ++ [c] = pre ++ b :: (post ++ [c]) := by
      rw [hcs]
      simp
    refine ⟨.unknown hcs' (fun a hab => ?_) hp h, hrefused hlast rfl⟩
    rcases List.mem_append.1 (List.cons_append ▸ hab : a ∈ (b :: post) ++ [c]) with hab | hab
    · exact hno a hab
    · rw [List.mem_singleton.1 hab]
      exact hlast

theorem Standing.run {x : Ctx V} {d : Disk} {es : List Event} (h₀ : Agrees X D m₀ es x d)
    (h : Durable.Runs (CallStep S X D) (x, d) cs s) : Standing X D m₀ cs s ∧
      (acknowledged cs).foldlM storeApply x.memory = .ok s.1.memory :=
  h.inv (I := fun cs s => Standing X D m₀ cs s ∧
      (acknowledged cs).foldlM storeApply x.memory = .ok s.1.memory) ⟨.agrees h₀, rfl⟩
    fun _ _ _ _ hs hc => hs.1.step hs.2 hc

end

/-! ## An empty journal -/

noncomputable def sampleCtx : Ctx Unit := ⟨sampleStore.memory, [], .opened 0, none, false⟩

def sampleDisk : Disk := fun p => if p = [journalName] then some (.file []) else none

def sampleCall : OpCall Unit :=
  ⟨⟨2000000000, sampleFrame, none, .none, false, false⟩, sampleAccess, false, none⟩

theorem sampleDisk_journal : JournalFile sumDigest sampleDisk [] journalName [] [] where
  dir := rfl
  ok := trivial
  torn := frameRead_nil _
  size := Nat.zero_le _
  log := if_pos rfl

theorem sampleCtx_agrees :
    Agrees sampleText sumDigest sampleStore.memory [] sampleCtx sampleDisk :=
  ⟨sampleDisk_journal, rfl, fun _ => rfl⟩

theorem sampleAccess_text : sampleText.compact (opBuildNode sampleAccess) = sampleAccessText := by
  unfold sampleText
  dsimp only
  rw [if_neg sampleNodes_distinct, if_pos rfl]

theorem sampleAccess_writable : OpWritable sampleText sampleAccess where
  reads := opParse_build jsonEscape_escape sampleAccess_storable sampleText_access
  noNul := by
    rw [sampleAccess_text]
    decide +kernel
  utf8 := by
    rw [sampleAccess_text]
    exact utf8Valid_ascii (by decide +kernel)
  at_ge := by decide
  at_lt := by decide

theorem sampleCall_sent : sampleCall.sent = sampleAccess := by
  have hop : sampleCall.op = sampleAccess := rfl
  have hat : ¬ sampleAccess.at_ = 0 := by decide
  unfold OpCall.sent Op.timed
  rw [hop, if_neg hat]

theorem sampleCall_step : ∃ x d, CallStep sampleSettings sampleText sumDigest (sampleCtx, sampleDisk)
    sampleCall (x, d) ∧ x.memory = sampleAccessed.memory ∧ x.journal.poisoned = false := by
  have hsent : sampleAccess.timed sampleCall.draw.now = sampleAccess := sampleCall_sent
  have hwritable : OpWritable sampleText (sampleAccess.timed sampleCall.draw.now) :=
    hsent.symm ▸ sampleAccess_writable
  have hlen : (sampleText.compact (opBuildNode (sampleAccess.timed sampleCall.draw.now))).length ≤
      1000 := by
    rw [hsent, sampleAccess_text]
    decide +kernel
  have hlimits : 1000 ≤ eventBytes ∧ 1000 + 512 ≤ eventLogBytes := by decide
  have hv : applyValidate sampleSettings sampleCtx.memory false sampleAccess.kind = .ok none := rfl
  have hroom : (logBytes sumDigest []).length +
      (sampleText.compact (opBuildNode (sampleAccess.timed sampleCall.draw.now))).length + 512 ≤
        eventLogBytes := by
    rw [logBytes_nil, List.length_nil, Nat.zero_add]
    exact (Nat.add_le_add_right hlen 512).trans hlimits.2
  obtain ⟨ws, hrun, -⟩ := applyOp_run (T := opText sampleText sampleCall.draw.now)
    (w := sampleCall.draw) (x := sampleCtx) sampleDisk_journal rfl rfl rfl rfl hv rfl (hwritable.fields 0 (hlen.trans hlimits.1)) hroom
    (hsent.symm ▸ sampleAccess_apply)
  exact ⟨_, _, ⟨hwritable, ws, hrun, rfl⟩, rfl, rfl⟩

section
variable {V : Type} {S : Settings} {X : XcdnText} {D : Digest} {m₀ : Memory} {cs : List (OpCall V)}

/-- **No acknowledged operation is lost**, and at most one other comes back: memory has the
operations that succeeded, in order; opening the store again gives the same memory, unless a write
could not be taken back. Then every later call is refused, and the store is opened with the
operation of that write or without it; so it is where the process stops in a call. -/
theorem journal_survives {x x' : Ctx V} {d d' : Disk} {es : List Event} (h₀ : Agrees X D m₀ es x d)
    (h : Durable.Runs (CallStep S X D) (x, d) cs (x', d')) :
    (acknowledged cs).foldlM storeApply x.memory = .ok x'.memory ∧
      (x'.journal.poisoned = false → Recovers X D m₀ (· = x'.memory) d') ∧
      (x'.journal.poisoned = true → ∃ pre c post, cs = pre ++ c :: post ∧
        (∀ b ∈ c :: post, b.answer ≠ none) ∧ Recovers X D m₀ (Around x'.memory c.sent) d') ∧
      ∀ (c : OpCall V) t d'', OpWritable X c.sent → Crash ((c.run S X D x').writes d') d' t d'' →
        if x'.journal.poisoned then d'' = d' else Recovers X D m₀ (Around x'.memory c.sent) d'' := by
  obtain ⟨hstand, hm⟩ := Standing.run h₀ h
  refine ⟨hm, ?_, ?_, ?_⟩
  · intro hp
    cases hstand with
    | agrees h => exact h.recovers
    | unknown _ _ hp' => rw [hp'] at hp; cases hp
  · intro hp
    cases hstand with
    | agrees h => rw [h.journal] at hp; cases hp
    | unknown hcs hno _ h => exact ⟨_, _, _, hcs, hno, h⟩
  · intro c t d'' hop hcrash
    cases hstand with
    | @agrees es' _ _ h =>
      obtain ⟨ws, r, hrun, hsteps⟩ := applyOp_steps S c.fromCurator h hop
      have hws : (c.run S X D x').writes d' = ws := congrArg Outcome.writes hrun
      rw [h.journal, if_neg (show ¬ (JournalState.opened es'.length).poisoned = true from nofun)]
      exact hsteps.crash (hws ▸ hcrash) fun _ _ _ => id
    | unknown _ _ hp _ =>
      have hws : (c.run S X D x').writes d' = [] := congrArg Outcome.writes (applyOp_poisoned hp)
      rw [if_pos hp]
      exact Crash.nil (hws ▸ hcrash)

theorem journal_survives_sample : ∃ d, Recovers sampleText sumDigest sampleStore.memory
    (· = sampleAccessed.memory) d := by
  obtain ⟨x, d, hstep, hm, hp⟩ := sampleCall_step
  exact ⟨d, hm ▸ (journal_survives sampleCtx_agrees (.single hstep)).2.1 hp⟩

end

end Asper
