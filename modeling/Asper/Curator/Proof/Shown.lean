import Asper.Curator.Proof.Authority

/-! # What a cycle acknowledges was shown to the model

* `SlotsOk`: the queue counts the turns of the cycle under way and has a slot for each, so that
  they can always be given back.
* `Told`: what the labels tell about the phase a cycle is in.
* `acknowledged_shown`: what each step of a run does with the turns of its cycle. -/

namespace Asper

open Durable

/-- Turns of one conversation, project, workspace and revision. -/
def Together (ts : List Turn) : Prop := ∀ a ∈ ts, ∀ b ∈ ts,
  a.scope = b.scope ∧ a.project = b.project ∧ a.workspace = b.workspace ∧ a.commit = b.commit

/-- The turns a cycle holds. -/
def Phase.turns : Phase → List Turn
  | .idle => []
  | .taken _ batch => batch
  | .shown cy => cy.batch
  | .acting cy _ _ _ _ => cy.batch

def tookOf : CurationEvent → Option (List Turn)
  | .took batch => some batch
  | _ => none

/-- The turns of the transcript that was shown, and the transcript. -/
def shownOf : CurationEvent → Option (List Turn × Bytes)
  | .shown included _ transcript => some (included, transcript)
  | _ => none

/-- The last transcript shown is `text`, and it has the turns `ts` in full and no other. -/
structure ShownLast (ls : List CurationEvent) (ts : List Turn) (text : Bytes) : Prop where
  last : lastSome shownOf ls = some (ts, text)
  verbatim : text = transcriptHead ++ ts.flatMap turnLine
  together : Together ts

/-- Ids of turns that may be acknowledged. -/
structure SourceIds (ts : List Turn) : Prop where
  nodup : (ts.map (·.sourceId)).Nodup
  valid : ∀ t ∈ ts, uuidValid t.sourceId = true

/-- What the labels tell about a phase. -/
def Told (ls : List CurationEvent) : Phase → Prop
  | .idle => True
  | .taken _ batch => lastSome tookOf ls = some batch ∧ Together batch
  | .shown cy => ShownLast ls cy.batch cy.transcript
  | .acting cy sources _ _ _ => ShownLast ls cy.batch cy.transcript ∧ SourceIds cy.batch ∧
      sources = cy.batch.map (·.sourceId)

section
variable {V : Type} {S : CycleSettings} {T : OpText} {D : Digest} {tokens : Bytes → Int}
  {σ0 σ σ' : Curating V} {ls : List CurationEvent} {l : CurationEvent}

/-- The queue and its slots in the phase of the cycle. -/
structure SlotsOk (p : Phase) (s : QueueSlots) : Prop where
  inflight : s.queue.inflight = p.turns.length
  bytes : s.queue.inflightBytes = turnBytes p.turns
  fits : s.queue.turns.length + p.turns.length ≤ s.cap

/-- What a step does with the turns of its cycle. -/
def CycleOk (ls : List CurationEvent) (σ : Curating V) (l : CurationEvent) (σ' : Curating V) :
    Prop :=
  match l with
  | .took batch => Together batch ∧ batch ++ σ'.slots.queue.turns = σ.slots.queue.turns
  | .shown included omitted text => lastSome tookOf ls = some (included ++ omitted) ∧
      Together (included ++ omitted) ∧ included ≠ [] ∧
      text = transcriptHead ++ included.flatMap turnLine ∧
      σ'.slots.queue.turns = omitted ++ σ.slots.queue.turns
  | .begun sources => ∃ ts text, ShownLast ls ts text ∧ sources = ts.map (·.sourceId)
  | .inserted r => ∃ ts text, ShownLast ls ts text ∧ (ts.map (·.sourceId)).Nodup ∧
      r.sourceRefs = ts.map (·.sourceId)
  | .acknowledged ids => (∃ ts text, ShownLast ls ts text ∧ ids = ts.map (·.sourceId)) ∧
      ∃ uuid, (markCurated ids uuid).result σ.disk = .ok () ∧
        σ'.disk = (markCurated ids uuid).final σ.disk
  | .lost _ => False
  | _ => True

/-! ## The queue -/

theorem length_le_growSlots {cap used : Nat} (h : used ≤ cap) (hq : used < queueEvents) :
    used + 1 ≤ growSlots cap used := by
  unfold growSlots
  split
  · split <;> omega
  · omega

theorem enqueueAll_ok : ∀ {ts : List Turn} {s s' : QueueSlots}, enqueueAll ts s = some s' →
    s.queue.turns.length + s.queue.inflight ≤ s.cap →
    s'.queue.inflight = s.queue.inflight ∧ s'.queue.inflightBytes = s.queue.inflightBytes ∧
      s'.queue.turns.length + s'.queue.inflight ≤ s'.cap
  | [], s, s', h, hf => by
    obtain rfl := Option.some.inj h
    exact ⟨rfl, rfl, hf⟩
  | t :: ts, s, s', h, hf => by
    unfold enqueueAll at h
    split at h
    · cases h
    · next hr =>
      have hlim : turnQueueLimit s.queue ≤ queueEvents := by
        unfold turnQueueLimit
        split
        · decide
        · exact Nat.min_le_right _ _
      have hroom : s.queue.turns.length + s.queue.inflight < turnQueueLimit s.queue := by
        unfold roomFor at hr
        simp only [decide_eq_false_iff_not, not_not] at hr
        exact hr.1
      have hg := length_le_growSlots hf (Nat.lt_of_lt_of_le hroom hlim)
      have ih := enqueueAll_ok h (by
        simp only [List.length_append, List.length_singleton]
        omega)
      exact ih

theorem restoreTurns_some {ts : List Turn} {s : QueueSlots} (hi : ts.length ≤ s.queue.inflight)
    (hf : s.queue.turns.length + ts.length ≤ s.cap) :
    restoreTurns ts s = some { s with queue := { s.queue with
      turns := ts ++ s.queue.turns
      inflight := s.queue.inflight - ts.length
      inflightBytes := s.queue.inflightBytes - turnBytes ts } } := by
  unfold restoreTurns
  split
  · next h =>
    subst h
    rfl
  · rw [if_neg (by omega)]

/-- The turns of a cycle can be given back. -/
theorem giveBack_ok {p : Phase} {s : QueueSlots} (h : SlotsOk p s) :
    (giveBack p.turns s).2 = .failed ∧ SlotsOk .idle (giveBack p.turns s).1 := by
  obtain hr : restoreTurns p.turns s = _ := restoreTurns_some (Nat.le_of_eq h.inflight.symm) h.fits
  unfold giveBack
  rw [hr]
  refine ⟨rfl, ⟨?_, ?_, ?_⟩⟩
  · show s.queue.inflight - p.turns.length = 0
    rw [h.inflight, Nat.sub_self]
  · show s.queue.inflightBytes - turnBytes p.turns = 0
    rw [h.bytes, Nat.sub_self]
  · show (p.turns ++ s.queue.turns).length + 0 ≤ s.cap
    rw [List.length_append, Nat.add_comm p.turns.length]
    exact h.fits

theorem nextBatch_together (force : Bool) (turnBatch : Int) (ts : List Turn) :
    Together (nextBatch force turnBatch ts) := by
  unfold nextBatch
  generalize ts.take _ = us
  cases us with
  | nil => exact fun a ha => absurd ha List.not_mem_nil
  | cons t us =>
    have hall : ∀ a ∈ batchOf (t :: us), t.scope = a.scope ∧ t.project = a.project ∧
        t.workspace = a.workspace ∧ t.commit = a.commit := by
      intro a ha
      rcases batchOf_sameOrigin ha rfl with rfl | hs
      · exact ⟨rfl, rfl, rfl, rfl⟩
      · exact of_decide_eq_true hs
    intro a ha b hb
    obtain ⟨h1, h2, h3, h4⟩ := hall a ha
    obtain ⟨k1, k2, k3, k4⟩ := hall b hb
    exact ⟨h1.symm.trans k1, h2.symm.trans k2, h3.symm.trans k3, h4.symm.trans k4⟩

theorem turnBytes_append (as bs : List Turn) :
    turnBytes (as ++ bs) = turnBytes as + turnBytes bs := by
  unfold turnBytes
  rw [List.map_append, List.sum_append]

/-! ## The sources of a record -/

theorem foldl_sourceRefs : ∀ (ts : List Turn) (acc : List Bytes),
    (acc ++ ts.map (·.sourceId)).Nodup → (∀ t ∈ ts, uuidValid t.sourceId = true) →
    ts.foldl (fun refs t =>
      if uuidValid t.sourceId = false ∨ t.sourceId ∈ refs then refs
      else refs ++ [t.sourceId]) acc = acc ++ ts.map (·.sourceId)
  | [], acc, _, _ => by simp
  | t :: ts, acc, hn, hv => by
    have hacc : acc ++ (t :: ts).map (·.sourceId) =
        (acc ++ [t.sourceId]) ++ ts.map (·.sourceId) := by simp
    have hnew : ¬ (uuidValid t.sourceId = false ∨ t.sourceId ∈ acc) := by
      rintro (h | h)
      · rw [hv t List.mem_cons_self] at h
        cases h
      · exact (List.nodup_append.1 hn).2.2 _ h _ List.mem_cons_self rfl
    rw [List.foldl_cons, if_neg hnew, hacc]
    rw [hacc] at hn
    exact foldl_sourceRefs ts _ hn fun u hu => hv u (List.mem_cons_of_mem _ hu)

/-- The sources of a record are the ids of the batch. -/
theorem sourceRefsOf_eq {ts : List Turn} (h : SourceIds ts) :
    sourceRefsOf ts = ts.map (·.sourceId) :=
  foldl_sourceRefs ts [] h.nodup h.valid

/-! ## One step -/

theorem ShownLast.keep {ts : List Turn} {text : Bytes} (h : ShownLast ls ts text)
    (hl : shownOf l = none) : ShownLast (ls ++ [l]) ts text :=
  ⟨by rw [lastSome_concat, hl]; exact h.last, h.verbatim, h.together⟩

/-- A label that tells nothing of the turns. -/
theorem Told.keep {p : Phase} (h : Told ls p) (ht : tookOf l = none) (hl : shownOf l = none) :
    Told (ls ++ [l]) p := by
  cases p with
  | idle => trivial
  | taken now batch => exact ⟨by rw [lastSome_concat, ht]; exact h.1, h.2⟩
  | shown cy => exact ShownLast.keep h hl
  | acting cy sources cops seen n => exact ⟨h.1.keep hl, h.2⟩

theorem event_told (op : Op) (t : Table) :
    tookOf (op.event t) = none ∧ shownOf (op.event t) = none := by
  unfold Op.event
  split
  · exact ⟨rfl, rfl⟩
  · split <;> exact ⟨rfl, rfl⟩
  · split <;> exact ⟨rfl, rfl⟩
  · exact ⟨rfl, rfl⟩

theorem event_change (now : Int) (id : Bytes) (update : Bool) (text : Bytes) (t : Table) :
    (changeOp now id update text).event t = .skipped ∨
      ∃ r, (changeOp now id update text).event t = .mutated update r := by
  cases update with
  | true =>
    unfold Op.event changeOp
    rw [if_pos rfl]
    dsimp only
    cases t.get id with
    | none => exact .inl rfl
    | some r => exact .inr ⟨r, rfl⟩
  | false =>
    unfold Op.event changeOp
    rw [if_neg Bool.false_ne_true]
    dsimp only
    cases t.get id with
    | none => exact .inl rfl
    | some r => exact .inr ⟨r, rfl⟩

/-- What is seen of an operation of a cycle. -/
theorem cycleOk_event {cy : Cycle} {op : Op} {t : Table} {sources : List Bytes}
    (ht : ShownLast ls cy.batch cy.transcript ∧ SourceIds cy.batch ∧
      sources = cy.batch.map (·.sourceId))
    (hop : (∃ section_ text id, op = ⟨cy.now, .insert (cy.record id section_ text)⟩) ∨
      ∃ id update text, op = changeOp cy.now id update text) :
    CycleOk ls σ (op.event t) σ' := by
  rcases hop with ⟨section_, text, id, rfl⟩ | ⟨id, update, text, rfl⟩
  · exact ⟨_, _, ht.1, ht.2.1.nodup, sourceRefsOf_eq ht.2.1⟩
  · obtain he | ⟨r, he⟩ := event_change cy.now id update text t
    · rw [he]
      trivial
    · rw [he]
      trivial

/-- **One step** keeps what is told of the phase and the slots of the turns. -/
theorem step_told (ht : Told ls σ.phase) (hs : SlotsOk σ.phase σ.slots)
    (h : Curating.Step S T D tokens σ l σ') :
    Told (ls ++ [l]) σ'.phase ∧ SlotsOk σ'.phase σ'.slots ∧ CycleOk ls σ l σ' := by
  cases h with
  | host call active w h => exact ⟨ht.keep rfl rfl, hs, trivial⟩
  | access ids w h => exact ⟨ht.keep rfl rfl, hs, trivial⟩
  | register slug w h => exact ⟨ht.keep rfl rfl, hs, trivial⟩
  | review kind now w hp hk h => exact ⟨ht.keep rfl rfl, hs, trivial⟩
  | sync F => exact ⟨ht.keep rfl rfl, hs, trivial⟩
  | learn knowledge => exact ⟨ht.keep rfl rfl, hs, trivial⟩
  | @arrive ts s h =>
    obtain ⟨h1, h2, h3⟩ := enqueueAll_ok h (by rw [hs.inflight]; exact hs.fits)
    refine ⟨ht.keep rfl rfl, ⟨h1.trans hs.inflight, h2.trans hs.bytes, ?_⟩, trivial⟩
    rw [h1, hs.inflight] at h3
    exact h3
  | take force now hp hr hq =>
    have htake := takeTurns_turns force S.turnBatch σ.slots.queue
    have htog : Together (takeTurns force S.turnBatch σ.slots.queue).1 := nextBatch_together _ _ _
    rw [hp] at hs
    refine ⟨⟨by rw [lastSome_concat]; rfl, htog⟩, ⟨?_, ?_, ?_⟩, htog, htake⟩
    · show σ.slots.queue.inflight + _ = _
      rw [hs.inflight]
      exact Nat.zero_add _
    · show σ.slots.queue.inflightBytes + _ = _
      rw [hs.bytes]
      exact Nat.zero_add _
    · have hlen := congrArg List.length htake
      rw [List.length_append] at hlen
      have hfit : σ.slots.queue.turns.length + 0 ≤ σ.slots.cap := hs.fits
      show (takeTurns force S.turnBatch σ.slots.queue).2.turns.length +
        (takeTurns force S.turnBatch σ.slots.queue).1.length ≤ σ.slots.cap
      omega
  | @show_ now batch text n s hp htr hres =>
    obtain ⟨hn, hle, htext⟩ := curationTranscript_ok htr
    rw [hp] at ht hs
    obtain ⟨hlast, htog⟩ := ht
    have hdrop : (batch.drop n).length ≤ batch.length := by
      rw [List.length_drop]
      exact Nat.sub_le _ _
    have hi : σ.slots.queue.inflight = batch.length := hs.inflight
    have hf : σ.slots.queue.turns.length + batch.length ≤ σ.slots.cap := hs.fits
    rw [restoreTurns_some (by omega) (by omega)] at hres
    obtain rfl := Option.some.inj hres
    have hsplit : turnBytes batch = turnBytes (batch.take n) + turnBytes (batch.drop n) := by
      rw [← turnBytes_append, List.take_append_drop]
    have hlen : (batch.take n).length + (batch.drop n).length = batch.length := by
      rw [← List.length_append, List.take_append_drop]
    refine ⟨⟨by rw [lastSome_concat]; rfl, htext, fun a ha b hb =>
      htog a (List.mem_of_mem_take ha) b (List.mem_of_mem_take hb)⟩, ⟨?_, ?_, ?_⟩, ?_⟩
    · show σ.slots.queue.inflight - (batch.drop n).length = (batch.take n).length
      omega
    · show σ.slots.queue.inflightBytes - turnBytes (batch.drop n) = turnBytes (batch.take n)
      have hb : σ.slots.queue.inflightBytes = turnBytes batch := hs.bytes
      omega
    · show (batch.drop n ++ σ.slots.queue.turns).length + (batch.take n).length ≤ σ.slots.cap
      rw [List.length_append]
      omega
    · show lastSome tookOf ls = some (batch.take n ++ batch.drop n) ∧
        Together (batch.take n ++ batch.drop n) ∧ _
      rw [List.take_append_drop]
      exact ⟨hlast, htog, fun he => by simp only [he, List.length_nil] at hlen; simp at hlen; omega,
        htext, rfl⟩
  | @showFail now batch hp htr =>
    rw [hp] at hs
    obtain ⟨he, hok⟩ := giveBack_ok hs
    refine ⟨trivial, hok, ?_⟩
    show CycleOk ls σ (giveBack (Phase.taken now batch).turns σ.slots).2 _
    rw [he]
    trivial
  | @collect cy rs hp hrs =>
    rw [hp] at ht hs
    exact ⟨ShownLast.keep ht rfl, ⟨hs.inflight, hs.bytes, hs.fits⟩, trivial⟩
  | @begin cy handles cops hp hh hc hr hj hids =>
    rw [hp] at ht hs
    exact ⟨⟨ShownLast.keep ht rfl, ⟨hids.1, hids.2⟩, rfl⟩, ⟨hs.inflight, hs.bytes, hs.fits⟩,
      _, _, ht, rfl⟩
  | @skip cy sources cop cops seen seen' processed quorum dup id hp hplan =>
    rw [hp] at ht hs
    exact ⟨Told.keep (p := .acting cy sources cops seen' _) ht rfl rfl,
      ⟨hs.inflight, hs.bytes, hs.fits⟩, trivial⟩
  | @act cy sources cop cops seen seen' processed quorum op dup id w x e hp hplan h =>
    rw [hp] at ht hs
    refine ⟨Told.keep (p := .acting cy sources cops seen' _) ht ?_ ?_,
      ⟨hs.inflight, hs.bytes, hs.fits⟩, ?_⟩
    · split
      · exact (event_told _ _).1
      · rfl
    · split
      · exact (event_told _ _).2
      · rfl
    · split
      · refine cycleOk_event ht ?_
        obtain ⟨section_, text, he⟩ | ⟨target, -, -, update, text, he⟩ := plan_some hplan
        · exact .inl ⟨section_, text, id, he⟩
        · exact .inr ⟨target.id, update, text, he⟩
      · trivial
  | @finish cy sources seen processed uuid hp h =>
    rw [hp] at ht hs
    refine ⟨trivial, ⟨?_, ?_, ?_⟩, ⟨_, _, ht.1, ht.2.2⟩, uuid, h, rfl⟩
    · show σ.slots.queue.inflight - cy.batch.length = 0
      rw [hs.inflight]
      exact Nat.sub_self _
    · show σ.slots.queue.inflightBytes - turnBytes cy.batch = 0
      rw [hs.bytes]
      exact Nat.sub_self _
    · exact Nat.le_trans (Nat.add_le_add_left (Nat.zero_le _) _) hs.fits
  | @fail cy receipt hp hr =>
    have hturns : σ.phase.turns = cy.batch := by
      rcases hp with hp | ⟨sources, cops, seen, n, hp⟩ <;> rw [hp] <;> rfl
    obtain ⟨he, hok⟩ := giveBack_ok hs
    rw [hturns] at he hok
    refine ⟨trivial, hok, ?_⟩
    rw [he]
    trivial

/-! ## Runs -/

/-- Between two cycles, with a slot for every turn that waits. -/
structure Curating.Rests (σ : Curating V) : Prop where
  idle : σ.phase = .idle
  slots : SlotsOk .idle σ.slots

/-- **Everything acknowledged was shown to the model.** Whatever waits in the queue, whatever the
budget and the token counter: a batch is of one origin; the transcript is made of the complete
texts of its first turns, in order, and the other turns go back to where they were; the ids the
cycle acknowledges are those of the turns in the transcript, and so are the sources of every record
it inserts; and no turn is lost. -/
theorem acknowledged_shown (h0 : σ0.Rests) (h : Runs (Curating.Step S T D tokens) σ0 ls σ)
    (hs : Curating.Step S T D tokens σ l σ') : CycleOk ls σ l σ' := by
  have hinv : Told ls σ.phase ∧ SlotsOk σ.phase σ.slots :=
    h.inv (I := fun ls (σ : Curating V) => Told ls σ.phase ∧ SlotsOk σ.phase σ.slots)
      ⟨by rw [h0.idle]; trivial, by rw [h0.idle]; exact h0.slots⟩
      fun _ _ _ _ hi hs => ⟨(step_told hi.1 hi.2 hs).1, (step_told hi.1 hi.2 hs).2.1⟩
  exact (step_told hinv.1 hinv.2 hs).2.2

end

/-- The theorem for one turn that is shown. -/
theorem acknowledged_shown_late : CycleOk [.took [lateTurn]]
    (latePhase lateDisk lateStart.ctx (.taken 1 [lateTurn]))
    (.shown [lateTurn] [] lateCycle.transcript)
    (latePhase lateDisk lateStart.ctx (.shown lateCycle)) :=
  have htake : LateStep lateStart _ (latePhase lateDisk lateStart.ctx (.taken 1 [lateTurn])) :=
    .take false 1 rfl rfl (List.cons_ne_nil _ _)
  have hshow : LateStep (latePhase lateDisk lateStart.ctx (.taken 1 [lateTurn])) _ _ :=
    .show_ rfl (show curationTranscript _ _ _ = .ok (lateCycle.transcript, 1) from rfl) rfl
  acknowledged_shown (show lateStart.Rests from ⟨rfl, ⟨rfl, rfl, by decide⟩⟩) (.single htake) hshow

end Asper
