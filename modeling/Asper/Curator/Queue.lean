import Asper.Source.Pending

/-! # The turns of a curation cycle

A cycle takes the oldest turns of the queue (`takeTurns`), writes as many of them as fit into a
transcript (`curationTranscript`, `curation_input.c`) and hands the others back (`restoreTurns`).
`QueueSlots` is the queue with the size of its array, in which every turn of a cycle keeps a
slot. -/

namespace Asper

open Durable (Bytes)

def curationBatchMax : Nat := 256

/-- The queue and the slots of its array. -/
structure QueueSlots where
  queue : Queue
  cap : Nat

def turnBytes (ts : List Turn) : Nat := (ts.map fun t => t.text.length + 1).sum

/-! ## Taking and giving back -/

/-- Turns that one cycle may combine: of one conversation, project, workspace and revision. -/
def sameOrigin (a b : Turn) : Bool :=
  a.scope = b.scope ∧ a.project = b.project ∧ a.workspace = b.workspace ∧ a.commit = b.commit

/-- How many turns a cycle looks at. -/
def takeLimit (force : Bool) (turnBatch : Int) (n : Nat) : Nat :=
  min (if force = false ∧ 0 < turnBatch ∧ turnBatch < n then turnBatch.toNat else n) curationBatchMax

/-- The first of the turns with those that follow it and may be combined with it. -/
def batchOf : List Turn → List Turn
  | [] => []
  | t :: ts => t :: ts.takeWhile (sameOrigin t)

/-- The turns of the next cycle. -/
def nextBatch (force : Bool) (turnBatch : Int) (ts : List Turn) : List Turn :=
  batchOf (ts.take (takeLimit force turnBatch ts.length))

/-- `take_turns`: the turns a cycle holds from now on. -/
def takeTurns (force : Bool) (turnBatch : Int) (q : Queue) : List Turn × Queue :=
  let batch := nextBatch force turnBatch q.turns
  (batch, { q with
    turns := q.turns.drop batch.length
    inflight := q.inflight + batch.length
    inflightBytes := q.inflightBytes + turnBytes batch })

/-- `restore_turns`: the turns go back to the head, if the array has the slots. -/
def restoreTurns (ts : List Turn) (s : QueueSlots) : Option QueueSlots :=
  if ts = [] then some s
  else if s.queue.inflight < ts.length ∨ s.cap < s.queue.turns.length ∨
      s.cap - s.queue.turns.length < ts.length then none
  else some { s with queue := { s.queue with
    turns := ts ++ s.queue.turns
    inflight := s.queue.inflight - ts.length
    inflightBytes := s.queue.inflightBytes - turnBytes ts } }

/-- `asper_turn_queue_release`: the cycle is done with the turns. -/
def releaseTurns (ts : List Turn) (q : Queue) : Queue :=
  { q with inflight := q.inflight - ts.length, inflightBytes := q.inflightBytes - turnBytes ts }

/-- The slots once the array has one for `used + 1` turns. -/
def growSlots (cap used : Nat) : Nat :=
  if used = cap then min (if cap = 0 then 16 else cap * 2) queueEvents else cap

/-- The slots after `n` turns joined a queue that had `used` in use. -/
def growSlotsBy (cap used : Nat) : Nat → Nat
  | 0 => cap
  | n + 1 => growSlotsBy (growSlots cap used) (used + 1) n

/-! ## The transcript -/

def transcriptBytes : Nat := 64 * 1024

def Role.title : Role → Bytes
  | .user => ascii "USER"
  | .assistant => ascii "ASSISTANT"

/-- A turn as the transcript has it. -/
def turnLine (t : Turn) : Bytes := t.role.title ++ ascii ": " ++ t.text ++ ascii "\n"

def transcriptHead : Bytes := ascii "Conversation:\n"

/-- Whether the bytes of a turn fit behind `acc`. -/
def lineFits (acc : Bytes) (t : Turn) : Bool :=
  t.text.length ≤ transcriptBytes - (t.role.title.length + 3) ∧
    acc.length ≤ transcriptBytes - t.text.length - (t.role.title.length + 3)

/-- Add turns to `acc` up to the first that does not fit. The counter is asked about the whole
text so far: it need not be additive. -/
def transcriptLoop (tokens : Bytes → Int) (limit : Int) : Bytes → List Turn → Bytes × Nat
  | acc, [] => (acc, 0)
  | acc, t :: ts =>
    if lineFits acc t = false then (acc, 0)
    else if limit ≤ 0 ∨ limit < tokens (acc ++ turnLine t) then (acc, 0)
    else
      let r := transcriptLoop tokens limit (acc ++ turnLine t) ts
      (r.1, r.2 + 1)

/-- `asper_curation_transcript`: the transcript and how many turns it has. -/
def curationTranscript (tokens : Bytes → Int) (limit : Int) (ts : List Turn) :
    Except Err (Bytes × Nat) :=
  if ts = [] then .error .invalid
  else
    let r := transcriptLoop tokens limit transcriptHead ts
    if r.2 = 0 then .error .limit else .ok r

/-! ## What the parts keep -/

theorem takeLimit_le (force : Bool) (turnBatch : Int) (n : Nat) :
    takeLimit force turnBatch n ≤ n := by
  unfold takeLimit
  split <;> omega

theorem batchOf_isPrefix : ∀ ts : List Turn, batchOf ts <+: ts
  | [] => List.prefix_rfl
  | t :: ts => by
    rw [batchOf, List.prefix_cons_inj]
    exact List.takeWhile_prefix _

/-- The batch is where the queue begins. -/
theorem nextBatch_within (force : Bool) (turnBatch : Int) (ts : List Turn) :
    nextBatch force turnBatch ts <+: ts :=
  (batchOf_isPrefix _).trans (List.take_prefix _ _)

theorem takeTurns_turns (force : Bool) (turnBatch : Int) (q : Queue) :
    (takeTurns force turnBatch q).1 ++ (takeTurns force turnBatch q).2.turns = q.turns :=
  List.prefix_iff_eq_append.1 (nextBatch_within force turnBatch q.turns)

/-- Only an empty queue gives an empty batch. -/
theorem takeTurns_eq_nil {force : Bool} {turnBatch : Int} {q : Queue} :
    (takeTurns force turnBatch q).1 = [] ↔ q.turns = [] := by
  show nextBatch force turnBatch q.turns = [] ↔ _
  unfold nextBatch
  cases hq : q.turns with
  | nil => simp [batchOf]
  | cons t ts =>
    have hl : 0 < takeLimit force turnBatch (t :: ts).length := by
      unfold takeLimit curationBatchMax
      rw [List.length_cons]
      split <;> omega
    obtain ⟨n, hn⟩ := Nat.exists_eq_succ_of_ne_zero (Nat.ne_of_gt hl)
    rw [hn]
    simp [batchOf]

/-- All turns of a batch are of one origin. -/
theorem batchOf_sameOrigin : ∀ {ts : List Turn} {t : Turn}, t ∈ batchOf ts →
    ∀ {a : Turn}, (batchOf ts).head? = some a → t = a ∨ sameOrigin a t = true
  | [], _, h, _, _ => absurd h List.not_mem_nil
  | b :: ts, t, h, a, ha => by
    obtain rfl := Option.some.inj ha
    rcases List.mem_cons.1 h with rfl | h
    · exact .inl rfl
    · exact .inr (List.mem_takeWhile_imp h)

/-- **The transcript** is its head and the lines of the turns it counts. -/
theorem transcriptLoop_eq (tokens : Bytes → Int) (limit : Int) : ∀ (ts : List Turn) (acc : Bytes),
    (transcriptLoop tokens limit acc ts).2 ≤ ts.length ∧
    (transcriptLoop tokens limit acc ts).1 =
      acc ++ (ts.take (transcriptLoop tokens limit acc ts).2).flatMap turnLine
  | [], acc => ⟨Nat.le_refl _, by simp [transcriptLoop]⟩
  | t :: ts, acc => by
    obtain ⟨ih1, ih2⟩ := transcriptLoop_eq tokens limit ts (acc ++ turnLine t)
    unfold transcriptLoop
    split
    · exact ⟨Nat.zero_le _, by simp⟩
    · split
      · exact ⟨Nat.zero_le _, by simp⟩
      · refine ⟨Nat.succ_le_succ ih1, ?_⟩
        rw [List.take_succ_cons, List.flatMap_cons, ← List.append_assoc]
        exact ih2

theorem curationTranscript_ok {tokens : Bytes → Int} {limit : Int} {ts : List Turn} {text : Bytes}
    {n : Nat} (h : curationTranscript tokens limit ts = .ok (text, n)) :
    0 < n ∧ n ≤ ts.length ∧ text = transcriptHead ++ (ts.take n).flatMap turnLine := by
  unfold curationTranscript at h
  split at h
  · cases h
  · dsimp only at h
    split at h
    · cases h
    · next hn =>
      obtain ⟨h1, h2⟩ := transcriptLoop_eq tokens limit ts transcriptHead
      rw [Except.ok.inj h] at h1 h2 hn
      exact ⟨Nat.pos_of_ne_zero hn, h1, h2⟩

end Asper
