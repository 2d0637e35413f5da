import Asper.Journal.Proof.Replay
import Asper.Record.Proof.Funnel

/-! # The funnel and the journal

`applyOp_run`: an operation that passes the checks and meets no failure goes to the journal as one
more frame, and to memory. -/

namespace Asper

open Durable

def journalName : Bytes := ascii "journal.xcdn"

section
variable {V : Type} {S : Settings} {T : OpText} {D : Digest} {w : Draw V} {x : Ctx V} {op : Op}
  {fromCurator : Bool} {d : Disk} {es : List Event}

/-- The frame that an operation becomes. -/
def journaled (T : OpText) (w : Draw V) (n : Nat) (op : Op) (text : Bytes) : Event :=
  journalEvent T.codec (.opened n) (op.timed w.now) text w.id

/-- The context after an operation that was journaled and made the memory `m`. -/
def Ctx.applied (x : Ctx V) (w : Draw V) (op : Op) (n : Nat) (m : Memory) : Ctx V :=
  { x with memory := m, journal := .opened n, index := reindex w x.index (op.timed w.now).kind }

/-- **A call without failures** adds the frame of the operation and applies it. -/
theorem applyOp_run (hf : JournalFile D d [] journalName es []) (hx : x.journal = .opened es.length)
    (hk : x.knowledge.any (·.poisoned) = false) (hw : w.journal = .none) (hn : w.nomem = false)
    {t : Option Record} (hv : applyValidate S x.memory fromCurator op.kind = .ok t) {text : Bytes}
    (hs : T.serialize (op.timed w.now) = .ok text)
    (he : (journaled T w es.length op text).Fields)
    (hroom : (logBytes D es).length + text.length + 512 ≤ eventLogBytes) {m : Memory}
    (ha : storeApply x.memory (op.timed w.now) = .ok m) :
    ∃ ws, applyOp S T D w x op fromCurator d =
        ⟨ws, .ok (x.applied w op (es.length + 1) m, none)⟩ ∧
      JournalFile D (applyAll ws d) [] journalName (es ++ [journaled T w es.length op text]) [] := by
  obtain ⟨ws, hrun, hfin⟩ := journalAppend_run T.codec hf w.id (!fromCurator || S.syncAlways) hs he
    hroom
  refine ⟨ws, ?_, hfin⟩
  have hg : knowledgeGuard x = .ok () := by
    unfold knowledgeGuard
    rw [hx, hk]
    rfl
  have happ : storeApplyIn w.nomem x.memory (op.timed w.now) = .ok m := by
    unfold storeApplyIn
    rw [ha, hn]
    rfl
  unfold applyOp
  rw [hg, hv]
  show applyValid S T D w x (op.timed w.now) fromCurator d = _
  unfold applyValid
  rw [hw, hx]
  have hrun' : journalAppend T.codec .none D journalFile (.opened es.length) (op.timed w.now) w.id
      (!fromCurator || S.syncAlways) d = ⟨ws, .ok (.opened (es.length + 1), none)⟩ := hrun
  refine (Act.bind_run hrun').trans ?_
  dsimp only
  rw [happ]
  show (⟨ws ++ [], _⟩ : Outcome _ _) = _
  rw [List.append_nil]
  rfl

end

end Asper
