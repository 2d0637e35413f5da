import Asper.Lib.Cover
import Asper.Knowledge.Status

/-! # Which claims are covered

* `covered_iff`: the spans of a grounding cover a claim when each of its bytes lies in one. -/

namespace Asper

/-- `coverPass` extends by the claim ranges of the spans. -/
theorem coverPass_eq (spans : List SourceSpan) :
    coverPass spans = Cover.pass SourceSpan.claimBegin SourceSpan.claimEnd spans := rfl

/-- **Coverage is exact**, in whatever order the spans stand and however they overlap. -/
theorem covered_iff (g : Grounding) (size : Nat) :
    covered g size = true ↔
      ∀ p < size, ∃ s ∈ g.sources, s.claimBegin ≤ p ∧ p < s.claimEnd := by
  rw [covered, decide_eq_true_iff, coverPass_eq, Cover.le_passes_iff]
  rfl

end Asper
