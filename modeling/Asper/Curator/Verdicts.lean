import Asper.Curator.Grammar

/-! # Who uses the handles of an answer

The three loops of `curator.c` that index an array with a handle the parser let through: over the
records shown to a curation cycle (`mutateTarget`), over the candidates of a maintenance review
(`reviewVerdicts`) and over those of a recall (`recallSelect`, `recallCited`). None of them checks the
index; an access out of bounds is none. -/

namespace Asper

open Durable

/-- `xs[h - 1]`. -/
def atHandle {ρ : Type} (xs : List ρ) (h : Nat) : Option ρ := if h = 0 then none else xs[h - 1]?

/-! ## Curation -/

/-- The record that `cycle_do_mutate` changes; a line of another kind changes none. -/
def mutateTarget {ρ : Type} (handles : List ρ) : Cop → Option (Option ρ)
  | .update h _ | .setDeprecated h _ => (atHandle handles h).map some
  | _ => some none

/-! ## Review -/

inductive Verdict (ρ : Type) where
  | skipped
  | rejected
  | keep (target : ρ)
  | setDeprecated (target : ρ) (reason : CStr)

def reviewVerdict {ρ : Type} (cands : List ρ) : Cop → Option (Verdict ρ)
  | .noop => some .skipped
  | .keep h => (atHandle cands h).map .keep
  | .setDeprecated h text => (atHandle cands h).map fun target => .setDeprecated target text
  | _ => some .rejected

def reviewVerdicts {ρ : Type} (cands : List ρ) (cops : List Cop) : Option (List (Verdict ρ)) :=
  cops.mapM (reviewVerdict cands)

/-! ## Recall -/

/-- The answer so far, and the candidates cited: a flag for each and their places, in an array with
room for all. -/
structure Recall where
  answer : Option CStr
  seen : List Bool
  cites : List Nat

def recallStep (nCands : Nat) (r : Recall) : Cop → Option Recall
  | .answer text => some (if r.answer = none then { r with answer := some text } else r)
  | .cite h => (atHandle r.seen h).bind fun seen =>
    if seen then some r
    else if r.cites.length < nCands then
      some { r with seen := r.seen.set (h - 1) true, cites := r.cites ++ [h - 1] }
    else none
  | _ => some r

def recallSelect (nCands : Nat) (cops : List Cop) : Option Recall :=
  cops.foldlM (recallStep nCands) ⟨none, List.replicate nCands false, []⟩

/-- The candidates that are cited. -/
def recallCited {ρ : Type} (cands : List ρ) (cops : List Cop) : Option (List ρ) :=
  (recallSelect cands.length cops).bind fun r => r.cites.mapM (cands[·]?)

end Asper
