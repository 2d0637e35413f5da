import Mathlib.Data.List.Basic

/-! # Runs of labelled steps

* `Runs step s ls s'`: steps with the labels `ls` lead from `s` to `s'`. An interleaving of several
  callers is a run whose labels say who made each step.
* `Runs.inv`: what holds at the start and is kept by every step, with the labels so far in hand,
  holds at the end.
* `Runs.each`: what every step of a run is, in the light of the labels before it.
* `lastSome f ls`: the last value `f` gives along the labels.
* `traced step`: the same steps, labelled with the states before and after as well; every run can
  be traced (`Runs.trace`). -/

namespace Durable

variable {σ ι β : Type}

inductive Runs (step : σ → ι → σ → Prop) (s : σ) : List ι → σ → Prop where
  | nil : Runs step s [] s
  | snoc {ls : List ι} {s' s'' : σ} {l : ι} (h : Runs step s ls s') (hs : step s' l s'') :
      Runs step s (ls ++ [l]) s''

section
variable {step : σ → ι → σ → Prop} {s s' : σ} {ls : List ι}

/-- **The run rule**, for an invariant that may speak of the labels so far. -/
theorem Runs.inv {I : List ι → σ → Prop} (h : Runs step s ls s') (h0 : I [] s)
    (hs : ∀ ls s l s', I ls s → step s l s' → I (ls ++ [l]) s') : I ls s' := by
  induction h with
  | nil => exact h0
  | snoc _ hstep ih => exact hs _ _ _ _ ih hstep

/-- **The rule for single steps**: with an invariant to rely on, what holds of each label and those
before it. -/
theorem Runs.each {I : List ι → σ → Prop} {Q : List ι → ι → Prop} (h : Runs step s ls s')
    (h0 : I [] s) (hs : ∀ ls s l s', I ls s → step s l s' → I (ls ++ [l]) s' ∧ Q ls l)
    {pre post : List ι} {l : ι} (hl : ls = pre ++ l :: post) : Q pre l := by
  have hall := h.inv (I := fun ls s => I ls s ∧ ∀ pre l post, ls = pre ++ l :: post → Q pre l)
    ⟨h0, fun pre l post hn => by simp at hn⟩ fun ls s l s' hi hstep => by
      obtain ⟨hi', hq⟩ := hs ls s l s' hi.1 hstep
      refine ⟨hi', fun pre l' post he => ?_⟩
      rcases List.eq_nil_or_concat post with rfl | ⟨post, l'', rfl⟩
      · obtain ⟨rfl, hl⟩ := List.append_inj' he rfl
        rw [← (List.singleton_inj.1 hl)]
        exact hq
      · have he' : ls ++ [l] = (pre ++ l' :: post) ++ [l''] := by simpa using he
        exact hi.2 pre l' post (List.append_inj' he' rfl).1
  exact hall.2 pre l post hl

theorem Runs.single {l : ι} (h : step s l s') : Runs step s [l] s' := .snoc .nil h

theorem Runs.append {ms : List ι} {s'' : σ} (h : Runs step s ls s') (h' : Runs step s' ms s'') :
    Runs step s (ls ++ ms) s'' := by
  induction h' with
  | nil => rwa [List.append_nil]
  | snoc _ hstep ih =>
    rw [← List.append_assoc]
    exact .snoc ih hstep

/-- A step whose label tells the states it leads from and to. -/
def traced (step : σ → ι → σ → Prop) (s : σ) (l : σ × ι × σ) (s' : σ) : Prop :=
  l.1 = s ∧ l.2.2 = s' ∧ step s l.2.1 s'

theorem Runs.trace (h : Runs step s ls s') :
    ∃ ts, ts.map (·.2.1) = ls ∧ Runs (traced step) s ts s' := by
  induction h with
  | nil => exact ⟨[], rfl, .nil⟩
  | @snoc ls s' s'' l _ hstep ih =>
    obtain ⟨ts, hts, hr⟩ := ih
    exact ⟨ts ++ [(s', l, s'')], by simp [hts], hr.snoc ⟨rfl, rfl, hstep⟩⟩

theorem Runs.untrace {ts : List (σ × ι × σ)} (h : Runs (traced step) s ts s') :
    Runs step s (ts.map (·.2.1)) s' := by
  induction h with
  | nil => exact .nil
  | snoc _ hstep ih =>
    obtain ⟨rfl, rfl, hs⟩ := hstep
    rw [List.map_append]
    exact ih.snoc hs

theorem Runs.traced_mem {ts : List (σ × ι × σ)} (h : Runs (traced step) s ts s')
    {x : σ × ι × σ} (hx : x ∈ ts) : step x.1 x.2.1 x.2.2 := by
  refine h.inv (I := fun ts _ => ∀ x ∈ ts, step x.1 x.2.1 x.2.2)
    (fun _ hn => absurd hn List.not_mem_nil) (fun ts s l s' hi hs x hx => ?_) x hx
  obtain ⟨rfl, rfl, hs⟩ := hs
  rcases List.mem_append.1 hx with hx | hx
  · exact hi x hx
  · rw [List.mem_singleton.1 hx]
    exact hs

end

/-- The last value `f` gives along the labels. -/
def lastSome (f : ι → Option β) (ls : List ι) : Option β := (ls.filterMap f).getLast?

@[simp] theorem lastSome_nil (f : ι → Option β) : lastSome f [] = none := rfl

@[simp] theorem lastSome_concat (f : ι → Option β) (ls : List ι) (l : ι) :
    lastSome f (ls ++ [l]) = (f l).or (lastSome f ls) := by
  rw [lastSome, List.filterMap_append, lastSome]
  cases h : f l with
  | none => simp [h]
  | some b => simp [h]

theorem exists_lastSome {f : ι → Option β} {ls : List ι} {l : ι} (h : l ∈ ls)
    (hf : f l ≠ none) : ∃ b, lastSome f ls = some b := by
  cases hn : lastSome f ls with
  | some b => exact ⟨b, rfl⟩
  | none =>
    rw [lastSome, List.getLast?_eq_none_iff, List.filterMap_eq_nil_iff] at hn
    exact absurd (hn l h) hf

end Durable
