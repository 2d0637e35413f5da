import Asper.Curator.Proof.Authority
import Mathlib.Data.List.Perm.Subperm
import Mathlib.Data.Set.Function

/-! # The quorum for identity records

A change of an identity record is carried out when an earlier cycle proposed the same. `Backed`
follows through a run which note stands behind which change, and `quorum_confirmed` says of every
run that each change has a note of its own, made in an earlier cycle and not too long ago. -/

namespace Asper

open Durable

/-! ## The proposals that wait -/

theorem dropAt_concat {α : Type} (ys : List α) (l : α) (i : Nat) :
    dropAt (ys ++ [l]) i = ((ys ++ [l]).set i l).dropLast := by
  simp [dropAt]

theorem dropAt_perm {α : Type} {xs : List α} {i : Nat} (hi : i < xs.length) :
    (xs[i] :: dropAt xs i).Perm xs := by
  rcases List.eq_nil_or_concat' xs with rfl | ⟨ys, l, rfl⟩
  · exact absurd hi (Nat.not_lt_zero _)
  · rw [dropAt_concat]
    by_cases hl : i < ys.length
    · rw [List.set_append_left _ _ hl, List.dropLast_concat, List.getElem_append_left hl]
      refine ((List.set_perm_cons_eraseIdx hl l).cons _).trans ((List.Perm.swap _ _ _).trans ?_)
      exact ((List.getElem_cons_eraseIdx_perm hl).cons l).trans
        (List.perm_append_singleton l ys).symm
    · obtain rfl : i = ys.length := by
        simp only [List.length_append, List.length_singleton] at hi
        omega
      rw [List.set_append_right _ _ (Nat.le_refl _)]
      simpa using (List.perm_append_singleton l ys).symm

theorem dropAt_length {α : Type} {xs : List α} {i : Nat} (hi : i < xs.length) :
    (dropAt xs i).length + 1 = xs.length := by
  simpa using (dropAt_perm hi).length_eq

theorem dropAt_before {α : Type} {xs : List α} {i j : Nat} (hi : i < xs.length) (hj : j < i) :
    (dropAt xs i)[j]? = xs[j]? := by
  rcases List.eq_nil_or_concat' xs with rfl | ⟨ys, l, rfl⟩
  · exact absurd hi (Nat.not_lt_zero _)
  · simp only [List.length_append, List.length_singleton] at hi
    rw [dropAt_concat, List.getElem?_dropLast, if_pos (by simp; omega),
      List.getElem?_set_ne (by omega)]

theorem kept_ne {p : Proposal} {i : Nat} {ps : List Waiting} (hi : ps.length ≤ i)
    (h : ∀ j < i, ∀ q, ps[j]? = some q → q.proposal ≠ p) : ∀ q ∈ ps, q.proposal ≠ p := by
  intro q hq
  obtain ⟨j, hj⟩ := List.mem_iff_getElem?.1 hq
  obtain ⟨hlt, -⟩ := List.getElem?_eq_some_iff.1 hj
  exact h j (Nat.lt_of_lt_of_le hlt hi) q hj

/-- **The scan** from the place `i`, which keeps some of what waits: it finds the proposal and
takes it out, or none of what is kept is the proposal. -/
theorem quorumScan_spec {window now : Int} {p : Proposal} : ∀ (fuel i : Nat) (ps : List Waiting)
    (confirmed : Bool), ps.length - i ≤ fuel →
    (confirmed = false → ∀ j < i, ∀ q, ps[j]? = some q → q.proposal ≠ p) →
    (quorumScan window now p fuel i ps confirmed).1.Subperm ps ∧
    (confirmed = true → (quorumScan window now p fuel i ps confirmed).2 = true) ∧
    (confirmed = false → if (quorumScan window now p fuel i ps confirmed).2 then
        ∃ q ∈ ps, q.proposal = p ∧ now - q.firstAt ≤ window ∧
          (q :: (quorumScan window now p fuel i ps confirmed).1).Subperm ps
      else ∀ q ∈ (quorumScan window now p fuel i ps confirmed).1, q.proposal ≠ p)
  | 0, i, ps, confirmed, hf, hpre => by
    unfold quorumScan
    refine ⟨List.Subperm.refl _, id, fun hc => ?_⟩
    rw [hc, if_neg Bool.false_ne_true]
    exact kept_ne (Nat.sub_eq_zero_iff_le.1 (Nat.le_zero.1 hf)) (hpre hc)
  | fuel + 1, i, ps, confirmed, hf, hpre => by
    unfold quorumScan
    cases hi : ps[i]? with
    | none =>
      refine ⟨List.Subperm.refl _, id, fun hc => ?_⟩
      rw [hc]
      dsimp only
      rw [if_neg Bool.false_ne_true]
      exact kept_ne (List.getElem?_eq_none_iff.1 hi) (hpre hc)
    | some q =>
      obtain ⟨hlt, hq⟩ := List.getElem?_eq_some_iff.1 hi
      have hperm : (q :: dropAt ps i).Perm ps := by
        rw [← hq]
        exact dropAt_perm hlt
      have hsub : (dropAt ps i).Subperm ps :=
        (List.sublist_cons_self q _).subperm.trans hperm.subperm
      have hlen : (dropAt ps i).length - i ≤ fuel := by
        have := dropAt_length hlt
        omega
      have hpre' : confirmed = false → ∀ j < i, ∀ q, (dropAt ps i)[j]? = some q →
          q.proposal ≠ p := by
        intro hc j hj q
        rw [dropAt_before hlt hj]
        exact hpre hc j hj q
      dsimp only
      split
      · -- it has waited too long
        obtain ⟨hs, ht, hr⟩ := quorumScan_spec fuel i (dropAt ps i) confirmed hlen hpre'
        refine ⟨hs.trans hsub, ht, fun hc => ?_⟩
        have hr := hr hc
        split
        · next hn =>
          rw [if_pos hn] at hr
          obtain ⟨q, hq, hqp, hw, hqs⟩ := hr
          exact ⟨q, hsub.subset hq, hqp, hw, hqs.trans hsub⟩
        · next hn => rwa [if_neg hn] at hr
      · next hage =>
        split
        · -- it is the proposal
          next hc =>
          obtain ⟨hs, ht, -⟩ := quorumScan_spec fuel i (dropAt ps i) true hlen
            (fun hn => absurd hn.symm Bool.false_ne_true)
          refine ⟨hs.trans hsub, fun _ => ht rfl, fun _ => ?_⟩
          rw [if_pos (ht rfl)]
          exact ⟨q, List.mem_of_getElem? hi, hc.2, by omega, ((List.subperm_cons q).2 hs).trans hperm.subperm⟩
        · next hc =>
          refine quorumScan_spec fuel (i + 1) ps confirmed (by omega) fun hcf j hj q' hq' => ?_
          rcases Nat.lt_succ_iff_lt_or_eq.1 hj with hj | rfl
          · exact hpre hcf j hj q' hq'
          · rw [hi] at hq'
            obtain rfl := Option.some.inj hq'
            exact fun he => hc ⟨hcf, he⟩

/-- **The check** takes out the note it finds, or makes one that none of the others equals. -/
theorem quorumCheck_spec {window now : Int} {p : Proposal} {ps ps' : List Waiting}
    {confirmed : Bool} (h : quorumCheck window now p ps = (ps', confirmed)) :
    (confirmed = true ∧ ∃ q ∈ ps, q.proposal = p ∧ now - q.firstAt ≤ window ∧
      (q :: ps').Subperm ps) ∨
    (confirmed = false ∧ ∃ qs, ps' = qs ++ [⟨p, now⟩] ∧ qs.Subperm ps ∧
      ∀ q ∈ qs, q.proposal ≠ p) := by
  obtain ⟨hs, -, hr⟩ := @quorumScan_spec window now p ps.length 0 ps false
    (Nat.sub_le _ _) (fun _ j hj => absurd hj (Nat.not_lt_zero j))
  have hr := hr rfl
  unfold quorumCheck at h
  dsimp only at h
  split at h
  · next hc =>
    rw [if_pos hc] at hr
    rw [h] at hr hc
    exact .inl ⟨hc, hr⟩
  · next hc =>
    rw [if_neg hc] at hr
    cases h
    exact .inr ⟨rfl, _, rfl, hs, hr⟩

/-! ## What the turn at a proposal comes to -/

/-- The proposal that a change of the record `target` is. -/
def proposalOf (target : Record) (update : Bool) (text : Bytes) : Proposal :=
  ⟨target.id, update, fnv1a64 (if update then text else [])⟩

/-- The turn at a proposal `p` of a cycle at the time `now`, and what it makes of the operation,
of the notes and of those made in this cycle. -/
inductive Turned (window now : Int) (target : Record) (update : Bool) (text : Bytes)
    (quorum : List Waiting) (seen : List Proposal) :
    Option Op × List Waiting × List Proposal → Prop where
  | dropped : Turned window now target update text quorum seen (none, quorum, seen)
  | free (hs : target.section_ ≠ .identity) : Turned window now target update text quorum seen
      (some (changeOp now target.id update text), quorum, seen)
  | confirmed {quorum' : List Waiting} {q : Waiting} (hs : target.section_ = .identity)
      (hp : proposalOf target update text ∉ seen) (hq : q ∈ quorum)
      (he : q.proposal = proposalOf target update text) (hw : now - q.firstAt ≤ window)
      (hq' : (q :: quorum').Subperm quorum) : Turned window now target update text quorum seen
      (some (changeOp now target.id update text), quorum', seen)
  | noted {qs : List Waiting} (hs : qs.Subperm quorum)
      (hn : ∀ q ∈ qs, q.proposal ≠ proposalOf target update text) :
      Turned window now target update text quorum seen
      (none, qs ++ [⟨proposalOf target update text, now⟩],
        seen ++ [proposalOf target update text])

section
variable {V : Type} {S : CycleSettings} {T : OpText} {D : Digest} {tokens : Bytes → Int}

theorem mutatePlan_turned (now : Int) (target : Record) (update : Bool) (text : Bytes)
    (quorum : List Waiting) (seen : List Proposal) :
    Turned S.identityConfirmWindow now target update text quorum seen
      (mutatePlan S now target update text quorum seen) := by
  have hp : (⟨target.id, update, fnv1a64 (if update = true then text else [])⟩ : Proposal) =
    proposalOf target update text := rfl
  unfold mutatePlan
  dsimp only
  rw [hp]
  split
  · exact .dropped
  · split
    · next hs => exact .free hs
    · next hs =>
      rw [ne_eq, not_not] at hs
      split
      · exact .dropped
      · next hp =>
        cases hr : quorumCheck S.identityConfirmWindow now (proposalOf target update text) quorum with
        | mk quorum' confirmed =>
          obtain ⟨rfl, q, hq, he, hw, hq'⟩ | ⟨rfl, qs, rfl, hq', hn⟩ := quorumCheck_spec hr
          · exact .confirmed hs hp hq he hw hq'
          · exact .noted hq' hn

/-- An operation of a cycle is an insertion or comes from a turn at a proposal. -/
theorem plan_turned {cy : Cycle} {dup : Bool} {id : Uuid} {quorum : List Waiting}
    {seen : List Proposal} {processed : Nat} {cop : Cop} {r : Option Op × List Waiting × List Proposal}
    (h : cy.plan S dup id quorum seen processed cop = r) :
    ((∀ op, r.1 = some op → ∃ x, op.kind = .insert x) ∧ r.2 = (quorum, seen)) ∨
    ∃ target ∈ cy.handles, ∃ update text,
      Turned S.identityConfirmWindow cy.now target update text quorum seen r := by
  have hnone (hr : (none, quorum, seen) = r) :
      (∀ op, r.1 = some op → ∃ x, op.kind = .insert x) ∧ r.2 = (quorum, seen) := by
    rw [← hr]
    exact ⟨fun _ hop => (nomatch hop), rfl⟩
  unfold Cycle.plan at h
  split at h
  · exact .inl (hnone h)
  · split at h
    · exact .inl (hnone h)
    · split at h
      · refine .inl ?_
        rw [← h]
        refine ⟨fun op hop => ?_, rfl⟩
        unfold Cycle.insertOp at hop
        split at hop
        · cases hop
        · cases hop
          exact ⟨_, rfl⟩
      · split at h
        · next target ht =>
          rw [← h]
          exact .inr ⟨target, List.mem_of_getElem? ht, true, _, mutatePlan_turned _ _ _ _ _ _⟩
        · exact .inl (hnone h)
      · split at h
        · next target ht =>
          rw [← h]
          exact .inr ⟨target, List.mem_of_getElem? ht, false, _, mutatePlan_turned _ _ _ _ _ _⟩
        · exact .inl (hnone h)
      · exact .inl (hnone h)

/-! ## Sections -/

theorem Op.on_section (op : Op) (r : Record) : (op.on r).section_ = r.section_ := by
  unfold Op.on
  cases op.kind with
  | setDeprecated id reason =>
    dsimp only
    split
    · unfold Record.deprecatedBy
      split <;> rfl
    · rfl
  | access ids =>
    dsimp only
    generalize ids.count r.id = n
    induction n generalizing r with
    | zero => rfl
    | succ n ih => exact (ih (r.accessed op.at_)).trans rfl
  | update id content declared =>
    dsimp only
    split <;> rfl
  | keep id =>
    dsimp only
    split <;> rfl
  | setLocked id value =>
    dsimp only
    split <;> rfl
  | _ => rfl

/-- The record `id` stays in the table, in its section. -/
def KeepsSection (t t' : Table) : Prop :=
  ∀ id r, t.get id = some r → ∃ r', t'.get id = some r' ∧ r'.section_ = r.section_

theorem KeepsSection.refl (t : Table) : KeepsSection t t := fun _ r h => ⟨r, h, rfl⟩

theorem applyOp_section {d : Disk} {w : Draw V} {x x' : Ctx V} {op : Op} {fromCurator : Bool}
    {e : Option Err}
    (h : (applyOp S.toSettings T D w x op fromCurator).result d = .ok (x', e)) :
    KeepsSection x.memory.table x'.memory.table := by
  intro id r hr
  refine ⟨_, applyOp_get h hr, ?_⟩
  split
  · exact Op.on_section _ _
  · rfl

theorem run_section {d : Disk} {w : Draw V} {x x' : Ctx V} {call : HostCall}
    {active : ActiveProject} {e : Option Err}
    (h : (call.run S.toSettings T D active w x).result d = .ok (x', e)) :
    KeepsSection x.memory.table x'.memory.table := by
  unfold HostCall.run at h
  split at h
  · cases h
    exact .refl _
  · exact applyOp_section h

/-- The records a cycle was shown are still in the section they were in. -/
def SameSection (σ : Curating V) : Prop :=
  ∀ c ∈ σ.phase.handles, ∃ r, σ.ctx.memory.table.get c.id = some r ∧ r.section_ = c.section_

theorem SameSection.keep {σ σ' : Curating V} (h : SameSection σ)
    (hh : σ'.phase.handles ⊆ σ.phase.handles)
    (ht : KeepsSection σ.ctx.memory.table σ'.ctx.memory.table) : SameSection σ' := by
  intro c hc
  obtain ⟨r, hr, hs⟩ := h c (hh hc)
  obtain ⟨r', hr', hs'⟩ := ht c.id r hr
  exact ⟨r', hr', hs'.trans hs⟩

theorem step_sameSection {σ σ' : Curating V} {l : CurationEvent} (hi : SameSection σ)
    (h : Curating.Step S T D tokens σ l σ') : SameSection σ' := by
  have hnil : σ'.phase.handles = [] → SameSection σ' := fun he c hc => by
    rw [he] at hc
    cases hc
  cases h with
  | host call active w h => exact hi.keep (List.Subset.refl _) (run_section h)
  | access ids w h => exact hi.keep (List.Subset.refl _) (applyOp_section h)
  | register slug w h => exact hi.keep (List.Subset.refl _) (applyOp_section h)
  | review kind now w hp hk h => exact hi.keep (List.Subset.refl _) (applyOp_section h)
  | sync F => exact hi.keep (List.Subset.refl _) (.refl _)
  | learn knowledge => exact hi.keep (List.Subset.refl _) (.refl _)
  | arrive ts h => exact hi.keep (List.Subset.refl _) (.refl _)
  | take force now hp hr hq => exact hnil rfl
  | show_ hp ht hs => exact hnil rfl
  | showFail hp ht => exact hnil rfl
  | @collect cy rs hp hrs =>
    intro c hc
    have hh : σ.phase.handles = cy.handles := by rw [hp]; rfl
    rcases List.mem_append.1 hc with hc | hc
    · exact hi c (hh ▸ hc)
    · exact ⟨c, Table.get_self (hrs c (newHandles_spec _ _ hc).1), rfl⟩
  | begin handles cops hp hh hc hr hj hs =>
    refine hi.keep ?_ (.refl _)
    rw [hp]
    exact hh.subset
  | skip dup id hp hplan =>
    refine hi.keep ?_ (.refl _)
    rw [hp]
    exact List.Subset.refl _
  | act dup id w hp hplan h =>
    refine hi.keep ?_ (applyOp_section h)
    rw [hp]
    exact List.Subset.refl _
  | finish uuid hp h => exact hnil rfl
  | fail receipt hp hr => exact hnil rfl

/-! ## What stands behind a change -/

/-- A step with the states it leads from and to. -/
abbrev CurationStep (V : Type) := Curating V × CurationEvent × Curating V

/-- The proposals that cannot be noted again in this cycle. -/
def Phase.seen : Phase → List Proposal
  | .acting _ _ _ seen _ => seen
  | _ => []

def Phase.now : Phase → Int
  | .idle => 0
  | .taken now _ => now
  | .shown cy => cy.now
  | .acting cy _ _ _ _ => cy.now

def CurationEvent.isTook : CurationEvent → Bool
  | .took _ => true
  | _ => false

/-- The text of the record `id`. -/
def Curating.contentOf (σ : Curating V) (id : Bytes) : Bytes :=
  ((σ.ctx.memory.table.get id).map (·.content)).getD []

/-- The change of an identity record that a step makes. -/
def changeOf (e : CurationStep V) : Option Proposal :=
  match e.2.1 with
  | .mutated update r =>
    if r.section_ = .identity then
      some ⟨r.id, update, fnv1a64 (if update then e.2.2.contentOf r.id else [])⟩
    else none
  | _ => none

/-- In the step the cycle makes the note `q`. -/
def Noted (q : Waiting) (e : CurationStep V) : Prop :=
  ∃ cy sources cop cops seen n n', e.1.phase = .acting cy sources (cop :: cops) seen n ∧
    e.2.2.phase = .acting cy sources cops (seen ++ [q.proposal]) n' ∧ q.firstAt = cy.now ∧
    e.2.2.quorum.getLast? = some q

def NotedAt (es : List (CurationStep V)) (i : Nat) (q : Waiting) : Prop :=
  ∃ e, es[i]? = some e ∧ Noted q e

/-- A cycle begins after the step `i` and before the step `k`. -/
def NewCycle (es : List (CurationStep V)) (i k : Nat) : Prop :=
  ∃ j, i < j ∧ j < k ∧ ∃ e, es[j]? = some e ∧ e.2.1.isTook = true

/-- The step `k` changes an identity record. -/
def ChangedAt (es : List (CurationStep V)) (k : Nat) : Prop :=
  ∃ e p, es[k]? = some e ∧ changeOf e = some p

/-- The note made in the step `f k` stands behind the change in the step `k`, and each proposal
that waits was noted in the step `g p`. -/
structure Backed (window : Int) (es : List (CurationStep V)) (σ : Curating V) (f : Nat → Nat)
    (g : Proposal → Nat) : Prop where
  nodup : (σ.quorum.map (·.proposal)).Nodup
  noted : ∀ q ∈ σ.quorum, NotedAt es (g q.proposal) q
  fresh : ∀ q ∈ σ.quorum, NewCycle es (g q.proposal) es.length ∨ σ.phase = .idle ∨
    q.proposal ∈ σ.phase.seen
  backed : ∀ k e p, es[k]? = some e → changeOf e = some p → ∃ q : Waiting, q.proposal = p ∧
    NotedAt es (f k) q ∧ NewCycle es (f k) k ∧ e.1.phase.now - q.firstAt ≤ window
  inj : Set.InjOn f {k | ChangedAt es k}
  unused : ∀ q ∈ σ.quorum, ∀ k, ChangedAt es k → f k ≠ g q.proposal

section
variable {es : List (CurationStep V)} {σ σ' : Curating V} {f : Nat → Nat} {g : Proposal → Nat}
  {window : Int} {e : CurationStep V}

theorem getElem?_concat_of_some {α : Type} {xs : List α} {i : Nat} {x y : α}
    (h : xs[i]? = some x) : (xs ++ [y])[i]? = some x := by
  obtain ⟨hlt, -⟩ := List.getElem?_eq_some_iff.1 h
  rw [List.getElem?_append_left hlt, h]

theorem getElem?_concat_cases {α : Type} {xs : List α} {i : Nat} {x y : α}
    (h : (xs ++ [y])[i]? = some x) : xs[i]? = some x ∨ i = xs.length ∧ x = y := by
  by_cases hlt : i < xs.length
  · rw [List.getElem?_append_left hlt] at h
    exact .inl h
  · rw [List.getElem?_append_right (Nat.le_of_not_lt hlt), List.getElem?_singleton] at h
    split at h
    · exact .inr ⟨by omega, (Option.some.inj h).symm⟩
    · cases h

theorem NotedAt.concat {i : Nat} {q : Waiting} (h : NotedAt es i q) (e : CurationStep V) :
    NotedAt (es ++ [e]) i q := by
  obtain ⟨d, hd, hn⟩ := h
  exact ⟨d, getElem?_concat_of_some hd, hn⟩

theorem NotedAt.lt {i : Nat} {q : Waiting} (h : NotedAt es i q) : i < es.length := by
  obtain ⟨d, hd, -⟩ := h
  exact (List.getElem?_eq_some_iff.1 hd).1

/-- One note is made in a step. -/
theorem NotedAt.unique {i : Nat} {q q' : Waiting} (h : NotedAt es i q) (h' : NotedAt es i q') :
    q = q' := by
  obtain ⟨d, hd, _, _, _, _, _, _, _, -, -, -, hl⟩ := h
  obtain ⟨d', hd', _, _, _, _, _, _, _, -, -, -, hl'⟩ := h'
  rw [hd] at hd'
  obtain rfl := Option.some.inj hd'
  exact Option.some.inj (hl.symm.trans hl')

theorem NewCycle.concat {i k : Nat} (h : NewCycle es i k) (e : CurationStep V) :
    NewCycle (es ++ [e]) i k := by
  obtain ⟨j, hi, hk, d, hd, ht⟩ := h
  exact ⟨j, hi, hk, d, getElem?_concat_of_some hd, ht⟩

theorem NewCycle.mono {i k k' : Nat} (h : NewCycle es i k) (hk : k ≤ k') : NewCycle es i k' := by
  obtain ⟨j, hi, hj, d⟩ := h
  exact ⟨j, hi, Nat.lt_of_lt_of_le hj hk, d⟩

theorem changedAt_concat {k : Nat} (h : ChangedAt (es ++ [e]) k) :
    ChangedAt es k ∨ k = es.length ∧ ∃ p, changeOf e = some p := by
  obtain ⟨d, p, hd, hp⟩ := h
  obtain hd | ⟨rfl, rfl⟩ := getElem?_concat_cases hd
  · exact .inl ⟨d, p, hd, hp⟩
  · exact .inr ⟨rfl, p, hp⟩

theorem ChangedAt.lt {k : Nat} (h : ChangedAt es k) : k < es.length := by
  obtain ⟨d, p, hd, -⟩ := h
  exact (List.getElem?_eq_some_iff.1 hd).1

/-- The notes left over are still where they were made. -/
theorem Backed.left (h : Backed window es σ f g) (e : CurationStep V) {qs : List Waiting}
    (hs : qs.Subperm σ.quorum) : (qs.map (·.proposal)).Nodup ∧
      ∀ q ∈ qs, NotedAt (es ++ [e]) (g q.proposal) q := by
  refine ⟨?_, fun q hq => (h.noted q (hs.subset hq)).concat e⟩
  obtain ⟨l, hl, hsub⟩ := hs
  exact (hl.map _).nodup_iff.1 (h.nodup.sublist (hsub.map _))

/-- **A step that changes no identity record** and makes no note. -/
theorem Backed.still (h : Backed window es σ f g) (hq : σ'.quorum.Subperm σ.quorum)
    (hc : changeOf e = none)
    (hp : σ'.phase = .idle ∨ e.2.1.isTook = true ∨
      σ.phase ≠ .idle ∧ σ.phase.seen ⊆ σ'.phase.seen) : Backed window (es ++ [e]) σ' f g := by
  obtain ⟨hnd, hnt⟩ := h.left e hq
  have hch {k : Nat} (hk : ChangedAt (es ++ [e]) k) : ChangedAt es k := by
    obtain hk | ⟨-, p, hp⟩ := changedAt_concat hk
    · exact hk
    · rw [hc] at hp
      cases hp
  refine ⟨hnd, hnt, fun q hq' => ?_, fun k d p hd hcd => ?_, fun k hk k' hk' => ?_,
    fun q hq' k hk => h.unused q (hq.subset hq') k (hch hk)⟩
  · rcases hp with hp | ht | ⟨hn, hs⟩
    · exact .inr (.inl hp)
    · refine .inl ⟨es.length, (h.noted q (hq.subset hq')).lt, by simp, e, by simp, ht⟩
    · rcases h.fresh q (hq.subset hq') with hf | hi | hm
      · exact .inl ((hf.concat e).mono (by simp))
      · exact absurd hi hn
      · exact .inr (.inr (hs hm))
  · obtain hd | ⟨-, rfl⟩ := getElem?_concat_cases hd
    · obtain ⟨q, hqp, hn, hnew, hw⟩ := h.backed k d p hd hcd
      exact ⟨q, hqp, hn.concat e, hnew.concat e, hw⟩
    · rw [hc] at hcd
      cases hcd
  · exact h.inj (hch hk) (hch hk')

/-- **A step that makes a note.** -/
theorem Backed.note (h : Backed window es σ f g) {q : Waiting} {qs : List Waiting}
    (hq : σ'.quorum = qs ++ [q]) (hs : qs.Subperm σ.quorum) (hn : ∀ r ∈ qs, r.proposal ≠ q.proposal)
    (hc : changeOf e = none) (he : Noted q e) (hi : σ.phase ≠ .idle)
    (hseen : σ'.phase.seen = σ.phase.seen ++ [q.proposal]) :
    Backed window (es ++ [e]) σ' f (Function.update g q.proposal es.length) := by
  obtain ⟨hnd, hnt⟩ := h.left e hs
  have hg {r : Waiting} (hr : r ∈ qs) :
      Function.update g q.proposal es.length r.proposal = g r.proposal :=
    Function.update_of_ne (hn r hr) _ _
  have hgq : Function.update g q.proposal es.length q.proposal = es.length :=
    Function.update_self _ _ _
  have hch {k : Nat} (hk : ChangedAt (es ++ [e]) k) : ChangedAt es k := by
    obtain hk | ⟨-, p, hp⟩ := changedAt_concat hk
    · exact hk
    · rw [hc] at hp
      cases hp
  have hmem {r : Waiting} (hr : r ∈ σ'.quorum) : r ∈ qs ∨ r = q := by
    rw [hq] at hr
    simpa using hr
  have hb : ∀ k d p, (es ++ [e])[k]? = some d → changeOf d = some p → ∃ q : Waiting,
      q.proposal = p ∧ NotedAt (es ++ [e]) (f k) q ∧ NewCycle (es ++ [e]) (f k) k ∧
      d.1.phase.now - q.firstAt ≤ window := by
    intro k d p hd hcd
    obtain hd | ⟨-, rfl⟩ := getElem?_concat_cases hd
    · obtain ⟨r, hrp, hrn, hnew, hw⟩ := h.backed k d p hd hcd
      exact ⟨r, hrp, hrn.concat e, hnew.concat e, hw⟩
    · rw [hc] at hcd
      cases hcd
  refine ⟨?_, fun r hr => ?_, fun r hr => ?_, hb, fun k hk k' hk' => h.inj (hch hk) (hch hk'),
    fun r hr k hk => ?_⟩
  · rw [hq, List.map_append, List.map_singleton]
    refine List.nodup_append'.2 ⟨hnd, List.nodup_singleton _, ?_⟩
    rw [List.disjoint_singleton]
    rintro hm
    obtain ⟨r, hr, hre⟩ := List.mem_map.1 hm
    exact hn r hr hre
  · rcases hmem hr with hr | rfl
    · rw [hg hr]
      exact hnt r hr
    · rw [hgq]
      exact ⟨e, by simp, he⟩
  · rcases hmem hr with hr | rfl
    · rw [hg hr, hseen]
      rcases h.fresh r (hs.subset hr) with hf | hi' | hm
      · exact .inl ((hf.concat e).mono (by simp))
      · exact absurd hi' hi
      · exact .inr (.inr (List.mem_append_left _ hm))
    · rw [hseen]
      exact .inr (.inr (by simp))
  · rcases hmem hr with hr | rfl
    · rw [hg hr]
      exact h.unused r (hs.subset hr) k (hch hk)
    · rw [hgq]
      obtain ⟨d, p, hd, hcd⟩ := hch hk
      obtain ⟨_, -, hn', -⟩ := h.backed k d p hd hcd
      exact Nat.ne_of_lt hn'.lt

/-- **A step that changes an identity record**, for which it takes the note `q`. -/
theorem Backed.confirm (h : Backed window es σ f g) {q : Waiting} {p : Proposal}
    (hq : q ∈ σ.quorum) (hs : (q :: σ'.quorum).Subperm σ.quorum) (hqp : q.proposal = p)
    (hc : changeOf e = some p) (hw : e.1.phase.now - q.firstAt ≤ window) (hi : σ.phase ≠ .idle)
    (hn : p ∉ σ.phase.seen) (hseen : σ'.phase.seen = σ.phase.seen) :
    Backed window (es ++ [e]) σ' (Function.update f es.length (g p)) g := by
  have hsub : σ'.quorum.Subperm σ.quorum := (List.sublist_cons_self q _).subperm.trans hs
  obtain ⟨hnd, hnt⟩ := h.left e hsub
  have hf {k : Nat} (hk : k < es.length) : Function.update f es.length (g p) k = f k :=
    Function.update_of_ne (Nat.ne_of_lt hk) _ _
  have hfe : Function.update f es.length (g p) es.length = g p := Function.update_self _ _ _
  have hqn : NotedAt es (g p) q := hqp ▸ h.noted q hq
  have hne : ∀ k, ChangedAt es k → f k ≠ g p := fun k hk => hqp ▸ h.unused q hq k hk
  have hnew : NewCycle es (g p) es.length := by
    rcases h.fresh q hq with hf | hi' | hm
    · exact hqp ▸ hf
    · exact absurd hi' hi
    · rw [hqp] at hm
      exact absurd hm hn
  refine ⟨hnd, hnt, fun r hr => ?_, fun k d p' hd hcd => ?_, fun k hk k' hk' he => ?_,
    fun r hr k hk => ?_⟩
  · rw [hseen]
    rcases h.fresh r (hsub.subset hr) with hf | hi' | hm
    · exact .inl ((hf.concat e).mono (by simp))
    · exact absurd hi' hi
    · exact .inr (.inr hm)
  · obtain hd | ⟨rfl, rfl⟩ := getElem?_concat_cases hd
    · obtain ⟨r, hrp, hrn, hrnew, hrw⟩ := h.backed k d p' hd hcd
      rw [hf (List.getElem?_eq_some_iff.1 hd).1]
      exact ⟨r, hrp, hrn.concat e, hrnew.concat e, hrw⟩
    · rw [hc] at hcd
      rw [hfe]
      exact ⟨q, hqp.trans (Option.some.inj hcd), hqn.concat _, hnew.concat _, hw⟩
  · rcases changedAt_concat hk with hk | ⟨rfl, -⟩ <;>
      rcases changedAt_concat hk' with hk' | ⟨rfl, -⟩
    · rw [hf hk.lt, hf hk'.lt] at he
      exact h.inj hk hk' he
    · rw [hf hk.lt, hfe] at he
      exact absurd he (hne k hk)
    · rw [hf hk'.lt, hfe] at he
      exact absurd he.symm (hne k' hk')
    · rfl
  · rcases changedAt_concat hk with hk | ⟨rfl, -⟩
    · rw [hf hk.lt]
      exact h.unused r (hsub.subset hr) k hk
    · rw [hfe]
      intro he
      -- the note `q` was taken out, and no other has its proposal
      have hrn := h.noted r (hsub.subset hr)
      rw [← he] at hrn
      obtain rfl := hqn.unique hrn
      obtain ⟨l, hl, hls⟩ := hs
      have hnd' := (hl.map (·.proposal)).nodup_iff.1 (h.nodup.sublist (hls.map _))
      exact (List.nodup_cons.1 hnd').1 (List.mem_map_of_mem hr)

end

/-! ## Runs -/

/-- A change that went through is seen with the record it changes, which has the new text. -/
theorem changeOp_seen {d : Disk} {w : Draw V} {x x' : Ctx V} {now : Int} {id text : Bytes}
    {update : Bool} {r : Record}
    (h : (applyOp S.toSettings T D w x (changeOp now id update text) true).result d = .ok (x', none))
    (hr : x.memory.table.get id = some r) :
    (changeOp now id update text).event x.memory.table = .mutated update r ∧
      (update = true → ∃ r', x'.memory.table.get r.id = some r' ∧ r'.content = text) := by
  obtain rfl := Table.get_id hr
  have hg := applyOp_get h hr
  rw [if_pos rfl] at hg
  cases update with
  | true =>
    refine ⟨by simp [Op.event, changeOp, hr], fun _ => ⟨_, hg, ?_⟩⟩
    unfold Op.on
    rw [Op.timed_kind]
    simp [changeOp, Record.updated]
  | false => exact ⟨by simp [Op.event, changeOp, hr], fun hn => absurd hn Bool.false_ne_true⟩

/-- The change of an identity record that a change of a record is. -/
theorem changeOf_changeOp {σ σ' : Curating V} {w : Draw V} {now : Int} {target : Record}
    {text : Bytes} {update : Bool} {r : Record}
    (h : (applyOp S.toSettings T D w σ.ctx (changeOp now target.id update text) true).result σ.disk =
      .ok (σ'.ctx, none))
    (hr : σ.ctx.memory.table.get target.id = some r) (hs : r.section_ = target.section_) :
    changeOf (σ, (changeOp now target.id update text).event σ.ctx.memory.table, σ') =
      if target.section_ = .identity then some (proposalOf target update text) else none := by
  obtain ⟨he, hc⟩ := changeOp_seen h hr
  have hid := Table.get_id hr
  rw [changeOf, he]
  dsimp only
  rw [hs, proposalOf, ← hid]
  cases update with
  | false => rfl
  | true =>
    obtain ⟨r', hr', ht⟩ := hc rfl
    simp [Curating.contentOf, hr', ht]

section
variable {es : List (CurationStep V)} {σ σ' : Curating V} {f : Nat → Nat} {g : Proposal → Nat}

theorem changeOf_insert {op : Op} {x : Record} (hop : op.kind = .insert x) :
    changeOf (σ, op.event σ.ctx.memory.table, σ') = none := by
  simp [changeOf, Op.event, hop]

theorem changeOf_giveBack (ts : List Turn) (s : QueueSlots) :
    changeOf (σ, (giveBack ts s).2, σ') = none := by
  obtain he | he := giveBack_event ts s <;> simp [changeOf, he]

/-- **One step** of a run. -/
theorem step_backed {l : CurationEvent} (hi : Backed S.identityConfirmWindow es σ f g)
    (hk : SameSection σ) (h : Curating.Step S T D tokens σ l σ') :
    ∃ f' g', Backed S.identityConfirmWindow (es ++ [(σ, l, σ')]) σ' f' g' := by
  -- a step outside the carrying out of proposals
  have hquiet (hq : σ'.quorum = σ.quorum) (hc : changeOf (σ, l, σ') = none)
      (hp : σ'.phase = .idle ∨ l.isTook = true ∨
        σ.phase ≠ .idle ∧ σ.phase.seen ⊆ σ'.phase.seen) :
      ∃ f' g', Backed S.identityConfirmWindow (es ++ [(σ, l, σ')]) σ' f' g' :=
    ⟨f, g, hi.still (by rw [hq]) hc hp⟩
  have hsame (hp : σ'.phase = σ.phase) : σ'.phase = .idle ∨ l.isTook = true ∨
      σ.phase ≠ .idle ∧ σ.phase.seen ⊆ σ'.phase.seen := by
    rw [hp]
    by_cases hidle : σ.phase = .idle
    · exact .inl hidle
    · exact .inr (.inr ⟨hidle, List.Subset.refl _⟩)
  cases h with
  | host call active w h => exact hquiet rfl rfl (hsame rfl)
  | access ids w h => exact hquiet rfl rfl (hsame rfl)
  | register slug w h => exact hquiet rfl rfl (hsame rfl)
  | review kind now w hp hk h => exact hquiet rfl rfl (hsame rfl)
  | sync F => exact hquiet rfl rfl (hsame rfl)
  | learn knowledge => exact hquiet rfl rfl (hsame rfl)
  | arrive ts h => exact hquiet rfl rfl (hsame rfl)
  | take force now hp hr hq => exact hquiet rfl rfl (.inr (.inl rfl))
  | show_ hp ht hs => exact hquiet rfl rfl (.inr (.inr (by rw [hp]; simp [Phase.seen])))
  | showFail hp ht => exact hquiet rfl (changeOf_giveBack _ _) (.inl rfl)
  | collect rs hp hrs => exact hquiet rfl rfl (.inr (.inr (by rw [hp]; simp [Phase.seen])))
  | begin handles cops hp hh hc hr hj hs =>
    exact hquiet rfl rfl (.inr (.inr (by rw [hp]; simp [Phase.seen])))
  | finish uuid hp h => exact hquiet rfl rfl (.inl rfl)
  | fail receipt hp hr => exact hquiet rfl (changeOf_giveBack _ _) (.inl rfl)
  | @skip cy sources cop cops seen seen' processed quorum dup id hp hplan =>
    have hn : σ.phase ≠ .idle := by rw [hp]; exact fun hn => nomatch hn
    have hseen : σ.phase.seen = seen := by rw [hp]; rfl
    obtain ⟨-, hr⟩ | ⟨target, -, update, text, ht⟩ := plan_turned hplan
    · cases hr
      exact hquiet rfl rfl (.inr (.inr ⟨hn, by rw [hseen]; exact List.Subset.refl _⟩))
    · cases ht with
      | dropped => exact hquiet rfl rfl (.inr (.inr ⟨hn, by rw [hseen]; exact List.Subset.refl _⟩))
      | noted hs hne =>
        refine ⟨f, _, hi.note rfl hs hne rfl ?_ hn ?_⟩
        · exact ⟨cy, sources, cop, cops, seen, processed, _, hp, rfl, rfl, by simp [Curating.skip]⟩
        · rw [hseen]
          rfl
  | @act cy sources cop cops seen seen' processed quorum op dup id w x e hp hplan h =>
    have hn : σ.phase ≠ .idle := by rw [hp]; exact fun hn => nomatch hn
    have hseen : σ.phase.seen = seen := by rw [hp]; rfl
    obtain ⟨hop, hr⟩ | ⟨target, htm, update, text, ht⟩ := plan_turned hplan
    · cases hr
      refine hquiet rfl ?_ (.inr (.inr ⟨hn, by rw [hseen]; exact List.Subset.refl _⟩))
      obtain ⟨r, hr⟩ := hop op rfl
      split
      · exact changeOf_insert hr
      · rfl
    · obtain ⟨r, hr, hrs⟩ := hk target (by rw [hp]; exact htm)
      cases ht with
      | free hs =>
        refine hquiet rfl ?_ (.inr (.inr ⟨hn, by rw [hseen]; exact List.Subset.refl _⟩))
        split
        · next he =>
          rw [changeOf_changeOp (he ▸ h) hr hrs, if_neg hs]
        · rfl
      | confirmed hs hps hq hqp hw hsub =>
        cases e with
        | some e =>
          refine ⟨f, g, hi.still ((List.sublist_cons_self _ _).subperm.trans hsub) rfl
            (.inr (.inr ⟨hn, ?_⟩))⟩
          rw [hseen]
          exact List.Subset.refl _
        | none =>
          refine ⟨_, g, hi.confirm hq hsub hqp ?_ ?_ hn (by rwa [hseen]) (by rw [hseen]; rfl)⟩
          · rw [if_pos rfl, changeOf_changeOp h hr hrs, if_pos hs]
          · dsimp only
            rw [hp]
            exact hw

/-- In every run of curation cycles each change of an identity record that a cycle makes was noted
as waiting in a cycle that began earlier, no longer ago than the confirmation window; each note
stands behind one change at most, and no two notes of the same change wait. -/
theorem quorum_confirmed (h : Runs (traced (Curating.Step S T D tokens)) σ es σ')
    (h0 : σ.phase = .idle) (hq : σ.quorum = []) :
    (σ'.quorum.map (·.proposal)).Nodup ∧
    ∃ f : Nat → Nat, Set.InjOn f {k | ChangedAt es k} ∧
      ∀ k e p, es[k]? = some e → changeOf e = some p → ∃ q : Waiting, q.proposal = p ∧
        NotedAt es (f k) q ∧ NewCycle es (f k) k ∧
        e.1.phase.now - q.firstAt ≤ S.identityConfirmWindow := by
  have hinit : Backed S.identityConfirmWindow [] σ id (fun _ => 0) := by
    refine ⟨by simp [hq], by simp [hq], by simp [hq], fun k e p hk => by simp at hk, ?_, by simp [hq]⟩
    intro k hk
    exact absurd hk.lt (Nat.not_lt_zero k)
  have hsec : SameSection σ := fun c hc => by
    rw [h0] at hc
    cases hc
  obtain ⟨⟨f, g, hb⟩, -⟩ := h.inv
    (I := fun es σ => (∃ f g, Backed S.identityConfirmWindow es σ f g) ∧ SameSection σ)
    ⟨⟨_, _, hinit⟩, hsec⟩ fun es σ e σ' hi hs => by
      obtain ⟨⟨f, g, hb⟩, hk⟩ := hi
      obtain ⟨σ₁, l, σ₂⟩ := e
      obtain ⟨rfl, rfl, hs⟩ := hs
      exact ⟨step_backed hb hk hs, step_sameSection hk hs⟩
  exact ⟨hb.nodup, f, hb.inj, hb.backed⟩

end

end

/-! ## A line that is repeated -/

def selfRecord : Record := { lateRecord with section_ := .identity }

theorem selfRecord_named : selfRecord.id ≠ [] := by decide

def selfStart : Curating Unit :=
  { lateStart with
    ctx := { lateStart.ctx with memory := lateMemory selfRecord selfRecord_named } }

/-- The cycle that is shown the record, at a place in its proposals. -/
def selfActing (cops : List Cop) (seen : List Proposal) (processed : Nat) : Phase :=
  .acting { lateCycle with handles := [selfRecord] } [lateTurn.sourceId] cops seen processed

def selfCop : Cop := .setDeprecated 1 ⟨ascii "c", by decide⟩

def selfProposal : Proposal := ⟨selfRecord.id, false, fnv1a64 []⟩

/-- The theorem for a model that says the same twice: one note is made, and nothing is changed. -/
theorem quorum_confirmed_twice : ∃ σ : Curating Unit, σ.quorum = [⟨selfProposal, 1⟩] ∧
    σ.ctx.memory.table.recs = [selfRecord] ∧ (σ.quorum.map (·.proposal)).Nodup := by
  have h1 : LateStep selfStart _ _ := .take false 1 rfl rfl (List.cons_ne_nil _ _)
  have h2 : LateStep (latePhase lateDisk selfStart.ctx (.taken 1 [lateTurn])) _ _ :=
    .show_ rfl (show curationTranscript _ _ _ = .ok (lateCycle.transcript, 1) from rfl) rfl
  have h3 : LateStep (latePhase lateDisk selfStart.ctx (.shown lateCycle)) _ _ :=
    .collect [selfRecord] rfl fun r hr => hr
  have h4 : LateStep (latePhase lateDisk selfStart.ctx
      (.shown { lateCycle with handles := [selfRecord] })) _ _ :=
    .begin [selfRecord] [selfCop, selfCop] rfl (List.Subperm.refl _) (by decide) rfl rfl (by decide)
  have h5 : LateStep (latePhase lateDisk (selfStart.ctx.withReceipt true)
      (selfActing [selfCop, selfCop] [] 0)) _ _ :=
    .skip false (uuidV4 fun _ => 3) rfl
      (show Cycle.plan _ _ _ _ _ _ _ _ = (none, [⟨selfProposal, 1⟩], [selfProposal]) from rfl)
  have h6 : LateStep ((latePhase lateDisk (selfStart.ctx.withReceipt true)
      (selfActing [selfCop, selfCop] [] 0)).skip [⟨selfProposal, 1⟩]
        (selfActing [selfCop] [selfProposal] 1)) _ _ :=
    .skip false (uuidV4 fun _ => 3) rfl
      (show Cycle.plan _ _ _ _ _ _ _ _ = (none, [⟨selfProposal, 1⟩], [selfProposal]) from rfl)
  obtain ⟨es, -, hrun⟩ := ((((((Runs.single h1).snoc h2).snoc h3).snoc h4).snoc h5).snoc h6).trace
  exact ⟨_, rfl, rfl, (quorum_confirmed hrun rfl rfl).1⟩

end Asper
