import Asper.Knowledge.Proof.Rename

/-! # The order of the records

A pass visits the entries in the order of their ids, and a record takes the label of the first bad
link it meets. `Inherits D t es st i x`: the label `x` can reach the record `i`, in some order of the
entries `es`, from the statuses `st` before propagation.

* Every label of a run is one that can reach its record (`Labelled.rounds`), and each one that can
  reach it does so in the run that visits its route first (`Inherits.route`).
* So the result of a propagation does not depend on the order when no record can be reached by two
  labels (`propagateSupport_perm`).
* `knowledgeRefresh_order_iff`: the refresh does not depend on the ids exactly then.
  `ambiguous_order` is a store where it does. -/

namespace Asper

open Durable (Bytes)
open Sweep

section
variable {D : Digest} {t : Table} {es : List KnowledgeEntry} {st : Statuses}

/-! ## The labels that can reach a record -/

/-- `l` is a link of the good record of `e`, and no link before it is bad. -/
structure Meets (D : Digest) (t : Table) (es : List KnowledgeEntry) (st : Statuses)
    (e : KnowledgeEntry) (l : KnowledgeLink) : Prop where
  mem : e ∈ es
  isSome : (t.get e.id).isSome = true
  good : (st e.id).bad = false
  first : ∃ ls ls', e.grounding.links = ls ++ l :: ls' ∧ ∀ m ∈ ls, ¬ LinkFires D t st.Bad m

/-- The label of a link that is bad at once, or one that can reach the target of a link. -/
inductive Inherits (D : Digest) (t : Table) (es : List KnowledgeEntry) (st : Statuses) :
    Bytes → KnowledgeStatus → Prop
  | link {e : KnowledgeEntry} {l : KnowledgeLink} (hm : Meets D t es st e l)
      (hl : LinkFires D t st.Bad l) : Inherits D t es st e.id (linkLabel D t st l)
  | support {e : KnowledgeEntry} {l : KnowledgeLink} {x : KnowledgeStatus}
      (hm : Meets D t es st e l) (hk : l.kind = .supports) (hl : ¬ LinkFires D t st.Bad l)
      (hx : Inherits D t es st l.recordId x) : Inherits D t es st e.id x

/-- No record can be reached by two labels. -/
def OneLabel (D : Digest) (t : Table) (es : List KnowledgeEntry) (st : Statuses) : Prop :=
  ∀ i x y, Inherits D t es st i x → Inherits D t es st i y → x = y

theorem linkLabel_ne_revoked (l : KnowledgeLink) : linkLabel D t st l ≠ .revoked := by
  unfold linkLabel
  split
  · simp
  · split
    · simp
    · next h => exact h

theorem Inherits.ne_revoked {i : Bytes} {x : KnowledgeStatus} (h : Inherits D t es st i x) :
    x ≠ .revoked := by
  induction h with
  | link _ _ => exact linkLabel_ne_revoked _
  | support _ _ _ _ ih => exact ih

theorem Inherits.bad {i : Bytes} {x : KnowledgeStatus} (h : Inherits D t es st i x) :
    x.bad = true := by
  induction h with
  | link _ hl => exact linkLabel_bad hl
  | support _ _ _ _ ih => exact ih

theorem Inherits.isSome {i : Bytes} {x : KnowledgeStatus} (h : Inherits D t es st i x) :
    (t.get i).isSome = true := by
  cases h with
  | link hm _ => exact hm.isSome
  | support hm _ _ _ => exact hm.isSome

/-- The rule sees the entries as a set. -/
theorem Meets.congr {es' : List KnowledgeEntry} (h : ∀ e, e ∈ es → e ∈ es') {e : KnowledgeEntry}
    {l : KnowledgeLink} (hm : Meets D t es st e l) : Meets D t es' st e l :=
  ⟨h e hm.mem, hm.isSome, hm.good, hm.first⟩

theorem Inherits.congr {es' : List KnowledgeEntry} (h : ∀ e, e ∈ es → e ∈ es') {i : Bytes}
    {x : KnowledgeStatus} (hi : Inherits D t es st i x) : Inherits D t es' st i x := by
  induction hi with
  | link hm hl => exact .link (hm.congr h) hl
  | support hm hk hl _ ih => exact .support (hm.congr h) hk hl ih

/-! ## Every label of a run can reach its record -/

/-- What every visit keeps, from the statuses `st`. -/
structure Labelled (D : Digest) (t : Table) (es : List KnowledgeEntry) (st s : Statuses) : Prop where
  old : ∀ i, st.Bad i → s i = st i
  new : ∀ i, s.Bad i → st.Bad i ∨ Inherits D t es st i (s i)

theorem Labelled.refl : Labelled D t es st st := ⟨fun _ _ => rfl, fun _ h => .inl h⟩

/-- A link that is bad in the run only has a label that can reach its target. -/
theorem Labelled.link {s : Statuses} (h : Labelled D t es st s) {e : KnowledgeEntry}
    {l : KnowledgeLink} (hm : Meets D t es st e l) (hl : LinkFires D t s.Bad l) :
    Inherits D t es st e.id (linkLabel D t s l) := by
  by_cases hb : LinkFires D t st.Bad l
  · have : linkLabel D t s l = linkLabel D t st l := by
      unfold linkLabel
      rcases hb.2 with hs | hs
      · simp [hs]
      · rw [h.old _ hs]
    rw [this]
    exact .link hm hb
  · have hs : sameClaim D (t.get l.recordId) l.contentSha256 = true := by
      by_contra hs
      exact hb ⟨hl.1, .inl (by simpa using hs)⟩
    have hbad : s.Bad l.recordId := hl.2.resolve_left (by simp [hs])
    have hi : Inherits D t es st l.recordId (s l.recordId) :=
      (h.new _ hbad).resolve_left fun h' => hb ⟨hl.1, .inr h'⟩
    have : linkLabel D t s l = s l.recordId := by
      rw [linkLabel, hs, if_neg (by simp), if_neg hi.ne_revoked]
    rw [this]
    exact .support hm hl.1 hb hi

theorem Labelled.visit {s : Statuses} (h : Labelled D t es st s) {e : KnowledgeEntry}
    (he : e ∈ es) : Labelled D t es st (supportVisit D t s e) := by
  cases hr : t.get e.id with
  | none =>
    rw [supportVisit_none hr]
    exact h
  | some r =>
    cases hb : (s e.id).bad with
    | true =>
      rw [supportVisit_bad hb]
      exact h
    | false =>
      have hr : (t.get e.id).isSome = true := by rw [hr]; rfl
      have hg : (st e.id).bad = false := by
        by_contra hg
        have hg : st.Bad e.id := by simpa using hg
        rw [h.old _ hg, hg] at hb
        cases hb
      constructor
      · intro i hi
        rw [supportVisit_other, h.old i hi]
        rintro rfl
        rw [Statuses.Bad, hg] at hi
        cases hi
      · intro i hi
        by_cases hie : i = e.id
        · subst hie
          right
          rw [Statuses.Bad, supportVisit_own hr hb] at hi
          rw [supportVisit_own hr hb]
          cases hf : e.grounding.links.find? fun l => decide (LinkFires D t s.Bad l) with
          | none =>
            obtain ⟨l, hl, hl'⟩ := (supportOwn_bad hb).1 hi
            simpa [hl'] using List.find?_eq_none.1 hf l hl
          | some l =>
            rw [supportOwn_of_find hf]
            obtain ⟨hl, ls, ls', hls, hns⟩ := List.find?_eq_some_iff_append.1 hf
            refine h.link ⟨he, hr, hg, ls, ls', hls, fun m hm hfm => ?_⟩ (of_decide_eq_true hl)
            -- what is bad at first is bad in the run
            have hfm' : LinkFires D t s.Bad m := hfm.mono fun hb => by
              rw [Statuses.Bad, h.old _ hb]
              exact hb
            simpa [hfm'] using hns m hm
        · rw [Statuses.Bad, supportVisit_other hie] at hi
          rw [supportVisit_other hie]
          exact h.new i hi

theorem Labelled.rounds {fs : List KnowledgeEntry} (hfs : ∀ e ∈ fs, e ∈ es) (n : Nat) :
    Labelled D t es st (rounds (supportVisit D t) fs n st) :=
  rounds_inv (P := Labelled D t es st) .refl (fun e he _ h => h.visit (hfs e he)) n

/-! ## One label for each record, one result -/

theorem supportFires_closed_perm {fs : List KnowledgeEntry} (h : fs.Perm es) {P : Bytes → Prop} :
    Closed (·.id) (SupportFires D t) fs P ↔ Closed (·.id) (SupportFires D t) es P :=
  ⟨fun hc e he => hc e (h.mem_iff.2 he), fun hc e he => hc e (h.mem_iff.1 he)⟩

/-- A mark of the support rule ends alike in every order. -/
theorem mark_rounds_perm (st : Statuses) {M : KnowledgeStatus → Prop}
    (hM : Marks (supportVisit D t) (·.id) M (SupportFires D t)) {fs : List KnowledgeEntry}
    (h : fs.Perm es) (i : Bytes) :
    M (rounds (supportVisit D t) fs fs.length st i) ↔
      M (rounds (supportVisit D t) es es.length st i) := by
  rw [mark_rounds_iff hM, mark_rounds_iff hM]
  simp only [supportFires_closed_perm h]

/-- **Propagation does not depend on the order** when each record has one label to inherit. -/
theorem propagateSupport_perm (hone : OneLabel D t es st) {fs : List KnowledgeEntry}
    (h : fs.Perm es) :
    propagateSupport D t fs fs.length st = propagateSupport D t es es.length st := by
  rw [propagateSupport_eq_rounds, propagateSupport_eq_rounds]
  funext i
  have h1 : Labelled D t es st (rounds (supportVisit D t) fs fs.length st) :=
    .rounds (fun e he => h.mem_iff.1 he) _
  have h2 : Labelled D t es st (rounds (supportVisit D t) es es.length st) :=
    .rounds (fun e he => he) _
  have hbad := mark_rounds_perm st (bad_marks D t) h i
  have hlapsed := mark_rounds_perm st (lapsed_marks D t) h i
  cases hb : (rounds (supportVisit D t) fs fs.length st i).bad with
  | true =>
    rcases h1.new i hb with ho | hi
    · rw [h1.old i ho, h2.old i ho]
    · rcases h2.new i (hbad.1 hb) with ho | hi'
      · rw [h1.old i ho, h2.old i ho]
      · exact hone i _ _ hi hi'
  | false =>
    have hb' : (rounds (supportVisit D t) es es.length st i).bad = false := by
      by_contra hn
      have := hbad.2 (by simpa using hn)
      rw [hb] at this
      cases this
    rcases KnowledgeStatus.of_not_bad hb with hv | hv <;>
      rcases KnowledgeStatus.of_not_bad hb' with hw | hw <;> simp [hv, hw] at hlapsed ⊢

/-! ## A label that can reach a record does so -/

/-- The record of `e` takes the label `x` when its first bad link, at most `l`, has it. -/
theorem supportVisit_label {s : Statuses} {e : KnowledgeEntry} {l : KnowledgeLink}
    {ls ls' : List KnowledgeLink} {x : KnowledgeStatus} (hr : (t.get e.id).isSome = true)
    (hb : (s e.id).bad = false) (hls : e.grounding.links = ls ++ l :: ls')
    (hl : LinkFires D t s.Bad l) (hx : linkLabel D t s l = x)
    (h : ∀ m ∈ ls, LinkFires D t s.Bad m → linkLabel D t s m = x) :
    supportVisit D t s e e.id = x := by
  rw [supportVisit_own hr hb]
  have hf : ∃ m, e.grounding.links.find? (fun l => decide (LinkFires D t s.Bad l)) = some m ∧
      linkLabel D t s m = x := by
    rw [hls, List.find?_append]
    cases hm : ls.find? fun l => decide (LinkFires D t s.Bad l) with
    | some m =>
      exact ⟨m, rfl, h m (List.mem_of_find?_eq_some hm) (by simpa using List.find?_some hm)⟩
    | none => exact ⟨l, by simp [hl], hx⟩
  obtain ⟨m, hf, hm⟩ := hf
  rw [supportOwn_of_find hf, hm]

/-- A list of entries whose visits, from `st`, give all their records the label `x`. -/
structure Route (D : Digest) (t : Table) (es : List KnowledgeEntry) (st : Statuses)
    (x : KnowledgeStatus) (route : List KnowledgeEntry) : Prop where
  sub : ∀ e ∈ route, e ∈ es
  nodup : (route.map (·.id)).Nodup
  label : ∀ i ∈ route.map (·.id), route.foldl (supportVisit D t) st i = x
  other : ∀ i ∉ route.map (·.id), route.foldl (supportVisit D t) st i = st i

theorem Route.snoc {x : KnowledgeStatus} {route : List KnowledgeEntry}
    (h : Route D t es st x route) {e : KnowledgeEntry} (he : e ∈ es)
    (hn : e.id ∉ route.map (·.id))
    (hx : supportVisit D t (route.foldl (supportVisit D t) st) e e.id = x) :
    Route D t es st x (route ++ [e]) := by
  have hfold : ∀ i, i ≠ e.id → (route ++ [e]).foldl (supportVisit D t) st i =
      route.foldl (supportVisit D t) st i := by
    intro i hi
    rw [List.foldl_append, List.foldl_cons, List.foldl_nil, supportVisit_other hi]
  constructor
  · intro e' he'
    rcases List.mem_append.1 he' with he' | he'
    · exact h.sub e' he'
    · rwa [List.mem_singleton.1 he']
  · rw [List.map_append, List.map_singleton, List.nodup_append]
    refine ⟨h.nodup, List.nodup_singleton _, fun a ha b hb => ?_⟩
    rw [List.mem_singleton.1 hb]
    rintro rfl
    exact hn ha
  · intro i hi
    by_cases hie : i = e.id
    · rw [hie, List.foldl_append, List.foldl_cons, List.foldl_nil, hx]
    · rw [hfold i hie]
      refine h.label i ?_
      simpa [hie] using hi
  · intro i hi
    have hie : i ≠ e.id := by
      rintro rfl
      exact hi (by simp)
    rw [hfold i hie]
    refine h.other i fun hi' => hi ?_
    rw [List.map_append]
    exact List.mem_append_left _ hi'

/-- A link whose target lies on the route has its label, one bad at first apart. -/
theorem Route.linkLabel {x : KnowledgeStatus} {route : List KnowledgeEntry}
    (h : Route D t es st x route) (hx : x ≠ .revoked) {l : KnowledgeLink}
    (hl : ¬ LinkFires D t st.Bad l)
    (hf : LinkFires D t (Statuses.Bad (route.foldl (supportVisit D t) st)) l) :
    linkLabel D t (route.foldl (supportVisit D t) st) l = x := by
  have hs : sameClaim D (t.get l.recordId) l.contentSha256 = true := by
    by_contra hs
    exact hl ⟨hf.1, .inl (by simpa using hs)⟩
  have hb := hf.2.resolve_left (by simp [hs])
  have hi : l.recordId ∈ route.map (·.id) := by
    by_contra hi
    rw [Statuses.Bad, h.other _ hi] at hb
    exact hl ⟨hf.1, .inr hb⟩
  have hv := h.label _ hi
  rw [Asper.linkLabel, hs, if_neg (by simp), hv, if_neg hx]

/-- **A label that can reach a record** reaches it along some route. -/
theorem Inherits.route {i : Bytes} {x : KnowledgeStatus} (h : Inherits D t es st i x) :
    ∃ route, Route D t es st x route ∧ i ∈ route.map (·.id) := by
  induction h with
  | @link e l hm hl =>
    obtain ⟨ls, ls', hls, hns⟩ := hm.first
    have hx := supportVisit_label hm.isSome hm.good hls hl rfl fun m hm' hf =>
      absurd hf (hns m hm')
    have h0 : Route D t es st (Asper.linkLabel D t st l) [] :=
      ⟨fun _ h => absurd h List.not_mem_nil, List.nodup_nil,
        fun _ h => absurd h List.not_mem_nil, fun _ _ => rfl⟩
    exact ⟨[] ++ [e], h0.snoc hm.mem List.not_mem_nil hx, by simp⟩
  | @support e l x hm hk hl hx ih =>
    obtain ⟨route, hr, hi⟩ := ih
    by_cases he : e.id ∈ route.map (·.id)
    · exact ⟨route, hr, he⟩
    · obtain ⟨ls, ls', hls, hns⟩ := hm.first
      have hf : LinkFires D t (Statuses.Bad (route.foldl (supportVisit D t) st)) l := by
        refine ⟨hk, .inr ?_⟩
        rw [Statuses.Bad, hr.label _ hi]
        exact hx.bad
      have hgood : (route.foldl (supportVisit D t) st e.id).bad = false := by
        rw [hr.other _ he]
        exact hm.good
      have hlab := supportVisit_label hm.isSome hgood hls hf (hr.linkLabel hx.ne_revoked hl hf)
        fun m hm' => hr.linkLabel hx.ne_revoked (hns m hm')
      exact ⟨route ++ [e], hr.snoc hm.mem he hlab, by simp⟩

/-- The order that starts with the route gives the label. -/
theorem propagateSupport_route {x : KnowledgeStatus} {route rest : List KnowledgeEntry}
    (h : Route D t es st x route) (hx : x.bad = true) {i : Bytes} (hi : i ∈ route.map (·.id)) :
    propagateSupport D t (route ++ rest) (route ++ rest).length st i = x := by
  have hkeep : ∀ (fs : List KnowledgeEntry) (s : Statuses), s i = x →
      fs.foldl (supportVisit D t) s i = x := by
    intro fs s hs
    refine List.foldlRecOn (motive := fun (s : Statuses) => s i = x) fs _ hs fun s hs e _ => ?_
    by_cases hie : i = e.id
    · rw [supportVisit_bad (by rw [Statuses.Bad, ← hie, hs]; exact hx), hs]
    · rw [supportVisit_other hie, hs]
  have hne : (route ++ rest).length = (route ++ rest).length - 1 + 1 := by
    have : route ≠ [] := by
      rintro rfl
      simp at hi
    have := List.length_pos_iff.2 this
    simp only [List.length_append]
    omega
  have hr : ∀ n, rounds (supportVisit D t) (route ++ rest) (n + 1) st i = x := by
    intro n
    induction n with
    | zero =>
      rw [rounds_succ, List.foldl_append]
      exact hkeep rest _ (h.label i hi)
    | succ n ih =>
      rw [rounds_succ]
      exact hkeep _ _ ih
  rw [propagateSupport_eq_rounds, hne]
  exact hr _

/-! ## The other phases -/

theorem allLinks_perm {fs : List KnowledgeEntry} (h : fs.Perm es)
    (p : KnowledgeEntry × KnowledgeLink) : p ∈ allLinks fs ↔ p ∈ allLinks es := by
  rw [← Prod.mk.eta (p := p), mem_allLinks, mem_allLinks, h.mem_iff]

theorem supersede_perm {fs : List KnowledgeEntry} (h : fs.Perm es) :
    applyRelations D t fs .supersedes st = applyRelations D t es .supersedes st := by
  funext i
  rw [supersede_apply, supersede_apply]
  refine if_congr (and_congr_right fun _ => ?_) rfl rfl
  simp only [Superseded, allLinks_perm h]

theorem contradict_perm {fs : List KnowledgeEntry} (h : fs.Perm es) :
    applyRelations D t fs .contradicts st = applyRelations D t es .contradicts st := by
  funext i
  rw [contradict_apply, contradict_apply]
  refine if_congr ?_ rfl rfl
  simp only [Contested, allLinks_perm h]

/-- Only contradictions reach a record whose support was settled. -/
theorem Inherits.contested {i : Bytes} {x : KnowledgeStatus} (hst : Settled D t es st)
    (h : Inherits D t es (applyRelations D t es .contradicts st) i x) : x = .contested := by
  induction h with
  | support _ _ _ _ ih => exact ih
  | @link e l hm hl =>
    have hg : (st e.id).bad = false := by
      by_contra hg
      have hb : (applyRelations D t es .contradicts st).Bad e.id :=
        bad_contradict (by simpa using hg)
      rw [Statuses.Bad, hm.good] at hb
      cases hb
    obtain ⟨ls, ls', hls, -⟩ := hm.first
    obtain ⟨hs, hb, -⟩ := hst.link hm.mem hm.isSome hg (hls ▸ by simp) hl.1
    have hc : applyRelations D t es .contradicts st l.recordId = .contested := by
      have hbad := hl.2.resolve_left (by simp [hs])
      rw [Statuses.Bad, contradict_apply] at hbad
      rw [contradict_apply]
      split at hbad
      · next h => exact if_pos h
      · rw [hb] at hbad
        cases hbad
    rw [linkLabel, hs, hc]
    rfl

/-- A contradiction leaves a record alone that is bad for another reason. -/
theorem contradict_of_bad {i : Bytes} (hb : (st i).bad = true) (hc : st i ≠ .contested) :
    applyRelations D t es .contradicts st i = st i := by
  have hn : (st i).contestable = false := by
    unfold KnowledgeStatus.contestable
    simp [hb, hc]
  rw [contradict_apply]
  refine if_neg ?_
  rintro ⟨p, _, _, _, hcc, hi | hi⟩
  · rw [← hi, hn] at hcc
    cases hcc.1
  · rw [← hi, hn] at hcc
    cases hcc.2

theorem oneLabel_contradict (hst : Settled D t es st) :
    OneLabel D t es (applyRelations D t es .contradicts st) :=
  fun _ _ _ hx hy => (hx.contested hst).trans (hy.contested hst).symm

/-- **One label each before propagation** makes the whole refresh independent of the order. -/
theorem refreshStatuses_perm {fs : List KnowledgeEntry} (h : fs.Perm es)
    (hone : OneLabel D t es (applyRelations D t es .supersedes st)) :
    refreshStatuses D t fs st = refreshStatuses D t es st := by
  simp only [refreshStatuses_eq, supportedStatuses]
  rw [supersede_perm h, propagateSupport_perm hone h, contradict_perm h,
    propagateSupport_perm (oneLabel_contradict (settled_propagateSupport D t es _)) h]

/-- Propagation leaves a bad record alone. -/
theorem propagateSupport_old (fs : List KnowledgeEntry) (n : Nat) {s : Statuses} {i : Bytes}
    (h : s.Bad i) : propagateSupport D t fs n s i = s i := by
  have hl : Labelled D t fs s (rounds (supportVisit D t) fs n s) := .rounds (fun _ he => he) n
  rw [propagateSupport_eq_rounds, hl.old i h]

/-- The refresh that visits the route first ends in its label. -/
theorem refreshStatuses_route {x : KnowledgeStatus} {route rest : List KnowledgeEntry}
    (hp : (route ++ rest).Perm es)
    (h : Route D t es (applyRelations D t es .supersedes st) x route) (hx : x.bad = true)
    (hc : x ≠ .contested) {i : Bytes} (hi : i ∈ route.map (·.id)) :
    refreshStatuses D t (route ++ rest) st i = x := by
  rw [refreshStatuses_eq, supportedStatuses, supersede_perm hp]
  have h2 : propagateSupport D t (route ++ rest) (route ++ rest).length
      (applyRelations D t es .supersedes st) i = x := propagateSupport_route h hx hi
  generalize propagateSupport D t (route ++ rest) (route ++ rest).length
    (applyRelations D t es .supersedes st) = s at h2 ⊢
  subst h2
  have h3 : applyRelations D t (route ++ rest) .contradicts s i = s i := contradict_of_bad hx hc
  rw [propagateSupport_old _ _ (by rw [Statuses.Bad, h3]; exact hx), h3]

end

/-! ## New ids -/

/-- The map that takes the ids `js` to the ids `is`, place by place, and keeps every other. -/
def reorder (js is : List Bytes) (i : Bytes) : Bytes :=
  if i ∈ js then is.getD (js.idxOf i) i else i

section
variable {js is : List Bytes}

theorem reorder_of_mem (hl : js.length = is.length) {i : Bytes} (h : i ∈ js) :
    ∃ hk : js.idxOf i < is.length, reorder js is i = is[js.idxOf i] := by
  have hk : js.idxOf i < is.length := hl ▸ List.idxOf_lt_length_iff.2 h
  refine ⟨hk, ?_⟩
  rw [reorder, if_pos h, List.getD_eq_getElem?_getD, List.getElem?_eq_getElem hk]
  rfl

theorem reorder_of_not_mem {i : Bytes} (h : i ∉ js) : reorder js is i = i := if_neg h

theorem map_reorder (hl : js.length = is.length) (hn : js.Nodup) : js.map (reorder js is) = is := by
  refine List.ext_getElem (by rw [List.length_map, hl]) fun k hk hk' => ?_
  rw [List.length_map] at hk
  rw [List.getElem_map]
  obtain ⟨_, he⟩ := reorder_of_mem hl (List.getElem_mem hk)
  rw [he]
  congr 1
  exact hn.idxOf_getElem k hk

theorem mem_reorder (hp : js.Perm is) {i : Bytes} (h : i ∈ js) : reorder js is i ∈ js := by
  obtain ⟨hk, he⟩ := reorder_of_mem hp.length_eq h
  rw [he]
  exact hp.mem_iff.2 (List.getElem_mem hk)

theorem reorder_injective (hp : js.Perm is) (hn : js.Nodup) :
    Function.Injective (reorder js is) := by
  intro a b hab
  by_cases ha : a ∈ js
  · by_cases hb : b ∈ js
    · obtain ⟨hka, hea⟩ := reorder_of_mem hp.length_eq ha
      obtain ⟨hkb, heb⟩ := reorder_of_mem hp.length_eq hb
      rw [hea, heb] at hab
      have hidx := (List.Nodup.getElem_inj_iff (hp.nodup_iff.1 hn)).1 hab
      exact (List.idxOf_inj ha).1 hidx
    · have hm := mem_reorder hp ha
      rw [hab, reorder_of_not_mem hb] at hm
      exact absurd hm hb
  · by_cases hb : b ∈ js
    · have hm := mem_reorder hp hb
      rw [← hab, reorder_of_not_mem ha] at hm
      exact absurd hm ha
    · rwa [reorder_of_not_mem ha, reorder_of_not_mem hb] at hab

end

/-- Ids go to ids, no two to one. -/
structure IsRenaming (ρ : Bytes → Bytes) : Prop where
  injective : Function.Injective ρ
  valid : ∀ id, uuidValid id = true → uuidValid (ρ id) = true

theorem uuidValid_ne_nil {s : Bytes} (h : uuidValid s = true) : s ≠ [] := by
  rintro rfl
  cases uuidShape_length h

/-- A context under new ids. -/
def renameClaims (c : Claims) (k : Knowledge) (ρ : Bytes → Bytes) (hρ : IsRenaming ρ)
    (hn : ∀ r ∈ c.table.recs, ρ r.id ≠ []) (es : List KnowledgeEntry)
    (hes : (es.map (renameEntry ρ)).Pairwise fun a b => a.id < b.id)
    (hv : ∀ e ∈ es, uuidValid e.id = true) : Claims where
  table :=
    { recs := c.table.recs.map (renameRecord ρ)
      nodup := by
        have : (c.table.recs.map (renameRecord ρ)).map (·.id) =
            (c.table.recs.map (·.id)).map ρ := by
          rw [List.map_map, List.map_map]
          rfl
        rw [this]
        exact c.table.nodup.map hρ.injective
      named := by
        intro r' hr'
        obtain ⟨r, hr, rfl⟩ := List.mem_map.1 hr'
        exact hn r hr }
  knowledge := some
    { entries := es.map (renameEntry ρ)
      observations := k.observations
      poisoned := k.poisoned
      sorted := hes
      valid := by
        intro e' he'
        obtain ⟨e, he, rfl⟩ := List.mem_map.1 he'
        exact hρ.valid _ (hv e he) }
  storePoisoned := c.storePoisoned

/-- **Every order of the entries** is the order of some ids for the records. -/
theorem exists_renamed {c : Claims} {k : Knowledge} (hk : c.knowledge = some k)
    {es : List KnowledgeEntry} (h : es.Perm k.entries) :
    ∃ ρ c', IsRenaming ρ ∧ Renamed ρ c c' ∧ c'.entries = es.map (renameEntry ρ) := by
  let js := es.map (·.id)
  let is := k.entries.map (·.id)
  have hp : js.Perm is := h.map _
  have hsorted : is.Pairwise (· < ·) := List.pairwise_map.2 k.sorted
  have hn : js.Nodup := hp.nodup_iff.2 (hsorted.imp fun hab => by
    rintro rfl
    exact List.lt_irrefl _ hab)
  have hv : ∀ e ∈ es, uuidValid e.id = true := fun e he => k.valid e (h.mem_iff.1 he)
  have hvj : ∀ i ∈ js, uuidValid i = true := by
    intro i hi
    obtain ⟨e, he, rfl⟩ := List.mem_map.1 hi
    exact hv e he
  have hρ : IsRenaming (reorder js is) := by
    refine ⟨reorder_injective hp hn, fun i hi => ?_⟩
    by_cases hm : i ∈ js
    · exact hvj _ (mem_reorder hp hm)
    · rwa [reorder_of_not_mem hm]
  have hname : ∀ r ∈ c.table.recs, reorder js is r.id ≠ [] := by
    intro r hr
    by_cases hm : r.id ∈ js
    · exact uuidValid_ne_nil (hvj _ (mem_reorder hp hm))
    · rw [reorder_of_not_mem hm]
      exact c.table.named r hr
  have hes : (es.map (renameEntry (reorder js is))).Pairwise fun a b => a.id < b.id := by
    have hids : (es.map (renameEntry (reorder js is))).map (·.id) = is := by
      have := map_reorder hp.length_eq hn
      rw [List.map_map] at this ⊢
      exact this
    rw [← hids] at hsorted
    exact List.pairwise_map.1 hsorted
  refine ⟨reorder js is, renameClaims c k _ hρ hname es hes hv, hρ, ⟨.refl _, ?_, ?_⟩, rfl⟩
  · have : c.entries = k.entries := by rw [Claims.entries, hk]; rfl
    rw [this]
    exact h.map _
  · rw [Claims.rest, Claims.rest, hk]
    rfl

/-! ## The refresh -/

/-- The statuses before support is judged: the records' own groundings, then the corrections. -/
def correctedStatuses (D : Digest) (c : Claims) (now : Int) : Statuses := fun i =>
  if initialStatuses D c now i ≠ .revoked ∧ Superseded D c.table c.entries i then .stale
  else initialStatuses D c now i

theorem correctedStatuses_eq (D : Digest) (c : Claims) (now : Int) :
    applyRelations D c.table c.entries .supersedes (initialStatuses D c now) =
      correctedStatuses D c now := funext fun _ => supersede_apply _ _ _

theorem dependencyStatus_ne_contested {obs : List Dependency} : ∀ {ds : List Dependency}
    {s : KnowledgeStatus}, dependencyStatus obs ds = some s → s ≠ .contested
  | [], _, h => by cases h
  | d :: ds, s, h => by
    unfold dependencyStatus at h
    split at h
    · cases h
      simp
    · split at h
      · cases h
        simp
      · split at h
        · cases h
          simp
        · exact dependencyStatus_ne_contested h

theorem groundedStatus_ne_contested (D : Digest) (k : Knowledge) (r : Record)
    (e : KnowledgeEntry) : groundedStatus D k r e ≠ .contested := by
  unfold groundedStatus
  split
  · simp
  · split
    · simp
    · split
      · simp
      · split
        · next h => exact dependencyStatus_ne_contested h
        · split
          · simp
          · split <;> simp

theorem initialStatuses_ne_contested (D : Digest) (c : Claims) (now : Int) (i : Bytes) :
    initialStatuses D c now i ≠ .contested := by
  unfold initialStatuses
  cases c.table.get i with
  | none => simp
  | some r =>
    simp only [initialStatus]
    split
    · simp
    · split
      · simp
      · cases c.knowledge with
        | none => simp
        | some k =>
          simp only
          cases knowledgeFind k r.id with
          | none => simp
          | some e => exact groundedStatus_ne_contested D k r e

theorem correctedStatuses_ne_contested (D : Digest) (c : Claims) (now : Int) (i : Bytes) :
    correctedStatuses D c now i ≠ .contested := by
  unfold correctedStatuses
  split
  · simp
  · exact initialStatuses_ne_contested D c now i

theorem Inherits.ne_contested {D : Digest} {t : Table} {es : List KnowledgeEntry} {st : Statuses}
    {i : Bytes} {x : KnowledgeStatus} (h : Inherits D t es st i x) (hst : ∀ j, st j ≠ .contested) :
    x ≠ .contested := by
  induction h with
  | support _ _ _ _ ih => exact ih
  | @link _ l _ _ =>
    unfold linkLabel
    split
    · simp
    · split
      · simp
      · exact hst l.recordId

/-- The refresh gives corresponding records the same status, whatever ids they have and in
whatever order the table holds them. -/
def OrderIndependent (D : Digest) (c : Claims) (now : Int) : Prop :=
  ∀ ρ c', IsRenaming ρ → Renamed ρ c c' → ∀ r ∈ c.table.recs,
    (knowledgeRefresh D c' now).status (ρ r.id) = (knowledgeRefresh D c now).status r.id

/-- A label that can reach a record is its status under some ids. -/
theorem Inherits.attained {D : Digest} {c : Claims} {now : Int} {i : Bytes} {x : KnowledgeStatus}
    (h : Inherits D c.table c.entries (correctedStatuses D c now) i x) :
    ∃ ρ c', IsRenaming ρ ∧ Renamed ρ c c' ∧ (knowledgeRefresh D c' now).status (ρ i) = x := by
  have hc := h.ne_contested (correctedStatuses_ne_contested D c now)
  obtain ⟨route, hr, hi⟩ := h.route
  cases hk : c.knowledge with
  | none =>
    exfalso
    obtain ⟨e, he, -⟩ := List.mem_map.1 hi
    have := hr.sub e he
    simp [Claims.entries, hk] at this
  | some k =>
    have hes : c.entries = k.entries := by rw [Claims.entries, hk]; rfl
    have hids : c.entries.Nodup := by
      rw [hes]
      exact k.sorted.imp fun hab => by
        rintro rfl
        exact List.lt_irrefl _ hab
    -- the route first, then the other entries
    obtain ⟨l, hl, hsub⟩ := List.subperm_of_subset (List.Nodup.of_map _ hr.nodup) hr.sub
    obtain ⟨rest, hrest⟩ := hsub.exists_perm_append
    have hp := hrest.trans (hl.append_right rest)
    obtain ⟨ρ, c', hρ, hren, hent⟩ := exists_renamed hk (hes ▸ hp.symm)
    refine ⟨ρ, c', hρ, hren, ?_⟩
    rw [knowledgeRefresh_renamed D hρ.injective now hren hent]
    rw [← correctedStatuses_eq] at hr
    exact refreshStatuses_route hp.symm hr h.bad hc hi

/-- **When the refresh does not depend on the order**: exactly when each record that support
propagation degrades can be reached by one label only. -/
theorem knowledgeRefresh_order_iff (D : Digest) (c : Claims) (now : Int) :
    OrderIndependent D c now ↔ OneLabel D c.table c.entries (correctedStatuses D c now) := by
  constructor
  · intro h i x y hx hy
    obtain ⟨r, hr⟩ := Option.isSome_iff_exists.1 hx.isSome
    obtain ⟨hm, rfl⟩ := Table.get_eq_some.1 hr
    obtain ⟨ρ, c₁, hρ, hc₁, h₁⟩ := hx.attained
    obtain ⟨ρ', c₂, hρ', hc₂, h₂⟩ := hy.attained
    rw [← h₁, ← h₂, h ρ c₁ hρ hc₁ r hm, h ρ' c₂ hρ' hc₂ r hm]
  · intro h ρ c' hρ hren r _
    obtain ⟨es, hp, hent⟩ := hren.order
    rw [knowledgeRefresh_renamed D hρ.injective now hren hent, knowledgeRefresh_status]
    rw [← correctedStatuses_eq] at h
    rw [refreshStatuses_perm hp h]

/-! ## A store whose refresh depends on the ids

The claim `r` has the support links `a`, `b` in this order, `a` has `a₂`. The record of `a₂` is
deprecated, that of `b` waits for a dependency the host has not observed: `r` is unavailable when
its id comes before that of `a`, stale when it comes after. -/

namespace Ambiguous

def uuid (last : String) : Bytes := ascii ("00000000-0000-4000-8000-00000000000" ++ last)

def claim (last : String) (content : String) (deprecated : Bool) : Record where
  id := uuid last
  section_ := .context
  project := none
  content := ascii content
  source := .manual
  evidence := ⟨.declared, .heuristic, 1, 0, 0, ascii "user", [], []⟩
  createdAt := 0
  updatedAt := 0
  lastAccess := 0
  accessCount := 0
  relevance := 4 / 5
  locked := false
  deprecated
  deprecatedAt := 0
  tags := []
  sourceRefs := []

def support (last : String) (content : String) : KnowledgeLink :=
  ⟨.supports, uuid last, contentHash padDigest (ascii content)⟩

def entry (last : String) (content : String) (dependencies : List Dependency)
    (links : List KnowledgeLink) : KnowledgeEntry :=
  ⟨uuid last, contentHash padDigest (ascii content), ascii content, 1,
    ⟨[], dependencies, links, false, ascii "seen"⟩, true⟩

def entryR : KnowledgeEntry := entry "1" "r" [] [support "2" "a", support "4" "b"]
def entryA : KnowledgeEntry := entry "2" "a" [] [support "3" "a2"]
def entryB : KnowledgeEntry := entry "4" "b" [⟨ascii "file:b", ascii "1"⟩] []

def knowledge : Knowledge where
  entries := [entryR, entryA, entryB]
  observations := []
  poisoned := false
  sorted := by decide
  valid := by decide

def claims : Claims where
  table := ⟨[claim "1" "r" false, claim "2" "a" false, claim "3" "a2" true, claim "4" "b" false],
    by decide, by decide⟩
  knowledge := some knowledge
  storePoisoned := false

/-- The ids of `r` and `a` exchanged. -/
def swap : Bytes → Bytes := Equiv.swap (uuid "1") (uuid "2")

theorem swap_renaming : IsRenaming swap := by
  refine ⟨Equiv.injective _, fun i hi => ?_⟩
  rw [swap, Equiv.swap_apply_def]
  split
  · decide
  · split
    · decide
    · exact hi

def swapped : Claims :=
  renameClaims claims knowledge swap swap_renaming (by decide) [entryA, entryR, entryB] (by decide)
    (by decide)

theorem swapped_renamed : Renamed swap claims swapped := by
  refine ⟨List.Perm.refl (claims.table.recs.map (renameRecord swap)), ?_, rfl⟩
  show ([entryA, entryR, entryB].map (renameEntry swap)).Perm
    ([entryR, entryA, entryB].map (renameEntry swap))
  exact (List.Perm.swap entryR entryA [entryB]).map (renameEntry swap)

end Ambiguous

/-- **The order matters**: the refresh of these records depends on their ids. -/
theorem ambiguous_order : ¬ OrderIndependent padDigest Ambiguous.claims 0 := by
  intro h
  have h1 := h _ _ Ambiguous.swap_renaming Ambiguous.swapped_renamed (Ambiguous.claim "1" "r" false)
    (.head _)
  have h2 : (knowledgeRefresh padDigest Ambiguous.swapped 0).status
      (Ambiguous.swap (Ambiguous.uuid "1")) = .stale := by decide +kernel
  have h3 : (knowledgeRefresh padDigest Ambiguous.claims 0).status (Ambiguous.uuid "1") =
      .unavailable := by decide +kernel
  have h4 : KnowledgeStatus.stale = .unavailable := h2.symm.trans (h1.trans h3)
  cases h4

end Asper
