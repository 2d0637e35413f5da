import Asper.Knowledge.Status
import Asper.Lib.Sweep

/-! # Support propagation

`propagateSupport` is a number of sweeps over the entries (`propagateSupport_eq_rounds`). Two marks
of a status are rule-like with the same rule, `SupportFires`: to be bad and not to be current
(`bad_marks`, `lapsed_marks`). So the passes the code allows always suffice
(`supportPass_propagateSupport`), and what they leave bad or not current does not depend on the
order of the entries. -/

namespace Asper

open Durable (Bytes)
open Sweep

namespace KnowledgeStatus

@[simp] theorem bad_stale : stale.bad = true := rfl
@[simp] theorem bad_contested : contested.bad = true := rfl
@[simp] theorem bad_revoked : revoked.bad = true := rfl
@[simp] theorem bad_unavailable : unavailable.bad = true := rfl
@[simp] theorem bad_unverified : unverified.bad = false := rfl
@[simp] theorem bad_current : current.bad = false := rfl

theorem of_not_bad {s : KnowledgeStatus} (h : s.bad = false) : s = unverified ∨ s = current := by
  cases s <;> simp_all

theorem ne_current_of_bad {s : KnowledgeStatus} (h : s.bad = true) : s ≠ current := by
  rintro rfl
  cases h

end KnowledgeStatus

@[simp] theorem Statuses.set_self (st : Statuses) (id : Bytes) (s : KnowledgeStatus) :
    st.set id s id = s := by
  unfold Statuses.set
  exact Function.update_self id s st

theorem Statuses.set_ne (st : Statuses) {id i : Bytes} (s : KnowledgeStatus) (h : i ≠ id) :
    st.set id s i = st i := by
  unfold Statuses.set
  exact Function.update_of_ne h s st

section
variable {D : Digest} {t : Table}

/-! ## One link -/

/-- The link's target is missing, changed or of `P`. -/
def LinkFires (D : Digest) (t : Table) (P : Bytes → Prop) (l : KnowledgeLink) : Prop :=
  l.kind = .supports ∧ (sameClaim D (t.get l.recordId) l.contentSha256 = false ∨ P l.recordId)

theorem LinkFires.mono {P Q : Bytes → Prop} {l : KnowledgeLink} (h : LinkFires D t P l)
    (hPQ : P l.recordId → Q l.recordId) : LinkFires D t Q l := ⟨h.1, h.2.imp_right hPQ⟩

instance (P : Bytes → Prop) [DecidablePred P] (l : KnowledgeLink) :
    Decidable (LinkFires D t P l) := inferInstanceAs (Decidable (_ ∧ _))

/-- The status a bad link gives its record. -/
def linkLabel (D : Digest) (t : Table) (st : Statuses) (l : KnowledgeLink) : KnowledgeStatus :=
  if !sameClaim D (t.get l.recordId) l.contentSha256 then .stale
  else if st l.recordId = .revoked then .stale else st l.recordId

abbrev Statuses.Bad (st : Statuses) (id : Bytes) : Prop := (st id).bad = true

/-- Not current: unverified or bad. -/
abbrev Statuses.Lapsed (st : Statuses) (id : Bytes) : Prop := st id ≠ .current

theorem supportNext_of_fires {st : Statuses} {l : KnowledgeLink} (own : KnowledgeStatus)
    (h : LinkFires D t st.Bad l) :
    supportNext D t st own l = linkLabel D t st l ∧ (linkLabel D t st l).bad = true := by
  unfold supportNext linkLabel
  cases hs : sameClaim D (t.get l.recordId) l.contentSha256 with
  | false => simp
  | true =>
    have hb : (st l.recordId).bad = true := h.2.resolve_left (by simp [hs])
    simp only [Bool.not_true, Bool.false_eq_true, if_false, hb, if_true, true_and]
    split
    · rfl
    · exact hb

/-- A link that is not bad lowers its record at most to unverified. -/
theorem supportNext_of_not_fires {st : Statuses} {l : KnowledgeLink} (own : KnowledgeStatus)
    (hk : l.kind = .supports) (h : ¬ LinkFires D t st.Bad l) :
    supportNext D t st own l = if st l.recordId = .unverified then .unverified else own := by
  have hs : sameClaim D (t.get l.recordId) l.contentSha256 = true := by
    by_contra hs
    exact h ⟨hk, .inl (by simpa using hs)⟩
  have hb : (st l.recordId).bad = false := by
    by_contra hb
    exact h ⟨hk, .inr (by simpa using hb)⟩
  unfold supportNext
  simp [hs, hb]

/-! ## The links of one entry -/

theorem supportLinks_cons_other {id : Bytes} {st : Statuses} {c : Bool} {l : KnowledgeLink}
    {ls : List KnowledgeLink} (h : l.kind ≠ .supports) :
    supportLinks D t id st c (l :: ls) = supportLinks D t id st c ls := by
  rw [supportLinks, if_pos h]

/-- Writing the status that is there already changes nothing. -/
theorem Statuses.set_eq_self {st : Statuses} {id : Bytes} {s : KnowledgeStatus} (h : s = st id) :
    st.set id s = st := by
  subst h
  exact Function.update_eq_self id st

theorem Statuses.ite_set (st : Statuses) (id : Bytes) (s : KnowledgeStatus) :
    (if s ≠ st id then st.set id s else st) = st.set id s := by
  split
  · rfl
  · next h => exact (st.set_eq_self (not_not.1 h)).symm

/-- The first link that is bad ends the turn. -/
theorem supportLinks_cons_fires {id : Bytes} {st : Statuses} {c : Bool} {l : KnowledgeLink}
    {ls : List KnowledgeLink} (h : LinkFires D t st.Bad l) :
    (supportLinks D t id st c (l :: ls)).1 = st.set id (linkLabel D t st l) := by
  obtain ⟨hn, hb⟩ := supportNext_of_fires (st id) h
  rw [supportLinks, if_neg (not_not.2 h.1)]
  simp only [hn, hb, if_true]
  exact st.ite_set id _

/-- A support link that is not bad may set the record unverified. -/
theorem supportLinks_cons {id : Bytes} {st : Statuses} (c : Bool) {l : KnowledgeLink}
    (ls : List KnowledgeLink) (hid : (st id).bad = false) (hk : l.kind = .supports)
    (h : ¬ LinkFires D t st.Bad l) :
    ∃ c', supportLinks D t id st c (l :: ls) =
      supportLinks D t id
        (if st l.recordId = .unverified then st.set id .unverified else st) c' ls := by
  have hn := supportNext_of_not_fires (st id) hk h
  rw [supportLinks, if_neg (not_not.2 hk)]
  simp only [hn]
  by_cases hu : st l.recordId = .unverified
  · simp only [hu, if_true, KnowledgeStatus.bad_unverified, Bool.false_eq_true, if_false,
      st.ite_set]
    exact ⟨_, rfl⟩
  · simp only [hu, if_false, ne_eq, not_true_eq_false, hid, Bool.false_eq_true]
    exact ⟨_, rfl⟩

theorem supportLinks_other {id i : Bytes} (hi : i ≠ id) : ∀ {ls : List KnowledgeLink}
    {st : Statuses} {c : Bool}, (supportLinks D t id st c ls).1 i = st i
  | [], _, _ => rfl
  | l :: ls, st, c => by
    rw [supportLinks]
    split
    · exact supportLinks_other hi
    · simp only [st.ite_set]
      split
      · exact st.set_ne _ hi
      · rw [supportLinks_other hi, st.set_ne _ hi]

/-- Statuses that differ at the good record `id` only, where they are good too, have the same
bad links. -/
theorem linkFires_congr {st st' : Statuses} {id : Bytes} (h : ∀ i, i ≠ id → st' i = st i)
    (hid : (st id).bad = false) (hid' : (st' id).bad = false) (l : KnowledgeLink) :
    LinkFires D t st'.Bad l ↔ LinkFires D t st.Bad l := by
  have key : st'.Bad l.recordId ↔ st.Bad l.recordId := by
    by_cases he : l.recordId = id
    · rw [Statuses.Bad, Statuses.Bad, he, hid, hid']
    · rw [Statuses.Bad, Statuses.Bad, h _ he]
  exact ⟨fun hl => hl.mono key.1, fun hl => hl.mono key.2⟩

theorem linkLabel_congr {st st' : Statuses} {id : Bytes} (h : ∀ i, i ≠ id → st' i = st i)
    (hid : (st id).bad = false) {l : KnowledgeLink} (hl : LinkFires D t st.Bad l) :
    linkLabel D t st' l = linkLabel D t st l := by
  unfold linkLabel
  rcases hl.2 with hs | hb
  · simp [hs]
  · have hne : l.recordId ≠ id := by
      rintro rfl
      rw [Statuses.Bad, hid] at hb
      cases hb
    rw [h _ hne]

/-- The status the links give a good record of the status `own`: the label of the first bad link,
and unverified when a target is. -/
def supportOwn (D : Digest) (t : Table) (st : Statuses) (own : KnowledgeStatus)
    (ls : List KnowledgeLink) : KnowledgeStatus :=
  match ls.find? fun l => decide (LinkFires D t st.Bad l) with
  | some l => linkLabel D t st l
  | none =>
    if ls.any fun l => decide (l.kind = .supports ∧ st l.recordId = .unverified) then .unverified
    else own

theorem supportOwn_of_find {st : Statuses} {own : KnowledgeStatus} {ls : List KnowledgeLink}
    {l : KnowledgeLink} (h : ls.find? (fun l => decide (LinkFires D t st.Bad l)) = some l) :
    supportOwn D t st own ls = linkLabel D t st l := by
  rw [supportOwn, h]

theorem supportOwn_of_none {st : Statuses} {own : KnowledgeStatus} {ls : List KnowledgeLink}
    (h : ls.find? (fun l => decide (LinkFires D t st.Bad l)) = none) :
    supportOwn D t st own ls =
      if ls.any fun l => decide (l.kind = .supports ∧ st l.recordId = .unverified) then .unverified
      else own := by
  rw [supportOwn, h]

/-- An unverified target met, the record is unverified or worse. -/
theorem supportOwn_unverified {st : Statuses} {id : Bytes} {ls : List KnowledgeLink}
    (hid : (st id).bad = false) :
    supportOwn D t (st.set id .unverified) .unverified ls =
      supportOwn D t st .unverified ls := by
  have hne : ∀ i, i ≠ id → st.set id .unverified i = st i := fun i hi => st.set_ne _ hi
  have hf : ls.find? (fun l => decide (LinkFires D t (st.set id .unverified).Bad l)) =
      ls.find? fun l => decide (LinkFires D t st.Bad l) := by
    congr 1
    funext l
    exact decide_eq_decide.2 (linkFires_congr hne hid (by simp) l)
  cases h : ls.find? fun l => decide (LinkFires D t st.Bad l) with
  | none =>
    rw [supportOwn_of_none (hf.trans h), supportOwn_of_none h, ite_self, ite_self]
  | some l =>
    rw [supportOwn_of_find (hf.trans h), supportOwn_of_find h]
    exact linkLabel_congr hne hid (by simpa using List.find?_some h)

/-- **What the links of an entry do** to its record. -/
theorem supportLinks_own {id : Bytes} : ∀ {ls : List KnowledgeLink} {st : Statuses} {c : Bool},
    (st id).bad = false → (supportLinks D t id st c ls).1 id = supportOwn D t st (st id) ls
  | [], _, _, _ => rfl
  | l :: ls, st, c, hid => by
    by_cases hf : LinkFires D t st.Bad l
    · rw [supportLinks_cons_fires hf, st.set_self, supportOwn, List.find?_cons_of_pos (by simpa)]
    · have hfind : (l :: ls).find? (fun l => decide (LinkFires D t st.Bad l)) =
          ls.find? fun l => decide (LinkFires D t st.Bad l) :=
        List.find?_cons_of_neg (by simpa)
      by_cases hk : l.kind = .supports
      · obtain ⟨c', h⟩ := supportLinks_cons c ls hid hk hf
        rw [h]
        by_cases hu : st l.recordId = .unverified
        · rw [if_pos hu, supportLinks_own (by simp), st.set_self, supportOwn_unverified hid,
            supportOwn, supportOwn, hfind]
          simp [hk, hu]
        · rw [if_neg hu, supportLinks_own hid, supportOwn, supportOwn, hfind]
          simp [hu]
      · rw [supportLinks_cons_other hk, supportLinks_own hid, supportOwn, supportOwn, hfind]
        simp [hk]

theorem linkLabel_bad {st : Statuses} {l : KnowledgeLink} (h : LinkFires D t st.Bad l) :
    (linkLabel D t st l).bad = true := (supportNext_of_fires .current h).2

theorem supportOwn_bad {st : Statuses} {own : KnowledgeStatus} {ls : List KnowledgeLink}
    (ho : own.bad = false) :
    (supportOwn D t st own ls).bad = true ↔ ∃ l ∈ ls, LinkFires D t st.Bad l := by
  cases h : ls.find? fun l => decide (LinkFires D t st.Bad l) with
  | none =>
    rw [supportOwn_of_none h]
    have hn : ∀ l ∈ ls, ¬ LinkFires D t st.Bad l := by simpa using h
    constructor
    · intro hb
      split at hb
      · cases hb
      · rw [ho] at hb
        cases hb
    · rintro ⟨l, hl, hf⟩
      exact absurd hf (hn l hl)
  | some l =>
    have hf : LinkFires D t st.Bad l := by simpa using List.find?_some h
    rw [supportOwn_of_find h]
    exact ⟨fun _ => ⟨l, List.mem_of_find?_eq_some h, hf⟩, fun _ => linkLabel_bad hf⟩

theorem Statuses.lapsed_of_bad {st : Statuses} {id : Bytes} (h : st.Bad id) : st.Lapsed id :=
  KnowledgeStatus.ne_current_of_bad h

theorem supportOwn_lapsed {st : Statuses} {own : KnowledgeStatus} {ls : List KnowledgeLink} :
    supportOwn D t st own ls ≠ .current ↔
      own ≠ .current ∧ (∀ l ∈ ls, ¬ LinkFires D t st.Bad l) ∨
        ∃ l ∈ ls, LinkFires D t st.Lapsed l := by
  cases h : ls.find? fun l => decide (LinkFires D t st.Bad l) with
  | some l =>
    have hf : LinkFires D t st.Bad l := by simpa using List.find?_some h
    rw [supportOwn_of_find h]
    refine ⟨fun _ => .inr ⟨l, List.mem_of_find?_eq_some h, hf.mono st.lapsed_of_bad⟩, fun _ => ?_⟩
    exact KnowledgeStatus.ne_current_of_bad (linkLabel_bad hf)
  | none =>
    have hn : ∀ l ∈ ls, ¬ LinkFires D t st.Bad l := by simpa using h
    rw [supportOwn_of_none h]
    split
    · next ha =>
      obtain ⟨l, hl, hk⟩ := List.any_eq_true.1 ha
      obtain ⟨hk, hu⟩ := of_decide_eq_true hk
      refine ⟨fun _ => .inr ⟨l, hl, hk, .inr ?_⟩, fun _ => by simp⟩
      rw [Statuses.Lapsed, hu]
      simp
    · next ha =>
      refine ⟨fun ho => .inl ⟨ho, hn⟩, fun hc => hc.elim (·.1) ?_⟩
      rintro ⟨l, hl, hk, hs⟩
      exfalso
      -- a lapsed target that is not bad is unverified
      rcases hs with hs | hs
      · exact hn l hl ⟨hk, .inl hs⟩
      · have hb : (st l.recordId).bad = false := by
          by_contra hb
          exact hn l hl ⟨hk, .inr (by simpa using hb)⟩
        have hu := (KnowledgeStatus.of_not_bad hb).resolve_right hs
        exact ha (List.any_eq_true.2 ⟨l, hl, decide_eq_true ⟨hk, hu⟩⟩)

/-! ## One entry -/

/-- The statuses after the turn of one entry. -/
def supportVisit (D : Digest) (t : Table) (st : Statuses) (e : KnowledgeEntry) : Statuses :=
  (supportEntry D t (st, false) e).1

/-- The rule of an entry whose record is in the table. -/
def SupportFires (D : Digest) (t : Table) (P : Bytes → Prop) (e : KnowledgeEntry) : Prop :=
  (t.get e.id).isSome = true ∧ ∃ l ∈ e.grounding.links, LinkFires D t P l

theorem supportLinks_fst {id : Bytes} {c c' : Bool} : ∀ {ls : List KnowledgeLink} {st : Statuses},
    (supportLinks D t id st c ls).1 = (supportLinks D t id st c' ls).1
  | [], _ => rfl
  | l :: ls, st => by
    rw [supportLinks, supportLinks]
    split
    · exact supportLinks_fst
    · simp only
      split
      · rfl
      · split
        · rfl
        · exact supportLinks_fst

theorem supportEntry_fst (st : Statuses) (c : Bool) (e : KnowledgeEntry) :
    (supportEntry D t (st, c) e).1 = supportVisit D t st e := by
  unfold supportVisit supportEntry
  cases t.get e.id with
  | none => rfl
  | some r =>
    simp only
    split
    · rfl
    · exact supportLinks_fst

theorem supportVisit_none {st : Statuses} {e : KnowledgeEntry} (h : t.get e.id = none) :
    supportVisit D t st e = st := by
  unfold supportVisit supportEntry
  rw [h]

theorem supportVisit_bad {st : Statuses} {e : KnowledgeEntry} (h : st.Bad e.id) :
    supportVisit D t st e = st := by
  unfold supportVisit supportEntry
  cases t.get e.id with
  | none => rfl
  | some r => exact congrArg Prod.fst (if_pos h)

theorem supportVisit_own {st : Statuses} {e : KnowledgeEntry} (hr : (t.get e.id).isSome = true)
    (h : (st e.id).bad = false) :
    supportVisit D t st e e.id = supportOwn D t st (st e.id) e.grounding.links := by
  obtain ⟨r, hr⟩ := Option.isSome_iff_exists.1 hr
  unfold supportVisit supportEntry
  rw [hr]
  simp only [h, Bool.false_eq_true, if_false]
  exact supportLinks_own h

theorem supportVisit_other {st : Statuses} {e : KnowledgeEntry} {i : Bytes} (hi : i ≠ e.id) :
    supportVisit D t st e i = st i := by
  unfold supportVisit supportEntry
  cases t.get e.id with
  | none => rfl
  | some r =>
    simp only
    split
    · rfl
    · exact supportLinks_other hi

theorem SupportFires.mono {P Q : Bytes → Prop} {e : KnowledgeEntry} (hPQ : ∀ i, P i → Q i)
    (h : SupportFires D t P e) : SupportFires D t Q e := by
  obtain ⟨hr, l, hl, hf⟩ := h
  exact ⟨hr, l, hl, hf.mono (hPQ _)⟩

/-- To be bad is a rule-like mark. -/
theorem bad_marks (D : Digest) (t : Table) :
    Marks (supportVisit D t) (·.id) (fun s => s.bad = true) (SupportFires D t) where
  mono := SupportFires.mono
  other _ _ _ := supportVisit_other
  own st e := by
    cases hr : t.get e.id with
    | none =>
      rw [supportVisit_none hr]
      exact ⟨.inl, fun h => h.resolve_right fun hf => by simp [SupportFires, hr] at hf⟩
    | some r =>
      have hr : (t.get e.id).isSome = true := by rw [hr]; rfl
      cases hb : (st e.id).bad with
      | true =>
        rw [supportVisit_bad hb, hb]
        simp
      | false =>
        rw [supportVisit_own hr hb, supportOwn_bad hb]
        simp [SupportFires, hr]

/-- Not to be current is a mark of the same rule. -/
theorem lapsed_marks (D : Digest) (t : Table) :
    Marks (supportVisit D t) (·.id) (· ≠ .current) (SupportFires D t) where
  mono := SupportFires.mono
  other _ _ _ := supportVisit_other
  own st e := by
    cases hr : t.get e.id with
    | none =>
      rw [supportVisit_none hr]
      exact ⟨.inl, fun h => h.resolve_right fun hf => by simp [SupportFires, hr] at hf⟩
    | some r =>
      have hr : (t.get e.id).isSome = true := by rw [hr]; rfl
      cases hb : (st e.id).bad with
      | true =>
        rw [supportVisit_bad hb]
        simp [KnowledgeStatus.ne_current_of_bad hb]
      | false =>
        rw [supportVisit_own hr hb, supportOwn_lapsed]
        constructor
        · exact fun h => h.imp (·.1) fun h => ⟨hr, h⟩
        · rintro (h | ⟨-, h⟩)
          · by_cases hf : ∃ l ∈ e.grounding.links, LinkFires D t (Statuses.Bad st) l
            · obtain ⟨l, hl, hf⟩ := hf
              exact .inr ⟨l, hl, hf.mono Statuses.lapsed_of_bad⟩
            · exact .inl ⟨h, fun l hl hf' => hf ⟨l, hl, hf'⟩⟩
          · exact .inr h

/-! ## The passes -/

theorem supportLinks_unchanged {id : Bytes} {c : Bool} : ∀ {ls : List KnowledgeLink}
    {st : Statuses}, (supportLinks D t id st c ls).2 = false →
      c = false ∧ (supportLinks D t id st c ls).1 = st
  | [], _, h => ⟨h, rfl⟩
  | l :: ls, st, h => by
    rw [supportLinks] at h ⊢
    split at h
    · next hk =>
      rw [if_pos hk]
      exact supportLinks_unchanged h
    · next hk =>
      rw [if_neg hk]
      by_cases hn : supportNext D t st (st id) l = st id
      · simp only [hn, ne_eq, not_true_eq_false, if_false] at h ⊢
        split at h
        · next hb =>
          rw [if_pos hb]
          exact ⟨h, rfl⟩
        · next hb =>
          rw [if_neg hb]
          exact supportLinks_unchanged h
      · simp only [hn, ne_eq, not_false_eq_true, if_true] at h
        split at h
        · cases h
        · cases (supportLinks_unchanged h).1

theorem supportEntry_unchanged {st : Statuses} {c : Bool} {e : KnowledgeEntry}
    (h : (supportEntry D t (st, c) e).2 = false) : c = false ∧ supportVisit D t st e = st := by
  rw [← supportEntry_fst st c e]
  unfold supportEntry at h ⊢
  cases hr : t.get e.id with
  | none =>
    rw [hr] at h
    exact ⟨h, rfl⟩
  | some r =>
    rw [hr] at h
    simp only at h ⊢
    split at h
    · next hb =>
      rw [if_pos hb]
      exact ⟨h, rfl⟩
    · next hb =>
      rw [if_neg hb]
      exact supportLinks_unchanged h

theorem supportEntries_fst (c : Bool) : ∀ (es : List KnowledgeEntry) (st : Statuses),
    (es.foldl (supportEntry D t) (st, c)).1 = es.foldl (supportVisit D t) st
  | [], _ => rfl
  | e :: es, st => by
    rw [List.foldl_cons, List.foldl_cons, ← supportEntry_fst st c e]
    exact supportEntries_fst _ es _

theorem supportEntries_unchanged : ∀ (es : List KnowledgeEntry) (st : Statuses) (c : Bool),
    (es.foldl (supportEntry D t) (st, c)).2 = false →
      c = false ∧ es.foldl (supportVisit D t) st = st
  | [], _, _, h => ⟨h, rfl⟩
  | e :: es, st, c, h => by
    rw [List.foldl_cons] at h
    obtain ⟨hc, hs⟩ := supportEntries_unchanged es (supportEntry D t (st, c) e).1
      (supportEntry D t (st, c) e).2 h
    rw [supportEntry_fst] at hs
    obtain ⟨hc, he⟩ := supportEntry_unchanged hc
    refine ⟨hc, ?_⟩
    rw [List.foldl_cons, hs, he]

theorem supportPass_fst (es : List KnowledgeEntry) (st : Statuses) :
    (supportPass D t es st).1 = es.foldl (supportVisit D t) st := supportEntries_fst false es st

theorem rounds_of_fixed {es : List KnowledgeEntry} {st : Statuses}
    (h : es.foldl (supportVisit D t) st = st) (n : Nat) :
    rounds (supportVisit D t) es n st = st := Function.iterate_fixed h n

/-- **The loop is its passes**: a pass that changes nothing may end it. -/
theorem propagateSupport_eq_rounds (es : List KnowledgeEntry) : ∀ (n : Nat) (st : Statuses),
    propagateSupport D t es n st = rounds (supportVisit D t) es n st
  | 0, _ => rfl
  | n + 1, st => by
    have hr : rounds (supportVisit D t) es (n + 1) st =
        rounds (supportVisit D t) es n (es.foldl (supportVisit D t) st) :=
      Function.iterate_succ_apply _ n st
    rw [hr, ← supportPass_fst, propagateSupport]
    simp only
    split
    · exact propagateSupport_eq_rounds es n _
    · next hc =>
      have hs := (supportEntries_unchanged es st false (by simpa [supportPass] using hc)).2
      rw [supportPass_fst, hs, rounds_of_fixed hs]

/-- What propagation keeps: statuses in which no link would change its record. -/
def Settled (D : Digest) (t : Table) (es : List KnowledgeEntry) (st : Statuses) : Prop :=
  ∀ e ∈ es, (SupportFires D t st.Bad e → st.Bad e.id) ∧
    (SupportFires D t st.Lapsed e → st.Lapsed e.id)

theorem settled_propagateSupport (D : Digest) (t : Table) (es : List KnowledgeEntry)
    (st : Statuses) : Settled D t es (propagateSupport D t es es.length st) := by
  intro e he
  rw [propagateSupport_eq_rounds]
  exact ⟨closed_rounds (bad_marks D t) e he, closed_rounds (lapsed_marks D t) e he⟩

section
variable {es : List KnowledgeEntry} {st : Statuses} (h : Settled D t es st)
include h

/-- Every support link of a good record leads to a record as linked, current for a current one. -/
theorem Settled.link {e : KnowledgeEntry} (he : e ∈ es) (hr : (t.get e.id).isSome = true)
    (hb : (st e.id).bad = false) {l : KnowledgeLink} (hl : l ∈ e.grounding.links)
    (hk : l.kind = .supports) :
    sameClaim D (t.get l.recordId) l.contentSha256 = true ∧ (st l.recordId).bad = false ∧
      (st e.id = .current → st l.recordId = .current) := by
  have hnb : ¬ LinkFires D t st.Bad l := by
    intro hf
    have := (h e he).1 ⟨hr, l, hl, hf⟩
    rw [Statuses.Bad, hb] at this
    cases this
  refine ⟨?_, ?_, fun hc => ?_⟩
  · by_contra hs
    exact hnb ⟨hk, .inl (by simpa using hs)⟩
  · by_contra hs
    exact hnb ⟨hk, .inr (by simpa using hs)⟩
  · by_contra hs
    exact (h e he).2 ⟨hr, l, hl, hk, .inr hs⟩ hc

/-- The links of a settled good record change nothing. -/
theorem Settled.supportLinks {e : KnowledgeEntry} (he : e ∈ es)
    (hr : (t.get e.id).isSome = true) (hb : (st e.id).bad = false) (c : Bool) :
    ∀ {ls : List KnowledgeLink}, (∀ l ∈ ls, l ∈ e.grounding.links) →
      supportLinks D t e.id st c ls = (st, c)
  | [], _ => rfl
  | l :: ls, hls => by
    have ih := Settled.supportLinks he hr hb c fun l hl => hls l (.tail _ hl)
    by_cases hk : l.kind = .supports
    · obtain ⟨hs, hlb, hc⟩ := h.link he hr hb (hls l (.head _)) hk
      have hn : supportNext D t st (st e.id) l = st e.id := by
        rw [supportNext_of_not_fires _ hk fun hf => by
          rcases hf.2 with hf | hf
          · rw [hs] at hf; cases hf
          · rw [Statuses.Bad, hlb] at hf; cases hf]
        split
        · next hu =>
          rcases KnowledgeStatus.of_not_bad hb with hv | hv
          · exact hv.symm
          · rw [hc hv] at hu
            cases hu
        · rfl
      rw [Asper.supportLinks, if_neg (not_not.2 hk)]
      simp only [hn, ne_eq, not_true_eq_false, if_false, hb, Bool.false_eq_true]
      exact ih
    · rw [supportLinks_cons_other hk]
      exact ih

/-- **A pass over settled statuses changes nothing.** -/
theorem Settled.supportPass : supportPass D t es st = (st, false) := by
  have key : ∀ {fs : List KnowledgeEntry}, (∀ e ∈ fs, e ∈ es) →
      fs.foldl (supportEntry D t) (st, false) = (st, false) := by
    intro fs hfs
    refine List.foldlRecOn (motive := fun s => s = (st, false)) fs _ rfl fun s hs e he => ?_
    subst hs
    unfold supportEntry
    cases hr : t.get e.id with
    | none => rfl
    | some r =>
      simp only
      split
      · rfl
      · next hb =>
        exact Settled.supportLinks h (hfs e he) (by rw [hr]; rfl) (by simpa using hb) false
          fun _ => id
  exact key fun _ => id

end

/-- **The passes allowed are enough**: one more would change nothing. -/
theorem supportPass_propagateSupport (D : Digest) (t : Table) (es : List KnowledgeEntry)
    (st : Statuses) :
    supportPass D t es (propagateSupport D t es es.length st) =
      (propagateSupport D t es es.length st, false) :=
  (settled_propagateSupport D t es st).supportPass

end

end Asper
