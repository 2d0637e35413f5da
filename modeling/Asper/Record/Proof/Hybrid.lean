import Asper.Record.Hybrid
import Mathlib.Algebra.Order.BigOperators.Group.List
import Mathlib.Analysis.SpecialFunctions.Log.Basic
import Mathlib.Analysis.SpecialFunctions.Sqrt

/-! # Hybrid retrieval is a ranking

A term counts where it is a whole word (`frequency_pos`), a document has a positive score exactly when it
matches in a channel (`fusedHits_spec`), and what is given out is the beginning of the documents of positive
score, sorted (`emit_sorted`, `asperHybridSearch_ranking`). -/

namespace Asper

open Durable

namespace Hybrid

/-! ## Words -/

/-- A text the query may look for: all of it is one word. -/
def Term (t : Bytes) : Prop := t ≠ [] ∧ ∀ c ∈ t, word c = true

theorem termsFrom_term (fuel : Nat) (s : Bytes) {out : List Bytes} (h : ∀ t ∈ out, Term t) :
    ∀ t ∈ termsFrom fuel s out, Term t := by
  induction fuel generalizing s out with
  | zero => exact h
  | succ fuel ih =>
    rw [termsFrom]
    split
    · exact h
    dsimp only
    generalize ha : (s.dropWhile (! word ·)).takeWhile word = a
    split
    · exact ih _ h
    · next hlen =>
      split
      · exact ih _ h
      split
      · exact ih _ h
      refine ih _ fun t ht => ?_
      rcases List.mem_append.1 ht with ht | ht
      · exact h t ht
      · obtain rfl := List.mem_singleton.1 ht
        refine ⟨fun hn => hlen (.inl ?_), fun c hc => ?_⟩
        · rw [hn]
          exact Nat.zero_lt_two
        · rw [← ha] at hc
          exact List.mem_takeWhile_imp hc

theorem terms_term {s t : Bytes} (h : t ∈ terms s) : Term t :=
  termsFrom_term _ _ (fun _ h => absurd h List.not_mem_nil) t h

/-- The term stands at `q` as a whole word. -/
structure WholeAt (s term : Bytes) (q : Nat) : Prop where
  here : term <+: s.drop q
  before : q = 0 ∨ wordAt s (q - 1) = false
  after : wordAt s (q + term.length) = false

theorem WholeAt.room {s term : Bytes} {q : Nat} (h : WholeAt s term q) (ht : term ≠ []) :
    q < s.length := by
  have hlen := h.here.length_le
  rw [List.length_drop] at hlen
  have := List.length_pos_iff.2 ht
  omega

/-- Inside a place where a term stands no other whole word starts. -/
theorem WholeAt.not_inside {s term : Bytes} (ht : Term term) {p q : Nat} (hp : term <+: s.drop p)
    (hq : WholeAt s term q) (hlo : p < q) : p + term.length ≤ q := by
  by_contra hlt
  -- the byte before `q` is one of the term at `p`
  have hin : q - 1 - p < term.length := by omega
  have hget : s[q - 1]? = some term[q - 1 - p] := by
    obtain ⟨r, hr⟩ := hp
    have h1 : (s.drop p)[q - 1 - p]? = some term[q - 1 - p] := by
      rw [← hr, List.getElem?_append_left hin, List.getElem?_eq_getElem hin]
    rw [List.getElem?_drop] at h1
    rw [← h1]
    exact congrArg (s[·]?) (by omega)
  have hword := ht.2 _ (List.getElem_mem hin)
  rcases hq.before with h0 | h0
  · omega
  · rw [wordAt, hget] at h0
    exact absurd (hword.symm.trans h0) (by simp)

theorem frequencyFrom_pos {s term : Bytes} (ht : Term term) :
    ∀ (fuel p n : Nat), s.length + 1 ≤ p + fuel →
      (0 < frequencyFrom s term fuel p n ↔ 0 < n ∨ ∃ q, p ≤ q ∧ WholeAt s term q)
  | 0, p, n, hf => by
    rw [frequencyFrom]
    refine ⟨.inl, fun h => h.resolve_right fun ⟨q, hpq, hq⟩ => ?_⟩
    have := hq.room ht.1
    omega
  | fuel + 1, p, n, hf => by
    rw [frequencyFrom]
    have hlen := List.length_pos_iff.2 ht.1
    cases hs : strstr term (s.drop p) with
    | none =>
      dsimp only
      refine ⟨.inl, fun h => h.resolve_right fun ⟨q, hpq, hq⟩ => ?_⟩
      have hroom := hq.room ht.1
      refine strstr_eq_none hs (q - p) (by rw [List.length_drop]; omega) ?_
      rw [List.drop_drop, show p + (q - p) = q by omega]
      exact hq.here
    | some i =>
      dsimp only
      obtain ⟨hat, hfirst⟩ := strstr_some hs
      rw [List.drop_drop] at hat
      rw [frequencyFrom_pos ht fuel _ _ (by omega)]
      -- a whole word from `p` on is the one at `p + i` or stands behind it
      have hsplit : (∃ q, p ≤ q ∧ WholeAt s term q) ↔
          WholeAt s term (p + i) ∨ ∃ q, p + i + term.length ≤ q ∧ WholeAt s term q := by
        constructor
        · rintro ⟨q, hpq, hq⟩
          rcases Nat.lt_trichotomy q (p + i) with hlt | rfl | hgt
          · refine absurd hq.here fun hc => hfirst (q - p) (by omega) ?_
            rw [List.drop_drop, show p + (q - p) = q by omega]
            exact hc
          · exact .inl hq
          · exact .inr ⟨q, hq.not_inside ht hat hgt, hq⟩
        · rintro (hq | ⟨q, hpq, hq⟩)
          · exact ⟨_, Nat.le_add_right _ _, hq⟩
          · exact ⟨q, by omega, hq⟩
      rw [hsplit]
      by_cases hw : (p + i = 0 ∨ wordAt s (p + i - 1) = false) ∧ wordAt s (p + i + term.length) = false
      · rw [if_pos hw]
        have hwhole : WholeAt s term (p + i) := ⟨hat, hw.1, hw.2⟩
        exact ⟨fun _ => .inr (.inl hwhole), fun _ => .inl (Nat.succ_pos n)⟩
      · rw [if_neg hw]
        have hno : ¬ WholeAt s term (p + i) := fun h => hw ⟨h.before, h.after⟩
        rw [or_iff_right hno]

theorem wordAt_false {s : Bytes} {i : Nat} :
    wordAt s i = false ↔ ∀ c, s[i]? = some c → word c = false := by
  rw [wordAt]
  cases s[i]? with
  | none => simp
  | some b => simp

theorem wholeAt_iff {s term : Bytes} (ht : term ≠ []) : (∃ q, WholeAt s term q) ↔ HasToken s term := by
  constructor
  · rintro ⟨q, hq⟩
    have hroom := hq.room ht
    obtain ⟨r, hr⟩ := hq.here
    have hs : s = s.take q ++ term ++ r := by rw [List.append_assoc, hr, List.take_append_drop]
    have hlen : (s.take q).length = q := by rw [List.length_take]; omega
    refine ⟨s.take q, r, hs, fun c hc => ?_, fun c hc => ?_⟩
    · rw [List.getLast?_eq_getElem?, hlen] at hc
      rcases hq.before with rfl | h
      · cases hc
      · have hpos : 0 < q := Nat.pos_of_ne_zero fun h0 => by
          rw [h0] at hc
          cases hc
        rw [List.getElem?_take_of_lt (by omega)] at hc
        exact wordAt_false.1 h c hc
    · refine wordAt_false.1 hq.after c ?_
      rw [← hc, List.head?_eq_getElem?, hs, List.getElem?_append_right (by simp [hlen])]
      exact congrArg (r[·]?) (by rw [List.length_append, hlen]; omega)
  · rintro ⟨a, b, rfl, ha, hb⟩
    refine ⟨a.length, ?_, ?_, wordAt_false.2 fun c hc => hb c ?_⟩
    · rw [List.append_assoc, List.drop_left]
      exact List.prefix_append term b
    · rcases List.eq_nil_or_concat a with rfl | ⟨l, x, rfl⟩
      · exact .inl rfl
      · refine .inr (wordAt_false.2 fun c hc => ha c ?_)
        rw [List.getLast?_eq_getElem?, ← hc, List.append_assoc, List.getElem?_append_left (by simp)]
    · rw [← hc, List.head?_eq_getElem?, List.getElem?_append_right (by simp)]
      exact congrArg (b[·]?) (by rw [List.length_append]; omega)

/-- A term is counted exactly where it is a whole word. -/
theorem frequency_pos {s : CStr} {term : Bytes} (ht : Term term) :
    0 < frequency (some s) term ↔ HasToken s.val term := by
  rw [frequency, frequencyFrom_pos ht _ _ _ (by omega), ← wholeAt_iff ht.1]
  simp

/-! ## The scores of one document -/

theorem lt_iff_or {K : Type} [LinearOrder K] {a b c : K} (hab : a ≤ b) (hbc : b ≤ c) : a < c ↔ a < b ∨ b < c := by
  constructor
  · intro hac
    by_cases hlt : a < b
    · exact .inl hlt
    · exact .inr (lt_of_le_of_lt (le_of_not_gt hlt) hac)
  · rintro (hlt | hlt)
    · exact lt_of_lt_of_le hlt hbc
    · exact lt_of_le_of_lt hab hlt

section
variable {K : Type} [LinearOrder K] {dim : Nat} {d : SearchDocument K dim}

/-- What the loop over the terms adds. -/
structure Scored (d : SearchDocument K dim) (ts : List Bytes) (h h' : SearchHit K) : Prop where
  index : h'.index = h.index
  score : h'.score = h.score
  vector : h'.vector = h.vector
  bm25 : h.bm25 ≤ h'.bm25
  bm25_pos : h.bm25 < h'.bm25 ↔ ∃ t ∈ ts, 0 < frequency (some d.body) t
  exact : h.exact ≤ h'.exact
  exact_pos : h.exact < h'.exact ↔ ∃ t ∈ ts, 0 < frequency d.symbols t

theorem Scored.append {ts ts' : List Bytes} {h h' h'' : SearchHit K} (h1 : Scored d ts h h')
    (h2 : Scored d ts' h' h'') : Scored d (ts ++ ts') h h'' where
  index := h2.index.trans h1.index
  score := h2.score.trans h1.score
  vector := h2.vector.trans h1.vector
  bm25 := h1.bm25.trans h2.bm25
  bm25_pos := by
    simp only [lt_iff_or h1.bm25 h2.bm25, h1.bm25_pos, h2.bm25_pos, List.mem_append, or_and_right,
      exists_or]
  exact := h1.exact.trans h2.exact
  exact_pos := by
    simp only [lt_iff_or h1.exact h2.exact, h1.exact_pos, h2.exact_pos, List.mem_append, or_and_right,
      exists_or]

end

section
variable {K : Type} [Field K] [LinearOrder K] [IsStrictOrderedRing K] {F : Functions K} {dim : Nat}
  {docs : List (SearchDocument K dim)} {d : SearchDocument K dim} {query : CStr}
  {qv : Option (Fin dim → K)}

/-- The logarithm is positive above one. -/
def Functions.Good (F : Functions K) : Prop := ∀ x, 1 < x → 0 < F.log x

theorem length_pos (s : Bytes) : 0 < length s := by
  rw [length]
  split <;> omega

theorem averageLength_pos (hd : d ∈ docs) : 0 < averageLength docs := by
  have hne : docs.map (fun d => (length d.body.val : K)) ≠ [] := by
    rw [Ne, List.map_eq_nil_iff]
    exact List.ne_nil_of_mem hd
  have hlen : (0 : K) < docs.length := Nat.cast_pos.2 (List.length_pos_of_mem hd)
  refine div_pos (List.sum_pos _ (fun x hx => ?_) hne) hlen
  obtain ⟨e, -, rfl⟩ := List.mem_map.1 hx
  exact Nat.cast_pos.2 (length_pos _)

theorem bm25Term_pos (hF : F.Good) (hd : d ∈ docs) {t : Bytes} (ht : 0 < frequency (some d.body) t) :
    0 < bm25Term F docs d t := by
  have hdf : (documentFrequency docs t : K) ≤ docs.length := Nat.cast_le.2 List.countP_le_length
  have hdf0 : (0 : K) ≤ documentFrequency docs t := Nat.cast_nonneg _
  have htf : (0 : K) < frequency (some d.body) t := Nat.cast_pos.2 ht
  have hlen : (0 : K) < length d.body.val := Nat.cast_pos.2 (length_pos _)
  have havg := averageLength_pos hd
  rw [bm25Term]
  have hlog : 0 < F.log (1 + ((docs.length : K) - documentFrequency docs t + 1 / 2) /
      (documentFrequency docs t + 1 / 2)) := by
    refine hF _ (lt_add_of_pos_right _ (div_pos ?_ (by positivity)))
    linarith [show (0 : K) < 1 / 2 by positivity]
  positivity

theorem scoreTerm_scored (hF : F.Good) (hd : d ∈ docs) (h : SearchHit K × Nat) (t : Bytes) :
    Scored d [t] h.1 (scoreTerm F docs d h t).1 := by
  have hpos := bm25Term_pos hF hd (t := t)
  rw [scoreTerm]
  by_cases hb : frequency (some d.body) t = 0 <;> by_cases hs : frequency d.symbols t = 0
  · rw [if_neg (not_not.2 hb), if_neg (not_not.2 hs)]
    exact ⟨rfl, rfl, rfl, le_refl _, by simp [hb], le_refl _, by simp [hs]⟩
  · rw [if_neg (not_not.2 hb), if_pos hs]
    exact ⟨rfl, rfl, rfl, le_refl _, by simp [hb], by simp, by simp [Nat.pos_iff_ne_zero, hs]⟩
  · have hadd := hpos (Nat.pos_iff_ne_zero.2 hb)
    rw [if_pos hb, if_neg (not_not.2 hs)]
    exact ⟨rfl, rfl, rfl, by simp [hadd.le], by simp [Nat.pos_iff_ne_zero, hb, hadd], le_refl _,
      by simp [hs]⟩
  · have hadd := hpos (Nat.pos_iff_ne_zero.2 hb)
    rw [if_pos hb, if_pos hs]
    exact ⟨rfl, rfl, rfl, by simp [hadd.le], by simp [Nat.pos_iff_ne_zero, hb, hadd], by simp,
      by simp [Nat.pos_iff_ne_zero, hs]⟩

theorem foldl_scoreTerm (hF : F.Good) (hd : d ∈ docs) (ts : List Bytes) (h : SearchHit K × Nat) :
    Scored d ts h.1 (ts.foldl (scoreTerm F docs d) h).1 := by
  induction ts generalizing h with
  | nil => exact ⟨rfl, rfl, rfl, le_refl _, by simp, le_refl _, by simp⟩
  | cons t ts ih => exact (scoreTerm_scored hF hd h t).append (ih _)

theorem pathMatches_iff {path : Option CStr} : pathMatches query path = true ↔
    ∃ p, path = some p ∧ p.val ≠ [] ∧ p.val <:+: query.val := by
  cases path with
  | none => simp [pathMatches]
  | some p => simp [pathMatches, strstr_isSome]

/-- What is known of the scores of a document before they are fused. -/
structure DocumentScored (F : Functions K) (query : CStr) (qv : Option (Fin dim → K)) (i : Nat)
    (d : SearchDocument K dim) (h : SearchHit K) : Prop where
  index : h.index = i
  score : h.score = 0
  exact : 0 ≤ h.exact
  coverage : 0 ≤ h.coverage
  channel : ∀ c : Channel, c.threshold < c.value h ↔ Matches F query qv d c

theorem symbols_iff {symbols : Option CStr} : (∃ t ∈ terms query.val, 0 < frequency symbols t) ↔
    ∃ s, symbols = some s ∧ ∃ t ∈ terms query.val, HasToken s.val t := by
  cases symbols with
  | none => simp [frequency]
  | some s =>
    constructor
    · rintro ⟨t, ht, hpos⟩
      exact ⟨s, rfl, t, ht, (frequency_pos (terms_term ht)).1 hpos⟩
    · rintro ⟨s', hs, t, ht, htok⟩
      obtain rfl := Option.some.inj hs
      exact ⟨t, ht, (frequency_pos (terms_term ht)).2 htok⟩

theorem scoreDocument_scored (hF : F.Good) (hd : d ∈ docs) (i : Nat) :
    DocumentScored F query qv i d (scoreDocument F docs query qv i d) := by
  have hr := foldl_scoreTerm hF hd (terms query.val) (⟨i, 0, 0, similarity F qv d.vector, 0, 0⟩, 0)
  rw [scoreDocument]
  dsimp only
  generalize (terms query.val).foldl (scoreTerm F docs d) _ = r at hr ⊢
  obtain ⟨h, cover⟩ := r
  dsimp only at hr ⊢
  have hbm : 0 < h.bm25 ↔ Matches F query qv d .bm25 := by
    rw [hr.bm25_pos, Matches]
    exact exists_congr fun t => and_congr_right fun ht => frequency_pos (terms_term ht)
  have hex : 0 < h.exact ↔ _ := hr.exact_pos.trans symbols_iff
  have hex0 : 0 ≤ h.exact := hr.exact
  have hcover : (0 : K) ≤
      if terms query.val = [] then 0 else (cover : K) / ((terms query.val).length : K) := by
    split
    · exact le_refl _
    · exact div_nonneg (Nat.cast_nonneg _) (Nat.cast_nonneg _)
  have hphrase : (strstr query.val d.body.val).isSome = true ↔ query.val <:+: d.body.val := strstr_isSome
  have h4 : (0 : K) < 4 := by positivity
  have h2 : (0 : K) < 2 := by positivity
  have key : ∀ e : K, 0 ≤ e → (0 < e ↔ Matches F query qv d .exact) →
      DocumentScored F query qv i d { h with
        exact := e
        coverage := if terms query.val = [] then 0
          else (cover : K) / ((terms query.val).length : K) } := by
    intro e he hmatch
    refine ⟨hr.index, hr.score, he, hcover, fun c => ?_⟩
    cases c with
    | bm25 => exact hbm
    | vector =>
      show 1 / 4 < h.vector ↔ _
      rw [hr.vector]
      exact Iff.rfl
    | exact => exact hmatch
  by_cases hp : pathMatches query d.path = true
  · have hm : Matches F query qv d .exact := .inr (.inl (pathMatches_iff.1 hp))
    rw [if_pos hp]
    split
    · exact key _ (by positivity) ⟨fun _ => hm, fun _ => by positivity⟩
    · exact key _ (by positivity) ⟨fun _ => hm, fun _ => by positivity⟩
  · rw [if_neg hp]
    split
    · next hq =>
      have hm : Matches F query qv d .exact := .inr (.inr ⟨hq.1, hphrase.1 hq.2⟩)
      exact key _ (by positivity) ⟨fun _ => hm, fun _ => by positivity⟩
    · next hq =>
      refine key _ hex0 (hex.trans ⟨.inl, fun hm => ?_⟩)
      rcases hm with hm | hm | hm
      · exact hm
      · exact absurd (pathMatches_iff.2 hm) hp
      · exact absurd ⟨hm.1, hphrase.2 hm.2⟩ hq

end

/-! ## Fusion -/

section
variable {K : Type}

/-- Every hit is at its index. -/
def Indexed (h : List (SearchHit K)) : Prop :=
  ∀ (i : Nat) (x : SearchHit K), h[i]? = some x → x.index = i

theorem Indexed.map_index {h : List (SearchHit K)} (hi : Indexed h) :
    h.map (·.index) = List.range h.length := by
  refine List.ext_getElem (by simp) fun i h1 h2 => ?_
  rw [List.length_map] at h1
  rw [List.getElem_map, List.getElem_range]
  exact hi i _ (List.getElem?_eq_getElem h1)

end

section
variable {K : Type} [LinearOrder K]

theorem ranked_total (x y : SearchHit K) : ranked x y ∨ ranked y x := by
  unfold ranked
  rcases lt_trichotomy x.score y.score with h | h | h
  · exact .inr (.inl h)
  · exact (Nat.le_total x.index y.index).imp (fun hi => .inr ⟨h, hi⟩) fun hi => .inr ⟨h.symm, hi⟩
  · exact .inl (.inl h)

theorem ranked_trans {x y z : SearchHit K} (h : ranked x y) (h' : ranked y z) : ranked x z := by
  rcases h with h | ⟨h, hi⟩
  · rcases h' with h' | ⟨h', -⟩
    · exact .inl (h'.trans h)
    · exact .inl (h' ▸ h)
  · rcases h' with h' | ⟨h', hi'⟩
    · exact .inl (h ▸ h')
    · exact .inr ⟨h.trans h', hi.trans hi'⟩

instance : Std.Total (ranked (K := K)) := ⟨ranked_total⟩

instance : IsTrans (SearchHit K) ranked := ⟨fun _ _ _ => ranked_trans⟩

end

section
variable {K : Type} [Field K] [LinearOrder K]

def addScore (w : K) (x : SearchHit K) : SearchHit K := { x with score := x.score + w }

theorem addScore_zero (x : SearchHit K) : addScore 0 x = x := by
  rw [addScore, add_zero]

theorem foldl_credit (c : Channel) {rs : List (SearchHit K × Nat)}
    (hrs : (rs.map (·.1.index)).Nodup) (h : List (SearchHit K)) (i : Nat) :
    (rs.foldl c.credit h)[i]? = (h[i]?).map (addScore (creditOf c rs i)) := by
  induction rs generalizing h with
  | nil =>
    rw [List.foldl_nil, show creditOf c ([] : List (SearchHit K × Nat)) i = 0 from rfl,
      funext addScore_zero]
    simp
  | cons r rs ih =>
    obtain ⟨hnew, hrest⟩ := List.nodup_cons.1 hrs
    rw [List.foldl_cons, ih hrest]
    by_cases hr : r.1.index = i
    · -- the place of the document itself; no later place is its
      have hlater : creditOf c rs i = 0 := by
        have hnone : rs.find? (·.1.index = i) = none := List.find?_eq_none.2 fun q hq he =>
          hnew (List.mem_map.2 ⟨q, hq, (of_decide_eq_true he).trans hr.symm⟩)
        rw [creditOf, hnone]
      have hnow : creditOf c (r :: rs) i = if c.threshold < r.1.score then 1 / (61 + (r.2 : K)) else 0 := by
        rw [creditOf, List.find?_cons_of_pos (by simpa using hr)]
      rw [hlater, hnow, funext addScore_zero, Channel.credit]
      split
      · rw [hr, List.getElem?_modify_eq]
        cases h[i]? <;> rfl
      · rw [funext addScore_zero]
    · have hnow : creditOf c (r :: rs) i = creditOf c rs i := by
        rw [creditOf, List.find?_cons_of_neg (by simpa using hr), creditOf]
      rw [hnow, Channel.credit]
      split
      · rw [List.getElem?_modify_ne _ _ hr]
      · rfl

theorem length_foldl_credit (c : Channel) (rs : List (SearchHit K × Nat)) (h : List (SearchHit K)) :
    (rs.foldl c.credit h).length = h.length := by
  induction rs generalizing h with
  | nil => rfl
  | cons r rs ih =>
    rw [List.foldl_cons, ih, Channel.credit]
    split
    · exact List.length_modify ..
    · rfl

end

section
variable {K : Type} [Field K] [LinearOrder K] [IsStrictOrderedRing K]

/-- **One channel** adds to the scores of the documents above its threshold, and to no other. -/
theorem fuse_spec (c : Channel) {h : List (SearchHit K)} (hi : Indexed h) :
    (c.fuse h).length = h.length ∧ ∀ (i : Nat) (x : SearchHit K), h[i]? = some x →
      ∃ w : K, (c.fuse h)[i]? = some (addScore w x) ∧ 0 ≤ w ∧
        (0 < w ↔ c.threshold < c.value x) := by
  have hperm : (c.rank h).Perm (h.map fun x => { x with score := c.value x }) :=
    List.perm_insertionSort _ _
  have hindex : ((c.rank h).zipIdx.map (·.1.index)).Nodup := by
    have hmap : (c.rank h).zipIdx.map (·.1.index) = (c.rank h).map (·.index) := by
      conv_rhs => rw [← List.zipIdx_map_fst 0 (c.rank h), List.map_map]
      rfl
    rw [hmap, (hperm.map _).nodup_iff, List.map_map]
    exact hi.map_index ▸ List.nodup_range
  refine ⟨length_foldl_credit c _ h, fun i x hx => ⟨creditOf c (c.rank h).zipIdx i, ?_, ?_⟩⟩
  · rw [Channel.fuse, foldl_credit c hindex, hx]
    rfl
  -- the place of the document in the ranking
  have hmem : ({ x with score := c.value x } : SearchHit K) ∈ c.rank h :=
    hperm.mem_iff.2 (List.mem_map.2 ⟨x, List.mem_of_getElem? hx, rfl⟩)
  have hxi : x.index = i := hi i x hx
  obtain ⟨p, hp⟩ := List.getElem?_of_mem hmem
  have hplace : (({ x with score := c.value x } : SearchHit K), p) ∈ (c.rank h).zipIdx :=
    List.mem_zipIdx_iff_getElem?.2 hp
  cases hf : (c.rank h).zipIdx.find? (·.1.index = i) with
  | none => exact absurd (decide_eq_true hxi) (List.find?_eq_none.1 hf _ hplace)
  | some r =>
    have hr : r.1.index = i := by simpa using List.find?_some hf
    have hrscore : r.1.score = c.value x := by
      have hrmem := List.mem_zipIdx_iff_getElem?.1 (List.mem_of_find?_eq_some hf)
      obtain ⟨y, hy, hyr⟩ := List.mem_map.1 (hperm.mem_iff.1 (List.mem_of_getElem? hrmem))
      obtain ⟨j, hj⟩ := List.getElem?_of_mem hy
      have hyi : y.index = i := by
        rw [← hr, ← hyr]
      have hji : j = i := (hi j y hj).symm.trans hyi
      rw [hji, hx] at hj
      rw [← hyr, Option.some.inj hj]
    have hw : creditOf c (c.rank h).zipIdx i =
        if c.threshold < c.value x then 1 / (61 + (r.2 : K)) else 0 := by
      rw [creditOf, hf]
      dsimp only
      rw [hrscore]
    have hpos : (0 : K) < 1 / (61 + (r.2 : K)) := by positivity
    rw [hw]
    split
    · next ht => exact ⟨hpos.le, fun _ => ht, fun _ => hpos⟩
    · next ht => exact ⟨le_refl _, fun h0 => absurd h0 (lt_irrefl _), fun h0 => absurd h0 ht⟩

theorem value_addScore (c : Channel) (w : K) (x : SearchHit K) : c.value (addScore w x) = c.value x := by
  cases c <;> rfl

theorem Indexed.fuse {c : Channel} {h : List (SearchHit K)} (hi : Indexed h) : Indexed (c.fuse h) := by
  obtain ⟨hlen, hspec⟩ := fuse_spec c hi
  intro i y hy
  have hil : i < h.length := by
    rw [← hlen]
    exact (List.getElem?_eq_some_iff.1 hy).1
  obtain ⟨w, hw, -⟩ := hspec i h[i] (List.getElem?_eq_getElem hil)
  rw [← Option.some.inj (hw.symm.trans hy)]
  exact hi i h[i] (List.getElem?_eq_getElem hil)

/-- All channels: the score is positive exactly when the document is above the threshold of one. -/
theorem fuseAll_spec {h : List (SearchHit K)} (hi : Indexed h) (cs : List Channel) :
    (cs.foldl (fun h c => c.fuse h) h).length = h.length ∧ ∀ (i : Nat) (x : SearchHit K),
      h[i]? = some x → ∃ w : K, (cs.foldl (fun h c => c.fuse h) h)[i]? = some (addScore w x) ∧ 0 ≤ w ∧
        (0 < w ↔ ∃ c ∈ cs, c.threshold < c.value x) := by
  induction cs generalizing h with
  | nil =>
    refine ⟨rfl, fun i x hx => ⟨0, ?_, le_refl _, by simp⟩⟩
    rw [addScore_zero]
    exact hx
  | cons c cs ih =>
    obtain ⟨hlen, hspec⟩ := fuse_spec c hi
    obtain ⟨hlen', hspec'⟩ := ih hi.fuse
    refine ⟨hlen'.trans hlen, fun i x hx => ?_⟩
    obtain ⟨w, hw, hw0, hwpos⟩ := hspec i x hx
    obtain ⟨w', hw', hw0', hwpos'⟩ := hspec' i _ hw
    refine ⟨w + w', ?_, add_nonneg hw0 hw0', ?_⟩
    · rw [List.foldl_cons, hw', addScore, addScore, addScore]
      dsimp only
      rw [add_assoc]
    · simp only [value_addScore] at hwpos'
      rw [List.exists_mem_cons_iff, ← hwpos, ← hwpos']
      constructor
      · intro hpos
        by_cases hz : 0 < w
        · exact .inl hz
        · have hw_zero : w = 0 := le_antisymm (le_of_not_gt hz) hw0
          rw [hw_zero, zero_add] at hpos
          exact .inr hpos
      · rintro (hpos | hpos)
        · exact add_pos_of_pos_of_nonneg hpos hw0'
        · exact add_pos_of_nonneg_of_pos hw0 hpos

variable {F : Functions K} {dim : Nat} {docs : List (SearchDocument K dim)} {query : CStr}
  {qv : Option (Fin dim → K)}

/-- The fused score of the document `i`. -/
def fusedScore (F : Functions K) (docs : List (SearchDocument K dim)) (query : CStr)
    (qv : Option (Fin dim → K)) (i : Nat) : K :=
  match (fusedHits F docs query qv)[i]? with
  | some x => x.score
  | none => 0

/-- **A document has a positive score** exactly when it matches in a channel. -/
theorem fusedHits_spec (hF : F.Good) :
    (fusedHits F docs query qv).length = docs.length ∧ Indexed (fusedHits F docs query qv) ∧
      ∀ i d, docs[i]? = some d →
        (0 < fusedScore F docs query qv i ↔ ∃ c, Matches F query qv d c) := by
  generalize hstart : docs.zipIdx.map (fun d => scoreDocument F docs query qv d.2 d.1) = h
  have hlen : h.length = docs.length := by rw [← hstart, List.length_map, List.length_zipIdx]
  have hget : ∀ (i : Nat) (d : SearchDocument K dim), docs[i]? = some d →
      h[i]? = some (scoreDocument F docs query qv i d) := fun i d hd => by
    rw [← hstart, List.getElem?_map, List.getElem?_zipIdx, hd]
    simp
  have hscored : ∀ (i : Nat) (d : SearchDocument K dim), docs[i]? = some d →
      DocumentScored F query qv i d (scoreDocument F docs query qv i d) := fun i d hd =>
    scoreDocument_scored hF (List.mem_of_getElem? hd) i
  have hdoc : ∀ (i : Nat), i < docs.length → ∃ d, docs[i]? = some d := fun i hi =>
    ⟨docs[i], List.getElem?_eq_getElem hi⟩
  have hi : Indexed h := fun i x hx => by
    obtain ⟨d, hd⟩ := hdoc i (hlen ▸ (List.getElem?_eq_some_iff.1 hx).1)
    rw [← Option.some.inj ((hget i d hd).symm.trans hx)]
    exact (hscored i d hd).index
  obtain ⟨hlen', hspec⟩ := fuseAll_spec hi [Channel.bm25, .vector, .exact]
  have hfused : fusedHits F docs query qv =
      ([Channel.bm25, .vector, .exact].foldl (fun h c => c.fuse h) h).map bonus := by
    rw [fusedHits, hstart]
  have hat : ∀ (i : Nat) (d : SearchDocument K dim), docs[i]? = some d → ∃ w : K,
      (fusedHits F docs query qv)[i]? = some (bonus (addScore w (scoreDocument F docs query qv i d))) ∧
      (0 < w ↔ ∃ c, Matches F query qv d c) := fun i d hd => by
    obtain ⟨w, hw, -, hpos⟩ := hspec i _ (hget i d hd)
    refine ⟨w, by rw [hfused, List.getElem?_map, hw]; rfl, hpos.trans ?_⟩
    constructor
    · rintro ⟨c, -, hc⟩
      exact ⟨c, ((hscored i d hd).channel c).1 hc⟩
    · rintro ⟨c, hc⟩
      exact ⟨c, by cases c <;> simp, ((hscored i d hd).channel c).2 hc⟩
  have hbonus : ∀ x : SearchHit K, (bonus x).index = x.index := fun x => by
    rw [bonus]
    split <;> rfl
  have hsame : (fusedHits F docs query qv).length = docs.length := by
    rw [hfused, List.length_map, hlen', hlen]
  refine ⟨hsame, fun i x hx => ?_, fun i d hd => ?_⟩
  · obtain ⟨d, hd⟩ := hdoc i (hsame ▸ (List.getElem?_eq_some_iff.1 hx).1)
    obtain ⟨w, hw, -⟩ := hat i d hd
    rw [← Option.some.inj (hw.symm.trans hx), hbonus]
    exact (hscored i d hd).index
  · obtain ⟨w, hw, hpos⟩ := hat i d hd
    have hs := hscored i d hd
    rw [fusedScore, hw]
    dsimp only
    rw [← hpos, bonus]
    have hscore : (addScore w (scoreDocument F docs query qv i d)).score = w := by
      rw [addScore]
      dsimp only
      rw [hs.score, zero_add]
    rw [hscore]
    split
    · next hw0 =>
      refine ⟨fun _ => hw0, fun _ => ?_⟩
      have hcov : 0 ≤ (addScore w (scoreDocument F docs query qv i d)).coverage := hs.coverage
      have hex : 0 ≤ (addScore w (scoreDocument F docs query qv i d)).exact := hs.exact
      dsimp only
      positivity
    · rw [hscore]

end

/-! ## What is given out -/

section
variable {K : Type} [Field K] [LinearOrder K]

/-- The document `i` comes before the document `j`. -/
def ahead (f : Nat → K) (i j : Nat) : Prop := f j < f i ∨ f i = f j ∧ i ≤ j

instance (f : Nat → K) : DecidableRel (ahead f) := fun _ _ => inferInstanceAs (Decidable (_ ∨ _))

/-- The documents of positive score, the best first. -/
def ranking (n : Nat) (f : Nat → K) : List Nat :=
  ((List.range n).filter fun i => 0 < f i).insertionSort (ahead f)

/-- A hit with no more than an index and its score. -/
def bareHit (f : Nat → K) (i : Nat) : SearchHit K := ⟨i, f i, 0, 0, 0, 0⟩

instance (f : Nat → K) : Std.Total (ahead f) := ⟨fun i j => ranked_total (bareHit f i) (bareHit f j)⟩

instance (f : Nat → K) : IsTrans Nat (ahead f) :=
  ⟨fun i j l => ranked_trans (x := bareHit f i) (y := bareHit f j) (z := bareHit f l)⟩

theorem ahead_antisymm {f : Nat → K} {i j : Nat} (h : ahead f i j) (h' : ahead f j i) : i = j := by
  rcases h with h | ⟨he, hi⟩
  · rcases h' with h' | ⟨he', -⟩
    · exact absurd h' (lt_asymm h)
    · exact absurd he' h.ne
  · rcases h' with h' | ⟨-, hi'⟩
    · exact absurd he h'.ne
    · exact Nat.le_antisymm hi hi'

theorem mem_ranking {n : Nat} {f : Nat → K} {i : Nat} : i ∈ ranking n f ↔ i < n ∧ 0 < f i := by
  rw [ranking, List.mem_insertionSort, List.mem_filter, List.mem_range, decide_eq_true_eq]

theorem length_ranking (n : Nat) (f : Nat → K) :
    (ranking n f).length = (List.range n).countP fun i => 0 < f i := by
  rw [ranking, List.length_insertionSort, List.countP_eq_length_filter]

theorem nodup_ranking (n : Nat) (f : Nat → K) : (ranking n f).Nodup :=
  (List.perm_insertionSort _ _).nodup_iff.2 (List.nodup_range.filter _)

theorem emit_sorted {l : List (SearchHit K)} (h : l.Pairwise ranked) (k : Nat) :
    emit k l = (l.filter fun x => 0 < x.score).take k := by
  induction l generalizing k with
  | nil => cases k <;> rfl
  | cons x l ih =>
    obtain ⟨hx, hl⟩ := List.pairwise_cons.1 h
    cases k with
    | zero => rfl
    | succ k =>
      rw [emit]
      by_cases hpos : 0 < x.score
      · rw [if_pos hpos, List.filter_cons_of_pos (by simpa using hpos), List.take_succ_cons, ih hl]
      · -- none of the others is positive
        have hnone : l.filter (fun x => 0 < x.score) = [] := List.filter_eq_nil_iff.2 fun y hy => by
          have hle : y.score ≤ x.score := (hx y hy).elim le_of_lt fun he => he.1.ge
          simpa using hle.trans (le_of_not_gt hpos)
        rw [if_neg hpos, List.filter_cons_of_neg (by simpa using hpos), hnone, List.take_nil]

/-- Sorted hits of positive score are in the order of the ranking. -/
theorem sorted_ranking {h : List (SearchHit K)} (hi : Indexed h) {f : Nat → K}
    (hf : ∀ x ∈ h, x.score = f x.index) :
    ((h.insertionSort ranked).filter fun x => 0 < x.score).map (·.index) = ranking h.length f := by
  have hperm := List.perm_insertionSort (ranked (K := K)) h
  refine @List.Perm.eq_of_pairwise _ (ahead f) _ _ (fun a b _ _ => ahead_antisymm) ?_
    (List.pairwise_insertionSort _ _) ?_
  · rw [List.pairwise_map]
    refine List.Pairwise.imp_of_mem (fun {x y} hx hy hxy => ?_)
      ((List.pairwise_insertionSort ranked h).sublist List.filter_sublist)
    have hxs := hf x (hperm.mem_iff.1 (List.mem_of_mem_filter hx))
    have hys := hf y (hperm.mem_iff.1 (List.mem_of_mem_filter hy))
    rw [ahead, ← hxs, ← hys]
    exact hxy
  · refine ((hperm.filter _).map _).trans (List.Perm.trans ?_ (List.perm_insertionSort _ _).symm)
    rw [← hi.map_index, List.filter_map]
    refine .of_eq (congrArg _ (List.filter_congr fun x hx => ?_))
    rw [hf x hx]
    rfl

theorem asperHybridSearch_emit {F : Functions K} {dim : Nat} {docs : List (SearchDocument K dim)}
    (hn : docs.length ≤ maxDocuments) (query : CStr) (qv : Option (Fin dim → K)) (k : Nat) :
    asperHybridSearch F docs query qv k =
      .ok (((fusedHits F docs query qv).insertionSort ranked).filter (fun x => 0 < x.score) |>.take k) := by
  rw [← emit_sorted (List.pairwise_insertionSort ranked _), asperHybridSearch,
    if_neg (Nat.not_lt.2 hn)]
  split
  · next h =>
    rcases h with rfl | rfl
    · cases k <;> rfl
    · rfl
  · rfl

end

/-! ## Over the real numbers -/

noncomputable def realFunctions : Functions ℝ := ⟨Real.log, Real.sqrt⟩

theorem realFunctions_good : realFunctions.Good := fun _ hx => Real.log_pos hx

/-- **The search is a ranking.** Of at most a million documents it gives out the first `k` of those of
positive score, the better first and of equals the smaller index: none twice, and for a larger `k` the
same and more. A document that has a term of the query as a whole word, or whose path occurs in the
query, has a positive score; one that matches in no channel is not given out. -/
theorem asperHybridSearch_ranking {dim : Nat} (docs : List (SearchDocument ℝ dim)) (query : CStr)
    (qv : Option (Fin dim → ℝ)) (hn : docs.length ≤ maxDocuments) :
    (∀ k, ∃ out, asperHybridSearch realFunctions docs query qv k = .ok out ∧
      (out.map (·.index)).Nodup ∧
      (∀ x ∈ out, x.index < docs.length ∧
        x.score = fusedScore realFunctions docs query qv x.index) ∧
      out.length = min k ((List.range docs.length).countP fun i =>
        0 < fusedScore realFunctions docs query qv i) ∧
      out.map (·.index) = (ranking docs.length (fusedScore realFunctions docs query qv)).take k) ∧
    (∀ k k' out out', k ≤ k' → asperHybridSearch realFunctions docs query qv k = .ok out →
      asperHybridSearch realFunctions docs query qv k' = .ok out' → out <+: out') ∧
    (∀ i d, docs[i]? = some d →
      ((∃ t ∈ terms query.val, HasToken d.body.val t) ∨
        ∃ p, d.path = some p ∧ p.val ≠ [] ∧ p.val <:+: query.val) →
      0 < fusedScore realFunctions docs query qv i ∧
        i ∈ ranking docs.length (fusedScore realFunctions docs query qv)) ∧
    (∀ i d, docs[i]? = some d → (∀ c, ¬ Matches realFunctions query qv d c) →
      ∀ k out, asperHybridSearch realFunctions docs query qv k = .ok out → i ∉ out.map (·.index)) := by
  obtain ⟨hlen, hi, hpos⟩ :=
    @fusedHits_spec _ _ _ _ realFunctions dim docs query qv realFunctions_good
  have hf : ∀ x ∈ fusedHits realFunctions docs query qv,
      x.score = fusedScore realFunctions docs query qv x.index := fun x hx => by
    obtain ⟨i, hix⟩ := List.getElem?_of_mem hx
    rw [fusedScore, hi i x hix, hix]
  have hrun := asperHybridSearch_emit (F := realFunctions) hn query qv
  have hsorted := sorted_ranking hi hf
  rw [hlen] at hsorted
  have hindex : ∀ k out, asperHybridSearch realFunctions docs query qv k = .ok out →
      out.map (·.index) = (ranking docs.length (fusedScore realFunctions docs query qv)).take k := by
    intro k out hout
    rw [← Except.ok.inj ((hrun k).symm.trans hout), List.map_take, hsorted]
  refine ⟨fun k => ⟨_, hrun k, ?_, fun x hx => ?_, ?_, hindex k _ (hrun k)⟩, ?_, ?_, ?_⟩
  · rw [hindex k _ (hrun k)]
    exact (nodup_ranking _ _).sublist (List.take_sublist _ _)
  · have hmem := (List.perm_insertionSort ranked _).mem_iff.1
      (List.mem_of_mem_filter (List.mem_of_mem_take hx))
    obtain ⟨i, hix⟩ := List.getElem?_of_mem hmem
    refine ⟨?_, hf x hmem⟩
    rw [hi i x hix, ← hlen]
    exact (List.getElem?_eq_some_iff.1 hix).1
  · have hlen_out := congrArg List.length (hindex k _ (hrun k))
    rw [List.length_map] at hlen_out
    rw [hlen_out, List.length_take, length_ranking]
  · intro k k' out out' hk hout hout'
    rw [← Except.ok.inj ((hrun k).symm.trans hout), ← Except.ok.inj ((hrun k').symm.trans hout')]
    exact List.take_prefix_take_left hk
  · intro i d hd hmatch
    have hscore : 0 < fusedScore realFunctions docs query qv i := (hpos i d hd).2 <|
      hmatch.elim (fun h => ⟨.bm25, h⟩) fun h => ⟨.exact, .inr (.inl h)⟩
    exact ⟨hscore, mem_ranking.2 ⟨(List.getElem?_eq_some_iff.1 hd).1, hscore⟩⟩
  · intro i d hd hnone k out hout hm
    rw [hindex k out hout] at hm
    obtain ⟨c, hc⟩ := (hpos i d hd).1 (mem_ranking.1 (List.mem_of_mem_take hm)).2
    exact hnone c hc

/-- One document with the text of the query. -/
theorem asperHybridSearch_ranking_one :
    0 < fusedScore realFunctions ([⟨none, none, some (cstr (ascii "ab")), none⟩] :
      List (SearchDocument ℝ 0)) (cstr (ascii "ab")) none 0 :=
  ((@asperHybridSearch_ranking 0 [⟨none, none, some (cstr (ascii "ab")), none⟩]
    (cstr (ascii "ab")) none (by decide)).2.2.1 0 _ rfl
    (.inl ⟨ascii "ab", by decide, [], [], by decide, nofun, nofun⟩)).1

end Hybrid

end Asper
