import Asper.Record.Scan
import Mathlib.Data.List.Lex
import Mathlib.Data.Prod.Lex

/-! # A scan is filter, sort, take

The two comparisons are one order by a key (`scanKey`), in which no two records with different ids
are equal; with it `asperIndexScan_eq` is what `keepAll_eq` says of the window. -/

namespace Asper

open Durable

/-! ## The order of the hits -/

theorem strcmp_eq_lt (s t : Bytes) : strcmp s t = .lt ↔ s.map UInt8.toNat < t.map UInt8.toNat := by
  induction s generalizing t with
  | nil =>
    cases t with
    | nil => simp [strcmp]
    | cons b t => simp [strcmp]
  | cons a s ih =>
    cases t with
    | nil => simp [strcmp]
    | cons b t =>
      rw [strcmp, List.map_cons, List.map_cons, List.cons_lt_cons_iff, ← UInt8.lt_iff_toNat_lt,
        UInt8.toNat_inj, ← ih]
      rcases lt_trichotomy a.toNat b.toNat with h | h | h
      · have hab : a < b := UInt8.lt_iff_toNat_lt.2 h
        simp [hab]
      · have hab : a = b := UInt8.toNat_inj.1 h
        simp [hab]
      · have hba : b < a := UInt8.lt_iff_toNat_lt.2 h
        have hnab : ¬ a < b := fun hab => by
          have := UInt8.lt_iff_toNat_lt.1 hab
          omega
        have hne : a ≠ b := by
          rintro rfl
          exact lt_irrefl _ h
        simp [hba, hnab, hne]

theorem strcmp_swap (s t : Bytes) : strcmp s t = .gt ↔ strcmp t s = .lt := by
  induction s generalizing t with
  | nil => cases t <;> simp [strcmp]
  | cons a s ih =>
    cases t with
    | nil => simp [strcmp]
    | cons b t =>
      rw [strcmp, strcmp]
      by_cases hab : a < b
      · have hba : ¬ b < a := fun h => by
          rw [UInt8.lt_iff_toNat_lt] at h hab
          omega
        simp [hab, hba]
      · by_cases hba : b < a
        · simp [hab, hba]
        · simp [hab, hba, ih]

section
variable {γ σ α : Type}

/-- What two hits are compared by. -/
def hitKey (f : Hit γ σ → α) (h : Hit γ σ) : αᵒᵈ ×ₗ ℤᵒᵈ ×ₗ List ℕ :=
  toLex (OrderDual.toDual (f h),
    toLex (OrderDual.toDual h.record.updatedAt, h.record.id.map UInt8.toNat))

theorem hitKey_inj {f : Hit γ σ → α} {a b : Hit γ σ} (h : hitKey f a = hitKey f b) :
    a.record.id = b.record.id :=
  List.map_injective_iff.2 (fun _ _ => UInt8.toNat_inj.1)
    (congrArg (fun x => (ofLex (ofLex x).2).2) h)

variable [LinearOrder α]

theorem hitKey_lt (f : Hit γ σ → α) (a b : Hit γ σ) :
    hitKey f a < hitKey f b ↔ f b < f a ∨ f a = f b ∧ (b.record.updatedAt < a.record.updatedAt ∨
      a.record.updatedAt = b.record.updatedAt ∧
        a.record.id.map UInt8.toNat < b.record.id.map UInt8.toNat) := by
  rw [hitKey, hitKey, Prod.Lex.toLex_lt_toLex, Prod.Lex.toLex_lt_toLex]
  rfl

theorem hitCmpBy_eq_lt (f : Hit γ σ → α) (a b : Hit γ σ) :
    hitCmpBy f a b = .lt ↔ hitKey f a < hitKey f b := by
  rw [hitKey_lt, hitCmpBy, ← strcmp_eq_lt]
  rcases lt_trichotomy (f b) (f a) with h | h | h
  · simp [h]
  · rcases lt_trichotomy b.record.updatedAt a.record.updatedAt with h' | h' | h'
    · simp [h, h']
    · simp [h, h']
    · simp [h, h', h'.not_gt, h'.ne]
  · simp [h, h.not_gt, h.ne]

theorem hitCmpBy_ne_gt (f : Hit γ σ → α) (a b : Hit γ σ) :
    hitCmpBy f a b ≠ .gt ↔ hitKey f a ≤ hitKey f b := by
  have hswap : hitCmpBy f a b = .gt ↔ hitCmpBy f b a = .lt := by
    rw [hitCmpBy, hitCmpBy]
    rcases lt_trichotomy (f b) (f a) with h | h | h
    · simp [h, h.not_gt]
    · rcases lt_trichotomy b.record.updatedAt a.record.updatedAt with h' | h' | h'
      · simp [h, h', h'.not_gt]
      · simp [h, h', strcmp_swap]
      · simp [h, h', h'.not_gt]
    · simp [h, h.not_gt]
  rw [ne_eq, hswap, hitCmpBy_eq_lt, not_lt]

end

/-! ## The scan -/

section
variable {V γ σ : Type} [LinearOrder γ] (X : Scoring V γ σ) (now : Int)
  (q : ScanQuery V γ) (k : Nat)

theorem eligibleHits_inj {rows : List (IndexRow V)} (hids : (rows.map (·.record.id)).Nodup)
    {a b : Hit γ σ} (ha : a ∈ eligibleHits X now q rows) (hb : b ∈ eligibleHits X now q rows)
    (h : a.record.id = b.record.id) : a = b := by
  obtain ⟨r, hr, rfl⟩ := List.mem_map.1 ha
  obtain ⟨s, hs, rfl⟩ := List.mem_map.1 hb
  rw [List.inj_on_of_nodup_map hids (List.mem_of_mem_filter hr) (List.mem_of_mem_filter hs) h]

theorem eligibleHits_nodup {rows : List (IndexRow V)} (hids : (rows.map (·.record.id)).Nodup) :
    (eligibleHits X now q rows).Nodup := by
  have h : ((eligibleHits X now q rows).map (·.record.id)).Nodup := by
    rw [eligibleHits, List.map_map]
    exact hids.sublist (List.filter_sublist.map _)
  exact h.of_map _

variable [LinearOrder σ]

/-- Rows that do not pass are skipped. -/
theorem foldlM_scanRow (rows : List (IndexRow V)) (w : List (Hit γ σ) × Nat) :
    rows.foldlM (scanRow X now q k) w =
      keepAll (fun a b => scanCmp q.rankByCos a b = .lt) k w (eligibleHits X now q rows) := by
  induction rows generalizing w with
  | nil => rfl
  | cons r rows ih =>
    have hskip : ¬ r.Eligible X now q → scanRow X now q k w r = some w := by
      intro h
      rw [scanRow]
      split
      · rfl
      · next hp =>
        rw [not_or] at hp
        dsimp only
        rw [if_pos]
        by_contra hc
        exact h ⟨by simpa using hp.1, hp.2, hc⟩
    have hkeep : r.Eligible X now q → scanRow X now q k w r =
        keepBest (fun a b => scanCmp q.rankByCos a b = .lt) k w (r.hit X now q) := by
      rintro ⟨hm, he, hc⟩
      rw [scanRow, if_neg (not_or.2 ⟨by simp [hm], he⟩)]
      dsimp only
      rw [if_neg hc]
      rfl
    rw [List.foldlM_cons, eligibleHits]
    by_cases h : r.Eligible X now q
    · rw [List.filter_cons_of_pos (by simpa using h), List.map_cons, keepAll, List.foldlM_cons,
        hkeep h]
      exact congrArg _ (funext ih)
    · rw [List.filter_cons_of_neg (by simpa using h), hskip h]
      exact ih w

/-- **A scan is filter, sort, take**: the first `k` of the rows that pass, each once, and the slots
after the first `k` are left alone. -/
theorem asperIndexScan_eq {rows : List (IndexRow V)} {hits : List (Hit γ σ)}
    (hids : (rows.map (·.record.id)).Nodup) (hk : k ≤ hits.length) :
    ∃ slots, asperIndexScan X now q k rows hits =
        some (slots, min k (eligibleHits X now q rows).length) ∧
      slots.length = hits.length ∧ slots.drop k = hits.drop k ∧
      slots.take (min k (eligibleHits X now q rows).length) =
        ((eligibleHits X now q rows).insertionSort fun a b =>
          scanCmp q.rankByCos a b ≠ .gt).take k ∧
      (slots.take (min k (eligibleHits X now q rows).length)).Nodup := by
  have hsort : ∀ {α : Type} [LinearOrder α] (f : Hit γ σ → α),
      (∀ a b, scanCmp q.rankByCos a b = hitCmpBy f a b) →
      ∃ w, asperIndexScan X now q k rows hits = some w ∧
        Windowed k hits ((eligibleHits X now q rows).insertionSort fun a b =>
          scanCmp q.rankByCos a b ≠ .gt) w := by
    intro α _ f hf
    have hb : ∀ a b, decide (scanCmp q.rankByCos a b = .lt) = true ↔ hitKey f a < hitKey f b :=
      fun a b => by rw [decide_eq_true_eq, hf, hitCmpBy_eq_lt]
    have hr : ∀ a b, scanCmp q.rankByCos a b ≠ .gt ↔ hitKey f a ≤ hitKey f b :=
      fun a b => by rw [hf, hitCmpBy_ne_gt]
    have hw : Windowed k hits [] (hits, 0) := ⟨rfl, rfl, (Nat.min_zero k).symm, by simp⟩
    obtain ⟨w, hw, hwin⟩ := keepAll_eq hb hk (eligibleHits X now q rows) hw List.Pairwise.nil
    rw [foldl_insertAfter_eq hb hr fun a ha b hb' h =>
      eligibleHits_inj X now q hids ha hb' (hitKey_inj h)] at hwin
    by_cases h0 : k = 0
    · refine ⟨(hits, 0), by rw [asperIndexScan, if_pos h0], rfl, rfl, ?_, ?_⟩
      · rw [h0, Nat.zero_min]
      · rw [h0, List.take_zero, List.take_zero]
    · exact ⟨w, by rw [asperIndexScan, if_neg h0, foldlM_scanRow, hw], hwin⟩
  have hmode : ∃ w, asperIndexScan X now q k rows hits = some w ∧
      Windowed k hits ((eligibleHits X now q rows).insertionSort fun a b =>
        scanCmp q.rankByCos a b ≠ .gt) w := by
    cases hm : q.rankByCos with
    | true => rw [← hm]; exact hsort (·.cos) fun a b => by rw [scanCmp, hm]; rfl
    | false => rw [← hm]; exact hsort (·.score) fun a b => by rw [scanCmp, hm]; rfl
  obtain ⟨⟨slots, n⟩, hscan, hlen, hrest, hn, hbest⟩ := hmode
  dsimp only at hn
  rw [List.length_insertionSort] at hn
  subst hn
  refine ⟨slots, hscan, hlen, hrest, hbest, ?_⟩
  rw [hbest]
  exact ((List.perm_insertionSort _ _).nodup_iff.2 (eligibleHits_nodup X now q hids)).sublist
    (List.take_sublist _ _)

end

/-! Two rows, the second nearer to the query. -/

def contextRecord (id : Bytes) : Record where
  id := id
  section_ := .context
  project := none
  content := id
  source := .manual
  evidence := ⟨.declared, .unknown, 1, 0, 0, [], [], []⟩
  createdAt := 0
  updatedAt := 0
  lastAccess := 0
  accessCount := 0
  relevance := 1
  locked := false
  deprecated := false
  deprecatedAt := 0
  tags := []
  sourceRefs := []

def nearRows : List (IndexRow ℕ) :=
  [⟨contextRecord [97], .current, 1⟩, ⟨contextRecord [98], .current, 2⟩]

def nearScoring : Scoring ℕ ℕ ℕ := ⟨(· * ·), fun _ c _ => c⟩

theorem asperIndexScan_near : (nearRows.map (·.record.id)).Nodup ∧ ∃ slots,
    asperIndexScan nearScoring 0 ⟨3, none, none, 0, true⟩ 1 nearRows
        [⟨contextRecord [], 0, 0⟩, ⟨contextRecord [], 0, 0⟩] = some (slots, 1) ∧
      slots.take 1 = [⟨contextRecord [98], 6, 6⟩] := by
  have hids : (nearRows.map (·.record.id)).Nodup := by decide
  obtain ⟨slots, hscan, -, -, htake, -⟩ := asperIndexScan_eq nearScoring 0
    ⟨3, none, none, 0, true⟩ 1 hids
    (show 1 ≤ [(⟨contextRecord [], 0, 0⟩ : Hit ℕ ℕ), ⟨contextRecord [], 0, 0⟩].length by decide)
  exact ⟨hids, slots, hscan, htake.trans (by rfl)⟩

end Asper
