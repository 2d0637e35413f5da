import Asper.Curator.Proof.Parse
import Asper.Curator.Verdicts

/-! # What the parser lets through

Every row that is not blank becomes one operation or one bad line (`foldl_parseRow_eq`), an operation
has a handle that was given and a text without blanks at its ends (`parseLine_tidy`), and so the
arrays that the handles index are never left (`mutateTarget_isSome`, `reviewVerdicts_isSome`,
`recallCited_isSome`). -/

namespace Asper

open Durable
open Decimal (isDigit)

/-! ## Digits -/

/-- The loop of `parse_handle` over a `long` with the largest value `max`; none when a step
overflows. -/
def longDigits (max : Nat) : Nat → Bytes → Option (Option (Nat × Bytes))
  | v, [] => some (some (v, []))
  | v, b :: s =>
    if isDigit b then
      if max < v * 10 ∨ max < v * 10 + (b.toNat - 48) then none
      else if 1000000 < v * 10 + (b.toNat - 48) then some none
      else longDigits max (v * 10 + (b.toNat - 48)) s
    else some (some (v, b :: s))

/-- **No run of digits overflows**, not even in 32 bits. -/
theorem longDigits_eq {max : Nat} (hmax : 2 ^ 31 - 1 ≤ max) (s : Bytes) {v : Nat}
    (hv : v ≤ 1000000) : longDigits max v s = some (handleDigits v s) := by
  induction s generalizing v with
  | nil => rfl
  | cons b s ih =>
    rw [longDigits, handleDigits]
    by_cases hb : isDigit b = true
    · have hd : b.toNat ≤ 57 := by
        have : 48 ≤ b.toNat ∧ b.toNat ≤ 57 := by simpa [isDigit] using hb
        exact this.2
      rw [if_pos hb, if_pos hb, if_neg (by omega)]
      split
      · rfl
      · exact ih (by omega)
    · rw [if_neg hb, if_neg hb]

/-! ## Rows -/

/-- The rows of a text that are not blank, trimmed. -/
def trimmedRows (text : Bytes) : List Bytes := ((textRows text).map strTrim).filter (· ≠ [])

theorem foldl_parseRow_eq (n : Nat) (rows : List Bytes) (acc : List Cop × Nat) :
    rows.foldl (parseRow n) acc =
      (acc.1 ++ ((rows.map strTrim).filter (· ≠ [])).filterMap (parseLine · n),
        acc.2 + ((rows.map strTrim).filter (· ≠ [])).countP fun t => (parseLine t n).isNone) := by
  induction rows generalizing acc with
  | nil => simp
  | cons r rows ih =>
    rw [List.foldl_cons, ih, parseRow, List.map_cons]
    by_cases hr : strTrim r = []
    · rw [if_pos hr, List.filter_cons_of_neg (by simp [hr])]
    · rw [if_neg hr, List.filter_cons_of_pos (by simp [hr])]
      cases h : parseLine (strTrim r) n with
      | none => simp [h, Nat.add_assoc, Nat.add_comm]
      | some op => simp [h]

theorem length_filterMap_add {α β : Type} (f : α → Option β) (xs : List α) :
    (xs.filterMap f).length + xs.countP (fun x => (f x).isNone) = xs.length := by
  induction xs with
  | nil => rfl
  | cons x xs ih =>
    cases h : f x with
    | none =>
      rw [List.filterMap_cons_none h, List.countP_cons_of_pos (by simp [h]), List.length_cons]
      omega
    | some y =>
      rw [List.filterMap_cons_some h, List.countP_cons_of_neg (by simp [h]), List.length_cons,
        List.length_cons]
      omega

/-- **Each row that is not blank counts once**, as an operation or as a bad line. -/
theorem asperProtocolParse_eq (text : CStr) (n : Nat) :
    asperProtocolParse text n = ((trimmedRows text.val).filterMap (parseLine · n),
      (trimmedRows text.val).countP fun t => (parseLine t n).isNone) := by
  rw [asperProtocolParse, foldl_parseRow_eq]
  simp [trimmedRows]

theorem trimmedRows_bytes {s t : Bytes} (h : t ∈ trimmedRows s) : 10 ∉ t ∧ t ⊆ s := by
  obtain ⟨r, hr, rfl⟩ := List.mem_map.1 (List.mem_of_mem_filter h)
  have hr' : 10 ∉ r ∧ r ⊆ s := by
    obtain ⟨hrows, hrest⟩ := splitRows_bytes s
    unfold textRows at hr
    split at hr
    · exact hrows r hr
    · rcases List.mem_append.1 hr with hr | hr
      · exact hrows r hr
      · exact List.mem_singleton.1 hr ▸ hrest
  exact ⟨fun hm => hr'.1 (mem_strTrim hm), fun b hb => hr'.2 (mem_strTrim hb)⟩

/-! ## Lines -/

/-- The text of a line has no blanks at its ends and no line break. -/
def Cop.Tidy : Cop → Prop
  | .insert _ t | .update _ t | .setDeprecated _ t | .answer t => Trimmed t.val ∧ 10 ∉ t.val
  | _ => True

theorem findSep_le {s : Bytes} {i : Nat} (h : findSep s = some i) : i + 2 ≤ s.length := by
  have hstr : ∀ {s : Bytes} {i : Nat}, strstr (ascii " | ") s = some i → i + 3 ≤ s.length := by
    intro s
    induction s with
    | nil => nofun
    | cons b s ih =>
      intro i h
      rw [strstr] at h
      split at h
      · next hp =>
        cases h
        have := (List.isPrefixOf_iff_prefix.1 hp).length_le
        exact (Nat.zero_add 3).symm ▸ this
      · obtain ⟨j, hj, rfl⟩ := Option.map_eq_some_iff.1 h
        have := ih hj
        rw [List.length_cons]
        omega
  unfold findSep at h
  dsimp only at h
  split at h
  · next hlen =>
    split at h
    · cases h
      omega
    · next i' hi =>
      have := hstr hi
      split at h <;> cases h <;> omega
  · have := hstr h
    omega

theorem wordPrefix_subset {s w rest : Bytes} (h : wordPrefix s w = some rest) : rest ⊆ s := by
  unfold wordPrefix at h
  split at h
  · split at h
    · cases h
      exact List.nil_subset _
    · next b r hd =>
      split at h
      · cases h
        have hsub : b :: r ⊆ s := hd ▸ List.drop_subset w.length s
        exact fun x hx => hsub ((List.dropWhile_suffix _).subset hx)
      · cases h
  · cases h

theorem cstr_strTrim {s : Bytes} (h : 0 ∉ s) : (cstr (strTrim s)).val = strTrim s :=
  List.takeWhile_eq_self_iff.2 fun b hb => decide_eq_true fun h0 => h (mem_strTrim (h0 ▸ hb))

theorem tidy_text {s t : Bytes} (hs : s ⊆ t) (h0 : 0 ∉ t) (hn : 10 ∉ t) :
    Trimmed (cstr (strTrim s)).val ∧ 10 ∉ (cstr (strTrim s)).val := by
  rw [cstr_strTrim fun hm => h0 (hs hm)]
  exact ⟨strTrim_trimmed s, fun hm => hn (hs (mem_strTrim hm))⟩

theorem parseHandle_fits {tok : Bytes} {n h : Nat} (hp : parseHandle tok n = some h) :
    1 ≤ h ∧ h ≤ n := by
  unfold parseHandle at hp
  split at hp
  · split at hp
    · split at hp
      · split at hp
        · cases hp
        · cases hp
          omega
      · cases hp
    · cases hp
  · cases hp

theorem parseChange_tidy {n : Nat} {f : Nat → CStr → Cop} {rest t : Bytes} {op : Cop}
    (hp : parseChange n f rest = some op) (hs : rest ⊆ t) (h0 : 0 ∉ t) (hn : 10 ∉ t) :
    ∃ h text, op = f h text ∧ (1 ≤ h ∧ h ≤ n) ∧ Trimmed text.val ∧ 10 ∉ text.val := by
  simp only [parseChange, Option.bind_eq_bind, Option.pure_def, Option.bind_eq_some_iff] at hp
  obtain ⟨sep, -, h, hh, he⟩ := hp
  cases he
  exact ⟨h, _, rfl, parseHandle_fits hh,
    tidy_text (fun b hb => hs (List.drop_subset _ _ hb)) h0 hn⟩

/-- **What the parser makes of a line**: the handle was given, the text is trimmed. -/
theorem parseLine_tidy {t : Bytes} {n : Nat} {op : Cop} (h0 : 0 ∉ t) (hn : 10 ∉ t)
    (hp : parseLine t n = some op) : op.fits n = true ∧ op.Tidy := by
  unfold parseLine at hp
  split at hp
  · cases hp
    exact ⟨rfl, trivial⟩
  split at hp
  · cases hp
    exact ⟨rfl, trivial⟩
  split at hp
  · next rest hw =>
    simp only [parseInsert, Option.bind_eq_bind, Option.pure_def, Option.bind_eq_some_iff] at hp
    obtain ⟨sep, -, sec, -, he⟩ := hp
    cases he
    exact ⟨rfl, tidy_text (fun b hb => wordPrefix_subset hw (List.drop_subset _ _ hb)) h0 hn⟩
  split at hp
  · next rest hw =>
    obtain ⟨h, text, rfl, hh, ht⟩ := parseChange_tidy hp (wordPrefix_subset hw) h0 hn
    exact ⟨decide_eq_true hh, ht⟩
  split at hp
  · next rest hw =>
    obtain ⟨h, text, rfl, hh, ht⟩ := parseChange_tidy hp (wordPrefix_subset hw) h0 hn
    exact ⟨decide_eq_true hh, ht⟩
  split at hp
  · obtain ⟨h, hh, rfl⟩ := Option.map_eq_some_iff.1 hp
    exact ⟨decide_eq_true (parseHandle_fits hh), trivial⟩
  split at hp
  · obtain ⟨h, hh, rfl⟩ := Option.map_eq_some_iff.1 hp
    exact ⟨decide_eq_true (parseHandle_fits hh), trivial⟩
  split at hp
  · next rest hw =>
    unfold parseAnswer at hp
    split at hp
    · cases hp
      have hsub := wordPrefix_subset hw
      exact ⟨rfl, tidy_text (fun b hb => hsub (.tail _ hb)) h0 hn⟩
    · cases hp
  · cases hp

/-- The operations of an answer fit the handles that were given. -/
theorem asperProtocolParse_tidy {text : CStr} {n : Nat} {op : Cop}
    (h : op ∈ (asperProtocolParse text n).1) : op.fits n = true ∧ op.Tidy := by
  rw [asperProtocolParse_eq] at h
  obtain ⟨t, ht, hp⟩ := List.mem_filterMap.1 h
  have hb := trimmedRows_bytes ht
  exact parseLine_tidy (fun h0 => text.2 (hb.2 h0)) hb.1 hp

/-! ## Indices -/

section
variable {ρ : Type} {xs : List ρ} {cops : List Cop}

theorem atHandle_isSome {h : Nat} (h1 : 1 ≤ h) (hn : h ≤ xs.length) : (atHandle xs h).isSome := by
  rw [atHandle, if_neg (by omega), List.getElem?_eq_getElem (show h - 1 < xs.length by omega)]
  rfl

theorem mutateTarget_isSome {op : Cop} (h : op.fits xs.length = true) :
    (mutateTarget xs op).isSome := by
  cases op with
  | update i _ | setDeprecated i _ =>
    obtain ⟨h1, hn⟩ : 1 ≤ i ∧ i ≤ xs.length := of_decide_eq_true h
    rw [mutateTarget, Option.isSome_map]
    exact atHandle_isSome h1 hn
  | _ => rfl

theorem reviewVerdict_isSome {op : Cop} (h : op.fits xs.length = true) :
    (reviewVerdict xs op).isSome := by
  cases op with
  | keep i | setDeprecated i _ =>
    obtain ⟨h1, hn⟩ : 1 ≤ i ∧ i ≤ xs.length := of_decide_eq_true h
    rw [reviewVerdict, Option.isSome_map]
    exact atHandle_isSome h1 hn
  | _ => rfl

theorem mapM_isSome {α β : Type} {f : α → Option β} {xs : List α} (h : ∀ x ∈ xs, (f x).isSome) :
    (xs.mapM f).isSome := by
  induction xs with
  | nil => rfl
  | cons x xs ih =>
    obtain ⟨y, hy⟩ := Option.isSome_iff_exists.1 (h x (.head _))
    obtain ⟨ys, hys⟩ := Option.isSome_iff_exists.1 (ih fun z hz => h z (.tail _ hz))
    rw [List.mapM_cons, hy, hys]
    rfl

theorem reviewVerdicts_isSome (h : ∀ op ∈ cops, op.fits xs.length = true) :
    (reviewVerdicts xs cops).isSome :=
  mapM_isSome fun op hop => reviewVerdict_isSome (h op hop)

/-- The candidates cited are distinct, flagged, and have a flag each. -/
structure Recall.Fits (n : Nat) (r : Recall) : Prop where
  flags : r.seen.length = n
  nodup : r.cites.Nodup
  flagged : ∀ i ∈ r.cites, r.seen[i]? = some true

theorem Recall.Fits.bound {n : Nat} {r : Recall} (h : r.Fits n) {i : Nat} (hi : i ∈ r.cites) :
    i < n := h.flags ▸ (List.getElem?_eq_some_iff.1 (h.flagged i hi)).1

/-- Distinct places leave room for one more. -/
theorem Recall.Fits.room {n i : Nat} {r : Recall} (h : r.Fits n) (hi : r.seen[i]? = some false) :
    r.cites.length < n := by
  have hin : i < n := h.flags ▸ (List.getElem?_eq_some_iff.1 hi).1
  have hnot : i ∉ r.cites := by
    intro hm
    rw [h.flagged i hm] at hi
    cases hi
  have hsub : (i :: r.cites).Subperm (List.range n) := by
    refine List.subperm_of_subset (List.nodup_cons.2 ⟨hnot, h.nodup⟩) fun j hj => ?_
    rw [List.mem_range]
    rcases List.mem_cons.1 hj with rfl | hj
    · exact hin
    · exact h.bound hj
  have := hsub.length_le
  rw [List.length_range] at this
  exact this

/-- One line of a recall stays in bounds. -/
theorem recallStep_fits {n : Nat} {r : Recall} {op : Cop} (h : r.Fits n) (hop : op.fits n = true) :
    ∃ r', recallStep n r op = some r' ∧ r'.Fits n := by
  cases op with
  | answer text =>
    refine ⟨_, rfl, ?_⟩
    split
    · exact ⟨h.flags, h.nodup, h.flagged⟩
    · exact h
  | cite i =>
    obtain ⟨h1, hn⟩ : 1 ≤ i ∧ i ≤ n := of_decide_eq_true hop
    have hle : i ≤ r.seen.length := h.flags ▸ hn
    obtain ⟨b, hb⟩ := Option.isSome_iff_exists.1 (atHandle_isSome h1 hle)
    have hget : r.seen[i - 1]? = some b := by
      rwa [atHandle, if_neg (by omega)] at hb
    rw [recallStep, hb, Option.bind_some]
    cases b with
    | true => exact ⟨r, rfl, h⟩
    | false =>
      refine ⟨_, by rw [if_neg (by decide), if_pos (h.room hget)], ?_, ?_, ?_⟩
      · rw [List.length_set, h.flags]
      · refine List.nodup_append.2 ⟨h.nodup, List.nodup_singleton _, fun a ha b hb => ?_⟩
        rw [List.mem_singleton.1 hb]
        rintro rfl
        rw [h.flagged _ ha] at hget
        cases hget
      · intro j hj
        rcases List.mem_append.1 hj with hj | hj
        · rw [List.getElem?_set]
          split
          · next he =>
            rw [if_pos (he ▸ (List.getElem?_eq_some_iff.1 hget).1)]
          · exact h.flagged j hj
        · rw [List.mem_singleton.1 hj, List.getElem?_set_self
            (List.getElem?_eq_some_iff.1 hget).1]
  | _ => exact ⟨r, rfl, h⟩

theorem foldlM_recallStep {n : Nat} {r : Recall} (h : r.Fits n)
    (hops : ∀ op ∈ cops, op.fits n = true) :
    ∃ r', cops.foldlM (recallStep n) r = some r' ∧ r'.Fits n := by
  induction cops generalizing r with
  | nil => exact ⟨r, rfl, h⟩
  | cons op cops ih =>
    obtain ⟨r', hr', hf⟩ := recallStep_fits h (hops op (.head _))
    obtain ⟨r'', hr'', hf'⟩ := ih hf fun x hx => hops x (.tail _ hx)
    exact ⟨r'', by rw [List.foldlM_cons, hr']; exact hr'', hf'⟩

theorem recallCited_isSome (h : ∀ op ∈ cops, op.fits xs.length = true) :
    (recallCited xs cops).isSome := by
  have hstart : Recall.Fits xs.length ⟨none, List.replicate xs.length false, []⟩ :=
    ⟨List.length_replicate, List.nodup_nil, nofun⟩
  obtain ⟨r, hr, hf⟩ := foldlM_recallStep hstart h
  rw [recallCited, recallSelect, hr, Option.bind_some]
  refine mapM_isSome fun i hi => ?_
  rw [List.getElem?_eq_getElem (hf.bound hi)]
  rfl

end

/-- **The parser is safe**: it counts each row once, reads no number that overflows, and what it
returns stays in the arrays that the cycles index with it. -/
theorem asperProtocolParse_safe (text : CStr) (n : Nat) :
    (asperProtocolParse text n).1.length + (asperProtocolParse text n).2 =
      (trimmedRows text.val).length ∧
    asperProtocolParse text n = ((trimmedRows text.val).filterMap (parseLine · n),
      (trimmedRows text.val).countP fun t => (parseLine t n).isNone) ∧
    (∀ op ∈ (asperProtocolParse text n).1, op.fits n = true ∧ op.Tidy) ∧
    (∀ digits max, 2 ^ 31 - 1 ≤ max → longDigits max 0 digits = some (handleDigits 0 digits)) ∧
    ∀ (ρ : Type) (cands : List ρ), cands.length = n →
      (∀ op ∈ (asperProtocolParse text n).1, (mutateTarget cands op).isSome) ∧
      (reviewVerdicts cands (asperProtocolParse text n).1).isSome ∧
      (recallCited cands (asperProtocolParse text n).1).isSome := by
  have hfits : ∀ op ∈ (asperProtocolParse text n).1, op.fits n = true := fun op hop =>
    (asperProtocolParse_tidy hop).1
  refine ⟨?_, asperProtocolParse_eq text n, fun op hop => asperProtocolParse_tidy hop,
    fun digits max hmax => longDigits_eq hmax digits (by omega), ?_⟩
  · rw [asperProtocolParse_eq]
    exact length_filterMap_add _ _
  · rintro ρ cands rfl
    exact ⟨fun op hop => mutateTarget_isSome (hfits op hop), reviewVerdicts_isSome hfits,
      recallCited_isSome hfits⟩

end Asper
