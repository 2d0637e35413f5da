import Asper.Lib.Template
import Asper.Record.Inject

/-! # What a rendered prompt holds

The line of a record has no line break in it (`oneLine_blockLine`), each section keeps the longest
run of records its budget allows (`sectionTrim_longest`), and the prompt is a layout that the template
fixes, filled in (`substitute_eq_expand`, `block_mem_layout`). -/

namespace Asper.Inject

open Durable (Bytes)
open Decimal Template

/-! ## One line -/

/-- What some reader takes for the end of a line, or for a control character. -/
inductive Breaks : Bytes → Prop
  | control {b : UInt8} : b < 0x20 ∨ b = 0x7f → Breaks [b]
  | nextLine : Breaks [0xc2, 0x85]
  | lineSeparator : Breaks [0xe2, 0x80, 0xa8]
  | paragraphSeparator : Breaks [0xe2, 0x80, 0xa9]

def OneLine (t : Bytes) : Prop := ∀ w, Breaks w → ¬ w <:+: t

/-- A byte that breaks no line, alone or beside others. -/
def Printable (b : UInt8) : Prop := 0x20 ≤ b ∧ b < 0x7f

instance (b : UInt8) : Decidable (Printable b) := inferInstanceAs (Decidable (_ ∧ _))

theorem oneLine_nil : OneLine [] := by
  intro w hw h
  cases hw <;> exact absurd h (by simp)

/-- What a line begins with breaks it only with what follows. -/
theorem oneLine_cons {a : UInt8} {t : Bytes} (ht : OneLine t) (ha : ∀ w, Breaks w → ¬ w <+: a :: t) :
    OneLine (a :: t) := by
  intro w hw h
  rcases List.infix_cons_iff.1 h with h | h
  · exact ha w hw h
  · exact ht w hw h

theorem Printable.not_breaks {a : UInt8} {t w : Bytes} (ha : Printable a) (hw : Breaks w) :
    ¬ w <+: a :: t := by
  obtain ⟨h1, h2⟩ := ha
  intro h
  cases hw with
  | control hb =>
    obtain ⟨rfl, -⟩ := List.cons_prefix_cons.1 h
    rcases hb with hb | rfl
    · exact absurd hb (by simpa using h1)
    · exact absurd h2 (by decide)
  | _ =>
    obtain ⟨rfl, -⟩ := List.cons_prefix_cons.1 h
    exact absurd h2 (by decide)

theorem oneLine_printable_append {u t : Bytes} (hu : ∀ b ∈ u, Printable b) (ht : OneLine t) :
    OneLine (u ++ t) := by
  induction u with
  | nil => exact ht
  | cons a u ih =>
    exact oneLine_cons (ih fun b hb => hu b (.tail _ hb)) fun w hw => (hu a (.head _)).not_breaks hw

theorem oneLine_printable {u : Bytes} (hu : ∀ b ∈ u, Printable b) : OneLine u := by
  have h := oneLine_printable_append hu oneLine_nil
  rwa [List.append_nil] at h

/-- A break of several bytes goes on with bytes that are not ASCII. -/
theorem Breaks.tail {w : Bytes} (hw : Breaks w) : ∀ b ∈ w.tail, 0x80 ≤ b := by
  cases hw with
  | control _ => exact nofun
  | _ => decide

/-- Two texts on one line stay so beside each other when the second starts with ASCII. -/
theorem OneLine.append {u t : Bytes} (hu : OneLine u) (ht : OneLine t)
    (hh : ∀ b, t.head? = some b → b < 0x80) : OneLine (u ++ t) := by
  induction u with
  | nil => exact ht
  | cons a u ih =>
    have hu' : OneLine u := fun w hw h => hu w hw (h.trans (List.suffix_cons a u).isInfix)
    refine oneLine_cons (ih hu') fun w hw h => ?_
    rcases List.prefix_or_prefix_of_prefix h (List.prefix_append (a :: u) t) with hp | ⟨v, rfl⟩
    · exact hu w hw hp.isInfix
    · -- the break goes on into the second text, past its first byte
      cases v with
      | nil => exact hu _ hw (by simp)
      | cons b v =>
        obtain ⟨r, hr⟩ := (List.prefix_append_right_inj (a :: u)).1 h
        have hge := hw.tail b (by simp)
        exact absurd (hh b (by rw [← hr]; rfl)) (by simpa using hge)

theorem plainByte_printable (a : UInt8) : 0x20 ≤ plainByte a ∧ plainByte a ≠ 0x7f := by
  unfold plainByte
  split
  · decide
  · next h =>
    rw [not_or] at h
    exact ⟨by simpa using h.1, h.2⟩

/-- A byte that is written for another is a space. -/
theorem plainByte_eq {a b : UInt8} (h : plainByte a = b) (hb : b ≠ 32) : a = b := by
  unfold plainByte at h
  split at h
  · exact absurd h.symm hb
  · exact h

/-- What is written first is a space or the first byte of the text. -/
theorem dataText_head {a b : UInt8} {s : Bytes} (h : (dataText (a :: s)).head? = some b)
    (hb : b ≠ 32) : a = b := by
  have hspace : ∀ {t : Bytes}, (32 :: t).head? = some b → a = b := fun ht =>
    absurd (Option.some.inj ht).symm hb
  have hplain : ∀ {t : Bytes}, (plainByte a :: t).head? = some b → a = b := fun ht =>
    plainByte_eq (Option.some.inj ht) hb
  rcases s with _ | ⟨c, _ | ⟨d, s⟩⟩
  · exact hplain h
  · rw [dataText] at h
    split at h
    · exact hspace h
    · exact hplain h
  · rw [dataText] at h
    split at h
    · exact hspace h
    split at h
    · exact hspace h
    · exact hplain h

theorem oneLine_plainByte {a : UInt8} {t : Bytes} (ht : OneLine t)
    (hnext : a = 0xc2 → t.head? ≠ some 0x85)
    (hsep : a = 0xe2 → ¬ [0x80, 0xa8] <+: t ∧ ¬ [0x80, 0xa9] <+: t) :
    OneLine (plainByte a :: t) := by
  refine oneLine_cons ht fun w hw h => ?_
  cases hw with
  | control hb =>
    obtain ⟨rfl, -⟩ := List.cons_prefix_cons.1 h
    obtain ⟨h1, h2⟩ := plainByte_printable a
    rcases hb with hb | hb
    · exact absurd hb (by simpa using h1)
    · exact h2 hb
  | nextLine =>
    obtain ⟨ha, h⟩ := List.cons_prefix_cons.1 h
    obtain ⟨r, rfl⟩ := h
    exact hnext (plainByte_eq ha.symm (by decide)) rfl
  | lineSeparator =>
    obtain ⟨ha, h⟩ := List.cons_prefix_cons.1 h
    exact (hsep (plainByte_eq ha.symm (by decide))).1 h
  | paragraphSeparator =>
    obtain ⟨ha, h⟩ := List.cons_prefix_cons.1 h
    exact (hsep (plainByte_eq ha.symm (by decide))).2 h

/-- A byte after 0x80 in what is written stands after it in the text. -/
theorem dataText_second {b c d : UInt8} {s : Bytes} (h : [0x80, d] <+: dataText (b :: c :: s))
    (hd : d ≠ 32) : b = 0x80 ∧ c = d := by
  have hb : b = 0x80 := by
    obtain ⟨r, hr⟩ := h
    exact dataText_head (by rw [← hr]; rfl) (by decide)
  subst hb
  have hcons : dataText (0x80 :: c :: s) = 0x80 :: dataText (c :: s) := by
    cases s with
    | nil =>
      rw [dataText.eq_3, if_neg fun h => absurd h.1 (by decide)]
      rfl
    | cons e s =>
      rw [dataText, if_neg fun h => absurd h.1 (by decide), if_neg fun h => absurd h.1 (by decide)]
      rfl
  rw [hcons] at h
  obtain ⟨r, hr⟩ := (List.cons_prefix_cons.1 h).2
  exact ⟨rfl, dataText_head (by rw [← hr]; rfl) hd⟩

theorem oneLine_space {t : Bytes} (ht : OneLine t) : OneLine (32 :: t) :=
  oneLine_printable_append (u := [32]) (by decide) ht

/-- **Whatever a text holds, what is written for it is one line.** -/
theorem dataText_oneLine : ∀ s : Bytes, OneLine (dataText s)
  | [] => oneLine_nil
  | [a] => oneLine_plainByte oneLine_nil (fun _ => nofun) fun _ => ⟨by simp, by simp⟩
  | [a, b] => by
    rw [dataText]
    split
    · exact oneLine_space oneLine_nil
    · next h =>
      refine oneLine_plainByte (dataText_oneLine [b]) (fun ha hb => ?_) fun _ => ?_
      · exact h ⟨ha, dataText_head hb (by decide)⟩
      · rw [dataText]
        exact ⟨by simp, by simp⟩
  | a :: b :: c :: s => by
    rw [dataText]
    split
    · exact oneLine_space (dataText_oneLine (c :: s))
    next hnext =>
    split
    · exact oneLine_space (dataText_oneLine s)
    next hsep =>
    refine oneLine_plainByte (dataText_oneLine (b :: c :: s)) (fun ha hb => ?_) fun ha => ⟨?_, ?_⟩
    · exact hnext ⟨ha, dataText_head hb (by decide)⟩
    · intro h
      obtain ⟨hb, hc⟩ := dataText_second h (by decide)
      exact hsep ⟨ha, hb, .inl hc⟩
    · intro h
      obtain ⟨hb, hc⟩ := dataText_second h (by decide)
      exact hsep ⟨ha, hb, .inr hc⟩

theorem printable_isDigit {b : UInt8} (h : isDigit b = true) : Printable b := by
  have h' := of_decide_eq_true h
  exact ⟨UInt8.le_iff_toNat_le.2 (Nat.le_trans (by decide) h'.1),
    UInt8.lt_iff_toNat_lt.2 (Nat.lt_of_le_of_lt h'.2 (by decide))⟩

theorem printable_dec (n : Nat) : ∀ b ∈ dec n, Printable b := fun b hb =>
  printable_isDigit (dec_digits n b hb)

theorem printable_decInt (i : Int) : ∀ b ∈ decInt i, Printable b := by
  intro b hb
  rw [decInt] at hb
  split at hb
  · rcases List.mem_cons.1 hb with rfl | hb
    · decide
    · exact printable_dec _ b hb
  · exact printable_dec _ b hb

theorem printable_fixed2 (q : ℚ) : ∀ b ∈ fixed2 q, Printable b := by
  intro b hb
  rw [fixed2] at hb
  simp only [List.mem_append, List.mem_cons, List.not_mem_nil, or_false] at hb
  rcases hb with (hb | hb) | rfl | rfl | rfl
  · split at hb
    · rw [List.mem_singleton.1 hb]
      decide
    · cases hb
  · exact printable_dec _ b hb
  · decide
  · exact printable_isDigit (isDigit_digit (Nat.mod_lt _ (by decide)))
  · exact printable_isDigit (isDigit_digit (Nat.mod_lt _ (by decide)))

theorem printable_uuid {s : Bytes} (h : uuidValid s = true) : ∀ b ∈ s, Printable b := by
  intro b hb
  rcases shapeAux_mem h hb with rfl | hh
  · decide
  · simp only [isHex, isLowerHex, decide_eq_true_eq, UInt8.le_iff_toNat_le] at hh
    refine ⟨UInt8.le_iff_toNat_le.2 ?_, UInt8.lt_iff_toNat_lt.2 ?_⟩
    all_goals
      simp only [UInt8.reduceToNat] at hh ⊢
      omega

theorem printable_append {u v : Bytes} (hu : ∀ b ∈ u, Printable b) (hv : ∀ b ∈ v, Printable b) :
    ∀ b ∈ u ++ v, Printable b := fun b hb => (List.mem_append.1 hb).elim (hu b) (hv b)

theorem printable_name (s : KnowledgeStatus) : ∀ b ∈ s.name, Printable b := by cases s <;> decide

theorem printable_evidenceText (k : EvidenceKind) : ∀ b ∈ evidenceText k, Printable b := by
  cases k <;> decide

theorem printable_basisText (k : ConfidenceKind) : ∀ b ∈ basisText k, Printable b := by
  cases k <;> decide

/-- A text of one line that may stand after any other. -/
structure Follows (t : Bytes) : Prop where
  oneLine : OneLine t
  head : ∀ b, t.head? = some b → b < 0x80

/-- A field of the label, which an empty value leaves out. -/
theorem Follows.field {label t rest : Bytes} (hl : ∀ b ∈ label, Printable b) (hn : label ≠ [])
    (h : Follows rest) : Follows ((if t = [] then [] else label) ++ (dataText t ++ rest)) := by
  split
  · next ht =>
    rw [ht]
    exact h
  · refine ⟨oneLine_printable_append hl ((dataText_oneLine t).append h.oneLine h.head), ?_⟩
    intro b hb
    cases label with
    | nil => exact absurd rfl hn
    | cons a label =>
      obtain rfl : a = b := Option.some.inj hb
      exact UInt8.lt_trans (hl a (.head _)).2 (by decide)

theorem evidenceLabel_oneLine (r : Clone) {rest : Bytes} (hrest : OneLine rest) :
    OneLine (evidenceLabel r ++ rest) := by
  rw [evidenceLabel]
  split
  · exact hrest
  have hid := printable_uuid r.named
  have hend : Follows (ascii "] " ++ rest) :=
    ⟨oneLine_printable_append (by decide) hrest, fun b hb => by
      obtain rfl : 93 = b := Option.some.inj hb
      decide⟩
  have hcommit := hend.field (t := r.record.evidence.commit)
    (show ∀ b ∈ ascii "; commit=", Printable b by decide) (by decide)
  have hworkspace := hcommit.field (t := r.record.evidence.workspace)
    (show ∀ b ∈ ascii "; workspace=", Printable b by decide) (by decide)
  have hsource := (dataText_oneLine r.record.evidence.provenance).append hworkspace.oneLine
    hworkspace.head
  have hvalidity : ∀ b ∈ ascii "[validity=" ++ r.status.name ++ ascii "; grounding=" ++
      r.record.id ++ ascii "@" ++ dec r.revision ++ ascii "] ", Printable b :=
    printable_append (printable_append (printable_append (printable_append (printable_append
      (printable_append (by decide) (printable_name _)) (by decide)) hid) (by decide))
      (printable_dec _)) (by decide)
  have hevidence : ∀ b ∈ ascii "[" ++ evidenceText r.record.evidence.kind ++
      ascii "; confidence=" ++ fixed2 r.record.evidence.confidence ++
      ascii "; confidence_basis=" ++ basisText r.record.evidence.confidenceKind ++
      ascii "; at=" ++ decInt r.record.evidence.observedAt ++
      ascii "; expires=" ++ decInt r.record.evidence.expiresAt ++
      ascii "; id=" ++ r.record.id ++ ascii "; source=", Printable b :=
    printable_append (printable_append (printable_append (printable_append (printable_append
      (printable_append (printable_append (printable_append (printable_append (printable_append
      (printable_append (printable_append (by decide) (printable_evidenceText _)) (by decide))
      (printable_fixed2 _)) (by decide)) (printable_basisText _)) (by decide))
      (printable_decInt _)) (by decide)) (printable_decInt _)) (by decide)) hid) (by decide)
  have h := oneLine_printable_append (printable_append hvalidity hevidence) hsource
  simpa only [List.append_assoc] using h

/-- **A record takes one line**, whatever its text and its evidence hold. -/
theorem blockLine_oneLine (r : Clone) : OneLine (blockLine r) := by
  have h := oneLine_printable_append (u := ascii "- ") (by decide)
    (evidenceLabel_oneLine r (dataText_oneLine r.record.content))
  rwa [← List.append_assoc] at h

/-! ## Budgets -/

theorem tokenHeuristic_nonneg (text : Bytes) : 0 ≤ tokenHeuristic text := by
  unfold tokenHeuristic intMax
  split
  · exact Int.le_refl 0
  · dsimp only
    omega

theorem estimateTokens_nonneg (cfg : Config) (text : Bytes) : 0 ≤ estimateTokens cfg text := by
  unfold estimateTokens
  split
  · split
    · assumption
    · exact tokenHeuristic_nonneg text
  · exact tokenHeuristic_nonneg text

/-- What the first records cost together. -/
def cost (cfg : Config) (rs : List Clone) : Int := (rs.map (recordLineTokens cfg)).sum

theorem cost_cons (cfg : Config) (r : Clone) (rs : List Clone) :
    cost cfg (r :: rs) = recordLineTokens cfg r + cost cfg rs := by
  rw [cost, List.map_cons, List.sum_cons, cost]

theorem cost_nonneg (cfg : Config) (rs : List Clone) : 0 ≤ cost cfg rs := by
  induction rs with
  | nil => exact Int.le_refl 0
  | cons r rs ih =>
    rw [cost_cons]
    exact Int.add_nonneg (estimateTokens_nonneg cfg _) ih

/-- The records kept are the longest run from the first on that the budget allows. -/
structure LongestRun (cfg : Config) (budget : Int) (rs : List Clone) (kept : Nat) : Prop where
  le : kept ≤ rs.length
  fits : ∀ m, 0 < m → m ≤ rs.length → (m ≤ kept ↔ cost cfg (rs.take m) ≤ budget)

theorem sectionTrim_longest {cfg : Config} {budget : Int} : ∀ {rs : List Clone} {used : Int}
    {kept : Nat}, sectionTrim cfg budget rs used = some kept →
      LongestRun cfg (budget - used) rs kept
  | [], used, kept, h => by
    obtain rfl : 0 = kept := Option.some.inj h
    exact ⟨Nat.le_refl 0, fun m h0 hm => absurd h0 (by simpa using hm)⟩
  | r :: rs, used, kept, h => by
    rw [sectionTrim] at h
    split at h
    · cases h
    split at h
    · next hover =>
      obtain rfl : 0 = kept := Option.some.inj h
      refine ⟨Nat.zero_le _, fun m h0 hm => ⟨fun h => absurd h0 (by omega), fun h => ?_⟩⟩
      cases m with
      | zero => exact Nat.le_refl 0
      | succ m =>
        rw [List.take_succ_cons, cost_cons] at h
        have := cost_nonneg cfg (rs.take m)
        omega
    · next hfit =>
      obtain ⟨kept', hk, rfl⟩ := Option.map_eq_some_iff.1 h
      obtain ⟨hle, hfits⟩ := sectionTrim_longest hk
      refine ⟨Nat.succ_le_succ hle, fun m h0 hm => ?_⟩
      cases m with
      | zero => exact absurd h0 (Nat.lt_irrefl 0)
      | succ m =>
        rw [List.take_succ_cons, cost_cons, Nat.add_le_add_iff_right]
        rcases Nat.eq_zero_or_pos m with rfl | hm0
        · simp only [List.take_zero, cost, List.map_nil, List.sum_nil, Nat.zero_le, true_iff]
          omega
        · rw [hfits m hm0 (Nat.le_of_succ_le_succ hm)]
          omega

/-! ## The emitted lines -/

/-- **The block and its closing newline are the lines that were measured.** -/
theorem sectionBlock_newline {rs : List Clone} (h : rs ≠ []) :
    sectionBlock rs ++ [10] = rs.flatMap recordLine := by
  obtain ⟨r, rs, rfl⟩ := List.exists_cons_of_ne_nil h
  rw [sectionBlock, List.flatMap_cons]
  have htail : ∀ l : List Clone,
      (l.flatMap fun r => 10 :: blockLine r) ++ [10] = 10 :: l.flatMap recordLine := by
    intro l
    induction l with
    | nil => rfl
    | cons r l ih =>
      rw [List.flatMap_cons, List.append_assoc, ih, List.flatMap_cons]
      simp [recordLine, blockLine]
  rw [List.append_assoc, htail]
  simp [recordLine, blockLine]

theorem recordLine_eq (r : Clone) : recordLine r = blockLine r ++ [10] := rfl

theorem infix_blockLine {rs : List Clone} {r : Clone} (h : r ∈ rs) :
    blockLine r <:+: sectionBlock rs := by
  cases rs with
  | nil => cases h
  | cons a rs =>
    rcases List.mem_cons.1 h with rfl | h
    · exact (List.prefix_append _ _).isInfix
    · obtain ⟨l, l', rfl⟩ := List.append_of_mem h
      rw [sectionBlock, List.flatMap_append, List.flatMap_cons]
      exact ⟨blockLine a ++ l.flatMap (fun r => 10 :: blockLine r) ++ [10],
        l'.flatMap fun r => 10 :: blockLine r, by simp⟩

/-! ## Filling in the template -/

theorem text_marked (p : Placeholder) : ∃ t, p.text = 123 :: t ∧ 123 ∉ t ∧ 10 ∉ t := by
  refine ⟨p.text.tail, ?_⟩
  rcases p with _ | (_ | _ | _) | _ <;> decide

theorem newline_notMem_text (p : Placeholder) : 10 ∉ p.text := by
  obtain ⟨t, ht, -, hn⟩ := text_marked p
  rw [ht, List.mem_cons, not_or]
  exact ⟨by decide, hn⟩

/-- The placeholders as names that start with a brace. -/
def names : Names Placeholder UInt8 where
  entries := placeholders.map fun p => (p, p.text)
  mark := 123
  marked := by
    intro e he
    obtain ⟨p, -, rfl⟩ := List.mem_map.1 he
    obtain ⟨t, ht, hb, -⟩ := text_marked p
    exact ⟨t, ht, hb⟩
  apart := by decide

theorem mem_placeholders (p : Placeholder) : p ∈ placeholders := by
  rcases p with _ | (_ | _ | _) | _ <;> decide

theorem names_at (s : Bytes) :
    names.at s = (placeholders.find? fun p => p.text.isPrefixOf s).map fun p => (p, p.text) := by
  rw [Names.at, names, List.find?_map]
  rfl

/-- A placeholder is found where it stands. -/
theorem mem_pieces (p : Placeholder) (s : Bytes) : .inr p ∈ pieces names 0 s ↔ p.text <:+: s := by
  have he : (p, p.text) ∈ names.entries := List.mem_map_of_mem (mem_placeholders p)
  refine inr_mem_pieces he fun d hd hp => ?_
  obtain ⟨q, -, rfl⟩ := List.mem_map.1 hd
  obtain rfl : q = p := hp
  rfl

theorem substituteAux_eq_expand (value : Placeholder → Bytes) : ∀ (fuel : Nat) (s : Bytes),
    s.length ≤ fuel → substituteAux value fuel s = expand value (pieces names 0 s)
  | 0, s, h => by
    rw [List.length_eq_zero_iff.1 (Nat.le_zero.1 h)]
    rfl
  | fuel + 1, s, h => by
    have hcopy : ∀ v, pieces names 0 (s.takeWhile (· ≠ 123) ++ v) =
        (s.takeWhile (· ≠ 123)).map .inl ++ pieces names 0 v := by
      intro v
      refine pieces_append ?_
      show 123 ∉ _
      intro hm
      simpa using List.mem_takeWhile_imp hm
    have hlen : (s.dropWhile (· ≠ 123)).length ≤ fuel + 1 :=
      Nat.le_trans (List.dropWhile_sublist _).length_le h
    rw [substituteAux, ← List.takeWhile_append_dropWhile (p := (· ≠ 123)) (l := s), hcopy,
      expand_append, expand_map_inl, List.takeWhile_append_dropWhile]
    congr 1
    generalize s.dropWhile (· ≠ 123) = r at hlen ⊢
    cases r with
    | nil => rfl
    | cons b t =>
      have ht : t.length ≤ fuel := Nat.le_of_succ_le_succ hlen
      have hat := names_at (b :: t)
      dsimp only
      split
      · next p hp =>
        rw [hp] at hat
        rw [pieces_name hat, expand_inr, substituteAux_eq_expand value fuel]
        have hpos : 0 < p.text.length := by
          obtain ⟨u, hu, -⟩ := text_marked p
          rw [hu, List.length_cons]
          exact Nat.succ_pos _
        rw [List.length_drop]
        omega
      · next hp =>
        rw [hp] at hat
        rw [pieces_mark hat, expand_inl, substituteAux_eq_expand value fuel t ht]

/-- **Only the text given is read for placeholders**: the values are written as they are. -/
theorem substitute_eq_expand (value : Placeholder → Bytes) (s : Bytes) :
    substitute value s = expand value (pieces names 0 s) :=
  substituteAux_eq_expand value _ s (Nat.le_refl _)

/-! ## The lines of the template -/

theorem infix_append_newline {w v : Bytes} (hw : 10 ∉ w) :
    ∀ {u : Bytes}, w <:+: u ++ 10 :: v → w <:+: u ∨ w <:+: v
  | [], h => by
    rcases List.infix_cons_iff.1 h with h | h
    · cases w with
      | nil => exact .inl (List.nil_infix)
      | cons b w => exact absurd ((List.cons_prefix_cons.1 h).1 ▸ List.mem_cons_self) hw
    · exact .inr h
  | a :: u, h => by
    rw [List.cons_append] at h
    rcases List.infix_cons_iff.1 h with h | h
    · rw [← List.cons_append] at h
      rcases List.prefix_or_prefix_of_prefix h (List.prefix_append (a :: u) _) with hp | ⟨r, rfl⟩
      · exact .inl hp.isInfix
      · cases r with
        | nil => exact .inl (by simp)
        | cons b r =>
          obtain ⟨rfl, -⟩ := List.cons_prefix_cons.1 ((List.prefix_append_right_inj (a :: u)).1 h)
          exact absurd (by simp) hw
    · refine (infix_append_newline hw h).imp_left fun h => h.trans (List.suffix_cons a u).isInfix

/-- Every line but the last ends in a newline. -/
def Terminated (ls : List Bytes) : Prop := ls.Pairwise fun a _ => a.getLast? = some 10

/-- What has no newline in it stands on one of the lines. -/
theorem infix_flatten {w : Bytes} (hw : 10 ∉ w) (hne : w ≠ []) :
    ∀ {ls : List Bytes}, Terminated ls → (w <:+: ls.flatten ↔ ∃ l ∈ ls, w <:+: l)
  | [], _ => by simpa using hne
  | [l], _ => by simp
  | l :: m :: ls, h => by
    obtain ⟨hl, hls⟩ := List.pairwise_cons.1 h
    obtain ⟨u, rfl⟩ : ∃ u, l = u ++ [10] := by
      obtain ⟨u, hu⟩ := List.getLast?_eq_some_iff.1 (hl m (.head _))
      exact ⟨u, hu⟩
    have ih := infix_flatten hw hne hls
    rw [List.flatten_cons]
    constructor
    · intro h
      rw [List.append_assoc] at h
      rcases infix_append_newline hw h with h | h
      · exact ⟨u ++ [10], .head _, h.trans (List.prefix_append u [10]).isInfix⟩
      · obtain ⟨l, hl, hwl⟩ := ih.1 h
        exact ⟨l, .tail _ hl, hwl⟩
    · rintro ⟨l, hl, hwl⟩
      rcases List.mem_cons.1 hl with rfl | hl
      · exact hwl.trans (List.prefix_append _ _).isInfix
      · exact (ih.2 ⟨l, hl, hwl⟩).trans (List.suffix_append _ _).isInfix

theorem splitLines_terminated : ∀ s : Bytes, Terminated (splitLines s)
  | [] => List.Pairwise.nil
  | b :: s => by
    have ih := splitLines_terminated s
    rw [splitLines]
    split
    · exact List.pairwise_cons.2 ⟨fun _ _ => rfl, ih⟩
    · split
      · exact List.pairwise_singleton _ _
      · next l ls hls =>
        rw [hls] at ih
        obtain ⟨hl, hls⟩ := List.pairwise_cons.1 ih
        refine List.pairwise_cons.2 ⟨fun m hm => ?_, hls⟩
        rw [List.getLast?_cons, hl m hm]
        rfl

/-- A placeholder on a line stands before its newline. -/
theorem text_infix_lineBody {p : Placeholder} {l : Bytes} (h : p.text <:+: l) :
    p.text <:+: lineBody l := by
  unfold lineBody
  split
  · next hl =>
    obtain ⟨u, rfl⟩ := List.getLast?_eq_some_iff.1 hl
    rw [List.dropLast_concat]
    rcases infix_append_newline (newline_notMem_text p) h with h | h
    · exact h
    · obtain ⟨t, ht, -⟩ := text_marked p
      rw [ht] at h
      exact absurd h (by simp)
  · exact h

theorem tmplLine_barrier {s : Section} {l : Bytes} (h : (Placeholder.block s).text <:+: l) :
    (tmplLine l).barrier = true := by
  have hb := strstr_isSome.2 (text_infix_lineBody h)
  cases s <;> simp [tmplLine, hb]

/-- A blank line holds no placeholder. -/
theorem tmplLine_blank {l : Bytes} (h : (tmplLine l).blank = true) :
    (tmplLine l).barrier = false := by
  have hno : ∀ p : Placeholder, (strstr p.text (lineBody l)).isSome = false := by
    intro p
    by_contra hs
    obtain ⟨t, ht, -⟩ := text_marked p
    have hin := strstr_isSome.1 (Bool.eq_true_of_not_eq_false hs)
    have hmem : (123 : UInt8) ∈ lineBody l := hin.subset (ht ▸ List.mem_cons_self)
    exact absurd (List.all_eq_true.1 h 123 hmem) (by decide)
  simp [tmplLine, hno]

/-! ## Dropping segments -/

/-- `ls'` is `ls` with more lines dropped, `P` those among them that hold a placeholder of a block or
of the base prompt. -/
structure Cut (P : Nat → Prop) (ls ls' : List TmplLine) : Prop where
  length : ls'.length = ls.length
  line : ∀ (i : Nat) (l l' : TmplLine), ls[i]? = some l → ls'[i]? = some l' →
    l'.text = l.text ∧ l'.blank = l.blank ∧ l'.barrier = l.barrier ∧
      (l.barrier = true → (l'.drop = true ↔ l.drop = true ∨ P i))

theorem Cut.refl (ls : List TmplLine) : Cut (fun _ => False) ls ls where
  length := rfl
  line i l l' h h' := by
    obtain rfl := Option.some.inj (h.symm.trans h')
    simp

theorem Cut.trans {P Q : Nat → Prop} {ls ms ns : List TmplLine} (h : Cut P ls ms)
    (h' : Cut Q ms ns) : Cut (fun i => P i ∨ Q i) ls ns where
  length := h'.length.trans h.length
  line i l n hl hn := by
    obtain ⟨m, hm⟩ : ∃ m, ms[i]? = some m := by
      have hi := (List.getElem?_eq_some_iff.1 hl).1
      exact ⟨_, List.getElem?_eq_getElem (h.length ▸ hi)⟩
    obtain ⟨ht, hb, hr, hd⟩ := h.line i l m hl hm
    obtain ⟨ht', hb', hr', hd'⟩ := h'.line i m n hm hn
    refine ⟨ht'.trans ht, hb'.trans hb, hr'.trans hr, fun hbar => ?_⟩
    rw [hd' (hr.trans hbar), hd hbar, or_assoc]

theorem Cut.mono {P Q : Nat → Prop} {ls ms : List TmplLine} (h : Cut P ls ms)
    (hPQ : ∀ i, P i ↔ Q i) : Cut Q ls ms where
  length := h.length
  line i l l' hl hl' := by
    obtain ⟨ht, hb, hr, hd⟩ := h.line i l l' hl hl'
    exact ⟨ht, hb, hr, fun hbar => by rw [hd hbar, hPQ]⟩

theorem setDrop_cut (ls : List TmplLine) (i : Nat) : Cut (fun j => j = i) ls (setDrop ls i) where
  length := List.length_modify ..
  line j l l' hl hl' := by
    rw [setDrop, List.getElem?_modify, hl] at hl'
    obtain rfl := Option.some.inj hl'
    by_cases hji : i = j
    · simp [hji]
    · simp [hji, Ne.symm hji]

/-- No blank line holds a placeholder. -/
def BlankPlain (ls : List TmplLine) : Prop := ∀ l ∈ ls, l.blank = true → l.barrier = false

theorem Cut.blankPlain {P : Nat → Prop} {ls ms : List TmplLine} (h : Cut P ls ms)
    (hb : BlankPlain ls) : BlankPlain ms := by
  intro m hm hblank
  obtain ⟨i, hi, rfl⟩ := List.getElem_of_mem hm
  have hi' : i < ls.length := h.length ▸ hi
  obtain ⟨-, hbl, hbar, -⟩ :=
    h.line i _ _ (List.getElem?_eq_getElem hi') (List.getElem?_eq_getElem hi)
  rw [hbar]
  exact hb _ (List.getElem_mem hi') (hbl ▸ hblank)

/-- A line without a placeholder is dropped without one. -/
theorem setDrop_plain {ls : List TmplLine} {i : Nat} {l : TmplLine} (hl : ls[i]? = some l)
    (hbar : l.barrier = false) : Cut (fun _ => False) ls (setDrop ls i) where
  length := (setDrop_cut ls i).length
  line j m m' hm hm' := by
    obtain ⟨ht, hb, hr, hd⟩ := (setDrop_cut ls i).line j m m' hm hm'
    refine ⟨ht, hb, hr, fun hmbar => ?_⟩
    rw [hd hmbar]
    refine or_congr_right ⟨fun hji => ?_, False.elim⟩
    rw [hji, hl] at hm
    rw [← Option.some.inj hm, hbar] at hmbar
    exact absurd hmbar (by decide)

/-- A heading walk stops at a placeholder. -/
theorem dropHeading_cut : ∀ (i : Nat) {ls : List TmplLine}, BlankPlain ls →
    Cut (fun _ => False) ls (dropHeading ls i)
  | 0, ls, _ => Cut.refl ls
  | i + 1, ls, hb => by
    rw [dropHeading]
    split
    · next l hl =>
      split
      · next hc =>
        simp only [Bool.and_eq_true, Bool.not_eq_true'] at hc
        have hcut := setDrop_plain hl hc.2
        exact (hcut.trans (dropHeading_cut i (hcut.blankPlain hb))).mono fun _ => or_self_iff
      · split
        · next hc =>
          simp only [Bool.and_eq_true, Bool.not_eq_true'] at hc
          exact setDrop_plain hl (hb l (List.mem_of_getElem? hl) hc.1)
        · exact Cut.refl ls
    · exact Cut.refl ls

theorem dropSegment_cut {ls : List TmplLine} (pl : Nat) (hb : BlankPlain ls) :
    Cut (fun i => i = pl) ls (dropSegment ls pl) :=
  ((setDrop_cut ls pl).trans (dropHeading_cut pl ((setDrop_cut ls pl).blankPlain hb))).mono
    fun _ => by rw [or_false]

theorem Cut.lineOf {P : Nat → Prop} : ∀ {ls ms : List TmplLine}, Cut P ls ms →
    ∀ pos, lineOf ms pos = lineOf ls pos
  | [], [], _, _ => rfl
  | [], m :: ms, h, _ => absurd h.length (by simp)
  | l :: ls, [], h, _ => absurd h.length (by simp)
  | l :: ls, m :: ms, h, pos => by
    have ht := (h.line 0 l m rfl rfl).1
    have htail : Cut (fun i => P (i + 1)) ls ms :=
      ⟨Nat.succ.inj h.length, fun i a b ha hb => h.line (i + 1) a b ha hb⟩
    rw [Inject.lineOf, Inject.lineOf, ht, htail.lineOf]

/-- The line where the placeholder of a section stands first. -/
def firstLine (tmpl : Bytes) (s : Section) : Option Nat :=
  (strstr (Placeholder.block s).text tmpl).map (lineOf (templateLines tmpl))

theorem dropSection_cut {P : Nat → Prop} {tmpl : Bytes} {kept : Section → Nat}
    {ls : List TmplLine} (h : Cut P (templateLines tmpl) ls) (hb : BlankPlain (templateLines tmpl))
    (s : Section) : Cut (fun i => P i ∨ kept s = 0 ∧ firstLine tmpl s = some i)
      (templateLines tmpl) (dropSection tmpl kept ls s) := by
  have hnone : ∀ Q : Nat → Prop, (∀ i, i < ls.length → ¬ Q i) →
      Cut (fun i => P i ∨ Q i) (templateLines tmpl) ls := fun Q hQ =>
    ⟨h.length, fun i l l' hl hl' => by
      obtain ⟨ht, hbl, hr, hd⟩ := h.line i l l' hl hl'
      refine ⟨ht, hbl, hr, fun hbar => ?_⟩
      rw [hd hbar, or_iff_left (hQ i (List.getElem?_eq_some_iff.1 hl').1)]⟩
  unfold dropSection
  split
  · next hk =>
    split
    · next pos hpos =>
      have hfirst : firstLine tmpl s = some (lineOf ls pos) := by
        rw [firstLine, hpos, h.lineOf]
        rfl
      split
      · refine (h.trans (dropSegment_cut (lineOf ls pos) (h.blankPlain hb))).mono fun i => ?_
        rw [hfirst, Option.some_inj]
        exact or_congr_right ⟨fun hi => ⟨hk, hi.symm⟩, fun hi => hi.2.symm⟩
      · next hlt =>
        refine hnone _ fun i hi hq => ?_
        rw [hfirst, Option.some_inj] at hq
        exact hlt (hq.2 ▸ hi)
    · next hpos =>
      refine hnone _ fun i _ hq => ?_
      rw [firstLine, hpos] at hq
      cases hq.2
  · next hk => exact hnone _ fun i _ hq => hk hq.1

/-! ## The prompt -/

/-- What is written into the prompt, the values left open: it takes the template and which sections are
empty. -/
def layout (tmpl : Bytes) (empty : Section → Bool) : List (UInt8 ⊕ Placeholder) :=
  pieces names 0 (joined ([Section.identity, .context, .project].foldl
    (dropSection tmpl fun s => if empty s then 0 else 1) (templateLines tmpl)))

theorem dropSection_congr {tmpl : Bytes} {kept kept' : Section → Nat} {s : Section}
    (h : kept s = 0 ↔ kept' s = 0) (ls : List TmplLine) :
    dropSection tmpl kept ls s = dropSection tmpl kept' ls s := by
  unfold dropSection
  simp only [h]

theorem foldl_dropSection_cut (tmpl : Bytes) (kept : Section → Nat) :
    Cut (fun i => ∃ s, kept s = 0 ∧ firstLine tmpl s = some i) (templateLines tmpl)
      ([Section.identity, .context, .project].foldl (dropSection tmpl kept)
        (templateLines tmpl)) := by
  have hb : BlankPlain (templateLines tmpl) := by
    intro l hl
    obtain ⟨t, -, rfl⟩ := List.mem_map.1 hl
    exact tmplLine_blank
  refine (dropSection_cut (dropSection_cut (dropSection_cut (Cut.refl _) hb .identity) hb .context)
    hb .project).mono fun i => ⟨?_, ?_⟩
  · rintro (((h | h) | h) | h)
    · exact h.elim
    · exact ⟨_, h⟩
    · exact ⟨_, h⟩
    · exact ⟨_, h⟩
  · rintro ⟨s, h⟩
    cases s with
    | identity => exact .inl (.inl (.inr h))
    | context => exact .inl (.inr h)
    | project => exact .inr h

theorem Cut.map_text {P : Nat → Prop} {ls ms : List TmplLine} (h : Cut P ls ms) :
    ms.map (·.text) = ls.map (·.text) := by
  refine List.ext_getElem? fun i => ?_
  rw [List.getElem?_map, List.getElem?_map]
  by_cases hi : i < ls.length
  · have hi' : i < ms.length := h.length ▸ hi
    rw [List.getElem?_eq_getElem hi, List.getElem?_eq_getElem hi']
    exact congrArg some
      (h.line i _ _ (List.getElem?_eq_getElem hi) (List.getElem?_eq_getElem hi')).1
  · have hlen := h.length
    rw [List.getElem?_eq_none (by omega), List.getElem?_eq_none (by omega)]

theorem map_text_templateLines (tmpl : Bytes) :
    (templateLines tmpl).map (·.text) = splitLines tmpl := by
  rw [templateLines, List.map_map]
  exact List.map_id _

/-- **A block is written where its placeholder stands**, but for the first line of a section that is
empty. -/
theorem block_mem_layout {tmpl : Bytes} {empty : Section → Bool} {s : Section} :
    .inr (.block s) ∈ layout tmpl empty ↔
      ∃ i l, (splitLines tmpl)[i]? = some l ∧ (Placeholder.block s).text <:+: l ∧
        ∀ s', empty s' = true → firstLine tmpl s' ≠ some i := by
  have hcut := foldl_dropSection_cut tmpl fun s => if empty s then 0 else 1
  rw [layout, mem_pieces]
  generalize [Section.identity, .context, .project].foldl _ (templateLines tmpl) = ls at hcut ⊢
  have hmap := hcut.map_text.trans (map_text_templateLines tmpl)
  have hsub : ((ls.filter fun l => !l.drop).map (·.text)).Sublist (splitLines tmpl) :=
    hmap ▸ List.filter_sublist.map _
  have hne : (Placeholder.block s).text ≠ [] := by
    obtain ⟨t, ht, -⟩ := text_marked (.block s)
    rw [ht]
    exact List.cons_ne_nil _ _
  rw [joined, List.flatMap_def, infix_flatten (newline_notMem_text _) hne
    ((splitLines_terminated tmpl).sublist hsub)]
  -- a line that holds the placeholder is dropped as the first line of an empty section only
  have hline : ∀ (i : Nat) (l : TmplLine), ls[i]? = some l →
      (splitLines tmpl)[i]? = some l.text ∧ ((Placeholder.block s).text <:+: l.text →
        (l.drop = true ↔ ∃ s', empty s' = true ∧ firstLine tmpl s' = some i)) := by
    intro i l hl
    have htext : (splitLines tmpl)[i]? = some l.text := by
      rw [← hmap, List.getElem?_map, hl]
      rfl
    refine ⟨htext, fun hin => ?_⟩
    have hat : (templateLines tmpl)[i]? = some (tmplLine l.text) := by
      rw [templateLines, List.getElem?_map, htext]
      rfl
    obtain ⟨-, -, -, hd⟩ := hcut.line i _ l hat hl
    rw [hd (tmplLine_barrier hin)]
    simp [tmplLine]
  constructor
  · rintro ⟨t, ht, hin⟩
    obtain ⟨l, hl, rfl⟩ := List.mem_map.1 ht
    obtain ⟨hmem, hkeep⟩ := List.mem_filter.1 hl
    obtain ⟨i, hi⟩ := List.mem_iff_getElem?.1 hmem
    obtain ⟨htext, hdrop⟩ := hline i l hi
    refine ⟨i, l.text, htext, hin, fun s' he hf => ?_⟩
    rw [(hdrop hin).2 ⟨s', he, hf⟩] at hkeep
    exact absurd hkeep (by decide)
  · rintro ⟨i, t, ht, hin, hfirst⟩
    rw [← hmap, List.getElem?_map] at ht
    obtain ⟨l, hl, rfl⟩ := Option.map_eq_some_iff.1 ht
    obtain ⟨-, hdrop⟩ := hline i l hl
    refine ⟨l.text, List.mem_map_of_mem (List.mem_filter.2 ⟨List.mem_of_getElem? hl, ?_⟩), hin⟩
    cases hd : l.drop with
    | false => rfl
    | true =>
      obtain ⟨s', he, hf⟩ := (hdrop hin).1 hd
      exact absurd hf (hfirst s' he)

theorem renderPrompt_eq {tmpl base pname : Bytes} {recs : Section → List Clone}
    {kept : Section → Nat} (h : ∃ s, kept s ≠ 0) : renderPrompt tmpl base pname recs kept =
      expand (values base pname recs kept) (layout tmpl fun s => kept s = 0) := by
  have hsum : ¬ kept .identity + kept .context + kept .project = 0 := by
    obtain ⟨s, hs⟩ := h
    cases s <;> omega
  rw [renderPrompt, if_neg hsum, substitute_eq_expand, layout]
  congr 3
  refine List.foldl_ext _ _ _ fun ls s _ => dropSection_congr ?_ ls
  by_cases hk : kept s = 0 <;> simp [hk]

/-- What a call that succeeds gives: `kept s` are the records of section `s` that stay. -/
structure Renders (cfg : Config) (tmpl base pname : Bytes) (recs : Section → List Clone)
    (kept : Section → Nat) (out : Rendered) : Prop where
  present : ∀ s, (Placeholder.block s).text <:+: tmpl →
    LongestRun cfg (cfg.budget s) (recs s) (kept s)
  absent : ∀ s, ¬ (Placeholder.block s).text <:+: tmpl → kept s = 0
  length : ∀ s, (out.recs s).length = (recs s).length
  score : ∀ s i r r', (recs s)[i]? = some r → (out.recs s)[i]? = some r' →
    r'.record = r.record ∧ (r.score ≠ -1 → (r'.score ≠ -1 ↔ i < kept s))
  nothing : (∀ s, kept s = 0) → out.prompt = base
  prompt : (∃ s, kept s ≠ 0) →
    out.prompt = expand (values base pname recs kept) (layout tmpl fun s => kept s = 0)
  oneLine : ∀ s, ∀ r ∈ recs s, OneLine (blockLine r) ∧ recordLine r = blockLine r ++ [10]
  charged : ∀ s, kept s ≠ 0 → sectionBlock ((recs s).take (kept s)) ++ [10] =
    ((recs s).take (kept s)).flatMap recordLine
  shown : ∀ s i l, (splitLines tmpl)[i]? = some l → (Placeholder.block s).text <:+: l →
    (∀ s', kept s' = 0 → firstLine tmpl s' ≠ some i) →
    ∀ r ∈ (recs s).take (kept s), blockLine r <:+: out.prompt

theorem keptOf_spec {cfg : Config} {tmpl : Bytes} {recs : Section → List Clone} {s : Section}
    {n : Nat} (h : keptOf cfg tmpl recs s = some n) :
    ((Placeholder.block s).text <:+: tmpl → LongestRun cfg (cfg.budget s) (recs s) n) ∧
      (¬ (Placeholder.block s).text <:+: tmpl → n = 0) := by
  rw [keptOf] at h
  split at h
  · next hnone =>
    obtain rfl : 0 = n := Option.some.inj h
    refine ⟨fun hin => ?_, fun _ => rfl⟩
    rw [← strstr_isSome, hnone] at hin
    cases hin
  · next pos hpos =>
    refine ⟨fun _ => ?_, fun hn => absurd (strstr_isSome.1 (hpos ▸ rfl)) hn⟩
    have hrun := sectionTrim_longest h
    rwa [Int.sub_zero] at hrun

theorem markDropped_getElem? {kept i : Nat} {rs : List Clone} {r r' : Clone}
    (hk : kept ≤ rs.length) (h : rs[i]? = some r) (h' : (markDropped kept rs)[i]? = some r') :
    r' = if i < kept then r else { r with score := -1 } := by
  rw [markDropped] at h'
  split
  · next hlt =>
    rw [List.getElem?_append_left (by rw [List.length_take]; omega), List.getElem?_take_of_lt hlt,
      h] at h'
    exact (Option.some.inj h').symm
  · next hge =>
    rw [List.getElem?_append_right (by rw [List.length_take]; omega), List.getElem?_map,
      List.getElem?_drop, List.length_take, Nat.min_eq_left hk,
      Nat.add_sub_cancel' (Nat.le_of_not_lt hge), h] at h'
    exact (Option.some.inj h').symm

theorem markDropped_length (kept : Nat) (rs : List Clone) :
    (markDropped kept rs).length = rs.length := by
  rw [markDropped, List.length_append, List.length_map, List.length_take, List.length_drop]
  omega

theorem render_some {cfg : Config} {base pname : Bytes} {recs : Section → List Clone}
    {out : Rendered} (h : render cfg base pname recs = some (.ok out)) :
    ∃ tmpl kept, cfg.readTemplate = .ok tmpl ∧ (∀ s, keptOf cfg tmpl recs s = some (kept s)) ∧
      out = { prompt := renderPrompt tmpl base pname recs kept
              recs := fun s => markDropped (kept s) (recs s) } := by
  rw [render] at h
  split at h
  · cases h
  · next tmpl htmpl =>
    obtain ⟨identity, hi, h⟩ := Option.bind_eq_some_iff.1 h
    obtain ⟨context, hc, h⟩ := Option.bind_eq_some_iff.1 h
    obtain ⟨project, hp, h⟩ := Option.bind_eq_some_iff.1 h
    refine ⟨tmpl, _, htmpl, fun s => ?_, (Except.ok.inj (Option.some.inj h)).symm⟩
    cases s with
    | identity => exact hi
    | context => exact hc
    | project => exact hp

/-- **What a call that succeeds gives.** Each section whose placeholder is in the template keeps the
longest run of records that its budget allows, another section none, and the scores say which. The
prompt is a layout of the template in which the lines of the records are written as they were measured,
each of them one line, wherever a placeholder of their section is left. -/
theorem render_renders {cfg : Config} {base pname : Bytes} {recs : Section → List Clone}
    {out : Rendered} (h : render cfg base pname recs = some (.ok out)) :
    ∃ tmpl kept, cfg.readTemplate = .ok tmpl ∧ Renders cfg tmpl base pname recs kept out := by
  obtain ⟨tmpl, kept, htmpl, hkept, rfl⟩ := render_some h
  have hle : ∀ s, kept s ≤ (recs s).length := by
    intro s
    obtain ⟨hpresent, habsent⟩ := keptOf_spec (hkept s)
    by_cases hin : (Placeholder.block s).text <:+: tmpl
    · exact (hpresent hin).le
    · rw [habsent hin]
      exact Nat.zero_le _
  refine ⟨tmpl, kept, htmpl, ?_⟩
  constructor
  case present => exact fun s => (keptOf_spec (hkept s)).1
  case absent => exact fun s => (keptOf_spec (hkept s)).2
  case length => exact fun s => markDropped_length (kept s) (recs s)
  case score =>
    intro s i r r' hr hr'
    rw [markDropped_getElem? (hle s) hr hr']
    split
    · next hlt => exact ⟨rfl, fun hs => iff_of_true hs hlt⟩
    · next hge => exact ⟨rfl, fun _ => iff_of_false (fun hn => hn rfl) hge⟩
  case nothing =>
    intro hz
    show renderPrompt tmpl base pname recs kept = base
    rw [renderPrompt, if_pos (by simp [hz])]
  case prompt => exact renderPrompt_eq
  case oneLine => exact fun s r _ => ⟨blockLine_oneLine r, recordLine_eq r⟩
  case charged =>
    intro s hs
    refine sectionBlock_newline fun hnil => ?_
    have hlen := congrArg List.length hnil
    rw [List.length_take, Nat.min_eq_left (hle s)] at hlen
    exact hs hlen
  case shown =>
    intro s i l hl hin hfirst r hr
    have hpos : kept s ≠ 0 := by
      intro h0
      rw [h0, List.take_zero] at hr
      cases hr
    show blockLine r <:+: renderPrompt tmpl base pname recs kept
    rw [renderPrompt_eq ⟨s, hpos⟩]
    have hmem : .inr (.block s) ∈ layout tmpl fun s => kept s = 0 :=
      block_mem_layout.2 ⟨i, l, hl, hin, fun s' he => hfirst s' (of_decide_eq_true he)⟩
    have hblock : values base pname recs kept (.block s) <:+: _ := infix_expand hmem
    exact (infix_blockLine hr).trans hblock

/-- A record the host added by hand. -/
def note : Clone where
  record := {
    id := ascii "00000000-0000-4000-8000-000000000000", section_ := .identity, project := none
    content := ascii "likes tea", source := .manual
    evidence := ⟨.declared, .heuristic, 1, 0, 0, ascii "user:manual", [], []⟩
    createdAt := 0, updatedAt := 0, lastAccess := 0, accessCount := 0, relevance := 1
    locked := false, deprecated := false, deprecatedAt := 0, tags := [], sourceRefs := [] }
  status := .current
  revision := 0
  score := 0
  named := by decide

/-- A store with one note, and a template of its own. -/
def noteConfig (template : Bytes) : Config where
  template := some (.ok template)
  countTokens := none
  identityTokens := 400
  contextTokens := 600
  projectTokens := 800

def noteRecs : Section → List Clone
  | .identity => [note]
  | _ => []

theorem render_renders_note : ∃ out,
    render (noteConfig (ascii "About you:\n{identity_block}\n")) (ascii "Hi") [] noteRecs =
      some (.ok out) ∧
    ∃ tmpl kept, (noteConfig (ascii "About you:\n{identity_block}\n")).readTemplate = .ok tmpl ∧
      Renders (noteConfig (ascii "About you:\n{identity_block}\n")) tmpl (ascii "Hi") [] noteRecs
        kept out :=
  ⟨_, rfl, render_renders rfl⟩

/-- A template without the placeholder of a section: the record of the section fits its budget, and is
marked as dropped. -/
theorem render_without_placeholder : ∃ out,
    render (noteConfig (ascii "Be brief.\n")) (ascii "Hi") [] noteRecs = some (.ok out) ∧
      cost (noteConfig (ascii "Be brief.\n")) [note] ≤ 400 ∧
      ∀ r ∈ out.recs .identity, r.score = -1 :=
  ⟨_, rfl, by decide, by decide⟩

end Asper.Inject
