import Asper.Curator.Proof.Grammar
import Asper.Curator.Proof.Parse

/-! # Grammar, expression and parser agree

`LegalAnswer` says which lines an answer holds. The language `answerLang` has the answers of such
lines and no others (`mem_answerLang`); with the languages of the two notations and the round trip of
the parser this is `gbnf_regex_parse`. -/

namespace Asper

open Durable
open Decimal (dec)

/-! ## The lines of the language -/

theorem mem_singleton_mul {α : Type} {w s : List α} {L : Language α} :
    s ∈ ({w} : Language α) * L ↔ ∃ u ∈ L, s = w ++ u := by
  rw [Language.mem_mul]
  constructor
  · rintro ⟨a, ha, u, hu, rfl⟩
    exact ⟨u, hu, by rw [show a = w from ha]⟩
  · rintro ⟨u, hu, rfl⟩
    exact ⟨w, rfl, u, hu, rfl⟩

theorem mem_textLang {s : Bytes} :
    s ∈ textLang ↔ s ≠ [] ∧ ∀ b ∈ s, b ∉ ([124, 10, 13] : Bytes) := by
  have hstar : ∀ s : Bytes, s ∈ KStar.kstar (anyBut [124, 10, 13] : Language UInt8) ↔
      ∀ b ∈ s, b ∉ ([124, 10, 13] : Bytes) := by
    intro s
    rw [Language.mem_kstar]
    constructor
    · rintro ⟨L, rfl, hL⟩ b hb
      obtain ⟨t, ht, hb⟩ := List.mem_flatten.1 hb
      obtain ⟨c, hc, rfl⟩ := hL t ht
      exact List.mem_singleton.1 hb ▸ hc
    · intro h
      refine ⟨s.map fun b => [b], (List.flatMap_singleton' s).symm, fun t ht => ?_⟩
      obtain ⟨b, hb, rfl⟩ := List.mem_map.1 ht
      exact ⟨b, h b hb, rfl⟩
  rw [textLang, Language.mem_mul]
  constructor
  · rintro ⟨a, ⟨c, hc, rfl⟩, u, hu, rfl⟩
    exact ⟨List.cons_ne_nil _ _, List.forall_mem_cons.2 ⟨hc, (hstar u).1 hu⟩⟩
  · rintro ⟨hne, h⟩
    cases s with
    | nil => exact absurd rfl hne
    | cons c s =>
      exact ⟨[c], ⟨c, h c (.head _), rfl⟩, s, (hstar s).2 fun b hb => h b (.tail _ hb), rfl⟩

theorem mem_handlesLang {n : Nat} {s : Bytes} :
    s ∈ handlesLang n ↔ ∃ h, 1 ≤ h ∧ h ≤ n ∧ s = ascii "M" ++ dec h := by
  have hsum : ∀ (is : List Nat), s ∈ (is.map fun i => ({handleText i} : Language UInt8)).sum ↔
      ∃ i ∈ is, s = handleText i := by
    intro is
    induction is with
    | nil => exact ⟨fun h => absurd h (Language.notMem_zero s), fun ⟨i, hi, _⟩ => nomatch hi⟩
    | cons i is ih =>
      rw [List.map_cons, List.sum_cons, Language.mem_add, ih]
      constructor
      · rintro (h | ⟨j, hj, h⟩)
        · exact ⟨i, .head _, h⟩
        · exact ⟨j, .tail _ hj, h⟩
      · rintro ⟨j, hj, h⟩
        cases hj with
        | head => exact .inl h
        | tail _ hj => exact .inr ⟨j, hj, h⟩
  rw [handlesLang, hsum]
  constructor
  · rintro ⟨i, hi, rfl⟩
    exact ⟨i + 1, by omega, by rw [List.mem_range] at hi; omega, rfl⟩
  · rintro ⟨h, h1, hn, rfl⟩
    exact ⟨h - 1, List.mem_range.2 (by omega), by rw [handleText, Nat.sub_add_cancel h1]⟩

theorem mem_textTail {s : Bytes} :
    s ∈ ({ascii " | "} : Language UInt8) * textLang ↔
      ∃ u, (u ≠ [] ∧ ∀ b ∈ u, b ∉ ([124, 10, 13] : Bytes)) ∧ s = ascii " | " ++ u := by
  rw [mem_singleton_mul]
  simp only [mem_textLang]

theorem mem_changeLang {word s : Bytes} {n : Nat} (h0 : 0 ∉ s) :
    s ∈ changeLang word n ↔ ∃ h t, (1 ≤ h ∧ h ≤ n) ∧ Writable t ∧
      s = word ++ ((ascii "M" ++ dec h) ++ (ascii " | " ++ t.val)) := by
  rw [changeLang, mem_singleton_mul]
  constructor
  · rintro ⟨u, hu, rfl⟩
    obtain ⟨a, ha, v, hv, rfl⟩ := Language.mem_mul.1 hu
    obtain ⟨h, h1, hn, rfl⟩ := mem_handlesLang.1 ha
    obtain ⟨t, ht, rfl⟩ := mem_textTail.1 hv
    exact ⟨h, ⟨t, fun hm => h0 (by simp [hm])⟩, ⟨h1, hn⟩, ht, rfl⟩
  · rintro ⟨h, t, ⟨h1, hn⟩, ht, rfl⟩
    exact ⟨_, Language.mem_mul.2 ⟨_, mem_handlesLang.2 ⟨h, h1, hn, rfl⟩, _,
      mem_textTail.2 ⟨t.val, ht, rfl⟩, rfl⟩, rfl⟩

theorem mem_markLang {word s : Bytes} {n : Nat} :
    s ∈ markLang word n ↔ ∃ h, (1 ≤ h ∧ h ≤ n) ∧ s = word ++ (ascii "M" ++ dec h) := by
  rw [markLang, mem_singleton_mul]
  constructor
  · rintro ⟨u, hu, rfl⟩
    obtain ⟨h, h1, hn, rfl⟩ := mem_handlesLang.1 hu
    exact ⟨h, ⟨h1, hn⟩, rfl⟩
  · rintro ⟨h, ⟨h1, hn⟩, rfl⟩
    exact ⟨_, mem_handlesLang.2 ⟨h, h1, hn, rfl⟩, rfl⟩

theorem mem_insertLang {s : Bytes} (h0 : 0 ∉ s) :
    s ∈ insertLang ↔ ∃ sec t, Writable t ∧
      s = ascii "INSERT " ++ (sectionName sec ++ (ascii " | " ++ t.val)) := by
  have hsec : ∀ a : Bytes,
      a ∈ ({ascii "identity"} + {ascii "context"} + {ascii "project"} : Language UInt8) ↔
        ∃ sec, a = sectionName sec := by
    intro a
    rw [Language.mem_add, Language.mem_add]
    constructor
    · rintro ((h | h) | h)
      · exact ⟨.identity, h⟩
      · exact ⟨.context, h⟩
      · exact ⟨.project, h⟩
    · rintro ⟨sec, rfl⟩
      cases sec
      · exact .inl (.inl rfl)
      · exact .inl (.inr rfl)
      · exact .inr rfl
  rw [insertLang, mem_singleton_mul]
  constructor
  · rintro ⟨u, hu, rfl⟩
    obtain ⟨a, ha, v, hv, rfl⟩ := Language.mem_mul.1 hu
    obtain ⟨sec, rfl⟩ := (hsec a).1 ha
    obtain ⟨t, ht, rfl⟩ := mem_textTail.1 hv
    exact ⟨sec, ⟨t, fun hm => h0 (by simp [hm])⟩, ht, rfl⟩
  · rintro ⟨sec, t, ht, rfl⟩
    exact ⟨_, Language.mem_mul.2 ⟨_, (hsec _).2 ⟨sec, rfl⟩, _, mem_textTail.2 ⟨t.val, ht, rfl⟩, rfl⟩,
      rfl⟩

theorem mem_mul_newline {L : Language UInt8} {s : Bytes} :
    s ∈ L * newline ↔ ∃ r ∈ L, s = r ++ [10] := by
  rw [Language.mem_mul]
  constructor
  · rintro ⟨r, hr, b, hb, rfl⟩
    exact ⟨r, hr, by rw [show b = [10] from hb]⟩
  · rintro ⟨r, hr, rfl⟩
    exact ⟨r, hr, [10], rfl, rfl⟩

/-- Lines of a language. -/
theorem mem_kstar_lines {L : Language UInt8} {s : Bytes} :
    s ∈ KStar.kstar (L * newline) ↔ ∃ rows, (∀ r ∈ rows, r ∈ L) ∧ s = joinRows rows := by
  rw [Language.mem_kstar]
  constructor
  · rintro ⟨ts, rfl, hts⟩
    induction ts with
    | nil => exact ⟨[], nofun, rfl⟩
    | cons t ts ih =>
      obtain ⟨rows, hrows, he⟩ := ih fun x hx => hts x (.tail _ hx)
      obtain ⟨r, hr, rfl⟩ := mem_mul_newline.1 (hts t (.head _))
      exact ⟨r :: rows, List.forall_mem_cons.2 ⟨hr, hrows⟩, by simp [he]⟩
  · rintro ⟨rows, hrows, rfl⟩
    refine ⟨rows.map (· ++ [10]), rfl, fun t ht => ?_⟩
    obtain ⟨r, hr, rfl⟩ := List.mem_map.1 ht
    exact mem_mul_newline.2 ⟨r, hrows r hr, rfl⟩

theorem mem_plus_lines {L : Language UInt8} {s : Bytes} :
    s ∈ (L * newline) * KStar.kstar (L * newline) ↔
      ∃ rows, rows ≠ [] ∧ (∀ r ∈ rows, r ∈ L) ∧ s = joinRows rows := by
  rw [Language.mem_mul]
  constructor
  · rintro ⟨a, ha, b, hb, rfl⟩
    obtain ⟨r, hr, rfl⟩ := mem_mul_newline.1 ha
    obtain ⟨rows, hrows, rfl⟩ := mem_kstar_lines.1 hb
    exact ⟨r :: rows, List.cons_ne_nil _ _, List.forall_mem_cons.2 ⟨hr, hrows⟩, by simp⟩
  · rintro ⟨rows, hne, hrows, rfl⟩
    cases rows with
    | nil => exact absurd rfl hne
    | cons r rows =>
      exact ⟨r ++ [10], mem_mul_newline.2 ⟨r, hrows r (.head _), rfl⟩, joinRows rows,
        mem_kstar_lines.2 ⟨rows, fun x hx => hrows x (.tail _ hx), rfl⟩, by simp⟩

/-- Rows that say an operation each. -/
theorem rows_ops {L : Language UInt8} {P : Cop → Prop}
    (h : ∀ r, 0 ∉ r → (r ∈ L ↔ ∃ op, P op ∧ r = op.row)) {rows : List Bytes}
    (h0 : 0 ∉ joinRows rows) :
    (∀ r ∈ rows, r ∈ L) ↔ ∃ ls : List Cop, (∀ op ∈ ls, P op) ∧ rows = ls.map Cop.row := by
  constructor
  · intro hrows
    induction rows with
    | nil => exact ⟨[], nofun, rfl⟩
    | cons r rows ih =>
      rw [joinRows_cons, List.mem_append, List.mem_cons, not_or, not_or] at h0
      obtain ⟨ls, hls, rfl⟩ := ih h0.2.2 fun x hx => hrows x (.tail _ hx)
      obtain ⟨op, hop, rfl⟩ := (h r h0.1).1 (hrows r (.head _))
      exact ⟨op :: ls, List.forall_mem_cons.2 ⟨hop, hls⟩, rfl⟩
  · rintro ⟨ls, hls, rfl⟩ r hr
    have hr0 : 0 ∉ r := fun hm => h0 (List.mem_flatMap.2 ⟨r, hr, List.mem_append_left _ hm⟩)
    obtain ⟨op, hop, rfl⟩ := List.mem_map.1 hr
    exact (h _ hr0).2 ⟨op, hls op hop, rfl⟩

/-! ## Answers -/

namespace Cop

/-- The grammar allows the line: its text can stand in a line and its handle was given. -/
def Legal (n : Nat) (op : Cop) : Prop := op.Plain ∧ op.fits n = true

def curates : Cop → Bool
  | .insert _ _ | .update _ _ | .setDeprecated _ _ => true
  | _ => false

def reviews : Cop → Bool
  | .setDeprecated _ _ | .keep _ => true
  | _ => false

def cites : Cop → Bool
  | .cite _ => true
  | _ => false

end Cop

/-- The lines of an answer. -/
def LegalAnswer (kind : GrammarKind) (n : Nat) (ls : List Cop) : Prop :=
  match kind with
  | .curation => ls = [.noop] ∨ ls ≠ [] ∧ ∀ op ∈ ls, op.curates = true ∧ op.Legal n
  | .review => ls = [.noop] ∨ ls ≠ [] ∧ ∀ op ∈ ls, op.reviews = true ∧ op.Legal n
  | .recall => ls = [.nomem] ∨
      ∃ t cs, ls = .answer t :: cs ∧ Writable t ∧ ∀ op ∈ cs, op.cites = true ∧ op.Legal n

theorem LegalAnswer.legal {kind : GrammarKind} {n : Nat} {ls : List Cop}
    (h : LegalAnswer kind n ls) : ∀ op ∈ ls, op.Legal n := by
  have hnoop : Cop.noop.Legal n := ⟨trivial, rfl⟩
  have hnomem : Cop.nomem.Legal n := ⟨trivial, rfl⟩
  intro op hop
  cases kind with
  | curation =>
    rcases h with rfl | ⟨-, h⟩
    · exact List.mem_singleton.1 hop ▸ hnoop
    · exact (h op hop).2
  | review =>
    rcases h with rfl | ⟨-, h⟩
    · exact List.mem_singleton.1 hop ▸ hnoop
    · exact (h op hop).2
  | «recall» =>
    rcases h with rfl | ⟨t, cs, rfl, ht, h⟩
    · exact List.mem_singleton.1 hop ▸ hnomem
    · rcases List.mem_cons.1 hop with rfl | hop
      · exact ⟨ht, rfl⟩
      · exact (h op hop).2

section
variable {n : Nat} {r : Bytes}

theorem mem_change_row {word : Bytes} {f : Nat → CStr → Cop} (h0 : 0 ∉ r)
    (hrow : ∀ h t, (f h t).row = word ++ ((ascii "M" ++ dec h) ++ (ascii " | " ++ t.val)))
    (hp : ∀ h t, (f h t).Legal n ↔ Writable t ∧ 1 ≤ h ∧ h ≤ n) :
    r ∈ changeLang word n ↔ ∃ h t, (f h t).Legal n ∧ r = (f h t).row := by
  rw [mem_changeLang h0]
  constructor
  · rintro ⟨h, t, hh, ht, rfl⟩
    exact ⟨h, t, (hp h t).2 ⟨ht, hh⟩, (hrow h t).symm⟩
  · rintro ⟨h, t, hl, rfl⟩
    exact ⟨h, t, ((hp h t).1 hl).2, ((hp h t).1 hl).1, hrow h t⟩

theorem legal_update (h : Nat) (t : CStr) :
    (Cop.update h t).Legal n ↔ Writable t ∧ 1 ≤ h ∧ h ≤ n := by
  simp [Cop.Legal, Cop.Plain, Cop.fits]

theorem legal_setDeprecated (h : Nat) (t : CStr) :
    (Cop.setDeprecated h t).Legal n ↔ Writable t ∧ 1 ≤ h ∧ h ≤ n := by
  simp [Cop.Legal, Cop.Plain, Cop.fits]

theorem mem_curation_row (h0 : 0 ∉ r) :
    r ∈ insertLang + changeLang (ascii "UPDATE ") n + changeLang (ascii "DEPRECATE ") n ↔
      ∃ op : Cop, (op.curates = true ∧ op.Legal n) ∧ r = op.row := by
  rw [Language.mem_add, Language.mem_add, mem_insertLang h0,
    mem_change_row (f := .update) h0 (fun _ _ => rfl) legal_update,
    mem_change_row (f := .setDeprecated) h0 (fun _ _ => rfl) legal_setDeprecated]
  constructor
  · rintro ((⟨sec, t, ht, hr⟩ | ⟨h, t, hl, hr⟩) | ⟨h, t, hl, hr⟩)
    · exact ⟨.insert sec t, ⟨rfl, ht, rfl⟩, hr⟩
    · exact ⟨.update h t, ⟨rfl, hl⟩, hr⟩
    · exact ⟨.setDeprecated h t, ⟨rfl, hl⟩, hr⟩
  · rintro ⟨op, ⟨hc, hl⟩, hr⟩
    cases op with
    | insert sec t => exact .inl (.inl ⟨sec, t, hl.1, hr⟩)
    | update h t => exact .inl (.inr ⟨h, t, hl, hr⟩)
    | setDeprecated h t => exact .inr ⟨h, t, hl, hr⟩
    | _ => cases hc

theorem mem_review_row (h0 : 0 ∉ r) :
    r ∈ changeLang (ascii "DEPRECATE ") n + markLang (ascii "KEEP ") n ↔
      ∃ op : Cop, (op.reviews = true ∧ op.Legal n) ∧ r = op.row := by
  rw [Language.mem_add, mem_markLang,
    mem_change_row (f := .setDeprecated) h0 (fun _ _ => rfl) legal_setDeprecated]
  constructor
  · rintro (⟨h, t, hl, hr⟩ | ⟨h, hh, hr⟩)
    · exact ⟨.setDeprecated h t, ⟨rfl, hl⟩, hr⟩
    · exact ⟨.keep h, ⟨rfl, trivial, by simpa [Cop.fits] using hh⟩, hr⟩
  · rintro ⟨op, ⟨hc, hl⟩, hr⟩
    cases op with
    | setDeprecated h t => exact .inl ⟨h, t, hl, hr⟩
    | keep h => exact .inr ⟨h, by simpa [Cop.fits] using hl.2, hr⟩
    | _ => cases hc

theorem mem_cite_row : r ∈ markLang (ascii "CITE ") n ↔
    ∃ op : Cop, (op.cites = true ∧ op.Legal n) ∧ r = op.row := by
  rw [mem_markLang]
  constructor
  · rintro ⟨h, hh, hr⟩
    exact ⟨.cite h, ⟨rfl, trivial, by simpa [Cop.fits] using hh⟩, hr⟩
  · rintro ⟨op, ⟨hc, hl⟩, hr⟩
    cases op with
    | cite h => exact ⟨h, by simpa [Cop.fits] using hl.2, hr⟩
    | _ => cases hc

end

/-- `NOOP` or lines. -/
theorem mem_lines {L : Language UInt8} {P : Cop → Prop} {s : Bytes} (h0 : 0 ∉ s)
    (h : ∀ r, 0 ∉ r → (r ∈ L ↔ ∃ op, P op ∧ r = op.row)) :
    s ∈ {ascii "NOOP"} * newline + (L * newline) * KStar.kstar (L * newline) ↔
      ∃ ls : List Cop, (ls = [.noop] ∨ ls ≠ [] ∧ ∀ op ∈ ls, P op) ∧
        s = joinRows (ls.map Cop.row) := by
  rw [Language.mem_add, mem_plus_lines]
  constructor
  · rintro (hs | ⟨rows, hne, hrows, rfl⟩)
    · obtain ⟨r, hr, rfl⟩ := mem_mul_newline.1 hs
      exact ⟨[.noop], .inl rfl, by rw [show r = ascii "NOOP" from hr]; rfl⟩
    · obtain ⟨ls, hls, rfl⟩ := (rows_ops h h0).1 hrows
      exact ⟨ls, .inr ⟨fun he => hne (by rw [he]; rfl), hls⟩, rfl⟩
  · rintro ⟨ls, rfl | ⟨hne, hls⟩, rfl⟩
    · exact .inl (mem_mul_newline.2 ⟨_, rfl, rfl⟩)
    · exact .inr ⟨_, by simpa using hne, (rows_ops h h0).2 ⟨ls, hls, rfl⟩, rfl⟩

/-- **The language has the legal answers** and no others. -/
theorem mem_answerLang (kind : GrammarKind) (n : Nat) (s : CStr) :
    s.val ∈ answerLang kind n ↔
      ∃ ls, LegalAnswer kind n ls ∧ s.val = joinRows (ls.map Cop.row) := by
  cases kind with
  | curation => exact mem_lines s.2 fun r h0 => mem_curation_row h0
  | review => exact mem_lines s.2 fun r h0 => mem_review_row h0
  | «recall» =>
    rw [answerLang, Language.mem_add]
    constructor
    · rintro (hs | hs)
      · obtain ⟨r, hr, he⟩ := mem_mul_newline.1 hs
        exact ⟨[.nomem], .inl rfl, by rw [he, show r = ascii "NOMEM" from hr]; rfl⟩
      · obtain ⟨a, ha, b, hb, he⟩ := Language.mem_mul.1 hs
        have h0 : 0 ∉ a ++ b := by
          rw [show a ++ b = s.val from he]
          exact s.2
        rw [List.mem_append, not_or] at h0
        obtain ⟨u, hu, rfl⟩ := mem_singleton_mul.1 ha
        obtain ⟨t, ht, rfl⟩ := mem_mul_newline.1 hu
        obtain ⟨rows, hrows, rfl⟩ := mem_kstar_lines.1 hb
        obtain ⟨cs, hcs, rfl⟩ := (rows_ops (fun r _ => mem_cite_row) h0.2).1 hrows
        have ht0 : 0 ∉ t := fun hm => h0.1 (by simp [hm])
        refine ⟨.answer ⟨t, ht0⟩ :: cs, .inr ⟨⟨t, ht0⟩, cs, rfl, mem_textLang.1 ht, hcs⟩, ?_⟩
        rw [← he]
        simp [Cop.row]
    · rintro ⟨ls, rfl | ⟨t, cs, rfl, ht, hcs⟩, he⟩
      · exact .inl (mem_mul_newline.2 ⟨_, rfl, he⟩)
      · refine .inr (Language.mem_mul.2 ⟨ascii "ANSWER | " ++ (t.val ++ [10]),
          mem_singleton_mul.2 ⟨_, mem_mul_newline.2 ⟨t.val, mem_textLang.2 ht, rfl⟩, rfl⟩,
          joinRows (cs.map Cop.row), ?_, ?_⟩)
        · refine mem_kstar_lines.2 ⟨_, fun r hr => ?_, rfl⟩
          obtain ⟨op, hop, rfl⟩ := List.mem_map.1 hr
          exact mem_cite_row.2 ⟨op, hcs op hop, rfl⟩
        · rw [he]
          simp [Cop.row]

/-- **Grammar, expression and parser agree**: the two notations have one language, its texts are
lines the parser knows, and it drops none of them. -/
theorem gbnf_regex_parse (kind : GrammarKind) {n : Nat} (hn : n ≤ 10000) :
    ∃ L, gbnfLanguage (asperGbnfBuild kind n) = some L ∧
      regexLanguage (pattern kind n) = some L ∧
      ∀ s : CStr, (s.val ∈ L ↔ ∃ ls, LegalAnswer kind n ls ∧ s.val = joinRows (ls.map Cop.row)) ∧
        ∀ ls, LegalAnswer kind n ls → s.val = joinRows (ls.map Cop.row) →
          asperProtocolParse s n = (ls.map Cop.trimmed, 0) :=
  ⟨answerLang kind n, gbnfLanguage_build kind n, regexLanguage_pattern kind n, fun s =>
    ⟨mem_answerLang kind n s, fun _ hls hs =>
      asperProtocolParse_rows hls.legal (hn.trans (by decide)) hs⟩⟩

theorem gbnf_regex_parse_two : (2 : Nat) ≤ 10000 ∧ ∃ L,
    gbnfLanguage (asperGbnfBuild .curation 2) = some L ∧
      regexLanguage (pattern .curation 2) = some L ∧
      ∀ s : CStr,
        (s.val ∈ L ↔ ∃ ls, LegalAnswer .curation 2 ls ∧ s.val = joinRows (ls.map Cop.row)) ∧
        ∀ ls, LegalAnswer .curation 2 ls → s.val = joinRows (ls.map Cop.row) →
          asperProtocolParse s 2 = (ls.map Cop.trimmed, 0) :=
  ⟨by decide, gbnf_regex_parse .curation (by decide)⟩

end Asper
