import Asper.Curator.Grammar

/-! # The grammar and the regular expression have one language

The language of the grammar (`gbnfLanguage_build`) and that of the regular expression
(`regexLanguage_pattern`) are both `answerLang`. -/

namespace Asper

open Durable
open Decimal (dec isDigit dec_digits dec_ne_nil)

/-! ## The language -/

def newline : Language UInt8 := {[10]}

/-- Bytes other than a bar and a line break, at least one. -/
def textLang : Language UInt8 := anyBut [124, 10, 13] * KStar.kstar (anyBut [124, 10, 13])

def handlesLang (n : Nat) : Language UInt8 :=
  ((List.range n).map fun i => ({handleText i} : Language UInt8)).sum

def insertLang : Language UInt8 :=
  {ascii "INSERT "} * (({ascii "identity"} + {ascii "context"} + {ascii "project"}) *
    ({ascii " | "} * textLang))

/-- The lines `UPDATE` and `DEPRECATE`, after the word and its blank. -/
def changeLang (word : Bytes) (n : Nat) : Language UInt8 :=
  {word} * (handlesLang n * ({ascii " | "} * textLang))

/-- The lines `KEEP` and `CITE`. -/
def markLang (word : Bytes) (n : Nat) : Language UInt8 := {word} * handlesLang n

def answerLang (kind : GrammarKind) (n : Nat) : Language UInt8 :=
  match kind with
  | .curation =>
    let row := (insertLang + changeLang (ascii "UPDATE ") n + changeLang (ascii "DEPRECATE ") n) *
      newline
    {ascii "NOOP"} * newline + row * KStar.kstar row
  | .review =>
    let row := (changeLang (ascii "DEPRECATE ") n + markLang (ascii "KEEP ") n) * newline
    {ascii "NOOP"} * newline + row * KStar.kstar row
  | .recall =>
    {ascii "NOMEM"} * newline + {ascii "ANSWER | "} * (textLang * newline) *
      KStar.kstar (markLang (ascii "CITE ") n * newline)

@[simp] theorem handlesLang_zero : handlesLang 0 = 0 := rfl

@[simp] theorem changeLang_zero (word : Bytes) : changeLang word 0 = 0 := by simp [changeLang]

@[simp] theorem markLang_zero (word : Bytes) : markLang word 0 = 0 := by simp [markLang]

/-! ## The grammar -/

/-- A sequence, as the reader builds it. -/
def phrase {ν : Type} (as : List (Exp ν UInt8)) : Exp ν UInt8 := seqOf as.reverse

theorem lang_phrase {ν : Type} (rules : ν → Option (Exp ν UInt8)) (as : List (Exp ν UInt8)) :
    (phrase as).lang rules = (as.map (·.lang rules)).prod := by
  rw [phrase, lang_seqOf, List.reverse_reverse]

section
variable (rules : Bytes → Option (Exp Bytes UInt8))

def gbnfText : Exp Bytes UInt8 := phrase [.plus (.except [124, 10, 13])]

def gbnfNoop : Exp Bytes UInt8 := phrase [.lit (ascii "NOOP"), .lit [10]]

def gbnfInsert : Exp Bytes UInt8 :=
  phrase [.lit (ascii "INSERT "),
    altOf (phrase [.lit (ascii "project")])
      [phrase [.lit (ascii "context")], phrase [.lit (ascii "identity")]],
    .lit (ascii " | "), .ref (ascii "text"), .lit [10]]

def gbnfChange (word : Bytes) : Exp Bytes UInt8 :=
  phrase [.lit word, .ref (ascii "handle"), .lit (ascii " | "), .ref (ascii "text"), .lit [10]]

def gbnfMark (word : Bytes) : Exp Bytes UInt8 :=
  phrase [.lit word, .ref (ascii "handle"), .lit [10]]

theorem handleText_alnum (i : Nat) : ∀ c ∈ handleText i, isAlnum c = true := by
  intro c hc
  rcases List.mem_append.1 hc with hc | hc
  · rw [List.mem_singleton.1 (show c ∈ [(77 : UInt8)] from hc)]
    decide
  · have hd := dec_digits (i + 1) c hc
    have h : (48 : UInt8) ≤ c ∧ c ≤ 57 := by
      simpa [isDigit, UInt8.le_iff_toNat_le] using hd
    simp [isAlnum, h]

/-- The rule of the handles. -/
theorem isRule_handle (n : Nat) : ∃ a, IsRule (gbnfHandleRule (n + 1)) (ascii "handle", a) ∧
    ∀ rules, a.lang rules = handlesLang (n + 1) := by
  have halnum : ∀ s ∈ (List.range (n + 1)).map handleText, ∀ c ∈ s, isAlnum c = true := by
    intro s hs
    obtain ⟨i, -, rfl⟩ := List.mem_map.1 hs
    exact handleText_alnum i
  obtain ⟨a, ha, hlang⟩ := gbnfRule_quoted (by decide : ascii "handle" ≠ []) (by decide)
    (by simp) halnum
  refine ⟨a, ⟨_, ?_, ?_, ha⟩, fun rules => ?_⟩
  · simp [gbnfHandleRule, List.map_map, Function.comp_def]
    rfl
  · intro h
    rcases List.mem_append.1 h with h | h
    · exact absurd h (by decide)
    rcases List.mem_append.1 h with h | h
    · exact absurd h (by decide)
    rcases Lexer.mem_intercalate h with h | ⟨l, hl, h⟩
    · exact absurd h (by decide)
    obtain ⟨s, hs, rfl⟩ := List.mem_map.1 hl
    simp only [List.cons_append, List.mem_cons, List.mem_append, List.not_mem_nil, or_false] at h
    rcases h with h | h | h
    · exact absurd h (by decide)
    · exact absurd (halnum s hs 10 h) (by decide)
    · exact absurd h (by decide)
  · rw [hlang, handlesLang, List.map_map]
    rfl

theorem isRule_noop : IsRule (ascii "noop ::= \"NOOP\" \"\\n\"\n") (ascii "noop", gbnfNoop) :=
  ⟨(ascii "noop ::= \"NOOP\" \"\\n\"\n").dropLast, rfl, by decide, rfl⟩

theorem isRule_text : IsRule (ascii "text ::= [^|\\n\\r]+\n") (ascii "text", gbnfText) :=
  ⟨(ascii "text ::= [^|\\n\\r]+\n").dropLast, rfl, by decide, rfl⟩

theorem isRule_insert : IsRule
    (ascii ("insert ::= \"INSERT \" (\"identity\" | \"context\" | \"project\") " ++
      "\" | \" text \"\\n\"\n")) (ascii "insert", gbnfInsert) :=
  ⟨(ascii ("insert ::= \"INSERT \" (\"identity\" | \"context\" | \"project\") " ++
      "\" | \" text \"\\n\"\n")).dropLast, rfl, by decide, rfl⟩

theorem isRule_update : IsRule (ascii "update ::= \"UPDATE \" handle \" | \" text \"\\n\"\n")
    (ascii "update", gbnfChange (ascii "UPDATE ")) :=
  ⟨(ascii "update ::= \"UPDATE \" handle \" | \" text \"\\n\"\n").dropLast, rfl, by decide, rfl⟩

theorem isRule_deprecate :
    IsRule (ascii "deprecate ::= \"DEPRECATE \" handle \" | \" text \"\\n\"\n")
      (ascii "deprecate", gbnfChange (ascii "DEPRECATE ")) :=
  ⟨(ascii "deprecate ::= \"DEPRECATE \" handle \" | \" text \"\\n\"\n").dropLast, rfl, by decide,
    rfl⟩

theorem isRule_keep : IsRule (ascii "keep ::= \"KEEP \" handle \"\\n\"\n")
    (ascii "keep", gbnfMark (ascii "KEEP ")) :=
  ⟨(ascii "keep ::= \"KEEP \" handle \"\\n\"\n").dropLast, rfl, by decide, rfl⟩

theorem isRule_citeline : IsRule (ascii "citeline ::= \"CITE \" handle \"\\n\"\n")
    (ascii "citeline", gbnfMark (ascii "CITE ")) :=
  ⟨(ascii "citeline ::= \"CITE \" handle \"\\n\"\n").dropLast, rfl, by decide, rfl⟩

def gbnfNomem : Exp Bytes UInt8 := phrase [.lit (ascii "NOMEM"), .lit [10]]

def gbnfAnswer : Exp Bytes UInt8 := phrase [.lit (ascii "ANSWER | "), .ref (ascii "text"), .lit [10]]

theorem isRule_nomem : IsRule (ascii "nomem ::= \"NOMEM\" \"\\n\"\n") (ascii "nomem", gbnfNomem) :=
  ⟨(ascii "nomem ::= \"NOMEM\" \"\\n\"\n").dropLast, rfl, by decide, rfl⟩

theorem isRule_answer : IsRule (ascii "answer ::= \"ANSWER | \" text \"\\n\"\n")
    (ascii "answer", gbnfAnswer) :=
  ⟨(ascii "answer ::= \"ANSWER | \" text \"\\n\"\n").dropLast, rfl, by decide, rfl⟩

/-! ### Languages of the rules -/

section
variable {rules : Bytes → Option (Exp Bytes UInt8)}

theorem lang_gbnfNoop : gbnfNoop.lang rules = {ascii "NOOP"} * newline := by
  simp [gbnfNoop, lang_phrase, Exp.lang_lit, newline]

theorem lang_gbnfNomem : gbnfNomem.lang rules = {ascii "NOMEM"} * newline := by
  simp [gbnfNomem, lang_phrase, Exp.lang_lit, newline]

theorem lang_gbnfText : gbnfText.lang rules = textLang := by
  simp [gbnfText, lang_phrase, Exp.lang_plus, Exp.lang_except, textLang]

theorem lang_text (ht : rules (ascii "text") = some gbnfText) :
    (Exp.ref (ascii "text")).lang rules = textLang := by
  rw [Exp.lang_ref rules ht, lang_gbnfText]

theorem lang_gbnfInsert (ht : rules (ascii "text") = some gbnfText) :
    gbnfInsert.lang rules = insertLang * newline := by
  simp [gbnfInsert, lang_phrase, lang_altOf, Exp.lang_lit, lang_text ht, insertLang, newline,
    mul_assoc]

theorem lang_gbnfChange {n : Nat} {a : Exp Bytes UInt8} (word : Bytes)
    (ht : rules (ascii "text") = some gbnfText) (hh : rules (ascii "handle") = some a)
    (ha : a.lang rules = handlesLang n) :
    (gbnfChange word).lang rules = changeLang word n * newline := by
  simp [gbnfChange, lang_phrase, Exp.lang_lit, lang_text ht, Exp.lang_ref rules hh, ha, changeLang,
    newline, mul_assoc]

theorem lang_gbnfMark {n : Nat} {a : Exp Bytes UInt8} (word : Bytes)
    (hh : rules (ascii "handle") = some a) (ha : a.lang rules = handlesLang n) :
    (gbnfMark word).lang rules = markLang word n * newline := by
  simp [gbnfMark, lang_phrase, Exp.lang_lit, Exp.lang_ref rules hh, ha, markLang, newline,
    mul_assoc]

theorem lang_gbnfAnswer (ht : rules (ascii "text") = some gbnfText) :
    gbnfAnswer.lang rules = {ascii "ANSWER | "} * (textLang * newline) := by
  simp [gbnfAnswer, lang_phrase, Exp.lang_lit, lang_text ht, newline]

end

/-! ### The grammars -/

/-- `name` or lines of the rule `line`. -/
def gbnfLines (name row : Bytes) : Exp Bytes UInt8 :=
  altOf (phrase [.plus (.ref row)]) [phrase [.ref name]]

theorem lang_gbnfLines {rules : Bytes → Option (Exp Bytes UInt8)} {name row : Bytes}
    {a b : Exp Bytes UInt8} (ha : rules name = some a) (hb : rules row = some b) :
    (gbnfLines name row).lang rules =
      a.lang rules + b.lang rules * KStar.kstar (b.lang rules) := by
  simp [gbnfLines, lang_phrase, lang_altOf, Exp.lang_plus, Exp.lang_ref rules ha,
    Exp.lang_ref rules hb]

theorem isRule_root_curation :
    IsRule (ascii "root ::= noop | opline+\n") (gbnfRoot, gbnfLines (ascii "noop") (ascii "opline")) :=
  ⟨(ascii "root ::= noop | opline+\n").dropLast, rfl, by decide, rfl⟩

theorem isRule_root_review :
    IsRule (ascii "root ::= noop | revline+\n")
      (gbnfRoot, gbnfLines (ascii "noop") (ascii "revline")) :=
  ⟨(ascii "root ::= noop | revline+\n").dropLast, rfl, by decide, rfl⟩

def gbnfOpline : Exp Bytes UInt8 :=
  altOf (phrase [.ref (ascii "deprecate")])
    [phrase [.ref (ascii "update")], phrase [.ref (ascii "insert")]]

theorem isRule_opline :
    IsRule (ascii "opline ::= insert | update | deprecate\n") (ascii "opline", gbnfOpline) :=
  ⟨(ascii "opline ::= insert | update | deprecate\n").dropLast, rfl, by decide, rfl⟩

theorem isRule_opline_zero :
    IsRule (ascii "opline ::= insert\n") (ascii "opline", phrase [.ref (ascii "insert")]) :=
  ⟨(ascii "opline ::= insert\n").dropLast, rfl, by decide, rfl⟩

def gbnfRevline : Exp Bytes UInt8 :=
  altOf (phrase [.ref (ascii "keep")]) [phrase [.ref (ascii "deprecate")]]

theorem isRule_revline :
    IsRule (ascii "revline ::= deprecate | keep\n") (ascii "revline", gbnfRevline) :=
  ⟨(ascii "revline ::= deprecate | keep\n").dropLast, rfl, by decide, rfl⟩

theorem gbnfLanguage_flatten {ts : List Bytes} {xs : List (Bytes × Exp Bytes UInt8)}
    {a : Exp Bytes UInt8} (h : List.Forall₂ IsRule ts xs) (ha : List.lookup gbnfRoot xs = some a) :
    gbnfLanguage ts.flatten = some (a.lang fun n => List.lookup n xs) := by
  rw [gbnfLanguage, gbnfRules_flatten h, Option.map_some, Exp.lang_ref _ ha]

/-! The languages of the rules `root`, over the rules that they use. -/

section
variable {rules : Bytes → Option (Exp Bytes UInt8)} {n : Nat} {a : Exp Bytes UInt8}

theorem lang_curation_zero (hnoop : rules (ascii "noop") = some gbnfNoop)
    (hline : rules (ascii "opline") = some (phrase [.ref (ascii "insert")]))
    (hinsert : rules (ascii "insert") = some gbnfInsert)
    (htext : rules (ascii "text") = some gbnfText) :
    (gbnfLines (ascii "noop") (ascii "opline")).lang rules = answerLang .curation 0 := by
  rw [lang_gbnfLines hnoop hline, lang_gbnfNoop]
  simp [lang_phrase, Exp.lang_ref _ hinsert, lang_gbnfInsert htext, answerLang]

theorem lang_curation (hnoop : rules (ascii "noop") = some gbnfNoop)
    (hline : rules (ascii "opline") = some gbnfOpline)
    (hinsert : rules (ascii "insert") = some gbnfInsert)
    (hupdate : rules (ascii "update") = some (gbnfChange (ascii "UPDATE ")))
    (hdeprecate : rules (ascii "deprecate") = some (gbnfChange (ascii "DEPRECATE ")))
    (hhandle : rules (ascii "handle") = some a) (ha : a.lang rules = handlesLang n)
    (htext : rules (ascii "text") = some gbnfText) :
    (gbnfLines (ascii "noop") (ascii "opline")).lang rules = answerLang .curation n := by
  rw [lang_gbnfLines hnoop hline, lang_gbnfNoop]
  simp [gbnfOpline, lang_altOf, lang_phrase, Exp.lang_ref _ hinsert, Exp.lang_ref _ hupdate,
    Exp.lang_ref _ hdeprecate, lang_gbnfInsert htext, lang_gbnfChange _ htext hhandle ha, answerLang,
    add_mul, add_assoc]

theorem lang_review_zero (hnoop : rules (ascii "noop") = some gbnfNoop) :
    (phrase [.ref (ascii "noop")]).lang rules = answerLang .review 0 := by
  simp [lang_phrase, Exp.lang_ref _ hnoop, lang_gbnfNoop, answerLang]

theorem lang_review (hnoop : rules (ascii "noop") = some gbnfNoop)
    (hline : rules (ascii "revline") = some gbnfRevline)
    (hdeprecate : rules (ascii "deprecate") = some (gbnfChange (ascii "DEPRECATE ")))
    (hkeep : rules (ascii "keep") = some (gbnfMark (ascii "KEEP ")))
    (hhandle : rules (ascii "handle") = some a) (ha : a.lang rules = handlesLang n)
    (htext : rules (ascii "text") = some gbnfText) :
    (gbnfLines (ascii "noop") (ascii "revline")).lang rules = answerLang .review n := by
  rw [lang_gbnfLines hnoop hline, lang_gbnfNoop]
  simp [gbnfRevline, lang_altOf, lang_phrase, Exp.lang_ref _ hdeprecate, Exp.lang_ref _ hkeep,
    lang_gbnfChange _ htext hhandle ha, lang_gbnfMark _ hhandle ha, answerLang, add_mul]

def gbnfRecallZero : Exp Bytes UInt8 :=
  altOf (phrase [.ref (ascii "answer")]) [phrase [.ref (ascii "nomem")]]

def gbnfRecall : Exp Bytes UInt8 :=
  altOf (phrase [phrase [.ref (ascii "answer"), .star (.ref (ascii "citeline"))]])
    [phrase [.ref (ascii "nomem")]]

theorem lang_recall_zero (hnomem : rules (ascii "nomem") = some gbnfNomem)
    (hanswer : rules (ascii "answer") = some gbnfAnswer)
    (htext : rules (ascii "text") = some gbnfText) :
    gbnfRecallZero.lang rules = answerLang .recall 0 := by
  simp [gbnfRecallZero, lang_altOf, lang_phrase, Exp.lang_ref _ hnomem, Exp.lang_ref _ hanswer,
    lang_gbnfNomem, lang_gbnfAnswer htext, answerLang]

theorem lang_recall (hnomem : rules (ascii "nomem") = some gbnfNomem)
    (hanswer : rules (ascii "answer") = some gbnfAnswer)
    (hcite : rules (ascii "citeline") = some (gbnfMark (ascii "CITE ")))
    (hhandle : rules (ascii "handle") = some a) (ha : a.lang rules = handlesLang n)
    (htext : rules (ascii "text") = some gbnfText) :
    gbnfRecall.lang rules = answerLang .recall n := by
  simp [gbnfRecall, lang_altOf, lang_phrase, Exp.lang_ref _ hnomem, Exp.lang_ref _ hanswer,
    Exp.lang_star, Exp.lang_ref _ hcite, lang_gbnfNomem, lang_gbnfAnswer htext,
    lang_gbnfMark _ hhandle ha, answerLang]

end

theorem isRule_root_review_zero :
    IsRule (ascii "root ::= noop\n") (gbnfRoot, phrase [.ref (ascii "noop")]) :=
  ⟨(ascii "root ::= noop\n").dropLast, rfl, by decide, rfl⟩

theorem isRule_root_recall_zero :
    IsRule (ascii "root ::= nomem | answer\n") (gbnfRoot, gbnfRecallZero) :=
  ⟨(ascii "root ::= nomem | answer\n").dropLast, rfl, by decide, rfl⟩

theorem isRule_root_recall :
    IsRule (ascii "root ::= nomem | (answer citeline*)\n") (gbnfRoot, gbnfRecall) :=
  ⟨(ascii "root ::= nomem | (answer citeline*)\n").dropLast, rfl, by decide, rfl⟩

/-- **The language of the grammar.** -/
theorem gbnfLanguage_build (kind : GrammarKind) (n : Nat) :
    gbnfLanguage (asperGbnfBuild kind n) = some (answerLang kind n) := by
  cases n with
  | zero =>
    cases kind with
    | curation =>
      have h := gbnfLanguage_flatten (.cons isRule_root_curation <| .cons isRule_opline_zero <|
        .cons isRule_noop <| .cons isRule_insert <| .cons isRule_text .nil) rfl
      rw [lang_curation_zero rfl rfl rfl rfl] at h
      simpa [asperGbnfBuild] using h
    | review =>
      have h := gbnfLanguage_flatten (.cons isRule_root_review_zero <| .cons isRule_noop .nil) rfl
      rw [lang_review_zero rfl] at h
      simpa [asperGbnfBuild] using h
    | «recall» =>
      have h := gbnfLanguage_flatten (.cons isRule_root_recall_zero <| .cons isRule_nomem <|
        .cons isRule_answer <| .cons isRule_text .nil) rfl
      rw [lang_recall_zero rfl rfl rfl] at h
      simpa [asperGbnfBuild] using h
  | succ n =>
    obtain ⟨a, ha, hlang⟩ := isRule_handle n
    cases kind with
    | curation =>
      have h := gbnfLanguage_flatten (.cons isRule_root_curation <| .cons isRule_opline <|
        .cons isRule_noop <| .cons isRule_insert <| .cons isRule_update <|
        .cons isRule_deprecate <| .cons ha <| .cons isRule_text .nil) rfl
      rw [lang_curation rfl rfl rfl rfl rfl rfl (hlang _) rfl] at h
      simpa [asperGbnfBuild] using h
    | review =>
      have h := gbnfLanguage_flatten (.cons isRule_root_review <| .cons isRule_revline <|
        .cons isRule_noop <| .cons isRule_deprecate <| .cons isRule_keep <| .cons ha <|
        .cons isRule_text .nil) rfl
      rw [lang_review rfl rfl rfl rfl rfl (hlang _) rfl] at h
      simpa [asperGbnfBuild] using h
    | «recall» =>
      have h := gbnfLanguage_flatten (.cons isRule_root_recall <| .cons isRule_nomem <|
        .cons isRule_answer <| .cons isRule_citeline <| .cons ha <| .cons isRule_text .nil) rfl
      rw [lang_recall rfl rfl rfl rfl (hlang _) rfl] at h
      simpa [asperGbnfBuild] using h

end

/-! ## The regular expression -/

theorem denotes_class : DenotesPiece (ascii "[^|\\n\\r]") (anyBut [124, 10, 13]) :=
  ⟨[.piece (.except [124, 10, 13])], .except [124, 10, 13], rfl, .piece _, Exp.lang_except _ _⟩

theorem denotes_textClass : Denotes (ascii "[^|\\n\\r]+") textLang := denotes_class.plus.denotes

theorem denotes_newline : Denotes (ascii "\\n") newline := denotes_escaped rfl

theorem denotes_bar : Denotes (ascii " \\| ") {ascii " | "} := by
  have h : Denotes (ascii " " ++ [92, 124] ++ ascii " ") ({ascii " "} * {[124]} * {ascii " "}) :=
    ((denotes_text (by decide)).append (denotes_escaped rfl)).append (denotes_text (by decide))
  rw [singleton_mul_singleton, singleton_mul_singleton] at h
  exact h

theorem denotes_handles (n : Nat) : DenotesPiece (handlesPattern (n + 1)) (handlesLang (n + 1)) :=
  denotes_group (fun i => denotes_text fun c hc => .inl (handleText_alnum i c hc))
    (List.range_succ_eq_map ▸ List.cons_ne_nil _ _)

theorem denotes_sections : DenotesPiece (ascii "(identity|context|project)")
    ({ascii "identity"} + {ascii "context"} + {ascii "project"}) := by
  have h : DenotesPiece (ascii "(identity|context|project)")
      [{ascii "identity"}, {ascii "context"}, {ascii "project"}].sum :=
    .group (List.cons_ne_nil (ascii "identity") [ascii "context", ascii "project"]) <|
      .cons (denotes_text (by decide)) <| .cons (denotes_text (by decide)) <|
      .cons (denotes_text (by decide)) .nil
  simpa [add_assoc] using h

/-- The texts `INSERT …` of the expression. -/
theorem denotes_insert :
    Denotes (ascii "INSERT (identity|context|project) \\| [^|\\n\\r]+") insertLang := by
  have h := (denotes_text (t := ascii "INSERT ") (by decide)).append
    (denotes_sections.denotes.append (denotes_bar.append denotes_textClass))
  exact h

theorem denotes_change {t : Bytes} {L : Language UInt8} (n : Nat) (h : Denotes t L) :
    Denotes (t ++ (handlesPattern (n + 1) ++ ascii " \\| [^|\\n\\r]+"))
      (L * (handlesLang (n + 1) * ({ascii " | "} * textLang))) :=
  h.append ((denotes_handles n).denotes.append (denotes_bar.append denotes_textClass))

theorem denotes_mark (word : Bytes) (n : Nat) (h : ∀ c ∈ word, isAlnum c = true ∨ c = 32) :
    Denotes (word ++ handlesPattern (n + 1)) (markLang word (n + 1)) :=
  (denotes_text h).append (denotes_handles n).denotes

/-- `NOOP` or lines. -/
theorem denotes_lines {t : Bytes} {L : Language UInt8} (h : DenotesPiece t L) :
    Denotes (ascii "(NOOP\\n|(" ++ t ++ ascii "\\n)+)")
      ({ascii "NOOP"} * newline + (L * newline) * KStar.kstar (L * newline)) := by
  have hrow : DenotesPiece (40 :: [124].intercalate [t ++ ascii "\\n"] ++ [41])
      [L * newline].sum :=
    .group (List.cons_ne_nil _ _) (.cons (h.denotes.append denotes_newline) .nil)
  have hnoop : Denotes (ascii "NOOP" ++ ascii "\\n") ({ascii "NOOP"} * newline) :=
    (denotes_text (by decide)).append denotes_newline
  have hg := DenotesPiece.group (List.cons_ne_nil _ _)
    (.cons hnoop (.cons hrow.plus.denotes .nil))
  rw [List.sum_singleton] at hg
  have he : ascii "(NOOP\\n|(" ++ t ++ ascii "\\n)+)" =
      40 :: [124].intercalate [ascii "NOOP" ++ ascii "\\n",
        40 :: [124].intercalate [t ++ ascii "\\n"] ++ [41] ++ [43]] ++ [41] := by
    simp [ascii]
  rw [he]
  simpa using hg.denotes


theorem denotes_words : Denotes (ascii "(UPDATE|DEPRECATE) ")
    ({ascii "UPDATE "} + {ascii "DEPRECATE "}) := by
  have h : DenotesPiece (ascii "(UPDATE|DEPRECATE)")
      [{ascii "UPDATE"}, {ascii "DEPRECATE"}].sum :=
    .group (List.cons_ne_nil (ascii "UPDATE") [ascii "DEPRECATE"]) <|
      .cons (denotes_text (by decide)) <| .cons (denotes_text (by decide)) .nil
  have hb := h.denotes.append (denotes_text (t := ascii " ") (by decide))
  rw [List.sum_cons, List.sum_singleton, add_mul, singleton_mul_singleton,
    singleton_mul_singleton] at hb
  exact hb

theorem regexLanguage_eq {t u : Bytes} {L M : Language UInt8} (h : Denotes t L)
    (ht : u = 94 :: t ++ [36]) (hL : L = M) : regexLanguage u = some M := by
  rw [ht, ← hL]
  exact h.regexLanguage

/-- **The language of the regular expression.** -/
theorem regexLanguage_pattern (kind : GrammarKind) (n : Nat) :
    regexLanguage (pattern kind n) = some (answerLang kind n) := by
  cases kind with
  | curation =>
    cases n with
    | zero =>
      have hrow := DenotesPiece.group (List.cons_ne_nil _ _) (.cons denotes_insert .nil)
      refine regexLanguage_eq (denotes_lines hrow) rfl ?_
      simp [answerLang]
    | succ n =>
      have hrow := DenotesPiece.group (List.cons_ne_nil _ _)
        (.cons denotes_insert (.cons (denotes_change n denotes_words) .nil))
      refine regexLanguage_eq (denotes_lines hrow) ?_ ?_
      · simp only [pattern, if_pos n.succ_ne_zero, List.intercalate_cons_cons, List.intercalate_singleton,
          List.cons_append, List.nil_append, List.append_assoc]
        rfl
      · simp [answerLang, changeLang, add_mul, add_assoc]
  | review =>
    cases n with
    | zero =>
      exact regexLanguage_eq ((denotes_text (t := ascii "NOOP") (by decide)).append
        denotes_newline) rfl (by simp [answerLang])
    | succ n =>
      have hchange := denotes_change n (denotes_text (t := ascii "DEPRECATE ") (by decide))
      have hkeep := denotes_mark (ascii "KEEP ") n (by decide)
      have hrow := DenotesPiece.group (List.cons_ne_nil _ _) (.cons hchange (.cons hkeep .nil))
      refine regexLanguage_eq (denotes_lines hrow) ?_ ?_
      · simp only [pattern, if_neg n.succ_ne_zero, List.intercalate_cons_cons, List.intercalate_singleton,
          List.cons_append, List.nil_append, List.append_assoc]
        rfl
      · simp [answerLang, changeLang]
  | «recall» =>
    have hnomem := (denotes_text (t := ascii "NOMEM") (by decide)).append denotes_newline
    have hanswer := (denotes_text (t := ascii "ANSWER") (by decide)).append
      (denotes_bar.append (denotes_textClass.append denotes_newline))
    rw [← mul_assoc, singleton_mul_singleton] at hanswer
    cases n with
    | zero =>
      refine regexLanguage_eq (DenotesPiece.group (List.cons_ne_nil _ _)
        (.cons hnomem (.cons hanswer .nil))).denotes rfl ?_
      simp [answerLang]
      rfl
    | succ n =>
      have hcite := DenotesPiece.group (List.cons_ne_nil _ _)
        (.cons ((denotes_mark (ascii "CITE ") n (by decide)).append denotes_newline) .nil)
      refine regexLanguage_eq (DenotesPiece.group (List.cons_ne_nil _ _)
        (.cons hnomem (.cons (hanswer.append hcite.star.denotes) .nil))).denotes ?_ ?_
      · simp only [pattern, if_pos n.succ_ne_zero, List.intercalate_cons_cons, List.intercalate_singleton,
          List.cons_append, List.nil_append, List.append_assoc]
        rfl
      · simp [answerLang]
        rfl
end Asper
