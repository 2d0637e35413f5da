import Asper.Lib.Expr
import Asper.Lib.Lines

/-! # Two notations for expressions over bytes

* `regexRead` reads an anchored regular expression: characters, escapes, negated classes, groups,
  alternatives, `+` and `*`.
* `gbnfRules` reads a grammar of one rule a line: names, quoted texts, negated classes, groups,
  alternatives, `+` and `*`. `gbnfLanguage` is the language of its rule `root`.
* `Denotes t L`: the text `t` adds to a regular expression what has the language `L`. It is built
  up along the text (`Denotes.append`, `denotes_group`, `DenotesPiece.plus`). -/

namespace Durable

/-- Letters and digits. -/
def isAlnum (c : UInt8) : Bool := (48 ≤ c ∧ c ≤ 57) ∨ (65 ≤ c ∧ c ≤ 90) ∨ (97 ≤ c ∧ c ≤ 122)

/-- What stands for itself or a line break after a backslash. -/
def unescape (c : UInt8) : Option UInt8 :=
  if c = 110 then some 10 else if c = 114 then some 13 else if isAlnum c then none else some c

/-! ## Regular expressions -/

inductive RegexMode where
  | plain
  | escaped
  | bracket
  | class_ (cs : Bytes)
  | classEscaped (cs : Bytes)
  deriving DecidableEq

/-- The characters that this reader has no meaning for: `$ . ? ] ^` and the braces. -/
def regexReserved : Bytes := [36, 46, 63, 93, 94, 123, 125]

def regexStep : RegexMode → UInt8 → Option (List (Token Empty UInt8) × RegexMode)
  | .plain, c =>
    if c = 92 then some ([], .escaped)
    else if c = 40 then some ([.opened], .plain)
    else if c = 41 then some ([.closed], .plain)
    else if c = 124 then some ([.bar], .plain)
    else if c = 43 then some ([.plus], .plain)
    else if c = 42 then some ([.star], .plain)
    else if c = 91 then some ([], .bracket)
    else if c ∈ regexReserved then none
    else some ([.piece (.lit [c])], .plain)
  | .escaped, c => (unescape c).map fun c => ([.piece (.lit [c])], .plain)
  | .bracket, c => if c = 94 then some ([], .class_ []) else none
  | .class_ cs, c =>
    if c = 93 then some ([.piece (.except cs)], .plain)
    else if c = 92 then some ([], .classEscaped cs)
    else if c = 45 then none
    else some ([], .class_ (cs ++ [c]))
  | .classEscaped cs, c => (unescape c).map fun c => ([], .class_ (cs ++ [c]))

def regexLexer : Lexer RegexMode UInt8 (Token Empty UInt8) where
  start := .plain
  step := regexStep
  finish m := if m = .plain then some [] else none

/-- A regular expression between the anchors of a full match. -/
def regexRead (text : Bytes) : Option (Exp Empty UInt8) :=
  match text with
  | 94 :: s =>
    if s.getLast? = some 36 then (regexLexer.tokens s.dropLast).bind assemble else none
  | _ => none

def regexLanguage (text : Bytes) : Option (Language UInt8) :=
  (regexRead text).map (Exp.lang fun _ => none)

/-! ### What a part of an expression denotes -/

def Denotes (t : Bytes) (L : Language UInt8) : Prop :=
  ∃ ts as, regexLexer.run .plain t = some (ts, .plain) ∧ Spells ts as ∧
    (as.map (Exp.lang fun _ => none)).prod = L

/-- A part to which a `+` or a `*` may be added. -/
def DenotesPiece (t : Bytes) (L : Language UInt8) : Prop :=
  ∃ ts a, regexLexer.run .plain t = some (ts, .plain) ∧ Spells ts [a] ∧
    Exp.lang (fun _ => none) a = L

section
variable {t u : Bytes} {L M : Language UInt8}

theorem DenotesPiece.denotes (h : DenotesPiece t L) : Denotes t L := by
  obtain ⟨ts, a, hr, hs, hl⟩ := h
  exact ⟨ts, [a], hr, hs, by simpa using hl⟩

theorem Denotes.append (h : Denotes t L) (h' : Denotes u M) : Denotes (t ++ u) (L * M) := by
  obtain ⟨ts, as, hr, hs, rfl⟩ := h
  obtain ⟨us, bs, hr', hs', rfl⟩ := h'
  exact ⟨_, _, Lexer.run_trans hr hr', hs.append hs', by rw [List.map_append, List.prod_append]⟩

theorem singleton_mul_singleton {α : Type} (s t : List α) :
    ({s} : Language α) * {t} = {s ++ t} := Set.image2_singleton

/-- A text without characters of its own meaning. -/
theorem denotes_text (h : ∀ c ∈ t, isAlnum c = true ∨ c = 32) : Denotes t {t} := by
  induction t with
  | nil => exact ⟨[], [], rfl, .nil, rfl⟩
  | cons c t ih =>
    have hc : regexStep .plain c = some ([.piece (.lit [c])], .plain) := by
      have hne : ∀ d : UInt8, isAlnum d = false ∧ d ≠ 32 → c ≠ d := by
        rintro d ⟨hd, hd'⟩ rfl
        rcases h c (.head _) with h | h
        · rw [h] at hd
          cases hd
        · exact hd' h
      simp only [regexStep, regexReserved, List.mem_cons, List.not_mem_nil, or_false]
      rw [if_neg (hne _ (by decide)), if_neg (hne _ (by decide)), if_neg (hne _ (by decide)),
        if_neg (hne _ (by decide)), if_neg (hne _ (by decide)), if_neg (hne _ (by decide)),
        if_neg (hne _ (by decide)), if_neg]
      rintro (h | h | h | h | h | h | h) <;> exact hne _ (by decide) h
    have hone : Denotes [c] {[c]} := by
      refine ⟨[.piece (.lit [c])], [.lit [c]], ?_, .piece _, by simp [Exp.lang_lit]⟩
      simp [Lexer.run, regexLexer, hc]
    rw [← List.singleton_append, ← singleton_mul_singleton]
    exact hone.append (ih fun d hd => h d (.tail _ hd))

theorem denotes_escaped {c d : UInt8} (h : unescape c = some d) : Denotes [92, c] {[d]} := by
  refine ⟨[.piece (.lit [d])], [.lit [d]], ?_, .piece _, by simp [Exp.lang_lit]⟩
  simp [Lexer.run, regexLexer, regexStep, h]

/-- **A group of alternatives.** -/
theorem denotes_group {ι : Type} {f : ι → Bytes} {L : ι → Language UInt8}
    (h : ∀ i, Denotes (f i) (L i)) {is : List ι} (hne : is ≠ []) :
    DenotesPiece (40 :: [124].intercalate (is.map f) ++ [41]) (is.map L).sum := by
  choose ts as hr hs hl using h
  obtain ⟨a, ha, hlang⟩ := spells_group (by simpa using hne : (is.map fun i => (ts i, as i)) ≠ [])
    fun p hp => by
      obtain ⟨i, -, rfl⟩ := List.mem_map.1 hp
      exact hs i
  have hbar : regexLexer.run .plain [124] = some ([.bar], .plain) := rfl
  have hrun := Lexer.run_intercalate hr hbar is
  refine ⟨_, a, ?_, ha, ?_⟩
  · have hopen : regexLexer.run .plain [40] = some ([.opened], .plain) := rfl
    have hclose : regexLexer.run .plain [41] = some ([.closed], .plain) := rfl
    have := Lexer.run_trans (Lexer.run_trans hopen hrun) hclose
    simpa [List.map_map, Function.comp_def] using this
  · rw [hlang]
    simp [List.map_map, Function.comp_def, hl]

/-- A group of given alternatives. -/
theorem DenotesPiece.group {ts : List Bytes} {Ls : List (Language UInt8)} (hne : ts ≠ [])
    (h : List.Forall₂ Denotes ts Ls) :
    DenotesPiece (40 :: [124].intercalate ts ++ [41]) Ls.sum := by
  have hz : ∀ p ∈ ts.zip Ls, Denotes p.1 p.2 := fun p hp => List.forall₂_iff_zip.1 h |>.2 hp
  have hts : (ts.zip Ls).map Prod.fst = ts := List.map_fst_zip h.length_eq.le
  have hLs : (ts.zip Ls).map Prod.snd = Ls := List.map_snd_zip h.length_eq.ge
  have hattach : (ts.zip Ls).attach ≠ [] := by
    intro hnil
    rw [List.attach_eq_nil_iff] at hnil
    rw [hnil] at hts
    exact hne hts.symm
  have hg := denotes_group (fun p : {p // p ∈ ts.zip Ls} => hz p.val p.2) hattach
  rwa [List.attach_map_val (f := Prod.fst), List.attach_map_val (f := Prod.snd), hts, hLs] at hg

theorem DenotesPiece.plus (h : DenotesPiece t L) :
    DenotesPiece (t ++ [43]) (L * KStar.kstar L) := by
  obtain ⟨ts, a, hr, hs, rfl⟩ := h
  have hp : regexLexer.run .plain [43] = some ([.plus], .plain) := rfl
  exact ⟨_, _, Lexer.run_trans hr hp, hs.plus, Exp.lang_plus _ _⟩

theorem DenotesPiece.star (h : DenotesPiece t L) : DenotesPiece (t ++ [42]) (KStar.kstar L) := by
  obtain ⟨ts, a, hr, hs, rfl⟩ := h
  have hp : regexLexer.run .plain [42] = some ([.star], .plain) := rfl
  exact ⟨_, _, Lexer.run_trans hr hp, hs.star, Exp.lang_star _ _⟩

theorem Denotes.regexLanguage (h : Denotes t L) : regexLanguage (94 :: t ++ [36]) = some L := by
  obtain ⟨ts, as, hr, hs, rfl⟩ := h
  obtain ⟨a, ha, hlang⟩ := hs.assemble
  have htok : regexLexer.tokens t = some ts := by
    simpa using Lexer.tokens_eq (L := regexLexer) hr rfl
  have hread : regexRead (94 :: t ++ [36]) = some a := by
    simp [regexRead, htok, ha]
  rw [Durable.regexLanguage, hread, Option.map_some, hlang]

end

/-! ## Grammars -/

inductive GbnfMode where
  | plain
  | name (n : Bytes)
  | quoted (s : Bytes)
  | quotedEscaped (s : Bytes)
  | bracket
  | class_ (cs : Bytes)
  | classEscaped (cs : Bytes)
  deriving DecidableEq

def gbnfName (c : UInt8) : Bool := isAlnum c || c = 45

/-- A character between two tokens. -/
def gbnfPlain (c : UInt8) : Option (List (Token Bytes UInt8) × GbnfMode) :=
  if c = 32 then some ([], .plain)
  else if c = 34 then some ([], .quoted [])
  else if c = 40 then some ([.opened], .plain)
  else if c = 41 then some ([.closed], .plain)
  else if c = 124 then some ([.bar], .plain)
  else if c = 43 then some ([.plus], .plain)
  else if c = 42 then some ([.star], .plain)
  else if c = 91 then some ([], .bracket)
  else if gbnfName c then some ([], .name [c])
  else none

def gbnfStep : GbnfMode → UInt8 → Option (List (Token Bytes UInt8) × GbnfMode)
  | .plain, c => gbnfPlain c
  | .name n, c =>
    if gbnfName c then some ([], .name (n ++ [c]))
    else (gbnfPlain c).map fun x => (.piece (.ref n) :: x.1, x.2)
  | .quoted s, c =>
    if c = 34 then some ([.piece (.lit s)], .plain)
    else if c = 92 then some ([], .quotedEscaped s)
    else some ([], .quoted (s ++ [c]))
  | .quotedEscaped s, c => (unescape c).map fun c => ([], .quoted (s ++ [c]))
  | .bracket, c => if c = 94 then some ([], .class_ []) else none
  | .class_ cs, c =>
    if c = 93 then some ([.piece (.except cs)], .plain)
    else if c = 92 then some ([], .classEscaped cs)
    else if c = 45 then none
    else some ([], .class_ (cs ++ [c]))
  | .classEscaped cs, c => (unescape c).map fun c => ([], .class_ (cs ++ [c]))

def gbnfLexer : Lexer GbnfMode UInt8 (Token Bytes UInt8) where
  start := .plain
  step := gbnfStep
  finish
    | .plain => some []
    | .name n => some [.piece (.ref n)]
    | _ => none

/-- A line `name ::= expression`. -/
def gbnfRule (row : Bytes) : Option (Bytes × Exp Bytes UInt8) :=
  let name := row.takeWhile gbnfName
  let rest := row.drop name.length
  if name ≠ [] ∧ rest.take 5 = [32, 58, 58, 61, 32] then
    ((gbnfLexer.tokens (rest.drop 5)).bind assemble).map (name, ·)
  else none

def gbnfRules (text : Bytes) : Option (List (Bytes × Exp Bytes UInt8)) :=
  if (splitRows text).2 = [] then (splitRows text).1.mapM gbnfRule else none

/-- The name `root`. -/
def gbnfRoot : Bytes := [114, 111, 111, 116]

def gbnfLanguage (text : Bytes) : Option (Language UInt8) :=
  (gbnfRules text).map fun rs => (Exp.ref gbnfRoot).lang fun n => List.lookup n rs

/-! ### What a rule denotes -/

theorem gbnfRule_eq {name body : Bytes} {ts : List (Token Bytes UInt8)} {a : Exp Bytes UInt8}
    (hne : name ≠ []) (hname : ∀ c ∈ name, gbnfName c = true)
    (hts : gbnfLexer.tokens body = some ts) (ha : assemble ts = some a) :
    gbnfRule (name ++ ([32, 58, 58, 61, 32] ++ body)) = some (name, a) := by
  have htake : (name ++ ([32, 58, 58, 61, 32] ++ body)).takeWhile gbnfName = name := by
    rw [List.takeWhile_append_of_pos hname]
    exact List.append_nil name
  unfold gbnfRule
  dsimp only
  rw [htake, List.drop_left, if_pos ⟨hne, rfl⟩]
  simp [hts, ha]

theorem run_quotedFrom {s : Bytes} (h : ∀ c ∈ s, isAlnum c = true) (acc : Bytes) :
    gbnfLexer.run (.quoted acc) (s ++ [34]) = some ([.piece (.lit (acc ++ s))], .plain) := by
  induction s generalizing acc with
  | nil => simp [Lexer.run, gbnfLexer, gbnfStep]
  | cons c s ih =>
    have hc := h c (.head _)
    have h34 : c ≠ 34 := by
      rintro rfl
      cases hc
    have h92 : c ≠ 92 := by
      rintro rfl
      cases hc
    have hstep : gbnfLexer.step (.quoted acc) c = some ([], .quoted (acc ++ [c])) := by
      simp [gbnfLexer, gbnfStep, h34, h92]
    rw [List.cons_append, Lexer.run, hstep, Option.bind_some,
      ih (fun d hd => h d (.tail _ hd))]
    simp

theorem run_quoted {s : Bytes} (h : ∀ c ∈ s, isAlnum c = true) :
    gbnfLexer.run .plain (34 :: s ++ [34]) = some ([.piece (.lit s)], .plain) := by
  have hstep : gbnfLexer.step .plain 34 = some ([], .quoted []) := rfl
  rw [List.cons_append, Lexer.run, hstep, Option.bind_some, run_quotedFrom h]
  rfl

/-- **A rule that lists quoted texts.** -/
theorem gbnfRule_quoted {name : Bytes} {ss : List Bytes} (hname : name ≠ [])
    (hall : ∀ c ∈ name, gbnfName c = true) (hne : ss ≠ [])
    (h : ∀ s ∈ ss, ∀ c ∈ s, isAlnum c = true) : ∃ a : Exp Bytes UInt8,
      gbnfRule (name ++ ([32, 58, 58, 61, 32] ++
        [32, 124, 32].intercalate (ss.map fun s => 34 :: s ++ [34]))) = some (name, a) ∧
      ∀ rules, a.lang rules = (ss.map fun s => ({s} : Language UInt8)).sum := by
  let part (s : Bytes) : List (Token Bytes UInt8) × List (Exp Bytes UInt8) :=
    ([.piece (.lit s)], [.lit s])
  have hparts : ∀ p ∈ ss.map part, Spells p.1 p.2 := by
    intro p hp
    obtain ⟨s, -, rfl⟩ := List.mem_map.1 hp
    exact .piece _
  obtain ⟨a, ha, hlang⟩ := assemble_alternatives (by simpa using hne) hparts
  have hbar : gbnfLexer.run .plain [32, 124, 32] = some ([.bar], .plain) := rfl
  have hrun := Lexer.run_intercalate (ι := {s : Bytes // ∀ c ∈ s, isAlnum c = true})
    (f := fun s => 34 :: s.val ++ [34]) (fun s => run_quoted s.2) hbar (ss.attachWith _ h)
  have hrun' : gbnfLexer.run .plain ([32, 124, 32].intercalate (ss.map fun s => 34 :: s ++ [34])) =
      some ([.bar].intercalate ((ss.map part).map Prod.fst), .plain) := by
    simpa [List.map_map, Function.comp_def, part] using hrun
  refine ⟨a, gbnfRule_eq hname hall ?_ ha, fun rules => ?_⟩
  · simpa using Lexer.tokens_eq (L := gbnfLexer) hrun' rfl
  · rw [hlang]
    simp [List.map_map, Function.comp_def, Exp.lang_lit, part]

theorem gbnfRules_cons {row rest : Bytes} {x : Bytes × Exp Bytes UInt8}
    {xs : List (Bytes × Exp Bytes UInt8)} (hn : 10 ∉ row) (hx : gbnfRule row = some x)
    (hxs : gbnfRules rest = some xs) : gbnfRules (row ++ 10 :: rest) = some (x :: xs) := by
  unfold gbnfRules at hxs ⊢
  split at hxs
  · next h =>
    rw [splitRows_row rest hn, if_pos h, List.mapM_cons, hx, hxs]
    rfl
  · cases hxs

/-- A line with its newline, and the rule it holds. -/
def IsRule (t : Bytes) (x : Bytes × Exp Bytes UInt8) : Prop :=
  ∃ row, t = row ++ [10] ∧ 10 ∉ row ∧ gbnfRule row = some x

theorem gbnfRules_flatten {ts : List Bytes} {xs : List (Bytes × Exp Bytes UInt8)}
    (h : List.Forall₂ IsRule ts xs) : gbnfRules ts.flatten = some xs := by
  induction h with
  | nil => rfl
  | cons ht _ ih =>
    obtain ⟨row, rfl, hn, hx⟩ := ht
    rw [List.flatten_cons, List.append_assoc]
    exact gbnfRules_cons hn hx ih

end Durable
