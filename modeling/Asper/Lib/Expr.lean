import Mathlib.Computability.Language

/-! # Regular expressions with named rules, and how they are read

* `Exp` is an expression over the names of rules, `Exp.lang` its language, the least that the rules
  allow. The equations `lang_cat`, `lang_alt`, `lang_plus`, `lang_star` and `lang_ref` turn it into
  the operations on languages.
* `assemble` reads a list of tokens with a stack of open groups. It goes through a list from left to
  right, so it is followed part by part (`Spells`, `spells_group`).
* `Lexer` turns characters into tokens, part by part as well (`Lexer.run_append`). -/

namespace Durable

variable {α ν : Type}

inductive Exp (ν α : Type) where
  | lit (s : List α)
  /-- One character, none of these. -/
  | except (cs : List α)
  | ref (n : ν)
  | cat (a b : Exp ν α)
  | alt (a b : Exp ν α)
  | plus (a : Exp ν α)
  | star (a : Exp ν α)
  deriving DecidableEq

/-- One character, none of these. -/
def anyBut (cs : List α) : Language α := {s | ∃ c, c ∉ cs ∧ s = [c]}

namespace Exp

inductive Derives (rules : ν → Option (Exp ν α)) : Exp ν α → List α → Prop where
  | lit (s : List α) : Derives rules (.lit s) s
  | except {cs : List α} {c : α} (h : c ∉ cs) : Derives rules (.except cs) [c]
  | ref {n : ν} {a : Exp ν α} {s : List α} (h : rules n = some a) (ha : Derives rules a s) :
    Derives rules (.ref n) s
  | cat {a b : Exp ν α} {s t : List α} (ha : Derives rules a s) (hb : Derives rules b t) :
    Derives rules (.cat a b) (s ++ t)
  | left {a b : Exp ν α} {s : List α} (ha : Derives rules a s) : Derives rules (.alt a b) s
  | right {a b : Exp ν α} {s : List α} (hb : Derives rules b s) : Derives rules (.alt a b) s
  | once {a : Exp ν α} {s : List α} (ha : Derives rules a s) : Derives rules (.plus a) s
  | again {a : Exp ν α} {s t : List α} (ha : Derives rules a s) (h : Derives rules (.plus a) t) :
    Derives rules (.plus a) (s ++ t)
  | none (a : Exp ν α) : Derives rules (.star a) []
  | more {a : Exp ν α} {s t : List α} (ha : Derives rules a s) (h : Derives rules (.star a) t) :
    Derives rules (.star a) (s ++ t)

def lang (rules : ν → Option (Exp ν α)) (a : Exp ν α) : Language α := {s | Derives rules a s}

section
variable (rules : ν → Option (Exp ν α)) (a b : Exp ν α)

theorem mem_lang {rules : ν → Option (Exp ν α)} {a : Exp ν α} {s : List α} :
    s ∈ a.lang rules ↔ Derives rules a s := Iff.rfl

theorem lang_lit (s : List α) : (lit s : Exp ν α).lang rules = {s} := by
  ext t
  refine ⟨fun h => ?_, fun h => ?_⟩
  · cases h
    rfl
  · rw [show t = s from h]
    exact .lit s

theorem lang_except (cs : List α) : (except cs : Exp ν α).lang rules = anyBut cs := by
  ext s
  refine ⟨fun h => ?_, fun ⟨c, hc, hs⟩ => hs ▸ .except hc⟩
  cases h with
  | except hc => exact ⟨_, hc, rfl⟩

theorem lang_cat : (cat a b).lang rules = a.lang rules * b.lang rules := by
  ext s
  rw [Language.mem_mul]
  refine ⟨fun h => ?_, fun ⟨t, ht, u, hu, h⟩ => h ▸ .cat ht hu⟩
  cases h with
  | cat ha hb => exact ⟨_, ha, _, hb, rfl⟩

theorem lang_alt : (alt a b).lang rules = a.lang rules + b.lang rules := by
  ext s
  rw [Language.mem_add]
  refine ⟨fun h => ?_, fun h => h.elim .left .right⟩
  cases h with
  | left ha => exact .inl ha
  | right hb => exact .inr hb

theorem lang_star : (star a).lang rules = KStar.kstar (a.lang rules) := by
  ext s
  rw [Language.mem_kstar]
  refine ⟨fun h => ?_, ?_⟩
  · generalize he : star a = x at h
    induction h with
    | none => exact ⟨[], rfl, nofun⟩
    | @more _ s t ha _ _ ih =>
      cases he
      obtain ⟨L, rfl, hL⟩ := ih rfl
      exact ⟨s :: L, rfl, List.forall_mem_cons.2 ⟨ha, hL⟩⟩
    | _ => cases he
  · rintro ⟨L, rfl, hL⟩
    induction L with
    | nil => exact .none a
    | cons s L ih => exact .more (hL s (.head _)) (ih fun t ht => hL t (.tail _ ht))

theorem lang_plus :
    (plus a).lang rules = a.lang rules * KStar.kstar (a.lang rules) := by
  rw [← lang_star]
  ext s
  rw [Language.mem_mul]
  refine ⟨fun h => ?_, ?_⟩
  · generalize he : plus a = x at h
    induction h with
    | once ha =>
      cases he
      exact ⟨_, ha, [], .none a, List.append_nil _⟩
    | again ha _ _ ih =>
      cases he
      obtain ⟨t, ht, u, hu, rfl⟩ := ih rfl
      exact ⟨_, ha, _, .more ht hu, rfl⟩
    | _ => cases he
  · rintro ⟨t, ht, u, hu, rfl⟩
    generalize he : star a = x at hu
    induction hu generalizing t with
    | none =>
      rw [List.append_nil]
      exact .once ht
    | more ha _ _ ih =>
      cases he
      exact .again ht (ih _ ha rfl)
    | _ => cases he

theorem lang_ref {n : ν} {a : Exp ν α} (h : rules n = some a) :
    (ref n).lang rules = a.lang rules := by
  ext s
  refine ⟨fun hs => ?_, fun hs => .ref h hs⟩
  cases hs with
  | ref h' ha =>
    rw [h] at h'
    cases h'
    exact ha

end

end Exp

/-! ## Tokens -/

inductive Token (ν α : Type) where
  | piece (a : Exp ν α)
  | bar
  | opened
  | closed
  | plus
  | star
  deriving DecidableEq

/-- An open group: the alternatives before the one under way, and its pieces, last first. -/
structure Level (ν α : Type) where
  alts : List (Exp ν α)
  seq : List (Exp ν α)
  deriving DecidableEq

def seqOf : List (Exp ν α) → Exp ν α
  | [] => .lit []
  | a :: as => .cat (seqOf as) a

def altOf (b : Exp ν α) : List (Exp ν α) → Exp ν α
  | [] => b
  | a :: as => .alt (altOf a as) b

def Level.whole (l : Level ν α) : Exp ν α := altOf (seqOf l.seq) l.alts

/-- Read one token; the innermost group comes first. -/
def Token.step : List (Level ν α) → Token ν α → Option (List (Level ν α))
  | l :: ls, .piece a => some ({ l with seq := a :: l.seq } :: ls)
  | l :: ls, .bar => some (⟨seqOf l.seq :: l.alts, []⟩ :: ls)
  | ls, .opened => some (⟨[], []⟩ :: ls)
  | l :: o :: ls, .closed => some ({ o with seq := l.whole :: o.seq } :: ls)
  | ⟨alts, a :: seq⟩ :: ls, .plus => some (⟨alts, .plus a :: seq⟩ :: ls)
  | ⟨alts, a :: seq⟩ :: ls, .star => some (⟨alts, .star a :: seq⟩ :: ls)
  | _, _ => none

/-- The expression that the tokens spell. -/
def assemble (ts : List (Token ν α)) : Option (Exp ν α) :=
  match ts.foldlM Token.step [⟨[], []⟩] with
  | some [l] => some l.whole
  | _ => none

/-- The tokens add the pieces `as` to the group under way. -/
def Spells (ts : List (Token ν α)) (as : List (Exp ν α)) : Prop :=
  ∀ l ls, ts.foldlM Token.step (l :: ls) = some (⟨l.alts, as.reverse ++ l.seq⟩ :: ls)

theorem Spells.nil : Spells ([] : List (Token ν α)) [] := fun _ _ => rfl

theorem Spells.piece (a : Exp ν α) : Spells [.piece a] [a] := fun _ _ => rfl

theorem Spells.append {ts us : List (Token ν α)} {as bs : List (Exp ν α)} (h : Spells ts as)
    (h' : Spells us bs) : Spells (ts ++ us) (as ++ bs) := by
  intro l ls
  rw [List.foldlM_append, h]
  simpa using h' ⟨l.alts, as.reverse ++ l.seq⟩ ls

theorem Spells.pieces (as : List (Exp ν α)) : Spells (as.map .piece) as := by
  induction as with
  | nil => exact .nil
  | cons a as ih => exact (Spells.piece a).append ih

theorem Spells.plus {ts : List (Token ν α)} {a : Exp ν α} (h : Spells ts [a]) :
    Spells (ts ++ [.plus]) [.plus a] := by
  intro l ls
  rw [List.foldlM_append, h]
  rfl

theorem Spells.star {ts : List (Token ν α)} {a : Exp ν α} (h : Spells ts [a]) :
    Spells (ts ++ [.star]) [.star a] := by
  intro l ls
  rw [List.foldlM_append, h]
  rfl

section
variable (rules : ν → Option (Exp ν α))

theorem lang_seqOf (as : List (Exp ν α)) :
    (seqOf as).lang rules = (as.reverse.map (·.lang rules)).prod := by
  induction as with
  | nil => exact Exp.lang_lit rules []
  | cons a as ih => rw [seqOf, Exp.lang_cat, ih, List.reverse_cons, List.map_append,
      List.prod_append, List.map_singleton, List.prod_singleton]

theorem lang_altOf (b : Exp ν α) (as : List (Exp ν α)) :
    (altOf b as).lang rules = (as.reverse.map (·.lang rules)).sum + b.lang rules := by
  induction as generalizing b with
  | nil => rw [altOf, List.reverse_nil, List.map_nil, List.sum_nil, zero_add]
  | cons a as ih => rw [altOf, Exp.lang_alt, ih, List.reverse_cons, List.map_append,
      List.sum_append, List.map_singleton, List.sum_singleton]

theorem lang_whole (l : Level ν α) : l.whole.lang rules =
    (l.alts.reverse.map (·.lang rules)).sum + (l.seq.reverse.map (·.lang rules)).prod := by
  rw [Level.whole, lang_altOf, lang_seqOf]

/-- **A list of alternatives** makes the group the sum of their products. -/
theorem foldlM_alternatives {ps : List (List (Token ν α) × List (Exp ν α))}
    (hps : ∀ p ∈ ps, Spells p.1 p.2) : ps ≠ [] → ∀ alts, ∃ l : Level ν α,
      (∀ ls, ([.bar].intercalate (ps.map Prod.fst)).foldlM Token.step (⟨alts, []⟩ :: ls) =
        some (l :: ls)) ∧
      ∀ rules, l.whole.lang rules = (alts.reverse.map (·.lang rules)).sum +
        (ps.map fun p => (p.2.map (·.lang rules)).prod).sum := by
  induction ps with
  | nil => exact fun h => absurd rfl h
  | cons p ps ih =>
    intro _ alts
    have hp := hps p (.head _)
    cases ps with
    | nil =>
      refine ⟨⟨alts, p.2.reverse⟩, fun ls => ?_, fun rules => ?_⟩
      · simpa using hp ⟨alts, []⟩ ls
      · simp [lang_whole]
    | cons q ps =>
      obtain ⟨l, hl, hlang⟩ := ih (fun x hx => hps x (.tail _ hx)) (List.cons_ne_nil _ _)
        (seqOf p.2.reverse :: alts)
      refine ⟨l, fun ls => ?_, fun rules => ?_⟩
      · rw [List.map_cons, List.map_cons, List.intercalate_cons_cons, List.foldlM_append,
          List.foldlM_append, hp]
        simpa [Token.step] using hl ls
      · rw [hlang]
        simp [lang_seqOf, add_assoc]

/-- **A group** is one piece. -/
theorem spells_group {ps : List (List (Token ν α) × List (Exp ν α))} (hne : ps ≠ [])
    (hps : ∀ p ∈ ps, Spells p.1 p.2) : ∃ a,
      Spells (.opened :: [.bar].intercalate (ps.map Prod.fst) ++ [.closed]) [a] ∧
      ∀ rules, a.lang rules = (ps.map fun p => (p.2.map (·.lang rules)).prod).sum := by
  obtain ⟨g, hg, hlang⟩ := foldlM_alternatives hps hne []
  refine ⟨g.whole, fun l ls => ?_, fun rules => by simpa using hlang rules⟩
  rw [List.cons_append, List.foldlM_cons]
  simp only [Token.step, Option.bind_eq_bind, Option.bind_some, List.foldlM_append, hg]
  rfl

/-- Alternatives without a group around them. -/
theorem assemble_alternatives {ps : List (List (Token ν α) × List (Exp ν α))} (hne : ps ≠ [])
    (hps : ∀ p ∈ ps, Spells p.1 p.2) : ∃ a,
      assemble ([.bar].intercalate (ps.map Prod.fst)) = some a ∧
      ∀ rules, a.lang rules = (ps.map fun p => (p.2.map (·.lang rules)).prod).sum := by
  obtain ⟨g, hg, hlang⟩ := foldlM_alternatives hps hne []
  exact ⟨g.whole, by rw [assemble, hg], fun rules => by simpa using hlang rules⟩

theorem Spells.assemble {ts : List (Token ν α)} {as : List (Exp ν α)} (h : Spells ts as) :
    ∃ a, Durable.assemble ts = some a ∧ ∀ rules, a.lang rules = (as.map (·.lang rules)).prod := by
  obtain ⟨a, ha, hlang⟩ := assemble_alternatives (List.cons_ne_nil (ts, as) [])
    fun p hp => List.mem_singleton.1 hp ▸ h
  exact ⟨a, by simpa using ha, fun rules => by simpa using hlang rules⟩

end

/-! ## Lexers -/

structure Lexer (μ α τ : Type) where
  start : μ
  step : μ → α → Option (List τ × μ)
  finish : μ → Option (List τ)

namespace Lexer

variable {μ τ : Type} (L : Lexer μ α τ)

def run : μ → List α → Option (List τ × μ)
  | m, [] => some ([], m)
  | m, c :: s => (L.step m c).bind fun x => (run x.2 s).map fun y => (x.1 ++ y.1, y.2)

def tokens (s : List α) : Option (List τ) :=
  (L.run L.start s).bind fun x => (L.finish x.2).map (x.1 ++ ·)

variable {L} {m m' : μ} {s t : List α} {ts : List τ}

theorem run_append (h : L.run m s = some (ts, m')) :
    L.run m (s ++ t) = (L.run m' t).map fun x => (ts ++ x.1, x.2) := by
  induction s generalizing m ts with
  | nil =>
    cases h
    simp
  | cons c s ih =>
    simp only [run, Option.bind_eq_some_iff, Option.map_eq_some_iff] at h
    obtain ⟨x, hx, y, hy, he⟩ := h
    cases he
    simp only [List.cons_append, run, hx, Option.bind_some, ih hy, Option.map_map]
    congr 1
    funext z
    simp [Function.comp]

theorem run_trans {us : List τ} {m'' : μ} (h : L.run m s = some (ts, m'))
    (h' : L.run m' t = some (us, m'')) : L.run m (s ++ t) = some (ts ++ us, m'') := by
  rw [run_append h, h']
  rfl

theorem tokens_eq {us : List τ} (h : L.run L.start s = some (ts, m)) (hf : L.finish m = some us) :
    L.tokens s = some (ts ++ us) := by
  rw [tokens, h, Option.bind_some, hf]
  rfl

theorem mem_intercalate {sep : List α} {c : α} {ls : List (List α)} (h : c ∈ sep.intercalate ls) :
    c ∈ sep ∨ ∃ l ∈ ls, c ∈ l := by
  induction ls with
  | nil => cases h
  | cons l ls ih =>
    cases ls with
    | nil => exact .inr ⟨l, .head _, by simpa using h⟩
    | cons l' ls =>
      rw [List.intercalate_cons_cons, List.mem_append, List.mem_append] at h
      rcases h with (h | h) | h
      · exact .inr ⟨l, .head _, h⟩
      · exact .inl h
      · exact (ih h).imp_right fun ⟨x, hx, hc⟩ => ⟨x, .tail _ hx, hc⟩

/-- Parts with a separator between them. -/
theorem run_intercalate {sep : List α} {us : List τ} {ι : Type} {f : ι → List α} {g : ι → List τ}
    (hf : ∀ i, L.run m (f i) = some (g i, m)) (hs : L.run m sep = some (us, m)) (is : List ι) :
    L.run m (sep.intercalate (is.map f)) = some (us.intercalate (is.map g), m) := by
  induction is with
  | nil => rfl
  | cons i is ih =>
    cases is with
    | nil => simpa using hf i
    | cons j is =>
      rw [List.map_cons, List.map_cons, List.intercalate_cons_cons, List.map_cons, List.map_cons,
        List.intercalate_cons_cons]
      exact run_trans (run_trans (hf i) hs) ih

end Lexer

end Durable
