import Asper.Base.Text
import Mathlib.Algebra.Order.Field.Basic
import Mathlib.Data.List.Sort

/-! # Hybrid retrieval

`asper_hybrid_search` (`hybrid.c`): every document is scored by the terms of the query, by the cosine of
two vectors and by exact evidence; three rankings are fused by rank, and the best documents are given
out. The arithmetic is that of an ordered field with a logarithm and a square root. -/

namespace Asper

open Durable

namespace Hybrid

/-! ## Words -/

def maxTerms : Nat := 96
def termBytes : Nat := 192

def word (c : UInt8) : Bool :=
  (97 ≤ c ∧ c ≤ 122) ∨ (65 ≤ c ∧ c ≤ 90) ∨ (48 ≤ c ∧ c ≤ 57) ∨ 128 ≤ c ∨ c = 95

def lengthFrom : Bool → Nat → Bytes → Nat
  | _, n, [] => n
  | prev, n, c :: s => lengthFrom (word c) (if word c ∧ prev = false then n + 1 else n) s

/-- `length`: the number of words, and one for none. -/
def length (s : Bytes) : Nat :=
  let n := lengthFrom false 0 s
  if n = 0 then 1 else n

/-- Words of the surrounding prompt, which are no terms. -/
def stop : List Bytes :=
  [ascii "the", ascii "and", ascii "to", ascii "of", ascii "in", ascii "it", ascii "is", ascii "an",
    ascii "on", ascii "message", ascii "active_file", ascii "objective", ascii "recent", ascii "user",
    ascii "assistant"]

/-- The loop of `terms`: every turn takes one word of the query. -/
def termsFrom : Nat → Bytes → List Bytes → List Bytes
  | 0, _, out => out
  | fuel + 1, s, out =>
    if s = [] ∨ maxTerms ≤ out.length then out
    else
      let s := s.dropWhile (! word ·)
      let a := s.takeWhile word
      let s := s.dropWhile word
      if a.length < 2 ∨ termBytes ≤ a.length then termsFrom fuel s out
      else if a ∈ out then termsFrom fuel s out
      else if a ∈ stop then termsFrom fuel s out
      else termsFrom fuel s (out ++ [a])

def terms (s : Bytes) : List Bytes := termsFrom s.length s []

/-- The byte at `i`, which may be the terminator, belongs to a word. -/
def wordAt (s : Bytes) (i : Nat) : Bool := (s[i]?).elim false word

/-- The loop of `frequency` from the place `p` on; `n` were counted before. -/
def frequencyFrom (s term : Bytes) : Nat → Nat → Nat → Nat
  | 0, _, n => n
  | fuel + 1, p, n => match strstr term (s.drop p) with
    | none => n
    | some i =>
      let p := p + i
      frequencyFrom s term fuel (p + term.length)
        (if (p = 0 ∨ wordAt s (p - 1) = false) ∧ wordAt s (p + term.length) = false then n + 1 else n)

/-- How often a term is a whole word of the text. -/
def frequency (s : Option CStr) (term : Bytes) : Nat :=
  match s with
  | none => 0
  | some s => frequencyFrom s.val term (s.val.length + 1) 0 0

/-! ## Scores -/

/-- `log` and `sqrt`. -/
structure Functions (K : Type) where
  log : K → K
  sqrt : K → K

structure SearchDocument (K : Type) (dim : Nat) where
  path : Option CStr
  symbols : Option CStr
  text : Option CStr
  vector : Option (Fin dim → K)

structure SearchHit (K : Type) where
  index : Nat
  score : K
  bm25 : K
  vector : K
  exact : K
  coverage : K
  deriving DecidableEq

section
variable {K : Type} [Field K] [LinearOrder K] (F : Functions K) {dim : Nat}

/-- The products of two vectors, added up. -/
def dot (a b : Fin dim → K) : K := (List.ofFn fun i => a i * b i).sum

def similarity (a b : Option (Fin dim → K)) : K :=
  match a, b with
  | some a, some b => if 0 < dot a a ∧ 0 < dot b b then dot a b / F.sqrt (dot a a * dot b b) else -1
  | _, _ => -1

/-- `docs[i].text ? docs[i].text : ""`. -/
def SearchDocument.body (d : SearchDocument K dim) : CStr := d.text.getD CStr.empty

/-- `df`: how many documents have the term. -/
def documentFrequency (docs : List (SearchDocument K dim)) (term : Bytes) : Nat :=
  docs.countP fun d => frequency (some d.body) term ≠ 0

/-- `avg`. -/
def averageLength (docs : List (SearchDocument K dim)) : K :=
  (docs.map fun d => (length d.body.val : K)).sum / docs.length

/-- What a term that the text has `tf` times adds to `bm25`. -/
def bm25Term (docs : List (SearchDocument K dim)) (d : SearchDocument K dim) (term : Bytes) : K :=
  let n : K := docs.length
  let df : K := documentFrequency docs term
  let tf : K := frequency (some d.body) term
  F.log (1 + (n - df + 1 / 2) / (df + 1 / 2)) * tf * (22 / 10) /
    (tf + 12 / 10 * (1 / 4 + 3 / 4 * length d.body.val / averageLength docs))

/-- The turn of the loop for one term. -/
def scoreTerm (docs : List (SearchDocument K dim)) (d : SearchDocument K dim) (h : SearchHit K × Nat)
    (term : Bytes) : SearchHit K × Nat :=
  let h := if frequency (some d.body) term ≠ 0 then
    ({ h.1 with bm25 := h.1.bm25 + bm25Term F docs d term }, h.2 + 1) else h
  if frequency d.symbols term ≠ 0 then ({ h.1 with exact := h.1.exact + 1 }, h.2) else h

/-- The path of the document is not empty and occurs in the query. -/
def pathMatches (query : CStr) (path : Option CStr) : Bool :=
  match path with
  | none => false
  | some p => p.val ≠ [] ∧ (strstr p.val query.val).isSome

/-- The scores of the document `i`, not fused yet. -/
def scoreDocument (docs : List (SearchDocument K dim)) (query : CStr) (qv : Option (Fin dim → K))
    (i : Nat) (d : SearchDocument K dim) : SearchHit K :=
  let ts := terms query.val
  let (h, cover) := ts.foldl (scoreTerm F docs d) (⟨i, 0, 0, similarity F qv d.vector, 0, 0⟩, 0)
  let h := if pathMatches query d.path then { h with exact := h.exact + 4 } else h
  let h := if 3 < query.val.length ∧ (strstr query.val d.body.val).isSome then
    { h with exact := h.exact + 2 } else h
  { h with coverage := if ts = [] then 0 else cover / ts.length }

/-! ## Fusion -/

/-- `ranked`: the better score, then the smaller index. -/
def ranked (x y : SearchHit K) : Prop := y.score < x.score ∨ x.score = y.score ∧ x.index ≤ y.index

instance : DecidableRel (ranked (K := K)) := fun _ _ => inferInstanceAs (Decidable (_ ∨ _))

inductive Channel where
  | bm25 | vector | exact
  deriving DecidableEq, Repr

def Channel.value : Channel → SearchHit K → K
  | .bm25, h => h.bm25
  | .vector, h => h.vector
  | .exact, h => h.exact

/-- What the value must exceed to count. -/
def Channel.threshold : Channel → K
  | .vector => 1 / 4
  | _ => 0

/-- The ranking of a channel. -/
def Channel.rank (c : Channel) (h : List (SearchHit K)) : List (SearchHit K) :=
  (h.map fun x => { x with score := c.value x }).insertionSort ranked

/-- The place `i` of a ranking adds to the score of its document. -/
def Channel.credit (c : Channel) (h : List (SearchHit K)) (r : SearchHit K × Nat) :
    List (SearchHit K) :=
  if c.threshold < r.1.score then
    h.modify r.1.index fun x => { x with score := x.score + 1 / (61 + r.2) }
  else h

def Channel.fuse (c : Channel) (h : List (SearchHit K)) : List (SearchHit K) :=
  (c.rank h).zipIdx.foldl c.credit h

/-- Coverage and exact evidence count for documents that are ranked at all. -/
def bonus (x : SearchHit K) : SearchHit K :=
  if 0 < x.score then { x with score := x.score + 3 / 100 * x.coverage + 2 / 100 * x.exact } else x

/-- The documents with their fused scores. -/
def fusedHits (docs : List (SearchDocument K dim)) (query : CStr) (qv : Option (Fin dim → K)) :
    List (SearchHit K) :=
  let h := docs.zipIdx.map fun d => scoreDocument F docs query qv d.2 d.1
  ([Channel.bm25, .vector, .exact].foldl (fun h c => c.fuse h) h).map bonus

/-- The loop that gives out the first hits. -/
def emit : Nat → List (SearchHit K) → List (SearchHit K)
  | k + 1, x :: h => if 0 < x.score then x :: emit k h else []
  | _, _ => []

def maxDocuments : Nat := 1000000

/-- `asper_hybrid_search`. -/
def asperHybridSearch (docs : List (SearchDocument K dim)) (query : CStr) (qv : Option (Fin dim → K))
    (k : Nat) : Except Err (List (SearchHit K)) :=
  if maxDocuments < docs.length then .error .invalid
  else if docs = [] ∨ k = 0 then .ok []
  else .ok (emit k ((fusedHits F docs query qv).insertionSort ranked))

/-! ## What is looked for -/

/-- The text has the term as a whole word. -/
def HasToken (s term : Bytes) : Prop :=
  ∃ a b, s = a ++ term ++ b ∧ (∀ c, a.getLast? = some c → word c = false) ∧
    ∀ c, b.head? = some c → word c = false

/-- A document matches in a channel. -/
def Matches (query : CStr) (qv : Option (Fin dim → K)) (d : SearchDocument K dim) :
    Channel → Prop
  | .bm25 => ∃ t ∈ terms query.val, HasToken d.body.val t
  | .vector => 1 / 4 < similarity F qv d.vector
  | .exact => (∃ s, d.symbols = some s ∧ ∃ t ∈ terms query.val, HasToken s.val t) ∨
      (∃ p, d.path = some p ∧ p.val ≠ [] ∧ p.val <:+: query.val) ∨
      (3 < query.val.length ∧ query.val <:+: d.body.val)

/-- What the places of a ranking add to the document `i`. -/
def creditOf (c : Channel) (rs : List (SearchHit K × Nat)) (i : Nat) : K :=
  match rs.find? (·.1.index = i) with
  | some r => if c.threshold < r.1.score then 1 / (61 + r.2) else 0
  | none => 0

end

end Hybrid

end Asper
