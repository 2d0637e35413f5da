import Mathlib.Algebra.Group.Int.Defs
import Mathlib.Data.List.TakeWhile

/-! # Scanners

A scanner reads a terminated buffer through a pointer that moves forward. The pointer is the list
of the cells from it to the end of the buffer, the terminator included; a run halts by rejecting
the text, by reading a cell outside the buffer, or by overflowing a signed integer.

`Reads z t m G`: on the text `t` before the terminator `z`, the scanner `m` stays inside the
buffer, overflows nothing and does exactly what the relation `G` says. The rules `Reads.bind`, `reads_sat`, … give a
scanner's relation from its text, so its safety comes with its meaning. -/

namespace Scanner

/-- Why a scanner stops early. -/
inductive Halt where
  | overrun | overflow | reject
  deriving DecidableEq, Repr

abbrev Scan (α β : Type) := StateT (List α) (Except Halt) β

variable {α β γ σ : Type}

/-- `*p`. -/
def peek : Scan α α
  | [] => .error .overrun
  | b :: p => .ok (b, b :: p)

/-- `*p++`. -/
def next : Scan α α
  | [] => .error .overrun
  | b :: p => .ok (b, p)

def reject : Scan α β := fun _ => .error .reject

def check (b : Bool) : Scan α Unit := if b then pure () else reject

/-- A result of signed arithmetic in `w` bits. -/
def signed (w : Nat) (x : Int) : Scan α Int :=
  if -2 ^ (w - 1) ≤ x ∧ x < 2 ^ (w - 1) then pure x else fun _ => .error .overflow

/-- `if (!f(*p)) return 0; p++`. -/
def sat (f : α → Bool) : Scan α α := do
  let b ← next
  check (f b)
  return b

/-- `while (f(*p)) p++`. -/
def skipWhile (f : α → Bool) : Scan α Unit
  | [] => .error .overrun
  | b :: p => if f b then skipWhile f p else .ok ((), b :: p)

/-- The cells of a word, one after the other. -/
def spell [DecidableEq α] : List α → Scan α Unit
  | [] => pure ()
  | c :: w => do
    let _ ← sat fun b => b = c
    spell w

/-- Exactly `n` cells that satisfy `f`. -/
def take (f : α → Bool) : Nat → Scan α (List α)
  | 0 => pure []
  | n + 1 => do
    let b ← sat f
    return b :: (← take f n)

/-- The number of cells before the next `z`: `strlen`. -/
def distance [DecidableEq α] (z : α) : Scan α Nat :=
  fun p => if z ∈ p then .ok ((p.takeWhile (· ≠ z)).length, p) else .error .overrun

/-- The next `n` cells, the pointer unmoved: what `memcmp` reads. -/
def ahead (n : Nat) : Scan α (List α) :=
  fun p => if n ≤ p.length then .ok (p.take n, p) else .error .overrun

/-- `while (c(*p)) s = body(s)`, at most as often as the fuel says. -/
def loopN (c : α → Bool) (body : σ → Scan α σ) : Nat → σ → Scan α σ
  | 0, _ => fun _ => .error .overrun
  | n + 1, s => do
    if c (← peek) then
      let s ← body s
      loopN c body n s
    else pure s

/-- `while (c(*p)) s = body(s)`, for a body that moves the pointer. -/
def loop (c : α → Bool) (body : σ → Scan α σ) (s : σ) : Scan α σ :=
  fun p => loopN c body p.length s p

/-! ## What a scanner reads -/

/-- On `t` before the terminator `z`, `m` accepts with the value `v` and the rest `r` exactly when
`G v r`, and it rejects otherwise. -/
def Reads (z : α) (t : List α) (m : Scan α β) (G : β → List α → Prop) : Prop :=
  (∃ v r, r <:+ t ∧ m (t ++ [z]) = .ok (v, r ++ [z]) ∧ ∀ v' r', G v' r' ↔ v' = v ∧ r' = r) ∨
    (m (t ++ [z]) = .error .reject ∧ ∀ v r, ¬ G v r)

variable {z : α} {t : List α} {m : Scan α β} {G : β → List α → Prop}

theorem Reads.ok_iff (h : Reads z t m G) {v : β} :
    m.run' (t ++ [z]) = .ok v ↔ ∃ r, G v r := by
  rcases h with ⟨w, r, -, h, hG⟩ | ⟨h, hG⟩
  · simp only [StateT.run'_eq, StateT.run, h, hG, Functor.map, Except.map,
      Except.ok.injEq]
    exact ⟨fun h => ⟨r, h.symm, rfl⟩, fun ⟨_, h, _⟩ => h.symm⟩
  · simp [StateT.run'_eq, StateT.run, h, hG, Functor.map, Except.map]

/-- A scanner that halts early rejects. -/
theorem Reads.safe (h : Reads z t m G) {e : Halt} (he : m.run' (t ++ [z]) = .error e) :
    e = .reject := by
  rcases h with ⟨v, r, -, h, -⟩ | ⟨h, -⟩
  · simp [StateT.run'_eq, StateT.run, h, Functor.map, Except.map] at he
  · simpa [StateT.run'_eq, StateT.run, h, Functor.map, Except.map, eq_comm] using he

theorem Reads.congr {G' : β → List α → Prop} (h : Reads z t m G) (hG : ∀ v r, G v r ↔ G' v r) :
    Reads z t m G' := by
  rcases h with ⟨v, r, hr, h, hv⟩ | ⟨h, hv⟩
  · exact .inl ⟨v, r, hr, h, fun v' r' => (hG v' r').symm.trans (hv v' r')⟩
  · exact .inr ⟨h, fun v r h' => hv v r ((hG v r).2 h')⟩

/-- Only the run on the terminated text counts. -/
theorem Reads.of_eq {m' : Scan α β} (h : Reads z t m G) (he : m' (t ++ [z]) = m (t ++ [z])) :
    Reads z t m' G := by
  rw [Reads, he]
  exact h

/-- Where a scanner accepts, the rest is an end of the text. -/
theorem Reads.suffix (h : Reads z t m G) {v : β} {r : List α} (hG : G v r) : r <:+ t := by
  rcases h with ⟨w, s, hs, -, hv⟩ | ⟨-, hv⟩
  · obtain ⟨-, rfl⟩ := (hv v r).1 hG
    exact hs
  · exact absurd hG (hv v r)

/-! ## Rules -/

theorem reads_pure (v : β) : Reads z t (pure v) fun v' r => v' = v ∧ r = t :=
  .inl ⟨v, t, List.suffix_rfl, rfl, fun _ _ => Iff.rfl⟩

theorem reads_reject : Reads z t (reject : Scan α β) fun _ _ => False :=
  .inr ⟨rfl, fun _ _ => id⟩

/-- **Sequence**: the second scanner reads what the first one leaves. -/
theorem Reads.bind {k : β → Scan α γ} {H : β → List α → γ → List α → Prop} (h : Reads z t m G)
    (hk : ∀ v s, s <:+ t → G v s → Reads z s (k v) (H v s)) :
    Reads z t (m >>= k) fun w r => ∃ v s, G v s ∧ H v s w r := by
  rcases h with ⟨v, s, hs, h, hv⟩ | ⟨h, hv⟩
  · have hrun : (m >>= k) (t ++ [z]) = k v (s ++ [z]) := by
      change (m (t ++ [z]) >>= fun x => k x.1 x.2) = _
      rw [h]
      rfl
    have hG : ∀ w r, (∃ v' s', G v' s' ∧ H v' s' w r) ↔ H v s w r := by
      intro w r
      constructor
      · rintro ⟨v', s', hg, hh⟩
        obtain ⟨rfl, rfl⟩ := (hv v' s').1 hg
        exact hh
      · intro hh
        exact ⟨v, s, (hv v s).2 ⟨rfl, rfl⟩, hh⟩
    rcases hk v s hs ((hv v s).2 ⟨rfl, rfl⟩) with ⟨w, r, hr, hok, hw⟩ | ⟨hrej, hw⟩
    · exact .inl ⟨w, r, hr.trans hs, hrun.trans hok, fun w' r' => (hG w' r').trans (hw w' r')⟩
    · exact .inr ⟨hrun.trans hrej, fun w r hh => hw w r ((hG w r).1 hh)⟩
  · refine .inr ⟨?_, fun w r ⟨v, s, hg, _⟩ => hv v s hg⟩
    change (m (t ++ [z]) >>= fun x => k x.1 x.2) = _
    rw [h]
    rfl

theorem reads_check {b : Bool} : Reads z t (check b) fun _ r => b = true ∧ r = t := by
  cases b
  · exact reads_reject.congr fun _ _ => by simp
  · exact (reads_pure ()).congr fun _ _ => by simp

/-- The cell under the pointer is the first of the text, or the terminator. -/
theorem reads_peek : Reads z t peek fun v r => v = t.headD z ∧ r = t := by
  refine .inl ⟨t.headD z, t, List.suffix_rfl, ?_, fun _ _ => Iff.rfl⟩
  cases t <;> rfl

/-- A branch on the cell under the pointer. -/
theorem reads_peek_bind {k : α → Scan α β} (h : Reads z t (k (t.headD z)) G) :
    Reads z t (peek >>= k) G := by
  refine h.of_eq ?_
  cases t <;> rfl

theorem reads_next {b : α} : Reads z (b :: t) next fun v r => v = b ∧ r = t :=
  .inl ⟨b, t, List.suffix_cons b t, rfl, fun _ _ => Iff.rfl⟩

/-- A move that may pass the terminator, where what follows rejects then. -/
theorem reads_next_bind {k : α → Scan α γ} {H : α → List α → γ → List α → Prop}
    (hz : k z [] = .error .reject) (hk : ∀ b s, t = b :: s → Reads z s (k b) (H b s)) :
    Reads z t (next >>= k) fun w r => ∃ b s, t = b :: s ∧ H b s w r := by
  cases t with
  | nil => exact .inr ⟨hz, fun w r ⟨b, s, h, _⟩ => nomatch h⟩
  | cons b t =>
    refine ((reads_next.bind (H := fun _ _ => H b t) ?_).congr fun w r => ?_)
    · rintro v s - ⟨rfl, rfl⟩
      exact hk v s rfl
    · constructor
      · rintro ⟨_, _, -, h⟩
        exact ⟨b, t, rfl, h⟩
      · rintro ⟨_, _, he, h⟩
        cases he
        exact ⟨b, t, ⟨rfl, rfl⟩, h⟩

theorem reads_signed {w : Nat} {x : Int} (h : -2 ^ (w - 1) ≤ x ∧ x < 2 ^ (w - 1)) :
    Reads z t (signed w x) fun v r => v = x ∧ r = t := by
  rw [signed, if_pos h]
  exact reads_pure x

/-- A test that fails on the terminator never moves past it. -/
theorem reads_sat {f : α → Bool} (hz : f z = false) :
    Reads z t (sat f) fun v r => f v = true ∧ t = v :: r := by
  cases t with
  | nil =>
    refine .inr ⟨?_, fun v r h => nomatch h.2⟩
    change (check (f z) >>= fun _ => pure z : Scan α α) [] = _
    rw [hz]
    rfl
  | cons b t =>
    refine ((reads_next.bind fun v s _ _ => reads_check.bind fun _ _ _ _ =>
      reads_pure v).congr fun v r => ?_)
    constructor
    · rintro ⟨_, _, ⟨rfl, rfl⟩, _, _, ⟨hf, rfl⟩, rfl, rfl⟩
      exact ⟨hf, rfl⟩
    · rintro ⟨hf, hbt⟩
      cases hbt
      exact ⟨b, t, ⟨rfl, rfl⟩, (), t, ⟨hf, rfl⟩, rfl, rfl⟩

theorem skipWhile_run {f : α → Bool} {w r : List α} (hz : f z = false) (hw : ∀ b ∈ w, f b = true)
    (hr : f (r.headD z) = false) : skipWhile f (w ++ r ++ [z]) = .ok ((), r ++ [z]) := by
  induction w with
  | nil => cases r <;> exact if_neg (by simp_all)
  | cons b w ih =>
    obtain ⟨hb, hw⟩ := List.forall_mem_cons.1 hw
    exact (if_pos hb).trans (ih hw)

/-- The cells that satisfy `f`, up to one that does not. -/
theorem reads_skipWhile {f : α → Bool} (hz : f z = false) : Reads z t (skipWhile f)
    fun _ r => ∃ w, (∀ b ∈ w, f b = true) ∧ t = w ++ r ∧ f (r.headD z) = false := by
  have hw : ∀ b ∈ t.takeWhile f, f b = true := fun b hb => List.mem_takeWhile_imp hb
  have hsplit : t = t.takeWhile f ++ t.dropWhile f := List.takeWhile_append_dropWhile.symm
  have hr : f ((t.dropWhile f).headD z) = false := by
    cases hd : t.dropWhile f with
    | nil => exact hz
    | cons b s =>
      have hne : t.dropWhile f ≠ [] := hd ▸ List.cons_ne_nil b s
      have hhead := List.head_dropWhile_not f hne
      simp only [hd, List.head_cons] at hhead
      exact hhead
  have hrun : skipWhile f (t ++ [z]) = .ok ((), t.dropWhile f ++ [z]) := by
    conv => lhs; rw [hsplit]
    exact skipWhile_run hz hw hr
  refine .inl ⟨(), t.dropWhile f, List.dropWhile_suffix f, hrun, fun _ r => ?_⟩
  constructor
  · rintro ⟨w, hw', rfl, hr'⟩
    rw [skipWhile_run hz hw' hr', Except.ok.injEq, Prod.mk.injEq] at hrun
    exact ⟨rfl, List.append_cancel_right hrun.2⟩
  · rintro ⟨-, rfl⟩
    exact ⟨_, hw, hsplit, hr⟩

theorem reads_take {f : α → Bool} (hz : f z = false) (n : Nat) : Reads z t (take f n)
    fun w r => w.length = n ∧ (∀ b ∈ w, f b = true) ∧ t = w ++ r := by
  induction n generalizing t with
  | zero =>
    refine (reads_pure []).congr fun w r => ?_
    rw [List.length_eq_zero_iff]
    constructor
    · rintro ⟨rfl, rfl⟩
      exact ⟨rfl, nofun, rfl⟩
    · rintro ⟨rfl, -, rfl⟩
      exact ⟨rfl, rfl⟩
  | succ n ih =>
    refine ((reads_sat hz).bind (H := fun b s w r => ∃ w', (w'.length = n ∧
      (∀ b ∈ w', f b = true) ∧ s = w' ++ r) ∧ w = b :: w') fun b s _ _ => ?_).congr fun w r => ?_
    · refine (ih.bind fun w' s' _ _ => reads_pure (b :: w')).congr fun w r => ?_
      constructor
      · rintro ⟨w', s', h, rfl, rfl⟩
        exact ⟨w', h, rfl⟩
      · rintro ⟨w', h, rfl⟩
        exact ⟨w', r, h, rfl, rfl⟩
    · constructor
      · rintro ⟨b, s, ⟨hb, rfl⟩, w', ⟨hl, hw, rfl⟩, rfl⟩
        exact ⟨congrArg Nat.succ hl, List.forall_mem_cons.2 ⟨hb, hw⟩, rfl⟩
      · rintro ⟨hl, hw, rfl⟩
        obtain _ | ⟨b, w⟩ := w
        · cases hl
        · obtain ⟨hb, hw⟩ := List.forall_mem_cons.1 hw
          exact ⟨b, w ++ r, ⟨hb, rfl⟩, w, ⟨Nat.succ.inj hl, hw, rfl⟩, rfl⟩

theorem reads_distance [DecidableEq α] (h : z ∉ t) :
    Reads z t (distance z) fun n r => n = t.length ∧ r = t := by
  refine .inl ⟨t.length, t, List.suffix_rfl, ?_, fun _ _ => Iff.rfl⟩
  have hne : ∀ b ∈ t, decide (b ≠ z) = true := fun b hb => decide_eq_true fun h0 => h (h0 ▸ hb)
  have hw : (t ++ [z]).takeWhile (· ≠ z) = t := by
    rw [List.takeWhile_append_of_pos hne]
    simp
  rw [distance, if_pos (by simp), hw]

theorem reads_ahead {n : Nat} (h : n ≤ t.length) :
    Reads z t (ahead n) fun w r => w = t.take n ∧ r = t := by
  refine .inl ⟨t.take n, t, List.suffix_rfl, ?_, fun _ _ => Iff.rfl⟩
  have hlen : n ≤ (t ++ [z]).length := by
    rw [List.length_append]
    omega
  rw [ahead, if_pos hlen, List.take_append_of_le_length h]

theorem reads_spell [DecidableEq α] {w : List α} (hz : z ∉ w) :
    Reads z t (spell w) fun _ r => t = w ++ r := by
  induction w generalizing t with
  | nil => exact (reads_pure ()).congr fun _ r => by simp [eq_comm]
  | cons c w ih =>
    obtain ⟨hc, hw⟩ := not_or.1 (fun h => hz (List.mem_cons.2 h))
    refine ((reads_sat (f := fun b => b = c) (decide_eq_false hc)).bind (H := fun _ s _ r => s = w ++ r)
      fun _ _ _ _ => ih hw).congr fun _ r => ?_
    simp

/-! ## Loops -/

section
variable {c : α → Bool} {body : σ → Scan α σ} {n : Nat} {s s' : σ} {b : α} {p q : List α}

theorem loopN_done (hc : c b = false) : loopN c body (n + 1) s (b :: p) = .ok (s, b :: p) := by
  change (if c b then body s >>= loopN c body n else pure s : Scan α σ) (b :: p) = _
  rw [hc]
  rfl

theorem loopN_step (hc : c b = true) (hb : body s (b :: p) = .ok (s', q)) :
    loopN c body (n + 1) s (b :: p) = loopN c body n s' q := by
  change (if c b then body s >>= loopN c body n else pure s : Scan α σ) (b :: p) = _
  rw [if_pos hc]
  change (body s (b :: p)).bind (fun x => loopN c body n x.1 x.2) = _
  rw [hb]
  rfl

theorem loopN_halt {e : Halt} (hc : c b = true) (hb : body s (b :: p) = .error e) :
    loopN c body (n + 1) s (b :: p) = .error e := by
  change (if c b then body s >>= loopN c body n else pure s : Scan α σ) (b :: p) = _
  rw [if_pos hc]
  change (body s (b :: p)).bind (fun x => loopN c body n x.1 x.2) = _
  rw [hb]
  rfl

end

/-- What the loop with the test `c` and a body that reads `B` reads. -/
inductive Loop (z : α) (c : α → Bool) (B : σ → List α → σ → List α → Prop) :
    σ → List α → σ → List α → Prop
  | done {s t} : c (t.headD z) = false → Loop z c B s t s t
  | step {s t s' t' s'' t''} : c (t.headD z) = true → B s t s' t' → Loop z c B s' t' s'' t'' →
    Loop z c B s t s'' t''

/-- **Loops**: a body that reads `B` from the states of an invariant, and always moves the
pointer. -/
theorem reads_loop {c : α → Bool} {body : σ → Scan α σ} {B : σ → List α → σ → List α → Prop}
    {I : σ → Prop}
    (hB : ∀ s u, I s → u <:+ t → c (u.headD z) = true → Reads z u (body s) (B s u))
    (hI : ∀ s u s' r, I s → c (u.headD z) = true → B s u s' r → I s' ∧ r.length < u.length) {s : σ}
    (hs : I s) : Reads z t (loop c body s) (Loop z c B s t) := by
  suffices h : ∀ n u, u <:+ t → u.length < n → ∀ s, I s →
      Reads z u (loopN c body n s) (Loop z c B s u) from
    h (t ++ [z]).length t List.suffix_rfl (by simp) s hs
  intro n
  induction n with
  | zero => exact fun u _ h => absurd h (Nat.not_lt_zero _)
  | succ n ih =>
    intro u hu hn s hs
    have hpeek : loopN c body (n + 1) s (u ++ [z]) = (if c (u.headD z) then
        body s >>= loopN c body n else pure s : Scan α σ) (u ++ [z]) := by
      cases u <;> rfl
    cases hc : c (u.headD z)
    · rw [hc] at hpeek
      refine ((reads_pure s).congr fun v r => ?_).of_eq hpeek
      constructor
      · rintro ⟨rfl, rfl⟩
        exact .done hc
      · rintro (- | ⟨hc', -, -⟩)
        · exact ⟨rfl, rfl⟩
        · exact absurd (hc.symm.trans hc') Bool.false_ne_true
    · rw [hc] at hpeek
      have hstep : Reads z u (body s >>= loopN c body n) _ := (hB s u hs hu hc).bind fun v s' hs' hb =>
        ih s' (hs'.trans hu) (Nat.lt_of_lt_of_le (hI s u v s' hs hc hb).2 (Nat.le_of_lt_succ hn)) v
          (hI s u v s' hs hc hb).1
      refine (hstep.congr fun v r => ?_).of_eq hpeek
      constructor
      · rintro ⟨v', s', hb, hl⟩
        exact .step hc hb hl
      · rintro (hc' | ⟨-, hb, hl⟩)
        · exact absurd (hc'.symm.trans hc) Bool.false_ne_true
        · exact ⟨_, _, hb, hl⟩

end Scanner
