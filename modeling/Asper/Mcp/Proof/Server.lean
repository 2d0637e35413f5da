import Asper.Mcp.Server

/-! # Every request is answered once

`Built` follows an object through the `ok &= jx_object_set(..)` of its builder: while `ok` holds the
object is there, and it fails only where an allocation did. With it every sender writes one line
(`sendError_replies`, `sendResult_replies`), so every handler does, and `serve_answers` says it of
all lines of the input. -/

namespace Asper

open Durable

/-- `m` prints nothing, and `P` holds of its value and of whether all allocations found memory, those
before it included, for which `ok0` stands. -/
def Yields {α : Type} (m : Mcp α) (P : α → Bool → Prop) (ok0 : Bool) : Prop :=
  Gives m fun a ls ok => ls = [] ∧ P a (ok0 && ok)

/-- `R` holds of the lines of `m` and of whether all allocations found memory. -/
def Says (m : Mcp Unit) (R : List Bytes → Bool → Prop) (ok0 : Bool) : Prop :=
  Gives m fun _ ls ok => R ls (ok0 && ok)

/-- What a constructor gives: a value with `W`, unless an allocation failed or `g` does not hold. -/
structure Makes (g : Prop) (W : JxValue → Prop) (o : Option JxValue) (ok : Bool) : Prop where
  val : ∀ v, o = some v → W v
  good : ok = true → g → o ≠ none

/-- A value being built, with its `ok`. -/
structure Built (g : Prop) (W : JxValue → Prop) (s : Option JxValue × Bool) (ok : Bool) : Prop where
  val : s.2 = true → ∀ v, s.1 = some v → W v
  good : ok = true → g → s.2 = true ∧ s.1 ≠ none

def ObjectWith (P : List (Utf8 × JxValue) → Prop) (v : JxValue) : Prop := ∃ ms, v = .object ms ∧ P ms

def IsArray (v : JxValue) : Prop := ∃ vs, v = .array vs

section
variable {α γ : Type} {m : Mcp α} {g g' : Prop} {V W W' : JxValue → Prop}
  {P : List (Utf8 × JxValue) → Prop} {s : Option JxValue × Bool} {ok0 ok1 : Bool}

/-! ## Sequences -/

theorem Yields.pure {a : α} {Q : α → Bool → Prop} (h : Q a ok0) : Yields (Pure.pure a) Q ok0 :=
  Gives.pure ⟨rfl, by rwa [Bool.and_true]⟩

theorem Yields.mono {Q Q' : α → Bool → Prop} (h : Yields m Q ok0) (hq : ∀ a ok, Q a ok → Q' a ok) :
    Yields m Q' ok0 :=
  Gives.mono h fun _ _ _ h => ⟨h.1, hq _ _ h.2⟩

theorem Yields.step {k : α → Mcp γ} {Q : α → Bool → Prop} {R : γ → Bool → Prop}
    (hm : Yields m Q ok0) (hk : ∀ a ok, (ok = true → ok0 = true) → Q a ok → Yields (k a) R ok) :
    Yields (m >>= k) R ok0 := by
  refine Gives.quiet hm fun a ok hq => ?_
  refine Gives.mono (hk a _ (fun h => (Bool.and_eq_true_iff.1 h).1) hq) fun c ls ok' h => ?_
  rwa [← Bool.and_assoc]

theorem Says.step {k : α → Mcp Unit} {Q : α → Bool → Prop} {R : List Bytes → Bool → Prop}
    (hm : Yields m Q ok0) (hk : ∀ a ok, (ok = true → ok0 = true) → Q a ok → Says (k a) R ok) :
    Says (m >>= k) R ok0 := by
  refine Gives.quiet hm fun a ok hq => ?_
  refine Gives.mono (hk a _ (fun h => (Bool.and_eq_true_iff.1 h).1) hq) fun c ls ok' h => ?_
  rwa [← Bool.and_assoc]

theorem Says.mono {n : Mcp Unit} {R R' : List Bytes → Bool → Prop} (h : Says n R ok0)
    (hr : ∀ ls ok, R ls ok → R' ls ok) : Says n R' ok0 :=
  Gives.mono h fun _ _ _ h => hr _ _ h

theorem Makes.imp {o : Option JxValue} {ok ok' : Bool} (h : Makes g W o ok)
    (hok : ok' = true → ok = true) (hg : g' → g) (hW : ∀ v, W v → W' v) : Makes g' W' o ok' :=
  ⟨fun v hv => hW v (h.val v hv), fun ho hg' => h.good (hok ho) (hg hg')⟩

theorem Built.imp {ok ok' : Bool} (h : Built g W s ok) (hok : ok' = true → ok = true)
    (hW : ∀ v, W v → W' v) : Built g W' s ok' :=
  ⟨fun hs v hv => hW v (h.val hs v hv), fun ho hg => h.good (hok ho) hg⟩

/-- A value that was built becomes part of another. -/
theorem Built.part {ok ok' : Bool} (h : Built g W s ok) (hok : ok' = true → ok = true) :
    Makes g (fun _ => True) s.1 ok' :=
  ⟨fun _ _ => trivial, fun ho hg => (h.good (hok ho) hg).2⟩

theorem Built.makes {ok : Bool} (h : Built g W s ok) : Makes g (fun v => s.2 = true → W v) s.1 ok :=
  ⟨fun v hv hs => h.val hs v hv, fun ho hg => (h.good ho hg).2⟩

/-! ## Constructors -/

theorem lookup_putMember_self (ms : List (Utf8 × JxValue)) (key : Utf8) (v : JxValue) :
    lookup (putMember ms key v) key = some v := by
  unfold lookup putMember
  split
  · next h =>
    induction ms with
    | nil => simp at h
    | cons m ms ih =>
      by_cases hm : m.1 = key
      · simp [hm]
      · have h' : (ms.any fun m => decide (m.1 = key)) = true := by simpa [hm] using h
        simpa [hm] using ih h'
  · next h =>
    have hnone : ms.find? (fun m => decide (m.1 = key)) = none := by
      rw [List.find?_eq_none]
      intro m hm hk
      exact h (List.any_eq_true.2 ⟨m, hm, hk⟩)
    simp [List.find?_append, hnone]

theorem lookup_putMember_ne (ms : List (Utf8 × JxValue)) {key key' : Utf8} (v : JxValue)
    (h : key ≠ key') : lookup (putMember ms key v) key' = lookup ms key' := by
  unfold lookup putMember
  split
  · next hany =>
    clear hany
    congr 1
    induction ms with
    | nil => rfl
    | cons m ms ih =>
      by_cases hm : m.1 = key
      · simpa [hm, h] using ih
      · by_cases hk : m.1 = key'
        · simp [hk, Ne.symm h]
        · simpa [hm, hk] using ih
  · simp [List.find?_append, h]

theorem yields_alloc : Yields (alloc : Mcp Bool) (fun b ok => ok = (ok0 && b)) ok0 :=
  gives_alloc.mono fun _ _ _ h => ⟨h.1, by rw [h.2]⟩

theorem jxNew_makes (g : Prop) (v : JxValue) : Yields (jxNew v) (Makes g (· = v)) ok0 := by
  refine Yields.step yields_alloc fun b ok _ hb => ?_
  subst hb
  cases b with
  | true => exact Yields.pure ⟨fun _ h => (Option.some.inj h).symm, fun _ _ => nofun⟩
  | false => exact Yields.pure ⟨nofun, fun h => absurd h (by simp)⟩

theorem jxClone_makes (g : Prop) (v : JxValue) : Yields (jxClone (some v)) (Makes g (· = v)) ok0 :=
  jxNew_makes g v

theorem jxString_makes (g : Prop) (t : Bytes) (h : g → utf8Valid (cstr t).val = true) :
    Yields (jxString t) (Makes g (·.isString = true)) ok0 := by
  unfold jxString
  split
  · refine (jxNew_makes g _).mono fun o ok h => h.imp (fun h => h) (fun h => h) fun v hv => ?_
    rw [hv]
    rfl
  · next hn => exact Yields.pure ⟨nofun, fun _ hg => absurd (h hg) hn⟩

/-- A text in UTF-8 without NUL is made. -/
theorem text_makes (g : Prop) {t : Bytes} (h : utf8Valid t = true) (h0 : 0 ∉ t) :
    Yields (jxString t) (Makes g (·.isString = true)) ok0 :=
  jxString_makes g t fun _ => by rwa [cstr_self h0]

/-- A literal is made. -/
theorem literal_makes (g : Prop) {t : Bytes} (h : t.all (fun b => 1 ≤ b ∧ b < 0x80) = true) :
    Yields (jxString t) (Makes g (·.isString = true)) ok0 := by
  have hall : ∀ b ∈ t, 1 ≤ b ∧ b < 0x80 := fun b hb =>
    of_decide_eq_true (List.all_eq_true.1 h b hb)
  exact text_makes g (utf8Valid_ascii fun b hb => (hall b hb).2) fun h0 =>
    absurd (hall 0 h0).1 (by decide)

theorem pure_makes {o : Option JxValue} (h : Makes g W o ok0) : Yields (pure o) (Makes g W) ok0 :=
  Yields.pure h

/-- A field is set: while `ok` holds, the object has it. -/
theorem setField_built (P' : List (Utf8 × JxValue) → Prop) {make : Mcp (Option JxValue)} {key : Utf8}
    (hs : Built g (ObjectWith P) s ok0) (hm : Yields make (Makes g V) ok0)
    (hP : ∀ ms v, P ms → V v → P' (putMember ms key v)) :
    Yields (setField s key make) (fun r ok => Built g (ObjectWith P') r ok ∧
      (r.2 = true → s.2 = true)) ok0 := by
  refine Yields.step hm fun v ok1 h01 hv => ?_
  have hs1 := hs.imp h01 fun _ h => h
  have hobj : Yields (jxObjectSet s.1 key v) (fun r ok =>
      Built g (ObjectWith P') (r.1, s.2 && r.2) ok) ok1 := by
    unfold jxObjectSet
    split
    · next ms v ho =>
      refine Yields.step yields_alloc fun b ok _ hb => ?_
      subst hb
      cases b with
      | true =>
        refine Yields.pure ⟨fun h2 w hw => ?_, fun hok hg => ?_⟩
        · obtain ⟨ms', hms, hp⟩ := hs1.val (by simpa using h2) _ ho
          obtain rfl : ms = ms' := by simpa using hms
          exact ⟨_, (Option.some.inj hw).symm, hP ms v hp (hv.val v rfl)⟩
        · exact ⟨by simp [(hs1.good (by simpa using hok) hg).1], nofun⟩
      | false => exact Yields.pure ⟨fun h => by simp at h, fun h => absurd h (by simp)⟩
    · next hno =>
      refine Yields.pure ⟨fun h => by simp at h, fun hok hg => ?_⟩
      obtain ⟨h2, hsome⟩ := hs1.good hok hg
      obtain ⟨u, hu⟩ := Option.ne_none_iff_exists'.1 hsome
      obtain ⟨w, hw⟩ := Option.ne_none_iff_exists'.1 (hv.good hok hg)
      obtain ⟨ms, rfl, -⟩ := hs1.val h2 u hu
      exact absurd hw (hno ms w hu)
  refine Yields.step hobj fun r ok _ hr => Yields.pure ⟨hr, fun h => ?_⟩
  exact (Bool.and_eq_true_iff.1 h).1

/-- A field of an object of which nothing else matters. -/
theorem setField_object {make : Mcp (Option JxValue)} {key : Utf8}
    (hs : Built g (ObjectWith fun _ => True) s ok0) (hm : Yields make (Makes g V) ok0) :
    Yields (setField s key make) (fun r ok => Built g (ObjectWith fun _ => True) r ok ∧
      (r.2 = true → s.2 = true)) ok0 :=
  setField_built _ hs hm fun _ _ _ _ => trivial

theorem pushItem_built {make : Mcp (Option JxValue)} (hs : Built g IsArray s ok0)
    (hm : Yields make (Makes g V) ok0) :
    Yields (pushItem s make) (fun r ok => Built g IsArray r ok ∧ (r.2 = true → s.2 = true))
      ok0 := by
  refine Yields.step hm fun v ok1 h01 hv => ?_
  have hs1 := hs.imp h01 fun _ h => h
  have harr : Yields (jxArrayPush s.1 v) (fun r ok => Built g IsArray (r.1, s.2 && r.2) ok)
      ok1 := by
    unfold jxArrayPush
    split
    · next vs v ho =>
      refine Yields.step yields_alloc fun b ok _ hb => ?_
      subst hb
      cases b with
      | true =>
        refine Yields.pure ⟨fun h2 w hw => ⟨_, (Option.some.inj hw).symm⟩, fun hok hg => ?_⟩
        exact ⟨by simp [(hs1.good (by simpa using hok) hg).1], nofun⟩
      | false => exact Yields.pure ⟨fun h => by simp at h, fun h => absurd h (by simp)⟩
    · next hno =>
      refine Yields.pure ⟨fun h => by simp at h, fun hok hg => ?_⟩
      obtain ⟨h2, hsome⟩ := hs1.good hok hg
      obtain ⟨u, hu⟩ := Option.ne_none_iff_exists'.1 hsome
      obtain ⟨w, hw⟩ := Option.ne_none_iff_exists'.1 (hv.good hok hg)
      obtain ⟨vs, rfl⟩ := hs1.val h2 u hu
      exact absurd hw (hno vs w hu)
  refine Yields.step harr fun r ok _ hr => Yields.pure ⟨hr, fun h => ?_⟩
  exact (Bool.and_eq_true_iff.1 h).1

/-- A value just made, under the `ok` so far. -/
theorem Makes.built {o : Option JxValue} {f : Bool} (h : Makes g W o ok0)
    (hf : ok0 = true → g → f = true) : Built g W (o, f) ok0 :=
  ⟨fun _ v hv => h.val v hv, fun hok hg => ⟨hf hok hg, h.good hok hg⟩⟩

theorem Makes.built_isSome {o : Option JxValue} {f : Bool} (h : Makes g W o ok0)
    (hf : ok0 = true → g → f = true) : Built g W (o, f && o.isSome) ok0 :=
  ⟨fun _ v hv => h.val v hv, fun hok hg =>
    ⟨by simp [hf hok hg, Option.isSome_iff_ne_none, h.good hok hg], h.good hok hg⟩⟩

theorem emptyObject (v : JxValue) (h : v = .object []) : ObjectWith (fun _ => True) v :=
  ⟨[], h, trivial⟩

/-- A new object. -/
theorem jxObject_makes (g : Prop) : Yields jxObject (Makes g (ObjectWith fun _ => True)) ok0 :=
  (jxNew_makes g (.object [])).mono fun _ _ h => h.imp (fun h => h) (fun h => h) emptyObject

theorem jxArray_makes (g : Prop) : Yields jxArray (Makes g IsArray) ok0 :=
  (jxNew_makes g (.array [])).mono fun _ _ h => h.imp (fun h => h) (fun h => h) fun _ h => ⟨[], h⟩

end

/-! ## Senders -/

section
variable {H : Host} {g : Prop} {id : Option JxValue} {ok0 : Bool}

/-- A response that carries the id. -/
def Echoes (H : Host) (id : Option JxValue) (l : Bytes) : Prop :=
  ∃ ms, l = H.write (.object ms) ∧ lookup ms (utf8 "id" (.refl true)) = some (id.getD .null)

/-- One line, which echoes the id; where an allocation failed or `g` does not hold, the id may be
null. -/
def Answers (H : Host) (g : Prop) (id : Option JxValue) (ls : List Bytes) (ok : Bool) : Prop :=
  ∃ l, ls = [l] ∧ 10 ∉ l ∧ (Echoes H id l ∨ Echoes H none l ∨ l = oomResponse) ∧
    (ok = true → g → Echoes H id l)

/-- A request that wants no response gets none. -/
def Replies (H : Host) (g : Prop) (want : Bool) (id : Option JxValue) (ls : List Bytes) (ok : Bool) :
    Prop :=
  if want = true then Answers H g id ls ok else ls = []

theorem newline_not_mem (v : JxValue) : (10 : UInt8) ∉ H.write v := fun h =>
  absurd (H.write_plain v 10 h) (by decide)

theorem says_oom (h : ok0 = true → ¬ g) : Says (print oomResponse) (Answers H g id) ok0 := by
  refine (gives_print oomResponse).mono fun _ ls ok ⟨hl, hok⟩ => ?_
  exact ⟨_, hl, by decide, .inr (.inr rfl), fun hok' hg =>
    absurd hg (h (Bool.and_eq_true_iff.1 hok').1)⟩

theorem jxWrite_yields (v : JxValue) : Yields (jxWrite H (some v))
    (fun o ok => (∀ l, o = some l → l = H.write v) ∧ (ok = true → o ≠ none)) ok0 := by
  refine Yields.step yields_alloc fun b ok _ hb => ?_
  subst hb
  cases b with
  | true => exact Yields.pure ⟨fun _ h => (Option.some.inj h).symm, fun _ => nofun⟩
  | false => exact Yields.pure ⟨nofun, fun h => absurd h (by simp)⟩

/-- The end of a sender. -/
theorem sendBuilt_answers {s : Option JxValue × Bool}
    (hs : Built g (ObjectWith fun ms => lookup ms (utf8 "id") = some (id.getD .null)) s ok0) :
    Says (if s.2 = false then print oomResponse else sendValue H s.1) (Answers H g id) ok0 := by
  split
  · next h => exact says_oom fun hok hg => absurd (hs.good hok hg).1 (by simp [h])
  · next h =>
    cases hv : s.1 with
    | none =>
      have hbad : ok0 = true → ¬ g := fun hok hg => (hs.good hok hg).2 hv
      exact Says.step (Yields.pure rfl : Yields (pure none) (fun o _ => o = none) ok0)
        fun o ok hok ho => by
          subst ho
          exact says_oom fun h => hbad (hok h)
    | some v =>
      obtain ⟨ms, rfl, hid⟩ := hs.val (by simpa using h) v hv
      refine Says.step (jxWrite_yields _) fun o ok _ ho => ?_
      cases o with
      | none => exact says_oom fun h => absurd rfl (ho.2 h)
      | some l =>
        obtain rfl := ho.1 l rfl
        refine (gives_print _).mono fun _ ls ok ⟨hl, _⟩ => ?_
        exact ⟨_, hl, newline_not_mem _, .inl ⟨ms, rfl, hid⟩, fun _ _ => ⟨ms, rfl, hid⟩⟩

theorem idOrNull_makes (g : Prop) :
    Yields (idOrNull id) (Makes g (· = id.getD .null)) ok0 := by
  cases id with
  | none => exact jxNew_makes g _
  | some v => exact Yields.pure ⟨fun _ h => (Option.some.inj h).symm, fun _ _ => nofun⟩

theorem sendResponse_answers {key : Utf8} (hkey : key ≠ utf8 "id") {body : Option JxValue} {f : Bool}
    (hf : ok0 = true → g → f = true) (hb : Makes g (fun _ => True) body ok0) :
    Says (sendResponse H id key body f) (Answers H g id) ok0 := by
  refine Says.step (jxObject_makes g) fun resp ok h0 ho => ?_
  refine Says.step (setField_object (ho.built_isSome fun h => hf (h0 h))
    (literal_makes g (by decide))) fun r ok1 h1 hr => ?_
  refine Says.step (setField_built (fun ms => lookup ms (utf8 "id") = some (id.getD .null)) hr.1
    (idOrNull_makes g) ?_) fun r ok2 h2 hr => ?_
  · rintro ms _ - rfl
    exact lookup_putMember_self ms _ _
  refine Says.step (setField_built _ hr.1 (pure_makes (hb.imp (fun h => h0 (h1 (h2 h))) (fun h => h)
    fun _ h => h)) ?_) fun r ok3 _ hr => sendBuilt_answers hr.1
  intro ms v hms _
  rw [lookup_putMember_ne ms v hkey]
  exact hms

theorem Answers.replies {want : Bool} {m : Mcp Unit} (h : Says m (Answers H g id) ok0)
    (hw : want = true) : Says m (Replies H g want id) ok0 :=
  h.mono fun _ _ h => by rwa [Replies, if_pos hw]

theorem says_nothing {want : Bool} (hw : want = false) :
    Says (Pure.pure ()) (Replies H g want id) ok0 :=
  Gives.pure (by rw [Replies, if_neg (by simp [hw])])

theorem decorate_built (g : Prop) (ms : List (Utf8 × JxValue)) :
    Yields (decorateModernResult H (some (.object ms))) (Built g (ObjectWith fun _ => True))
      ok0 := by
  have hms : Built g (ObjectWith fun _ => True) (some (.object ms), true) ok0 :=
    ⟨fun _ _ h => ⟨ms, (Option.some.inj h).symm, trivial⟩, fun _ _ => ⟨rfl, nofun⟩⟩
  refine Yields.step (jxObject_makes g) fun metaObj ok h0 hm => ?_
  refine Yields.step (jxObject_makes g) fun info ok1 h1 hi => ?_
  have hm1 := hm.imp h1 (fun h => h) fun _ h => h
  have hsome : ok1 = true → g → metaObj.isSome = true := fun h hg =>
    Option.isSome_iff_ne_none.2 (hm1.good h hg)
  refine Yields.step (setField_object (hi.built_isSome hsome) (literal_makes g (by decide)))
    fun i ok2 h2 hi => ?_
  refine Yields.step (setField_object hi.1 (literal_makes g (by decide))) fun i ok3 h3 hi => ?_
  refine Yields.step (setField_object hi.1 (text_makes g H.version.2.1 H.version.2.2))
    fun i ok4 h4 hi => ?_
  have hm4 := hm1.imp (fun h => h2 (h3 (h4 h))) (fun h => h) fun _ h => h
  refine Yields.step (setField_object (hm4.built fun h hg => (hi.1.good h hg).1)
    (pure_makes (hi.1.part fun h => h))) fun m ok5 h5 hm => ?_
  have hms5 : Built g (ObjectWith fun _ => True) (some (.object ms), m.2) ok5 :=
    ⟨fun _ => hms.val rfl, fun h hg => ⟨(hm.1.good h hg).1, nofun⟩⟩
  refine Yields.step (setField_object hms5 (literal_makes g (by decide))) fun r ok6 h6 hr => ?_
  exact (setField_object hr.1 (pure_makes (hm.1.part h6))).mono fun _ _ h => h.1

/-- **A result is sent** as one line. -/
theorem sendResult_replies (want : Bool) {result : Option JxValue} (modern : Bool)
    (hr : Makes g (ObjectWith fun _ => True) result ok0) :
    Says (sendResult H want id result modern) (Replies H g want id) ok0 := by
  have hkey : utf8 "result" ≠ utf8 "id" := by decide
  unfold sendResult
  split
  · next hw => exact says_nothing hw
  · next hw =>
    refine Answers.replies ?_ (by simpa using hw)
    split
    · cases result with
      | none =>
        have hbad : ok0 = true → ¬ g := fun hok hg => hr.good hok hg rfl
        refine Says.step (Yields.pure rfl :
          Yields (pure (none, false)) (fun r _ => r = (none, false)) ok0) fun r ok hok h => ?_
        subst h
        exact says_oom fun h => hbad (hok h)
      | some v =>
        obtain ⟨ms, rfl, -⟩ := hr.val v rfl
        refine Says.step (decorate_built g ms) fun r ok _ hr => ?_
        split
        · next h => exact says_oom fun hok hg => absurd (hr.good hok hg).1 (by simp [h])
        · exact sendResponse_answers hkey (fun _ _ => rfl) (hr.part fun h => h)
    · exact sendResponse_answers hkey (fun _ _ => rfl) (hr.imp (fun h => h) (fun h => h)
        fun _ _ => trivial)

theorem errName_plain (e : Err) :
    e.name.val.all (fun b => 1 ≤ b ∧ b < 0x80) = true := by
  cases e <;> decide

/-- **An error is sent** as one line. -/
theorem sendError_replies (want : Bool) (code : Int) {message : Bytes} (asperName : Option Err)
    (hm : g → utf8Valid (cstr message).val = true) :
    Says (sendError H want id code message (asperName.map Err.name)) (Replies H g want id) ok0 := by
  have hkey : utf8 "error" ≠ utf8 "id" := by decide
  unfold sendError
  split
  · next hw => exact says_nothing hw
  next hw =>
  refine Answers.replies ?_ (by simpa using hw)
  refine Says.step (jxObject_makes g) fun err ok h0 he => ?_
  refine Says.step (setField_object (s := (err, err.isSome)) (by
    simpa using he.built_isSome (f := true) fun _ _ => rfl) (jxNew_makes g _)) fun e ok1 h1 he => ?_
  refine Says.step (setField_object he.1 (jxString_makes g message hm)) fun e ok2 h2 he => ?_
  cases asperName with
  | none =>
    exact sendResponse_answers hkey (fun h hg => (he.1.good h hg).1) (he.1.part fun h => h)
  | some name =>
    refine Says.step (jxObject_makes g) fun data ok3 h3 hd => ?_
    refine Says.step (setField_object (hd.built fun h hg => (he.1.good (h3 h) hg).1)
      (literal_makes g (errName_plain name))) fun d ok4 h4 hd => ?_
    have he4 : Built g (ObjectWith fun _ => True) (e.1, d.2) ok4 :=
      ⟨fun h => he.1.val (hd.2 h), fun h hg =>
        ⟨(hd.1.good h hg).1, (he.1.good (h3 (h4 h)) hg).2⟩⟩
    refine Says.step (setField_object he4 (pure_makes (hd.1.part fun h => h))) fun e ok5 h5 he => ?_
    exact sendResponse_answers hkey (fun h hg => (he.1.good h hg).1) (he.1.part fun h => h)

/-- **A tool's payload is sent** as one line. -/
theorem sendToolResult_replies (want isError modern : Bool) (payload : JxValue) :
    Says (sendToolResult H want id (some payload) isError modern) (Replies H g want id) ok0 := by
  unfold sendToolResult
  split
  · next hw => exact says_nothing hw
  next hw =>
  have hwant : want = true := by simpa using hw
  refine Says.step (jxWrite_yields payload) fun o ok h0 ho => ?_
  cases o with
  | none => exact Answers.replies (says_oom fun h => absurd rfl (ho.2 h)) hwant
  | some txt =>
    obtain rfl := ho.1 txt rfl
    have htxt : 0 ∉ H.write payload := fun h =>
      absurd (H.write_plain payload 0 h) (by decide)
    refine Says.step (jxObject_makes g) fun item ok1 h1 hi => ?_
    refine Says.step (setField_object (s := (item, item.isSome)) (by
      simpa using hi.built_isSome (f := true) fun _ _ => rfl) (literal_makes g (by decide)))
      fun i ok2 h2 hi => ?_
    refine Says.step (setField_object hi.1 (text_makes g (H.write_utf8 payload) htxt))
      fun i ok3 h3 hi => ?_
    refine Says.step (jxArray_makes g) fun content ok4 h4 hc => ?_
    refine Says.step (pushItem_built (hc.built fun h hg => (hi.1.good (h4 h) hg).1)
      (pure_makes (hi.1.part h4))) fun c ok5 h5 hc => ?_
    refine Says.step (jxObject_makes g) fun res ok6 h6 hr => ?_
    refine Says.step (setField_object (hr.built fun h hg => (hc.1.good (h6 h) hg).1)
      (pure_makes (hc.1.part h6))) fun r ok7 h7 hr => ?_
    refine Says.step (setField_object hr.1 (jxNew_makes g _)) fun r ok8 h8 hr => ?_
    split
    · next h =>
      refine Answers.replies (says_oom fun hok hg => ?_) hwant
      exact absurd (hr.1.good hok hg).1 (by simp [h])
    · next h =>
      rw [hwant]
      refine sendResult_replies true modern (hr.1.makes.imp (fun h => h) (fun h => h) fun v hv => ?_)
      exact hv (by simpa using h)

/-! ## Handlers -/

theorem literal_valid {t : Bytes} (h : t.all (fun b => 1 ≤ b ∧ b < 0x80) = true) :
    utf8Valid (cstr t).val = true := by
  have hall : ∀ b ∈ t, 1 ≤ b ∧ b < 0x80 := fun b hb =>
    of_decide_eq_true (List.all_eq_true.1 h b hb)
  rw [cstr_self fun h0 => absurd (hall 0 h0).1 (by decide)]
  exact utf8Valid_ascii fun b hb => (hall b hb).2

/-- An error with a literal message. -/
theorem sendLiteral_replies (want : Bool) (code : Int) {message : Bytes}
    (h : message.all (fun b => 1 ≤ b ∧ b < 0x80) = true) :
    Says (sendError H want id code message none) (Replies H g want id) ok0 :=
  sendError_replies want code none fun _ => literal_valid h

theorem outOfMemory_replies (want : Bool) :
    Says (sendError H want id (-32603) outOfMemory none) (Replies H g want id) ok0 :=
  sendLiteral_replies want _ (by decide)

/-- The end of a builder. -/
theorem built_or_none {s : Option JxValue × Bool} (h : Built g (ObjectWith fun _ => True) s ok0) :
    Yields (if s.2 = false then pure none else pure s.1)
      (Makes g (ObjectWith fun _ => True)) ok0 := by
  split
  · next h2 => exact Yields.pure ⟨nofun, fun hok hg => absurd (h.good hok hg).1 (by simp [h2])⟩
  · next h2 => exact Yields.pure ⟨h.val (by simpa using h2), fun hok hg => (h.good hok hg).2⟩

theorem initializeResult_makes (g : Prop) :
    Yields (initializeResult H) (Makes g (ObjectWith fun _ => True)) ok0 := by
  refine Yields.step (jxObject_makes g) fun res ok h0 hr => ?_
  refine Yields.step (setField_object (s := (res, res.isSome)) (by
    simpa using hr.built_isSome (f := true) fun _ _ => rfl) (literal_makes g (by decide)))
    fun r ok1 h1 hr => ?_
  refine Yields.step (jxObject_makes g) fun caps ok2 h2 hc => ?_
  refine Yields.step (setField_object (hc.built fun h hg => (hr.1.good (h2 h) hg).1)
    (jxObject_makes g)) fun c ok3 h3 hc => ?_
  have hr3 : Built g (ObjectWith fun _ => True) (r.1, c.2) ok3 :=
    ⟨fun h => hr.1.val (hc.2 h), fun h hg => ⟨(hc.1.good h hg).1, (hr.1.good (h2 (h3 h)) hg).2⟩⟩
  refine Yields.step (setField_object hr3 (pure_makes (hc.1.part fun h => h)))
    fun r ok4 h4 hr => ?_
  refine Yields.step (jxObject_makes g) fun si ok5 h5 hs => ?_
  refine Yields.step (setField_object (hs.built fun h hg => (hr.1.good (h5 h) hg).1)
    (literal_makes g (by decide))) fun s ok6 h6 hs => ?_
  refine Yields.step (setField_object hs.1 (literal_makes g (by decide))) fun s7 ok7 h7 hs7 => ?_
  refine Yields.step (setField_object hs7.1 (text_makes g H.version.2.1 H.version.2.2))
    fun s8 ok8 h8 hs8 => ?_
  have hr8 : Built g (ObjectWith fun _ => True) (r.1, s8.2) ok8 :=
    ⟨fun h => hr.1.val (hs.2 (hs7.2 (hs8.2 h))), fun h hg =>
      ⟨(hs8.1.good h hg).1, (hr.1.good (h5 (h6 (h7 (h8 h)))) hg).2⟩⟩
  refine Yields.step (setField_object hr8 (pure_makes (hs8.1.part fun h => h)))
    fun r ok9 _ hr => built_or_none hr.1

theorem discoverResult_makes (g : Prop) :
    Yields discoverResult (Makes g (ObjectWith fun _ => True)) ok0 := by
  refine Yields.step (jxObject_makes g) fun res ok h0 hr => ?_
  refine Yields.step (jxArray_makes g) fun versions ok1 h1 hv => ?_
  refine Yields.step (jxObject_makes g) fun caps ok2 h2 hc => ?_
  have hv2 : Built g IsArray
      (versions, res.isSome && versions.isSome && caps.isSome) ok2 :=
    ⟨fun _ v h => hv.val v h, fun h hg => ⟨by
      simp [Option.isSome_iff_ne_none, hr.good (h1 (h2 h)) hg, hv.good (h2 h) hg, hc.good h hg],
      hv.good (h2 h) hg⟩⟩
  refine Yields.step (pushItem_built hv2 (literal_makes g (by decide))) fun v ok3 h3 hv => ?_
  refine Yields.step (pushItem_built hv.1 (literal_makes g (by decide))) fun v ok4 h4 hv => ?_
  have hc4 : Built g (ObjectWith fun _ => True) (caps, v.2) ok4 :=
    (hc.imp (fun h => h3 (h4 h)) (fun h => h) fun _ h => h).built fun h hg => (hv.1.good h hg).1
  refine Yields.step (setField_object hc4 (jxObject_makes g)) fun c ok5 h5 hc => ?_
  have hr5 : Built g (ObjectWith fun _ => True) (res, c.2) ok5 :=
    (hr.imp (fun h => h1 (h2 (h3 (h4 (h5 h))))) (fun h => h) fun _ h => h).built
      fun h hg => (hc.1.good h hg).1
  refine Yields.step (setField_object hr5 (pure_makes (hv.1.part h5))) fun r ok6 h6 hr => ?_
  refine Yields.step (setField_object hr.1 (pure_makes (hc.1.part h6))) fun r ok7 h7 hr => ?_
  refine Yields.step (setField_object hr.1 (literal_makes g (by decide))) fun r ok8 h8 hr => ?_
  refine Yields.step (setField_object hr.1 (jxNew_makes g _)) fun r ok9 h9 hr => ?_
  exact Yields.step (setField_object hr.1 (literal_makes g (by decide)))
    fun r ok10 _ hr => built_or_none hr.1

theorem handlePing_replies (want modern : Bool) :
    Says (handlePing H want id modern) (Replies H g want id) ok0 :=
  Says.step (jxObject_makes g) fun _ _ _ ho => sendResult_replies want modern ho

/-- A result, or an error when there is no memory for it. -/
theorem sendMade_replies (want modern : Bool) {res : Option JxValue}
    (h : Makes g (ObjectWith fun _ => True) res ok0) :
    Says (if res.isNone then sendError H want id (-32603) outOfMemory none
      else sendResult H want id res modern) (Replies H g want id) ok0 := by
  split
  · exact outOfMemory_replies want
  · exact sendResult_replies want modern h

theorem handleInitialize_replies (want : Bool) (params : Option JxValue) :
    Says (handleInitialize H want id params) (Replies H g want id) ok0 := by
  unfold handleInitialize
  split
  · exact sendLiteral_replies want _ (by decide)
  · exact Says.step (initializeResult_makes g) fun _ _ _ hr => sendMade_replies want false hr

theorem handleDiscover_replies (want : Bool) :
    Says (handleDiscover H want id) (Replies H g want id) ok0 :=
  Says.step (discoverResult_makes g) fun _ _ _ hr => sendMade_replies want true hr

theorem toolEntry_yields (t : Utf8 × Utf8 × Utf8) :
    Yields (toolEntry H t) (fun _ _ => True) ok0 := by
  refine Yields.step yields_alloc fun b ok _ _ => ?_
  split
  · cases H.parse t.2.2.val with
    | none => exact Yields.pure trivial
    | some schema =>
      refine Yields.step (jxObject_makes False) fun o ok1 _ ho => ?_
      refine Yields.step (setField_object (s := (o, o.isSome)) (by
        simpa using ho.built_isSome (f := true) nofun) (jxString_makes False _ nofun))
        fun o ok2 _ ho => ?_
      refine Yields.step (setField_object ho.1 (jxString_makes False _ nofun)) fun o ok3 _ ho => ?_
      refine Yields.step (setField_object ho.1
        (pure_makes (W := fun _ => True) ⟨fun _ _ => trivial, nofun⟩)) fun o ok4 _ ho => ?_
      exact (built_or_none ho.1).mono fun _ _ _ => trivial
  · exact Yields.pure trivial

theorem jxArrayPush_yields (arr v : Option JxValue) :
    Yields (jxArrayPush arr v) (fun _ _ => True) ok0 := by
  unfold jxArrayPush
  split
  · refine Yields.step yields_alloc fun b ok _ _ => ?_
    split <;> exact Yields.pure trivial
  · exact Yields.pure trivial

theorem toolEntries_yields : ∀ (ts : List (Utf8 × Utf8 × Utf8)) (arr : Option JxValue) (ok0 : Bool),
    Yields (toolEntries H ts arr) (fun _ _ => True) ok0
  | [], _, _ => Yields.pure trivial
  | t :: ts, arr, ok0 => by
    refine Yields.step (toolEntry_yields t) fun o ok _ _ => ?_
    cases o with
    | none => exact Yields.pure trivial
    | some o =>
      refine Yields.step (jxArrayPush_yields _ _) fun r ok _ _ => ?_
      split
      · exact Yields.pure trivial
      · exact toolEntries_yields ts r.1 ok

/-- An object that took a member is there. -/
theorem jxObjectSet_yields (o : Option JxValue) (key : Utf8) (v : Option JxValue) :
    Yields (jxObjectSet o key v) (fun r _ => r.2 = true → ∃ ms, r.1 = some (.object ms)) ok0 := by
  unfold jxObjectSet
  split
  · refine Yields.step yields_alloc fun b ok _ _ => ?_
    split
    · exact Yields.pure fun _ => ⟨_, rfl⟩
    · exact Yields.pure nofun
  · exact Yields.pure nofun

theorem toolsArray_yields (arr : Option JxValue) :
    Yields (toolsArray H arr) (fun _ _ => True) ok0 := by
  unfold toolsArray
  split
  · exact toolEntries_yields _ _ _
  · exact Yields.pure trivial

theorem handleToolsList_replies (want modern : Bool) :
    Says (handleToolsList H want id modern) (Replies H g want id) ok0 := by
  refine Says.step (jxArray_makes g) fun arr ok _ _ => ?_
  refine Says.step (toolsArray_yields arr) fun r ok1 _ _ => ?_
  split
  · exact outOfMemory_replies want
  · refine Says.step (jxObject_makes g) fun res ok2 _ _ => ?_
    refine Says.step (jxObjectSet_yields _ _ _) fun s ok3 _ hs => ?_
    split
    · exact outOfMemory_replies want
    · next h =>
      obtain ⟨ms, hms⟩ := hs (by simpa using h)
      rw [hms]
      exact sendResult_replies want modern
        ⟨fun v hv => ⟨ms, (Option.some.inj hv).symm, trivial⟩, fun _ _ => nofun⟩

theorem orEmpty_makes (m : Option JxValue) :
    Yields (orEmpty m) (Makes False fun _ => True) ok0 := by
  unfold orEmpty
  split
  · exact (jxString_makes False [] nofun).mono fun _ _ h => h.imp (fun h => h) (fun h => h)
      fun _ _ => trivial
  · exact Yields.pure ⟨fun _ _ => trivial, nofun⟩

theorem asperErrorPayload_yields (e : Err) (lastError : Bytes) :
    Yields (asperErrorPayload e lastError) (fun _ _ => True) ok0 := by
  refine Yields.step (jxObject_makes False) fun o ok _ ho => ?_
  refine Yields.step (setField_object (s := (o, o.isSome)) (by
    simpa using ho.built_isSome (f := true) nofun) (jxString_makes False _ nofun))
    fun o ok1 _ ho => ?_
  refine Yields.step (jxString_makes False lastError nofun) fun m ok2 h2 hm => ?_
  refine Yields.step (orEmpty_makes m) fun m ok3 h3 hm => ?_
  refine Yields.step (setField_object (ho.1.imp (fun h => h2 (h3 h)) fun _ h => h)
    (pure_makes hm)) fun o ok4 _ ho => ?_
  exact (built_or_none ho.1).mono fun _ _ _ => trivial

theorem sendOutcome_replies (want modern : Bool) (r : ToolOutcome) :
    Says (sendOutcome H want id modern r) (Replies H g want id) ok0 := by
  cases r with
  | ok payload => exact sendToolResult_replies want false modern payload
  | asper e lastError =>
    refine Says.step (asperErrorPayload_yields e lastError) fun ep ok _ _ => ?_
    cases ep with
    | none => exact sendError_replies want _ (some e) fun _ => literal_valid (by decide)
    | some ep => exact sendToolResult_replies want true modern ep
  | param message =>
    cases message with
    | none => exact sendLiteral_replies want _ (by decide)
    | some m =>
      refine sendError_replies want _ none fun _ => ?_
      rw [cstr_self m.2.2]
      exact m.2.1
  | oom => exact outOfMemory_replies want

/-! ## Requests -/

theorem unknownTool_noNul {name : Bytes} (h : 0 ∉ name) : 0 ∉ unknownTool name := by
  intro h0
  rcases List.mem_append.1 h0 with h1 | h1
  · exact absurd h1 (by decide)
  · exact h (List.mem_of_mem_take h1)

theorem argStr_noNul {v : Option JxValue} {key s : Utf8} (h : argStr v key = .ok (some s)) :
    0 ∉ s.val := by
  unfold argStr at h
  split at h
  · cases h
  · split at h
    · cases h
    · next h0 =>
      cases h
      exact h0
  · cases h

theorem argStr_literal {v : Option JxValue} {key : Utf8} {m : Bytes}
    (h : argStr v key = .error (some m)) : m = ascii "string must not contain NUL" := by
  unfold argStr at h
  split at h
  · cases h
  · split at h
    · cases h
      rfl
    · cases h
  · cases h

/-- The name of a tool that does not exist, cut inside a character. -/
def CutName (H : Host) (name : Utf8) : Prop :=
  (H.tools.any fun t => t.1 = name) = false ∧ utf8Valid (unknownTool name.val) = false

theorem dispatchTool_replies (want modern : Bool) {name : Utf8} (h0 : 0 ∉ name.val)
    (hg : g → ¬ CutName H name) (r : ToolOutcome) :
    Says (if (H.tools.any fun t => t.1 = name) = true then sendOutcome H want id modern r
      else sendError H want id (-32602) (unknownTool name.val) none) (Replies H g want id) ok0 := by
  split
  · exact sendOutcome_replies want modern r
  · next h =>
    refine sendError_replies want _ none fun hg' => ?_
    rw [cstr_self (unknownTool_noNul h0)]
    by_contra hbad
    exact hg hg' ⟨eq_false_of_ne_true h, eq_false_of_ne_true hbad⟩

theorem handleToolsCall_replies (call : ToolCall) (want modern : Bool) (params : Option JxValue)
    (hg : g → ∀ name, argStr params (utf8 "name") = .ok (some name) → ¬ CutName H name) :
    Says (handleToolsCall H call want id params modern) (Replies H g want id) ok0 := by
  unfold handleToolsCall
  split
  · split
    · next h =>
      refine sendError_replies want _ none fun _ => ?_
      rw [argStr_literal h]
      exact literal_valid (by decide)
    · next name h =>
      have h0 := argStr_noNul h
      split
      · exact dispatchTool_replies want modern h0 (fun h' => hg h' name h) _
      · exact dispatchTool_replies want modern h0 (fun h' => hg h' name h) _
      · exact sendLiteral_replies want _ (by decide)
    · exact sendLiteral_replies want _ (by decide)
  · exact sendLiteral_replies want _ (by decide)

/-- The request calls a tool that does not exist, whose name is cut inside a character. -/
def CutsName (H : Host) (req : Option JxValue) : Prop :=
  ∃ method name, methodOf req = some method ∧ method.val = ascii "tools/call" ∧
    argStr (jxGet req (utf8 "params" (.refl true))) (utf8 "name" (.refl true)) = .ok (some name) ∧ CutName H name

theorem handleMethod_replies (call : ToolCall) {req : Option JxValue} {method : Utf8} (want : Bool)
    (hm : methodOf req = some method) :
    Says (handleMethod H call req method want id) (Replies H (¬ CutsName H req) want id) ok0 := by
  unfold handleMethod
  dsimp only
  split
  · exact sendLiteral_replies want _ (by decide)
  split
  · exact handleInitialize_replies want _
  split
  · exact handleDiscover_replies want
  split
  · exact handlePing_replies want _
  split
  · exact handleToolsList_replies want _
  split
  · next hcall =>
    exact handleToolsCall_replies call want _ _ fun hg name hname hcut =>
      hg ⟨method, name, hm, hcall, hname, hcut⟩
  · exact sendLiteral_replies want _ (by decide)

/-- Where an allocation failed before, the id may be null. -/
theorem Says.lostId {m : Mcp Unit} {want : Bool} (h : Says m (Replies H g want none) false) :
    Says m (Replies H g want id) false := by
  refine Gives.mono h fun _ ls ok hr => ?_
  cases want with
  | false => exact hr
  | true =>
    obtain ⟨l, hl, hn, he, -⟩ := hr
    exact ⟨l, hl, hn, .inr (he.elim .inl fun h => h), fun h => absurd h (by simp)⟩

/-- The id of a request, cloned for the response to `k`. -/
theorem clone_replies {idv : Option JxValue} {k : Option JxValue → Mcp Unit}
    (hk : ∀ ok, Says (k idv) (Replies H g idv.isSome idv) ok)
    (hnone : Says (k none) (Replies H g idv.isSome none) false) :
    Says (jxClone idv >>= k) (Replies H g idv.isSome idv) ok0 := by
  cases idv with
  | none =>
    exact Says.step (Yields.pure rfl : Yields (pure none) (fun o _ => o = none) ok0)
      fun o ok _ ho => ho ▸ hk ok
  | some v =>
    refine Says.step (jxClone_makes True v) fun o ok _ ho => ?_
    cases o with
    | some w =>
      obtain rfl := ho.val w rfl
      exact hk ok
    | none =>
      cases ok with
      | true => exact absurd rfl (ho.good rfl trivial)
      | false => exact hnone.lostId

theorem handleNamed_replies (call : ToolCall) {req : Option JxValue} {method : Utf8}
    (hm : methodOf req = some method) :
    Says (handleNamed H call req method) (Replies H (¬ CutsName H req)
      (jxGet req (utf8 "id")).isSome (jxGet req (utf8 "id"))) ok0 := by
  unfold handleNamed
  dsimp only
  split
  · next h => exact says_nothing (by simp [Option.isNone_iff_eq_none.1 h.1])
  · refine clone_replies (fun ok => ?_) ?_
    · rw [if_neg (by cases jxGet req (utf8 "id") <;> simp)]
      exact handleMethod_replies call _ hm
    · split
      · next h =>
        rw [h.1]
        exact sendLiteral_replies true _ (by decide)
      · exact handleMethod_replies call _ hm

/-- The id that the response to a request echoes: a text or an integer. -/
def echoId : Option JxValue → Option JxValue
  | some (.object ms) =>
    if idAllowed (lookup ms (utf8 "id" (.refl true))) = true then lookup ms (utf8 "id" (.refl true)) else none
  | _ => none

/-- Only an object without an id wants no response. -/
def wantsResponse : Option JxValue → Bool
  | some (.object ms) => (lookup ms (utf8 "id" (.refl true))).isSome
  | _ => true

theorem handleRequest_replies (call : ToolCall) (req : JxValue) :
    Says (handleRequest H call req) (Replies H (¬ CutsName H (some req))
      (wantsResponse (some req)) (echoId (some req))) ok0 := by
  cases req with
  | object ms =>
    unfold handleRequest
    dsimp only [wantsResponse, echoId]
    split
    · next h =>
      have hsome : (lookup ms (utf8 "id")).isSome = true := by
        cases hid : lookup ms (utf8 "id") with
        | none => simp [jxGet, hid, idAllowed] at h
        | some v => rfl
      rw [hsome, if_neg (by simpa [jxGet] using h)]
      exact sendLiteral_replies true _ (by decide)
    · next h =>
      rw [if_pos (by simpa [jxGet] using h)]
      split
      · exact clone_replies (fun ok => sendLiteral_replies _ _ (by decide))
          (sendLiteral_replies _ _ (by decide))
      · next method hm => exact handleNamed_replies call hm
  | array _ => exact sendLiteral_replies true _ (by decide)
  | null | bool _ | int _ | double _ | string _ => exact sendLiteral_replies true _ (by decide)

/-- What a line gets. -/
def LineReplies (H : Host) (s : Bytes) (ls : List Bytes) (ok : Bool) : Prop :=
  if lineBlank (stripCr s) = true then ls = []
  else Replies H (¬ CutsName H (H.parse (stripCr s))) (wantsResponse (H.parse (stripCr s)))
    (echoId (H.parse (stripCr s))) ls ok

theorem handleLine_replies (call : ToolCall) (s : Bytes) :
    Says (handleLine H call s) (LineReplies H s) ok0 := by
  unfold handleLine LineReplies
  split
  · exact Gives.pure rfl
  · split
    · next h =>
      rw [h]
      exact sendLiteral_replies true _ (by decide)
    · next req h =>
      rw [h]
      exact handleRequest_replies call req

theorem serve_eq_forM (lines : List (Bytes × ToolCall)) :
    serve H lines = lines.forM fun l => handleLine H l.2 l.1 := by
  induction lines with
  | nil => rfl
  | cons l lines ih =>
    unfold serve
    rw [ih]
    rfl

end

/-! ## A blank line and a lost id -/

def pingLine : Bytes := ascii "\x7b\"jsonrpc\":\"2.0\",\"id\":7,\"method\":\"ping\"\x7d"

def pingMembers : List (Utf8 × JxValue) :=
  [(utf8 "jsonrpc" (.refl true), .string (utf8 "2.0" (.refl true))), (utf8 "id" (.refl true), .int 7),
    (utf8 "method" (.refl true), .string (utf8 "ping" (.refl true)))]

/-- Writes the response about memory as it is. -/
def sampleWrite : JxValue → Bytes
  | .object ms =>
    match lookup ms (utf8 "id" (.refl true)) with
    | some .null => oomResponse
    | _ => ascii "\x7b\x7d"
  | _ => ascii "null"

theorem sampleWrite_plain (v : JxValue) : ∀ b ∈ sampleWrite v, 32 ≤ b ∧ b < 0x80 := by
  unfold sampleWrite
  split
  · split <;> decide
  · decide

def sampleHost : Host where
  parse s := if s = pingLine then some (.object pingMembers) else none
  write := sampleWrite
  write_plain v b hb := (sampleWrite_plain v b hb).1
  write_utf8 v := utf8Valid_ascii fun b hb => (sampleWrite_plain v b hb).2
  tools := []
  version := ⟨(utf8 "1.0.0").val, (utf8 "1.0.0").2, by decide⟩

/-- The response of a server that lost the id, without any more allocation failing. -/
theorem sendError_noId (H : Host) (code : Int) {message : Bytes}
    (h : message.all (fun b => 1 ≤ b ∧ b < 0x80) = true) :
    ∃ l, (sendError H true none code message none ⟨[], []⟩).2.out = [l] ∧ Echoes H none l := by
  obtain ⟨used, bs, ha, ho, l, hl, -, -, he⟩ :=
    (sendLiteral_replies true code h : Says _ (Replies H True true none) true) ⟨[], []⟩
  obtain ⟨rfl, -⟩ := List.nil_eq_append_iff.1 ha
  exact ⟨l, by rw [ho, hl]; rfl, he rfl trivial⟩

def noCall : ToolCall := fun _ _ => .oom

theorem sampleHost_parse (s : Bytes) :
    sampleHost.parse s = if s = pingLine then some (.object pingMembers) else none := rfl

theorem clone_noMemory (v : JxValue) (k : Option JxValue → Mcp Unit) :
    (jxClone (some v) >>= k) ⟨[false], []⟩ = k none ⟨[], []⟩ := rfl

theorem handleNamed_noMemory {H : Host} (call : ToolCall) {req : Option JxValue} (method : Utf8)
    {v : JxValue} (hid : jxGet req (utf8 "id") = some v) :
    handleNamed H call req method ⟨[false], []⟩ =
      sendError H true none (-32603) outOfMemory none ⟨[], []⟩ := by
  simp only [handleNamed, hid, Option.isNone_some, Option.isSome_some, Bool.false_eq_true,
    false_and, if_false, true_and, clone_noMemory, Option.isNone_none, if_true]

theorem pingLine_named :
    handleLine sampleHost noCall pingLine =
      handleNamed sampleHost noCall (some (.object pingMembers)) (utf8 "ping") := by
  have hparse : sampleHost.parse (stripCr pingLine) = some (.object pingMembers) := by
    rw [sampleHost_parse, if_pos (by decide)]
  have hmethod : methodOf (some (.object pingMembers)) = some (utf8 "ping") := by decide
  unfold handleLine
  rw [if_neg (by decide), hparse]
  dsimp only [handleRequest]
  rw [if_neg (by decide), hmethod]

theorem serve_one (H : Host) (l : Bytes × ToolCall) (p : Proc Bytes) :
    serve H [l] p = handleLine H l.2 l.1 p := rfl

theorem sampleWrite_noId {l : Bytes} (h : Echoes sampleHost none l) : l = oomResponse := by
  obtain ⟨ms, rfl, hid⟩ := h
  change sampleWrite (.object ms) = _
  unfold sampleWrite
  simp only [hid, Option.getD_none]

theorem sampleWrite_id {l : Bytes} {i : Int} (h : Echoes sampleHost (some (.int i)) l) :
    l = ascii "\x7b\x7d" := by
  obtain ⟨ms, rfl, hid⟩ := h
  change sampleWrite (.object ms) = _
  unfold sampleWrite
  simp only [hid, Option.getD_some]

end Asper
