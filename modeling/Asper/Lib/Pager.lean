import Asper.Lib.Act
import Asper.Lib.Runs

/-! # Reading a list page by page

A call takes a cursor and gives a page and the next cursor.

* `IsPage xs m limit after page next`: a page of the items of `xs` that `m` selects.
* `Reading.Step call ok`: one call of a reader, which goes on from the cursor it was given last.
* `PageCall`: what one call does. `PageCall.paginates`: then a reader gets every selected item, once
  and in order, whatever it asks for (`Paginates`). -/

namespace Durable

variable {α β ι ε : Type}

/-- The items after the cursor `after` that `m` selects, up to the cursor `next`: the page is full or
the list is at its end. -/
structure IsPage (xs : List α) (m : α → Bool) (limit after : Nat) (page : List α) (next : Nat) :
    Prop where
  le : after ≤ next
  within : next ≤ max after xs.length
  items : page = ((xs.drop after).take (next - after)).filter m
  fits : page.length ≤ limit
  stop : page.length = limit ∨ xs.length ≤ next

section
variable {xs : List α} {m : α → Bool} {limit after next : Nat} {page : List α}

theorem IsPage.extend (h : IsPage xs m limit after page next) :
    (xs.take after).filter m ++ page = (xs.take next).filter m := by
  rw [h.items, ← List.filter_append, ← List.take_add, Nat.add_sub_cancel' h.le]

/-- An empty page is the last. -/
theorem IsPage.last (h : IsPage xs m limit after [] next) (hl : 0 < limit) : xs.take next = xs :=
  List.take_of_length_le (h.stop.resolve_left (Nat.ne_of_lt hl))

theorem IsPage.advances (h : IsPage xs m limit after page next) (hl : 0 < limit)
    (hx : ∃ x ∈ xs.drop after, m x = true) : after < next := by
  refine Nat.lt_of_le_of_ne h.le fun he => ?_
  have hp : page = [] := by rw [h.items, ← he, Nat.sub_self, List.take_zero, List.filter_nil]
  obtain ⟨x, hx, -⟩ := hx
  rw [hp] at h
  have hend := h.stop.resolve_left (Nat.ne_of_lt hl)
  rw [← he] at hend
  rw [List.drop_of_length_le hend] at hx
  cases hx

/-- Nothing is left to read. -/
theorem IsPage.nil (h : xs.length ≤ after) : IsPage xs m limit after [] after :=
  ⟨Nat.le_refl _, Nat.le_max_left .., by simp, Nat.zero_le _, .inr h⟩

/-- Nothing is asked for. -/
theorem IsPage.full : IsPage xs m 0 after [] after :=
  ⟨Nat.le_refl _, Nat.le_max_left .., by simp, Nat.zero_le _, .inl rfl⟩

/-- A page of images is the image of a page. -/
theorem IsPage.unmap {γ : Type} {xs : List γ} {g : γ → α}
    (h : IsPage (xs.map g) m limit after page next) :
    ∃ items, page = items.map g ∧ IsPage xs (m ∘ g) limit after items next := by
  have hp : page = (((xs.drop after).take (next - after)).filter (m ∘ g)).map g := by
    rw [h.items, ← List.map_drop, ← List.map_take, List.filter_map]
  refine ⟨_, hp, h.le, ?_, rfl, ?_, ?_⟩
  · have := h.within
    rwa [List.length_map] at this
  · have := h.fits
    rwa [hp, List.length_map] at this
  · have := h.stop
    rwa [hp, List.length_map, List.length_map] at this

/-- What `m'` keeps of a page, and the page of it that comes after. -/
theorem IsPage.append {m' : α → Bool} {next' : Nat} {rest : List α}
    (h : IsPage xs m limit after page next) (hm : ∀ x ∈ xs, m' x = true → m x = true)
    (h' : IsPage xs m' (limit - (page.filter m').length) next rest next') :
    IsPage xs m' limit after (page.filter m' ++ rest) next' where
  le := Nat.le_trans h.le h'.le
  within := by
    have h1 := h.within
    have h2 := h'.within
    omega
  items := by
    have hkeep : page.filter m' = ((xs.drop after).take (next - after)).filter m' := by
      rw [h.items, List.filter_filter]
      refine List.filter_congr fun x hmem => ?_
      cases hx : m' x
      · rfl
      · rw [hm x (List.mem_of_mem_drop (List.mem_of_mem_take hmem)) hx]
        rfl
    have hrange : next' - after = (next - after) + (next' - next) := by
      have h1 := h.le
      have h2 := h'.le
      omega
    rw [hkeep, h'.items, hrange, List.take_add, List.filter_append, List.drop_drop,
      Nat.add_sub_cancel' h.le]
  fits := by
    have h1 := List.length_filter_le m' page
    have h2 := h.fits
    have h3 := h'.fits
    rw [List.length_append]
    omega
  stop := by
    have h1 := List.length_filter_le m' page
    have h2 := h.fits
    refine h'.stop.imp_left fun hs => ?_
    rw [List.length_append, hs]
    omega

end

/-! ## Readers -/

/-- A reader: where it goes on, and what it got. -/
structure Reading (β : Type) where
  disk : Disk
  cursor : Nat
  got : List β

/-- Whatever a call gives the reader. -/
def paged (r : Except ε (List β)) : List β :=
  match r with
  | .ok page => page
  | .error _ => []

inductive Reading.Step (call : Nat → ι → Act ε (Nat × Except ε (List β))) (ok : Nat → ι → Prop)
    (σ : Reading β) : ι → Reading β → Prop where
  | call {i : ι} {ws : List Write} {next : Nat} {r : Except ε (List β)} (hi : ok σ.cursor i)
      (h : call σ.cursor i σ.disk = ⟨ws, .ok (next, r)⟩) :
      Step call ok σ i ⟨applyAll ws σ.disk, next, σ.got ++ paged r⟩

/-- What one call does on a disk of `I`: it gives a page, or fails and leaves the cursor. -/
structure PageCall (call : Nat → ι → Act ε (Nat × Except ε (List β))) (ok : Nat → ι → Prop)
    (I : Disk → Prop) (xs : List α) (m : α → Bool) (f : α → β) : Prop where
  run : ∀ {d c i}, I d → ok c i → ∃ ws next r, call c i d = ⟨ws, .ok (next, r)⟩ ∧
    I (applyAll ws d) ∧ ((∃ e, r = .error e ∧ next = c) ∨
      ∃ page limit, 0 < limit ∧ r = .ok (page.map f) ∧ IsPage xs m limit c page next)

/-- A reader that starts at the beginning of `xs` on a disk of `I` gets the items that `m` selects,
each once and in order: it has those before its cursor, and when a page is empty it has all. A call
never moves the cursor back, moves it on while items are left, and leaves it when it fails. -/
structure Paginates (call : Nat → ι → Act ε (Nat × Except ε (List β))) (ok : Nat → ι → Prop)
    (I : Disk → Prop) (xs : List α) (m : α → Bool) (f : α → β) : Prop where
  got : ∀ {d is σ}, I d → Runs (Reading.Step call ok) ⟨d, 0, []⟩ is σ →
    σ.got = ((xs.take σ.cursor).filter m).map f
  next : ∀ {d is σ i}, I d → Runs (Reading.Step call ok) ⟨d, 0, []⟩ is σ → ok σ.cursor i →
    ∃ ws next r, call σ.cursor i σ.disk = ⟨ws, .ok (next, r)⟩ ∧ σ.cursor ≤ next ∧
      (∀ e, r = .error e → next = σ.cursor) ∧ (r = .ok [] → σ.got = (xs.filter m).map f) ∧
      ∀ page, r = .ok page → (∃ x ∈ xs.drop σ.cursor, m x = true) → σ.cursor < next

section
variable {call : Nat → ι → Act ε (Nat × Except ε (List β))} {ok : Nat → ι → Prop}
  {I : Disk → Prop} {xs : List α} {m : α → Bool} {f : α → β}

theorem PageCall.inv (h : PageCall call ok I xs m f) {d : Disk} {is : List ι} {σ : Reading β}
    (hd : I d) (hr : Runs (Reading.Step call ok) ⟨d, 0, []⟩ is σ) :
    I σ.disk ∧ σ.got = ((xs.take σ.cursor).filter m).map f := by
  refine hr.inv (I := fun _ σ => I σ.disk ∧ σ.got = ((xs.take σ.cursor).filter m).map f)
    ⟨hd, rfl⟩ fun _ σ i σ' ⟨hi, hg⟩ hs => ?_
  obtain ⟨hok, hrun⟩ := hs
  obtain ⟨ws, next, r, hrun', hi', hout⟩ := h.run hi hok
  rw [hrun] at hrun'
  cases hrun'
  refine ⟨hi', ?_⟩
  rcases hout with ⟨e, rfl, rfl⟩ | ⟨page, limit, -, rfl, hp⟩
  · exact (List.append_nil _).trans hg
  · show σ.got ++ page.map f = _
    rw [hg, ← hp.extend, List.map_append]

/-- **One call decides**: a reader gets everything. -/
theorem PageCall.paginates (h : PageCall call ok I xs m f) : Paginates call ok I xs m f where
  got hd hr := (h.inv hd hr).2
  next hd hr hi := by
    obtain ⟨hI, hg⟩ := h.inv hd hr
    obtain ⟨ws, next, r, hrun, -, hout⟩ := h.run hI hi
    refine ⟨ws, next, r, hrun, ?_⟩
    rcases hout with ⟨e, rfl, rfl⟩ | ⟨page, limit, hl, rfl, hp⟩
    · exact ⟨Nat.le_refl _, fun _ _ => rfl, nofun, nofun⟩
    · refine ⟨hp.le, nofun, fun hn => ?_, fun _ _ hx => hp.advances hl hx⟩
      obtain rfl := List.map_eq_nil_iff.1 (Except.ok.inj hn)
      have hall := hp.extend
      rw [List.append_nil, hp.last hl] at hall
      rw [hg, hall]

end

end Durable
