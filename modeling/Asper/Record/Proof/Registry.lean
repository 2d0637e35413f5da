import Asper.Record.Registry

/-! # The registry stays sorted

`Registry.Shows g p` says that the array `g` holds the projects `p` in order. Every call keeps it
(`RegistryCall.step_registered`), so the search finds what was added (`registry_exact`). -/

namespace Asper

open Durable (Bytes)

/-! ## `strcmp` is the order of the slugs -/

theorem strcmp_lt {s t : Bytes} : strcmp s t = .lt ↔ s < t := by
  induction s generalizing t with
  | nil => cases t <;> simp [strcmp]
  | cons a s ih =>
    cases t with
    | nil => simp [strcmp]
    | cons b t =>
      rw [strcmp, List.cons_lt_cons_iff, ← ih]
      by_cases hab : a < b
      · simp [hab]
      · by_cases hba : b < a
        · have hne : a ≠ b := by
            rintro rfl
            exact hab hba
          simp [hab, hba, hne]
        · have heq : a = b := UInt8.le_antisymm (UInt8.not_lt.1 hba) (UInt8.not_lt.1 hab)
          simp [heq]

theorem strcmp_eq {s t : Bytes} : strcmp s t = .eq ↔ s = t := by
  induction s generalizing t with
  | nil => cases t <;> simp [strcmp]
  | cons a s ih =>
    cases t with
    | nil => simp [strcmp]
    | cons b t =>
      rw [strcmp, List.cons.injEq, ← ih]
      by_cases hab : a < b
      · have hne : a ≠ b := by
          rintro rfl
          exact UInt8.lt_irrefl _ hab
        simp [hab, hne]
      · by_cases hba : b < a
        · have hne : a ≠ b := by
            rintro rfl
            exact hab hba
          simp [hab, hba, hne]
        · have heq : a = b := UInt8.le_antisymm (UInt8.not_lt.1 hba) (UInt8.not_lt.1 hab)
          simp [heq]

theorem strcmp_slugOrder (s slug : Bytes) : strcmp s slug = slugOrder slug s := by
  cases h : strcmp s slug with
  | lt => exact (slugOrder_lt.2 (strcmp_lt.1 h)).symm
  | eq => exact (slugOrder_eq.2 (strcmp_eq.1 h)).symm
  | gt =>
    cases h' : slugOrder slug s with
    | gt => rfl
    | eq => rw [strcmp_eq.2 (slugOrder_eq.1 h')] at h; cases h
    | lt => rw [strcmp_lt.2 (slugOrder_lt.1 h')] at h; cases h

/-! ## One call -/

namespace Registry

/-- The array holds the projects. -/
structure Shows (g : Registry) (p : Projects) : Prop where
  cells : ∃ spare, g.cells = p.slugs.map some ++ spare
  n : g.n = p.slugs.length

variable {g : Registry} {p : Projects}

theorem empty_shows : empty.Shows Projects.empty := ⟨⟨[], rfl⟩, rfl⟩

theorem Shows.cell (h : g.Shows p) {i : Nat} (hi : i < p.slugs.length) :
    g.cells[i]? = some (p.slugs[i]?) := by
  obtain ⟨⟨spare, hcells⟩, -⟩ := h
  rw [hcells, List.getElem?_append_left (by simpa using hi), List.getElem?_map,
    List.getElem?_eq_getElem hi]
  rfl

/-- The loop stays among the slugs. -/
theorem Shows.indexFrom (h : g.Shows p) (slug : Bytes) {fuel lo hi : Nat}
    (hhi : hi ≤ p.slugs.length) (hfuel : hi - lo ≤ fuel) :
    g.indexFrom slug (fuel + 1) lo hi =
      some (Search.locateAux (slugOrder slug) p.slugs fuel lo hi) := by
  induction fuel generalizing lo hi with
  | zero =>
    rw [Registry.indexFrom, if_neg (by omega)]
    rfl
  | succ fuel ih =>
    rw [Registry.indexFrom, Search.locateAux]
    by_cases hlt : lo < hi
    · have hmid : lo + (hi - lo) / 2 < p.slugs.length := by omega
      have hcell := h.cell hmid
      obtain ⟨x, hx⟩ : ∃ x, p.slugs[lo + (hi - lo) / 2]? = some x :=
        ⟨_, List.getElem?_eq_getElem hmid⟩
      rw [hx] at hcell
      simp only [if_pos hlt, hcell, hx, Option.bind_eq_bind, Option.bind_some, strcmp_slugOrder]
      cases slugOrder slug x with
      | eq => rfl
      | lt => exact ih hhi (by omega)
      | gt => exact ih (by omega) (by omega)
    · rw [if_neg hlt, if_neg hlt]

theorem Shows.index (h : g.Shows p) (slug : Bytes) : g.index slug = some (p.index slug) := by
  rw [Registry.index, h.n]
  exact h.indexFrom slug le_rfl (Nat.sub_le _ 0)

theorem Shows.grown (h : g.Shows p) : g.grown.Shows p := by
  obtain ⟨⟨spare, hcells⟩, hn⟩ := h
  refine ⟨⟨spare ++ List.replicate (if g.cells.length = 0 then 8 else g.cells.length) none, ?_⟩, hn⟩
  rw [Registry.grown, hcells, List.append_assoc]

theorem grown_room (g : Registry) : g.cells.length < g.grown.cells.length := by
  rw [Registry.grown, List.length_append, List.length_replicate]
  split <;> omega

theorem index_le {slug : Bytes} (hk : (p.index slug).2 = false) :
    (p.index slug).1 ≤ p.slugs.length :=
  ((Search.locate_spec (p.ordered slug)).2 hk).1

/-- The slug moves in at its place. -/
theorem Shows.insertAt (h : g.Shows p) {slug : Bytes} (hv : slugValid slug = true)
    (hk : (p.index slug).2 = false) (hroom : g.n < g.cells.length) :
    ∃ g', g.insertAt (p.index slug).1 slug = some g' ∧ g'.Shows (p.insert slug hv hk) := by
  obtain ⟨⟨spare, hcells⟩, hn⟩ := h
  have hle := index_le hk
  have htake : g.cells.take (p.index slug).1 = (p.slugs.take (p.index slug).1).map some := by
    rw [hcells, List.take_append_of_le_length (by simpa using hle), List.map_take]
  have hdrop : (g.cells.drop (p.index slug).1).take (g.n - (p.index slug).1) =
      (p.slugs.drop (p.index slug).1).map some := by
    rw [hcells, List.drop_append_of_le_length (by simpa using hle),
      List.take_left' (by simp [hn]), List.map_drop]
  refine ⟨_, if_pos ⟨by rwa [hn], hroom⟩, ⟨g.cells.drop (g.n + 1), ?_⟩, ?_⟩
  · rw [htake, hdrop]
    simp [Projects.insert]
  · rw [hn]
    simp only [Projects.insert, List.length_append, List.length_cons, List.length_take,
      List.length_drop]
    omega

/-- What a call comes to: it adds the slug or leaves the projects as they are. -/
structure Outcome (p : Projects) (slug : Option Bytes) (g' : Registry) (r : Except Err Unit)
    (p' : Projects) : Prop where
  shows' : g'.Shows p'
  ok : r = .ok () → ∃ s, slug = some s ∧ ∀ x, x ∈ p'.slugs ↔ x ∈ p.slugs ∨ x = s
  failed : r ≠ .ok () → p' = p

theorem Shows.addCopy (h : g.Shows p) {slug : Bytes} (a : SlugAlloc) (hv : slugValid slug = true)
    (hk : (p.index slug).2 = false) (hroom : g.n < g.cells.length) :
    ∃ g' r p', g.addCopy (p.index slug).1 slug a = some (g', r) ∧ Outcome p (some slug) g' r p' := by
  rw [Registry.addCopy]
  split
  · obtain ⟨g', hg', hs⟩ := h.insertAt hv hk hroom
    refine ⟨g', .ok (), _, by rw [hg']; rfl, hs, fun _ => ⟨slug, rfl, fun x => ?_⟩, ?_⟩
    · rw [Projects.insert, List.mem_append, List.mem_cons]
      conv_rhs => rw [← List.take_append_drop (p.index slug).1 p.slugs, List.mem_append]
      tauto
    · exact fun hne => absurd rfl hne
  · exact ⟨g, .error .nomem, p, rfl, h, nofun, fun _ => rfl⟩

/-- **Adding a slug** stays inside the array, whatever is in the way of it. -/
theorem Shows.add (h : g.Shows p) (slug : Option Bytes) (a : SlugAlloc) :
    ∃ g' r p', g.add a slug = some (g', r) ∧ Outcome p slug g' r p' := by
  cases slug with
  | none => exact ⟨g, .error .invalid, p, rfl, h, nofun, fun _ => rfl⟩
  | some slug =>
    rw [Registry.add]
    by_cases hv : slugValid slug = true
    · rw [if_pos hv, h.index slug]
      simp only [Option.bind_eq_bind, Option.bind_some]
      by_cases hk : (p.index slug).2 = true
      · rw [if_pos hk]
        have hin : slug ∈ p.slugs := Projects.known_iff.1 hk
        refine ⟨g, .ok (), p, rfl, h, fun _ => ⟨slug, rfl, fun x => ?_⟩, fun _ => rfl⟩
        exact ⟨.inl, fun hx => hx.elim id fun he => he ▸ hin⟩
      rw [if_neg hk]
      replace hk : (p.index slug).2 = false := Bool.eq_false_iff.2 hk
      by_cases hlimit : projectLimit ≤ g.n
      · rw [if_pos hlimit]
        exact ⟨g, .error .limit, p, rfl, h, nofun, fun _ => rfl⟩
      rw [if_neg hlimit]
      by_cases hfull : g.n = g.cells.length
      · rw [if_pos hfull]
        split
        · exact h.grown.addCopy a hv hk (by
            have := grown_room g
            show g.n < _
            omega)
        · exact ⟨g, .error .nomem, p, rfl, h, nofun, fun _ => rfl⟩
      · rw [if_neg hfull]
        refine h.addCopy a hv hk (lt_of_le_of_ne ?_ hfull)
        obtain ⟨⟨spare, hcells⟩, hn⟩ := h
        rw [hn, hcells]
        simp
    · rw [if_neg hv]
      exact ⟨g, .error .invalid, p, rfl, h, nofun, fun _ => rfl⟩

/-- What a call registers is what is added to the projects. -/
structure Registers (p : Projects) (t : Registering) (p' : Projects) : Prop where
  shows' : t.registry.Shows p'
  mem : ∀ x, x ∈ p'.slugs ↔ x ∈ p.slugs ∨ x ∈ t.added

theorem Shows.idle (h : g.Shows p) (r : Except Err Unit) : Registers p ⟨g, [], r⟩ p :=
  ⟨h, by simp⟩

theorem Shows.addLogged (h : g.Shows p) (slug : Option Bytes) (a : SlugAlloc) :
    ∃ t p', g.addLogged a slug = some t ∧ Registers p t p' := by
  obtain ⟨g', r, p', hadd, ho⟩ := h.add slug a
  refine ⟨_, p', by rw [Registry.addLogged, hadd]; rfl, ho.shows', fun x => ?_⟩
  by_cases hr : r = .ok ()
  · obtain ⟨s, rfl, hmem⟩ := ho.ok hr
    simp [hr, hmem]
  · simp [hr, ho.failed hr]

/-- **A load** adds the slugs of its files up to the first one that fails. -/
theorem Shows.loadFrom (h : g.Shows p) (fs : List ProjectFile) :
    ∃ t p', g.loadFrom fs = some t ∧ Registers p t p' := by
  induction fs generalizing g p with
  | nil => exact ⟨_, p, rfl, h.idle _⟩
  | cons f fs ih =>
    rw [Registry.loadFrom]
    split_ifs
    · exact ih h
    · exact ⟨_, p, rfl, h.idle _⟩
    · exact ih h
    · exact ⟨_, p, rfl, h.idle _⟩
    · split
      · exact ⟨_, p, rfl, h.idle _⟩
      · obtain ⟨t, p', ht, hreg⟩ :=
          h.addLogged (some (f.name.take (f.name.length - 5))) f.alloc
        rw [ht, Option.bind_some]
        split
        · exact ⟨t, p', rfl, hreg⟩
        · obtain ⟨u, p'', hu, hreg'⟩ := ih hreg.shows'
          refine ⟨{ u with added := t.added ++ u.added }, p'', by rw [hu]; rfl, hreg'.shows',
            fun x => ?_⟩
          rw [hreg'.mem, hreg.mem, List.mem_append, or_assoc]

end Registry

/-! ## Runs -/

/-- The array holds in order what was added to it. -/
def Registered (s : Registry × List Bytes) : Prop :=
  ∃ p : Projects, s.1.Shows p ∧ ∀ x, x ∈ p.slugs ↔ x ∈ s.2

theorem registered_empty : Registered (.empty, []) :=
  ⟨.empty, Registry.empty_shows, by simp [Projects.empty]⟩

theorem RegistryCall.step_registered (c : RegistryCall) {s : Registry × List Bytes}
    (h : Registered s) : ∃ s', c.step s = some s' ∧ Registered s' := by
  obtain ⟨p, hs, hmem⟩ := h
  cases c with
  | add slug a =>
    obtain ⟨t, p', ht, hreg⟩ := hs.addLogged slug a
    refine ⟨(t.registry, s.2 ++ t.added), by rw [RegistryCall.step, ht]; rfl, p', hreg.shows',
      fun x => ?_⟩
    rw [hreg.mem, hmem, List.mem_append]
  | load files =>
    cases files with
    | error e =>
      refine ⟨(s.1, s.2 ++ []), rfl, p, hs, fun x => ?_⟩
      rw [hmem, List.append_nil]
    | ok files =>
      obtain ⟨t, p', ht, hreg⟩ :=
        hs.loadFrom (files.mergeSort fun f f' => strcmp f.name f'.name ≠ .gt)
      refine ⟨(t.registry, s.2 ++ t.added), by rw [RegistryCall.step, Registry.load, ht]; rfl, p',
        hreg.shows', fun x => ?_⟩
      rw [hreg.mem, hmem, List.mem_append]
  | close => exact ⟨_, rfl, registered_empty⟩

theorem foldlM_registered (calls : List RegistryCall) {s : Registry × List Bytes}
    (h : Registered s) : ∃ s', calls.foldlM RegistryCall.step s = some s' ∧ Registered s' := by
  induction calls generalizing s with
  | nil => exact ⟨s, rfl, h⟩
  | cons c calls ih =>
    obtain ⟨s', hs', h'⟩ := c.step_registered h
    rw [List.foldlM_cons, hs']
    exact ih h'

/-- **The registry is sorted, holds each slug once and finds what was added.** No call of a run
leaves the array; the slugs in it stand in the order of `strcmp`, and the search finds a slug exactly
when it was added since the store was opened. -/
theorem registry_exact (calls : List RegistryCall) : ∃ g added,
    registryRun calls = some (g, added) ∧
    (∃ slugs : List Bytes, g.cells.take g.n = slugs.map some ∧ slugs.length = g.n ∧
      slugs.Pairwise (strcmp · · = .lt) ∧ slugs.Nodup ∧ ∀ s, s ∈ slugs ↔ s ∈ added) ∧
    ∀ slug, ∃ i, g.index slug = some (i, decide (slug ∈ added)) ∧
      (slug ∈ added → g.cells[i]? = some (some slug)) := by
  obtain ⟨⟨g, added⟩, hrun, p, hs, hmem⟩ :=
    foldlM_registered calls registered_empty
  refine ⟨g, added, hrun, ⟨p.slugs, ?_, hs.n.symm, ?_, ?_, hmem⟩, fun slug => ?_⟩
  · obtain ⟨⟨spare, hcells⟩, hn⟩ := hs
    dsimp only at hcells hn
    rw [hcells, hn]
    exact List.take_left' (by simp)
  · exact p.sorted.imp fun h => strcmp_lt.2 h
  · exact p.sorted.imp fun {a b} h he => absurd (he ▸ h) (List.lt_irrefl _)
  · refine ⟨(p.index slug).1, ?_, fun hin => ?_⟩
    · rw [hs.index slug]
      congr 1
      refine Prod.ext rfl ?_
      rw [Bool.eq_iff_iff, decide_eq_true_iff, ← hmem]
      exact Projects.known_iff
    · have hk := Projects.known_iff.2 ((hmem slug).2 hin)
      obtain ⟨x, hx, heq⟩ := (Search.locate_spec (p.ordered slug)).1 hk
      obtain rfl := slugOrder_eq.1 heq
      have hlt := (List.getElem?_eq_some_iff.1 hx).1
      exact (hs.cell hlt).trans (congrArg some hx)

end Asper
