import Asper.Source.Proof.Append
import Mathlib.Data.List.Dedup

/-! # The registry and the inventory

The writer of the registry bounds its bytes, the inventory bounds the number of scopes.
`registry_faithful_iff` says when the two agree after a run of appends; with one name more than
the inventory takes, the store cannot be opened again (`registry_not_faithful`). -/

namespace Asper

open Durable

/-- The inventory could take the registry of `d` with a row for `s`. -/
def CouldHold (d : Disk) (s : Bytes) : Prop :=
  ∃ p, (inventory (.blank [])).result
    (d.set scopeIndex (some (.file (d.data scopeIndex ++ (s ++ [10]))))) = .ok (p, .ok ())

/-- The inventory of `d` succeeds and gives exactly the scopes `ss`, each once, and a new scope is
refused exactly when the inventory could not take it. -/
structure RegistryFaithful (d : Disk) (ss : List Bytes) : Prop where
  inventory : ∀ curated, ∃ p, (inventory (.blank curated)).result d = .ok (p, .ok ()) ∧
    (p.scopes.map (·.scope)).Nodup ∧ ∀ s, s ∈ p.scopes.map (·.scope) ↔ s ∈ ss
  refuses : ∀ s, sourceScopeValid s = true → s ∉ ss →
    (Failed ((registerScope s).result d) ↔ ¬ CouldHold d s)

/-- At most as many scopes as the inventory takes, and when there are as many, no further name
fits into the registry. -/
def RegistryFits (ss : List Bytes) : Prop :=
  ss.length ≤ pendingScopes ∧ (ss.length = pendingScopes → ∀ s, sourceScopeValid s = true → s ∉ ss →
    scopeIndexBytes < (joinRows (ss ++ [s])).length)

section
variable {d : Disk} {s : Bytes} {ss : List Bytes}

theorem inventory_result {t : Except Err Bytes} (h : DirOk d scopesDir) (p : Pending)
    (hr : (orElse (sourceTextRead scopeIndex scopeIndexBytes) .notFound []).result
      (d.set scopesDir (some .dir)) = t) :
    (inventory p).result d = .ok (match t with
      | .error e => (p, .error e)
      | .ok text => inventoryText text p) := by
  have hmk := applyAll_mkdirWrites h
  have h1 := orFail_run .nomem (osMkdirP_scopesDir h)
  have hseq := Act.bind_run (f := fun _ =>
    orElse (sourceTextRead scopeIndex scopeIndexBytes) .notFound []) h1
  rw [hmk, hr] at hseq
  cases t with
  | error e => exact congrArg Outcome.result (Act.bind_run (Act.attempt_run hseq))
  | ok text => exact congrArg Outcome.result (Act.bind_run (Act.attempt_run hseq))

theorem RegistryAt.inventory_eq (h : RegistryAt d ss) (p : Pending) :
    (inventory p).result d = .ok (inventoryText (joinRows ss) p) := by
  rw [Act.result, h.inventory_run]

theorem RegistryAt.registerScope_result (h : RegistryAt d ss) (hs : s ∉ ss) :
    (registerScope s).result d =
      if (joinRows (ss ++ [s])).length ≤ scopeIndexBytes then .ok () else .error .limit := by
  have hmk := applyAll_mkdirWrites h.dir
  have hd : applyAll (mkdirWrites d scopesDir) d scopesDir = some .dir := by
    rw [hmk, Disk.set_self]
  have hr : RegistryAt (applyAll (mkdirWrites d scopesDir) d) ss :=
    h.congr (.inr hd) (by rw [hmk, Disk.set_ne _ _ (by decide)])
  -- once the directory is there, making it again changes nothing
  have h1 := orFail_run .io (osMkdirP_scopesDir h.dir)
  have hskip : (registerScope s).result d =
      (registerScope s).result (applyAll (mkdirWrites d scopesDir) d) := by
    have h2 := orFail_run .io (osMkdirP_scopesDir (.inr hd))
    have hn : mkdirWrites (applyAll (mkdirWrites d scopesDir) d) scopesDir = [] := by
      rw [mkdirWrites, if_neg (by simp [hd])]
    rw [hn] at h2
    rw [Act.result, Act.result, registerScope, Act.bind_run h1, Act.bind_run h2]
    rfl
  rw [hskip]
  split
  · next hroom => rw [Act.result, registerScope_new hr hd hs hroom]
  · next hroom => rw [Act.result, registerScope_full hr hd hs (Nat.lt_of_not_le hroom)]

/-- The registry with one more row, on a disk of its own. -/
theorem RegistryAt.add (h : RegistryAt d ss) (hv : sourceScopeValid s = true) (hs : s ∉ ss)
    (hroom : (joinRows (ss ++ [s])).length ≤ scopeIndexBytes) :
    RegistryAt (d.set scopeIndex (some (.file (d.data scopeIndex ++ (s ++ [10]))))) (ss ++ [s]) :=
  h.push hv hs hroom

theorem couldHold_iff (h : RegistryAt d ss) (hv : sourceScopeValid s = true) (hs : s ∉ ss) :
    CouldHold d s ↔
      (joinRows (ss ++ [s])).length ≤ scopeIndexBytes ∧ ss.length + 1 ≤ pendingScopes := by
  constructor
  · rintro ⟨p, hp⟩
    by_cases hroom : (joinRows (ss ++ [s])).length ≤ scopeIndexBytes
    · refine ⟨hroom, ?_⟩
      have hadd := h.add hv hs hroom
      rw [hadd.inventory_eq] at hp
      by_contra hl
      have := inventoryText_over hadd.valid hadd.nodup (by simp; omega) []
      rw [Except.ok.inj hp] at this
      cases this
    · exfalso
      have hdir : DirOk (d.set scopeIndex (some (.file (d.data scopeIndex ++ (s ++ [10])))))
          scopesDir := h.dir.congr (Disk.set_ne _ _ (by decide))
      have hdata : (d.data scopeIndex ++ (s ++ [10])).length = (joinRows (ss ++ [s])).length := by
        rw [h.data, joinRows_append, joinRows_cons, joinRows_nil]
      have hread : (orElse (sourceTextRead scopeIndex scopeIndexBytes) .notFound []).result
          ((d.set scopeIndex (some (.file (d.data scopeIndex ++ (s ++ [10]))))).set scopesDir
            (some .dir)) = .error .limit := by
        have hb := blob_child (ascii "index.log") (find_scopesDir (d := (d.set scopeIndex
          (some (.file (d.data scopeIndex ++ (s ++ [10]))))).set scopesDir (some .dir))
          (Disk.set_self ..))
        have hf : ((d.set scopeIndex (some (.file (d.data scopeIndex ++ (s ++ [10]))))).set scopesDir
            (some .dir)) (scopesDir ++ [ascii "index.log"]) =
            some (.file (d.data scopeIndex ++ (s ++ [10]))) :=
          (Disk.set_ne _ _ (by decide)).trans (Disk.set_self ..)
        rw [hf] at hb
        have hopen : osBlobOpen scopeIndex ((d.set scopeIndex
            (some (.file (d.data scopeIndex ++ (s ++ [10]))))).set scopesDir (some .dir)) =
            ⟨[], .ok (d.data scopeIndex ++ (s ++ [10]))⟩ := by
          rw [osBlobOpen, Act.read]
          exact congrArg _ hb
        have htext : sourceTextRead scopeIndex scopeIndexBytes ((d.set scopeIndex
            (some (.file (d.data scopeIndex ++ (s ++ [10]))))).set scopesDir (some .dir)) =
            ⟨[], .error .limit⟩ :=
          Act.bind_run_run hopen (require_bind_fail (by rw [hdata]; exact hroom))
        rw [Act.result]
        exact congrArg Outcome.result (Act.bind_run (Act.attempt_run htext))
      rw [inventory_result hdir _ hread] at hp
      cases hp
  · rintro ⟨hroom, hl⟩
    have hadd := h.add hv hs hroom
    refine ⟨{ Pending.blank [] with scopes := (ss ++ [s]).map freshScope }, ?_⟩
    rw [hadd.inventory_eq, inventoryText_fits hadd.valid hadd.nodup (by simpa using hl)]

theorem RegistryAt.faithful_iff (h : RegistryAt d ss) : RegistryFaithful d ss ↔ RegistryFits ss := by
  constructor
  · intro hf
    refine ⟨?_, fun hl s hv hs => ?_⟩
    · by_contra hl
      obtain ⟨p, hp, -⟩ := hf.inventory []
      rw [h.inventory_eq] at hp
      have := inventoryText_over h.valid h.nodup (Nat.lt_of_not_le hl) []
      rw [Except.ok.inj hp] at this
      cases this
    · by_contra hroom
      have hr := hf.refuses s hv hs
      rw [h.registerScope_result hs, if_pos (Nat.le_of_not_lt hroom), couldHold_iff h hv hs] at hr
      exact (hr.2 fun hc => by omega).ne_ok rfl
  · rintro ⟨hl, hfull⟩
    refine ⟨fun curated => ⟨{ Pending.blank curated with scopes := ss.map freshScope }, ?_, ?_, ?_⟩,
      fun s hv hs => ?_⟩
    · rw [h.inventory_eq, inventoryText_fits h.valid h.nodup hl]
    · simpa [Function.comp_def, freshScope] using h.nodup
    · simp [freshScope]
    · rw [h.registerScope_result hs, couldHold_iff h hv hs]
      by_cases hroom : (joinRows (ss ++ [s])).length ≤ scopeIndexBytes
      · have hlt : ss.length + 1 ≤ pendingScopes := by
          rcases Nat.lt_or_eq_of_le hl with h | h
          · exact h
          · exact absurd (hfull h s hv hs) (by omega)
        rw [if_pos hroom]
        exact ⟨fun hfail => absurd rfl hfail.ne_ok, fun hn => absurd ⟨hroom, hlt⟩ hn⟩
      · rw [if_neg hroom]
        exact ⟨fun _ hc => hroom hc.1, fun _ => ⟨_, rfl⟩⟩

end

/-- The scopes of a run, each once. -/
def scopesOf (log : List (Env × EventInput)) : List Bytes := (log.map fun a => a.2.scope.val).dedup

theorem length_joinRows (rows : List Bytes) :
    (joinRows rows).length = (rows.map fun r => r.length + 1).sum := by
  induction rows with
  | nil => rfl
  | cons r rs ih => simp [ih]; omega

theorem RegistryFaithful.perm {d : Disk} {ss ts : List Bytes} (h : ss.Perm ts) :
    RegistryFaithful d ss ↔ RegistryFaithful d ts :=
  ⟨fun hf => ⟨fun c => by simpa only [h.mem_iff] using hf.inventory c,
    fun s hv hs => hf.refuses s hv (mt h.mem_iff.1 hs)⟩,
   fun hf => ⟨fun c => by simpa only [h.mem_iff] using hf.inventory c,
    fun s hv hs => hf.refuses s hv (mt h.mem_iff.2 hs)⟩⟩

theorem RegistryFits.perm {ss ts : List Bytes} (h : ss.Perm ts) :
    RegistryFits ss ↔ RegistryFits ts := by
  have hl : ∀ s, (joinRows (ss ++ [s])).length = (joinRows (ts ++ [s])).length := fun s => by
    rw [length_joinRows, length_joinRows]
    exact ((h.append_right [s]).map _).sum_nat
  rw [RegistryFits, RegistryFits, h.length_eq]
  simp only [hl, h.mem_iff]

/-- **After a run of appends** the registry reads back as the scopes of the run, and refuses what
the inventory cannot take, exactly when the run has at most as many scopes as the inventory takes
and no room for one more than these. -/
theorem registry_faithful_iff {D : Digest} {X : Codec} {d d' : Disk} {m m' : Source}
    {log : List (Env × EventInput)} (hd : NoSource d) (hm : SourceOk .empty m)
    (run : Appended D X d m log d' m') :
    RegistryFaithful d' (scopesOf log) ↔ RegistryFits (scopesOf log) := by
  obtain ⟨st, hst, -, hscopes⟩ := run.state (fun _ => True) (fun _ => trivial) hd.state hm
  have hperm : st.scopes.Perm (scopesOf log) := by
    refine (List.perm_ext_iff_of_nodup hst.registry.nodup (List.nodup_dedup _)).2 fun x => ?_
    rw [hscopes, List.mem_dedup, List.mem_map]
  rw [← RegistryFaithful.perm hperm, ← RegistryFits.perm hperm]
  exact hst.registry.faithful_iff

/-! ## One scope too many -/

/-- The `n`-th scope: `s` and the number. -/
def numbered (n : Nat) : Bytes := 115 :: Decimal.dec n

theorem numbered_digit {n : Nat} {b : UInt8} (h : b ∈ numbered n) :
    b = 115 ∨ Decimal.isDigit b = true :=
  (List.mem_cons.1 h).imp_right (Decimal.dec_digits n b)

theorem numbered_valid {n : Nat} (h : n < 10 ^ 5) : sourceScopeValid (numbered n) = true := by
  have hl := Decimal.length_dec_le 4 h
  have hall : (numbered n).all scopeChar = true := List.all_eq_true.2 fun b hb => by
    rcases numbered_digit hb with rfl | hb
    · decide
    · simp only [Decimal.isDigit, decide_eq_true_eq] at hb
      have h48 : (48 : UInt8) ≤ b ∧ b ≤ 57 := by
        simpa [UInt8.le_iff_toNat_le] using hb
      simp [scopeChar, h48]
  have hdot : ∀ rest, numbered n ≠ 46 :: rest := fun rest he => by
    cases (List.cons.inj he).1
  have h1 : numbered n ≠ ascii "." := hdot _
  have h2 : numbered n ≠ ascii ".." := hdot _
  have h3 : (numbered n).length ≤ 64 := by
    rw [numbered, List.length_cons]
    omega
  simp only [sourceScopeValid, hall, h1, h2, h3, ne_eq, not_false_eq_true, and_self, and_true,
    decide_eq_true_eq]
  simp [numbered]

theorem numbered_inj {m n : Nat} (h : numbered m = numbered n) : m = n :=
  Decimal.dec_inj (List.cons.inj h).2

theorem numbered_no_nul (n : Nat) : 0 ∉ numbered n := fun h => by
  rcases numbered_digit h with h | h
  · cases h
  · exact absurd h (by decide)

def numberedInput (n : Nat) : EventInput :=
  ⟨⟨numbered n, numbered_no_nul n⟩, EventKind.diagnostic.code, false, .empty, spoken⟩

def numberedRun (n : Nat) : List (Env × EventInput) :=
  (List.range n).map fun i => (plainEnv, numberedInput i)

theorem length_numbered_rows {n : Nat} (h : n ≤ 10 ^ 5) :
    (joinRows ((List.range n).map numbered)).length ≤ 7 * n := by
  induction n with
  | zero => exact Nat.zero_le _
  | succ n ih =>
    have hl := Decimal.length_dec_le (n := n) 4 (by omega)
    rw [List.range_succ, List.map_append, joinRows_append, List.length_append, List.map_cons,
      List.map_nil, joinRows_cons, joinRows_nil, List.length_append, numbered, List.length_cons,
      List.length_singleton]
    have := ih (by omega)
    omega

/-- Every one of the appends succeeds. -/
theorem numberedRun_appended {n : Nat} (h : n ≤ 10 ^ 5) :
    ∃ d', Appended zeroDigest plainCodec emptyDisk idle (numberedRun n) d' idle ∧
      ∃ st, SourceAt zeroDigest (fun _ => True) d' st ∧
        st.scopes = (List.range n).map numbered := by
  induction n with
  | zero => exact ⟨emptyDisk, .nil, .empty, noSource_empty.state, rfl⟩
  | succ n ih =>
    obtain ⟨d1, hrun, st, hst, hscopes⟩ := ih (by omega)
    have hv := numbered_valid (n := n) (by omega)
    have hcheck : (numberedInput n).check = some .diagnostic := by
      have hu : utf8Valid (ascii "x") = true := by decide
      exact if_pos ⟨hv, hu, .inl rfl⟩
    have hi : (numberedInput n).scope.val ≠ indexName := fun he =>
      absurd (List.cons.inj he).1 (by decide)
    have hnew : numbered n ∉ st.scopes := by
      rw [hscopes, List.mem_map]
      rintro ⟨k, hk, he⟩
      rw [numbered_inj he] at hk
      exact absurd (List.mem_range.1 hk) (Nat.lt_irrefl _)
    have hevents : st.events (numbered n) = [] := by
      by_contra hne
      exact hnew (hst.listed _ hne)
    have hrows : (joinRows (st.scopes ++ [numbered n])).length ≤ scopeIndexBytes := by
      have := length_numbered_rows (n := n + 1) h
      rw [List.range_succ, List.map_append] at this
      rw [hscopes]
      refine Nat.le_trans this ?_
      unfold scopeIndexBytes
      omega
    have hfits : OriginFits plainCodec plainEnv (numberedInput n).objectRef.val .diagnostic :=
      fun ht => nomatch ht.2
    have hroom : st.hasRoom zeroDigest (numbered n)
        (newEvent zeroDigest plainCodec plainEnv (numberedInput n) .diagnostic) := by
      rw [SourceState.hasRoom, hevents]
      have hl : (ascii "x").length ≤ eventBytes ∧ 0 + (ascii "x").length + 512 ≤ eventLogBytes := by
        decide
      exact hl
    have happ : st.appendInput zeroDigest plainCodec plainEnv (numberedInput n) .diagnostic =
        ((st.register (numbered n)).push (numbered n)
          (newEvent zeroDigest plainCodec plainEnv (numberedInput n) .diagnostic), .ok ()) := by
      rw [SourceState.appendInput, if_pos hfits]
      exact (if_neg (not_not.2 (.inr hrows))).trans (if_neg (not_not.2 hroom))
    obtain ⟨ws, hcommit, hsteps⟩ := hst.eventCommit_run plainEnv (X := plainCodec) hcheck hi
      trivial
    rw [happ] at hcommit hsteps
    have hok : eventAppend zeroDigest plainCodec plainEnv (numberedInput n) idle d1 =
        ⟨ws, .ok (plainEnv.id.val, idle)⟩ := by
      have := Act.bind_run_run (f := fun id => (pure (id, idle) : Io (Bytes × Source))) hcommit rfl
      rw [List.append_nil] at this
      exact this
    refine ⟨applyAll ws d1, ?_, _, hsteps.final.1.1, ?_⟩
    · have := hrun.append hok
      rwa [numberedRun, List.range_succ, List.map_append]
    · show (st.register (numbered n)).scopes = _
      rw [SourceState.register, if_neg hnew, hscopes, List.range_succ, List.map_append]
      rfl

theorem scopesOf_numberedRun (n : Nat) :
    scopesOf (numberedRun n) = (List.range n).map numbered := by
  rw [scopesOf, numberedRun, List.map_map]
  exact List.Nodup.dedup ((List.nodup_range).map fun _ _ => numbered_inj)

/-- With 16385 scopes every append succeeds and the inventory does not. -/
theorem registry_not_faithful : ¬ ∀ d' m',
    Appended zeroDigest plainCodec emptyDisk idle (numberedRun 16385) d' m' →
      RegistryFaithful d' (scopesOf (numberedRun 16385)) := by
  intro hall
  obtain ⟨d', hrun, st, hst, hscopes⟩ := numberedRun_appended (n := 16385) (by omega)
  have hf := hall d' idle hrun
  rw [scopesOf_numberedRun, ← hscopes] at hf
  have hfits := (hst.registry.faithful_iff.1 hf).1
  rw [hscopes, List.length_map, List.length_range] at hfits
  exact absurd hfits (by decide)

/-- Two scopes read back. -/
theorem registry_faithful_two : ∃ d' m',
    Appended zeroDigest plainCodec emptyDisk idle (numberedRun 2) d' m' ∧
      (RegistryFaithful d' (scopesOf (numberedRun 2)) ↔ RegistryFits (scopesOf (numberedRun 2))) := by
  obtain ⟨d', hrun, -⟩ := numberedRun_appended (n := 2) (by omega)
  exact ⟨d', idle, hrun, registry_faithful_iff noSource_empty (idle_ok _) hrun⟩

end Asper
