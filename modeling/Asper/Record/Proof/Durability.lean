import Asper.Record.Proof.Reopen

/-! # What lasts of a store

The results on runs of a store from its creation on. `store_wellformed`: its records can be stored.
`reopen_same`: whenever it is opened again it is the store it was, and answers every later operation
alike. `compaction_exact`: a compaction drops the records that are due and nothing else. -/

namespace Asper

open Durable
open JsonEscape

/-! ## Answers -/

section
variable {S : Settings} {m l : Memory}

theorem identityActiveCount_same (h : m.Same l) : identityActiveCount m = identityActiveCount l :=
  (h.perm.filter _).length_eq

/-- The checks see no more of a memory than its records and projects. -/
theorem applyValidate_same (h : m.Same l) (fromCurator : Bool) (k : OpKind) :
    applyValidate S m fromCurator k = applyValidate S l fromCurator k := by
  cases k with
  | insert r =>
    have hproject : projectCheck m r = projectCheck l r := by
      unfold projectCheck
      rw [h.projects]
    simp only [applyValidate, insertValidate, hproject, identityActiveCount_same h,
      h.perm.length_eq, h.get]
  | update id content declared => simp only [applyValidate, updateValidate, h.get]
  | setDeprecated id reason => simp only [applyValidate, deprecateValidate, h.get]
  | keep id => simp only [applyValidate, keepValidate, h.get]
  | setLocked id value => simp only [applyValidate, lockValidate, h.get]
  | access ids => rfl
  | projectCreate slug => simp only [applyValidate, projectValidate, h.projects]

/-- An operation fails alike on memories that agree. -/
theorem storeApply_fails {op : Op} {e : Err} (h : m.Same l) (he : storeApply m op = .error e) :
    storeApply l op = .error e := by
  cases hl : storeApply l op with
  | ok l' =>
    obtain ⟨m', hm, -⟩ := storeApply_same h.symm hl
    rw [he] at hm
    cases hm
  | error e' =>
    unfold storeApply at he hl
    cases hk : op.kind with
    | insert r =>
      rw [hk] at he hl
      dsimp only at he hl
      split at he
      · split at hl
        · exact hl.symm.trans he
        · cases hl
      · cases he
    | update id content declared =>
      rw [hk] at he hl
      dsimp only at he hl
      rw [← h.get] at hl
      split at he
      · next hg =>
        rw [hg] at hl
        exact hl.symm.trans he
      · next r hg =>
        rw [hg] at hl
        dsimp only at hl
        split at he
        · next hd =>
          rw [if_pos hd] at hl
          exact hl.symm.trans he
        · cases he
    | access ids =>
      rw [hk] at he
      cases he
    | projectCreate slug =>
      rw [hk] at he hl
      dsimp only at he hl
      rw [← h.projects] at hl
      split at he
      · next hp =>
        rw [hp] at hl
        exact hl.symm.trans he
      · cases he
    | _ =>
      rw [hk] at he hl
      dsimp only at he hl
      rw [← h.get] at hl
      split at he
      · next hg =>
        rw [hg] at hl
        exact hl.symm.trans he
      · cases he

theorem storeServe_same (h : m.Same l) (ops : List (Op × Bool)) :
    (storeServe S m ops).1 = (storeServe S l ops).1 ∧
      (storeServe S m ops).2.Same (storeServe S l ops).2 := by
  induction ops generalizing m l with
  | nil => exact ⟨rfl, h⟩
  | cons x ops ih =>
    obtain ⟨op, fromCurator⟩ := x
    unfold storeServe
    cases hm : storeCall S m op fromCurator with
    | error e =>
      have hl : storeCall S l op fromCurator = .error e := by
        unfold storeCall at hm ⊢
        rw [← applyValidate_same h]
        cases hv : applyValidate S m fromCurator op.kind with
        | error e' =>
          rw [hv] at hm
          exact hm
        | ok t =>
          rw [hv] at hm
          exact storeApply_fails h hm
      rw [hl]
      obtain ⟨h₁, h₂⟩ := ih h
      exact ⟨congrArg (some e :: ·) h₁, h₂⟩
    | ok m' =>
      obtain ⟨t, hv, ha⟩ := except_bind_ok hm
      obtain ⟨l', hl', hsame⟩ := storeApply_same h ha
      have hl : storeCall S l op fromCurator = .ok l' := by
        unfold storeCall
        rw [← applyValidate_same h, hv]
        exact hl'
      rw [hl]
      obtain ⟨h₁, h₂⟩ := ih hsame
      exact ⟨congrArg (none :: ·) h₁, h₂⟩

end

/-! ## Compactions that succeed -/

section
variable {X : XcdnText} {D : Digest} {purgeAfter : Int} {esc : UInt8 → Bytes} {s : StoreState}

/-- The text of every file that a compaction of `rs` writes fits a file. -/
structure Fitting (X : XcdnText) (ps : Projects) (rs : List Record) : Prop where
  identity : (sectionText X (rs.filter (·.section_ = .identity))).length ≤ sectionMax
  context : (sectionText X (rs.filter (·.section_ = .context))).length ≤ sectionMax
  projects : ∀ slug ∈ ps.slugs, (sectionText X (rs.filter (ofProject slug))).length ≤ sectionMax

theorem checkedFile_fits (D : Digest) (id : Uuid) {text : Bytes} (hlen : text.length ≤ sectionMax)
    (hnul : 0 ∉ text) : ∃ data, checkedFile D id text = .ok data := by
  refine ⟨frameBytes D (fileEvent id text), ?_⟩
  unfold checkedFile
  rw [if_neg (Nat.not_lt.2 hlen), if_neg hnul]
  exact (fileEvent_headed hlen).write D

theorem compactProjects_fits {w : CompactDraw} {rs : List Record} {slugs : List Bytes}
    (h : ∀ slug ∈ slugs, (sectionText X (rs.filter (ofProject slug))).length ≤ sectionMax ∧
      0 ∉ sectionText X (rs.filter (ofProject slug))) (files : SectionFiles) :
    ∃ files', slugs.foldlM (compactProject X D w rs) files = .ok files' := by
  induction slugs generalizing files with
  | nil => exact ⟨files, rfl⟩
  | cons slug slugs ih =>
    obtain ⟨hlen, hnul⟩ := h slug List.mem_cons_self
    obtain ⟨data, hd⟩ := checkedFile_fits D (w.ids slug) hlen hnul
    have hstep : ∃ next, compactProject X D w rs files slug = .ok next := by
      have hd' : checkedFile D (w.ids slug) (sectionText X (rs.filter fun r =>
        r.section_ = .project ∧ r.project = some slug)) = .ok data := hd
      unfold compactProject
      rw [hd']
      exact ⟨_, rfl⟩
    obtain ⟨next, hnext⟩ := hstep
    rw [List.foldlM_cons, hnext]
    exact ih (fun s hs => h s (List.mem_cons_of_mem _ hs)) next

/-- A record that can be stored has a file. -/
theorem hasFile_storable {ps : Projects} {r : Record} (h : r.Storable)
    (hp : ∀ slug, r.project = some slug → slug ∈ ps.slugs) : hasFile ps r = true := by
  have hproject := h.project
  unfold hasFile
  split
  · next slug _ hs => exact Projects.known_iff.2 (hp slug hs)
  · next hsec hnone =>
    rw [hnone] at hproject
    cases hproject.1 hsec
  · rfl

theorem Restorable.compacts (hs : Restorable X D s) {w : CompactDraw}
    (hx : (StoreCall.compact w).Faithful X esc s) (hfit : Fitting X s.memory.projects
      (s.memory.table.recs.filter fun r => !purgeDue purgeAfter w.now r)) :
    ∃ r, storeCompact X D w purgeAfter s.memory s.files = .ok r := by
  have hnul : ∀ p : Record → Bool, 0 ∉ sectionText X
      ((s.memory.table.recs.filter fun r => !purgeDue purgeAfter w.now r).filter p) := fun p =>
    (hx _ (List.filter_sublist.trans List.filter_sublist)).noNul
  obtain ⟨identity, hi⟩ := checkedFile_fits D (w.ids (ascii "identity")) hfit.identity (hnul _)
  obtain ⟨context, hctx⟩ := checkedFile_fits D (w.ids (ascii "context")) hfit.context (hnul _)
  obtain ⟨files, hfiles⟩ := compactProjects_fits (D := D) (w := w)
    (fun slug hslug => ⟨hfit.projects slug hslug, hnul _⟩)
    { s.files with identity := some identity, context := some context }
  have hall : ¬ ((s.memory.table.recs.filter fun r => !purgeDue purgeAfter w.now r).all
      (hasFile s.memory.projects) = false) := by
    rw [Bool.not_eq_false, List.all_eq_true]
    intro r hr
    have hr := (List.mem_filter.1 hr).1
    exact hasFile_storable (hs.storable r hr) (hs.registered r hr)
  have hcompact : compactFiles X D w s.memory.projects
      (s.memory.table.recs.filter fun r => !purgeDue purgeAfter w.now r) s.files = .ok files := by
    unfold compactFiles
    rw [if_neg hall, hi]
    show (checkedFile D _ _ >>= _) = _
    rw [hctx]
    exact hfiles
  unfold storeCompact
  rw [registerRecords_known hs.registered]
  show ∃ r, (compactFiles X D w s.memory.projects _ s.files >>= _) = _
  rw [hcompact]
  exact ⟨_, rfl⟩

end

/-! ## A run -/

theorem sampleRun : Durable.Runs (StoreKept sampleSettings sampleText padDigest 0 jsonEscape) .empty
    [.apply sampleInsert false sampleFrame] sampleStore :=
  .single ⟨⟨sampleInsert_storable, by decide, sampleText_insert⟩, sampleStore_step⟩

theorem sampleRun_accessed :
    Durable.Runs (StoreKept sampleSettings sampleText padDigest 0 jsonEscape) .empty
      ([.apply sampleInsert false sampleFrame] ++ [.apply sampleAccess false sampleFrame])
      sampleAccessed :=
  .snoc sampleRun ⟨⟨sampleAccess_storable, by decide, sampleText_access⟩, sampleAccessed_step⟩

theorem sectionText_nil (X : XcdnText) : sectionText X [] = [] := rfl

theorem sectionText_record : sectionText sampleText [sampleRecord] = sampleRecordText ++ [10] := by
  have hpretty : sampleText.pretty (recordBuildNode sampleRecord) = sampleRecordText := if_pos rfl
  show ([] ++ sampleText.pretty (recordBuildNode sampleRecord)) ++ [10] = _
  rw [hpretty, List.nil_append]

theorem sampleRecord_legible : Legible sampleText jsonEscape [sampleRecord] := by
  have hascii : ∀ b ∈ sampleRecordText ++ [10], b ≠ 0 ∧ b < 0x80 := by
    have hlines : ∀ l ∈ sampleRecordLines, ∀ b ∈ ascii l, b ≠ 0 ∧ b < 0x80 := by decide +kernel
    intro b hb
    rcases List.mem_append.1 hb with hb | hb
    · obtain ⟨l, hl, hbl⟩ := List.mem_flatMap.1 hb
      exact hlines l hl b hbl
    · rw [List.mem_singleton.1 hb]
      decide
  have hparse : sampleText.parse (sampleRecordText ++ [10]) =
      some [(recordBuildNode sampleRecord).read jsonEscape] := by
    have hother : ∀ t, t = sampleInsertText ∨ t = sampleAccessText → sampleRecordText ++ [10] ≠ t := by
      rintro t ht rfl
      have hlast := sampleTexts_last ht
      rw [List.getLast?_concat] at hlast
      cases hlast
    unfold sampleText
    dsimp only
    rw [if_neg (hother _ (.inl rfl)), if_neg (hother _ (.inr rfl)),
      if_neg (List.append_ne_nil_of_right_ne_nil _ (List.cons_ne_nil _ _)), if_pos rfl]
  constructor
  · rw [sectionText_record]
    exact fun h0 => (hascii 0 h0).1 rfl
  · rw [sectionText_record]
    exact utf8Valid_ascii fun b hb => (hascii b hb).2
  · rw [sectionText_record]
    exact hparse

theorem nil_legible : Legible sampleText jsonEscape [] := by
  refine ⟨List.not_mem_nil, rfl, ?_⟩
  have hnil : ∀ t, t = sampleInsertText ∨ t = sampleAccessText → ([] : Bytes) ≠ t := by
    rintro t ht rfl
    cases sampleTexts_last ht
  rw [sectionText_nil]
  unfold sampleText
  dsimp only
  rw [if_neg (hnil _ (.inl rfl)), if_neg (hnil _ (.inr rfl)), if_pos rfl]
  rfl

def sampleDraw : CompactDraw := ⟨2000000000, fun _ => sampleFrame⟩

theorem sampleDraw_faithful :
    (StoreCall.compact sampleDraw).Faithful sampleText jsonEscape sampleStore := by
  intro rs hrs
  rcases List.sublist_singleton.1 hrs with rfl | rfl
  · exact nil_legible
  · exact sampleRecord_legible

theorem sampleStore_fitting : Fitting sampleText sampleStore.memory.projects
    (sampleStore.memory.table.recs.filter fun r => !purgeDue 0 sampleDraw.now r) := by
  have hrecs : (sampleStore.memory.table.recs.filter fun r => !purgeDue 0 sampleDraw.now r) =
      [sampleRecord] := rfl
  have hlen : (sectionText sampleText [sampleRecord]).length ≤ sectionMax := by
    rw [sectionText_record, List.length_append, sampleRecordText, List.length_flatMap]
    decide +kernel
  rw [hrecs]
  exact ⟨Nat.zero_le _, hlen, fun _ h => absurd h List.not_mem_nil⟩

/-! ## Runs from the creation of a store -/

section
variable {S : Settings} {X : XcdnText} {D : Digest} {purgeAfter : Int} {esc : UInt8 → Bytes}
  {s : StoreState} {cs : List StoreCall}

/-- **A store opened again** is the store that was closed: the same records and projects, and every
later operation is answered as it would have been. -/
theorem reopen_same (hesc : ∀ b, b < 0x20 ∨ b = 34 → Escape b.toNat (esc b))
    (h : Durable.Runs (StoreKept S X D purgeAfter esc) .empty cs s) (now : Int) :
    ∃ m, storeOpen X D now s.files s.journal = .ok m ∧ m.Same s.memory ∧
      ∀ ops, (storeServe S m ops).1 = (storeServe S s.memory ops).1 := by
  obtain ⟨m, hm, hsame⟩ := (Restorable.run hesc h).reload now
  exact ⟨m, hm, hsame, fun ops => (storeServe_same hsame ops).1⟩

theorem reopen_same_sample :
    ∃ m, storeOpen sampleText padDigest 2000000000 sampleAccessed.files sampleAccessed.journal = .ok m ∧
      m.Same sampleAccessed.memory ∧ ∀ ops, (storeServe sampleSettings m ops).1 =
        (storeServe sampleSettings sampleAccessed.memory ops).1 :=
  reopen_same jsonEscape_escape sampleRun_accessed 2000000000

/-- **A compaction** drops the records that are due, keeps the others as and where they are, and its
files are loaded as what it left; doing it again at the same time changes nothing. -/
theorem compaction_exact (hesc : ∀ b, b < 0x20 ∨ b = 34 → Escape b.toNat (esc b))
    (h : Durable.Runs (StoreKept S X D purgeAfter esc) .empty cs s) {w : CompactDraw}
    (hx : (StoreCall.compact w).Faithful X esc s) {m : Memory} {files : SectionFiles}
    (hc : storeCompact X D w purgeAfter s.memory s.files = .ok (m, files)) :
    m.table.recs = (s.memory.table.recs.filter fun r => !purgeDue purgeAfter w.now r) ∧
      m.projects = s.memory.projects ∧
      (∀ now, ∃ l, storeLoad X D now files = .ok l ∧ l.Same m) ∧
      ∀ (w' : CompactDraw) (m' : Memory) (files' : SectionFiles), w'.now = w.now →
        storeCompact X D w' purgeAfter m files = .ok (m', files') →
        m'.table.recs = m.table.recs ∧ m'.projects = m.projects := by
  have hs := Restorable.run hesc h
  have hstep : storeStep S X D purgeAfter s (.compact w) = .ok ⟨m, files, []⟩ := by
    show (storeCompact X D w purgeAfter s.memory s.files >>= _) = _
    rw [hc]
    rfl
  have hs' := hs.step hesc hx hstep
  obtain ⟨hrecs, hprojects, -⟩ := storeCompact_ok hc
  rw [registerRecords_known hs.registered] at hprojects
  refine ⟨hrecs, (Except.ok.inj hprojects).symm, fun now => ?_, ?_⟩
  · obtain ⟨l, hl, hsame⟩ := hs'.reload now
    obtain ⟨k, hk, hreplay⟩ := except_bind_ok hl
    obtain rfl := Except.ok.inj hreplay
    exact ⟨k, hk, hsame⟩
  · intro w' m' files' hnow hc'
    obtain ⟨hrecs', hprojects', -⟩ := storeCompact_ok hc'
    rw [registerRecords_known hs'.registered] at hprojects'
    refine ⟨?_, (Except.ok.inj hprojects').symm⟩
    rw [hrecs', hnow, hrecs, List.filter_filter]
    simp only [Bool.and_self]

theorem compaction_exact_sample : ∃ m files, storeCompact sampleText padDigest sampleDraw 0
    sampleStore.memory sampleStore.files = .ok (m, files) ∧ m.table.recs = [sampleRecord] := by
  have hs := Restorable.run jsonEscape_escape sampleRun
  obtain ⟨⟨m, files⟩, hc⟩ := hs.compacts sampleDraw_faithful sampleStore_fitting
  exact ⟨m, files, hc,
    (compaction_exact jsonEscape_escape sampleRun sampleDraw_faithful hc).1⟩

/-- **A compaction succeeds** exactly when every file it writes stays within its limit. -/
theorem compaction_fits (hesc : ∀ b, b < 0x20 ∨ b = 34 → Escape b.toNat (esc b))
    (h : Durable.Runs (StoreKept S X D purgeAfter esc) .empty cs s) {w : CompactDraw}
    (hx : (StoreCall.compact w).Faithful X esc s) :
    (∃ r, storeCompact X D w purgeAfter s.memory s.files = .ok r) ↔
      Fitting X s.memory.projects
        (s.memory.table.recs.filter fun r => !purgeDue purgeAfter w.now r) := by
  have hs := Restorable.run hesc h
  constructor
  · rintro ⟨⟨m, files⟩, hc⟩
    obtain ⟨hrecs, hprojects, hfiles⟩ := storeCompact_ok hc
    rw [registerRecords_known hs.registered] at hprojects
    rw [← hrecs, Except.ok.inj hprojects]
    obtain ⟨_, -, hi⟩ := hfiles.identity
    obtain ⟨_, -, hctx⟩ := hfiles.context
    refine ⟨(checkedFile_ok hi).1, (checkedFile_ok hctx).1, fun slug hslug => ?_⟩
    obtain ⟨data, hd⟩ := hfiles.written slug hslug
    have hknown : FilesKnown s.files m.projects := Except.ok.inj hprojects ▸ hs.known
    exact (checkedFile_ok (hfiles.wrote hknown hd
      (fileSlug_name (m.projects.valid slug hslug)))).1
  · exact hs.compacts hx

theorem compaction_fits_sample : ∃ r, storeCompact sampleText padDigest sampleDraw 0
    sampleStore.memory sampleStore.files = .ok r :=
  (compaction_fits jsonEscape_escape sampleRun sampleDraw_faithful).2 sampleStore_fitting

end

end Asper
