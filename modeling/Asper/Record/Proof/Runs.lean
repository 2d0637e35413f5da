import Asper.Lib.Runs
import Asper.Record.Proof.Counts
import Asper.Record.Proof.Journaled

/-! # Access counts over a run

`Reloads` holds of every store that was opened and after every step of a run: whatever is loaded
from the files and the journal counts as the store in memory does. From it `access_counts_kept`: a
count goes down only where it wraps. -/

namespace Asper

open Durable

section
variable {X : XcdnText} {D : Digest} {now : Int}

/-! ## Stores that were opened -/

theorem loadSectionFile_counted {want : Section} {slug : Bytes} {file : Option Bytes}
    {t t' : Table} (h : AccessCounted t.counts)
    (hl : loadSectionFile X D now want slug file t = .ok t') : AccessCounted t'.counts := by
  rcases loadSectionFile_nodes hl with ⟨-, rfl⟩ | ⟨-, -, ns, -, -, -, hl⟩
  · exact h
  · refine foldlM_inv (f := loadNode now want slug) (I := fun t => AccessCounted t.counts) ?_ h hl
    intro t n t' ht hn
    obtain ⟨r, hr, hadd⟩ := loadNode_ok hn
    rw [Table.add_counts hadd]
    exact ht.update (recordFromNode_tells hr).countable

theorem storeApply_counted {m m' : Memory} {op : Op} (h : AccessCounted m.counts)
    (hop : op.kind.Countable) (ha : storeApply m op = .ok m') : AccessCounted m'.counts := by
  rw [storeApply_counts ha]
  exact h.op hop

theorem storeOpen_counted {files : SectionFiles} {journal : List Event} {m : Memory}
    (h : storeOpen X D now files journal = .ok m) : AccessCounted m.counts := by
  obtain ⟨l, hl, h⟩ := except_bind_ok h
  obtain ⟨t, ht, hl⟩ := except_bind_ok hl
  obtain ⟨u, hu, hl⟩ := except_bind_ok hl
  have hempty : AccessCounted Table.empty.counts := by
    intro id n hn
    obtain ⟨r, hr, -⟩ := Table.counts_iff.1 hn
    cases hr
  have hstart : AccessCounted (Memory.counts ⟨u, .empty⟩) :=
    loadSectionFile_counted (loadSectionFile_counted hempty ht) hu
  have hload : AccessCounted l.counts := by
    refine foldlM_inv (f := loadProject X D now) (I := fun m => AccessCounted m.counts) ?_ hstart hl
    intro m f m' hm hf
    rcases loadProject_ok hf with ⟨-, rfl⟩ | ⟨_, -, ht, -⟩
    · exact hm
    · exact loadSectionFile_counted hm ht
  refine replayAll_rel _ (R := fun m _ => AccessCounted m.counts) ?_ hload h h
  intro s _ e n s' _ hs hframe _
  obtain ⟨op, hop, ha⟩ := replayFrame_ok _ hframe
  obtain ⟨node, -, hnode⟩ := opParse_ok hop
  exact storeApply_counted hs (opFromNode_countable hnode) ha

/-- No operation takes a project out of the registry. -/
theorem storeApply_projects {m m' : Memory} {op : Op} (h : storeApply m op = .ok m') {s : Bytes}
    (hs : s ∈ m.projects.slugs) : s ∈ m'.projects.slugs := by
  unfold storeApply at h
  cases hk : op.kind with
  | projectCreate slug =>
    rw [hk] at h
    dsimp only at h
    split at h
    · cases h
    · next p hp =>
      obtain rfl := Except.ok.inj h
      exact (Projects.mem_add hp s).2 (.inr hs)
  | update id content declared =>
    rw [hk] at h
    dsimp only at h
    split at h
    · cases h
    · split at h
      · cases h
      · rwa [← Except.ok.inj h]
  | access ids =>
    rw [hk] at h
    rwa [← Except.ok.inj h]
  | _ =>
    rw [hk] at h
    dsimp only at h
    split at h
    · cases h
    · rwa [← Except.ok.inj h]

theorem storeOpen_known {files : SectionFiles} {journal : List Event} {m : Memory}
    (h : storeOpen X D now files journal = .ok m) : FilesKnown files m.projects := by
  obtain ⟨l, hl, h⟩ := except_bind_ok h
  obtain ⟨t, -, hl⟩ := except_bind_ok hl
  obtain ⟨u, -, hl⟩ := except_bind_ok hl
  have hload := (loadProjects_known hl).2
  have hkept : ∀ s ∈ l.projects.slugs, s ∈ m.projects.slugs := by
    refine replayAll_rel _ (R := fun m _ => ∀ s ∈ l.projects.slugs, s ∈ m.projects.slugs) ?_
      (fun _ hs => hs) h h
    intro s _ e n s' _ hs hframe _ slug hslug
    obtain ⟨op, -, ha⟩ := replayFrame_ok _ hframe
    exact storeApply_projects ha (hs slug hslug)
  intro f hf slug hslug
  exact hkept slug (hload f ((List.mergeSort_perm _ _).mem_iff.2 hf) slug hslug)

theorem storeOpen_empty (X : XcdnText) (D : Digest) (now : Int) :
    storeOpen X D now .empty [] = .ok .empty := by
  have hsort : SectionFiles.empty.projects.mergeSort nameLe = [] := List.mergeSort_nil
  unfold storeOpen storeLoad
  rw [hsort]
  rfl

/-! ## Compaction -/

theorem storeCompact_ok {w : CompactDraw} {purgeAfter : Int} {m m' : Memory}
    {files files' : SectionFiles} (h : storeCompact X D w purgeAfter m files = .ok (m', files')) :
    m'.table.recs = (m.table.recs.filter fun r => !purgeDue purgeAfter w.now r) ∧
      m.table.recs.foldlM registerRecord m.projects = .ok m'.projects ∧
      Compacted X D w m'.projects m'.table.recs files files' := by
  unfold storeCompact at h
  obtain ⟨ps, hps, h⟩ := except_bind_ok h
  obtain ⟨new, hfiles, h⟩ := except_bind_ok h
  cases h
  refine ⟨purgeRows_all _ _, hps, ?_⟩
  rw [purgeRows_all]
  exact compactFiles_ok hfiles

theorem storeCompact_counts {w : CompactDraw} {purgeAfter : Int} {m m' : Memory}
    {files files' : SectionFiles} (h : storeCompact X D w purgeAfter m files = .ok (m', files'))
    {id : Bytes} {n : Nat} (hn : m'.counts id = some n) : m.counts id = some n := by
  obtain ⟨r, hr, hid, hcount⟩ := Table.counts_iff.1 hn
  rw [(storeCompact_ok h).1] at hr
  exact Table.counts_iff.2 ⟨r, (List.mem_filter.1 hr).1, hid, hcount⟩

/-- **The counts of the files** of a compaction are those of the store. -/
theorem storeCompact_reload {esc : UInt8 → Bytes} (hX : X.Sound esc) {w : CompactDraw}
    {purgeAfter : Int} {m m' l : Memory} {files files' : SectionFiles}
    (hknown : FilesKnown files m.projects) (hm : AccessCounted m.counts)
    (h : storeCompact X D w purgeAfter m files = .ok (m', files'))
    (hl : storeLoad X D now files' = .ok l) : l.counts = m'.counts := by
  obtain ⟨hfound, honly⟩ := storeCompact_load hX hknown h hl
  have hcountable : ∀ r ∈ m'.table.recs, r.Countable := by
    intro r hr
    obtain ⟨hid, hlt⟩ := hm r.id r.accessCount
      (storeCompact_counts h (Table.counts_iff.2 ⟨r, hr, rfl, rfl⟩))
    exact ⟨hid, hlt⟩
  funext id
  refine Option.ext fun n => ?_
  rw [Memory.counts, Memory.counts, Table.counts_iff, Table.counts_iff]
  constructor
  · rintro ⟨r', hr', hid, hcount⟩
    obtain ⟨r, hr, hb⟩ := honly r' hr'
    obtain ⟨hi, hc⟩ := hb.same (hcountable r hr)
    exact ⟨r, hr, hi.trans hid, hc.trans hcount⟩
  · rintro ⟨r, hr, hid, hcount⟩
    obtain ⟨r', hr', hb⟩ := hfound r hr
    obtain ⟨hi, hc⟩ := hb.same (hcountable r hr)
    exact ⟨r', hr', hi.symm.trans hid, hc.symm.trans hcount⟩

/-! ## The invariant -/

/-- Whatever is loaded from `s` counts as its memory does. -/
structure Reloads (X : XcdnText) (D : Digest) (s : StoreState) : Prop where
  known : FilesKnown s.files s.memory.projects
  counted : AccessCounted s.memory.counts
  counts : ∀ now m, storeOpen X D now s.files s.journal = .ok m → m.counts = s.memory.counts

theorem StoreState.Opened.reloads {s : StoreState} (h : s.Opened X D) : Reloads X D s := by
  obtain ⟨now, h⟩ := h
  exact ⟨storeOpen_known h, storeOpen_counted h, fun _ _ hm => storeOpen_counts hm h⟩

section
variable {S : Settings} {purgeAfter : Int} {esc : UInt8 → Bytes} {s s' : StoreState} {op : Op}
  {fromCurator : Bool} {id : Uuid} {w : CompactDraw}

theorem storeStep_apply (h : storeStep S X D purgeAfter s (.apply op fromCurator id) = .ok s') :
    (∃ t, applyValidate S s.memory fromCurator op.kind = .ok t) ∧
      ∃ m, storeApply s.memory op = .ok m ∧
        s' = ⟨m, s.files, s.journal ++ [s.frame X op id]⟩ := by
  obtain ⟨t, ht, h⟩ := except_bind_ok h
  obtain ⟨m, hm, h⟩ := except_bind_ok h
  exact ⟨⟨t, ht⟩, m, hm, (Except.ok.inj h).symm⟩

theorem storeStep_compact (h : storeStep S X D purgeAfter s (.compact w) = .ok s') :
    ∃ m files, storeCompact X D w purgeAfter s.memory s.files = .ok (m, files) ∧
      s' = ⟨m, files, []⟩ := by
  obtain ⟨⟨m, files⟩, hm, h⟩ := except_bind_ok h
  exact ⟨m, files, hm, (Except.ok.inj h).symm⟩

theorem storeStep_reopen (h : storeStep S X D purgeAfter s (.reopen now) = .ok s') :
    ∃ m, storeOpen X D now s.files s.journal = .ok m ∧ s' = { s with memory := m } := by
  obtain ⟨m, hm, h⟩ := except_bind_ok h
  exact ⟨m, hm, (Except.ok.inj h).symm⟩

/-- A journal with a frame more is loaded as the journal, and the frame is applied. -/
theorem storeOpen_append {files : SectionFiles} {journal : List Event} {e : Event} {m : Memory}
    (h : storeOpen X D now files (journal ++ [e]) = .ok m) :
    ∃ l, storeOpen X D now files journal = .ok l ∧
      replayFrame (opText X now).codec l e (journal.length + 1) = .ok m := by
  obtain ⟨l, hl, h⟩ := except_bind_ok h
  rw [replayAll_append] at h
  obtain ⟨l', hl', h⟩ := except_bind_ok h
  rw [Nat.zero_add, replayAll] at h
  obtain ⟨m', hm', h⟩ := except_bind_ok h
  rw [← Except.ok.inj h]
  refine ⟨l', ?_, hm'⟩
  unfold storeOpen
  rw [hl]
  exact hl'

theorem Reloads.step (hX : X.Sound esc) {c : StoreCall} (h : Reloads X D s)
    (hs : StoreSteps S X D purgeAfter s c s') : Reloads X D s' := by
  obtain ⟨hissued, hs⟩ := hs
  cases c with
  | apply op fromCurator id =>
    obtain ⟨-, m, ha, rfl⟩ := storeStep_apply hs
    refine ⟨fun f hf slug hslug => storeApply_projects ha (h.known f hf slug hslug),
      storeApply_counted h.counted hissued.countable ha, fun now m' hm' => ?_⟩
    obtain ⟨l, hl, hframe⟩ := storeOpen_append hm'
    obtain ⟨op', hop', ha'⟩ := replayFrame_ok _ hframe
    obtain ⟨n, hn, hnode⟩ := opParse_ok hop'
    obtain rfl := List.singleton_inj.1 (hX.op op _ hn)
    rw [storeApply_counts ha', h.counts now l hl, opFromNode_issued hissued hnode,
      ← storeApply_counts ha]
  | compact w =>
    obtain ⟨m, files, hc, rfl⟩ := storeStep_compact hs
    obtain ⟨-, hprojects, hfiles⟩ := storeCompact_ok hc
    refine ⟨hfiles.known fun f hf slug hslug =>
      registerRecords_ok hprojects (h.known f hf slug hslug), ?_, ?_⟩
    · intro id n hn
      exact h.counted id n (storeCompact_counts hc hn)
    · intro now m' hm'
      obtain ⟨l, hl, hm'⟩ := except_bind_ok hm'
      rw [← Except.ok.inj hm']
      exact storeCompact_reload hX h.known h.counted hc hl
  | reopen now =>
    obtain ⟨m, hm, rfl⟩ := storeStep_reopen hs
    exact StoreState.Opened.reloads ⟨now, hm⟩

/-! ## Counts that do not wrap -/

/-- No access of a batch meets a count at its top. -/
def OpKind.Fits (f : Bytes → Option Nat) : OpKind → Prop
  | .access ids => ∀ id n, f id = some n → n + ids.count id < 2 ^ 32
  | _ => True

def StoreCall.Fits (s : StoreState) : StoreCall → Prop
  | .apply op _ _ => op.kind.Fits s.memory.counts
  | _ => True

theorem bump_iterate {n k : Nat} (h : n + k < 2 ^ 32) : bump^[k] n = n + k := by
  induction k with
  | zero => rfl
  | succ k ih =>
    rw [Function.iterate_succ_apply', ih (by omega)]
    exact Nat.mod_eq_of_lt (by omega)

theorem storeApply_grows {m m' : Memory} (h : storeApply m op = .ok m')
    (hfits : op.kind.Fits m.counts) {id : Bytes} {a b : Nat} (ha : m.counts id = some a)
    (hb : m'.counts id = some b) : a ≤ b := by
  obtain ⟨r, hr, hcount⟩ := Option.map_eq_some_iff.1 ha
  have hr' : m'.table.get id = some (op.on r) := storeApply_get h hr
  have hb' : (op.on r).accessCount = b := by
    rw [Memory.counts, Table.counts, hr'] at hb
    exact Option.some.inj hb
  rw [storeApply_counts h] at hb
  cases hk : op.kind with
  | insert x =>
    have hsame : op.on r = r := by
      unfold Op.on
      rw [hk]
    rw [hsame, hcount] at hb'
    exact Nat.le_of_eq hb'
  | access ids =>
    rw [hk] at hb hfits
    obtain ⟨n, hn, rfl⟩ := Option.map_eq_some_iff.1 hb
    obtain rfl := Option.some.inj (hn.symm.trans ha)
    rw [bump_iterate (hfits id n ha)]
    exact Nat.le_add_right _ _
  | _ =>
    rw [hk] at hb
    exact Nat.le_of_eq (Option.some.inj (ha.symm.trans hb))

theorem Reloads.grows {c : StoreCall} (h : Reloads X D s)
    (hs : StoreSteps S X D purgeAfter s c s') (hfits : c.Fits s) {id : Bytes} {a b : Nat}
    (ha : s.memory.counts id = some a) (hb : s'.memory.counts id = some b) : a ≤ b := by
  obtain ⟨-, hs⟩ := hs
  cases c with
  | apply op fromCurator id =>
    obtain ⟨-, m, happ, rfl⟩ := storeStep_apply hs
    exact storeApply_grows happ hfits ha hb
  | compact w =>
    obtain ⟨m, files, hc, rfl⟩ := storeStep_compact hs
    exact Nat.le_of_eq (Option.some.inj (ha.symm.trans (storeCompact_counts hc hb)))
  | reopen now =>
    obtain ⟨m, hm, rfl⟩ := storeStep_reopen hs
    rw [h.counts now m hm] at hb
    exact Nat.le_of_eq (Option.some.inj (ha.symm.trans hb))

/-- A step over which the record `id` stays and no count wraps. -/
def StoreKeeps (S : Settings) (X : XcdnText) (D : Digest) (purgeAfter : Int) (id : Bytes)
    (s : StoreState) (c : StoreCall) (s' : StoreState) : Prop :=
  StoreSteps S X D purgeAfter s c s' ∧ c.Fits s ∧ (s'.memory.counts id).isSome = true

/-- **Counts over a run**: what is loaded at any time counts as the store does, and from any state
on the count of a record does not go down as long as it stays and none wraps. -/
theorem access_counts_kept (hX : X.Sound esc) {s₀ : StoreState} {cs : List StoreCall}
    (h₀ : s₀.Opened X D) (hr : Durable.Runs (StoreSteps S X D purgeAfter) s₀ cs s) :
    (∀ now m, storeOpen X D now s.files s.journal = .ok m → m.counts = s.memory.counts) ∧
      ∀ (id : Bytes) (ds : List StoreCall) (s' : StoreState) (a b : Nat),
        Durable.Runs (StoreKeeps S X D purgeAfter id) s ds s' → s.memory.counts id = some a →
        s'.memory.counts id = some b → a ≤ b := by
  have hs : Reloads X D s := hr.inv (I := fun _ s => Reloads X D s) h₀.reloads
    fun _ _ _ _ h hstep => h.step hX hstep
  refine ⟨hs.counts, fun id ds s' a b hk ha hb => ?_⟩
  have hend : Reloads X D s' ∧ ∃ n, s'.memory.counts id = some n ∧ a ≤ n := by
    refine hk.inv (I := fun _ s' => Reloads X D s' ∧ ∃ n, s'.memory.counts id = some n ∧ a ≤ n)
      ⟨hs, a, ha, Nat.le_refl a⟩ ?_
    rintro _ t c t' ⟨ht, n, hn, han⟩ ⟨hstep, hfits, hsome⟩
    obtain ⟨n', hn'⟩ := Option.isSome_iff_exists.1 hsome
    exact ⟨ht.step hX hstep, n', hn', Nat.le_trans han (ht.grows hstep hfits hn hn')⟩
  obtain ⟨-, n, hn, han⟩ := hend
  obtain rfl := Option.some.inj (hn.symm.trans hb)
  exact han

end

end

/-! ## A run -/

def sampleInsertText : Bytes :=
  ascii "#op\x7bkind:\"insert\"," ++ (ascii "at:t\"2001-09-09T01:46:40Z\",record:#memory\x7b" ++
    ascii "id:u\"7c9e6679-7425-40de-944f-e07fc1f90ae7\",section:\"context\",project:null," ++
    ascii "content:\"The build runs \\\"make\\\".\",source:\"manual\",evidence_kind:0," ++
    ascii "confidence_kind:1,confidence:1.0,observed_at:1000000000,expires_at:0," ++
    ascii "provenance:\"user:manual\",workspace:\"\",commit:\"\"," ++
    ascii "created_at:t\"2001-09-09T01:46:40Z\",updated_at:t\"2001-09-09T01:46:40Z\"," ++
    ascii "last_access:t\"2001-09-09T01:46:40Z\",access_count:0,relevance:0.5,locked:false," ++
    ascii "status:\"active\",tags:[]\x7d" ++ ascii "\x7d")

def sampleAccessText : Bytes :=
  ascii "#op\x7bkind:\"access\"," ++ (ascii "at:t\"2001-09-09T01:47:40Z\"," ++
    ascii "ids:[u\"7c9e6679-7425-40de-944f-e07fc1f90ae7\"]" ++ ascii "\x7d")

def sampleRecordLines : List String :=
  ["#memory \x7b\n", "  id: u\"7c9e6679-7425-40de-", "944f-e07fc1f90ae7\",\n",
    "  section: \"context\",\n", "  project: null,\n", "  content: \"The build ",
    "runs \\\"make\\\".\",\n", "  source: \"manual\",\n", "  evidence_kind: 0,\n",
    "  confidence_kind: 1,\n", "  confidence: 1.0,\n", "  observed_at: ", "1000000000,\n",
    "  expires_at: 0,\n", "  provenance: ", "\"user:manual\",\n", "  workspace: \"\",\n",
    "  commit: \"\",\n", "  created_at: ", "t\"2001-09-09T01:46:40Z\",\n", "  updated_at: ",
    "t\"2001-09-09T01:46:40Z\",\n", "  last_access: ", "t\"2001-09-09T01:46:40Z\",\n",
    "  access_count: 0,\n", "  relevance: 0.5,\n", "  locked: false,\n",
    "  status: \"active\",\n", "  tags: []\n\x7d"]

def sampleRecordText : Bytes := sampleRecordLines.flatMap ascii

open Classical in
/-- A library that knows the texts of the two operations and of the record. -/
noncomputable def sampleText : XcdnText where
  pretty n := if n = recordBuildNode sampleRecord then sampleRecordText else [63]
  compact n := if n = opBuildNode sampleInsert then sampleInsertText
    else if n = opBuildNode sampleAccess then sampleAccessText else [63]
  parse t := if t = sampleInsertText then some [(opBuildNode sampleInsert).read jsonEscape]
    else if t = sampleAccessText then some [(opBuildNode sampleAccess).read jsonEscape]
    else if t = [] then some []
    else if t = sampleRecordText ++ [10] then
      some [(recordBuildNode sampleRecord).read jsonEscape]
    else none

theorem sectionText_last (X : XcdnText) {rs : List Record} (h : rs ≠ []) :
    (sectionText X rs).getLast? = some 10 := by
  obtain ⟨init, r, rfl⟩ : ∃ init r, rs = init ++ [r] :=
    ⟨_, _, (List.dropLast_append_getLast h).symm⟩
  rw [sectionText, List.foldl_append]
  exact List.getLast?_concat

theorem sampleTexts_distinct : sampleAccessText ≠ sampleInsertText := by
  intro h
  have hhead := List.append_inj_left h (by decide)
  exact absurd hhead (by decide)

/-- The texts end with a brace. -/
theorem sampleTexts_last {t : Bytes} (h : t = sampleInsertText ∨ t = sampleAccessText) :
    t.getLast? = some 125 := by
  rcases h with rfl | rfl
  · rw [sampleInsertText, ← List.append_assoc]
    exact List.getLast?_concat
  · rw [sampleAccessText, ← List.append_assoc]
    exact List.getLast?_concat

theorem sampleText_parse {t : Bytes} {ns : List XNode} (h : sampleText.parse t = some ns) :
    (t = sampleInsertText ∧ ns = [(opBuildNode sampleInsert).read jsonEscape]) ∨
      (t = sampleAccessText ∧ ns = [(opBuildNode sampleAccess).read jsonEscape]) ∨
      (t = [] ∧ ns = []) ∨ (t = sampleRecordText ++ [10] ∧
        ns = [(recordBuildNode sampleRecord).read jsonEscape]) := by
  unfold sampleText at h
  dsimp only at h
  split at h
  · next ht => exact .inl ⟨ht, (Option.some.inj h).symm⟩
  · split at h
    · next ht => exact .inr (.inl ⟨ht, (Option.some.inj h).symm⟩)
    · split at h
      · next ht => exact .inr (.inr (.inl ⟨ht, (Option.some.inj h).symm⟩))
      · split at h
        · next ht => exact .inr (.inr (.inr ⟨ht, (Option.some.inj h).symm⟩))
        · cases h

theorem sampleText_insert : sampleText.parse (sampleText.compact (opBuildNode sampleInsert)) =
    some [(opBuildNode sampleInsert).read jsonEscape] := by
  unfold sampleText
  dsimp only
  rw [if_pos rfl, if_pos rfl]

theorem sampleNodes_distinct : opBuildNode sampleAccess ≠ opBuildNode sampleInsert := by
  intro h
  have hback := congrArg (fun n => opFromNode 0 (n.read jsonEscape)) h
  rw [opFromNode_build jsonEscape_escape sampleAccess_storable,
    opFromNode_build jsonEscape_escape sampleInsert_storable] at hback
  exact absurd (Except.ok.inj hback) (by decide)

theorem sampleText_access : sampleText.parse (sampleText.compact (opBuildNode sampleAccess)) =
    some [(opBuildNode sampleAccess).read jsonEscape] := by
  unfold sampleText
  dsimp only
  rw [if_neg sampleNodes_distinct, if_pos rfl, if_neg sampleTexts_distinct, if_pos rfl]

/-- The bytes of a file but the line ends are those of its records. -/
theorem count_sectionText (X : XcdnText) (rs : List Record) {b : UInt8} (hb : b ≠ 10) :
    (sectionText X rs).count b = (rs.map fun r => (X.pretty (recordBuildNode r)).count b).sum := by
  have hstep : ∀ (t : Bytes) (r : Record), (appendRecord X t r).count b =
      t.count b + (X.pretty (recordBuildNode r)).count b := by
    intro t r
    unfold appendRecord
    split
    · next ht => simp [ht, hb.symm]
    · simp [hb.symm]
  have hrun : ∀ t, (rs.foldl (appendRecord X) t).count b =
      t.count b + (rs.map fun r => (X.pretty (recordBuildNode r)).count b).sum := by
    induction rs with
    | nil => exact fun t => rfl
    | cons r rs ih =>
      intro t
      rw [List.foldl_cons, ih, hstep, List.map_cons, List.sum_cons, Nat.add_assoc]
  rw [sectionText, hrun, List.count_nil, Nat.zero_add]

theorem sampleRecordText_counts :
    (sampleRecordText ++ [10]).count 63 = 0 ∧ (sampleRecordText ++ [10]).count 35 = 1 := by
  rw [sampleRecordText, List.count_append, List.count_append, List.count_flatMap,
    List.count_flatMap]
  decide +kernel

/-- The text of the record is the text of no other records. -/
theorem sectionText_sample {rs : List Record}
    (h : sectionText sampleText rs = sampleRecordText ++ [10]) :
    ∃ r, rs = [r] ∧ recordBuildNode r = recordBuildNode sampleRecord := by
  obtain ⟨h63, h35⟩ := sampleRecordText_counts
  rw [← h, count_sectionText _ _ (by decide)] at h63 h35
  have hall : ∀ r ∈ rs, recordBuildNode r = recordBuildNode sampleRecord := by
    intro r hr
    by_contra hne
    have hzero := List.sum_eq_zero_iff_forall_eq_nat.1 h63 _ (List.mem_map_of_mem hr)
    have hpretty : sampleText.pretty (recordBuildNode r) = [63] := if_neg hne
    rw [hpretty] at hzero
    cases hzero
  have hone : ∀ r ∈ rs, (sampleText.pretty (recordBuildNode r)).count 35 = 1 := by
    intro r hr
    have hpretty : sampleText.pretty (recordBuildNode r) = sampleRecordText := if_pos (hall r hr)
    have hcount := sampleRecordText_counts.2
    have hend : ([10] : Bytes).count 35 = 0 := by decide
    rw [List.count_append, hend, Nat.add_zero] at hcount
    exact (congrArg (List.count 35) hpretty).trans hcount
  rw [List.map_congr_left (g := fun _ => 1) hone, List.map_const', List.sum_replicate_nat,
    Nat.mul_one] at h35
  obtain ⟨r, rfl⟩ := List.length_eq_one_iff.1 h35
  exact ⟨r, rfl, hall r (List.mem_singleton_self r)⟩

theorem sampleText_sound : sampleText.Sound jsonEscape where
  escapes := jsonEscape_escape
  op op ns h := by
    by_cases hi : opBuildNode op = opBuildNode sampleInsert
    · rw [hi, sampleText_insert] at h
      rw [hi, ← Option.some.inj h]
    · by_cases ha : opBuildNode op = opBuildNode sampleAccess
      · rw [ha, sampleText_access] at h
        rw [ha, ← Option.some.inj h]
      · have hcompact : sampleText.compact (opBuildNode op) = [63] := by
          unfold sampleText
          dsimp only
          rw [if_neg hi, if_neg ha]
        rw [hcompact] at h
        rcases sampleText_parse h with ⟨ht, -⟩ | ⟨ht, -⟩ | ⟨ht, -⟩ | ⟨ht, -⟩
        · exact absurd (sampleTexts_last (.inl ht)) (by decide)
        · exact absurd (sampleTexts_last (.inr ht)) (by decide)
        · cases ht
        · have hlast := congrArg List.getLast? ht
          rw [List.getLast?_concat] at hlast
          cases hlast
  records rs ns h := by
    have hlast : rs ≠ [] → ¬ (sectionText sampleText rs).getLast? = some 125 := by
      intro hrs he
      rw [sectionText_last _ hrs] at he
      cases he
    rcases sampleText_parse h with ⟨ht, -⟩ | ⟨ht, -⟩ | ⟨ht, rfl⟩ | ⟨ht, rfl⟩
    · by_cases hrs : rs = []
      · have hend := sampleTexts_last (.inl ht)
        rw [hrs] at hend
        cases hend
      · exact absurd (sampleTexts_last (.inl ht)) (hlast hrs)
    · by_cases hrs : rs = []
      · have hend := sampleTexts_last (.inr ht)
        rw [hrs] at hend
        cases hend
      · exact absurd (sampleTexts_last (.inr ht)) (hlast hrs)
    · by_cases hrs : rs = []
      · rw [hrs]
        rfl
      · have hend := sectionText_last sampleText hrs
        rw [ht] at hend
        cases hend
    · obtain ⟨r, rfl, hr⟩ := sectionText_sample ht
      rw [List.map_singleton, hr]

def sampleSettings : Settings := ⟨4096, 16, true⟩

def sampleFrame : Uuid := ⟨ascii "0f8fad5b-d9cb-469f-a165-70867728950e", by decide⟩

/-- The store with the claim. -/
noncomputable def sampleStore : StoreState where
  memory := ⟨⟨[sampleRecord], List.nodup_singleton _, fun r hr => by
    rw [List.mem_singleton.1 hr]
    decide⟩, .empty⟩
  files := .empty
  journal := [StoreState.empty.frame sampleText sampleInsert sampleFrame]

/-- The store after one access. -/
noncomputable def sampleAccessed : StoreState where
  memory := ⟨accessAll 1000000060 sampleStore.memory.table [sampleRecord.id], .empty⟩
  files := .empty
  journal := sampleStore.journal ++ [sampleStore.frame sampleText sampleAccess sampleFrame]

theorem sampleInsert_apply : storeApply .empty sampleInsert = .ok sampleStore.memory := by
  have hid : sampleRecord.id ≠ [] := by decide
  have hnew : sampleRecord.id ∉ Table.empty.recs.map (·.id) := List.not_mem_nil
  have hadd : Memory.empty.table.add sampleRecord = .ok sampleStore.memory.table := by
    show Table.empty.add sampleRecord = _
    unfold Table.add
    rw [dif_neg hid, dif_neg hnew, if_neg (by decide)]
    rfl
  unfold storeApply sampleInsert
  dsimp only
  rw [hadd]
  rfl

theorem sampleAccess_apply :
    storeApply sampleStore.memory sampleAccess = .ok sampleAccessed.memory := by
  unfold storeApply sampleAccess
  rfl

theorem sampleStore_step : storeStep sampleSettings sampleText padDigest 0 .empty
    (.apply sampleInsert false sampleFrame) = .ok sampleStore := by
  have hv : insertValidate sampleSettings .empty sampleRecord = .ok () := by decide +kernel
  have hv' : applyValidate sampleSettings .empty false sampleInsert.kind = .ok none := by
    unfold applyValidate sampleInsert
    dsimp only
    rw [hv]
    rfl
  have hmemory : StoreState.empty.memory = .empty := rfl
  have hstore : (⟨sampleStore.memory, StoreState.empty.files, StoreState.empty.journal ++
      [StoreState.empty.frame sampleText sampleInsert sampleFrame]⟩ : StoreState) = sampleStore := by
    unfold sampleStore
    rfl
  unfold storeStep
  dsimp only
  rw [hmemory, hv', sampleInsert_apply]
  exact congrArg Except.ok hstore

theorem sampleAccessed_step : storeStep sampleSettings sampleText padDigest 0 sampleStore
    (.apply sampleAccess false sampleFrame) = .ok sampleAccessed := by
  have hv : applyValidate sampleSettings sampleStore.memory false sampleAccess.kind = .ok none := by
    unfold applyValidate sampleAccess
    rfl
  have hstore : (⟨sampleAccessed.memory, sampleStore.files, sampleStore.journal ++
      [sampleStore.frame sampleText sampleAccess sampleFrame]⟩ : StoreState) = sampleAccessed := by
    unfold sampleAccessed
    rfl
  unfold storeStep
  dsimp only
  rw [hv, sampleAccess_apply]
  exact congrArg Except.ok hstore

theorem sampleStore_counts : sampleStore.memory.counts sampleRecord.id = some 0 := by
  have hmem : sampleRecord ∈ sampleStore.memory.table.recs := List.mem_singleton_self _
  exact Table.counts_iff.2 ⟨sampleRecord, hmem, rfl, rfl⟩

theorem sampleAccessed_counts : sampleAccessed.memory.counts sampleRecord.id = some 1 := by
  have hcount := accessAll_counts 1000000060 [sampleRecord.id] sampleStore.memory.table
    sampleRecord.id
  have hstart : sampleStore.memory.table.counts sampleRecord.id = some 0 := sampleStore_counts
  rw [hstart, List.count_singleton_self] at hcount
  exact hcount

theorem sampleAccess_fits : (StoreCall.apply sampleAccess false sampleFrame).Fits sampleStore := by
  intro id n hn
  obtain ⟨r, hr, -, rfl⟩ := Table.counts_iff.1 hn
  rw [List.mem_singleton.1 hr]
  have hcount : [sampleRecord.id].count id ≤ 1 := List.count_le_length
  show 0 + [sampleRecord.id].count id < 2 ^ 32
  omega

theorem access_counts_kept_sample :
    (∀ now m, storeOpen sampleText padDigest now sampleStore.files sampleStore.journal = .ok m →
      m.counts = sampleStore.memory.counts) ∧ 0 ≤ 1 := by
  have hinsert : sampleInsert.kind.Issued := ⟨sampleRecord_storable.id, rfl⟩
  have haccess : sampleAccess.kind.Issued := by
    intro id hid
    rw [List.mem_singleton.1 hid]
    exact sampleRecord_storable.id
  have hopened : StoreState.empty.Opened sampleText padDigest := ⟨0, storeOpen_empty _ _ 0⟩
  have hr : Durable.Runs (StoreSteps sampleSettings sampleText padDigest 0) .empty
      [.apply sampleInsert false sampleFrame] sampleStore := .single ⟨hinsert, sampleStore_step⟩
  have hkept := access_counts_kept sampleText_sound hopened hr
  refine ⟨hkept.1, hkept.2 sampleRecord.id [.apply sampleAccess false sampleFrame] sampleAccessed 0 1
    (.single ⟨⟨haccess, sampleAccessed_step⟩, sampleAccess_fits, ?_⟩) sampleStore_counts
    sampleAccessed_counts⟩
  rw [sampleAccessed_counts]
  rfl

end Asper
