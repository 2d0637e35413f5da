import Asper.Base.Proof.Files
import Asper.Curator.Acknowledge
import Asper.Source.Proof.Fill
import Asper.Source.Proof.Pending

/-! # The curated ids are a set

What is kept in the file is the sorted list of a set of ids (`sortIds_sorted`), which its members
determine (`sorted_ext`). `markCurated_ok` says which file a call leaves, `curatedLoad_file` that it is
read back. -/

namespace Asper

open Durable

/-! ## Sorted lists of ids -/

def Sorted (ids : List Bytes) : Prop := ids.Pairwise (· < ·)

theorem mem_destutter' (a x : Bytes) (l : List Bytes) :
    x ∈ l.destutter' (· ≠ ·) a ↔ x = a ∨ x ∈ l := by
  induction l generalizing a with
  | nil => simp
  | cons b l ih =>
    rw [List.destutter'_cons]
    split
    · rw [List.mem_cons, ih, List.mem_cons]
    · next hab =>
      rw [ih, List.mem_cons, not_not.1 hab]
      tauto

theorem mem_sortIds {ids : List Bytes} {x : Bytes} : x ∈ sortIds ids ↔ x ∈ ids := by
  rw [sortIds, ← (List.mergeSort_perm ids fun a b => decide (a ≤ b)).mem_iff]
  cases ids.mergeSort fun a b => decide (a ≤ b) with
  | nil => rfl
  | cons a l => rw [List.destutter_cons', mem_destutter', List.mem_cons]

/-- A list that ascends and repeats no neighbour ascends strictly. -/
theorem strictly_of {ids : List Bytes} (hle : ids.Pairwise (· ≤ ·)) (hne : ids.IsChain (· ≠ ·)) :
    Sorted ids := by
  induction ids with
  | nil => exact .nil
  | cons a l ih =>
    rw [List.pairwise_cons] at hle
    have hl : Sorted l := ih hle.2 hne.tail
    refine List.pairwise_cons.2 ⟨fun b hb => ?_, hl⟩
    cases l with
    | nil => cases hb
    | cons c l =>
      have hac : a < c := Std.lt_of_le_of_ne (hle.1 c (.head _)) (List.isChain_cons_cons.1 hne).1
      rcases List.mem_cons.1 hb with rfl | hb
      · exact hac
      · exact bytes_lt_trans hac ((List.pairwise_cons.1 hl).1 b hb)

theorem sortIds_sorted (ids : List Bytes) : Sorted (sortIds ids) := by
  have hle : (ids.mergeSort fun a b => decide (a ≤ b)).Pairwise fun a b => decide (a ≤ b) = true :=
    List.pairwise_mergeSort (fun a b c hab hbc => by
      simp only [decide_eq_true_eq] at hab hbc ⊢
      exact List.le_trans hab hbc) (fun a b => by
      simp only [Bool.or_eq_true, decide_eq_true_eq]
      exact List.le_total a b) ids
  have hsub : (sortIds ids).Pairwise (· ≤ ·) :=
    (hle.imp fun h => of_decide_eq_true h).sublist (List.destutter_sublist _ _)
  exact strictly_of hsub (List.isChain_destutter _ _)

/-- Two sorted lists of the same ids are the same. -/
theorem sorted_ext {us vs : List Bytes} (hu : Sorted us) (hv : Sorted vs)
    (h : ∀ x, x ∈ us ↔ x ∈ vs) : us = vs := by
  have hnodup : ∀ {l : List Bytes}, Sorted l → l.Nodup := fun {l} hl =>
    List.Pairwise.imp (S := (· ≠ ·)) (fun {a b} hab he => List.lt_irrefl a (he ▸ hab)) hl
  have hperm : us.Perm vs := (List.perm_ext_iff_of_nodup (hnodup hu) (hnodup hv)).2 h
  exact hperm.eq_of_pairwise (fun a b _ _ hab hba => absurd (bytes_lt_trans hab hba)
    (List.lt_irrefl a)) hu hv

/-- What is kept of a list depends on its members only. -/
theorem sortIds_ext {ids ids' : List Bytes} (h : ∀ x, x ∈ ids ↔ x ∈ ids') :
    sortIds ids = sortIds ids' :=
  sorted_ext (sortIds_sorted ids) (sortIds_sorted ids') fun x => by
    rw [mem_sortIds, mem_sortIds, h]

theorem sortIds_self {us : List Bytes} (h : Sorted us) : sortIds us = us :=
  sorted_ext (sortIds_sorted us) h fun _ => mem_sortIds

/-- The search of sorted ids is membership. -/
theorem curatedHas_iff {us : List Bytes} (h : Sorted us) (id : Bytes) :
    curatedHas us id = true ↔ id ∈ us := by
  have hord : Search.Ordered (slugOrder id) us := by
    refine h.imp fun {a b} hab => ⟨fun hb => ?_, fun ha => ?_⟩
    · exact slugOrder_lt.2 (bytes_lt_trans hab (slugOrder_lt.1 hb))
    · exact slugOrder_gt.2 (bytes_lt_trans (slugOrder_gt.1 ha) hab)
  rw [curatedHas, Search.locate_found hord]
  simp [slugOrder_eq]

/-! ## The rows of the file -/

theorem curatedRows_text {us : List Bytes} (h : ∀ u ∈ us, uuidValid u = true) :
    curatedRows us.length (curatedText us) = some us := by
  induction us with
  | nil => rfl
  | cons u us ih =>
    have hu : uuidValid u = true := h u (.head _)
    have hlen : u.length = 36 := uuidShape_length hu
    have htext : curatedText (u :: us) = u ++ ([10] ++ curatedText us) := by
      rw [curatedText, List.flatMap_cons, List.append_assoc]
      rfl
    have hget : (curatedText (u :: us))[36]? = some 10 := by
      rw [htext, List.getElem?_append_right (by omega), hlen]
      rfl
    have htake : (curatedText (u :: us)).take 36 = u := by
      rw [htext, ← hlen, List.take_left]
    have hdrop : (curatedText (u :: us)).drop 37 = curatedText us := by
      rw [htext, ← List.append_assoc]
      exact List.drop_left' (by simp [hlen])
    rw [List.length_cons, curatedRows, hget, htake, if_pos ⟨rfl, hu⟩, hdrop,
      ih fun x hx => h x (.tail _ hx)]
    rfl

theorem curatedText_length {us : List Bytes} (h : ∀ u ∈ us, uuidValid u = true) :
    (curatedText us).length = us.length * 37 := by
  induction us with
  | nil => rfl
  | cons u us ih =>
    have hlen : u.length = 36 := uuidShape_length (h u (.head _))
    rw [curatedText, List.flatMap_cons, List.length_append, List.length_append, hlen]
    have htail := ih fun x hx => h x (.tail _ hx)
    rw [curatedText] at htail
    rw [htail, List.length_cons, List.length_cons, List.length_nil]
    omega

theorem curatedIdsParse_text {us : List Bytes} (h : ∀ u ∈ us, uuidValid u = true) :
    curatedIdsParse (curatedText us) = .ok us := by
  have hlen := curatedText_length h
  rw [curatedIdsParse, hlen, if_neg (by omega), Nat.mul_div_cancel _ (by omega), curatedRows_text h]

/-- Every row the loader takes is a valid id. -/
theorem curatedRows_valid {n : Nat} {s : Bytes} {us : List Bytes} (h : curatedRows n s = some us) :
    ∀ u ∈ us, uuidValid u = true := by
  induction n generalizing s us with
  | zero =>
    obtain rfl := Option.some.inj h
    exact nofun
  | succ n ih =>
    rw [curatedRows] at h
    split at h
    · next hc =>
      obtain ⟨rest, hr, rfl⟩ := Option.map_eq_some_iff.1 h
      intro u hu
      rcases List.mem_cons.1 hu with rfl | hu
      · exact hc.2
      · exact ih hr u hu
    · cases h

theorem curatedText_plain {us : List Bytes} (h : ∀ u ∈ us, uuidValid u = true) :
    0 ∉ curatedText us ∧ utf8Valid (curatedText us) = true := by
  have key : ∀ b ∈ curatedText us, b ≠ 0 ∧ b < 0x80 := by
    intro b hb
    obtain ⟨u, hu, hb⟩ := List.mem_flatMap.1 hb
    rcases List.mem_append.1 hb with hb | hb
    · obtain ⟨hlo, hhi⟩ := uuidValid_byte (h u hu) hb
      exact ⟨fun h0 => absurd (h0 ▸ hlo) (by decide), hhi⟩
    · obtain rfl := List.mem_singleton.1 hb
      exact ⟨by decide, by decide⟩
  exact ⟨fun h0 => (key 0 h0).1 rfl, utf8Valid_ascii fun b hb => (key b hb).2⟩

/-! ## Loading -/

variable {d : Disk}

theorem curatedLoad_valid {old : List Bytes} (h : curatedLoad.result d = .ok old) :
    ∀ u ∈ old, uuidValid u = true := by
  obtain ⟨text, -, hparse⟩ := Act.bind_eq_ok h
  rw [Act.result_lift, curatedIdsParse] at hparse
  split at hparse
  · cases hparse
  · split at hparse
    · next ids hrows =>
      obtain rfl := Except.ok.inj hparse
      exact curatedRows_valid hrows
    · cases hparse

/-- The file of valid ids is read back. -/
theorem curatedLoad_file {us : List Bytes} (h : ∀ u ∈ us, uuidValid u = true)
    (hlen : us.length * 37 ≤ curatedBytes) (hd : d curatedFile = some (.file (curatedText us))) :
    curatedLoad.result d = .ok us := by
  have hfind : d.find curatedFile = .found (.file (curatedText us)) := Disk.find_top_some hd
  have hblob : osBlobOpen curatedFile d = ⟨[], .ok (curatedText us)⟩ := by
    rw [osBlobOpen, Act.read, blob, hfind]
  have htext : sourceTextRead curatedFile curatedBytes d = ⟨[], .ok (curatedText us)⟩ := by
    refine Act.bind_run_run hblob ?_
    rw [applyAll_nil, require_bind (by rw [curatedText_length h]; exact hlen),
      require_bind (curatedText_plain h)]
    rfl
  have hread : orElse (sourceTextRead curatedFile curatedBytes) .notFound [] d =
      ⟨[], .ok (curatedText us)⟩ := orElse_run .notFound [] htext fun e he => by cases he
  exact congrArg Outcome.result (Act.bind_run_run hread
    (congrArg (Outcome.mk []) (curatedIdsParse_text h)))

theorem curatedIds_result {old : List Bytes} (h : curatedLoad.result d = .ok old) :
    curatedIds.result d = .ok (sortIds old) := by
  rw [curatedIds, Act.result_bind h, Act.result_pure]

/-! ## Marking -/

/-- The file holds the ids of `S`, sorted and once each, in rows of 37 bytes, and is read back as
them. -/
structure Holding (S : Bytes → Prop) (us : List Bytes) (d : Disk) : Prop where
  sorted : Sorted us
  mem : ∀ x, x ∈ us ↔ S x
  rows : ∀ u ∈ us, (u ++ [10]).length = 37
  file : d curatedFile = some (.file (curatedText us))
  loaded : curatedIds.result d = .ok us
  has : ∀ x, curatedHas us x = true ↔ S x

section
variable {old ids : List Bytes} {uuid : Uuid}

/-- What a call does once the file is loaded. -/
theorem markCurated_run (hold : curatedLoad.result d = .ok old)
    (hids : ids.length ≤ curatedBytes / 37 ∧ ∀ id ∈ ids, uuidValid id = true)
    (hlen : (sortIds (old ++ ids)).length * 37 ≤ curatedBytes) :
    markCurated ids uuid d =
      storeFileWrite curatedFile (curatedText (sortIds (old ++ ids))) uuid d := by
  have hload : curatedLoad d = ⟨[], .ok old⟩ := by
    rw [← hold, ← silent_curatedLoad.nil d]
    rfl
  rw [markCurated, require_bind hids, Act.bind_run hload, applyAll_nil, List.nil_append,
    Act.writes, Act.result, require_bind hlen]

theorem markCurated_checks (hold : curatedLoad.result d = .ok old)
    (h : (markCurated ids uuid).result d = .ok ()) :
    (ids.length ≤ curatedBytes / 37 ∧ ∀ id ∈ ids, uuidValid id = true) ∧
      (sortIds (old ++ ids)).length * 37 ≤ curatedBytes := by
  by_cases hids : ids.length ≤ curatedBytes / 37 ∧ ∀ id ∈ ids, uuidValid id = true
  · refine ⟨hids, ?_⟩
    rw [markCurated, Act.result, require_bind hids, ← Act.result, Act.result_bind hold] at h
    by_contra hlen
    rw [Act.result, require_bind_fail hlen] at h
    cases h
  · rw [markCurated, Act.result, require_bind_fail hids] at h
    cases h

/-- **A call that succeeds** leaves the union of the ids in the file. -/
theorem markCurated_ok (hold : curatedLoad.result d = .ok old)
    (h : (markCurated ids uuid).result d = .ok ()) :
    Holding (fun x => x ∈ old ∨ x ∈ ids) (sortIds (old ++ ids))
        ((markCurated ids uuid).final d) ∧
      curatedLoad.result ((markCurated ids uuid).final d) = .ok (sortIds (old ++ ids)) := by
  obtain ⟨hids, hlen⟩ := markCurated_checks hold h
  have hrun : markCurated ids uuid d =
        storeFileWrite curatedFile (curatedText (sortIds (old ++ ids))) uuid d :=
      markCurated_run hold hids hlen
  have hfinal : (markCurated ids uuid).final d =
      (storeFileWrite curatedFile (curatedText (sortIds (old ++ ids))) uuid).final d := by
    rw [Act.final, Act.final, Act.writes, Act.writes, hrun]
  have hwrite : (storeFileWrite curatedFile (curatedText (sortIds (old ++ ids))) uuid).result d =
      .ok () := by
    rw [← h, Act.result, Act.result, hrun]
  have hmem : ∀ x, x ∈ sortIds (old ++ ids) ↔ x ∈ old ∨ x ∈ ids := fun x => by
    rw [mem_sortIds, List.mem_append]
  have hvalid : ∀ u ∈ sortIds (old ++ ids), uuidValid u = true := fun u hu =>
    ((hmem u).1 hu).elim (curatedLoad_valid hold u) (hids.2 u)
  have hsorted := sortIds_sorted (old ++ ids)
  have hfile := storeFileWrite_ok _ _ _ _ hwrite
  rw [← hfinal] at hfile
  have hload := curatedLoad_file hvalid hlen hfile
  refine ⟨⟨hsorted, hmem, fun u hu => ?_, hfile, ?_, fun x => ?_⟩, hload⟩
  · rw [List.length_append, uuidShape_length (hvalid u hu)]
    rfl
  · rw [curatedIds_result hload, sortIds_self hsorted]
  · rw [curatedHas_iff hsorted, hmem]

/-- A call that fails leaves the file alone. -/
theorem markCurated_error {e : Err} (h : (markCurated ids uuid).result d = .error e) :
    (markCurated ids uuid).final d curatedFile = d curatedFile := by
  by_cases hids : ids.length ≤ curatedBytes / 37 ∧ ∀ id ∈ ids, uuidValid id = true
  swap
  · rw [markCurated, Act.final, Act.writes, require_bind_fail hids]
    rfl
  cases hold : curatedLoad.result d with
  | error e' =>
    have hload : curatedLoad d = ⟨[], .error e'⟩ := by
      rw [← hold, ← silent_curatedLoad.nil d]
      rfl
    rw [markCurated, Act.final, Act.writes, require_bind hids, Act.bind_run_error hload]
    rfl
  | ok old =>
    by_cases hlen : (sortIds (old ++ ids)).length * 37 ≤ curatedBytes
    · have hrun : markCurated ids uuid d =
        storeFileWrite curatedFile (curatedText (sortIds (old ++ ids))) uuid d :=
      markCurated_run hold hids hlen
      rw [Act.result, hrun] at h
      rw [Act.final, Act.writes, hrun]
      exact storeFileWrite_error _ _ _ _ h
    · have hload : curatedLoad d = ⟨[], .ok old⟩ := by
        rw [← hold, ← silent_curatedLoad.nil d]
        rfl
      rw [markCurated, Act.final, Act.writes, require_bind hids, Act.bind_run hload, applyAll_nil,
        Act.writes, require_bind_fail hlen]
      rfl

/-- Ids that are in the file already change nothing. -/
theorem markCurated_again {us : List Bytes} (hold : curatedLoad.result d = .ok us)
    (hsorted : Sorted us) (hfile : d curatedFile = some (.file (curatedText us)))
    (hsub : ∀ x ∈ ids, x ∈ us) :
    (markCurated ids uuid).final d curatedFile = d curatedFile := by
  cases h : (markCurated ids uuid).result d with
  | error e => exact markCurated_error h
  | ok _ =>
    have hsame : sortIds (us ++ ids) = us := by
      refine (sortIds_ext fun x => ?_).trans (sortIds_self hsorted)
      rw [List.mem_append]
      exact ⟨fun hx => hx.elim id (hsub x), .inl⟩
    rw [(markCurated_ok hold h).1.file, hsame, hfile]

/-- The file after two calls. -/
theorem markCurated_two {ids' : List Bytes} {uuid' : Uuid} (hold : curatedLoad.result d = .ok old)
    (h : (markCurated ids uuid >>= fun _ => markCurated ids' uuid').result d = .ok ()) :
    (markCurated ids uuid >>= fun _ => markCurated ids' uuid').final d curatedFile =
      some (.file (curatedText (sortIds (old ++ (ids ++ ids'))))) := by
  obtain ⟨_, h1, h2⟩ := Act.bind_eq_ok h
  obtain ⟨-, hload⟩ := markCurated_ok hold h1
  rw [Act.final_bind h1, (markCurated_ok hload h2).1.file]
  refine congrArg (fun us => some (Node.file (curatedText us))) (sortIds_ext fun x => ?_)
  simp only [List.mem_append, mem_sortIds, or_assoc]

/-- A store without the file takes few ids. -/
theorem markCurated_fresh (hids : ids.length ≤ 2 ∧ ∀ id ∈ ids, uuidValid id = true) :
    (markCurated ids uuid).result (fun _ => none) = .ok () := by
  have hlen : (sortIds ([] ++ ids)).length ≤ 2 := by
    have hsub := (List.destutter_sublist (α := Bytes) (· ≠ ·)
      (ids.mergeSort fun a b => decide (a ≤ b))).length_le
    rw [List.length_mergeSort] at hsub
    exact hsub.trans hids.1
  have hbytes : curatedBytes = 8388608 := rfl
  have hmax : storeFileMax = 536870912 := rfl
  have hvalid : ∀ u ∈ sortIds ([] ++ ids), uuidValid u = true := fun u hu => hids.2 u (mem_sortIds.1 hu)
  rw [Act.result, markCurated_run (curatedLoad_none rfl) ⟨by omega, hids.2⟩ (by omega)]
  refine congrArg Outcome.result (storeFileWrite_top _ uuid _ ?_ (by simp) rfl)
  rw [curatedText_length hvalid]
  omega

end

/-- **The acknowledgement is the union of sets.** On every file the loader takes, a call that succeeds
leaves exactly the ids of the file and the call's own, sorted and once each, and the search of what is
loaded next finds them and no others. To repeat the call changes nothing, two calls leave the same file
in either order, and a call that fails, as it does for an invalid id and for too many ids, leaves the
file as it was. -/
theorem markCurated_union {old : List Bytes} (hold : curatedLoad.result d = .ok old)
    (ids : List Bytes) (uuid : Uuid) :
    ((markCurated ids uuid).result d = .ok () →
      (∃ us, Holding (fun x => x ∈ old ∨ x ∈ ids) us ((markCurated ids uuid).final d)) ∧
      ∀ uuid', (markCurated ids uuid').final ((markCurated ids uuid).final d) curatedFile =
        (markCurated ids uuid).final d curatedFile) ∧
    (∀ (ids' : List Bytes) (u u' v v' : Uuid),
      (markCurated ids u >>= fun _ => markCurated ids' u').result d = .ok () →
      (markCurated ids' v >>= fun _ => markCurated ids v').result d = .ok () →
      (markCurated ids u >>= fun _ => markCurated ids' u').final d curatedFile =
        (markCurated ids' v >>= fun _ => markCurated ids v').final d curatedFile) ∧
    (∀ e, (markCurated ids uuid).result d = .error e →
      (markCurated ids uuid).final d curatedFile = d curatedFile) ∧
    (¬ (∀ id ∈ ids, uuidValid id = true) → (markCurated ids uuid).result d = .error .invalid) ∧
    (∀ us, Sorted us → (∀ x, x ∈ us ↔ x ∈ old ∨ x ∈ ids) → curatedBytes < us.length * 37 →
      ∃ e, (markCurated ids uuid).result d = .error e) := by
  refine ⟨fun h => ?_, fun ids' u u' v v' h1 h2 => ?_, fun e h => markCurated_error h, fun hbad => ?_,
    fun us hus hmem hlong => ?_⟩
  · obtain ⟨hheld, hload⟩ := markCurated_ok hold h
    refine ⟨⟨_, hheld⟩, fun uuid' => ?_⟩
    exact markCurated_again hload hheld.sorted hheld.file fun x hx => (hheld.mem x).2 (.inr hx)
  · rw [markCurated_two hold h1, markCurated_two hold h2]
    refine congrArg (fun us => some (Node.file (curatedText us))) (sortIds_ext fun x => ?_)
    simp only [List.mem_append, or_comm]
  · rw [markCurated, Act.result, require_bind_fail fun hc => hbad hc.2]
  · cases h : (markCurated ids uuid).result d with
    | error e => exact ⟨e, rfl⟩
    | ok _ =>
      have hsame : sortIds (old ++ ids) = us := sorted_ext (sortIds_sorted _) hus fun x => by
        rw [mem_sortIds, List.mem_append, hmem]
      have hfits := (markCurated_checks hold h).2
      rw [hsame] at hfits
      omega

/-- An id marked twice in a fresh store is kept once. -/
theorem markCurated_union_fresh :
    ∃ us, Holding (fun x => x ∈ [] ∨ x ∈ [(uuidV4 fun _ => 0).val, (uuidV4 fun _ => 0).val]) us
      ((markCurated [(uuidV4 fun _ => 0).val, (uuidV4 fun _ => 0).val] (uuidV4 fun _ => 0)).final
        fun _ => none) :=
  ((markCurated_union (curatedLoad_none rfl)
    [(uuidV4 fun _ => 0).val, (uuidV4 fun _ => 0).val] (uuidV4 fun _ => 0)).1
    (markCurated_fresh ⟨Nat.le_refl 2, by simp [Uuid.valid]⟩)).1

end Asper
