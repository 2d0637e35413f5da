import Asper.Record.HashTable

/-! # The hash table is a finite map

`Mapped` says that a map has room and that each record can be reached in it; every call keeps it.
`Stored` relates the stored table to the table of the model. One call is `HashTable.call_step`, a
sequence of calls `HashTable.run_refines`. -/

namespace Asper

open Durable

/-! ## The map -/

/-- Where the walk for the record at `idx` starts. -/
def homeOf (recs : List Record) (idx : Nat) : Nat := recs[idx]?.elim 0 fun r => idHash r.id

/-- The map holds the first `n` records and is at most seven tenths full. -/
structure MappedTo (recs : List Record) (n : Nat) (m : IdMap) : Prop where
  probed : Probed m.slots (homeOf recs) n
  used : m.used = n
  room : n * 10 ≤ m.slots.length * 7

theorem MappedTo.lt {recs : List Record} {n : Nat} {m : IdMap} (h : MappedTo recs n m) :
    n < m.slots.length := by
  have := h.room
  have := h.probed.pos
  omega

theorem homeOf_eq {recs : List Record} {i : Nat} {r : Record} (h : recs[i]? = some r) :
    homeOf recs i = idHash r.id := by rw [homeOf, h, Option.elim_some]

/-- More records leave those that are mapped where they are. -/
theorem MappedTo.append {recs rs : List Record} {m : IdMap} (h : MappedTo recs recs.length m) :
    MappedTo (recs ++ rs) recs.length m := by
  refine ⟨⟨h.probed.pow, h.probed.bound, h.probed.inj, fun i hi => ?_⟩, h.used, h.room⟩
  have he : homeOf (recs ++ rs) i = homeOf recs i := by
    rw [homeOf, homeOf, List.getElem?_append_left hi]
  rw [he]
  exact h.probed.reach i hi

/-- **Insertion into a map** with room for one more. -/
theorem idmapInsert_mapped {recs : List Record} {m : IdMap} {n : Nat} (h : MappedTo recs n m)
    (hn : n < recs.length) (hroom : (n + 1) * 10 ≤ m.slots.length * 7) :
    ∃ m', idmapInsert recs m n = some m' ∧ MappedTo recs (n + 1) m' ∧
      m'.slots.length = m.slots.length := by
  have hget : recs[n]? = some recs[n] := List.getElem?_eq_getElem hn
  obtain ⟨d, hd, hat, hbefore, hprobe⟩ := h.probed.probe_empty h.lt
    (fun _ => some false) (fun _ _ => rfl) le_rfl (homeOf recs n)
  refine ⟨⟨m.slots.set ((homeOf recs n + d) % m.slots.length) (n + 1), m.used + 1⟩, ?_, ?_, ?_⟩
  · rw [idmapInsert, hget, Option.bind_some, and_mask h.probed.pow, ← homeOf_eq hget, hprobe]
    rfl
  · refine ⟨h.probed.insert hd hat hbefore, congrArg (· + 1) h.used, ?_⟩
    rw [List.length_set]
    exact hroom
  · exact List.length_set

theorem growCap_spec {fuel least : Nat} :
    ∀ cap : Nat, least ≤ cap + fuel → 0 < cap → (∃ e, cap = 2 ^ e) →
      least ≤ growCap fuel least cap ∧ ∃ e, growCap fuel least cap = 2 ^ e := by
  induction fuel with
  | zero => exact fun _ h _ hp => ⟨h, hp⟩
  | succ fuel ih =>
    rintro cap h h0 ⟨e, he⟩
    rw [growCap]
    split
    · exact ih _ (by omega) (by omega) ⟨e + 1, by rw [he, pow_succ]⟩
    · next hge => exact ⟨not_lt.1 hge, e, he⟩

/-- **A new map** holds all records. -/
theorem tableRehash_mapped (fail : Bool) {recs : List Record} {mincap : Nat}
    (h : recs.length ≤ mincap) (h1 : 1 ≤ mincap) :
    ∃ o, tableRehash fail recs mincap = some o ∧ (fail = true ∧ o = none ∨
      ∃ m, o = some m ∧ MappedTo recs recs.length m ∧ mincap * 2 ≤ m.slots.length) := by
  cases fail with
  | true => exact ⟨none, rfl, .inl ⟨rfl, rfl⟩⟩
  | false =>
    obtain ⟨hcap, e, he⟩ := growCap_spec 16
      (show mincap * 2 ≤ 16 + mincap * 2 by omega) (by decide) ⟨4, rfl⟩
    -- the loop over the first `n` records
    have hloop : ∀ n ≤ recs.length, ∃ m,
        (List.range n).foldlM (idmapInsert recs)
          ⟨List.replicate (growCap (mincap * 2) (mincap * 2) 16) 0, 0⟩ = some m ∧
        MappedTo recs n m ∧ m.slots.length = growCap (mincap * 2) (mincap * 2) 16 := by
      intro n
      induction n with
      | zero =>
        refine fun _ => ⟨_, rfl, ⟨?_, rfl, by omega⟩, List.length_replicate⟩
        rw [he]
        exact Probed.replicate _ e
      | succ n ih =>
        intro hn
        obtain ⟨m, hm, hmap, hlen⟩ := ih (by omega)
        obtain ⟨m', hm', hmap', hlen'⟩ := idmapInsert_mapped hmap hn (by omega)
        refine ⟨m', ?_, hmap', hlen'.trans hlen⟩
        rw [List.range_succ, List.foldlM_append, hm]
        simpa using hm'
    obtain ⟨m, hm, hmap, hlen⟩ := hloop recs.length le_rfl
    exact ⟨some m, by rw [tableRehash, if_neg (by decide), hm]; rfl,
      .inr ⟨m, rfl, hmap, by omega⟩⟩

/-! ## The table -/

/-- The stored table holds the records of `t`, and its map, if any, all of them. -/
structure Stored (h : HashTable) (t : Table) : Prop where
  recs : h.recs = t.recs
  mapped : ∀ m, h.idmap = some m → MappedTo h.recs h.recs.length m

theorem Stored.empty : Stored .empty .empty := ⟨rfl, nofun⟩

section
variable {h : HashTable} {t : Table}

/-- The place of a record is found, by the map or without one. -/
theorem Stored.find (hs : Stored h t) (id : Bytes) :
    tableFind h id = some (if id = [] then none else h.recs.findIdx? (·.id = id)) := by
  rw [tableFind]
  by_cases hid : id = []
  · rw [if_pos (.inl hid), if_pos hid]
  by_cases hnil : h.recs = []
  · rw [if_pos (.inr hnil), if_neg hid, hnil]
    rfl
  rw [if_neg (not_or.2 ⟨hid, hnil⟩), if_neg hid]
  cases hm : h.idmap with
  | none => rfl
  | some m =>
    have hmap := hs.mapped m hm
    dsimp only
    rw [and_mask hmap.probed.pow]
    cases hi : h.recs.findIdx? (·.id = id) with
    | some i =>
      obtain ⟨hlt, hat, -⟩ := List.findIdx?_eq_some_iff_getElem.1 hi
      have hid' : h.recs[i].id = id := by simpa using hat
      have hhome : homeOf h.recs i = idHash id := by
        rw [homeOf_eq (List.getElem?_eq_getElem hlt), hid']
      have hnd : (h.recs.map (·.id)).Nodup := hs.recs ▸ t.nodup
      -- no other record has its id
      have hhit : ∀ j < h.recs.length, sameId h.recs id j = some (decide (j = i)) := by
        intro j hj
        rw [sameId, List.getElem?_eq_getElem hj, Option.map_some, Option.some_inj, decide_eq_decide]
        refine ⟨fun hj' => (List.getElem?_inj (by simpa using hj) hnd).1 ?_, ?_⟩
        · rw [List.getElem?_map, List.getElem?_map, List.getElem?_eq_getElem hj,
            List.getElem?_eq_getElem hlt, Option.map_some, Option.map_some, hj', hid']
        · rintro rfl
          exact hid'
      have hprobe := hmap.probed.probe_found _ hlt hhit le_rfl
      rw [hhome] at hprobe
      rw [hprobe]
      rfl
    | none =>
      have hnone := List.findIdx?_eq_none_iff.1 hi
      have hhit : ∀ j < h.recs.length, sameId h.recs id j = some false := by
        intro j hj
        rw [sameId, List.getElem?_eq_getElem hj, Option.map_some, Option.some_inj]
        exact hnone _ (List.getElem_mem hj)
      obtain ⟨d, -, -, -, hprobe⟩ := hmap.probed.probe_empty hmap.lt _ hhit le_rfl (idHash id)
      rw [hprobe]
      rfl

theorem findIdx?_getElem? {α : Type} (p : α → Bool) (xs : List α) :
    (xs.findIdx? p).bind (xs[·]?) = xs.find? p := by
  induction xs with
  | nil => rfl
  | cons x xs ih =>
    rw [List.findIdx?_cons, List.find?_cons]
    cases p x with
    | true => rfl
    | false =>
      rw [if_neg (by decide), ← ih]
      cases xs.findIdx? p <;> rfl

/-- **A lookup** finds the record stored under the id. -/
theorem Stored.get (hs : Stored h t) (id : Bytes) : h.get id = some (t.get id) := by
  rw [HashTable.get, hs.find, Option.bind_some, Table.get]
  by_cases hid : id = []
  · rw [if_pos hid, if_pos hid]
  · rw [if_neg hid, if_neg hid, ← hs.recs, ← findIdx?_getElem?]
    cases hi : h.recs.findIdx? (·.id = id) with
    | none => rfl
    | some i =>
      obtain ⟨hlt, -, -⟩ := List.findIdx?_eq_some_iff_getElem.1 hi
      simp [hlt]

/-- A record appended to the table and to a map with room for it. -/
theorem append_mapped {m : IdMap} (hmap : MappedTo h.recs h.recs.length m)
    (hroom : (h.recs.length + 1) * 10 ≤ m.slots.length * 7) (r : Record) :
    ∃ m', h.append m r = some (⟨h.recs ++ [r], some m'⟩, none) ∧
      MappedTo (h.recs ++ [r]) (h.recs ++ [r]).length m' := by
  have hlen : (h.recs ++ [r]).length = h.recs.length + 1 := by
    rw [List.length_append, List.length_singleton]
  obtain ⟨m', hm', hmap', -⟩ := idmapInsert_mapped hmap.append
    (show h.recs.length < (h.recs ++ [r]).length by omega) hroom
  exact ⟨m', by rw [HashTable.append, hm', Option.map_some], hlen ▸ hmap'⟩

/-- **An addition.** -/
theorem Stored.add (hs : Stored h t) (w : TableFaults) (r : Record) :
    ∃ h' e t', h.add w r = some (h', e) ∧ TableStep t (.add r w) (.added e) t' ∧
      Stored h' t' := by
  rw [HashTable.add]
  by_cases hid : r.id = []
  · refine ⟨h, some .invalid, t, by rw [if_pos hid], .reject w ?_, hs⟩
    rw [Table.add, dif_pos hid]
  rw [if_neg hid, hs.find, if_neg hid, Option.bind_some]
  cases hi : h.recs.findIdx? (·.id = r.id) with
  | some i =>
    refine ⟨h, some .invalid, t, rfl, .reject w ?_, hs⟩
    obtain ⟨hlt, hat, -⟩ := List.findIdx?_eq_some_iff_getElem.1 hi
    have hmem : r.id ∈ t.recs.map (·.id) := by
      rw [← hs.recs]
      exact List.mem_map.2 ⟨_, List.getElem_mem hlt, by simpa using hat⟩
    rw [Table.add, dif_neg hid, dif_pos hmem]
  | none =>
    have hnone := List.findIdx?_eq_none_iff.1 hi
    have hnot : r.id ∉ t.recs.map (·.id) := by
      rw [← hs.recs]
      intro hm
      obtain ⟨x, hx, hxid⟩ := List.mem_map.1 hm
      have hne := hnone x hx
      rw [hxid] at hne
      simp at hne
    dsimp only
    by_cases hlim : recordLimit ≤ h.recs.length
    · refine ⟨h, some .limit, t, by rw [if_pos hlim], .reject w ?_, hs⟩
      rw [Table.add, dif_neg hid, dif_neg hnot, if_pos (hs.recs ▸ hlim)]
    obtain ⟨t', ht', hrecs'⟩ : ∃ t', t.add r = .ok t' ∧ t'.recs = h.recs ++ [r] := by
      rw [Table.add, dif_neg hid, dif_neg hnot, if_neg (hs.recs ▸ hlim), hs.recs]
      exact ⟨_, rfl, rfl⟩
    have hdone : ∀ m, MappedTo h.recs h.recs.length m →
        (h.recs.length + 1) * 10 ≤ m.slots.length * 7 →
        ∃ h' e t', h.append m r = some (h', e) ∧ TableStep t (.add r w) (.added e) t' ∧
          Stored h' t' := by
      intro m hmap hroom
      obtain ⟨m', hm', hmap'⟩ := append_mapped hmap hroom r
      exact ⟨_, none, t', hm', .add w ht', hrecs'.symm, fun x hx => Option.some.inj hx ▸ hmap'⟩
    rw [if_neg hlim]
    by_cases hw : w.recs = true
    · exact ⟨h, some .nomem, t, by rw [if_pos hw], .noMemory ht' (.inl hw), hs⟩
    rw [if_neg hw]
    by_cases hc : h.crowded = true
    · rw [if_pos hc]
      obtain ⟨o, ho, hf | ⟨m, hm, hmap, hcap⟩⟩ := tableRehash_mapped w.idmap
        (Nat.le_succ h.recs.length) (by omega)
      · obtain ⟨hwm, rfl⟩ := hf
        exact ⟨h, some .nomem, t, by rw [ho]; rfl, .noMemory ht' (.inr hwm), hs⟩
      · rw [ho, hm]
        exact hdone m hmap (by omega)
    · rw [if_neg hc, Option.bind_some]
      cases hm : h.idmap with
      | none =>
        rw [HashTable.crowded, hm] at hc
        exact absurd rfl hc
      | some m =>
        have hmap := hs.mapped m hm
        rw [HashTable.crowded, hm, Option.all_some, decide_eq_true_eq, hmap.used] at hc
        exact hdone m hmap (by omega)

theorem eraseIdx_eq_filter {recs : List Record} {id : Bytes} {i : Nat}
    (hnd : (recs.map (·.id)).Nodup) (hi : recs.findIdx? (·.id = id) = some i) :
    recs.eraseIdx i = recs.filter (·.id ≠ id) := by
  induction recs generalizing i with
  | nil => cases hi
  | cons r recs ih =>
    rw [List.findIdx?_cons] at hi
    obtain ⟨hr, hnd⟩ := List.nodup_cons.1 hnd
    by_cases hid : r.id = id
    · rw [if_pos (by simpa using hid)] at hi
      cases hi
      rw [List.eraseIdx_cons_zero, List.filter_cons_of_neg (by simpa using hid),
        List.filter_eq_self.2]
      intro x hx
      rw [decide_eq_true_eq]
      rintro hxid
      exact hr (List.mem_map.2 ⟨x, hx, hxid.trans hid.symm⟩)
    · rw [if_neg (by simpa using hid)] at hi
      obtain ⟨j, hj, rfl⟩ := Option.map_eq_some_iff.1 hi
      rw [List.eraseIdx_cons_succ, List.filter_cons_of_pos (by simpa using hid), ih hnd hj]

/-- **A removal.** -/
theorem Stored.remove (hs : Stored h t) (w : TableFaults) (id : Bytes) :
    ∃ h', h.remove w id = some (h', (t.get id).isSome) ∧ Stored h' (t.without id) := by
  have hget := hs.get id
  rw [HashTable.get, hs.find, Option.bind_some] at hget
  rw [HashTable.remove, hs.find, Option.bind_some]
  have hsame : (∀ x ∈ t.recs, x.id ≠ id) → Stored h (t.without id) := by
    intro hne
    have hall : t.recs.filter (·.id ≠ id) = t.recs :=
      List.filter_eq_self.2 fun x hx => by simpa using hne x hx
    exact ⟨hs.recs.trans hall.symm, hs.mapped⟩
  by_cases hid : id = []
  · rw [if_pos hid] at hget ⊢
    refine ⟨h, by rw [← Option.some.inj hget]; rfl, hsame fun x hx => hid ▸ t.named x hx⟩
  rw [if_neg hid] at hget ⊢
  cases hi : h.recs.findIdx? (·.id = id) with
  | none =>
    rw [hi] at hget
    refine ⟨h, by rw [← Option.some.inj hget]; rfl, hsame fun x hx => ?_⟩
    have := List.findIdx?_eq_none_iff.1 hi x (hs.recs ▸ hx)
    simpa using this
  | some i =>
    obtain ⟨hlt, -, -⟩ := List.findIdx?_eq_some_iff_getElem.1 hi
    rw [hi] at hget
    dsimp only at hget ⊢
    rw [List.getElem?_eq_getElem hlt] at hget
    have herase := eraseIdx_eq_filter (hs.recs ▸ t.nodup) hi
    generalize hcap : (if (h.recs.eraseIdx i).length ≠ 0 then (h.recs.eraseIdx i).length
      else 1) = mincap
    obtain ⟨o, ho, hcase⟩ := tableRehash_mapped w.idmap
      (show (h.recs.eraseIdx i).length ≤ mincap by rw [← hcap]; split <;> omega)
      (by rw [← hcap]; split <;> omega)
    refine ⟨⟨h.recs.eraseIdx i, o⟩, ?_, ?_, fun m hm => ?_⟩
    · rw [ho, ← Option.some.inj hget]
      rfl
    · rw [herase, hs.recs]
      rfl
    · rcases hcase with ⟨-, rfl⟩ | ⟨m', rfl, hmap, -⟩
      · cases hm
      · exact Option.some.inj hm ▸ hmap

/-- One call does what it does to the table. -/
theorem HashTable.call_step (hs : Stored h t) (c : TableCall) :
    ∃ h' a t', h.call c = some (h', a) ∧ TableStep t c a t' ∧ Stored h' t' := by
  cases c with
  | add r w =>
    obtain ⟨h', e, t', hadd, hstep, hs'⟩ := hs.add w r
    exact ⟨h', .added e, t', by rw [call, hadd]; rfl, hstep, hs'⟩
  | get id => exact ⟨h, _, t, by rw [call, hs.get]; rfl, .get t id, hs⟩
  | remove id w =>
    obtain ⟨h', hrem, hs'⟩ := hs.remove w id
    exact ⟨h', _, _, by rw [call, hrem]; rfl, .remove t id w, hs'⟩

theorem HashTable.run_stored (hs : Stored h t) (cs : List TableCall) :
    ∃ h' as t', h.run cs = some (h', as) ∧ TableRun t cs as t' ∧ Stored h' t' := by
  induction cs generalizing h t with
  | nil => exact ⟨h, [], t, rfl, .nil t, hs⟩
  | cons c cs ih =>
    obtain ⟨h', a, t', hcall, hstep, hs'⟩ := call_step hs c
    obtain ⟨h'', as, t'', hrun, hruns, hs''⟩ := ih hs'
    exact ⟨h'', a :: as, t'', by rw [run, hcall, Option.bind_some, hrun]; rfl, .cons hstep hruns,
      hs''⟩

end

/-- **The hash table refines a finite map**: every sequence of calls goes through, whatever
allocations fail, and answers what the table of records with unique ids answers. -/
theorem HashTable.run_refines (cs : List TableCall) :
    ∃ h as t, HashTable.empty.run cs = some (h, as) ∧ TableRun .empty cs as t ∧ h.recs = t.recs ∧
      ∀ id, h.get id = some (t.get id) := by
  obtain ⟨h, as, t, hrun, hruns, hs⟩ := run_stored Stored.empty cs
  exact ⟨h, as, t, hrun, hruns, hs.recs, hs.get⟩

end Asper
