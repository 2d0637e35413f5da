import Asper.Base.Proof.Files
import Asper.Record.Cache

/-! # The cache gives records their rows back

What `cacheSave` writes is read as the entries it was made of (`cacheRead_bytes`), and no bytes make
a size overflow (`cacheRead_some`). `Loading` is what holds of the index while entries are adopted: a
record has the row of the last entry that fits it. `cacheLoad_spec` is one call, `cache_round_trip` a
save and a load, `cache_sound` both. -/

namespace Asper

open Durable

/-! ## Vectors and entries -/

theorem vecEncode_length (v : Vec) : (vecEncode v).length = 4 * v.length := by
  induction v with
  | nil => rfl
  | cons x v ih =>
    rw [vecEncode, List.flatMap_cons, List.length_append, putLe_length, ← vecEncode, ih,
      List.length_cons]
    omega

theorem vecDecode_encode (v : Vec) (rest : Bytes) : vecDecode v.length (vecEncode v ++ rest) = v := by
  induction v with
  | nil => rfl
  | cons x v ih =>
    have hlen := putLe_length 4 x.toNat
    have hx : x.toNat % 256 ^ 4 = x.toNat := Nat.mod_eq_of_lt x.toNat_lt
    rw [vecEncode, List.flatMap_cons, List.append_assoc, ← vecEncode, List.length_cons, vecDecode,
      List.take_left' hlen, List.drop_left' hlen, getLe_putLe, hx, ih, UInt32.ofNat_toNat]

/-- What an entry made of a record is like. -/
structure CacheEntry.Sized (dim : Nat) (c : CacheEntry) : Prop where
  id : c.id.length = 16
  hash : c.hash < 2 ^ 64
  vec : c.vec.length = dim

namespace CacheEntry.Sized

variable {dim : Nat} {c : CacheEntry}

theorem bytes_length (h : c.Sized dim) : c.bytes.length = 24 + dim * 4 := by
  rw [bytes, List.length_append, List.length_append, putLe_length, vecEncode_length, h.id, h.vec]
  omega

/-- An entry is read as it was written. -/
theorem read (h : c.Sized dim) (rest : Bytes) :
    (⟨(c.bytes ++ rest).take 16, getLe (((c.bytes ++ rest).drop 16).take 8),
      vecDecode dim ((c.bytes ++ rest).drop 24)⟩ : CacheEntry) = c := by
  have h8 := putLe_length 8 c.hash
  have hhash : c.hash % 256 ^ 8 = c.hash := Nat.mod_eq_of_lt h.hash
  have hsplit : c.bytes ++ rest = c.id ++ (putLe 8 c.hash ++ (vecEncode c.vec ++ rest)) := by
    simp only [bytes, List.append_assoc]
  have h24 : (c.bytes ++ rest).drop 24 = vecEncode c.vec ++ rest := by
    rw [hsplit, show 24 = 16 + 8 from rfl, ← List.drop_drop, List.drop_left' h.id,
      List.drop_left' h8]
  rw [h24, hsplit, List.take_left' h.id, List.drop_left' h.id, List.take_left' h8, getLe_putLe,
    hhash, ← h.vec, vecDecode_encode]

end CacheEntry.Sized

theorem readEntries_bytes {dim : Nat} : ∀ {es : List CacheEntry}, (∀ c ∈ es, c.Sized dim) →
    readEntries dim (24 + dim * 4) es.length (es.map CacheEntry.bytes).flatten = some es
  | [], _ => rfl
  | c :: es, h => by
    have hc := h c List.mem_cons_self
    have hlen := hc.bytes_length
    rw [List.length_cons, readEntries, List.map_cons, List.flatten_cons,
      if_neg (by rw [List.length_append]; omega), List.drop_left' hlen,
      readEntries_bytes fun x hx => h x (List.mem_cons_of_mem c hx), Option.map_some, hc.read]

/-- No entry is missing when the bytes are long enough. -/
theorem readEntries_some {dim size : Nat} : ∀ {n : Nat} {s : Bytes}, n * size ≤ s.length →
    ∃ es, readEntries dim size n s = some es
  | 0, _, _ => ⟨[], rfl⟩
  | n + 1, s, h => by
    rw [Nat.succ_mul] at h
    have hdrop : n * size ≤ (s.drop size).length := by
      rw [List.length_drop]
      omega
    obtain ⟨es, hes⟩ : ∃ es, readEntries dim size n (s.drop size) = some es :=
      readEntries_some hdrop
    exact ⟨_, by rw [readEntries, if_neg (by omega), hes, Option.map_some]⟩

/-! ## The file -/

theorem fits_some {n : Nat} (h : n < 2 ^ 64) : fits n = some n := if_pos h

theorem entrySize_eq {dim : Nat} (h : dim < 2 ^ 31) : entrySize dim = some (24 + dim * 4) := by
  rw [entrySize, fits_some (by omega), Option.bind_some, fits_some (by omega)]

/-- **No bytes make a size overflow.** -/
theorem cacheRead_some (k : CacheKey) {data : Bytes} (h : data.length < 2 ^ 64) :
    ∃ o, cacheRead k data = some o := by
  have hk := k.small
  unfold cacheRead
  split_ifs with h1 h2 h3 h4
  · exact ⟨_, rfl⟩
  · exact ⟨_, rfl⟩
  · exact ⟨_, rfl⟩
  · exact ⟨_, rfl⟩
  rw [entrySize_eq hk, Option.bind_some]
  split_ifs with h5
  · exact ⟨_, rfl⟩
  have hcount : getLe ((data.drop 12).take 8) * (24 + k.dim * 4) ≤ data.length - 52 :=
    (Nat.le_div_iff_mul_le (by omega)).1 (not_lt.1 h5)
  rw [fits_some (by omega), Option.bind_some, fits_some (by omega), Option.bind_some]
  split_ifs with h6
  · exact ⟨_, rfl⟩
  rw [← List.length_drop] at hcount
  obtain ⟨es, hes⟩ : ∃ es, readEntries k.dim (24 + k.dim * 4) (getLe ((data.drop 12).take 8))
      (data.drop 52) = some es := readEntries_some hcount
  exact ⟨some es, by rw [hes]; rfl⟩

theorem cacheHeader_length (k : CacheKey) (count : Nat) : (cacheHeader k count).length = 52 := by
  have hhash : (k.hash.getD (List.replicate 32 0)).length = 32 := by
    cases h : k.hash with
    | none => rfl
    | some b => exact k.hash_length b h
  have hmagic : (ascii "ASPE").length = 4 := rfl
  simp only [cacheHeader, List.length_append, putLe_length, hhash, hmagic]

theorem cacheBytes_length (k : CacheKey) {es : List CacheEntry} (h : ∀ c ∈ es, c.Sized k.dim) :
    (cacheBytes k es).length = 52 + es.length * (24 + k.dim * 4) := by
  have hall : ∀ n ∈ (es.map CacheEntry.bytes).map List.length, n = 24 + k.dim * 4 := by
    intro n hn
    obtain ⟨b, hb, rfl⟩ := List.mem_map.1 hn
    obtain ⟨c, hc, rfl⟩ := List.mem_map.1 hb
    exact (h c hc).bytes_length
  rw [cacheBytes, List.length_append, cacheHeader_length, List.length_flatten,
    List.sum_eq_card_nsmul _ _ hall, List.length_map, List.length_map, Nat.nsmul_eq_mul]

/-- **The file is read as the entries** it was made of. -/
theorem cacheRead_bytes {k : CacheKey} {hash : Bytes} {es : List CacheEntry} (hk : k.hash = some hash)
    (h0 : 0 < k.dim) (hn : es.length ≤ recordLimit) (h : ∀ c ∈ es, c.Sized k.dim) :
    cacheRead k (cacheBytes k es) = some (some es) := by
  have hsmall := k.small
  have hlimit : recordLimit = 65536 := rfl
  have hhash : hash.length = 32 := k.hash_length hash hk
  have hmagic : (ascii "ASPE").length = 4 := rfl
  have hdim : k.dim % 256 ^ 4 = k.dim := Nat.mod_eq_of_lt (by omega)
  have hcount : es.length % 256 ^ 8 = es.length := Nat.mod_eq_of_lt (by omega)
  have hsplit : cacheBytes k es = ascii "ASPE" ++ (putLe 4 1 ++ (putLe 4 k.dim ++
      (putLe 8 es.length ++ (hash ++ (es.map CacheEntry.bytes).flatten)))) := by
    simp only [cacheBytes, cacheHeader, hk, Option.getD_some, List.append_assoc]
  have hbody : (cacheBytes k es).drop 52 = (es.map CacheEntry.bytes).flatten :=
    List.drop_left' (cacheHeader_length k es.length)
  have h4 : (cacheBytes k es).drop 4 = putLe 4 1 ++ (putLe 4 k.dim ++
      (putLe 8 es.length ++ (hash ++ (es.map CacheEntry.bytes).flatten))) := by
    rw [hsplit, List.drop_left' hmagic]
  have h8 : (cacheBytes k es).drop 8 = putLe 4 k.dim ++
      (putLe 8 es.length ++ (hash ++ (es.map CacheEntry.bytes).flatten)) := by
    rw [show 8 = 4 + 4 from rfl, ← List.drop_drop, h4, List.drop_left' (putLe_length 4 1)]
  have h12 : (cacheBytes k es).drop 12 =
      putLe 8 es.length ++ (hash ++ (es.map CacheEntry.bytes).flatten) := by
    rw [show 12 = 8 + 4 from rfl, ← List.drop_drop, h8, List.drop_left' (putLe_length 4 k.dim)]
  have h20 : (cacheBytes k es).drop 20 = hash ++ (es.map CacheEntry.bytes).flatten := by
    rw [show 20 = 12 + 8 from rfl, ← List.drop_drop, h12, List.drop_left' (putLe_length 8 _)]
  have hlen := cacheBytes_length k h
  have hprod : es.length * (24 + k.dim * 4) ≤ 65536 * (24 + 2 ^ 31 * 4) :=
    Nat.mul_le_mul (hlimit ▸ hn) (by omega)
  have htake : (cacheBytes k es).take 4 = ascii "ASPE" := by rw [hsplit, List.take_left' hmagic]
  unfold cacheRead
  rw [if_neg (not_or.2 ⟨by omega, not_not.2 htake⟩), h4,
    List.take_left' (putLe_length 4 1), getLe_putLe, if_neg (by decide), h8,
    List.take_left' (putLe_length 4 k.dim), getLe_putLe, hdim, if_neg (by omega), h20,
    List.take_left' hhash, if_neg (by rw [hk]; simp), entrySize_eq hsmall, Option.bind_some, h12,
    List.take_left' (putLe_length 8 es.length), getLe_putLe, hcount, hlen, Nat.add_sub_cancel_left,
    Nat.mul_div_cancel _ (by omega), if_neg (Nat.lt_irrefl _), fits_some (by omega),
    Option.bind_some, fits_some (by omega), Option.bind_some, if_neg (by simp), hbody,
    readEntries_bytes h]
  rfl

/-! ## One row -/

namespace Shelf

variable {V : Type} {normal : V → V} {live : Ref → Prop} {sh : Shelf V} {p q : Ref} {v w : V}

/-- `asper_index_vec`. -/
def vec (sh : Shelf V) (p : Ref) : Option V :=
  if sh.embRow p < 0 then none else sh.rows[sh.row p]?.map Prod.snd

theorem vec_none (h : sh.embRow p < 0) : sh.vec p = none := if_pos h

/-- The row of the object, in its place. -/
theorem vec_some (h : Linked live sh.rows sh.embRow) (hp : live p) (hv : sh.vec p = some v) :
    0 ≤ sh.embRow p ∧ sh.rows[sh.row p]? = some (p, v) := by
  unfold vec at hv
  split_ifs at hv with hn
  have h0 := not_lt.1 hn
  obtain ⟨x, hx⟩ := h.back hp h0
  have hx' : sh.rows[sh.row p]? = some (p, x) := hx
  rw [hx', Option.map_some] at hv
  exact ⟨h0, Option.some.inj hv ▸ hx'⟩

theorem vec_isSome (h : Linked live sh.rows sh.embRow) (hp : live p) :
    sh.vec p = none ↔ sh.embRow p < 0 := by
  refine ⟨fun hv => not_le.1 fun h0 => ?_, vec_none⟩
  obtain ⟨x, hx⟩ := h.back hp h0
  have hx' : sh.rows[sh.row p]? = some (p, x) := hx
  rw [vec, if_neg (not_lt.2 h0), hx'] at hv
  cases hv

/-- **A put that meets no limit** gives the object the row, and no other object another one. -/
theorem put_spec {full : Bool} (h : Linked live sh.rows sh.embRow) (hp : live p)
    (hroom : sh.embRow p < 0 → sh.rows.length < 2 ^ 31 - 1 ∧ full = false) :
    ∃ sh', sh.put normal full p v = (sh', none) ∧ Linked live sh'.rows sh'.embRow ∧
      sh'.addr = sh.addr ∧ sh'.vec p = some (normal v) ∧
      (∀ q, q ≠ p → sh'.embRow q = sh.embRow q) ∧ (∀ q, live q → q ≠ p → sh'.vec q = sh.vec q) ∧
      sh.rows.length ≤ sh'.rows.length := by
  by_cases h0 : 0 ≤ sh.embRow p
  · obtain ⟨x, hx⟩ := h.back hp h0
    have hx' : sh.rows[sh.row p]? = some (p, x) := hx
    have hrow : sh.embRow p = sh.row p := (Int.toNat_of_nonneg h0).symm
    have hlt : sh.row p < sh.rows.length := (List.getElem?_eq_some_iff.1 hx').1
    refine ⟨{ sh with rows := sh.rows.set (sh.row p) (p, normal v) }, ?_, h.set hp hrow _, rfl, ?_,
      fun _ _ => rfl, fun q hq hne => ?_, (List.length_set).ge⟩
    · rw [put, if_pos h0, hx', Option.map_some, if_pos rfl]
    · show (if sh.embRow p < 0 then none
        else (sh.rows.set (sh.row p) (p, normal v))[sh.row p]?.map Prod.snd) = _
      rw [if_neg (not_lt.2 h0), List.getElem?_set_self hlt, Option.map_some]
    · show (if sh.embRow q < 0 then none
        else (sh.rows.set (sh.row p) (p, normal v))[sh.row q]?.map Prod.snd) = sh.vec q
      unfold vec
      split_ifs with hq0
      · rfl
      · have hdiff : sh.row p ≠ sh.row q := fun he => by
          obtain ⟨y, hy⟩ := h.back hq (not_lt.1 hq0)
          have hy' : sh.rows[sh.row q]? = some (q, y) := hy
          rw [← he, hx'] at hy'
          exact hne (Prod.mk.inj (Option.some.inj hy')).1.symm
        rw [List.getElem?_set_ne hdiff]
  · have hn := not_le.1 h0
    obtain ⟨hlen, rfl⟩ := hroom hn
    refine ⟨{ sh with embRow := Function.update sh.embRow p sh.rows.length
                      rows := sh.rows ++ [(p, normal v)] }, ?_, h.push hp hn _, rfl, ?_,
      fun q hne => Function.update_of_ne hne .., fun q hq hne => ?_, ?_⟩
    · rw [put, if_neg h0, if_neg (not_le.2 hlen), if_neg Bool.false_ne_true]
    · show (if Function.update sh.embRow p (sh.rows.length : Int) p < 0 then none
        else (sh.rows ++ [(p, normal v)])[(Function.update sh.embRow p
          (sh.rows.length : Int) p).toNat]?.map Prod.snd) = _
      rw [Function.update_self, if_neg (not_lt.2 (Int.natCast_nonneg _)), Int.toNat_natCast,
        List.getElem?_concat_length, Option.map_some]
    · show (if Function.update sh.embRow p (sh.rows.length : Int) q < 0 then none
        else (sh.rows ++ [(p, normal v)])[(Function.update sh.embRow p
          (sh.rows.length : Int) q).toNat]?.map Prod.snd) = sh.vec q
      rw [Function.update_of_ne hne]
      unfold vec
      split_ifs with hq0
      · rfl
      · obtain ⟨y, hy⟩ := h.back hq (not_lt.1 hq0)
        rw [List.getElem?_append_left (List.getElem?_eq_some_iff.1 hy).1]
        rfl
    · rw [List.length_append]
      omega

end Shelf

/-! ## Loading -/

/-- The entry is of the record, and of the text that it has now. -/
def CacheEntry.suits (c : CacheEntry) (r : Record) : Bool := c.name = r.id ∧ c.hash = contentFnv r

/-- The last entry that suits the record. -/
def cachedEntry (es : List CacheEntry) (r : Record) : Option CacheEntry :=
  es.reverse.find? (·.suits r)

theorem cachedEntry_concat (es : List CacheEntry) (c : CacheEntry) (r : Record) :
    cachedEntry (es ++ [c]) r = if c.suits r then some c else cachedEntry es r := by
  rw [cachedEntry, List.reverse_append, List.reverse_singleton, List.singleton_append]
  show (match c.suits r with
    | true => some c
    | false => es.reverse.find? (·.suits r)) = _
  cases c.suits r <;> rfl

theorem cachedEntry_some {es : List CacheEntry} {c : CacheEntry} {r : Record}
    (h : cachedEntry es r = some c) : c ∈ es ∧ c.suits r = true := by
  unfold cachedEntry at h
  exact ⟨List.mem_reverse.1 (List.mem_of_find?_eq_some h), by simpa using List.find?_some h⟩

theorem cachedEntry_none {es : List CacheEntry} {r : Record} (h : cachedEntry es r = none) :
    ∀ c ∈ es, ¬ c.suits r = true := fun c hc =>
  List.find?_eq_none.1 h c (List.mem_reverse.2 hc)

/-- A row may belong to the record at the address. -/
def Live (t : Table) (addr : Bytes → Ref) (p : Ref) : Prop :=
  ∃ r ∈ t.recs, r.deprecated = false ∧ addr r.id = p

/-- The index when the entries `es` have been adopted: a record has the row of the last that suits
it. -/
structure Loading (X : Vectors) (t : Table) (addr : Bytes → Ref) (es : List CacheEntry)
    (ix : RowIndex) : Prop where
  placed : ix.shelf.addr = addr
  linked : Linked (Live t addr) ix.shelf.rows ix.shelf.embRow
  dead : ∀ p, ¬ Live t addr p → ix.shelf.embRow p < 0
  cap : ix.cap ≤ 16 ∨ ix.cap ≤ 2 * ix.shelf.rows.length
  vec : ∀ r ∈ t.recs, r.deprecated = false →
    ix.shelf.vec (addr r.id) = (cachedEntry es r).map fun c => X.normal c.vec

/-- Some allocation fails. -/
def CacheFaults.NoMemory (w : CacheFaults) : Prop :=
  w.vec = true ∨ w.stale = true ∨ ∃ n, w.grow n = true

theorem growCapacity_eq {dim cap : Nat} (hd : dim < 2 ^ 31) (hc : cap ≤ recordLimit) :
    growCapacity dim cap = some (if cap = 0 then 16 else cap * 2) := by
  have hlimit : recordLimit = 65536 := rfl
  generalize hn : (if cap = 0 then 16 else cap * 2) = ncap
  have hle : ncap ≤ 131072 := by
    rw [← hn]
    split <;> omega
  have hprod : ncap * dim ≤ 131072 * 2 ^ 31 := Nat.mul_le_mul hle (by omega)
  rw [growCapacity, hn, fits_some (by omega), Option.bind_some, fits_some (by omega),
    Option.bind_some, fits_some (by omega), Option.bind_some, fits_some (by omega), Option.map_some]

section
variable {X : Vectors} {w : CacheFaults} {k : CacheKey} {t : Table} {addr : Bytes → Ref}
  {es : List CacheEntry} {ix : RowIndex} {c : CacheEntry} {r : Record}

theorem Loading.init : Loading X t addr [] (.init addr) where
  placed := rfl
  linked := .nil fun _ _ => (by decide : (-1 : Int) < 0)
  dead _ _ := (by decide : (-1 : Int) < 0)
  cap := .inl (Nat.zero_le _)
  vec _ _ _ := Shelf.vec_none (by decide : (-1 : Int) < 0)

theorem Loading.rows_le (h : Loading X t addr es ix) : ix.shelf.rows.length ≤ t.recs.length := by
  have howner : ∀ p, Live t addr p → p ∈ t.recs.map fun r => addr r.id := by
    rintro p ⟨r, hr, -, rfl⟩
    exact List.mem_map_of_mem hr
  have hle := h.linked.length_le howner
  rwa [List.length_map] at hle

theorem Table.eq_of_id {t : Table} {r r' : Record} (h : r ∈ t.recs) (h' : r' ∈ t.recs)
    (hid : r.id = r'.id) : r = r' := by
  have hget := Table.get_self h
  rw [hid, Table.get_self h'] at hget
  exact (Option.some.inj hget).symm

/-- An entry that suits no record changes nothing. -/
theorem Loading.skip (h : Loading X t addr es ix)
    (hno : ∀ r ∈ t.recs, r.deprecated = false → c.suits r = false) :
    Loading X t addr (es ++ [c]) ix :=
  { h with
    vec := fun r hr hd => by
      rw [h.vec r hr hd, cachedEntry_concat, hno r hr hd, if_neg Bool.false_ne_true] }

/-- **A put for a record**: it fails for want of memory, or the record has the row. -/
theorem Loading.put (h : Loading X t addr es ix) (hk : 0 < k.dim) (ht : t.recs.length ≤ recordLimit)
    (haddr : Set.InjOn addr {id | id ∈ t.recs.map (·.id)}) (hr : r ∈ t.recs)
    (hd : r.deprecated = false) (hc : c.suits r = true) :
    ∃ res, indexPut X w k ix (addr r.id) c.vec = some res ∧
      (∀ e, res = .error e → e = .nomem ∧ w.NoMemory) ∧
      ∀ ix', res = .ok ix' → Loading X t addr (es ++ [c]) ix' := by
  have hlimit : recordLimit = 65536 := rfl
  have hrows := h.rows_le
  have hlive : Live t addr (addr r.id) := ⟨r, hr, hd, rfl⟩
  have hcap : ∃ cap, (if ix.shelf.embRow (addr r.id) < 0 ∧ ix.shelf.rows.length < 2 ^ 31 - 1 ∧
      ix.shelf.rows.length = ix.cap then growCapacity k.dim ix.cap else some ix.cap) = some cap ∧
      (cap ≤ 16 ∨ cap ≤ 2 * ix.shelf.rows.length) := by
    split
    · next hgrow =>
      refine ⟨_, growCapacity_eq k.small (by omega), ?_⟩
      split <;> omega
    · exact ⟨ix.cap, rfl, h.cap⟩
  obtain ⟨cap, hcap, hbound⟩ := hcap
  rw [indexPut, if_neg (by omega), hcap, Option.map_some]
  generalize hw : (decide (ix.shelf.rows.length = ix.cap) && w.grow ix.shelf.rows.length) = full
  refine ⟨_, rfl, ?_⟩
  by_cases hfull : ix.shelf.embRow (addr r.id) < 0 ∧ full = true
  · have hput : ix.shelf.put X.normal full (addr r.id) c.vec = (ix.shelf, some .nomem) := by
      rw [Shelf.put, if_neg (not_le.2 hfull.1), if_neg (by omega), if_pos hfull.2]
    rw [hput]
    refine ⟨fun e he => ?_, nofun⟩
    cases he
    rw [hfull.2, Bool.and_eq_true_iff] at hw
    exact ⟨rfl, .inr (.inr ⟨_, hw.2⟩)⟩
  · have hroom : ix.shelf.embRow (addr r.id) < 0 →
        ix.shelf.rows.length < 2 ^ 31 - 1 ∧ full = false := fun hn =>
      ⟨by omega, Bool.eq_false_iff.2 fun hf => hfull ⟨hn, hf⟩⟩
    obtain ⟨sh, hput, hlink, hsame, hvec, hemb, hother, hlen⟩ :
        ∃ sh, ix.shelf.put X.normal full (addr r.id) c.vec = (sh, none) ∧ _ :=
      Shelf.put_spec h.linked hlive hroom
    rw [hput]
    refine ⟨nofun, fun ix' he => ?_⟩
    cases he
    refine ⟨hsame.trans h.placed, hlink, fun p hp => ?_, ?_, fun r' hr' hd' => ?_⟩
    · show sh.embRow p < 0
      rw [hemb p fun he => hp (he ▸ hlive)]
      exact h.dead p hp
    · show cap ≤ 16 ∨ cap ≤ 2 * sh.rows.length
      omega
    · show sh.vec (addr r'.id) = _
      rw [cachedEntry_concat]
      by_cases hid : r'.id = r.id
      · obtain rfl := t.eq_of_id hr' hr hid
        rw [hc, if_pos rfl, hvec, Option.map_some]
      · have hne : addr r'.id ≠ addr r.id := fun he =>
          hid (haddr (List.mem_map_of_mem hr') (List.mem_map_of_mem hr) he)
        have hno : c.suits r' = false := by
          rw [CacheEntry.suits, decide_eq_true_eq] at hc
          exact decide_eq_false fun hs => hid (hs.1.symm.trans hc.1)
        rw [hother _ ⟨r', hr', hd', rfl⟩ hne, h.vec r' hr' hd', hno, if_neg Bool.false_ne_true]

/-- **One entry.** -/
theorem Loading.adopt (h : Loading X t addr es ix) (hk : 0 < k.dim)
    (ht : t.recs.length ≤ recordLimit) (haddr : Set.InjOn addr {id | id ∈ t.recs.map (·.id)})
    (c : CacheEntry) :
    ∃ res, Asper.adopt X w k t ix c = some res ∧
      (∀ e, res = .error e → e = .nomem ∧ w.NoMemory) ∧
      ∀ ix', res = .ok ix' → Loading X t addr (es ++ [c]) ix' := by
  unfold Asper.adopt
  cases hget : t.get c.name with
  | none =>
    refine ⟨_, rfl, nofun, fun ix' he => ?_⟩
    cases he
    refine h.skip fun r hr _ => decide_eq_false fun hs => ?_
    rw [hs.1, Table.get_self hr] at hget
    cases hget
  | some r =>
    obtain ⟨hr, hid⟩ := Table.get_eq_some.1 hget
    dsimp only
    split
    · next hskip =>
      refine ⟨_, rfl, nofun, fun ix' he => ?_⟩
      cases he
      refine h.skip fun r' hr' hd' => decide_eq_false fun hs => ?_
      obtain rfl := Table.eq_of_id hr' hr (hs.1.symm.trans hid.symm)
      rcases hskip with hd | hne
      · rw [hd'] at hd
        cases hd
      · exact hne hs.2
    · next hgo =>
      rw [not_or, not_not] at hgo
      rw [h.placed]
      exact h.put hk ht haddr hr (Bool.eq_false_iff.2 hgo.1)
        (decide_eq_true ⟨hid.symm, hgo.2⟩)

/-- **All entries.** -/
theorem Loading.adoptAll (hk : 0 < k.dim) (ht : t.recs.length ≤ recordLimit)
    (haddr : Set.InjOn addr {id | id ∈ t.recs.map (·.id)}) (cs : List CacheEntry) :
    ∀ {es : List CacheEntry} {ix : RowIndex}, Loading X t addr es ix →
      ∃ res, Asper.adoptAll X w k t ix cs = some res ∧
        (∀ e, res = .error e → e = .nomem ∧ w.NoMemory) ∧
        ∀ ix', res = .ok ix' → Loading X t addr (es ++ cs) ix' := by
  induction cs with
  | nil =>
    intro es ix h
    refine ⟨_, rfl, nofun, fun ix' he => ?_⟩
    cases he
    rwa [List.append_nil]
  | cons c cs ih =>
    intro es ix h
    obtain ⟨res, hres, herr, hok⟩ := h.adopt (w := w) hk ht haddr c
    rw [Asper.adoptAll, hres, Option.bind_some]
    cases res with
    | error e => exact ⟨_, rfl, fun e' he => by cases he; exact herr e rfl, nofun⟩
    | ok ix' =>
      obtain ⟨res', hres', herr', hok'⟩ := ih (hok ix' rfl)
      refine ⟨res', hres', herr', fun ix'' he => ?_⟩
      rw [List.append_cons]
      exact hok' ix'' he

/-! ## The places of the records without a row -/

theorem mem_staleOf {sh : Shelf Vec} {i : Nat} : i ∈ staleOf t sh ↔
    ∃ r, t.recs[i]? = some r ∧ r.deprecated = false ∧ sh.embRow (sh.addr r.id) < 0 := by
  rw [staleOf, List.mem_filter, List.mem_range, Option.any_eq_true]
  constructor
  · rintro ⟨-, r, hr, hb⟩
    rw [Bool.and_eq_true, Bool.not_eq_true', decide_eq_true_eq] at hb
    exact ⟨r, hr, hb⟩
  · rintro ⟨r, hr, hd, hn⟩
    refine ⟨(List.getElem?_eq_some_iff.1 hr).1, r, hr, ?_⟩
    rw [hd, decide_eq_true hn]
    rfl

/-- Nothing has a row in a new index. -/
theorem allStale_eq (t : Table) (addr : Bytes → Ref) : allStale t = staleOf t (.init addr) := by
  refine List.filter_congr fun i _ => ?_
  cases t.recs[i]? with
  | none => rfl
  | some r => exact (Bool.and_true _).symm

/-- The object has the row, in its place. -/
def Shelf.Stores {V : Type} (sh : Shelf V) (p : Ref) (v : V) : Prop :=
  0 ≤ sh.embRow p ∧ sh.rows[sh.row p]? = some (p, v)

/-- What a load of the entries leaves: an active record either has the row of an entry of its id and
text or is listed. -/
structure Loaded (X : Vectors) (t : Table) (addr : Bytes → Ref) (es : List CacheEntry)
    (ix : RowIndex) (stale : List Nat) : Prop where
  nodup : stale.Nodup
  active : ∀ i ∈ stale, ∃ r, t.recs[i]? = some r ∧ r.deprecated = false
  cached : ∀ {i : Nat} {r : Record} {c : CacheEntry}, t.recs[i]? = some r → r.deprecated = false →
    cachedEntry es r = some c → ix.shelf.Stores (addr r.id) (X.normal c.vec) ∧ i ∉ stale
  missing : ∀ {i : Nat} {r : Record}, t.recs[i]? = some r → r.deprecated = false →
    cachedEntry es r = none → ix.shelf.embRow (addr r.id) < 0 ∧ i ∈ stale

theorem Loading.loaded (h : Loading X t addr es ix) :
    Loaded X t addr es ix (staleOf t ix.shelf) where
  nodup := List.nodup_range.filter _
  active i hi := by
    obtain ⟨r, hr, hd, -⟩ := mem_staleOf.1 hi
    exact ⟨r, hr, hd⟩
  cached := by
    intro i r c hr hd hc
    have hm := List.mem_of_getElem? hr
    have hv := h.vec r hm hd
    rw [hc, Option.map_some] at hv
    have hst := Shelf.vec_some h.linked ⟨r, hm, hd, rfl⟩ hv
    refine ⟨hst, fun hi => ?_⟩
    obtain ⟨r', hr', -, hn⟩ := mem_staleOf.1 hi
    rw [hr] at hr'
    obtain rfl := Option.some.inj hr'
    rw [h.placed] at hn
    exact absurd hst.1 (not_le.2 hn)
  missing := by
    intro i r hr hd hc
    have hm := List.mem_of_getElem? hr
    have hv := h.vec r hm hd
    rw [hc, Option.map_none, Shelf.vec_isSome h.linked ⟨r, hm, hd, rfl⟩] at hv
    exact ⟨hv, mem_staleOf.2 ⟨r, hr, hd, by rwa [h.placed]⟩⟩

/-- The end of a call. -/
theorem Loading.listed (h : Loading X t addr es ix) (ht : t.recs.length ≤ recordLimit) :
    ∃ res, Asper.listed w t ix (staleOf t ix.shelf) = some res ∧
      (∀ e, res = .error e → e = .nomem ∧ w.NoMemory) ∧
      ∀ ix' stale, res = .ok (ix', stale) → Loaded X t addr es ix' stale := by
  have hlimit : recordLimit = 65536 := rfl
  unfold Asper.listed
  split
  · next hnil =>
    have hstale : staleOf t ix.shelf = [] := by rw [staleOf, hnil]; rfl
    refine ⟨_, rfl, nofun, fun ix' stale he => ?_⟩
    cases he
    exact hstale ▸ h.loaded
  · rw [fits_some (by omega), Option.map_some]
    refine ⟨_, rfl, ?_⟩
    cases hw : w.stale with
    | true =>
      refine ⟨fun e he => ?_, nofun⟩
      cases he
      exact ⟨rfl, .inr (.inl hw)⟩
    | false =>
      refine ⟨nofun, fun ix' stale he => ?_⟩
      cases he
      exact h.loaded

/-! ## One call -/

theorem cacheRead_pos {data : Bytes} (h : cacheRead k data = some (some es)) : 0 < k.dim := by
  unfold cacheRead at h
  split_ifs at h with h1 h2 h3
  · cases h
  · cases h
  · cases h
  · exact Nat.pos_of_ne_zero (not_or.1 h3).1
  · exact Nat.pos_of_ne_zero (not_or.1 h3).1

/-- The entries of a file; none if it is missing or does not fit. -/
def cacheEntries (k : CacheKey) (data : Option Bytes) : List CacheEntry :=
  ((data.bind (cacheRead k)).bind id).getD []

theorem cacheFile_length {d : Disk} {p : Path} : ∀ b ∈ cacheFile w d p, b.length < 2 ^ 64 := by
  intro b hb
  unfold cacheFile at hb
  split at hb
  · split_ifs at hb with hfail
    · cases hb
    · obtain rfl := Option.some.inj hb
      omega
  · cases hb

/-- **One load.** -/
theorem cacheLoad_spec (ht : t.recs.length ≤ recordLimit)
    (haddr : Set.InjOn addr {id | id ∈ t.recs.map (·.id)}) {data : Option Bytes}
    (hdata : ∀ b ∈ data, b.length < 2 ^ 64) :
    ∃ res, cacheLoad X w k t (.init addr) data = some res ∧
      (∀ e, res = .error e → e = .nomem ∧ w.NoMemory) ∧
      ∀ ix stale, res = .ok (ix, stale) → Loaded X t addr (cacheEntries k data) ix stale := by
  have hnone : ∃ res, listed w t (.init addr) (allStale t) = some res ∧
      (∀ e, res = .error e → e = .nomem ∧ w.NoMemory) ∧
      ∀ ix stale, res = .ok (ix, stale) → Loaded X t addr [] ix stale := by
    rw [allStale_eq t addr]
    exact Loading.init.listed ht
  cases data with
  | none => exact hnone
  | some b =>
    obtain ⟨o, ho⟩ := cacheRead_some k (hdata b rfl)
    have hentries : cacheEntries k (some b) = o.getD [] := by
      rw [cacheEntries, Option.bind_some, ho, Option.bind_some, id]
    rw [cacheLoad, hentries, ho, Option.bind_some]
    cases o with
    | none => exact hnone
    | some es =>
      have hsmall := k.small
      dsimp only
      rw [fits_some (by omega), Option.bind_some]
      cases hw : w.vec with
      | true => exact ⟨_, rfl, fun e he => by cases he; exact ⟨rfl, .inl hw⟩, nofun⟩
      | false =>
        rw [if_neg Bool.false_ne_true]
        obtain ⟨res, hres, herr, hok⟩ :=
          Loading.adoptAll (X := X) (w := w) (cacheRead_pos ho) ht haddr es Loading.init
        rw [hres, Option.bind_some]
        cases res with
        | error e => exact ⟨_, rfl, fun e' he => by cases he; exact herr e rfl, nofun⟩
        | ok ix => exact (hok ix rfl).listed ht

/-! ## Saving -/

theorem cacheEntry_some {sh : Shelf Vec} (h : cacheEntry sh r = some c) :
    sh.vec (sh.addr r.id) = some c.vec ∧ uuidToBytes r.id = some c.id ∧ c.hash = contentFnv r := by
  unfold cacheEntry at h
  split_ifs at h with hn
  split at h
  · next hrow hid =>
    obtain rfl := Option.some.inj h
    refine ⟨?_, hid, rfl⟩
    rw [Shelf.vec, if_neg hn, hrow, Option.map_some]
  · cases h

/-- The entry of a record suits it and no other. -/
theorem cacheEntry_suits {sh : Shelf Vec} {r' : Record} (h : cacheEntry sh r = some c)
    (hr : r ∈ t.recs) (hr' : r' ∈ t.recs) (hid : uuidShape isLowerHex r.id = true) :
    c.suits r' = true ↔ r' = r := by
  obtain ⟨-, hraw, hhash⟩ := cacheEntry_some h
  have hname : c.name = r.id := uuidFromBytes_toBytes hid hraw
  constructor
  · intro hs
    have hs := of_decide_eq_true hs
    exact Table.eq_of_id hr' hr (hs.1.symm.trans hname)
  · rintro rfl
    exact decide_eq_true ⟨hname, hhash⟩

/-- The entry that a record gets back is the one that it was saved with. -/
theorem cachedEntry_saved {sh : Shelf Vec} (hr : r ∈ t.recs)
    (hid : ∀ r ∈ t.recs, uuidShape isLowerHex r.id = true) :
    cachedEntry (t.recs.filterMap (cacheEntry sh)) r = cacheEntry sh r := by
  cases hc : cacheEntry sh r with
  | none =>
    refine List.find?_eq_none.2 fun c hm hs => ?_
    obtain ⟨r', hr', hc'⟩ := List.mem_filterMap.1 (List.mem_reverse.1 hm)
    rw [(cacheEntry_suits hc' hr' hr (hid r' hr')).1 hs, hc'] at hc
    cases hc
  | some c =>
    have hm : c ∈ t.recs.filterMap (cacheEntry sh) := List.mem_filterMap.2 ⟨r, hr, hc⟩
    have hs : c.suits r = true := (cacheEntry_suits hc hr hr (hid r hr)).2 rfl
    cases hf : cachedEntry (t.recs.filterMap (cacheEntry sh)) r with
    | none => exact absurd hs (cachedEntry_none hf c hm)
    | some c' =>
      obtain ⟨hm', hs'⟩ := cachedEntry_some hf
      obtain ⟨r', hr', hc'⟩ := List.mem_filterMap.1 hm'
      rw [← (cacheEntry_suits hc' hr' hr (hid r' hr')).1 hs', hc] at hc'
      exact hc'.symm

theorem cacheEntry_sized {sh : Shelf Vec} (hrows : ∀ x ∈ sh.rows, x.2.length = k.dim) :
    ∀ c ∈ t.recs.filterMap (cacheEntry sh), c.Sized k.dim := by
  intro c hc
  obtain ⟨r, -, hc⟩ := List.mem_filterMap.1 hc
  obtain ⟨hvec, hraw, hhash⟩ := cacheEntry_some hc
  refine ⟨uuidToBytes_length hraw, hhash ▸ (fnv1a64 r.content).toNat_lt, ?_⟩
  unfold Shelf.vec at hvec
  split_ifs at hvec
  obtain ⟨x, hx, hxv⟩ := Option.map_eq_some_iff.1 hvec
  rw [← hxv]
  exact hrows x (List.mem_of_getElem? hx)

theorem cacheTemporary_eq (q : Path) (n : Bytes) :
    cacheTemporary (q ++ [n]) = q ++ [n ++ ascii ".tmp"] := ext_concat q n _

/-- After a save the file holds what was saved. -/
theorem asperCacheSave_ok {full : Bool} {sh : Shelf Vec} {q : Path} {n : Bytes} {d : Disk}
    (h : (asperCacheSave full k t sh (q ++ [n])).result d = .ok ()) :
    0 < k.dim ∧ ((asperCacheSave full k t sh (q ++ [n])).final d).find (q ++ [n]) =
      .found (.file (cacheSave k t sh)) := by
  by_cases h0 : 0 < k.dim
  swap
  · rw [Act.result, asperCacheSave, require_bind_fail h0] at h
    cases h
  by_cases hfull : full = false
  swap
  · rw [Act.result, asperCacheSave, require_bind h0, require_bind_fail hfull] at h
    cases h
  have hne : q ++ [n ++ ascii ".tmp"] ≠ q ++ [n] := fun he => by
    have hlen := congrArg List.length (List.singleton_inj.1 (List.append_cancel_left he))
    rw [List.length_append] at hlen
    exact absurd hlen (by simp [ascii])
  refine ⟨h0, ?_⟩
  rw [Act.result, asperCacheSave, require_bind h0, require_bind hfull, cacheTemporary_eq] at h
  rw [Act.final, Act.writes, asperCacheSave, require_bind h0, require_bind hfull, cacheTemporary_eq]
  generalize hm : writeReplace (q ++ [n ++ ascii ".tmp"]) (q ++ [n]) (cacheSave k t sh) = m at h ⊢
  rw [Act.bind_run (Act.attempt_run rfl)] at h ⊢
  cases hr : m.result d with
  | error e =>
    rw [Act.result] at hr
    rw [hr] at h
    cases h
  | ok u =>
    have hfound := writeReplace_ok hne (hm ▸ hr)
    rw [hm] at hfound
    rw [Act.result] at hr
    rw [hr]
    show (applyAll ((m d).writes ++ []) d).find (q ++ [n]) = _
    rw [List.append_nil]
    exact hfound

/-- **A save and a load**: a record whose entry was saved has the row that the index makes of it. -/
theorem cache_round_trip {full : Bool} {sh : Shelf Vec} {q : Path} {n : Bytes} {d : Disk}
    {stale : List Nat} (ht : t.recs.length ≤ recordLimit)
    (haddr : Set.InjOn addr {id | id ∈ t.recs.map (·.id)}) (hk : k.hash.isSome = true)
    (hrows : ∀ x ∈ sh.rows, x.2.length = k.dim) (hread : w.read = false)
    (hsave : (asperCacheSave full k t sh (q ++ [n])).result d = .ok ())
    (hload : asperCacheLoad X w k t (.init addr)
      ((asperCacheSave full k t sh (q ++ [n])).final d) (q ++ [n]) = some (.ok (ix, stale))) :
    Loaded X t addr (t.recs.filterMap (cacheEntry sh)) ix stale := by
  obtain ⟨hash, hhash⟩ := Option.isSome_iff_exists.1 hk
  obtain ⟨h0, hfile⟩ := asperCacheSave_ok hsave
  have hsmall := k.small
  have hlimit : recordLimit = 65536 := rfl
  have hsized := cacheEntry_sized (t := t) hrows
  have hn : (t.recs.filterMap (cacheEntry sh)).length ≤ recordLimit :=
    (List.length_filterMap_le _ _).trans ht
  have hprod : (t.recs.filterMap (cacheEntry sh)).length * (24 + k.dim * 4) ≤
      65536 * (24 + 2 ^ 31 * 4) := Nat.mul_le_mul hn (by omega)
  have hlen : (cacheSave k t sh).length < 2 ^ 63 - 1 := by
    rw [cacheSave, cacheBytes_length k hsized]
    omega
  have hdata : cacheFile w ((asperCacheSave full k t sh (q ++ [n])).final d) (q ++ [n]) =
      some (cacheSave k t sh) := by
    rw [cacheFile, hfile]
    exact if_neg (not_or.2 ⟨by rw [hread]; exact Bool.false_ne_true, by omega⟩)
  obtain ⟨res, hres, -, hok⟩ : ∃ res, cacheLoad X w k t (.init addr) (some (cacheSave k t sh)) =
      some res ∧ _ := cacheLoad_spec ht haddr fun b hb => by
    obtain rfl := Option.some.inj hb
    omega
  rw [asperCacheLoad, hdata, hres] at hload
  have hloaded := hok ix stale (Option.some.inj hload)
  rwa [cacheEntries, Option.bind_some, cacheSave, cacheRead_bytes hhash h0 hn hsized,
    Option.bind_some] at hloaded

end

/-! ## The cache -/

/-- **The cache is sound.** A load of any bytes computes no size that overflows and fails for want of
memory only; it gives each active record the row of an entry of its id and text or lists it, never
both. After a save, a load gives the records with a row the row that the index makes of it and lists
none of them. -/
theorem cache_sound (X : Vectors) (k : CacheKey) (t : Table) (addr : Bytes → Ref) (q : Path)
    (n : Bytes) (ht : t.recs.length ≤ recordLimit)
    (haddr : Set.InjOn addr {id | id ∈ t.recs.map (·.id)}) :
    (∀ (w : CacheFaults) (d : Disk),
      ∃ res, asperCacheLoad X w k t (.init addr) d (q ++ [n]) = some res ∧
        (∀ e, res = .error e → e = .nomem ∧ w.NoMemory) ∧
        ∀ ix stale, res = .ok (ix, stale) → stale.Nodup ∧
          (∀ i ∈ stale, ∃ r, t.recs[i]? = some r ∧ r.deprecated = false) ∧
          ∀ i r, t.recs[i]? = some r → r.deprecated = false →
            (∃ c ∈ cacheEntries k (cacheFile w d (q ++ [n])), c.name = r.id ∧
              c.hash = contentFnv r ∧ ix.shelf.Stores (addr r.id) (X.normal c.vec) ∧ i ∉ stale) ∨
            ix.shelf.embRow (addr r.id) < 0 ∧ i ∈ stale) ∧
    (k.hash.isSome = true → (∀ r ∈ t.recs, uuidShape isLowerHex r.id = true) →
      ∀ (w : CacheFaults) (d : Disk) (full : Bool) (sh : Shelf Vec) (ix : RowIndex)
        (stale : List Nat), (∀ x ∈ sh.rows, x.2.length = k.dim) → w.read = false →
        (asperCacheSave full k t sh (q ++ [n])).result d = .ok () →
        asperCacheLoad X w k t (.init addr) ((asperCacheSave full k t sh (q ++ [n])).final d)
          (q ++ [n]) = some (.ok (ix, stale)) →
        ∀ i r v, t.recs[i]? = some r → r.deprecated = false → sh.vec (sh.addr r.id) = some v →
          ix.shelf.Stores (addr r.id) (X.normal v) ∧ i ∉ stale) := by
  constructor
  · intro w d
    obtain ⟨res, hres, herr, hok⟩ :=
      cacheLoad_spec (X := X) (w := w) (k := k) ht haddr (cacheFile_length (p := q ++ [n]) (d := d))
    refine ⟨res, hres, herr, fun ix stale he => ?_⟩
    have h := hok ix stale he
    refine ⟨h.nodup, h.active, fun i r hr hd => ?_⟩
    cases hc : cachedEntry (cacheEntries k (cacheFile w d (q ++ [n]))) r with
    | none => exact .inr (h.missing hr hd hc)
    | some c =>
      obtain ⟨hm, hs⟩ := cachedEntry_some hc
      have hs := of_decide_eq_true hs
      exact .inl ⟨c, hm, hs.1, hs.2, h.cached hr hd hc⟩
  · intro hk hid w d full sh ix stale hrows hread hsave hload i r v hr hd hv
    have h := cache_round_trip ht haddr hk hrows hread hsave hload
    have hm := List.mem_of_getElem? hr
    have hentry : ∃ c, cacheEntry sh r = some c ∧ c.vec = v := by
      have hraw : uuidToBytes r.id = some (hexPairs r.id) := if_pos (Uuid.valid ⟨_, hid r hm⟩)
      unfold Shelf.vec at hv
      split_ifs at hv with hn
      obtain ⟨⟨p, x⟩, hx, rfl⟩ := Option.map_eq_some_iff.1 hv
      refine ⟨⟨hexPairs r.id, contentFnv r, x⟩, ?_, rfl⟩
      rw [cacheEntry, if_neg hn, hx, hraw]
    obtain ⟨c, hc, rfl⟩ := hentry
    exact h.cached hr hd ((cachedEntry_saved hm hid).trans hc)

/-! ## A row that changes -/

theorem sqrtDouble_eq {q : ℚ} {e : Int} {n s : Nat} (he : rootUnit q = e)
    (hn : ⌊q / 4 ^ e⌋₊ = n) (hs : s * s ≤ n) (hs' : n < (s + 1) * (s + 1))
    (hd : ¬ ((s : ℚ) + 1 / 2) ^ 2 < q / 4 ^ e) : sqrtDouble q = s * 2 ^ e := by
  have hsqrt : Nat.sqrt n = s := (Nat.eq_sqrt.2 ⟨hs, hs'⟩).symm
  unfold sqrtDouble
  rw [he, hn, hsqrt]
  dsimp only
  rw [if_neg hd]

/-- The vector (11, 37). -/
def plainVec : Vec := [0x41300000, 0x42140000]

/-- The row that is made of it. -/
def firstRow : Vec := [0x3e91e79f, 0x3f7562a3]

/-- The row that is made of that row. -/
def secondRow : Vec := [0x3e91e79f, 0x3f7562a4]

theorem indexWriteRow_plain (nan : UInt32) : indexWriteRow nan plainVec = firstRow := by
  have hs : squares plainVec = 1490 := by decide +kernel
  have hroot : sqrtDouble 1490 = ((5432539971004674 : Nat) : ℚ) * 2 ^ (-47 : Int) :=
    sqrtDouble_eq (n := 29512490536563465753595121500160) (by decide +kernel) (by decide +kernel)
      (by decide) (by decide) (by decide +kernel)
  have hn : plainVec.any floatNan = false := by decide
  have hi : plainVec.any floatInf = false := by decide
  rw [indexWriteRow, hn, hi, hs, hroot, if_neg Bool.false_ne_true, if_neg Bool.false_ne_true]
  decide +kernel

/-- The squares of the row do not add up to one. -/
theorem indexWriteRow_first (nan : UInt32) : indexWriteRow nan firstRow = secondRow := by
  have hs : squares firstRow = 1125899834172389 / 1125899906842624 := by decide +kernel
  have hroot : sqrtDouble (1125899834172389 / 1125899906842624) =
      ((9007198964060047 : Nat) : ℚ) * 2 ^ (-53 : Int) :=
    sqrtDouble_eq (n := 81129633178164389424966982959104) (by decide +kernel) (by decide +kernel)
      (by decide) (by decide) (by decide +kernel)
  have hn : firstRow.any floatNan = false := by decide
  have hi : firstRow.any floatInf = false := by decide
  rw [indexWriteRow, hn, hi, hs, hroot, if_neg Bool.false_ne_true, if_neg Bool.false_ne_true]
  decide +kernel

def cachedRecord : Record where
  id := (uuidV4 fun _ => 0).val
  section_ := .context
  project := none
  content := ascii "a"
  source := .manual
  evidence := ⟨.observed, .unknown, 0, 0, 0, [], [], []⟩
  createdAt := 1
  updatedAt := 1
  lastAccess := 1
  accessCount := 0
  relevance := 1
  locked := false
  deprecated := false
  deprecatedAt := 0
  tags := []
  sourceRefs := []

def cachedTable : Table :=
  ⟨[cachedRecord], List.nodup_singleton _, fun _ hx => List.mem_singleton.1 hx ▸ (by decide)⟩

def pairKey : CacheKey :=
  ⟨2, some (List.replicate 32 0), by decide, fun _ h => Option.some.inj h ▸ List.length_replicate ..⟩

def zeroVectors : Vectors := ⟨fun m _ => List.replicate m.dim 0, 0, fun _ _ => List.length_replicate ..⟩

def noFaults : CacheFaults := ⟨false, false, false, fun _ => false⟩

/-- The index after the vector (11, 37) was put. -/
def firstShelf : Shelf Vec := ((Shelf.init fun _ => 0).put zeroVectors.normal false 0 plainVec).1

def bareDisk : Disk := fun _ => none

def cacheName : Bytes := ascii "embeddings.bin"

/-- The disk after the index was saved. -/
def savedDisk : Disk :=
  (asperCacheSave false pairKey cachedTable firstShelf ([] ++ [cacheName])).final bareDisk

theorem cachedTable_small : cachedTable.recs.length ≤ recordLimit := by decide

theorem cachedTable_apart :
    Set.InjOn (fun _ => 0 : Bytes → Ref) {id | id ∈ cachedTable.recs.map (·.id)} := by
  intro a ha b hb _
  exact (List.mem_singleton.1 ha).trans (List.mem_singleton.1 hb).symm

theorem cachedTable_lower : ∀ r ∈ cachedTable.recs, uuidShape isLowerHex r.id = true := by
  intro r hr
  rw [List.mem_singleton.1 hr]
  exact (uuidV4 fun _ => 0).2

theorem firstShelf_vec : firstShelf.vec 0 = some firstRow := by
  have hrow : zeroVectors.normal plainVec = firstRow := indexWriteRow_plain 0
  show some (zeroVectors.normal plainVec) = _
  rw [hrow]

theorem firstShelf_dim : ∀ x ∈ firstShelf.rows, x.2.length = pairKey.dim := by
  intro x hx
  have hrow : zeroVectors.normal plainVec = firstRow := indexWriteRow_plain 0
  have hx : x ∈ [((0 : Ref), zeroVectors.normal plainVec)] := hx
  rw [List.mem_singleton.1 hx, hrow]
  rfl

theorem firstShelf_saved :
    (asperCacheSave false pairKey cachedTable firstShelf ([] ++ [cacheName])).result bareDisk =
      .ok () := by
  rfl

theorem savedDisk_load : ∃ ix stale,
    asperCacheLoad zeroVectors noFaults pairKey cachedTable (.init fun _ => 0) savedDisk
      ([] ++ [cacheName]) = some (.ok (ix, stale)) := by
  obtain ⟨res, hres, herr, -⟩ : ∃ res, cacheLoad zeroVectors noFaults pairKey cachedTable
      (.init fun _ => 0) (cacheFile noFaults savedDisk ([] ++ [cacheName])) = some res ∧ _ :=
    cacheLoad_spec cachedTable_small cachedTable_apart cacheFile_length
  cases res with
  | ok x => exact ⟨x.1, x.2, hres⟩
  | error e =>
    obtain ⟨-, hw | hs | ⟨n, hg⟩⟩ := herr e rfl
    · cases hw
    · cases hs
    · cases hg

/-- A save and a load change a row. -/
theorem cache_row_changes : ∃ ix stale,
    (asperCacheSave false pairKey cachedTable firstShelf ([] ++ [cacheName])).result bareDisk =
      .ok () ∧
    asperCacheLoad zeroVectors noFaults pairKey cachedTable (.init fun _ => 0) savedDisk
      ([] ++ [cacheName]) = some (.ok (ix, stale)) ∧
    firstShelf.vec 0 = some firstRow ∧ ix.shelf.Stores 0 secondRow ∧ firstRow ≠ secondRow := by
  obtain ⟨ix, stale, hload⟩ := savedDisk_load
  have hloaded := cache_round_trip cachedTable_small cachedTable_apart rfl firstShelf_dim rfl
    firstShelf_saved hload
  have hentry : ∃ c, cacheEntry firstShelf cachedRecord = some c ∧ c.vec = firstRow := by
    have hrow : zeroVectors.normal plainVec = firstRow := indexWriteRow_plain 0
    exact ⟨⟨hexPairs cachedRecord.id, contentFnv cachedRecord, zeroVectors.normal plainVec⟩, rfl,
      hrow⟩
  obtain ⟨c, hc, hvec⟩ := hentry
  have hstored := (hloaded.cached (i := 0) (r := cachedRecord) rfl rfl
    ((cachedEntry_saved List.mem_cons_self cachedTable_lower).trans hc)).1
  rw [hvec, Vectors.normal, indexWriteRow_first] at hstored
  exact ⟨ix, stale, firstShelf_saved, hload, firstShelf_vec, hstored, by decide⟩

/-- The same run: the row is the one that the index makes of the row that was saved. -/
theorem cache_sound_pair : ∃ ix stale,
    asperCacheLoad zeroVectors noFaults pairKey cachedTable (.init fun _ => 0) savedDisk
      ([] ++ [cacheName]) = some (.ok (ix, stale)) ∧
    ix.shelf.Stores 0 (zeroVectors.normal firstRow) ∧ 0 ∉ stale := by
  obtain ⟨ix, stale, hload⟩ := savedDisk_load
  exact ⟨ix, stale, hload, (cache_sound zeroVectors pairKey cachedTable (fun _ => 0) [] cacheName
    cachedTable_small cachedTable_apart).2 rfl cachedTable_lower noFaults bareDisk false firstShelf
    ix stale firstShelf_dim rfl firstShelf_saved hload 0 cachedRecord firstRow rfl rfl
    firstShelf_vec⟩

end Asper
