import Mathlib.Tactic
import K4c.Hash.CommonCalls
import K4c.Hash.Keys
import K4c.Hash.Table

/-!
# What the table calls do

A table in memory is its entries, up to their order: `Lies` says that every entry
is in the bucket of its hash and has its hash stored with it, and that `size` counts
the entries.  Each call is specified on the entries, on every allocator of the block
memory and for every answer of it, and for whatever comparison of the keys.

* `find_spec` — a search finds an entry that it takes for the key, if there is one.
* `reserve_spec`, `makeRoom_spec` — growing fails or succeeds with the same
  entries.
* `addEntry_spec`, `remove_spec`, `overwritten` — one entry more, one less, and one
  with another value.
* `Holds` — where equality of keys is an equivalence that respects the hashes, no two
  keys are equal; `Holds.kept`, `Holds.less`, `Holds.more`, `Holds.replaced` keep it.
* `Lies.erased` — the entries as a finite map, after a removal.
-/

namespace K4c

open Exec Bytes Blocks Rows HashCommon
open scoped List

/-- The key of an entry: its first `n` bytes. -/
def Entry.key (n : ℕ) (e : Entry) : List UInt8 := slice e.data 0 n

/-- The hash of the key of an entry. -/
def Entry.hash (n : ℕ) (e : Entry) : ℕ := fnv1aHash (e.key n)

namespace Table

/-! ## Tables in memory -/

/-- The comparison of the keys of a table. -/
def equal (t : Table) (x y : List UInt8) : Bool := valueEq x y t.keyEq

/-- The entries of a table. -/
def entries (t : Table) (rows : ℕ → List Entry) : List Entry := flat rows t.capacity

/-- The blocks of a table: its handle, its bucket array and its entries. -/
def owned (t : Table) (rows : ℕ → List Entry) : List ℕ :=
  t.self :: blocks t.buckets t.capacity rows

/-- The table lies in the memory, with these lists of entries, which have `n` bytes
of data each. -/
structure Holds [Platform] (t : Table) (n : ℕ) (w : Memory) (rows : ℕ → List Entry) : Prop where
  backed : Backed t.allocator
  handle : w.Live t.self
  apart : t.self ∉ blocks t.buckets t.capacity rows
  arrayed : Arrayed (sizeofEntry + n) (Entry.hash t.keySize) w t.buckets t.capacity rows
  placed : Placed (Entry.hash t.keySize) t.capacity rows
  distinct : Apart (fun d e => t.equal (d.key t.keySize) (e.key t.keySize) = true)
    (t.entries rows)
  size : t.size = (t.entries rows).length
  data : ∀ e ∈ t.entries rows, e.data.length = n
  key_pos : 0 < t.keySize
  key_le : t.keySize ≤ n
  cap_pos : 0 < t.capacity
  fits : sizeofBucket * t.capacity ≤ sizeMax
  equal : KeyEquivalence t.keySize t.equal

/-- The table lies in the memory, for whatever comparison of its keys. -/
structure Lies [Platform] (t : Table) (n : ℕ) (w : Memory) (rows : ℕ → List Entry) : Prop where
  backed : Backed t.allocator
  handle : w.Live t.self
  apart : t.self ∉ blocks t.buckets t.capacity rows
  arrayed : Arrayed (sizeofEntry + n) (Entry.hash t.keySize) w t.buckets t.capacity rows
  placed : Placed (Entry.hash t.keySize) t.capacity rows
  size : t.size = (t.entries rows).length
  data : ∀ e ∈ t.entries rows, e.data.length = n
  key_pos : 0 < t.keySize
  key_le : t.keySize ≤ n
  cap_pos : 0 < t.capacity
  fits : sizeofBucket * t.capacity ≤ sizeMax

/-- An entry that a search takes for the key: the hashes are equal and then the keys. -/
def found (t : Table) (k : List UInt8) (e : Entry) : Bool :=
  decide (e.hash t.keySize = fnv1aHash k) && t.equal (e.key t.keySize) k

/-- The capacity is a power of two from 16 on, and the entries load it by at most three
quarters. -/
structure Loaded (t : Table) : Prop where
  power : ∃ k, t.capacity = defaultCapacity * 2 ^ k
  load : 4 * t.size ≤ 3 * t.capacity

/-- A capacity that a table can be given: three times it and the size of its bucket array
can be computed. -/
def Capacity (c : ℕ) : Prop :=
  (∃ k, c = defaultCapacity * 2 ^ k) ∧ 3 * c ≤ sizeMax ∧ c * sizeofBucket ≤ sizeMax

/-- What a call keeps of the record, and what it does to the blocks. -/
structure Changed (t t' : Table) (rows rows' : ℕ → List Entry) (w w' : Memory) : Prop where
  self : t'.self = t.self
  keySize : t'.keySize = t.keySize
  keyEq : t'.keyEq = t.keyEq
  allocator : t'.allocator = t.allocator
  loaded : t.Loaded → t'.Loaded
  exchange : Exchange (Reclaims t.allocator) (t.owned rows) (t'.owned rows') w w'

variable {t t' t'' : Table} {n n' : ℕ} {w w' w'' : Memory}
  {rows rows' rows'' : ℕ → List Entry} {k : List UInt8} {d e : Entry}

theorem Changed.trans (h : Changed t t' rows rows' w w')
    (h' : Changed t' t'' rows' rows'' w' w'') : Changed t t'' rows rows'' w w'' where
  self := h'.self.trans h.self
  keySize := h'.keySize.trans h.keySize
  keyEq := h'.keyEq.trans h.keyEq
  allocator := h'.allocator.trans h.allocator
  loaded hl := h'.loaded (h.loaded hl)
  exchange := h.exchange.trans (h.allocator ▸ h'.exchange)

/-- What a query for the key is for. -/
theorem hits_eq (hk : k.length = t.keySize) :
    (t.query k (fnv1aHash k)).hits (Entry.hash t.keySize) e = t.found k e := by
  rw [Query.hits]
  change (_ && valueEq (slice e.data 0 k.length) k t.keyEq) = _
  rw [hk]
  rfl

theorem hash_of_found (h : t.found k e = true) : e.hash t.keySize = fnv1aHash k := by
  rw [found, Bool.and_eq_true, decide_eq_true_iff] at h
  exact h.1

theorem equal_of_found (h : t.found k e = true) : t.equal (e.key t.keySize) k = true := by
  rw [found, Bool.and_eq_true] at h
  exact h.2

/-- The entries of lists that are changed one by one. -/
theorem entries_map (f : Entry → Entry) :
    t.entries (fun i => (rows i).map f) = (t.entries rows).map f := by
  rw [entries, entries, flat, flat, List.map_flatMap]

/-- The entry that lies in the block gets other data. -/
def withData (p : ℕ) (data : List UInt8) (d : Entry) : Entry :=
  if d.block = p then ⟨p, data⟩ else d

theorem withData_block (p : ℕ) (data : List UInt8) (d : Entry) :
    (withData p data d).block = d.block := by
  rw [withData]
  split
  · exact Eq.symm ‹_›
  · rfl

theorem withData_self (data : List UInt8) : withData e.block data e = ⟨e.block, data⟩ := if_pos rfl

theorem withData_of_ne {p : ℕ} (data : List UInt8) (hne : d.block ≠ p) : withData p data d = d :=
  if_neg hne

/-- The hashes that are stored after other data were written to `e`: with it, still the one
of its old key. -/
def staleHash (n : ℕ) (e d : Entry) : ℕ := if d.block = e.block then e.hash n else d.hash n

theorem staleHash_of_eq (h : d.block = e.block) : staleHash n e d = e.hash n := if_pos h

theorem staleHash_of_ne (h : d.block ≠ e.block) : staleHash n e d = d.hash n := if_neg h

variable [Platform]

namespace Lies

theorem live (h : Lies t n w rows) : ∀ p ∈ t.owned rows, w.Live p := by
  intro p hp
  rcases List.mem_cons.1 hp with rfl | hp
  · exact h.handle
  · exact h.arrayed.blocks_live p hp

theorem length_key (h : Lies t n w rows) (he : e ∈ t.entries rows) :
    (e.key t.keySize).length = t.keySize :=
  length_slice (by rw [h.data e he, Nat.zero_add]; exact h.key_le)

/-- The data of an entry can be read. -/
theorem read (h : Lies t n w rows) (he : e ∈ t.entries rows) {off len : ℕ} (hle : off + len ≤ n) :
    w.read e.block off len = .ok (slice e.data off len) := by
  obtain ⟨next, hcell⟩ := h.arrayed.cell he
  apply Memory.read_reach hcell rfl
  rw [h.data e he]
  exact hle

theorem read_key (h : Lies t n w rows) (he : e ∈ t.entries rows) :
    w.read e.block 0 t.keySize = .ok (e.key t.keySize) :=
  h.read he (by rw [Nat.zero_add]; exact h.key_le)

/-- In a memory in which the blocks of the table are as they were. -/
theorem frame (h : Lies t n w rows) (hsame : ∀ p ∈ t.owned rows, w'.cells p = w.cells p) :
    Lies t n w' rows :=
  { h with
    handle := by
      rw [Mem.Live, hsame t.self (by simp [owned])]
      exact h.handle
    arrayed := h.arrayed.frame (hsame _ (by simp [owned, blocks])) fun e he =>
      hsame _ (List.mem_cons_of_mem _ (List.mem_cons_of_mem _ (List.mem_map_of_mem he))) }

theorem same (h : Lies t n w rows) (hcells : w'.cells = w.cells) : Lies t n w' rows :=
  h.frame fun _ _ => by rw [hcells]

theorem changed_same (h : Lies t n w rows) (hcells : w'.cells = w.cells) :
    Changed t t rows rows w w' :=
  ⟨rfl, rfl, rfl, rfl, id, .same h.live hcells⟩

/-- The table with other lists of the same entries. -/
theorem regrouped (h : Lies t n w rows) (ht : t'.self = t.self ∧ t'.size = t.size ∧
      t'.keySize = t.keySize ∧ t'.keyEq = t.keyEq ∧ t'.allocator = t.allocator)
    (hperm : t'.entries rows' ~ t.entries rows) (hself : w'.Live t'.self)
    (hapart : t'.self ∉ blocks t'.buckets t'.capacity rows')
    (harrayed : Arrayed (sizeofEntry + n) (Entry.hash t.keySize) w' t'.buckets t'.capacity rows')
    (hplaced : Placed (Entry.hash t.keySize) t'.capacity rows') (hpos : 0 < t'.capacity)
    (hfits : sizeofBucket * t'.capacity ≤ sizeMax) : Lies t' n w' rows' := by
  obtain ⟨self, size, keySize, capacity, buckets, keyEq, allocator⟩ := t'
  obtain ⟨rfl, rfl, rfl, rfl, rfl⟩ := ht
  exact
    { backed := h.backed
      handle := hself
      apart := hapart
      arrayed := harrayed
      placed := hplaced
      size := h.size.trans hperm.length_eq.symm
      data := fun e he => h.data e (hperm.mem_iff.1 he)
      key_pos := h.key_pos
      key_le := h.key_le
      cap_pos := hpos
      fits := hfits }

end Lies

/-! ## Construction and destruction -/

/-- **Creating a table** fails with everything it allocated released, or gives a
table without entries. -/
theorem create_spec {handleSize keySize : ℕ} {keyEq : Option (List UInt8 → List UInt8 → Bool)}
    {allocator : Option (Allocator Memory)} (hbacked : Backed (Allocator.copy allocator))
    (hkey : 0 < keySize) (hdata : keySize ≤ n) (w : Memory) :
    ∃ st out w', create handleSize keySize keyEq allocator w = .ok ((st, out), w') ∧
      Creates (Reclaims (Allocator.copy allocator)) w (fun t => t.owned fun _ => [])
        (fun t w' => Lies t n w' (fun _ => []) ∧ t.keySize = keySize ∧ t.keyEq = keyEq ∧
          t.allocator = Allocator.copy allocator ∧ t.Loaded) st out w' := by
  have hcap : 0 < defaultCapacity := by decide
  obtain ⟨st, out, w', hcreate, hres⟩ :=
    createOwner_spec (n := handleSize) (r := some (Allocator.copy allocator))
      (f := fun copy w => bucketsCreate defaultCapacity copy w) (o := fun p => [p])
      (Q := fun p w' => sizeofBucket * defaultCapacity ≤ sizeMax ∧
        Arrayed (sizeofEntry + n) (Entry.hash keySize) w' p defaultCapacity fun _ => [])
      hbacked rfl (fun w => by
        obtain ⟨st, p, w', hbuckets, hres⟩ := bucketsCreate_spec (sizeofEntry + n)
          (Entry.hash keySize) hbacked hcap w
        refine ⟨st, p, w', hbuckets, ?_⟩
        rcases hres with hrefused | ⟨rfl, hfits, hx, harray⟩
        · exact .inl ⟨hrefused.ne_ok, .same (by simp) hrefused.cells⟩
        · exact .inr ⟨rfl, hx, hfits, harray⟩) w
  rw [create, hcreate, ok_bind]
  refine ⟨_, _, _, rfl, ?_⟩
  rcases hres with ⟨hst, rfl, hx⟩ | ⟨rfl, ⟨self, buckets⟩, rfl, hx, ⟨hfits, harray⟩, hapart⟩
  · exact .inl ⟨hst, rfl, hx⟩
  · have hnone : flat (fun _ => ([] : List Entry)) defaultCapacity = [] := flat_empty _
    have hblocks : blocks buckets defaultCapacity (fun _ => []) = [buckets] := by
      rw [blocks, hnone, List.map_nil]
    refine .inr ⟨rfl, _, rfl, ?_, ⟨?_, rfl, rfl, rfl, ⟨0, rfl⟩, Nat.zero_le _⟩⟩
    · change Exchange _ [] (self :: blocks buckets defaultCapacity fun _ => []) w w'
      rw [hblocks]
      exact hx
    · exact
        { backed := hbacked
          handle := hx.held _ (by simp)
          apart := by rw [hblocks]; exact hapart
          arrayed := harray
          placed := fun _ _ _ he => by cases he
          size := by rw [entries, hnone]; rfl
          data := fun e he => by rw [entries, hnone] at he; cases he
          key_pos := hkey
          key_le := hdata
          cap_pos := hcap
          fits := hfits }

/-- **Destroying a table** releases all its blocks. -/
theorem destroy_spec (h : Lies t n w rows) :
    ∃ w', destroy t w = .ok w' ∧ Exchange (Reclaims t.allocator) (t.owned rows) [] w w' := by
  obtain ⟨w₁, hdestroy, hx⟩ :=
    bucketsDestroy_spec (d := entryDestroy t.allocator) h.backed (fun _ _ => rfl) h.arrayed
  have hframe := hx.frame (r := [t.self]) (by simpa using h.handle) (by simpa using h.apart)
  obtain ⟨w₂, hdealloc, hcells₂⟩ :=
    Allocator.dealloc_spec h.backed (hframe.held t.self (by simp))
  refine ⟨w₂, by rw [destroy, hdestroy, ok_bind, hdealloc], ?_⟩
  exact hframe.trans (.drop (by simp) (by simp) hcells₂)

/-! ## Growing -/

/-- **Another bucket array** is refused, or gets the same entries. -/
theorem rehash_spec (h : Lies t n w rows) {c : ℕ} (hc : 0 < c) :
    ∃ st p w', bucketsRehash t.buckets t.capacity c t.allocator entryHash w =
        .ok ((st, p), w') ∧
      (Refused c st w w' ∨ (st = .ok ∧ sizeofBucket * c ≤ sizeMax ∧ ∃ rows',
        Lies { t with buckets := p, capacity := c } n w' rows' ∧ flat rows' c ~ t.entries rows ∧
        Exchange (Reclaims t.allocator) (t.owned rows)
          (owned { t with buckets := p, capacity := c } rows') w w')) := by
  obtain ⟨st, p, w', hrehash, hres⟩ := bucketsRehash_spec h.backed
    (fun _ _ => rfl : ∀ w node, entryHash w node = w.entryHash node) h.cap_pos hc h.arrayed
  refine ⟨st, p, w', hrehash, ?_⟩
  rcases hres with hrefused | ⟨rfl, hfits, rows', harrayed, hplaced, hperm, hx⟩
  · exact .inl hrefused
  have hframe := hx.frame (r := [t.self]) (by simpa using h.handle) (by simpa using h.apart)
  refine .inr ⟨rfl, hfits, rows', ?_, hperm, hframe⟩
  obtain ⟨cell, hcell⟩ := Mem.live_iff.1 h.handle
  exact h.regrouped ⟨rfl, rfl, rfl, rfl, rfl⟩ hperm (hframe.held t.self (by simp))
    (hx.others t.self cell hcell h.apart).2 harrayed hplaced hc hfits

/-- **Reserving** fails without an effect, or gives a table with the same entries
that is large enough.  It overflows when no table can be. -/
theorem reserve_spec (h : Lies t n w rows) (size : ℕ) :
    ∃ st t' w' rows', reserve t size w = .ok ((st, t'), w') ∧ Lies t' n w' rows' ∧
      t'.size = t.size ∧ t'.entries rows' ~ t.entries rows ∧ Changed t t' rows rows' w w' ∧
      (st = .ok → 4 * size ≤ 3 * t'.capacity) ∧
      (st = .overflow ↔ ∀ c, Capacity c → 3 * c < 4 * size) ∧
      (st = .overflow → t' = t ∧ w' = w) := by
  obtain ⟨⟨st, c⟩, hcapacity, hc⟩ := capacityForSize_spec size
  rw [reserve, hcapacity, ok_bind]
  dsimp only
  rcases hc with ⟨rfl, hload, k, rfl, hsmall⟩ | ⟨rfl, hnone⟩
  swap
  · refine ⟨.overflow, t, w, rows, rfl, h, rfl, .refl _, h.changed_same rfl, nofun, ?_,
      fun _ => ⟨rfl, rfl⟩⟩
    simp only [true_iff]
    rintro c ⟨⟨j, rfl⟩, hthree, -⟩
    exact hnone j hthree
  rw [if_neg (not_not.2 rfl)]
  set c := defaultCapacity * 2 ^ k with hcdef
  -- a capacity that is large enough can be given only when its bucket array can be
  have hcapacity : sizeofBucket * c ≤ sizeMax → ¬ ∀ c, Capacity c → 3 * c < 4 * size := by
    unfold sizeofBucket
    intro hfits hall
    have := hall c ⟨⟨k, rfl⟩, by omega, by unfold sizeofBucket; omega⟩
    omega
  by_cases hle : c ≤ t.capacity
  · rw [if_pos hle]
    refine ⟨_, t, w, rows, rfl, h, rfl, .refl _, h.changed_same rfl, fun _ => by omega, ?_, nofun⟩
    have hfits := hcapacity ((Nat.mul_le_mul_left _ hle).trans h.fits)
    exact ⟨nofun, fun hall => absurd hall hfits⟩
  rw [if_neg hle]
  obtain ⟨st', p, w', hrehash, hres⟩ := rehash_spec h (by omega : 0 < c)
  rw [hrehash, ok_bind]
  rcases hres with hrefused | ⟨rfl, hfits, rows', h', hperm, hx⟩
  · have hne := hrefused.ne_ok
    refine ⟨st', t, w', rows, if_pos hne, h.same hrefused.cells, rfl, .refl _,
      h.changed_same hrefused.cells, fun h' => absurd h' hne, ?_⟩
    rcases hrefused with ⟨rfl, hover, rfl⟩ | ⟨rfl, hfits, -⟩
    · refine ⟨?_, fun _ => ⟨rfl, rfl⟩⟩
      simp only [true_iff]
      rintro c' ⟨⟨j, rfl⟩, -, hfits⟩
      apply hsmall j
      by_contra hjk
      have := capacity_le (not_lt.1 hjk)
      unfold sizeofBucket at hover hfits
      omega
    · exact ⟨⟨nofun, fun hall => absurd hall (hcapacity hfits)⟩, nofun⟩
  · refine ⟨.ok, _, w', rows', rfl, h', rfl, hperm, ⟨rfl, rfl, rfl, rfl, fun hl => ⟨⟨k, rfl⟩, ?_⟩,
      hx⟩, fun _ => hload, ⟨nofun, fun hall => absurd hall (hcapacity hfits)⟩, nofun⟩
    have := hl.load
    dsimp only
    omega

/-- A table with a place for one more entry counts it. -/
theorem Lies.size_lt (h : Lies t n w rows) (hload : 4 * (t.size + 1) ≤ 3 * t.capacity) :
    t.size + 1 ≤ sizeMax := by
  have hfits := h.fits
  unfold sizeofBucket at hfits
  omega

/-- Where there is room for one more entry none is made. -/
theorem makeRoom_eq (h : Lies t n w rows) (hload : 4 * (t.size + 1) ≤ 3 * t.capacity)
    (hash bucket : ℕ) (w' : Memory) :
    makeRoom t hash bucket w' = .ok ((.ok, t, bucket), w') := by
  rw [makeRoom, (shouldGrow_eq_false h.fits).2 hload]
  rfl

/-- **Making room** for one more entry. -/
theorem makeRoom_spec (h : Lies t n w rows) (hash : ℕ) :
    ∃ st t' bucket w' rows', makeRoom t hash (hash % t.capacity) w = .ok ((st, t', bucket), w') ∧
      Lies t' n w' rows' ∧ t'.size = t.size ∧ t'.entries rows' ~ t.entries rows ∧
      Changed t t' rows rows' w w' ∧
      (st = .ok → bucket = hash % t'.capacity ∧ 4 * (t'.size + 1) ≤ 3 * t'.capacity) := by
  by_cases hload : 4 * (t.size + 1) ≤ 3 * t.capacity
  · exact ⟨_, t, _, w, rows, makeRoom_eq h hload _ _ _, h, rfl, .refl _, h.changed_same rfl,
      fun _ => ⟨rfl, hload⟩⟩
  · have hgrow : shouldGrow t.size t.capacity = true := by
      rw [← Bool.not_eq_false, shouldGrow_eq_false h.fits]
      exact hload
    rw [makeRoom, hgrow, if_pos rfl]
    cases hadd : sizeAddOverflow t.size 1 with
    | none =>
      exact ⟨_, t, _, w, rows, rfl, h, rfl, .refl _, h.changed_same rfl,
        fun h' => absurd h' (by decide)⟩
    | some reserveSize =>
      obtain ⟨rfl, -⟩ := (sizeAddOverflow_eq_some (by decide)).1 hadd
      obtain ⟨st, t', w', rows', hreserve, h', hsize, hperm, hchanged, hready, -⟩ :=
        reserve_spec h (t.size + 1)
      refine ⟨st, t', _, w', rows', by simp only [hreserve]; rfl, h', hsize, hperm, hchanged,
        fun hst => ⟨rfl, ?_⟩⟩
      rw [hsize]
      exact hready hst

/-! ## Searching -/

theorem query_plain (h : Lies t n w rows) (hk : k.length = t.keySize) (hash : ℕ) :
    (t.query k hash).Plain :=
  ⟨fun _ => rfl, fun _ _ => rfl, hk ▸ h.key_pos⟩

/-- The entries of the bucket of a key are entries of the table, and long enough. -/
theorem Lies.row (h : Lies t n w rows) (he : e ∈ rows (fnv1aHash k % t.capacity)) :
    e ∈ t.entries rows ∧ t.keySize ≤ e.data.length := by
  have hmem : e ∈ t.entries rows := mem_flat.2 ⟨_, Nat.mod_lt _ h.cap_pos, he⟩
  refine ⟨hmem, ?_⟩
  rw [h.data e hmem]
  exact h.key_le

/-- The bucket of a key holds every entry that is taken for it. -/
theorem miss_iff (h : Lies t n w rows) :
    (∀ e ∈ rows (fnv1aHash k % t.capacity), t.found k e = false) ↔
      ∀ e ∈ t.entries rows, t.found k e = false :=
  find_row h.placed h.cap_pos fun _ _ he => hash_of_found he

/-- **A search** finds an entry that it takes for the key, or there is none. -/
theorem find_spec (h : Lies t n w rows) (hk : k.length = t.keySize) :
    ∃ node, bucketFind t.buckets (fnv1aHash k % t.capacity) (t.query k (fnv1aHash k)) w =
        .ok node ∧
      ((node = 0 ∧ ∀ e ∈ t.entries rows, t.found k e = false) ∨
        (node ≠ 0 ∧ ∃ e ∈ t.entries rows, node = e.block ∧ t.found k e = true)) := by
  have hlen : ∀ e ∈ rows (fnv1aHash k % t.capacity), k.length ≤ e.data.length := fun e he => by
    rw [hk]
    exact (h.row he).2
  refine ⟨_, bucketFind_spec h.arrayed (Nat.mod_lt _ h.cap_pos) (query_plain h hk _) hlen, ?_⟩
  cases hfind : (rows (fnv1aHash k % t.capacity)).find?
      ((t.query k (fnv1aHash k)).hits (Entry.hash t.keySize)) with
  | none =>
    refine .inl ⟨rfl, (miss_iff h).1 fun e he => ?_⟩
    rw [← hits_eq hk]
    simpa using List.find?_eq_none.1 hfind e he
  | some e =>
    have he := (h.row (List.mem_of_find?_eq_some hfind)).1
    obtain ⟨next, hcell⟩ := h.arrayed.cell he
    refine .inr ⟨Mem.ne_zero_of_live (Mem.live_of hcell), e, he, rfl, ?_⟩
    rw [← hits_eq hk]
    exact List.find?_some hfind

/-! ## Changing an entry -/

/-- The entries but one. -/
theorem entries_split (h : Lies t n w rows) (he : e ∈ t.entries rows) :
    ∃ rest, t.entries rows ~ e :: rest ∧ ∀ d ∈ rest, d.block ≠ e.block := by
  refine ⟨(t.entries rows).erase e, List.perm_cons_erase he, fun d hd heq => ?_⟩
  have hnodup := ((List.perm_cons_erase he).map Entry.block).nodup_iff.1 h.arrayed.nodup
  rw [List.map_cons, List.nodup_cons] at hnodup
  exact hnodup.1 (heq ▸ List.mem_map_of_mem hd)

/-- **An entry with any other data.**  The hash that is stored with it stays. -/
theorem Lies.overwritten_arrayed (h : Lies t n w rows) (he : e ∈ t.entries rows) {next : ℕ}
    {data : List UInt8}
    (hcell : w.cells e.block = some ⟨sizeofEntry + n, .entry next (e.hash t.keySize) e.data⟩)
    (hcells : w'.cells = Function.update w.cells e.block
      (some ⟨sizeofEntry + n, .entry next (e.hash t.keySize) data⟩)) :
    Arrayed (sizeofEntry + n) (staleHash t.keySize e) w' t.buckets t.capacity
      fun i => (rows i).map (withData e.block data) := by
  obtain ⟨rest, hrest, hapart⟩ := entries_split h he
  have hsplit : ∀ d ∈ flat rows t.capacity, d = e ∨ d.block ≠ e.block := by
    intro d hd
    rcases List.mem_cons.1 (hrest.mem_iff.1 hd) with rfl | hd
    · exact .inl rfl
    · exact .inr (hapart d hd)
  refine (h.arrayed.congr fun d hd => ?_).rewrite (withData_block e.block data) (fun d _ => ?_) ?_
    fun d hd link hlink => ?_
  · rcases hsplit d hd with rfl | hne
    · exact staleHash_of_eq rfl
    · exact staleHash_of_ne hne
  · by_cases heq : d.block = e.block
    · rw [staleHash_of_eq heq, staleHash_of_eq ((withData_block ..).trans heq)]
    · rw [withData_of_ne data heq]
  · rw [hcells, Function.update_of_ne (h.arrayed.ne_array he).symm]
  · rcases hsplit d hd with rfl | hne
    · rw [staleHash_of_eq rfl, hcell] at hlink
      cases hlink
      rw [hcells, Function.update_self, withData_self, staleHash_of_eq rfl]
    · rw [hcells, Function.update_of_ne hne, hlink, withData_of_ne data hne]

/-- Where the new data have the same hash, the one that is stored is their own. -/
theorem Lies.hash_withData (h : Lies t n w rows) (he : e ∈ t.entries rows) {data : List UInt8}
    (hhash : fnv1aHash (slice data 0 t.keySize) = e.hash t.keySize) (hd : d ∈ t.entries rows) :
    (withData e.block data d).hash t.keySize = d.hash t.keySize ∧
      staleHash t.keySize e (withData e.block data d) = d.hash t.keySize := by
  obtain ⟨rest, hrest, hapart⟩ := entries_split h he
  rcases List.mem_cons.1 (hrest.mem_iff.1 hd) with rfl | hd
  · exact ⟨by rw [withData_self]; exact hhash, staleHash_of_eq (withData_block ..)⟩
  · rw [withData_of_ne data (hapart d hd)]
    exact ⟨rfl, staleHash_of_ne (hapart d hd)⟩

/-- **An entry with other data**, of the same hash. -/
theorem overwritten (h : Lies t n w rows) (he : e ∈ t.entries rows) {next : ℕ}
    {data : List UInt8} (hlen : data.length = n)
    (hhash : fnv1aHash (slice data 0 t.keySize) = e.hash t.keySize)
    (hcell : w.cells e.block = some ⟨sizeofEntry + n, .entry next (e.hash t.keySize) e.data⟩)
    (hcells : w'.cells = Function.update w.cells e.block
      (some ⟨sizeofEntry + n, .entry next (e.hash t.keySize) data⟩)) :
    ∃ rows' rest, Lies t n w' rows' ∧ t.entries rows ~ e :: rest ∧
      t.entries rows' ~ ⟨e.block, data⟩ :: rest ∧ Changed t t rows rows' w w' := by
  obtain ⟨rest, hrest, hapart⟩ := entries_split h he
  set rows' : ℕ → List Entry := fun i => (rows i).map (withData e.block data) with hrows'
  have hentries : t.entries rows' = (t.entries rows).map (withData e.block data) := entries_map _
  have hblocks : blocks t.buckets t.capacity rows' = blocks t.buckets t.capacity rows := by
    rw [blocks, blocks, ← entries, ← entries, hentries, List.map_map]
    exact congrArg _ (List.map_congr_left fun d _ => withData_block e.block data d)
  have howned : t.owned rows' = t.owned rows := congrArg (fun l => t.self :: l) hblocks
  have hhashes : ∀ d ∈ t.entries rows,
      (withData e.block data d).hash t.keySize = d.hash t.keySize := fun d hd =>
    (h.hash_withData he hhash hd).1
  have harrayed :
      Arrayed (sizeofEntry + n) (Entry.hash t.keySize) w' t.buckets t.capacity rows' := by
    refine (h.overwritten_arrayed he hcell hcells).congr fun d' hd' => ?_
    rw [← entries, hentries] at hd'
    obtain ⟨d, hd, rfl⟩ := List.mem_map.1 hd'
    rw [hhashes d hd, (h.hash_withData he hhash hd).2]
  have hself : t.self ≠ e.block := fun heq =>
    h.apart (heq ▸ List.mem_cons_of_mem _ (List.mem_map_of_mem he))
  refine ⟨rows', rest, ?_, hrest, ?_, rfl, rfl, rfl, rfl, id, ?_⟩
  · exact
      { h with
        handle := by
          rw [Mem.Live, hcells, Function.update_of_ne hself]
          exact h.handle
        apart := by
          rw [hblocks]
          exact h.apart
        arrayed := harrayed
        placed := by
          intro i hi d' hd'
          obtain ⟨d, hd, rfl⟩ := List.mem_map.1 hd'
          rw [hhashes d (mem_flat.2 ⟨i, hi, hd⟩)]
          exact h.placed i hi d hd
        size := by rw [hentries, List.length_map, h.size]
        data := by
          rw [hentries]
          intro d' hd'
          obtain ⟨d, hd, rfl⟩ := List.mem_map.1 hd'
          rcases List.mem_cons.1 (hrest.mem_iff.1 hd) with rfl | hd'
          · rw [withData_self, hlen]
          · rw [withData_of_ne data (hapart d hd'), h.data d hd] }
  · rw [hentries]
    apply (hrest.map _).trans
    rw [List.map_cons, withData_self,
      List.map_congr_left fun d hd => withData_of_ne data (hapart d hd), List.map_id']
  · rw [howned]
    exact .write h.live (List.mem_cons_of_mem _ (List.mem_cons_of_mem _ (List.mem_map_of_mem he)))
      hcells

/-! ## Adding an entry -/

/-- **Linking an entry** to the table, in front of its bucket. -/
theorem link_spec (h : Lies t n w rows) {link : ℕ} (hlen : e.data.length = n)
    (hcell : w.cells e.block = some ⟨sizeofEntry + n, .entry link (e.hash t.keySize) e.data⟩)
    (hnew : e.block ∉ t.owned rows) (reclaims : Prop) :
    ∃ w' rows', bucketPushfront t.buckets (e.hash t.keySize % t.capacity) e.block w = .ok w' ∧
      Lies { t with size := t.size + 1 } n w' rows' ∧ flat rows' t.capacity ~ e :: t.entries rows ∧
      Exchange reclaims (e.block :: t.owned rows) (owned { t with size := t.size + 1 } rows') w w'
    := by
  have hi : e.hash t.keySize % t.capacity < t.capacity := Nat.mod_lt _ h.cap_pos
  simp only [owned, blocks, List.mem_cons, not_or] at hnew
  obtain ⟨hself, -, hrows⟩ := hnew
  obtain ⟨w', hpush, harrayed, hsame⟩ := bucketPushfront_spec h.arrayed hi hcell hrows
  set rows' := Function.update rows (e.hash t.keySize % t.capacity)
    (e :: rows (e.hash t.keySize % t.capacity)) with hrows'
  have hperm : flat rows' t.capacity ~ e :: t.entries rows := flat_push_perm _ hi e
  have hmem : ∀ q, q ∈ (flat rows' t.capacity).map Entry.block ↔
      q = e.block ∨ q ∈ (t.entries rows).map Entry.block := by
    intro q
    rw [(hperm.map Entry.block).mem_iff, List.map_cons, List.mem_cons]
  have hapart := h.apart
  rw [blocks, List.mem_cons, not_or] at hapart
  have hlive : w'.Live t.self := by
    rw [Mem.Live, hsame _ hapart.1 (Ne.symm hself)]
    exact h.handle
  refine ⟨w', rows', hpush, ?_, hperm, ?_⟩
  · exact
      { h with
        handle := hlive
        apart := by
          rw [blocks, List.mem_cons, not_or]
          refine ⟨hapart.1, ?_⟩
          rw [hmem, not_or]
          exact ⟨Ne.symm hself, hapart.2⟩
        arrayed := harrayed
        placed := h.placed.push e
        size := by
          change t.size + 1 = _
          rw [h.size]
          exact hperm.length_eq.symm
        data := by
          intro d hd
          rcases List.mem_cons.1 (hperm.mem_iff.1 hd) with rfl | hd
          · exact hlen
          · exact h.data d hd }
  · have hwithin : Exchange reclaims (t.owned rows') (t.owned rows') w w' := by
      refine .within (fun q hq => ?_) fun q hq => ?_
      · rcases List.mem_cons.1 hq with rfl | hq
        · exact hlive
        · exact harrayed.blocks_live q hq
      · simp only [owned, blocks, List.mem_cons, not_or, hmem] at hq
        exact hsame q hq.2.1 hq.2.2.1
    refine hwithin.congr (fun q => ?_) fun q => Iff.rfl
    simp only [owned, blocks, List.mem_cons, hmem]
    change q = e.block ∨ q = t.self ∨ q = t.buckets ∨ q ∈ (t.entries rows).map Entry.block ↔ _
    tauto

/-- An argument that can be read beside the handle and the bucket array can lie in an entry
of the table; it is read the same in a table with the same entries. -/
theorem reads_changed {m : ℕ} {src : Arg} {bs : List UInt8} (h : Lies t n w rows)
    (h' : Lies t' n w' rows') (hchanged : Changed t t' rows rows' w w')
    (hperm : t'.entries rows' ~ t.entries rows) (hr : src.Reads w [t.self, t.buckets] m bs) :
    src.Reads w' [t'.self, t'.buckets] m bs := by
  cases src with
  | null => exact hr
  | outside => exact hr
  | inside p =>
    obtain ⟨hp, size, c, data, hcell, hc, hrest⟩ := hr
    simp only [List.mem_cons, List.not_mem_nil, or_false, not_or] at hp
    by_cases hentry : p.block ∈ (t.entries rows).map Entry.block
    · -- the header may be another one, the data are the same
      obtain ⟨d, hd, heq⟩ := List.mem_map.1 hentry
      obtain ⟨next, hcell₁⟩ := h.arrayed.cell hd
      rw [heq, hcell] at hcell₁
      cases hcell₁
      have hd' : d ∈ t'.entries rows' := hperm.mem_iff.2 hd
      obtain ⟨next', hcell'⟩ := h'.arrayed.cell hd'
      rw [heq] at hcell'
      refine ⟨?_, _, _, data, hcell', hc, hrest⟩
      simp only [List.mem_cons, List.not_mem_nil, or_false, not_or]
      refine ⟨fun hself => h'.apart ?_, heq ▸ h'.arrayed.ne_array hd'⟩
      rw [← hself, ← heq]
      exact List.mem_cons_of_mem _ (List.mem_map_of_mem hd')
    · have hout : p.block ∉ t.owned rows := by
        simp only [owned, blocks, List.mem_cons, not_or]
        exact ⟨hp.1, hp.2, hentry⟩
      obtain ⟨hcell', hp'⟩ := hchanged.exchange.others _ _ hcell hout
      refine ⟨?_, size, c, data, hcell', hc, hrest⟩
      simp only [owned, blocks, List.mem_cons, not_or] at hp'
      simp only [List.mem_cons, List.not_mem_nil, or_false, not_or]
      exact ⟨hp'.1, hp'.2.1⟩

/-- `fill` makes the data of the new entry `p` something with the property `P` that starts
with the key. -/
def Fills (t : Table) (n : ℕ) (k : List UInt8) (fill : ℕ → Memory → Result Memory)
    (P : List UInt8 → Prop) (w : Memory) (p : ℕ) : Prop :=
  ∀ link data, data.length = n →
    w.cells p = some ⟨sizeofEntry + n, .entry link (fnv1aHash k) data⟩ →
    ∃ data' w', fill p w = .ok w' ∧ data'.length = n ∧ slice data' 0 t.keySize = k ∧ P data' ∧
      w'.cells = Function.update w.cells p
        (some ⟨sizeofEntry + n, .entry link (fnv1aHash k) data'⟩)

/-- **A new entry in a table that has room for it** is refused, or it is in the next block. -/
theorem addEntry_room (h : Lies t n w rows) (hload : 4 * (t.size + 1) ≤ 3 * t.capacity)
    (fill : ℕ → Memory → Result Memory) (P : List UInt8 → Prop)
    (hfill : ∀ w₁, (∀ src m bs, Arg.Reads w [t.self, t.buckets] m src bs →
      Arg.Reads w₁ [w.next] m src bs) → Fills t n k fill P w₁ w.next) :
    ∃ st t' w' rows', addEntry t (fnv1aHash k) (fnv1aHash k % t.capacity)
        (some (sizeofEntry + n)) fill w = .ok ((st, t'), w') ∧
      Lies t' n w' rows' ∧ Changed t t' rows rows' w w' ∧ t'.buckets = t.buckets ∧
      t'.capacity = t.capacity ∧
      ((st = .noMemory ∧ t'.entries rows' ~ t.entries rows) ∨
        (st = .ok ∧ ∃ e, e.block = w.next ∧ e.key t.keySize = k ∧ P e.data ∧
          t'.entries rows' ~ e :: t.entries rows)) := by
  rw [addEntry, makeRoom_eq h hload, ok_bind]
  dsimp only
  rw [if_neg (not_not.2 rfl)]
  rcases Allocator.alloc_spec h.backed w (sizeofEntry + n) with
    ⟨w₁, halloc, hcells₁⟩ | ⟨bs, w₁, halloc, hbs, hcells₁⟩
  · rw [halloc]
    exact ⟨.noMemory, t, w₁, rows, rfl, h.same hcells₁, h.changed_same hcells₁, rfl, rfl,
      .inl ⟨rfl, .refl _⟩⟩
  -- the new block becomes an entry, is filled, and is linked
  rw [halloc, ok_bind]
  dsimp only
  rw [if_neg (not_not.2 rfl)]
  set p := w.next with hp
  have hgain : Exchange (Reclaims t.allocator) (t.owned rows) (p :: t.owned rows) w w₁ :=
    .gain h.live hcells₁
  have hcell₁ : w₁.cells p = some ⟨sizeofEntry + n, .bytes bs⟩ := by
    rw [hcells₁, Function.update_self]
  obtain ⟨link, w₂, hset, hcells₂⟩ := Memory.setEntryHash_eq hcell₁ (by omega) (fnv1aHash k)
  have hx₂ := hgain.trans (.write hgain.held (by simp) hcells₂)
  have hcell₂ : w₂.cells p =
      some ⟨sizeofEntry + n, .entry link (fnv1aHash k) (bs.drop sizeofEntry)⟩ := by
    rw [hcells₂, Function.update_self]
  have hsame₂ : ∀ q, q ≠ p → w₂.cells q = w.cells q := fun q hq => by
    rw [hcells₂, Function.update_of_ne hq, hcells₁, Function.update_of_ne hq]
  have hreads : ∀ src m bs, Arg.Reads w [t.self, t.buckets] m src bs →
      Arg.Reads w₂ [p] m src bs := fun src m bs hr => hr.frame fun q c hc _ => by
    have hq : q ≠ p := Mem.ne_next_of_live (Mem.live_of hc)
    exact ⟨by rw [hsame₂ q hq, hc], by simpa using hq⟩
  obtain ⟨data, w₃, hfilled, hlen, hkey, hP, hcells₃⟩ :=
    hfill w₂ hreads link _ (by rw [List.length_drop]; omega) hcell₂
  set e : Entry := ⟨p, data⟩ with he
  have hehash : e.hash t.keySize = fnv1aHash k := by
    rw [Entry.hash, Entry.key, hkey]
  have hfresh : ∀ q ∈ t.owned rows, q ≠ p := fun q hq => Mem.ne_next_of_live (h.live q hq)
  have h₃ : Lies t n w₃ rows := h.frame fun q hq => by
    rw [hcells₃, Function.update_of_ne (hfresh q hq), hsame₂ q (hfresh q hq)]
  have hx₃ := hx₂.trans (.write hx₂.held (by simp) hcells₃)
  obtain ⟨w₄, rows', hpush, h₄, hperm, hx₄⟩ := link_spec h₃ (e := e) hlen
    (by rw [hcells₃, Function.update_self, hehash]) (fun hin => hfresh _ hin rfl)
    (Reclaims t.allocator)
  refine ⟨.ok, _, w₄, rows', ?_, h₄, ⟨rfl, rfl, rfl, rfl, fun hl => ⟨hl.power, hload⟩,
    hx₃.trans hx₄⟩, rfl, rfl, .inr ⟨rfl, e, rfl, hkey, hP, hperm⟩⟩
  rw [hset, ok_bind, hfilled, ok_bind, ← hehash, hpush, ok_bind, sizeAdd_of_le (h.size_lt hload)]
  rfl

/-- **A new entry.**  When the call fails the entries are the same ones, also when it
fails in the middle, in a table that has grown. -/
theorem addEntry_spec (h : Lies t n w rows) (fill : ℕ → Memory → Result Memory)
    (P : List UInt8 → Prop)
    (hfill : ∀ w₁ p, (∀ src m bs, Arg.Reads w [t.self, t.buckets] m src bs →
      Arg.Reads w₁ [p] m src bs) → Fills t n k fill P w₁ p) :
    ∃ st t' w' rows', addEntry t (fnv1aHash k) (fnv1aHash k % t.capacity)
        (some (sizeofEntry + n)) fill w = .ok ((st, t'), w') ∧
      Lies t' n w' rows' ∧ Changed t t' rows rows' w w' ∧
      ((st ≠ .ok ∧ t'.entries rows' ~ t.entries rows) ∨
        (st = .ok ∧ ∃ e, e.key t.keySize = k ∧ P e.data ∧
          t'.entries rows' ~ e :: t.entries rows)) := by
  obtain ⟨st, t₁, bucket, w₁, rows₁, hroom, h₁, -, hperm₁, hc₁, hready⟩ :=
    makeRoom_spec h (fnv1aHash k)
  by_cases hst : st = .ok
  swap
  · refine ⟨st, t₁, w₁, rows₁, ?_, h₁, hc₁, .inl ⟨hst, hperm₁⟩⟩
    rw [addEntry, hroom, ok_bind]
    exact if_pos hst
  obtain ⟨rfl, hload⟩ := hready hst
  subst hst
  -- it is a new entry in the table that has grown
  have hgrown : addEntry t (fnv1aHash k) (fnv1aHash k % t.capacity) (some (sizeofEntry + n)) fill w
      = addEntry t₁ (fnv1aHash k) (fnv1aHash k % t₁.capacity) (some (sizeofEntry + n)) fill w₁ := by
    rw [addEntry, addEntry, hroom, makeRoom_eq h₁ hload]
  obtain ⟨st, t', w', rows', hadd, h', hc', -, -, hres⟩ :=
    addEntry_room (k := k) h₁ hload fill P fun w₂ hreads => by
      have hfill₂ := hfill w₂ w₁.next fun src m bs hr =>
        hreads src m bs (reads_changed h h₁ hc₁ hperm₁ hr)
      rw [Fills, hc₁.keySize]
      exact hfill₂
  refine ⟨st, t', w', rows', hgrown.trans hadd, h', hc₁.trans hc', ?_⟩
  rcases hres with ⟨rfl, hperm⟩ | ⟨rfl, e, -, hkey, hP, hperm⟩
  · exact .inl ⟨by decide, hperm.trans hperm₁⟩
  · rw [hc₁.keySize] at hkey
    exact .inr ⟨rfl, e, hkey, hP, hperm.trans (hperm₁.cons e)⟩

/-! ## Removing an entry -/

/-- **An entry that was unlinked** from its bucket: it is no entry of the table any more,
and its block is live still. -/
theorem unlinked (h : Lies t n w rows) {i : ℕ} {pre post : List Entry} (hi : i < t.capacity)
    (hrow : rows i = pre ++ e :: post)
    (harrayed : Arrayed (sizeofEntry + n) (Entry.hash t.keySize) w' t.buckets t.capacity
      (Function.update rows i (pre ++ post))) (hlive : w'.Live e.block)
    (hout : e.block ∉ (flat (Function.update rows i (pre ++ post)) t.capacity).map Entry.block)
    (hsame : ∀ p, p ≠ t.buckets → p ∉ (flat rows t.capacity).map Entry.block →
      w'.cells p = w.cells p) (reclaims : Prop) :
    ∃ rows', t.entries rows ~ e :: flat rows' t.capacity ∧
      Lies { t with size := t.size - 1 } n w' rows' ∧ e.block ∉ t.owned rows' ∧
      Exchange reclaims (t.owned rows) (e.block :: t.owned rows') w w' := by
  set rows' := Function.update rows i (pre ++ post) with hrows'
  have he : e ∈ t.entries rows := mem_flat.2 ⟨i, hi, by simp [hrow]⟩
  have hperm : t.entries rows ~ e :: flat rows' t.capacity := by
    have := flat_splice_perm hi [] (show rows _ = pre ++ [e] ++ post by simp [hrow])
    rw [List.append_nil, List.append_nil] at this
    exact this.symm.trans (List.perm_append_singleton e _)
  have hmem : ∀ q, q ∈ (flat rows t.capacity).map Entry.block ↔
      q = e.block ∨ q ∈ (flat rows' t.capacity).map Entry.block := by
    intro q
    rw [← entries, (hperm.map Entry.block).mem_iff, List.map_cons, List.mem_cons]
  have hapart := h.apart
  rw [blocks, List.mem_cons, not_or, hmem, not_or] at hapart
  obtain ⟨hbuckets, hblock, hrest⟩ := hapart
  have hself : w'.Live t.self := by
    rw [Mem.Live, hsame _ hbuckets (by rw [hmem, not_or]; exact ⟨hblock, hrest⟩)]
    exact h.handle
  refine ⟨rows', hperm, ?_, ?_, ?_⟩
  · exact
      { h with
        handle := hself
        apart := by
          rw [blocks, List.mem_cons, not_or]
          exact ⟨hbuckets, hrest⟩
        arrayed := harrayed
        placed := h.placed.update fun d hd => h.placed _ hi d (by
          rw [hrow]
          exact (List.sublist_cons_self e post).append_left pre |>.subset hd)
        size := by
          change t.size - 1 = (flat rows' t.capacity).length
          rw [h.size, hperm.length_eq, List.length_cons, Nat.add_sub_cancel]
        data := fun d hd => h.data d (hperm.mem_iff.2 (List.mem_cons_of_mem _ hd)) }
  · simp only [owned, blocks, List.mem_cons, not_or]
    exact ⟨Ne.symm hblock, h.arrayed.ne_array he, hout⟩
  · have hwithin : Exchange reclaims (t.owned rows) (t.owned rows) w w' := by
      refine .within (fun q hq => ?_) fun q hq => ?_
      · simp only [owned, blocks, List.mem_cons, hmem] at hq
        rcases hq with rfl | rfl | rfl | hq
        · exact hself
        · exact Mem.live_of harrayed.array
        · exact hlive
        · exact harrayed.live q hq
      · simp only [owned, blocks, List.mem_cons, not_or] at hq
        exact hsame q hq.2.1 hq.2.2
    refine hwithin.congr (fun q => Iff.rfl) fun q => ?_
    simp only [owned, blocks, List.mem_cons, hmem]
    tauto

/-- **Unlinking the entry** that a search for the key finds, if there is one. -/
theorem unlink_spec (h : Lies t n w rows) (hk : k.length = t.keySize) (reclaims : Prop) :
    (bucketRemove t.buckets (fnv1aHash k % t.capacity) (t.query k (fnv1aHash k)) w = .ok (0, w) ∧
      ∀ e ∈ t.entries rows, t.found k e = false) ∨
    ∃ e w' rows', bucketRemove t.buckets (fnv1aHash k % t.capacity) (t.query k (fnv1aHash k)) w =
        .ok (e.block, w') ∧ t.found k e = true ∧ t.entries rows ~ e :: flat rows' t.capacity ∧
      Lies { t with size := t.size - 1 } n w' rows' ∧ e.block ∉ t.owned rows' ∧
      Exchange reclaims (t.owned rows) (e.block :: t.owned rows') w w' := by
  have hi : fnv1aHash k % t.capacity < t.capacity := Nat.mod_lt _ h.cap_pos
  have hplain := query_plain h hk (fnv1aHash k)
  have hlen : ∀ e ∈ rows (fnv1aHash k % t.capacity), k.length ≤ e.data.length := fun e he => by
    rw [hk]
    exact (h.row he).2
  cases hfind : (rows (fnv1aHash k % t.capacity)).find? fun e => t.found k e with
  | none =>
    have hmiss : ∀ e ∈ rows (fnv1aHash k % t.capacity), t.found k e = false :=
      fun e he => by simpa using List.find?_eq_none.1 hfind e he
    refine .inl ⟨bucketRemove_miss h.arrayed hi hplain hlen fun e he => ?_, (miss_iff h).1 hmiss⟩
    rw [hits_eq hk, hmiss e he]
  | some e =>
    obtain ⟨hfound, pre, post, hrow, hpre⟩ := List.find?_eq_some_iff_append.1 hfind
    obtain ⟨w', hremove, harrayed, hlive, hout, hsame⟩ :=
      bucketRemove_hit h.arrayed hi hplain hlen hrow
        (fun d hd => by
          rw [hits_eq hk]
          simpa using hpre d hd)
        ((hits_eq hk).trans hfound)
    obtain ⟨rows', hres⟩ := unlinked h hi hrow harrayed hlive hout hsame reclaims
    exact .inr ⟨e, w', rows', hremove, hfound, hres⟩

/-- **A removal** takes an entry out that it finds for the key, if there is one. -/
theorem remove_spec {key : Arg} (h : Lies t n w rows)
    (hkey : key.Reads w [] t.keySize k) :
    ∃ t' w' rows', remove t key w = .ok (t', w') ∧ Lies t' n w' rows' ∧
      Changed t t' rows rows' w w' ∧
      ((t'.entries rows' ~ t.entries rows ∧ ∀ e ∈ t.entries rows, t.found k e = false) ∨
        (∃ e, t.found k e = true ∧ t.entries rows ~ e :: t'.entries rows')) := by
  have hbody : ∀ {node w₁}, bucketRemove t.buckets (fnv1aHash k % t.capacity)
      (t.query k (fnv1aHash k)) w = .ok (node, w₁) → remove t key w =
        if node ≠ 0 then Allocator.dealloc Memory.libc (some t.allocator) w₁ node >>= fun w =>
          sizeSub t.size 1 >>= fun size => .ok ({ t with size }, w)
        else .ok (t, w₁) := by
    intro node w₁ hremove
    rw [remove, hkey.source, ok_bind]
    change (bucketRemove t.buckets (fnv1aHash k % t.capacity) _ w >>= _) = _
    rw [hremove]
    rfl
  rcases unlink_spec h hkey.length (Reclaims t.allocator) with
    ⟨hremove, hmiss⟩ | ⟨e, w₁, rows', hremove, hfound, hperm, h₁, hout, hx⟩
  · refine ⟨t, w, rows, ?_, h, h.changed_same rfl, .inl ⟨.refl _, hmiss⟩⟩
    rw [hbody hremove, if_neg (not_not.2 rfl)]
  · have hlive : w₁.Live e.block := hx.held e.block (by simp)
    obtain ⟨w₂, hdealloc, hcells₂⟩ := Allocator.dealloc_spec h.backed hlive
    have hsize : 1 ≤ t.size := by
      rw [h.size, hperm.length_eq]
      exact Nat.succ_le_succ (Nat.zero_le _)
    refine ⟨{ t with size := t.size - 1 }, w₂, rows', ?_, ?_, ⟨rfl, rfl, rfl, rfl,
      fun hl => ⟨hl.power, ?_⟩, ?_⟩, .inr ⟨e, hfound, hperm⟩⟩
    · rw [hbody hremove, if_pos (Mem.ne_zero_of_live hlive), hdealloc, ok_bind,
        sizeSub_of_le hsize]
      rfl
    · exact h₁.frame fun q hq => Allocator.dealloc_kept hcells₂ fun heq => hout (heq ▸ hq)
    · have := hl.load
      dsimp only
      omega
    · exact hx.trans (.drop (fun q hq => hx.held q (List.mem_cons_of_mem _ hq)) hout hcells₂)

/-! ## Distinct keys -/

theorem Holds.lies (h : Holds t n w rows) : Lies t n w rows :=
  ⟨h.backed, h.handle, h.apart, h.arrayed, h.placed, h.size, h.data, h.key_pos, h.key_le, h.cap_pos,
    h.fits⟩

theorem Lies.holds (h : Lies t n w rows) (hequal : KeyEquivalence t.keySize t.equal)
    (hdistinct : Apart (fun d e => t.equal (d.key t.keySize) (e.key t.keySize) = true)
      (t.entries rows)) : Holds t n w rows :=
  ⟨h.backed, h.handle, h.apart, h.arrayed, h.placed, hdistinct, h.size, h.data, h.key_pos, h.key_le,
    h.cap_pos, h.fits, hequal⟩

namespace Holds

/-- What a search takes for the key is what has an equal key. -/
theorem found_eq (h : Holds t n w rows) (he : e ∈ t.entries rows) (hk : k.length = t.keySize) :
    t.found k e = t.equal (e.key t.keySize) k := by
  rw [found]
  cases heq : t.equal (e.key t.keySize) k with
  | false => rw [Bool.and_false]
  | true =>
    have hhash : e.hash t.keySize = fnv1aHash k := h.equal.hash _ _ (h.lies.length_key he) hk heq
    rw [hhash, decide_eq_true rfl, Bool.and_self]

theorem missed (h : Holds t n w rows) (hk : k.length = t.keySize)
    (hmiss : ∀ e ∈ t.entries rows, t.found k e = false) :
    ∀ e ∈ t.entries rows, t.equal (e.key t.keySize) k = false := fun e he => by
  rw [← h.found_eq he hk, hmiss e he]

/-- One entry at most has a key that is equal to a given one. -/
theorem unique (h : Holds t n w rows) (hd : d ∈ t.entries rows) (he : e ∈ t.entries rows)
    (hk : k.length = t.keySize) (hdk : t.equal (d.key t.keySize) k = true)
    (hek : t.equal (e.key t.keySize) k = true) : d = e := by
  have hlend := h.lies.length_key hd
  have hlene := h.lies.length_key he
  exact h.distinct d hd e he
    (h.equal.trans _ _ _ hlend hk hlene hdk (h.equal.symm _ _ hlene hk hek))

/-- After a call it is left to say that the keys are distinct. -/
theorem next (h : Holds t n w rows) (h' : Lies t' n' w' rows')
    (hchanged : Changed t t' rows rows' w w')
    (hdistinct : Apart (fun d e => t.equal (d.key t.keySize) (e.key t.keySize) = true)
      (t'.entries rows')) : Holds t' n' w' rows' := by
  have hequal : t'.equal = t.equal := by
    funext x y
    rw [Table.equal, Table.equal, hchanged.keyEq]
  refine h'.holds ?_ ?_
  · rw [hequal, hchanged.keySize]
    exact h.equal
  · rw [hequal, hchanged.keySize]
    exact hdistinct

/-- The entries are the same ones. -/
theorem kept (h : Holds t n w rows) (h' : Lies t' n' w' rows')
    (hchanged : Changed t t' rows rows' w w') (hperm : t'.entries rows' ~ t.entries rows) :
    Holds t' n' w' rows' :=
  h.next h' hchanged (h.distinct.subset fun _ hd => hperm.mem_iff.1 hd)

/-- An entry is gone. -/
theorem less (h : Holds t n w rows) (h' : Lies t' n' w' rows')
    (hchanged : Changed t t' rows rows' w w') (hperm : t.entries rows ~ e :: t'.entries rows') :
    Holds t' n' w' rows' :=
  h.next h' hchanged
    (h.distinct.subset fun _ hd => hperm.mem_iff.2 (List.mem_cons_of_mem _ hd))

/-- An entry came whose key no other one has. -/
theorem more (h : Holds t n w rows) (h' : Lies t' n' w' rows')
    (hchanged : Changed t t' rows rows' w w') (hperm : t'.entries rows' ~ e :: t.entries rows)
    (hk : k.length = t.keySize) (hkey : e.key t.keySize = k)
    (hmiss : ∀ d ∈ t.entries rows, t.equal (d.key t.keySize) k = false) :
    Holds t' n' w' rows' := by
  refine h.next h' hchanged (Apart.subset ?_ fun _ hd => hperm.mem_iff.1 hd)
  refine h.distinct.cons fun d hd => ?_
  have hno := hmiss d hd
  rw [hkey]
  refine ⟨fun heq => ?_, by rw [hno]; decide⟩
  rw [h.equal.symm _ _ hk (h.lies.length_key hd) heq] at hno
  cases hno

/-- An entry was replaced by one with the same key. -/
theorem replaced (h : Holds t n w rows) (h' : Lies t' n' w' rows')
    (hchanged : Changed t t' rows rows' w w') {rest : List Entry} {e' : Entry}
    (hold : t.entries rows ~ e :: rest) (hnew : t'.entries rows' ~ e' :: rest)
    (hkey : e'.key t.keySize = e.key t.keySize) : Holds t' n' w' rows' := by
  have hnodup := (hold.map Entry.block).nodup_iff.1 h.arrayed.nodup
  rw [List.map_cons, List.nodup_cons] at hnodup
  have hdistinct := h.distinct.subset fun _ hd => hold.mem_iff.2 hd
  have hother : ∀ d ∈ rest, d ≠ e := by
    rintro d hd rfl
    exact hnodup.1 (List.mem_map_of_mem hd)
  refine h.next h' hchanged (Apart.subset ?_ fun _ hd => hnew.mem_iff.1 hd)
  refine (hdistinct.subset fun d hd => List.mem_cons_of_mem e hd).cons fun d hd => ?_
  rw [hkey]
  refine ⟨fun heq => ?_, fun heq => ?_⟩
  · exact hother d hd (hdistinct e (by simp) d (by simp [hd]) heq).symm
  · exact hother d hd (hdistinct d (by simp [hd]) e (by simp) heq)

end Holds

/-! ## The entries as a finite map -/

section Maps

open ClassMap

variable {size : ℕ} {c : Comparison size} {value : Entry → List UInt8} {M : KeyMap c}

theorem Lies.key_equiv (h : Lies t n w rows) (hsize : t.keySize = size) (hc : t.keyEq = c.eq)
    (he : e ∈ t.entries rows) (x : Key c) :
    Key.of c (e.key t.keySize) ≈ x ↔ t.equal (e.key t.keySize) x.1 = true := by
  rw [Key.of_equiv ((h.length_key he).trans hsize), Table.equal, hc]

theorem Lies.no_key_equiv (h : Lies t n w rows) (hsize : t.keySize = size) (hc : t.keyEq = c.eq)
    {x : Key c} (hmiss : ∀ e ∈ t.entries rows, t.equal (e.key t.keySize) x.1 = false) :
    ∀ p ∈ (t.entries rows).map (fun e => (Key.of c (e.key t.keySize), value e)), ¬ p.1 ≈ x := by
  intro p hp
  obtain ⟨e, he, rfl⟩ := List.mem_map.1 hp
  rw [h.key_equiv hsize hc he, hmiss e he]
  decide

/-- What a removal leaves is the map without the key. -/
theorem Lies.erased (h : Lies t n w rows) (hsize : t.keySize = size) (hc : t.keyEq = c.eq)
    (hlists : Lists M ((t.entries rows).map fun e => (Key.of c (e.key t.keySize), value e)))
    {x : Key c} {es : List Entry}
    (hres : (es ~ t.entries rows ∧ ∀ e ∈ t.entries rows, t.equal (e.key t.keySize) x.1 = false) ∨
      ∃ e, t.equal (e.key t.keySize) x.1 = true ∧ t.entries rows ~ e :: es) :
    Lists (M.erase ⟦x⟧) (es.map fun e => (Key.of c (e.key t.keySize), value e)) := by
  rcases hres with ⟨hperm, hmiss⟩ | ⟨e, hequal, hperm⟩
  · rw [erase_of_lookup_none (hlists.lookup_eq_none.2 (h.no_key_equiv hsize hc hmiss))]
    exact hlists.perm (hperm.symm.map _)
  · have he : e ∈ t.entries rows := hperm.mem_iff.2 (List.mem_cons_self ..)
    exact (hlists.perm (hperm.map _)).erase ((h.key_equiv hsize hc he x).2 hequal)

end Maps

end Table

end K4c
