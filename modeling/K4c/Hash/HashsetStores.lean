import Mathlib.Tactic
import K4c.Hash.Lifetimes

/-!
# Stores to the elements of a hash set

`k4c_hashset_get` returns a pointer that can be written through.  A search compares the
hash that was stored with an element when it was inserted, and an iterator shows the
bytes; a store changes the bytes only.

* `Use`, `use` — what a caller does with a set: the calls, and stores of whole elements.
* `Consistent` — `k4c_hashset_contains` says of what an iterator yields, and of nothing
  else, that it is there, and no element is yielded twice.
* `Intact.consistent` — this is so while every element has its own hash stored with it.
* `store_kept`, `store_broken` — a store of an element with the same hash keeps it so, and
  any other store ends it at once.
* `stores_consistent` — what this says about runs.
-/

namespace K4c.Hashset

open Exec Bytes Blocks Runs Rows HashCommon
open scoped List

section Stores

variable [Platform]

/-! ## The caller -/

/-- What a caller does with a set: it makes calls, and writes an element behind the pointer
to another one. -/
inductive Use where
  | call (c : Op)
  | store (p : Ptr) (elem : List UInt8)

/-- One call or store. -/
def use (s : Hashset × Memory) : Use → Result (Hashset × Memory)
  | .call c => call s c
  | .store p elem => do
    let w ← s.2.write p.block p.offset elem
    return (s.1, w)

/-- The pointers that an iterator yields. -/
def items (s : Hashset × Memory) : Result (List Ptr) :=
  Iterator.items (iteratorNext s.1 s.2) (s.1.size + 1) s.1.getIterator

/-- The elements that an iterator yields. -/
def elements (s : Hashset × Memory) : Result (List (List UInt8)) :=
  Iterator.forEach (iteratorNext s.1 s.2) s.2 s.1.keySize (s.1.size + 1) s.1.getIterator

/-- What is stored is an element that the set does not have, and it is stored behind a
pointer to an element of the set.  Every pointer that `k4c_hashset_get` has returned is one
until the element is removed. -/
def Use.Allowed (s : Hashset × Memory) : Use → Prop
  | .call c => c.Allowed s
  | .store p elem => Sat (items s) (fun ps => p ∈ ps) ∧ elem.length = s.1.keySize ∧
    contains s.1 (.outside elem) s.2 = .ok false

/-- The same, where what is passed are bytes of the caller. -/
def Use.Own (s : Hashset × Memory) : Use → Prop
  | .call c => c.own s.1.keySize = true
  | .store p elem => Use.Allowed s (.store p elem)

omit [Platform] in
theorem Use.Own.allowed {s : Hashset × Memory} {u : Use} (h : u.Own s) : u.Allowed s := by
  cases u with
  | call c => exact Op.allowed_of_own h
  | store p elem => exact h

/-- What is stored has the hash of the element that it replaces. -/
def Use.KeepsHash (s : Hashset × Memory) : Use → Prop
  | .call _ => True
  | .store p elem => ∀ old, s.2.read p.block p.offset s.1.keySize = .ok old →
    fnv1aHash elem = fnv1aHash old

instance {s : Hashset × Memory} {u : Use} : Decidable (u.Own s) :=
  match u with
  | .call c => inferInstanceAs (Decidable (c.own s.1.keySize = true))
  | .store p elem => inferInstanceAs (Decidable (Sat (items s) (fun ps => p ∈ ps) ∧
      elem.length = s.1.keySize ∧ contains s.1 (.outside elem) s.2 = .ok false))

instance {s : Hashset × Memory} {u : Use} : Decidable (u.KeepsHash s) :=
  match u with
  | .call _ => isTrue trivial
  | .store p elem => inferInstanceAs (Decidable (∀ old,
      s.2.read p.block p.offset s.1.keySize = .ok old → fnv1aHash elem = fnv1aHash old))

/-- Sets of elements of this size in the hands of a caller that stores to them. -/
def client (elemSize : ℕ) (elemEq : Option (List UInt8 → List UInt8 → Bool))
    (allocator : Option (Allocator Memory)) : Container Hashset Use where
  create := create elemSize elemEq allocator
  call := use
  destroy := destroy
  Owns s o := Table.Owns s.1 s.2 o
  Allowed := Use.Allowed

/-- The set has what an iterator yields, and an iterator yields nothing twice. -/
def Consistent (s : Hashset × Memory) : Prop :=
  ∃ xs, elements s = .ok xs ∧ xs.Nodup ∧ ∀ (elem : Arg) (x : List UInt8),
    elem.Reads s.2 [] s.1.keySize x → contains s.1 elem s.2 = .ok (decide (x ∈ xs))

/-! ## What an iterator yields -/

section Iteration

variable {s : Hashset} {w : Memory} {rows : ℕ → List Entry} {hash : Entry → ℕ}

/-- The pointers, whatever hashes are stored. -/
theorem iterator_yields (hcap : s.capacity ≤ sizeMax)
    (h : Arrayed (sizeofEntry + s.keySize) hash w s.buckets s.capacity rows) :
    Iterator.Yields (iteratorNext s w) s.getIterator.state
      ((s.entries rows).map fun e => Table.entryKey e.block) := by
  have hyields := (Table.walk_yields hcap h).map Table.entryKey
  rw [List.map_map] at hyields
  exact hyields

theorem items_spec (h : Lies s w rows) :
    items (s, w) = .ok ((s.entries rows).map fun e => Table.entryKey e.block) := by
  apply Iterator.items_eq (iterator_yields h.table.capacity_le h.table.arrayed) _
  rw [List.length_map, ← h.table.size]
  exact Nat.lt_succ_self _

/-- The elements, whatever hashes are stored. -/
theorem elements_spec (hcap : s.capacity ≤ sizeMax)
    (h : Arrayed (sizeofEntry + s.keySize) hash w s.buckets s.capacity rows)
    (hsize : s.size = (s.entries rows).length)
    (hdata : ∀ e ∈ s.entries rows, e.data.length = s.keySize) :
    elements (s, w) = .ok ((s.entries rows).map (Entry.key s.keySize)) := by
  refine Iterator.forEach_eq (iterator_yields hcap h) ?_ _ ?_
  · rw [List.forall₂_map_left_iff, List.forall₂_map_right_iff, List.forall₂_same]
    intro e he
    obtain ⟨next, hcell⟩ := h.cell he
    exact Memory.read_reach hcell rfl (by rw [hdata e he, Table.entryKey, Nat.zero_add])
  · rw [List.length_map, ← hsize]
    exact Nat.lt_succ_self _

end Iteration

/-! ## Elements with their own hashes -/

section Own

variable {elemSize : ℕ} {elemEq : Option (List UInt8 → List UInt8 → Bool)}
  {s : Hashset × Memory} {rows : ℕ → List Entry}

/-- Two elements are equal when their bytes are. -/
theorem Intact.equal_iff (h : Intact elemSize elemEq s rows)
    (hbytes : Bytewise elemSize fun x y => valueEq x y elemEq) {x y : List UInt8}
    (hx : x.length = s.1.keySize) (hy : y.length = s.1.keySize) :
    s.1.equal x y = true ↔ x = y := by
  rw [h.table.equal_eq]
  rw [h.table.keySize_eq] at hx hy
  exact hbytes x y hx hy

/-- **A search** finds what an iterator yields. -/
theorem Intact.contains_eq (h : Intact elemSize elemEq s rows)
    (hbytes : Bytewise elemSize fun x y => valueEq x y elemEq) {elem : Arg} {x : List UInt8}
    (helem : elem.Reads s.2 [] s.1.keySize x) : contains s.1 elem s.2 =
      .ok (decide (x ∈ (s.1.entries rows).map (Entry.key s.1.keySize))) := by
  have hholds : Holds s.1 s.2 rows := ⟨h.table.holds hbytes.equivalence, h.entrySize⟩
  obtain ⟨node, hget, hres⟩ := hholds.entryGet helem
  rw [contains, check_of helem.ne_null, ok_bind, hget, ok_bind, pure_eq_ok]
  congr 1
  rw [decide_eq_decide, List.mem_map]
  rcases hres with ⟨rfl, hmiss⟩ | ⟨hnode, e, he, hequal, -⟩
  · refine ⟨fun hne => absurd rfl hne, ?_⟩
    rintro ⟨e, he, rfl⟩
    have hrefl := (h.equal_iff hbytes helem.length helem.length).2 rfl
    rw [hmiss e he] at hrefl
    cases hrefl
  · exact ⟨fun _ => ⟨e, he, (h.equal_iff hbytes (h.table.lies.length_key he) helem.length).1
      hequal⟩, fun _ => hnode⟩

/-- **A set whose elements have their own hashes** is consistent. -/
theorem Intact.consistent (h : Intact elemSize elemEq s rows)
    (hbytes : Bytewise elemSize fun x y => valueEq x y elemEq) : Consistent s := by
  have hlies := h.table.lies
  refine ⟨_, elements_spec hlies.capacity_le hlies.arrayed hlies.size hlies.data, ?_,
    fun elem x helem => h.contains_eq hbytes helem⟩
  refine List.Nodup.map_on (fun d hd e he heq => ?_) (List.Nodup.of_map _ hlies.arrayed.nodup)
  exact (h.table.holds hbytes.equivalence).distinct d hd e he
    ((h.equal_iff hbytes (hlies.length_key hd) (hlies.length_key he)).2 heq)

/-! ## Stores -/

/-- A pointer that a get returns is one that an iterator yields. -/
theorem Intact.get_yielded (h : Intact elemSize elemEq s rows)
    (hbytes : Bytewise elemSize fun x y => valueEq x y elemEq) {elem : Arg} {x : List UInt8}
    {p : Ptr} (helem : elem.Reads s.2 [] s.1.keySize x) (hget : get s.1 elem s.2 = .ok (some p)) :
    Sat (items s) fun ps => p ∈ ps := by
  have hholds : Holds s.1 s.2 rows := ⟨h.table.holds hbytes.equivalence, h.entrySize⟩
  obtain ⟨e, he, -, rfl⟩ := hholds.entry_of_get helem hget
  exact ⟨_, items_spec h.lies, List.mem_map_of_mem he⟩

variable {p : Ptr} {elem : List UInt8}

/-- **What a store writes**, and where.  The hash that is stored with the element is not
touched. -/
theorem Intact.store_spec (h : Intact elemSize elemEq s rows)
    (hbytes : Bytewise elemSize fun x y => valueEq x y elemEq)
    (hu : (Use.store p elem).Allowed s) :
    ∃ e next w', e ∈ s.1.entries rows ∧ p = Table.entryKey e.block ∧
      (∀ d ∈ s.1.entries rows, d.key s.1.keySize ≠ elem) ∧
      use s (.store p elem) = .ok (s.1, w') ∧
      s.2.cells e.block = some ⟨sizeofEntry + s.1.keySize,
        .entry next (e.hash s.1.keySize) e.data⟩ ∧
      w'.cells = Function.update s.2.cells e.block (some ⟨sizeofEntry + s.1.keySize,
        .entry next (e.hash s.1.keySize) elem⟩) := by
  obtain ⟨⟨ps, hitems, hp⟩, hlen, hcontains⟩ := hu
  cases hitems.symm.trans (items_spec h.lies)
  obtain ⟨e, he, rfl⟩ := List.mem_map.1 hp
  obtain ⟨next, hcell⟩ := h.table.lies.arrayed.cell he
  have hdata : elem.length = e.data.length := hlen.trans (h.table.lies.data e he).symm
  obtain ⟨w', hwrite, hcells⟩ := Memory.write_reach (k := 0) hcell rfl
    (by rw [Nat.zero_add, hdata])
  rw [splice_of_length hdata] at hcells
  refine ⟨e, next, w', he, rfl, fun d hd heq => ?_, ?_, hcell, hcells⟩
  · rw [h.contains_eq hbytes (.outside hlen), Except.ok.injEq, decide_eq_false_iff_not] at hcontains
    exact hcontains (heq ▸ List.mem_map_of_mem hd)
  · rw [use]
    change (s.2.write e.block 0 elem >>= _) = _
    rw [hwrite]
    rfl

/-- **A store of an element with the same hash** leaves a set whose elements have their own
hashes. -/
theorem Intact.store_kept (h : Intact elemSize elemEq s rows)
    (hbytes : Bytewise elemSize fun x y => valueEq x y elemEq)
    (hu : (Use.store p elem).Allowed s) (hkeeps : (Use.store p elem).KeepsHash s) :
    Sat (use s (.store p elem)) fun s' => ∃ rows', Intact elemSize elemEq s' rows' := by
  obtain ⟨e, next, w', he, rfl, habsent, huse, hcell, hcells⟩ := h.store_spec hbytes hu
  have hlen : elem.length = s.1.keySize := hu.2.1
  have hkey : slice elem 0 s.1.keySize = elem := slice_of_length hlen
  have hlies := h.table.lies
  obtain ⟨rows', rest, hlies', hold, hnew, hchanged⟩ := Table.overwritten hlies he hlen
    (by rw [hkey]; exact hkeeps _ (hlies.read_key he)) hcell hcells
  refine ⟨_, huse, rows', ⟨hlies', h.table.loaded, h.table.keySize_eq, h.table.keyEq_eq,
    fun hequal => ?_⟩, h.entrySize⟩
  -- no other element is equal to the one that is stored
  have hother : ∀ d ∈ rest, d ∈ s.1.entries rows := fun d hd =>
    hold.mem_iff.2 (List.mem_cons_of_mem _ hd)
  refine (h.table.holds hequal).next hlies' hchanged (Apart.subset ?_ fun _ hd => hnew.mem_iff.1 hd)
  refine ((h.table.holds hequal).distinct.subset hother).cons fun d hd => ?_
  have hdlen := hlies.length_key (hother d hd)
  rw [Entry.key, hkey, h.equal_iff hbytes hlen hdlen, h.equal_iff hbytes hdlen hlen]
  exact ⟨fun heq => habsent d (hother d hd) heq.symm, habsent d (hother d hd)⟩

variable {e : Entry} {w' : Memory}

/-- What an iterator yields after a store. -/
theorem Intact.elements_stored (h : Intact elemSize elemEq s rows)
    (hlen : elem.length = s.1.keySize)
    (harrayed : Arrayed (sizeofEntry + s.1.keySize) (Table.staleHash s.1.keySize e) w' s.1.buckets
      s.1.capacity fun i => (rows i).map (Table.withData e.block elem)) : elements (s.1, w') =
    .ok (((s.1.entries rows).map (Table.withData e.block elem)).map (Entry.key s.1.keySize)) := by
  have hlies := h.table.lies
  rw [← Table.entries_map]
  refine elements_spec hlies.capacity_le harrayed ?_ ?_
  · rw [Table.entries_map, List.length_map, hlies.size]
  · rw [Table.entries_map]
    intro d' hd'
    obtain ⟨d, hd, rfl⟩ := List.mem_map.1 hd'
    by_cases heq : d.block = e.block
    · rw [Table.withData, if_pos heq]
      exact hlen
    · rw [Table.withData_of_ne elem heq, hlies.data d hd]

/-- What was stored with another hash than its own is not found. -/
theorem Intact.contains_stored (h : Intact elemSize elemEq s rows)
    (hbytes : Bytewise elemSize fun x y => valueEq x y elemEq) (hlen : elem.length = s.1.keySize)
    (harrayed : Arrayed (sizeofEntry + s.1.keySize) (Table.staleHash s.1.keySize e) w' s.1.buckets
      s.1.capacity fun i => (rows i).map (Table.withData e.block elem))
    (hhash : e.hash s.1.keySize ≠ fnv1aHash elem)
    (habsent : ∀ d ∈ s.1.entries rows, d.key s.1.keySize ≠ elem) :
    contains s.1 (.outside elem) w' = .ok false := by
  have hlies := h.table.lies
  have helem : Arg.Reads w' [] s.1.keySize (.outside elem) elem := .outside hlen
  set row := (rows (fnv1aHash elem % s.1.capacity)).map (Table.withData e.block elem) with hrow
  have hmiss : ∀ d' ∈ row, elem.length ≤ d'.data.length ∧
      (s.1.query elem (fnv1aHash elem)).hits (Table.staleHash s.1.keySize e) d' = false := by
    intro d' hd'
    obtain ⟨d, hd, rfl⟩ := List.mem_map.1 hd'
    obtain ⟨hmem, hdlen⟩ := hlies.row hd
    by_cases heq : d.block = e.block
    · refine ⟨by rw [Table.withData, if_pos heq], ?_⟩
      rw [Query.hits, Table.staleHash_of_eq ((Table.withData_block ..).trans heq)]
      change (decide (_ = fnv1aHash elem) && _) = false
      rw [decide_eq_false hhash, Bool.false_and]
    · rw [Table.withData_of_ne elem heq]
      have hne : s.1.equal (d.key s.1.keySize) elem = false := by
        rw [← Bool.not_eq_true, h.equal_iff hbytes (hlies.length_key hmem) hlen]
        exact habsent d hmem
      refine ⟨hlen.trans_le hdlen, ?_⟩
      change (_ && valueEq (slice d.data 0 elem.length) elem s.1.keyEq) = false
      rw [hlen]
      exact (congrArg _ hne).trans (Bool.and_false _)
  have hfind := bucketFind_spec harrayed (Nat.mod_lt _ hlies.cap_pos)
    (Table.query_plain hlies hlen (fnv1aHash elem)) fun d' hd' => (hmiss d' hd').1
  rw [List.find?_eq_none.2 fun d' hd' => by rw [(hmiss d' hd').2]; decide] at hfind
  rw [contains, check_of helem.ne_null, ok_bind, Table.entryGet, helem.source, ok_bind]
  dsimp only
  rw [hfind]
  rfl

/-- **A store of an element with another hash** leaves a set that does not find what it
has. -/
theorem Intact.store_broken (h : Intact elemSize elemEq s rows)
    (hbytes : Bytewise elemSize fun x y => valueEq x y elemEq)
    (hu : (Use.store p elem).Allowed s) (hbad : ¬ (Use.store p elem).KeepsHash s) :
    Sat (use s (.store p elem)) fun s' => ¬ Consistent s' := by
  obtain ⟨e, next, w', he, rfl, habsent, huse, hcell, hcells⟩ := h.store_spec hbytes hu
  have hlen : elem.length = s.1.keySize := hu.2.1
  have hlies := h.table.lies
  have hhash : e.hash s.1.keySize ≠ fnv1aHash elem := by
    intro heq
    refine hbad fun old hold => ?_
    cases hold.symm.trans (hlies.read_key he)
    exact heq.symm
  have harrayed := hlies.overwritten_arrayed he hcell hcells
  refine ⟨_, huse, ?_⟩
  rintro ⟨xs, hxs, -, hall⟩
  cases hxs.symm.trans (h.elements_stored hlen harrayed)
  -- the iterator yields what was stored
  have hyielded : elem ∈ ((s.1.entries rows).map (Table.withData e.block elem)).map
      (Entry.key s.1.keySize) := by
    refine List.mem_map.2 ⟨_, List.mem_map_of_mem he, ?_⟩
    rw [Table.withData_self]
    exact slice_of_length hlen
  have hcontains := hall (.outside elem) elem (.outside hlen)
  rw [decide_eq_true hyielded] at hcontains
  cases hcontains.symm.trans (h.contains_stored hbytes hlen harrayed hhash habsent)

/-- **One call or store** that keeps the hashes. -/
theorem Intact.use_kept {u : Use} (h : Intact elemSize elemEq s rows)
    (hbytes : Bytewise elemSize fun x y => valueEq x y elemEq) (hu : u.Allowed s)
    (hkeeps : u.KeepsHash s) :
    Sat (use s u) fun s' => ∃ rows', Intact elemSize elemEq s' rows' := by
  cases u with
  | call c => exact h.call hu
  | store p elem => exact h.store_kept hbytes hu hkeeps

/-- **One call or store** that does not. -/
theorem Intact.use_broken {u : Use} (h : Intact elemSize elemEq s rows)
    (hbytes : Bytewise elemSize fun x y => valueEq x y elemEq) (hu : u.Allowed s)
    (hbad : ¬ u.KeepsHash s) : Sat (use s u) fun s' => ¬ Consistent s' := by
  cases u with
  | call c => exact absurd trivial hbad
  | store p elem => exact h.store_broken hbytes hu hbad

end Own

/-! ## Runs -/

/-- **Stores of elements with the same hash**, and no others, keep a set consistent.  In
every run of a set that compares bytes, with stores to its elements, a search finds what
an iterator yields in all states if and only if what is stored always has the hash of
what it replaces. -/
theorem stores_consistent {allocator : Option (Allocator Memory)}
    (hbacked : Backed (Allocator.copy allocator)) (w₀ : Memory) {elemSize : ℕ}
    {elemEq : Option (List UInt8 → List UInt8 → Bool)}
    (hbytes : Bytewise elemSize fun x y => valueEq x y elemEq) {s : Hashset} {w₁ : Memory}
    (hcreate : create elemSize elemEq allocator w₀ = .ok ((.ok, some s), w₁)) (uses : List Use)
    (halong : Along (client elemSize elemEq allocator).step Use.Allowed (s, w₁) uses) :
    Throughout (client elemSize elemEq allocator).step Consistent (s, w₁) uses ↔
      Along (client elemSize elemEq allocator).step (fun s u => u.KeepsHash s) (s, w₁) uses := by
  refine throughout_iff (I := fun s => ∃ rows, Intact elemSize elemEq s rows) ?_ ?_ ?_ uses (s, w₁)
    ⟨_, create_intact hbacked hcreate⟩ halong
  · rintro s ⟨rows, h⟩
    exact h.consistent hbytes
  · rintro s u ⟨rows, h⟩ hu hkeeps
    exact (h.use_kept hbytes hu hkeeps).bind fun _ h' => Sat.ok h'
  · rintro s u ⟨rows, h⟩ hu hbad
    exact (h.use_broken hbytes hu hbad).bind fun _ h' => Sat.ok h'

end Stores

section Example

local instance storesPlatform : Platform := lp64

/-- Two strings of twenty bytes with the same hash. -/
def colliding : List UInt8 × List UInt8 :=
  ("gMPflVXtwGDXbIhP73TX".toUTF8.toList, "LtHf1prlU1bCeYZEdqWf".toUTF8.toList)

/-- One is stored over the other, and then the other one is inserted again. -/
def storeColliding : List Use :=
  [.call (.insert (.outside colliding.1)), .store ⟨3, 0⟩ colliding.2,
    .call (.insert (.outside colliding.1))]

theorem stores_consistent_colliding : ∃ s w₁,
    create 20 none none (.empty fun _ => some ⟨true, fun _ => 0⟩) = .ok ((.ok, some s), w₁) ∧
    Throughout (client 20 none none).step Consistent (s, w₁) storeColliding := by
  have hrun : Sat (create 20 none none (.empty fun _ => some ⟨true, fun _ => 0⟩)) fun r =>
      r.1.1 = .ok ∧ ∃ s ∈ r.1.2,
        Along (client 20 none none).step (fun s u => u.Own s) (s, r.2) storeColliding ∧
        Along (client 20 none none).step (fun s u => u.KeepsHash s) (s, r.2) storeColliding := by
    decide +kernel
  obtain ⟨⟨⟨_, _⟩, w₁⟩, hcreate, rfl, s, rfl, hown, hkeeps⟩ := hrun
  exact ⟨s, w₁, hcreate, (stores_consistent (.default _) _ (bytewise_none 20) hcreate _
    (hown.mono fun _ _ => Use.Own.allowed)).2 hkeeps⟩

/-- A `uint64_t`, lowest byte first. -/
def word (byte : UInt8) : List UInt8 := [byte, 0, 0, 0, 0, 0, 0, 0]

/-- 42 is inserted, and 7 is stored through the pointer that a get returns for it. -/
def insertStore : List Use :=
  [.call (.insert (.outside (word 42))), .store ⟨3, 0⟩ (word 7)]

/-- The iterator yields the 7 then, but it is not found, and after it is inserted it is
yielded twice. -/
theorem stored_element_is_lost :
    Sat (create 8 none none (.empty fun _ => some ⟨true, fun _ => 0⟩)) fun r => ∃ s ∈ r.1.2,
      Along (client 8 none none).step (fun s u => u.Own s) (s, r.2) insertStore ∧
      Sat (trace (client 8 none none).step (s, r.2) (insertStore.take 1)) (fun q =>
        get q.2.1 (.outside (word 42)) q.2.2 = .ok (some ⟨3, 0⟩)) ∧
      Sat (trace (client 8 none none).step (s, r.2) insertStore) (fun q =>
        elements q.2 = .ok [word 7] ∧ contains q.2.1 (.outside (word 7)) q.2.2 = .ok false) ∧
      Sat (trace (client 8 none none).step (s, r.2)
        (insertStore ++ [.call (.insert (.outside (word 7)))])) fun q =>
          elements q.2 = .ok [word 7, word 7] := by
  decide +kernel

end Example

end K4c.Hashset
