import Mathlib.Tactic
import K4c.Datastruct.Iterator
import K4c.Hash.Common
import K4c.Mem.Owners

/-!
# Hash tables

`hashmap.c` and `hashset.c` keep the same fields and run the same code, but for
the value that an entry of the map has behind its key.  `Table` is what they
share: the fields that both structures have, the search for a key, the growth, a
new entry, the removal, the walk over all entries and the two ends of the life of a
table.
-/

namespace K4c

open Exec HashCommon

/-- The fields of `struct k4c_hashmap` and `struct k4c_hashset`, but for
`value_size`.  The key of a set is its element: `keySize` is `elem_size` and
`keyEq` is `elem_eq` there. -/
structure Table where
  self : ℕ
  size : ℕ
  keySize : ℕ
  capacity : ℕ
  buckets : ℕ
  keyEq : Option (List UInt8 → List UInt8 → Bool)
  allocator : Allocator Memory

namespace Table

/-! ## Entries -/

/-- `k4c_hashmap_entry_key`, `k4c_hashset_entry_elem`: the address of `data`. -/
def entryKey (node : ℕ) : Ptr := ⟨node, 0⟩

/-- `k4c_hashmap_entry_hash`, `k4c_hashset_entry_hash`. -/
def entryHash (w : Memory) (node : ℕ) : Result ℕ := w.entryHash node

/-- `k4c_hashmap_entry_destroy`, `k4c_hashset_entry_destroy`. -/
def entryDestroy (allocator : Allocator Memory) (node : ℕ) (w : Memory) : Result Memory :=
  Allocator.dealloc Memory.libc (some allocator) w node

/-- The arguments of a search for a key with this hash. -/
def query (t : Table) (key : List UInt8) (hash : ℕ) : Query where
  value := key
  hash := hash
  valueEq := t.keyEq
  entryValue := entryKey
  entryHash := entryHash

/-- `k4c_hashmap_entry_get`, `k4c_hashset_entry_get`: the node of an entry, or 0. -/
def entryGet (t : Table) (key : Arg) (w : Memory) : Result ℕ := do
  let bytes ← w.source key t.keySize
  let hash := fnv1aHash bytes
  let bucket := hash % t.capacity
  bucketFind t.buckets bucket (t.query bytes hash) w

/-! ## Construction and destruction -/

/-- The allocations of both constructors: the handle and an array of empty
buckets. -/
def create (handleSize keySize : ℕ) (keyEq : Option (List UInt8 → List UInt8 → Bool))
    (allocator : Option (Allocator Memory)) (w : Memory) :
    Result ((Status × Option Table) × Memory) := do
  let ((st, out), w) ← createOwner handleSize
    (fun copy w => bucketsCreate defaultCapacity copy w)
    (some (Allocator.copy allocator)) allocator w
  return ((st, out.map fun (self, buckets) =>
    ⟨self, 0, keySize, defaultCapacity, buckets, keyEq, Allocator.copy allocator⟩), w)

/-- `k4c_hashmap_destroy`, `k4c_hashset_destroy`. -/
def destroy (t : Table) (w : Memory) : Result Memory := do
  let w ← bucketsDestroy t.buckets t.capacity t.allocator (entryDestroy t.allocator) w
  Allocator.dealloc Memory.libc (some t.allocator) w t.self

/-! ## Changes -/

/-- `k4c_hashmap_reserve`, `k4c_hashset_reserve`. -/
def reserve (t : Table) (size : ℕ) (w : Memory) : Result ((Status × Table) × Memory) := do
  let (st, newCapacity) ← capacityForSize size
  if st ≠ .ok then return ((st, t), w)
  if newCapacity ≤ t.capacity then return ((.ok, t), w)
  let ((st, newBuckets), w) ←
    bucketsRehash t.buckets t.capacity newCapacity t.allocator entryHash w
  if st ≠ .ok then return ((st, t), w)
  return ((.ok, { t with buckets := newBuckets, capacity := newCapacity }), w)

/-- The growth in `k4c_hashmap_put` and `k4c_hashset_insert`; it ends with the
bucket of the hash, which is another one in a table that has grown. -/
def makeRoom (t : Table) (hash bucket : ℕ) (w : Memory) :
    Result ((Status × Table × ℕ) × Memory) := do
  if shouldGrow t.size t.capacity then
    match sizeAddOverflow t.size 1 with
    | none => return ((.overflow, t, bucket), w)
    | some reserveSize =>
      let ((st, t), w) ← reserve t reserveSize w
      return ((st, t, hash % t.capacity), w)
  return ((.ok, t, bucket), w)

/-- What `k4c_hashmap_put` and `k4c_hashset_insert` do when no entry has the key:
`allocSize` is the size of an entry, when it can be computed, and `fill` copies
the key and the value into `data`. -/
def addEntry [Platform] (t : Table) (hash bucket : ℕ) (allocSize : Option ℕ)
    (fill : ℕ → Memory → Result Memory) (w : Memory) :
    Result ((Status × Table) × Memory) := do
  let ((st, t, bucket), w) ← makeRoom t hash bucket w
  if st ≠ .ok then return ((st, t), w)
  match allocSize with
  | none => return ((.overflow, t), w)
  | some allocSize =>
    let ((st, entry), w) ← Allocator.alloc Memory.libc (some t.allocator) w allocSize
    if st ≠ .ok then return ((st, t), w)
    let w ← w.setEntryHash entry hash
    let w ← fill entry w
    let w ← bucketPushfront t.buckets bucket entry w
    let size ← sizeAdd t.size 1
    return ((.ok, { t with size }), w)

/-- `k4c_hashmap_remove`, `k4c_hashset_remove`. -/
def remove (t : Table) (key : Arg) (w : Memory) : Result (Table × Memory) := do
  let bytes ← w.source key t.keySize
  let hash := fnv1aHash bytes
  let bucket := hash % t.capacity
  let (node, w) ← bucketRemove t.buckets bucket (t.query bytes hash) w
  if node ≠ 0 then
    let w ← Allocator.dealloc Memory.libc (some t.allocator) w node
    let size ← sizeSub t.size 1
    return ({ t with size }, w)
  return (t, w)

/-! ## Iteration -/

/-- The fields that `k4c_hashmap_iterator_state` and `k4c_hashset_iterator_state` have
beside the pointer to the table. -/
structure IteratorState where
  bucket : ℕ
  node : ℕ
  deriving DecidableEq, Repr

/-- One round of the loop that looks for a bucket with an entry. -/
def nextBucketRound (t : Table) (w : Memory) (state : IteratorState) :
    Result (IteratorState ⊕ IteratorState) := do
  if state.node = 0 ∧ state.bucket < t.capacity then
    let node ← w.bucketHead t.buckets state.bucket
    let bucket ← sizeAdd state.bucket 1
    return .inl ⟨bucket, node⟩
  return .inr state

/-- `k4c_hashmap_iterator_next_entry`, which is also the body of
`k4c_hashset_iterator_next`: the node of the next entry, absent for `NULL`. -/
def nextEntry (t : Table) (w : Memory) (state : IteratorState) :
    Result (Option ℕ × IteratorState) := do
  let state ← loop (nextBucketRound t w) (t.capacity + 1) state
  if state.node = 0 then return (none, state)
  let next ← w.entryNext state.node
  return (some state.node, { state with node := next })

/-- `k4c_hashmap_get_iterator`, `k4c_hashset_get_iterator`. -/
def getIterator (t : Table) : Iterator IteratorState :=
  (Iterator.fromState ⟨0, 0⟩).setSizeHint t.size

end Table

end K4c
