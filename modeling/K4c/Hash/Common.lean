import Mathlib.Tactic
import K4c.Mem.Blocks
import K4c.Mem.Utils

/-!
# What the hash map and the hash set share

`hash/common.h` and `hash/common.c`: arrays of buckets, each the head of a singly
linked list of entries, and the walks along these lists.  The functions know the
entries through accessors that the two containers pass in.  A bucket pointer is
the array and an index; a node pointer is the block of its entry, 0 for `NULL`.

The walks are loops over `node->next`.  Their fuel is the number of blocks that
were ever handed out: a list that does not run in a circle is shorter.
-/

namespace K4c

open Exec

/-! ## `hash/fnv.h` -/

/-- `k4c_fnv1a_hash` on the bytes of `data`. -/
def fnv1aHash (data : List UInt8) : ℕ :=
  (data.foldl (fun hash byte => (hash ^^^ byte.toUInt64) * 1099511628211)
    (14695981039346656037 : UInt64)).toNat

/-! ## Entries and buckets in memory -/

/-- The size of an entry up to `data`: `node`, `hash` and `align`.  It is `sizeof`
of both entry types. -/
def sizeofEntry [Platform] : ℕ := alignUp 16 memoryAlign + Platform.maxAlignSize

/-- `sizeof(k4c_hash_common_bucket)`. -/
def sizeofBucket : ℕ := 8

namespace Memory

/-- `node->next`. -/
def entryNext (w : Memory) (node : ℕ) : Result ℕ :=
  w.load node >>= fun content =>
    match content with
    | .entry next _ _ => .ok next
    | _ => .error .badAccess

/-- `entry->hash`. -/
def entryHash (w : Memory) (node : ℕ) : Result ℕ :=
  w.load node >>= fun content =>
    match content with
    | .entry _ hash _ => .ok hash
    | _ => .error .badAccess

/-- `node->next = next`. -/
def setEntryNext (w : Memory) (node next : ℕ) : Result Memory :=
  w.load node >>= fun content =>
    match content with
    | .entry _ hash data => w.store node (.entry next hash data)
    | _ => .error .badAccess

/-- `entry->hash = hash` in a new block.  What lies in `node` and `data` is what
the block started with. -/
def setEntryHash [Platform] (w : Memory) (entry hash : ℕ) : Result Memory :=
  w.load entry >>= fun content =>
    match content with
    | .bytes bs =>
      if sizeofEntry ≤ bs.length then
        let link := (bs.take 8).foldr (fun b n => b.toNat + 256 * n) 0
        w.store entry (.entry link hash (bs.drop sizeofEntry))
      else .error .badAccess
    | _ => .error .badAccess

/-- `memset(buckets, 0, size)` on a new block, which makes it an array of empty
buckets. -/
def clearBuckets (w : Memory) (buckets size : ℕ) : Result Memory :=
  w.load buckets >>= fun content =>
    match content with
    | .bytes bs =>
      if size ≤ bs.length then
        w.store buckets (.buckets (List.replicate (size / sizeofBucket) 0))
      else .error .badAccess
    | _ => .error .badAccess

/-- `buckets[i].head`. -/
def bucketHead (w : Memory) (buckets i : ℕ) : Result ℕ :=
  w.load buckets >>= fun content =>
    match content with
    | .buckets heads =>
      match heads[i]? with
      | none => .error .badAccess
      | some head => .ok head
    | _ => .error .badAccess

/-- `buckets[i].head = node`. -/
def setBucketHead (w : Memory) (buckets i node : ℕ) : Result Memory :=
  w.load buckets >>= fun content =>
    match content with
    | .buckets heads =>
      if i < heads.length then w.store buckets (.buckets (heads.set i node))
      else .error .badAccess
    | _ => .error .badAccess

end Memory

namespace HashCommon

/-! ## Capacities -/

/-- `K4C_HASH_COMMON_DEFAULT_CAPACITY`. -/
def defaultCapacity : ℕ := 16

/-- `K4C_HASH_COMMON_MAX_LOAD_NUMERATOR`. -/
def maxLoadNumerator : ℕ := 3

/-- `K4C_HASH_COMMON_MAX_LOAD_DENOMINATOR`. -/
def maxLoadDenominator : ℕ := 4

/-- `k4c_hash_common_should_grow`. -/
def shouldGrow (size capacity : ℕ) : Bool :=
  match (sizeAddOverflow size 1).bind fun nextSize =>
      sizeMulOverflow nextSize maxLoadDenominator with
  | none => true
  | some scaledSize =>
    match sizeMulOverflow capacity maxLoadNumerator with
    | none => false
    | some scaledCapacity => decide (scaledSize > scaledCapacity)

/-- One round of the loop of `k4c_hash_common_capacity_for_size`. -/
def capacityForSizeRound (scaledSize capacity : ℕ) : Result (ℕ ⊕ Status × ℕ) :=
  match sizeMulOverflow capacity maxLoadNumerator with
  | none => .ok (.inr (.overflow, 0))
  | some scaledCapacity =>
    if scaledSize ≤ scaledCapacity then .ok (.inr (.ok, capacity))
    else
      match sizeMulOverflow capacity 2 with
      | none => .ok (.inr (.overflow, 0))
      | some doubled => .ok (.inl doubled)

/-- `k4c_hash_common_capacity_for_size`: a capacity doubles at most 64 times. -/
def capacityForSize (size : ℕ) : Result (Status × ℕ) :=
  match sizeMulOverflow size maxLoadDenominator with
  | none => .ok (.overflow, 0)
  | some scaledSize => loop (capacityForSizeRound scaledSize) 65 defaultCapacity

/-! ## Bucket arrays -/

/-- `k4c_hash_common_buckets_create`. -/
def bucketsCreate (capacity : ℕ) (allocator : Allocator Memory) (w : Memory) :
    Result ((Status × ℕ) × Memory) := do
  check (capacity > 0) "fatal: k4c_hash_common_buckets_create invalid arguments"
  match sizeMulOverflow sizeofBucket capacity with
  | none => return ((.overflow, 0), w)
  | some allocSize =>
    let ((st, buckets), w) ← Allocator.alloc Memory.libc (some allocator) w allocSize
    if st ≠ .ok then return ((st, 0), w)
    let w ← w.clearBuckets buckets allocSize
    return ((.ok, buckets), w)

/-- `k4c_hash_common_bucket_pushfront`. -/
def bucketPushfront (buckets i node : ℕ) (w : Memory) : Result Memory := do
  check (node ≠ 0) "fatal: k4c_hash_common_bucket_pushfront invalid arguments"
  let head ← w.bucketHead buckets i
  let w ← w.setEntryNext node head
  w.setBucketHead buckets i node

/-- One round of the inner loop of `k4c_hash_common_buckets_rehash`. -/
def rehashNodeRound (newBuckets newCapacity : ℕ) (entryHash : Memory → ℕ → Result ℕ)
    (s : ℕ × Memory) : Result (ℕ × Memory ⊕ Memory) := do
  let (node, w) := s
  if node ≠ 0 then
    let next ← w.entryNext node
    let hash ← entryHash w node
    let w ← bucketPushfront newBuckets (hash % newCapacity) node w
    return .inl (next, w)
  return .inr w

/-- One round of the outer loop of `k4c_hash_common_buckets_rehash`. -/
def rehashRound (buckets capacity newBuckets newCapacity : ℕ)
    (entryHash : Memory → ℕ → Result ℕ) (s : ℕ × Memory) : Result (ℕ × Memory ⊕ Memory) := do
  let (i, w) := s
  if i < capacity then
    let node ← w.bucketHead buckets i
    let w ← loop (rehashNodeRound newBuckets newCapacity entryHash) w.next (node, w)
    return .inl (i + 1, w)
  return .inr w

/-- `k4c_hash_common_buckets_rehash`. -/
def bucketsRehash (buckets capacity newCapacity : ℕ) (allocator : Allocator Memory)
    (entryHash : Memory → ℕ → Result ℕ) (w : Memory) : Result ((Status × ℕ) × Memory) := do
  check (buckets ≠ 0) "fatal: k4c_hash_common_buckets_rehash invalid arguments"
  check (capacity > 0) "fatal: k4c_hash_common_buckets_rehash invalid arguments"
  check (newCapacity > 0) "fatal: k4c_hash_common_buckets_rehash invalid arguments"
  let ((st, newBuckets), w) ← bucketsCreate newCapacity allocator w
  if st ≠ .ok then return ((st, 0), w)
  let w ← loop (rehashRound buckets capacity newBuckets newCapacity entryHash) (capacity + 1)
    (0, w)
  let w ← Allocator.dealloc Memory.libc (some allocator) w buckets
  return ((.ok, newBuckets), w)

/-- One round of the inner loop of `k4c_hash_common_buckets_destroy`. -/
def destroyNodeRound (entryDestroy : ℕ → Memory → Result Memory) (s : ℕ × Memory) :
    Result (ℕ × Memory ⊕ Memory) := do
  let (node, w) := s
  if node ≠ 0 then
    let next ← w.entryNext node
    let w ← entryDestroy node w
    return .inl (next, w)
  return .inr w

/-- One round of the outer loop of `k4c_hash_common_buckets_destroy`. -/
def destroyRound (buckets capacity : ℕ) (entryDestroy : ℕ → Memory → Result Memory)
    (s : ℕ × Memory) : Result (ℕ × Memory ⊕ Memory) := do
  let (i, w) := s
  if i < capacity then
    let node ← w.bucketHead buckets i
    let w ← loop (destroyNodeRound entryDestroy) w.next (node, w)
    return .inl (i + 1, w)
  return .inr w

/-- `k4c_hash_common_buckets_destroy`. -/
def bucketsDestroy (buckets capacity : ℕ) (allocator : Allocator Memory)
    (entryDestroy : ℕ → Memory → Result Memory) (w : Memory) : Result Memory := do
  check (buckets ≠ 0) "fatal: k4c_hash_common_buckets_destroy invalid arguments"
  let w ← loop (destroyRound buckets capacity entryDestroy) (capacity + 1) (0, w)
  Allocator.dealloc Memory.libc (some allocator) w buckets

/-! ## Search -/

/-- `k4c_hash_common_value_eq`; `valueEq` is absent for `NULL`. -/
def valueEq (lhs rhs : List UInt8) (valueEq : Option (List UInt8 → List UInt8 → Bool)) : Bool :=
  match valueEq with
  | some eq => eq lhs rhs
  | none => decide (memcmp lhs rhs = 0)

/-- What a search is for, and how it reads the entries: the arguments that
`bucket_find` and `bucket_remove` share. -/
structure Query where
  /-- The `value_size` bytes at `value`. -/
  value : List UInt8
  hash : ℕ
  valueEq : Option (List UInt8 → List UInt8 → Bool)
  entryValue : ℕ → Ptr
  entryHash : Memory → ℕ → Result ℕ

/-- The condition of both loops: the hashes are equal and then the values. -/
def Query.matches (q : Query) (w : Memory) (node : ℕ) : Result Bool := do
  let hash ← q.entryHash w node
  if hash = q.hash then
    let place := q.entryValue node
    let stored ← w.read place.block place.offset q.value.length
    return HashCommon.valueEq stored q.value q.valueEq
  return false

/-- One round of the loop of `k4c_hash_common_bucket_find`. -/
def bucketFindRound (q : Query) (w : Memory) (node : ℕ) : Result (ℕ ⊕ ℕ) := do
  if node ≠ 0 then
    let found ← q.matches w node
    if found then return .inr node
    let next ← w.entryNext node
    return .inl next
  return .inr 0

/-- `k4c_hash_common_bucket_find`. -/
def bucketFind (buckets i : ℕ) (q : Query) (w : Memory) : Result ℕ := do
  check (q.value.length > 0) "fatal: k4c_hash_common_bucket_find invalid arguments"
  let node ← w.bucketHead buckets i
  loop (bucketFindRound q w) w.next node

/-- One round of the loop of `k4c_hash_common_bucket_remove`, on `prev` and `node`. -/
def bucketRemoveRound (buckets i : ℕ) (q : Query) (w : Memory) (s : ℕ × ℕ) :
    Result (ℕ × ℕ ⊕ ℕ × Memory) := do
  let (prev, node) := s
  if node ≠ 0 then
    let found ← q.matches w node
    let next ← w.entryNext node
    if found then
      let w ← if prev = 0 then w.setBucketHead buckets i next else w.setEntryNext prev next
      let w ← w.setEntryNext node 0
      return .inr (node, w)
    return .inl (node, next)
  return .inr (0, w)

/-- `k4c_hash_common_bucket_remove`. -/
def bucketRemove (buckets i : ℕ) (q : Query) (w : Memory) : Result (ℕ × Memory) := do
  check (q.value.length > 0) "fatal: k4c_hash_common_bucket_remove invalid arguments"
  let node ← w.bucketHead buckets i
  loop (bucketRemoveRound buckets i q w) w.next (0, node)

end HashCommon

end K4c
