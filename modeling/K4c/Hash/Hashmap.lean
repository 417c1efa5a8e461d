import Mathlib.Tactic
import K4c.Hash.Table

/-!
# Hash maps

`k4c_hashmap`: a hash table whose entries have the value behind the key, at the
next multiple of the alignment.
-/

namespace K4c

open Exec HashCommon

variable [Platform]

/-- `struct k4c_hashmap`. -/
structure Hashmap extends Table where
  valueSize : ℕ

namespace Hashmap

/-- `sizeof(k4c_hashmap)`. -/
def handleSize : ℕ := 72

/-! ## Layout -/

/-- The layout that `k4c_hashmap_create` checks and `k4c_hashmap_put` allocates:
the size of an entry, when every sum of it is a `size_t`. -/
def entrySize (keySize valueSize : ℕ) : Option ℕ :=
  (alignUpOverflow keySize memoryAlign).bind fun valueOffset =>
    (sizeAddOverflow valueOffset valueSize).bind fun entryPayloadSize =>
      sizeAddOverflow sizeofEntry entryPayloadSize

/-- `k4c_hashmap_entry_value`, `k4c_hashmap_entry_value_const`. -/
def entryValue (m : Hashmap) (entry : ℕ) : Ptr := ⟨entry, alignUp m.keySize memoryAlign⟩

/-! ## Construction and destruction -/

/-- `k4c_hashmap_create`. -/
def create (keySize valueSize : ℕ) (keyEq : Option (List UInt8 → List UInt8 → Bool))
    (allocator : Option (Allocator Memory)) (w : Memory) :
    Result ((Status × Option Hashmap) × Memory) := do
  check (keySize > 0) "fatal: k4c_hashmap_create invalid arguments"
  check (valueSize > 0) "fatal: k4c_hashmap_create invalid arguments"
  match entrySize keySize valueSize with
  | none => return ((.overflow, none), w)
  | some _ =>
    let ((st, out), w) ← Table.create handleSize keySize keyEq allocator w
    return ((st, out.map fun table => { table with valueSize }), w)

/-- `k4c_hashmap_destroy`. -/
def destroy (m : Hashmap) (w : Memory) : Result Memory := m.toTable.destroy w

/-! ## Calls -/

/-- `k4c_hashmap_reserve`. -/
def reserve (m : Hashmap) (size : ℕ) (w : Memory) : Result ((Status × Hashmap) × Memory) := do
  let ((st, table), w) ← m.toTable.reserve size w
  return ((st, { m with toTable := table }), w)

/-- The two copies into a new entry. -/
def fill (m : Hashmap) (key value : Arg) (entry : ℕ) (w : Memory) : Result Memory := do
  let w ← w.memcpy (Table.entryKey entry) key m.keySize
  w.memcpy (m.entryValue entry) value m.valueSize

/-- `k4c_hashmap_put`. -/
def put (m : Hashmap) (key value : Arg) (w : Memory) :
    Result ((Status × Hashmap) × Memory) := do
  check (key ≠ .null) "fatal: k4c_hashmap_put invalid arguments"
  check (value ≠ .null) "fatal: k4c_hashmap_put invalid arguments"
  let bytes ← w.source key m.keySize
  let hash := fnv1aHash bytes
  let bucket := hash % m.capacity
  let node ← bucketFind m.buckets bucket (m.query bytes hash) w
  if node ≠ 0 then
    let w ← w.memcpy (m.entryValue node) value m.valueSize
    return ((.ok, m), w)
  let ((st, table), w) ←
    m.toTable.addEntry hash bucket (entrySize m.keySize m.valueSize) (m.fill key value) w
  return ((st, { m with toTable := table }), w)

/-- `k4c_hashmap_get`. -/
def get (m : Hashmap) (key : Arg) (w : Memory) : Result (Option Ptr) := do
  check (key ≠ .null) "fatal: k4c_hashmap_get invalid arguments"
  let entry ← m.entryGet key w
  if entry ≠ 0 then return some (m.entryValue entry)
  return none

/-- `k4c_hashmap_remove`. -/
def remove (m : Hashmap) (key : Arg) (w : Memory) : Result (Hashmap × Memory) := do
  check (key ≠ .null) "fatal: k4c_hashmap_remove invalid arguments"
  let (table, w) ← m.toTable.remove key w
  return ({ m with toTable := table }, w)

/-! ## Iteration -/

/-- `k4c_hashmap_entry_view`. -/
structure EntryView where
  key : Ptr
  value : Ptr
  deriving DecidableEq, Repr

/-- `k4c_hashmap_iterator_next`.  The view lies in the state of the iterator. -/
def iteratorNext (m : Hashmap) (w : Memory) (state : Table.IteratorState) :
    Result (Option EntryView × Table.IteratorState) := do
  let (entry, state) ← m.nextEntry w state
  return (entry.map fun entry => ⟨Table.entryKey entry, m.entryValue entry⟩, state)

/-- `k4c_hashmap_key_iterator_next`. -/
def keyIteratorNext (m : Hashmap) (w : Memory) (state : Table.IteratorState) :
    Result (Option Ptr × Table.IteratorState) := do
  let (entry, state) ← m.nextEntry w state
  return (entry.map Table.entryKey, state)

/-- `k4c_hashmap_value_iterator_next`. -/
def valueIteratorNext (m : Hashmap) (w : Memory) (state : Table.IteratorState) :
    Result (Option Ptr × Table.IteratorState) := do
  let (entry, state) ← m.nextEntry w state
  return (entry.map m.entryValue, state)

end Hashmap

end K4c
