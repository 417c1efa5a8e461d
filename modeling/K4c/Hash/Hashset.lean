import Mathlib.Tactic
import K4c.Hash.Table

/-!
# Hash sets

`k4c_hashset`: a hash table whose entries are the elements.
-/

namespace K4c

open Exec HashCommon

variable [Platform]

/-- `struct k4c_hashset`. -/
abbrev Hashset := Table

namespace Hashset

/-- `sizeof(k4c_hashset)`. -/
def handleSize : ℕ := 64

/-- The size of an entry that `k4c_hashset_create` checks and
`k4c_hashset_insert` allocates. -/
def entrySize (elemSize : ℕ) : Option ℕ := sizeAddOverflow sizeofEntry elemSize

/-! ## Construction and destruction -/

/-- `k4c_hashset_create`. -/
def create (elemSize : ℕ) (elemEq : Option (List UInt8 → List UInt8 → Bool))
    (allocator : Option (Allocator Memory)) (w : Memory) :
    Result ((Status × Option Hashset) × Memory) := do
  check (elemSize > 0) "fatal: k4c_hashset_create invalid arguments"
  match entrySize elemSize with
  | none => return ((.overflow, none), w)
  | some _ => Table.create handleSize elemSize elemEq allocator w

/-- `k4c_hashset_destroy`. -/
def destroy (s : Hashset) (w : Memory) : Result Memory := Table.destroy s w

/-! ## Calls -/

/-- `k4c_hashset_reserve`. -/
def reserve (s : Hashset) (size : ℕ) (w : Memory) : Result ((Status × Hashset) × Memory) :=
  Table.reserve s size w

/-- `k4c_hashset_insert`. -/
def insert (s : Hashset) (elem : Arg) (w : Memory) : Result ((Status × Hashset) × Memory) := do
  check (elem ≠ .null) "fatal: k4c_hashset_insert invalid arguments"
  let bytes ← w.source elem s.keySize
  let hash := fnv1aHash bytes
  let bucket := hash % s.capacity
  let node ← bucketFind s.buckets bucket (s.query bytes hash) w
  if node ≠ 0 then return ((.ok, s), w)
  s.addEntry hash bucket (entrySize s.keySize)
    (fun entry w => w.memcpy (Table.entryKey entry) elem s.keySize) w

/-- `k4c_hashset_contains`. -/
def contains (s : Hashset) (elem : Arg) (w : Memory) : Result Bool := do
  check (elem ≠ .null) "fatal: k4c_hashset_contains invalid arguments"
  let entry ← s.entryGet elem w
  return decide (entry ≠ 0)

/-- `k4c_hashset_get`. -/
def get (s : Hashset) (elem : Arg) (w : Memory) : Result (Option Ptr) := do
  check (elem ≠ .null) "fatal: k4c_hashset_get invalid arguments"
  let entry ← s.entryGet elem w
  if entry ≠ 0 then return some (Table.entryKey entry)
  return none

/-- `k4c_hashset_remove`. -/
def remove (s : Hashset) (elem : Arg) (w : Memory) : Result (Hashset × Memory) := do
  check (elem ≠ .null) "fatal: k4c_hashset_remove invalid arguments"
  Table.remove s elem w

/-! ## Iteration -/

/-- `k4c_hashset_iterator_next`. -/
def iteratorNext (s : Hashset) (w : Memory) (state : Table.IteratorState) :
    Result (Option Ptr × Table.IteratorState) := do
  let (entry, state) ← s.nextEntry w state
  return (entry.map Table.entryKey, state)

end Hashset

end K4c
