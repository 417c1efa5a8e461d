import Mathlib.Tactic
import K4c.Datastruct.Iterator
import K4c.Mem.Blocks
import K4c.Mem.Grow
import K4c.Mem.Owners

/-!
# Vectors

`k4c_vector`: elements of a fixed size in a buffer that grows by half.  The
handle is a block of its own; its fields are the record, `self` names the block.
A pointer to an element is a place in the buffer, so what a call returned can be
read afterwards or handed in again.
-/

namespace K4c

open Exec

/-- `struct k4c_vector`. -/
structure Vector where
  self : ℕ
  size : ℕ
  elemSize : ℕ
  capacity : ℕ
  buffer : ℕ
  allocator : Allocator Memory

namespace Vector

/-- `K4C_VECTOR_DEFAULT_CAPACITY`. -/
def defaultCapacity : ℕ := 16

/-- `sizeof(k4c_vector)`. -/
def handleSize : ℕ := 56

/-- `k4c_vector_capacity_grow`. -/
def capacityGrow (capacity minCapacity : ℕ) : Result (Status × ℕ) :=
  growByHalf capacity minCapacity

/-- The address of the element with this index. -/
def elementAt (v : Vector) (index : ℕ) : Result Ptr := do
  let offset ← sizeMul index v.elemSize
  return ⟨v.buffer, offset⟩

/-! ## Construction and destruction -/

/-- `k4c_vector_create_with_capacity`. -/
def createWithCapacity (elemSize capacity : ℕ) (allocator : Option (Allocator Memory))
    (w : Memory) : Result ((Status × Option Vector) × Memory) := do
  check (elemSize > 0) "fatal: k4c_vector_create invalid arguments"
  check (capacity > 0) "fatal: k4c_vector_create invalid arguments"
  match sizeMulOverflow elemSize capacity with
  | none => return ((.overflow, none), w)
  | some allocSize =>
    let ((st, out), w) ← createOwner handleSize
      (fun copy w => Allocator.alloc Memory.libc (some copy) w allocSize)
      (some (Allocator.copy allocator)) allocator w
    return ((st, out.map fun (self, buffer) =>
      ⟨self, 0, elemSize, capacity, buffer, Allocator.copy allocator⟩), w)

/-- `k4c_vector_create`. -/
def create (elemSize : ℕ) (allocator : Option (Allocator Memory)) (w : Memory) :
    Result ((Status × Option Vector) × Memory) :=
  createWithCapacity elemSize defaultCapacity allocator w

/-- `k4c_vector_destroy`. -/
def destroy (v : Vector) (w : Memory) : Result Memory :=
  destroyBuffered v.allocator v.self v.buffer w

/-! ## Elements -/

/-- `k4c_vector_reserve`. -/
def reserve (v : Vector) (capacity : ℕ) (w : Memory) : Result ((Status × Vector) × Memory) := do
  if capacity ≤ v.capacity then return ((.ok, v), w)
  match sizeMulOverflow capacity v.elemSize with
  | none => return ((.overflow, v), w)
  | some allocSize =>
    let ((st, buffer), w) ← Allocator.resize Memory.libc (some v.allocator) w v.buffer allocSize
    if st ≠ .ok then return ((st, v), w)
    return ((.ok, { v with buffer, capacity }), w)

/-- The first half of `k4c_vector_push`: a full vector grows. -/
def makeRoom (v : Vector) (w : Memory) : Result ((Status × Vector) × Memory) := do
  if v.size = v.capacity then
    match sizeAddOverflow v.size 1 with
    | none => return ((.overflow, v), w)
    | some minCapacity =>
      let (st, newCapacity) ← capacityGrow v.capacity minCapacity
      if st ≠ .ok then return ((st, v), w)
      reserve v newCapacity w
  else return ((.ok, v), w)

/-- `k4c_vector_push`. -/
def push (v : Vector) (element : Arg) (w : Memory) : Result ((Status × Vector) × Memory) := do
  check (element ≠ .null) "fatal: k4c_vector_push invalid arguments"
  let ((st, v), w) ← makeRoom v w
  if st ≠ .ok then return ((st, v), w)
  let dst ← elementAt v v.size
  let w ← w.memcpy dst element v.elemSize
  let size ← sizeAdd v.size 1
  return ((.ok, { v with size }), w)

/-- `k4c_vector_pop`. -/
def pop (v : Vector) : Result (Option Ptr × Vector) := do
  if v.size = 0 then return (none, v)
  let size ← sizeSub v.size 1
  let slot ← elementAt v size
  return (some slot, { v with size })

/-- `k4c_vector_get`. -/
def get (v : Vector) (index : ℕ) : Result (Option Ptr) := do
  if index ≥ v.size then return none
  let slot ← elementAt v index
  return some slot

/-- `k4c_vector_data`. -/
def data (v : Vector) : Ptr := ⟨v.buffer, 0⟩

/-- `k4c_vector_swap_remove`. -/
def swapRemove (v : Vector) (index : ℕ) (w : Memory) :
    Result ((Option Ptr × Vector) × Memory) := do
  if index ≥ v.size then return ((none, v), w)
  let slot ← elementAt v index
  let last ← sizeSub v.size 1
  if index ≠ last then
    let lastSlot ← elementAt v last
    let w ← w.memcpy slot (.inside lastSlot) v.elemSize
    return ((some slot, { v with size := last }), w)
  return ((some slot, { v with size := last }), w)

/-! ## Iteration -/

/-- `k4c_vector_iterator_state`. -/
structure IteratorState where
  cursor : Ptr
  elemSize : ℕ
  remaining : ℕ
  deriving DecidableEq, Repr

/-- `k4c_vector_iterator_next`. -/
def iteratorNext (state : IteratorState) : Result (Option Ptr × IteratorState) := do
  if state.remaining = 0 then return (none, state)
  let offset ← sizeAdd state.cursor.offset state.elemSize
  return (some state.cursor,
    { state with cursor := ⟨state.cursor.block, offset⟩, remaining := state.remaining - 1 })

/-- `k4c_vector_get_iterator`. -/
def getIterator (v : Vector) : Iterator IteratorState :=
  (Iterator.fromState ⟨data v, v.elemSize, v.size⟩).setSizeHint v.size

/-! ## Collecting an iterator -/

/-- A vector with room for as many elements as the iterator announces. -/
def collectCreate (sizeHint elemSize : ℕ) (allocator : Option (Allocator Memory)) (w : Memory) :
    Result ((Status × Option Vector) × Memory) := do
  let ((st, v), w) ← create elemSize allocator w
  match v with
  | none => return ((st, none), w)
  | some v =>
    if sizeHint > 0 then
      let ((st, v), w) ← reserve v sizeHint w
      if st ≠ .ok then
        let w ← destroy v w
        return ((st, none), w)
      return ((.ok, some v), w)
    return ((.ok, some v), w)

variable {σ : Type}

/-- One round of the loop of `k4c_vector_collect` and `k4c_vector_collect_map`: what becomes
of the next item is pushed, and a refused push ends in `cleanup` and the destructor.  The
callback of the iterator may read the memory. -/
def collectRound (callback : Memory → σ → Result (Option Arg × σ))
    (prepare : Arg → Memory → Result (Arg × Memory)) (cleanup : Memory → Result Memory)
    (s : Iterator σ × Vector × Memory) :
    Result ((Iterator σ × Vector × Memory) ⊕ (Status × Option Vector) × Iterator σ × Memory) := do
  let (source, v, w) := s
  let (item, source) ← source.next (callback w)
  match item with
  | none =>
    let w ← cleanup w
    return .inr ((.ok, some v), source, w)
  | some item =>
    let (element, w) ← prepare item w
    let ((st, v), w) ← push v element w
    if st ≠ .ok then
      let w ← cleanup w
      let w ← destroy v w
      return .inr ((st, none), source, w)
    return .inl (source, v, w)

/-- `k4c_vector_collect`; `fuel` bounds the number of items that are asked for. -/
def collect (callback : Memory → σ → Result (Option Arg × σ)) (fuel : ℕ) (source : Iterator σ)
    (elemSize : ℕ) (allocator : Option (Allocator Memory)) (w : Memory) :
    Result ((Status × Option Vector) × Iterator σ × Memory) := do
  check (elemSize > 0) "fatal: k4c_vector_collect invalid arguments"
  let ((st, v), w) ← collectCreate source.sizeHint elemSize allocator w
  match v with
  | none => return ((st, none), source, w)
  | some v => loop (collectRound callback (fun item w => .ok (item, w)) .ok) fuel (source, v, w)

/-- `map(context, item, dst)`: the callback reads an item of `itemSize` bytes and writes
the block `dst`, which is the element. -/
def applyMap (map : List UInt8 → List UInt8) (itemSize dst : ℕ) (item : Arg) (w : Memory) :
    Result (Arg × Memory) := do
  let bytes ← w.source item itemSize
  let w ← w.write dst 0 (map bytes)
  return (.inside ⟨dst, 0⟩, w)

/-- `k4c_vector_collect_map`. -/
def collectMap (callback : Memory → σ → Result (Option Arg × σ)) (map : List UInt8 → List UInt8)
    (itemSize fuel : ℕ) (source : Iterator σ) (dstElemSize : ℕ)
    (allocator : Option (Allocator Memory)) (w : Memory) :
    Result ((Status × Option Vector) × Iterator σ × Memory) := do
  check (dstElemSize > 0) "fatal: k4c_vector_collect_map invalid arguments"
  let ((st, v), w) ← collectCreate source.sizeHint dstElemSize allocator w
  match v with
  | none => return ((st, none), source, w)
  | some v =>
    let ((st, dst), w) ← Allocator.alloc Memory.libc allocator w dstElemSize
    if st ≠ .ok then
      let w ← destroy v w
      return ((st, none), source, w)
    loop (collectRound callback (applyMap map itemSize dst)
      fun w => Allocator.dealloc Memory.libc allocator w dst) fuel (source, v, w)

/-! ## Searching -/

/-- The bytes of the element at a place that `get` returned. -/
def deref (v : Vector) (w : Memory) (p : Option Ptr) : Result (List UInt8) :=
  match p with
  | none => .error .badAccess
  | some p => w.read p.block p.offset v.elemSize

/-- One round of `k4c_vector_lower_bound` and `k4c_vector_upper_bound`, on `first`
and `count`; `goRight` is the test on the item in the middle. -/
def boundRound (v : Vector) (w : Memory) (goRight : List UInt8 → Bool) (s : ℕ × ℕ) :
    Result (ℕ × ℕ ⊕ ℕ) := do
  let (first, count) := s
  if count = 0 then return .inr first
  let mid ← sizeAdd first (count / 2)
  let item ← get v mid
  let bytes ← deref v w item
  if goRight bytes then
    let first ← sizeAdd mid 1
    let count ← sizeSub count (count / 2 + 1)
    return .inl (first, count)
  return .inl (first, count / 2)

/-- `k4c_vector_lower_bound`. -/
def lowerBound (v : Vector) (w : Memory) (key : List UInt8)
    (cmp : List UInt8 → List UInt8 → ℤ) : Result ℕ :=
  loop (boundRound v w fun item => cmp item key < 0) (v.size + 1) (0, v.size)

/-- `k4c_vector_upper_bound`. -/
def upperBound (v : Vector) (w : Memory) (key : List UInt8)
    (cmp : List UInt8 → List UInt8 → ℤ) : Result ℕ :=
  loop (boundRound v w fun item => cmp key item ≥ 0) (v.size + 1) (0, v.size)

/-- `k4c_vector_binary_search`. -/
def binarySearch (v : Vector) (w : Memory) (key : List UInt8)
    (cmp : List UInt8 → List UInt8 → ℤ) : Result ℕ := do
  let index ← lowerBound v w key cmp
  if index < v.size then
    let item ← get v index
    let bytes ← deref v w item
    if cmp bytes key = 0 then return index
    return v.size
  return v.size

end Vector

end K4c
