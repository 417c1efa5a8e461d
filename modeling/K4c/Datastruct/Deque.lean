import Mathlib.Tactic
import K4c.Datastruct.Iterator
import K4c.Mem.Blocks
import K4c.Mem.Owners

/-!
# Deques

`k4c_deque`: elements of a fixed size in a circular buffer whose capacity is a
power of two.  `head` is the index of the first element, `tail` the index after
the last one; both wrap, so that they are equal in an empty and in a full deque.
-/

namespace K4c

open Exec

/-- `struct k4c_deque`. -/
structure Deque where
  self : ℕ
  size : ℕ
  elemSize : ℕ
  capacity : ℕ
  head : ℕ
  tail : ℕ
  buffer : ℕ
  allocator : Allocator Memory

namespace Deque

/-- `K4C_DEQUE_DEFAULT_CAPACITY`. -/
def defaultCapacity : ℕ := 16

/-- `sizeof(k4c_deque)`. -/
def handleSize : ℕ := 72

/-! ## Growing -/

/-- One round of the loop of `k4c_deque_capacity_grow`. -/
def capacityGrowRound (minCapacity capacity : ℕ) : Result (ℕ ⊕ Status × ℕ) :=
  if capacity < minCapacity then
    if capacity > sizeMax / 2 then .ok (.inr (.overflow, 0))
    else .ok (.inl (2 * capacity))
  else .ok (.inr (.ok, capacity))

/-- `k4c_deque_capacity_grow`. -/
def capacityGrow (capacity minCapacity : ℕ) : Result (Status × ℕ) := do
  check (capacity &&& (capacity - 1) = 0) "fatal: k4c_deque_capacity_grow invalid arguments"
  if capacity ≥ minCapacity then return (.ok, capacity)
  loop (capacityGrowRound minCapacity) (minCapacity - capacity + 1) capacity

/-- The copies of `k4c_deque_grow`: the elements go to the start of the new buffer
in their order. -/
def unroll (d : Deque) (newBuffer : ℕ) (w : Memory) : Result Memory := do
  if d.size > 0 then
    if d.head < d.tail then
      let src ← sizeMul d.head d.elemSize
      let count ← sizeMul d.size d.elemSize
      w.memcpy ⟨newBuffer, 0⟩ (.inside ⟨d.buffer, src⟩) count
    else
      let firstCount ← sizeSub d.capacity d.head
      let src ← sizeMul d.head d.elemSize
      let first ← sizeMul firstCount d.elemSize
      let w ← w.memcpy ⟨newBuffer, 0⟩ (.inside ⟨d.buffer, src⟩) first
      if d.tail > 0 then
        let second ← sizeMul d.tail d.elemSize
        w.memcpy ⟨newBuffer, first⟩ (.inside ⟨d.buffer, 0⟩) second
      else return w
  else return w

/-- `k4c_deque_grow`. -/
def grow (d : Deque) (w : Memory) : Result ((Status × Deque) × Memory) := do
  match sizeAddOverflow d.size 1 with
  | none => return ((.overflow, d), w)
  | some minCapacity =>
    let (st, newCapacity) ← capacityGrow d.capacity minCapacity
    if st ≠ .ok then return ((st, d), w)
    match sizeMulOverflow newCapacity d.elemSize with
    | none => return ((.overflow, d), w)
    | some allocSize =>
      let ((st, newBuffer), w) ← Allocator.alloc Memory.libc (some d.allocator) w allocSize
      if st ≠ .ok then return ((st, d), w)
      let w ← unroll d newBuffer w
      let w ← Allocator.dealloc Memory.libc (some d.allocator) w d.buffer
      return ((.ok,
        { d with buffer := newBuffer, capacity := newCapacity, head := 0, tail := d.size }), w)

/-! ## Construction and destruction -/

/-- `k4c_deque_create`. -/
def create (elemSize : ℕ) (allocator : Option (Allocator Memory)) (w : Memory) :
    Result ((Status × Option Deque) × Memory) := do
  check (elemSize > 0) "fatal: k4c_deque_create invalid arguments"
  match sizeMulOverflow elemSize defaultCapacity with
  | none => return ((.overflow, none), w)
  | some allocSize =>
    let ((st, out), w) ← createOwner handleSize
      (fun copy w => Allocator.alloc Memory.libc (some copy) w allocSize)
      (some (Allocator.copy allocator)) allocator w
    return ((st, out.map fun (self, buffer) =>
      ⟨self, 0, elemSize, defaultCapacity, 0, 0, buffer, Allocator.copy allocator⟩), w)

/-- `k4c_deque_destroy`. -/
def destroy (d : Deque) (w : Memory) : Result Memory :=
  destroyBuffered d.allocator d.self d.buffer w

/-! ## Elements -/

/-- The address of the slot with this index. -/
def slotAt (d : Deque) (index : ℕ) : Result Ptr := do
  let offset ← sizeMul index d.elemSize
  return ⟨d.buffer, offset⟩

/-- `(index + 1) % capacity`. -/
def indexAfter (d : Deque) (index : ℕ) : Result ℕ := do
  let next ← sizeAdd index 1
  return next % d.capacity

/-- `(index + capacity - 1) % capacity`. -/
def indexBefore (d : Deque) (index : ℕ) : Result ℕ := do
  let sum ← sizeAdd index d.capacity
  let prev ← sizeSub sum 1
  return prev % d.capacity

/-- The first half of both pushes: a full deque grows. -/
def makeRoom (d : Deque) (w : Memory) : Result ((Status × Deque) × Memory) :=
  if d.size = d.capacity then grow d w else .ok ((.ok, d), w)

/-- `k4c_deque_push`. -/
def push (d : Deque) (element : Arg) (w : Memory) : Result ((Status × Deque) × Memory) := do
  check (element ≠ .null) "fatal: k4c_deque_push invalid arguments"
  check (d.capacity > 0) "fatal: k4c_deque_push invalid state"
  let ((st, d), w) ← makeRoom d w
  if st ≠ .ok then return ((st, d), w)
  let dst ← slotAt d d.tail
  let w ← w.memcpy dst element d.elemSize
  let size ← sizeAdd d.size 1
  let tail ← indexAfter d d.tail
  return ((.ok, { d with size, tail }), w)

/-- `k4c_deque_pushfront`. -/
def pushfront (d : Deque) (element : Arg) (w : Memory) : Result ((Status × Deque) × Memory) := do
  check (element ≠ .null) "fatal: k4c_deque_pushfront invalid arguments"
  check (d.capacity > 0) "fatal: k4c_deque_pushfront invalid state"
  let ((st, d), w) ← makeRoom d w
  if st ≠ .ok then return ((st, d), w)
  let head ← indexBefore d d.head
  let dst ← slotAt d head
  let w ← w.memcpy dst element d.elemSize
  let size ← sizeAdd d.size 1
  return ((.ok, { d with size, head }), w)

/-- `k4c_deque_popleft`. -/
def popleft (d : Deque) : Result (Option Ptr × Deque) := do
  check (d.capacity > 0) "fatal: k4c_deque_popleft invalid state"
  if d.size = 0 then return (none, d)
  let src ← slotAt d d.head
  let head ← indexAfter d d.head
  let size ← sizeSub d.size 1
  return (some src, { d with size, head })

/-- `k4c_deque_popback`. -/
def popback (d : Deque) : Result (Option Ptr × Deque) := do
  check (d.capacity > 0) "fatal: k4c_deque_popback invalid state"
  if d.size = 0 then return (none, d)
  let tail ← indexBefore d d.tail
  let src ← slotAt d tail
  let size ← sizeSub d.size 1
  return (some src, { d with size, tail })

/-- `k4c_deque_peekleft`. -/
def peekleft (d : Deque) : Result (Option Ptr) := do
  if d.size = 0 then return none
  let src ← slotAt d d.head
  return some src

/-- `k4c_deque_peekback`. -/
def peekback (d : Deque) : Result (Option Ptr) := do
  check (d.capacity > 0) "fatal: k4c_deque_peekback invalid state"
  if d.size = 0 then return none
  let lastIndex ← indexBefore d d.tail
  let src ← slotAt d lastIndex
  return some src

/-! ## Iteration -/

/-- `k4c_deque_iterator_state`. -/
structure IteratorState where
  base : Ptr
  elemSize : ℕ
  index : ℕ
  mask : ℕ
  remaining : ℕ
  deriving DecidableEq, Repr

/-- `k4c_deque_iterator_next`. -/
def iteratorNext (state : IteratorState) : Result (Option Ptr × IteratorState) := do
  if state.remaining = 0 then return (none, state)
  let storageIndex := state.index &&& state.mask
  let index ← sizeAdd state.index 1
  let remaining ← sizeSub state.remaining 1
  let offset ← sizeMul storageIndex state.elemSize
  return (some ⟨state.base.block, state.base.offset + offset⟩, { state with index, remaining })

/-- `k4c_deque_get_iterator`. -/
def getIterator (d : Deque) : Result (Iterator IteratorState) := do
  check (d.capacity &&& (d.capacity - 1) = 0) "fatal: k4c_deque invalid state"
  let mask ← sizeSub d.capacity 1
  return (Iterator.fromState ⟨⟨d.buffer, 0⟩, d.elemSize, d.head, mask, d.size⟩).setSizeHint d.size

end Deque

end K4c
