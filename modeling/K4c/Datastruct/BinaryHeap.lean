import Mathlib.Tactic
import K4c.Datastruct.Vector
import K4c.Mem.Utils

/-!
# Binary heaps

`k4c_binary_heap`: a vector whose elements are kept in heap order, the smallest
one first.  The order is that of a comparator on the bytes of two elements, or of
`memcmp` where there is none.
-/

namespace K4c

open Exec

/-- `struct k4c_binary_heap`; `cmp` is absent for `NULL`. -/
structure BinaryHeap where
  self : ℕ
  root : Vector
  cmp : Option (List UInt8 → List UInt8 → ℤ)
  allocator : Allocator Memory

namespace BinaryHeap

/-- `sizeof(k4c_binary_heap)`. -/
def handleSize : ℕ := 40

/-! ## Order -/

/-- The comparison of the bytes of two elements. -/
def compare (h : BinaryHeap) (a b : List UInt8) : ℤ :=
  match h.cmp with
  | some cmp => cmp a b
  | none => memcmp a b

/-- `k4c_binary_heap_compare_idx`. -/
def compareIdx (h : BinaryHeap) (i j : ℕ) (w : Memory) : Result ℤ := do
  let a ← Vector.get h.root i
  let b ← Vector.get h.root j
  let x ← Vector.deref h.root w a
  let y ← Vector.deref h.root w b
  return h.compare x y

/-- `k4c_binary_heap_swap_at`. -/
def swapAt (h : BinaryHeap) (i j : ℕ) (w : Memory) : Result Memory := do
  let a ← Vector.get h.root i
  let b ← Vector.get h.root j
  match a, b with
  | some a, some b => w.memswap a b h.root.elemSize
  | _, _ => .error .badAccess

/-- One round of the loop of `k4c_binary_heap_sift_up`. -/
def siftUpRound (h : BinaryHeap) (s : ℕ × Memory) : Result (ℕ × Memory ⊕ Memory) := do
  let (idx, w) := s
  if idx > 0 then
    let parent := (idx - 1) / 2
    let order ← compareIdx h idx parent w
    if order ≥ 0 then return .inr w
    let w ← swapAt h idx parent w
    return .inl (parent, w)
  return .inr w

/-- `k4c_binary_heap_sift_up`. -/
def siftUp (h : BinaryHeap) (idx : ℕ) (w : Memory) : Result Memory :=
  loop (siftUpRound h) (idx + 1) (idx, w)

/-- The candidate, if it is an index of the heap whose element comes before that
at `best`, else `best`. -/
def better (h : BinaryHeap) (n candidate best : ℕ) (w : Memory) : Result ℕ := do
  if candidate < n then
    let order ← compareIdx h candidate best w
    if order < 0 then return candidate
    return best
  return best

/-- One round of the loop of `k4c_binary_heap_sift_down`. -/
def siftDownRound (h : BinaryHeap) (n : ℕ) (s : ℕ × Memory) : Result (ℕ × Memory ⊕ Memory) := do
  let (idx, w) := s
  let twice ← sizeMul 2 idx
  let left ← sizeAdd twice 1
  let right ← sizeAdd left 1
  let best ← better h n left idx w
  let best ← better h n right best w
  if best = idx then return .inr w
  let w ← swapAt h idx best w
  return .inl (best, w)

/-- `k4c_binary_heap_sift_down`. -/
def siftDown (h : BinaryHeap) (idx : ℕ) (w : Memory) : Result Memory :=
  loop (siftDownRound h h.root.size) (h.root.size + 1) (idx, w)

/-! ## Construction and destruction -/

/-- `k4c_binary_heap_create`.  The handle is released through the argument, which
is the allocator the handle has a copy of. -/
def create (elemSize : ℕ) (cmp : Option (List UInt8 → List UInt8 → ℤ))
    (allocator : Option (Allocator Memory)) (w : Memory) :
    Result ((Status × Option BinaryHeap) × Memory) := do
  check (elemSize > 0) "fatal: k4c_binary_heap_create invalid arguments"
  let ((st, out), w) ← createOwner handleSize
    (fun copy w => Vector.create elemSize (some copy) w) allocator allocator w
  return ((st, out.bind fun (self, root) =>
    root.map fun root => ⟨self, root, cmp, Allocator.copy allocator⟩), w)

/-- `k4c_binary_heap_destroy`. -/
def destroy (h : BinaryHeap) (w : Memory) : Result Memory := do
  let w ← Vector.destroy h.root w
  Allocator.dealloc Memory.libc (some h.allocator) w h.self

/-! ## Elements -/

/-- `k4c_binary_heap_push`. -/
def push (h : BinaryHeap) (element : Arg) (w : Memory) :
    Result ((Status × BinaryHeap) × Memory) := do
  check (element ≠ .null) "fatal: k4c_binary_heap_push invalid arguments"
  let ((st, root), w) ← Vector.push h.root element w
  let h := { h with root }
  if st ≠ .ok then return ((st, h), w)
  let last ← sizeSub h.root.size 1
  let w ← siftUp h last w
  return ((.ok, h), w)

/-- `k4c_binary_heap_pop`. -/
def pop (h : BinaryHeap) (w : Memory) : Result ((Option Ptr × BinaryHeap) × Memory) := do
  if h.root.size = 0 then return ((none, h), w)
  if h.root.size = 1 then
    let (out, root) ← Vector.pop h.root
    return ((out, { h with root }), w)
  let last ← sizeSub h.root.size 1
  let w ← swapAt h 0 last w
  let (out, root) ← Vector.pop h.root
  let h := { h with root }
  let w ← siftDown h 0 w
  return ((out, h), w)

/-- `k4c_binary_heap_peek`. -/
def peek (h : BinaryHeap) : Result (Option Ptr) :=
  if h.root.size = 0 then .ok none else Vector.get h.root 0

/-- `k4c_binary_heap_size`. -/
def size (h : BinaryHeap) : ℕ := h.root.size

/-! ## Iteration -/

/-- `k4c_binary_heap_iterator_state`, with the fields of the one of vectors. -/
abbrev IteratorState := Vector.IteratorState

/-- `k4c_binary_heap_iterator_next`, with the body of the one of vectors. -/
def iteratorNext (state : IteratorState) : Result (Option Ptr × IteratorState) :=
  Vector.iteratorNext state

/-- `k4c_binary_heap_get_iterator`. -/
def getIterator (h : BinaryHeap) : Iterator IteratorState :=
  (Iterator.fromState ⟨Vector.data h.root, h.root.elemSize, h.root.size⟩).setSizeHint h.root.size

end BinaryHeap

end K4c
