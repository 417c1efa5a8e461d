import Mathlib.Tactic
import K4c.Lib.Words
import K4c.Datastruct.DoublyLinkedList
import K4c.Mem.Allocator

/-!
# The general heap

`k4c_heap` keeps its blocks inside one buffer: a header of 32 bytes, then the
payload.  The headers are linked into a list in address order.

The model holds the bytes of memory and reads and writes each header field where
the C structure has it:

    offset 0   size       offset 8   node.prev      offset 24   is_free
                          offset 16  node.next
-/

namespace K4c

open Exec Words

/-- `k4c_heap`, with the memory its buffer is part of. -/
structure Heap where
  mem : Words.Memory
  buffer : ℕ
  capacity : ℕ
  blocks : DoublyLinkedList

namespace Heap

/-- `sizeof(k4c_heap_block)`. -/
def headerSize : ℕ := 32

/-! ## Header fields -/

/-- `block->size`. -/
def blockSize (m : Words.Memory) (block : ℕ) : ℕ := loadWord m block

/-- `block->is_free`. -/
def blockIsFree (m : Words.Memory) (block : ℕ) : Bool := m (block + 24) ≠ 0

/-- `&block->node`. -/
def blockNode (block : ℕ) : ℕ := block + 8

/-- `block->size = v`. -/
def setSize (m : Words.Memory) (block v : ℕ) : Words.Memory := storeWord m block v

/-- `block->is_free = v`. -/
def setIsFree (m : Words.Memory) (block : ℕ) (v : Bool) : Words.Memory :=
  Function.update m (block + 24) (if v then 1 else 0)

/-- `K4C_CONTAINER_OF(node, k4c_heap_block, node)`, and `NULL` for `NULL`. -/
def blockOfNode (node : ℕ) : ℕ := if node = 0 then 0 else node - 8

/-- `k4c_heap_head`. -/
def head (h : Heap) : ℕ := blockOfNode h.blocks.head

/-- `k4c_heap_next`. -/
def next (m : Words.Memory) (block : ℕ) : ℕ := blockOfNode (NodeStore.next m (blockNode block))

/-- `k4c_heap_prev`. -/
def prev (m : Words.Memory) (block : ℕ) : ℕ := blockOfNode (NodeStore.prev m (blockNode block))

/-! ## Splitting and merging blocks -/

section Operations

variable [Platform]

/-- `k4c_heap_split_block`. -/
def splitBlock (h : Heap) (block size : ℕ) : Result Heap := do
  let remaining ← sizeSub (blockSize h.mem block) size
  if remaining ≤ headerSize + memoryAlign then return h
  let split := block + headerSize + size
  let mem := setSize h.mem split (← sizeSub remaining headerSize)
  let mem := setIsFree mem split true
  let mem := setSize mem block size
  let (blocks, mem) ← h.blocks.insertAfter mem (blockNode block) (blockNode split)
  return { h with mem, blocks }

/-- `block->size += sizeof(k4c_heap_block) + next->size`, and `next` leaves the
list: the two statements that merge a block with the one behind it. -/
def absorb (h : Heap) (block next : ℕ) : Result Heap := do
  let size ← sizeAdd (blockSize h.mem block) (← sizeAdd headerSize (blockSize h.mem next))
  let mem := setSize h.mem block size
  let (blocks, mem) ← h.blocks.remove mem (blockNode next)
  return { h with mem, blocks }

/-- The first half of `k4c_heap_coalesce`: `if (next != NULL && next->is_free)`. -/
def coalesceNext (h : Heap) (block : ℕ) : Result Heap :=
  let nxt := next h.mem block
  if nxt ≠ 0 ∧ blockIsFree h.mem nxt then absorb h block nxt else .ok h

/-- The second half of `k4c_heap_coalesce`: `if (prev != NULL && prev->is_free)`. -/
def coalescePrev (h : Heap) (block : ℕ) : Result (ℕ × Heap) := do
  let prv := prev h.mem block
  if prv ≠ 0 ∧ blockIsFree h.mem prv then return (prv, ← absorb h prv block)
  return (block, h)

/-- `k4c_heap_coalesce`. -/
def coalesce (h : Heap) (block : ℕ) : Result (ℕ × Heap) := do
  coalescePrev (← coalesceNext h block) block

/-! ## The allocator operations -/

/-- One round of the first-fit loop of `k4c_heap_vtable_alloc`, at a block. -/
def allocRound (h : Heap) (size block : ℕ) : Result (ℕ ⊕ ℕ × Heap) := do
  if block = 0 then return .inr (0, h)
  if blockIsFree h.mem block ∧ blockSize h.mem block ≥ size then
    let h ← splitBlock h block size
    return .inr (block + headerSize, { h with mem := setIsFree h.mem block false })
  return .inl (next h.mem block)

/-- `k4c_heap_vtable_alloc`: the pointer, or `NULL`. -/
def vtableAlloc (h : Heap) (size : ℕ) : Result (ℕ × Heap) := do
  check (h.buffer ≠ 0) "fatal: k4c_heap_alloc invalid k4c_heap"
  check (size > 0) "fatal: k4c_heap_alloc invalid arguments"
  match alignUpOverflow size memoryAlign with
  | none => return (0, h)
  | some size => loop (allocRound h size) (h.blocks.size + 1) (head h)

/-- `k4c_heap_vtable_dealloc`. -/
def vtableDealloc (h : Heap) (ptr : ℕ) : Result Heap := do
  check (ptr ≠ 0) "fatal: k4c_heap_dealloc invalid arguments"
  check (h.buffer ≠ 0) "fatal: k4c_heap_dealloc invalid k4c_heap"
  let start := h.buffer
  let stop ← sizeAdd start h.capacity
  if ptr ≤ start ∨ ptr ≥ stop then return h
  let block := ptr - headerSize
  let h := { h with mem := setIsFree h.mem block true }
  let (_, h) ← coalesce h block
  return h

/-- The test of `k4c_heap_vtable_realloc` for growth in place: the next block is
free and makes this one large enough. -/
def growsInPlace (h : Heap) (block size : ℕ) : Result Bool := do
  let nxt := next h.mem block
  if nxt ≠ 0 ∧ blockIsFree h.mem nxt then
    let total ← sizeAdd (← sizeAdd (blockSize h.mem block) headerSize) (blockSize h.mem nxt)
    return decide (total ≥ size)
  return false

/-- The end of `k4c_heap_vtable_realloc`: allocate, copy the payload, free. -/
def moveBlock (h : Heap) (ptr size : ℕ) : Result (ℕ × Heap) := do
  let block := ptr - headerSize
  let (newPtr, h) ← vtableAlloc h size
  if newPtr = 0 then return (0, h)
  let mem ← memcpy h.mem newPtr ptr (blockSize h.mem block)
  return (newPtr, ← vtableDealloc { h with mem } ptr)

/-- `k4c_heap_vtable_realloc`: the pointer, or `NULL`. -/
def vtableRealloc (h : Heap) (ptr size : ℕ) : Result (ℕ × Heap) := do
  check (h.buffer ≠ 0) "fatal: k4c_heap_realloc invalid k4c_heap"
  if ptr = 0 then return ← vtableAlloc h size
  if size = 0 then return (0, ← vtableDealloc h ptr)
  match alignUpOverflow size memoryAlign with
  | none => return (0, h)
  | some size =>
    let block := ptr - headerSize
    if blockSize h.mem block ≥ size then return (ptr, ← splitBlock h block size)
    if ← growsInPlace h block size then
      let h ← absorb h block (next h.mem block)
      return (ptr, ← splitBlock h block size)
    moveBlock h ptr size

/-! ## The heap itself -/

/-- The end of `k4c_heap_create`: the buffer becomes one free block. -/
def init (mem : Words.Memory) (buffer capacity : ℕ) : Result Heap := do
  let block := buffer
  let mem := setSize mem block (← sizeSub capacity headerSize)
  let mem := setIsFree mem block true
  let (blocks, mem) ← DoublyLinkedList.empty.push mem (blockNode block)
  return { mem, buffer, capacity, blocks }

/-- `k4c_heap_create`, in a memory `mem` and over a libc with state `w`. -/
def create {ν : Type} (libc : Libc ν) (mem : Words.Memory) (w : ν) (capacity : ℕ) :
    Result ((Status × Option Heap) × ν) := do
  check (capacity > headerSize + memoryAlign) "fatal: k4c_heap_create invalid capacity"
  match alignUpOverflow capacity memoryAlign with
  | none => return ((.overflow, none), w)
  | some capacity =>
    let ((st, heap), w) ← Allocator.alloc libc none w 24
    if st ≠ .ok then return ((st, none), w)
    let ((st, buffer), w) ← Allocator.alloc libc none w capacity
    if st ≠ .ok then return ((st, none), ← Allocator.dealloc libc none w heap)
    let ((st, _), w) ← Allocator.alloc libc none w 48
    if st ≠ .ok then
      let w ← Allocator.dealloc libc none w buffer
      return ((st, none), ← Allocator.dealloc libc none w heap)
    return ((.ok, some (← init mem buffer capacity)), w)

/-- `k4c_heap_allocator_view`. -/
def allocatorView : Allocator Heap where
  features := { dealloc := true, realloc := true, reset := false }
  vtable := some
    { alloc := some vtableAlloc, resize := some vtableRealloc, dealloc := some vtableDealloc }

/-- One round of the loop of `k4c_heap_available`: the total so far and a block. -/
def availableRound (h : Heap) : ℕ × ℕ → Result (ℕ × ℕ ⊕ ℕ)
  | (total, block) => do
    if block = 0 then return .inr total
    let total ← if blockIsFree h.mem block then sizeAdd total (blockSize h.mem block)
      else pure total
    return .inl (total, next h.mem block)

/-- `k4c_heap_available`. -/
def available (h : Heap) : Result ℕ := do
  check (h.buffer ≠ 0) "fatal: k4c_heap_available invalid k4c_heap"
  loop (availableRound h) (h.blocks.size + 1) (0, head h)

end Operations

end Heap
end K4c
