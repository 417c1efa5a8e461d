import Mathlib.Tactic
import K4c.Datastruct.Iterator
import K4c.Lib.CString
import K4c.Mem.Blocks
import K4c.Mem.Grow

/-!
# Strings

`k4c_string`: characters behind a header, in one block that grows by half.  The
header is the record; its length is stored, and the characters are also ended by
a NUL, so that the string can be passed to C.

A `const char *` argument is a pointer to bytes; how many of them are the string,
`strlen` finds out.
-/

namespace K4c

open Exec

/-- `k4c_string_header`, at the start of `block`; the handle points behind it. -/
structure StringHeader where
  block : ℕ
  len : ℕ
  capacity : ℕ
  allocator : Allocator Memory

namespace StringHeader

/-- `K4C_STRING_DEFAULT_CAPACITY`. -/
def defaultCapacity : ℕ := 16

/-- `sizeof(k4c_string_header)`, which is also the offset of `buf`. -/
def headerSize : ℕ := 40

/-- `header->buf + index`. -/
def buf (s : StringHeader) (index : ℕ) : Ptr := ⟨s.block, headerSize + index⟩

/-- `header->buf[index] = c`. -/
def setChar (s : StringHeader) (w : Memory) (index : ℕ) (c : List UInt8) : Result Memory :=
  w.write s.block (headerSize + index) c

/-- `strlen` of an argument. -/
def strlen (w : Memory) (s : Arg) : Result ℕ := w.bytesFrom s >>= CString.strlen

/-! ## Growing -/

/-- `k4c_string_capacity_grow`. -/
def capacityGrow (capacity minCapacity : ℕ) : Result (Status × ℕ) :=
  growByHalf capacity minCapacity

/-- `k4c_string_capacity_for`. -/
def capacityFor (len : ℕ) : Result (Status × ℕ) :=
  match sizeAddOverflow len 1 with
  | none => .ok (.overflow, 0)
  | some minCapacity => capacityGrow defaultCapacity minCapacity

/-- `k4c_string_ensure_capacity`. -/
def ensureCapacity (s : StringHeader) (len : ℕ) (w : Memory) :
    Result ((Status × StringHeader) × Memory) := do
  if len < s.capacity then return ((.ok, s), w)
  let (st, newCapacity) ← capacityFor len
  if st ≠ .ok then return ((st, s), w)
  match sizeAddOverflow headerSize newCapacity with
  | none => return ((.overflow, s), w)
  | some allocSize =>
    let ((st, tmp), w) ← Allocator.resize Memory.libc (some s.allocator) w s.block allocSize
    if st ≠ .ok then return ((st, s), w)
    return ((.ok, { s with block := tmp, capacity := newCapacity }), w)

/-! ## Construction and destruction -/

/-- `initial == NULL ? 0 : strlen(initial)`. -/
def initialLen (w : Memory) (initial : Arg) : Result ℕ :=
  if initial = .null then .ok 0 else strlen w initial

/-- `if (len > 0) memcpy(header->buf, initial, len)`. -/
def copyInitial (header : StringHeader) (w : Memory) (initial : Arg) (len : ℕ) : Result Memory :=
  if len > 0 then w.memcpy (header.buf 0) initial len else .ok w

/-- `k4c_string_create`. -/
def create (initial : Arg) (allocator : Option (Allocator Memory)) (w : Memory) :
    Result ((Status × Option StringHeader) × Memory) := do
  let len ← initialLen w initial
  let (st, capacity) ← capacityFor len
  if st ≠ .ok then return ((st, none), w)
  match sizeAddOverflow headerSize capacity with
  | none => return ((.overflow, none), w)
  | some allocSize =>
    let ((st, block), w) ← Allocator.alloc Memory.libc allocator w allocSize
    if st ≠ .ok then return ((st, none), w)
    let header : StringHeader := ⟨block, len, capacity, Allocator.copy allocator⟩
    let w ← header.copyInitial w initial len
    let w ← header.setChar w len [0]
    return ((.ok, some header), w)

/-- `k4c_string_destroy`. -/
def destroy (s : StringHeader) (w : Memory) : Result Memory :=
  Allocator.dealloc Memory.libc (some s.allocator) w s.block

/-! ## Changing the text -/

/-- `k4c_string_append`. -/
def append (s : StringHeader) (suffix : Arg) (w : Memory) :
    Result ((Status × StringHeader) × Memory) := do
  check (suffix ≠ .null) "fatal: k4c_string_append invalid arguments"
  let suffixLen ← strlen w suffix
  if suffixLen = 0 then return ((.ok, s), w)
  match sizeAddOverflow s.len suffixLen with
  | none => return ((.overflow, s), w)
  | some newLen =>
    let ((st, header), w) ← ensureCapacity s newLen w
    if st ≠ .ok then return ((st, header), w)
    let w ← w.memcpy (header.buf header.len) suffix suffixLen
    let header := { header with len := newLen }
    let w ← header.setChar w header.len [0]
    return ((.ok, header), w)

/-- `k4c_string_prepend`. -/
def prepend (s : StringHeader) (text : Arg) (w : Memory) :
    Result ((Status × StringHeader) × Memory) := do
  check (text ≠ .null) "fatal: k4c_string_prepend invalid arguments"
  let prefixLen ← strlen w text
  if prefixLen = 0 then return ((.ok, s), w)
  match sizeAddOverflow s.len prefixLen with
  | none => return ((.overflow, s), w)
  | some newLen =>
    let oldLen := s.len
    let ((st, header), w) ← ensureCapacity s newLen w
    if st ≠ .ok then return ((st, header), w)
    let w ← w.memmove (header.buf prefixLen) (.inside (header.buf 0)) (← sizeAdd oldLen 1)
    let oldFirst ← w.read header.block (headerSize + prefixLen) 1
    let w ← w.memmove (header.buf 0) text (← sizeAdd prefixLen 1)
    let w ← header.setChar w prefixLen oldFirst
    return ((.ok, { header with len := newLen }), w)

/-- `k4c_string_clear`. -/
def clear (s : StringHeader) (w : Memory) : Result (StringHeader × Memory) := do
  let s := { s with len := 0 }
  let w ← s.setChar w 0 [0]
  return (s, w)

/-! ## Asking about the text -/

/-- `k4c_string_contains`. -/
def contains (s : StringHeader) (w : Memory) (needle : Arg) : Result Bool := do
  if needle = .null then return false
  let found ← CString.strstr (← w.bytesFrom (.inside (s.buf 0))) (← w.bytesFrom needle)
  return found.isSome

/-- `k4c_string_starts_with`. -/
def startsWith (s : StringHeader) (w : Memory) (text : Arg) : Result Bool := do
  if text = .null then return false
  let prefixLen ← strlen w text
  let order ← CString.strncmp (← w.bytesFrom (.inside (s.buf 0))) (← w.bytesFrom text) prefixLen
  return decide (order = 0)

/-- `k4c_string_ends_with`. -/
def endsWith (s : StringHeader) (w : Memory) (suffix : Arg) : Result Bool := do
  if suffix = .null then return false
  let suffixLen ← strlen w suffix
  if suffixLen > s.len then return false
  let last ← w.source (.inside (s.buf (← sizeSub s.len suffixLen))) suffixLen
  let bytes ← w.source suffix suffixLen
  return decide (CString.memcmp last bytes = 0)

/-! ## Iteration -/

/-- `k4c_string_iterator_state`: `cursor` and `end`. -/
structure IteratorState where
  cursor : Ptr
  stop : Ptr
  deriving DecidableEq, Repr

/-- `k4c_string_iterator_next`. -/
def iteratorNext (state : IteratorState) : Result (Option Ptr × IteratorState) :=
  if state.cursor = state.stop then .ok (none, state)
  else
    let cursor := ⟨state.cursor.block, state.cursor.offset + 1⟩
    .ok (some state.cursor, { state with cursor })

/-- `k4c_string_get_iterator`. -/
def getIterator (s : StringHeader) : Iterator IteratorState :=
  (Iterator.fromState ⟨s.buf 0, s.buf s.len⟩).setSizeHint s.len

end StringHeader

end K4c
