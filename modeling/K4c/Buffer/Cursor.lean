import Mathlib.Tactic
import K4c.Error
import K4c.Lib.Bytes
import K4c.Lib.CString
import K4c.Mem.Size

/-!
# Byte cursors

A `k4c_buf_cursor` is a borrowed range of somebody else's bytes with a read
position.  The range is given by its start in the memory that owns the bytes.
-/

namespace K4c

open Exec Bytes

/-- `k4c_buf_cursor`: `len` bytes from `data` on, of which `pos` are consumed. -/
structure BufCursor where
  data : ℕ
  len : ℕ
  pos : ℕ
  deriving DecidableEq, Repr

namespace BufCursor

/-- `k4c_buf_cursor_create`. -/
def create (data len : ℕ) : BufCursor := { data, len, pos := 0 }

/-- The bytes a cursor covers, in the memory it borrows from. -/
def bytes (memory : List UInt8) (c : BufCursor) : List UInt8 := Bytes.slice memory c.data c.len

@[simp] theorem bytes_create (memory : List UInt8) (data len : ℕ) :
    (create data len).bytes memory = Bytes.slice memory data len := rfl

/-- `k4c_buf_cursor_create` with its assertion; `data` is absent for `NULL`. -/
def createChecked (data : Option ℕ) (len : ℕ) : Result BufCursor := do
  check (data ≠ none ∨ len = 0) "fatal: k4c_buf_cursor_create invalid arguments"
  return create (data.getD 0) len

/-- `k4c_buf_cursor_create_from_cstr`. -/
def createFromCstr (memory : List UInt8) (text : Option ℕ) : Result BufCursor := do
  check (text ≠ none) "fatal: k4c_buf_cursor_create_from_cstr invalid arguments"
  let len ← CString.strlen (memory.drop (text.getD 0))
  createChecked text len

/-! ## Looking -/

/-- `k4c_buf_cursor_at_end`. -/
def atEnd (c : BufCursor) : Bool := decide (c.pos ≥ c.len)

/-- `k4c_buf_cursor_position`. -/
def position (c : BufCursor) : ℕ := c.pos

/-- `k4c_buf_cursor_remaining`. -/
def remaining (c : BufCursor) : Result ℕ :=
  if c.pos ≥ c.len then .ok 0 else sizeSub c.len c.pos

/-- `k4c_buf_cursor_peek_at`: the status, and `*out` where it is written. -/
def peekAt (memory : List UInt8) (c : BufCursor) (offset : ℕ) :
    Result (Status × Option UInt8) := do
  if offset ≥ (← remaining c) then return (.eof, none)
  let index ← sizeAdd c.pos offset
  let byte ← readAt memory (c.data + index) 1
  return (.ok, byte.head?)

/-- `k4c_buf_cursor_peek`. -/
def peek (memory : List UInt8) (c : BufCursor) : Result (Status × Option UInt8) :=
  peekAt memory c 0

/-- `k4c_buf_cursor_starts_with`; `bytes` is what can be read from the argument on, absent
for `NULL`. -/
def startsWith (memory : List UInt8) (c : BufCursor) (bytes : Option (List UInt8)) (len : ℕ) :
    Result Bool := do
  check (bytes ≠ none ∨ len = 0) "fatal: k4c_buf_cursor_starts_with invalid arguments"
  if len > (← remaining c) then return false
  let lhs ← readAt memory (c.data + c.pos) len
  let rhs ← readAt (bytes.getD []) 0 len
  return decide (CString.memcmp lhs rhs = 0)

/-! ## Moving on -/

/-- `k4c_buf_cursor_next`. -/
def next (memory : List UInt8) (c : BufCursor) :
    Result ((Status × Option UInt8) × BufCursor) := do
  let (st, out) ← peek memory c
  if st ≠ .ok then return ((st, none), c)
  let pos ← sizeAdd c.pos 1
  return ((.ok, out), { c with pos })

/-- `k4c_buf_cursor_skip`. -/
def skip (c : BufCursor) (count : ℕ) : Result (Status × BufCursor) := do
  if count > (← remaining c) then return (.eof, c)
  let pos ← sizeAdd c.pos count
  return (.ok, { c with pos })

/-- `k4c_buf_cursor_next_if`. -/
def nextIf (memory : List UInt8) (c : BufCursor) (expected : UInt8) :
    Result (Bool × BufCursor) := do
  let (st, byte) ← peek memory c
  if st ≠ .ok ∨ byte.getD 0 ≠ expected then return (false, c)
  let pos ← sizeAdd c.pos 1
  return (true, { c with pos })

variable {κ : Type}

/-- One round of the loop of `k4c_buf_cursor_skip_while`.  What the predicate does to its
context is part of its answer. -/
def skipWhileRound (memory : List UInt8) (predicate : κ → UInt8 → Bool × κ) (s : BufCursor × κ) :
    Result (BufCursor × κ ⊕ BufCursor × κ) := do
  let (c, context) := s
  if c.atEnd then return .inr (c, context)
  let (st, byte) ← peek memory c
  if st ≠ .ok then return .inr (c, context)
  let (goOn, context) := predicate context (byte.getD 0)
  if !goOn then return .inr (c, context)
  let pos ← sizeAdd c.pos 1
  return .inl ({ c with pos }, context)

/-- `k4c_buf_cursor_skip_while`. -/
def skipWhile (memory : List UInt8) (c : BufCursor) (predicate : κ → UInt8 → Bool × κ)
    (context : κ) : Result (ℕ × BufCursor × κ) := do
  let start := c.pos
  let (c, context) ← loop (skipWhileRound memory predicate) (c.len + 1) (c, context)
  let count ← sizeSub c.pos start
  return (count, c, context)

/-- `k4c_buf_cursor_is_ascii_whitespace`. -/
def isAsciiWhitespace (byte : UInt8) : Bool :=
  byte == 32 || byte == 9 || byte == 10 || byte == 13 || byte == 12 || byte == 11

/-- `k4c_buf_cursor_skip_ascii_whitespace`. -/
def skipAsciiWhitespace (memory : List UInt8) (c : BufCursor) : Result BufCursor := do
  let (_, c, _) ← skipWhile memory c (fun _ byte => (isAsciiWhitespace byte, ())) ()
  return c

end BufCursor
end K4c
