import Mathlib.Tactic
import K4c.Lib.Bytes
import K4c.Lib.Runs
import K4c.Buffer.Cursor
import K4c.Mem.Size

/-!
# The buffered reader

`k4c_reader` reads a source through a caller-supplied buffer `data`.  The bytes
`data[pos..len)` are buffered and not yet delivered; `rebase` moves them to the
front when the tail of the buffer is too short, and `fillMore` asks the source
for more.  The source is a `ReaderVtable`: a state `ctx` and a `read` operation that
may answer anything; what a source promises is stated where it is used.

An operation answers with a status and, when it wrote `*out`, with what it
wrote.
-/

namespace K4c

open Exec Bytes

/-- What one call of `vtable->read` does: the bytes it stores at `data`, whose
number is `*out_len`, and the status it returns. -/
structure ReadResult where
  bytes : List UInt8
  status : Status
  deriving DecidableEq, Repr

/-- `k4c_reader_vtable` over a source with state `σ`.  `read ctx data capacity`
is asked for at most `capacity` bytes at offset `data` of the buffer. -/
structure ReaderVtable (σ : Type) where
  read : σ → (data capacity : ℕ) → ReadResult × σ

/-- `k4c_reader`, with `data` the contents of the caller's buffer. -/
structure Reader (σ : Type) where
  ctx : σ
  data : List UInt8
  pos : ℕ
  len : ℕ
  capacity : ℕ

namespace Reader

variable {σ : Type}

/-! ## Refilling the buffer -/

/-- `k4c_reader_rebase`: make `capacity` bytes addressable from `pos`. -/
def rebase (r : Reader σ) (capacity : ℕ) : Result (Status × Reader σ) := do
  if capacity > r.capacity then return (.overflow, r)
  if (← sizeSub r.capacity r.pos) ≥ capacity then return (.ok, r)
  let available ← sizeSub r.len r.pos
  if available > capacity then return (.overflow, r)
  if available = 0 then return (.ok, { r with pos := 0, len := 0 })
  let moved ← readAt r.data r.pos available
  let data ← writeAt r.data 0 moved
  return (.ok, { r with data, pos := 0, len := available })

/-- `k4c_reader_fill_more`: one read of at most `maxReadLen` bytes, after a
rebase to a window of `requiredCapacity` bytes. -/
def fillMore (vt : ReaderVtable σ) (r : Reader σ) (requiredCapacity maxReadLen : ℕ) :
    Result (Status × Reader σ) := do
  let (st, r) ← rebase r requiredCapacity
  if st ≠ .ok then return (st, r)
  let freeCapacity ← sizeSub r.capacity r.len
  let readCapacity := if maxReadLen < freeCapacity then maxReadLen else freeCapacity
  if readCapacity = 0 then return (.overflow, r)
  let (res, ctx) := vt.read r.ctx r.len readCapacity
  let readLen := res.bytes.length
  check (readLen ≤ readCapacity) "fatal: k4c_reader_fill_more invalid read result"
  let data ← writeAt r.data r.len res.bytes
  let r := { r with ctx, data, len := r.len + readLen }
  if readLen > 0 then return (.ok, r)
  if res.status = .ok then return (.eof, r)
  return (res.status, r)

/-! ## The public operations -/

/-- `k4c_reader_create`. -/
def create (ctx : σ) (data : List UInt8) (capacity : ℕ) : Result (Reader σ) := do
  check (capacity > 0) "fatal: k4c_reader_create invalid arguments"
  return { ctx, data, pos := 0, len := 0, capacity }

/-- `k4c_reader_take_byte`. -/
def takeByte (vt : ReaderVtable σ) (r : Reader σ) :
    Result ((Status × Option UInt8) × Reader σ) := do
  check (r.capacity > 0) "fatal: k4c_reader_take_byte invalid arguments"
  let (st, r) ← if r.pos ≥ r.len then fillMore vt r 1 r.capacity else pure (.ok, r)
  if st ≠ .ok then return ((st, none), r)
  let out ← readAt r.data r.pos 1
  return ((.ok, out.head?), { r with pos := r.pos + 1 })

/-- One round of the refill loop of `k4c_reader_take_array`. -/
def takeArrayRound (vt : ReaderVtable σ) (count : ℕ) (r : Reader σ) :
    Result (Reader σ ⊕ (Status × Option BufCursor) × Reader σ) := do
  let available ← sizeSub r.len r.pos
  if available < count then
    let (st, r) ← fillMore vt r count (count - available)
    if st ≠ .ok then return .inr ((st, none), r)
    return .inl r
  return .inr ((.ok, some (.create r.pos count)), { r with pos := r.pos + count })

/-- `k4c_reader_take_array`. -/
def takeArray (vt : ReaderVtable σ) (count : ℕ) (r : Reader σ) :
    Result ((Status × Option BufCursor) × Reader σ) := do
  check (r.capacity > 0) "fatal: k4c_reader_take_array invalid arguments"
  if count > r.capacity then return ((.overflow, none), r)
  loop (takeArrayRound vt count) (r.capacity + 2) r

/-- One round of the loop of `k4c_reader_take_delimiter`. -/
def takeDelimiterRound (vt : ReaderVtable σ) (delimiter : UInt8) (r : Reader σ) :
    Result (Reader σ ⊕ (Status × Option BufCursor) × Reader σ) := do
  let start := r.pos
  let available ← sizeSub r.len r.pos
  if available = 0 then
    let (st, r) ← fillMore vt r 1 r.capacity
    if st ≠ .ok then return .inr ((st, none), r)
    return .inl r
  -- memchr(start, delimiter, available)
  match (← readAt r.data start available).idxOf? delimiter with
  | none =>
    if available = r.capacity then return .inr ((.overflow, none), r)
    let (st, r) ← fillMore vt r (available + 1) r.capacity
    if st = .eof then
      -- the source has ended: what is left is the last, unterminated segment
      let available ← sizeSub r.len r.pos
      if available = 0 then return .inr ((.eof, none), r)
      return .inr ((.ok, some (.create r.pos available)), { r with pos := r.len })
    if st ≠ .ok then return .inr ((st, none), r)
    return .inl r
  | some found =>
    let outLen := found + 1
    return .inr ((.ok, some (.create start outLen)), { r with pos := r.pos + outLen })

/-- `k4c_reader_take_delimiter`. -/
def takeDelimiter (vt : ReaderVtable σ) (delimiter : UInt8) (r : Reader σ) :
    Result ((Status × Option BufCursor) × Reader σ) := do
  check (r.capacity > 0) "fatal: k4c_reader_take_delimiter invalid arguments"
  loop (takeDelimiterRound vt delimiter) (r.capacity + 2) r

/-! ## Calls -/

/-- A call of the public interface. -/
inductive Call where
  | takeByte
  | takeArray (count : ℕ)
  | takeDelimiter (delimiter : UInt8)
  deriving DecidableEq, Repr

/-- What the caller sees of a call: the status and, when `*out` was written, the
bytes delivered through it. -/
structure Answer where
  status : Status
  out : Option (List UInt8)
  deriving DecidableEq, Repr

/-- The bytes a call delivered. -/
def Answer.delivered (a : Answer) : List UInt8 := a.out.getD []

/-- Make a call and look at what it delivered before anything else happens. -/
def step (vt : ReaderVtable σ) (r : Reader σ) : Call → Result (Answer × Reader σ)
  | .takeByte => do
    let ((status, out), r) ← takeByte vt r
    return (⟨status, out.map fun b => [b]⟩, r)
  | .takeArray count => do
    let ((status, out), r) ← takeArray vt count r
    return (⟨status, out.map (·.bytes r.data)⟩, r)
  | .takeDelimiter delimiter => do
    let ((status, out), r) ← takeDelimiter vt delimiter r
    return (⟨status, out.map (·.bytes r.data)⟩, r)

end Reader
end K4c
