import Mathlib.Tactic
import K4c.Lib.Refusals
import K4c.Lib.Bytes
import K4c.Mem.Allocator

/-!
# The memory of the containers

A container sees the heap as blocks: its handle, the buffers it allocates and,
for the hash tables, one block for each entry.  This file fixes what a block can
hold and puts the memory of `K4c.Lib.Blocks` behind the allocator interface, as
libc and as a view with any feature bits.

* `Backed` — the allocators that end in this memory: the default one, and every
  view whose three operations are present.  `Reclaims` says that `k4c_dealloc`
  really releases; an arena-like view, which does not advertise it, keeps the
  block.
* `alloc_spec`, `resize_spec`, `dealloc_spec` — the three generic calls, on any
  allocator of this kind.
* `Explains` — a call fails for a reason: a request was refused, or something is too large.
* `Memory.read`, `Memory.write`, `Memory.memcpy` — the accesses to byte buffers.
-/

namespace K4c

open Exec Bytes

/-- What a block holds, by the type it was last written through. -/
inductive Content where
  /-- Plain bytes: an element buffer, or a block nothing typed was stored in. -/
  | bytes (bs : List UInt8)
  /-- A bucket array: the head of each list, 0 for an empty one. -/
  | buckets (heads : List ℕ)
  /-- A hash table entry: `node.next`, `hash` and `data`. -/
  | entry (next hash : ℕ) (data : List UInt8)
  deriving DecidableEq, Repr

/-- The bytes that a pointer into a block can reach: of an entry, those of `data`. -/
def Content.reach : Content → Option (List UInt8)
  | .bytes bs => some bs
  | .buckets _ => none
  | .entry _ _ data => some data

/-- The content with other bytes in reach. -/
def Content.withBytes (new : List UInt8) : Content → Content
  | .bytes _ => .bytes new
  | .buckets heads => .buckets heads
  | .entry next hash _ => .entry next hash new

abbrev Memory := Blocks.Mem Content

/-- `void *` into a block.  Into an entry it points behind the header: the offset
counts from `data`. -/
structure Ptr where
  block : ℕ
  offset : ℕ
  deriving DecidableEq, Repr

/-- Where a `const void *` argument points: nowhere, at bytes of the caller, or
into a block of the memory. -/
inductive Arg where
  | null
  | outside (bs : List UInt8)
  | inside (p : Ptr)
  deriving DecidableEq, Repr

namespace Memory

variable {w w' : Memory} {p size : ℕ}

/-- A block nothing was written to. -/
def fresh (size : ℕ) (junk : ℕ → UInt8) : Content := .bytes ((List.range size).map junk)

/-- A byte buffer after `realloc`; no other block is ever resized. -/
def grown (size : ℕ) (junk : ℕ → UInt8) : Content → Content
  | .bytes bs => .bytes ((List.range size).map fun i => bs.getD i (junk i))
  | content => content

/-- The memory as libc. -/
def libc : Libc Memory where
  malloc w size := .ok (w.alloc size (fresh size))
  realloc w p size := w.resize p size (fresh size) (grown size)
  free w p := w.free p

/-- The memory behind a table of operations. -/
def view (features : Features) : Allocator Memory where
  features := features
  vtable := some ⟨some libc.malloc, some libc.realloc, some libc.free⟩

end Memory

/-! ## The generic calls -/

/-- An allocator that ends in the block memory. -/
inductive Backed : Allocator Memory → Prop
  | default (features : Features) : Backed ⟨features, none⟩
  | view (features : Features) : Backed (Memory.view features)

/-- What a call has asked for explains its status.  For want of memory it fails only when it
was refused some, and for no other reason than that something is too large. -/
structure Memory.Explains (w w' : Memory) (tooLarge : Prop) (st : Status) : Prop where
  asked : w.Asked w' (st = .noMemory)
  fails : st ≠ .ok → st.Fails tooLarge

namespace Memory.Explains

variable {w w₁ w₂ : Memory} {tooLarge tooLarge' : Prop} {st : Status}

theorem mono (h : w.Explains w₁ tooLarge st) (himp : tooLarge → tooLarge') :
    w.Explains w₁ tooLarge' st :=
  ⟨h.asked, fun hst => (h.fails hst).mono himp⟩

theorem ok (h : w.Asked w₁ False) : w.Explains w₁ tooLarge .ok :=
  ⟨h.mono nofun, fun hst => absurd rfl hst⟩

theorem overflow (h : tooLarge) : w.Explains w tooLarge .overflow :=
  ⟨.refl w nofun, fun _ => .inr ⟨rfl, h⟩⟩

/-- A call that has succeeded may have asked for anything. -/
theorem asked_of_ok (h : w.Explains w₁ tooLarge .ok) : w.Asked w₁ False :=
  h.asked.mono False.elim

theorem after (h : w₁.Explains w₂ tooLarge st) (h' : w.Asked w₁ False) :
    w.Explains w₂ tooLarge st :=
  ⟨h'.andThen h.asked, h.fails⟩

theorem keep (h : w.Explains w₁ tooLarge st) (h' : w₁.Asked w₂ False) :
    w.Explains w₂ tooLarge st :=
  ⟨h.asked.keep h', h.fails⟩

end Memory.Explains

/-- `k4c_dealloc` releases what it is given. -/
def Reclaims (a : Allocator Memory) : Prop := a.vtable = none ∨ a.features.dealloc = true

namespace Allocator

variable {a : Allocator Memory} {w : Memory} {p size : ℕ}

/-- A call through the allocator argument of a constructor is a call through the
copy the handle keeps. -/
theorem alloc_copy (a : Option (Allocator Memory)) (w : Memory) (size : ℕ) :
    alloc Memory.libc a w size = alloc Memory.libc (some (copy a)) w size := by
  cases a <;> rfl

theorem dealloc_copy (a : Option (Allocator Memory)) (w : Memory) (p : ℕ) :
    dealloc Memory.libc a w p = dealloc Memory.libc (some (copy a)) w p := by
  cases a <;> rfl

theorem alloc_eq (ha : Backed a) (w : Memory) (size : ℕ) :
    alloc Memory.libc (some a) w size = .ok (answer (w.alloc size (Memory.fresh size))) := by
  cases ha <;> rfl

theorem alloc_refused (ha : Backed a) (size : ℕ) (h : w.answers w.requests = none) :
    alloc Memory.libc (some a) w size = .ok ((.noMemory, 0), w.refuse) := by
  rw [alloc_eq ha, Blocks.Mem.alloc_refused h, answer, if_pos rfl]

theorem alloc_granted (ha : Backed a) (size : ℕ) {g : Blocks.Grant}
    (h : w.answers w.requests = some g) :
    ∃ bs w', alloc Memory.libc (some a) w size = .ok ((.ok, w.next), w') ∧ bs.length = size ∧
      w'.cells = Function.update w.cells w.next (some ⟨size, .bytes bs⟩) := by
  refine ⟨(List.range size).map g.junk, w.grant ⟨size, Memory.fresh size g.junk⟩, ?_, by simp, rfl⟩
  rw [alloc_eq ha, Blocks.Mem.alloc_granted h, answer, if_neg w.next_pos.ne']

/-- **`k4c_alloc`** fails without an effect, or adds a block of arbitrary bytes. -/
theorem alloc_spec (ha : Backed a) (w : Memory) (size : ℕ) :
    (∃ w', alloc Memory.libc (some a) w size = .ok ((.noMemory, 0), w') ∧ w'.cells = w.cells) ∨
    (∃ bs w', alloc Memory.libc (some a) w size = .ok ((.ok, w.next), w') ∧ bs.length = size ∧
      w'.cells = Function.update w.cells w.next (some ⟨size, .bytes bs⟩)) := by
  cases h : w.answers w.requests with
  | none => exact .inl ⟨_, alloc_refused ha size h, rfl⟩
  | some g => exact .inr (alloc_granted ha size h)

theorem resize_eq (ha : Backed a) (w : Memory) (p : ℕ) (hsize : size ≠ 0) :
    resize Memory.libc (some a) w p size =
      (w.resize p size (Memory.fresh size) (Memory.grown size) >>= fun r => .ok (answer r)) := by
  unfold resize
  rw [if_neg hsize]
  cases ha <;> rfl

theorem resize_refused (ha : Backed a) {c : Blocks.Cell Content} (hp : w.cells p = some c)
    (hsize : size ≠ 0) (h : w.answers w.requests = none) :
    resize Memory.libc (some a) w p size = .ok ((.noMemory, 0), w.refuse) := by
  rw [resize_eq ha w p hsize, Blocks.Mem.resize_refused hp h, ok_bind, answer, if_pos rfl]

/-- A block that is resized lies where the answer says. -/
theorem resize_answered (ha : Backed a) {c : Blocks.Cell Content} (hp : w.cells p = some c)
    (hsize : size ≠ 0) {g : Blocks.Grant} (h : w.answers w.requests = some g) :
    ∃ w', resize Memory.libc (some a) w p size =
        .ok ((.ok, if g.moves then w.next else p), w') ∧
      w'.cells = Function.update (Function.update w.cells p none)
        (if g.moves then w.next else p) (some ⟨size, Memory.grown size g.junk c.content⟩) := by
  obtain ⟨w', heq, hcells⟩ :=
    Blocks.Mem.resize_granted size (Memory.fresh size) (Memory.grown size) hp h
  have hne : (if g.moves then w.next else p) ≠ 0 := by
    split
    · exact w.next_pos.ne'
    · exact Blocks.Mem.ne_zero_of_live (Blocks.Mem.live_of hp)
  refine ⟨w', ?_, hcells⟩
  rw [resize_eq ha w p hsize, heq, ok_bind, answer, if_neg hne]

/-- A byte buffer that is resized starts with the bytes of the old one. -/
theorem resize_granted (ha : Backed a) {bs : List UInt8} {n : ℕ}
    (hp : w.cells p = some ⟨n, .bytes bs⟩) (hsize : bs.length ≤ size) (hpos : size ≠ 0)
    {g : Blocks.Grant} (h : w.answers w.requests = some g) :
    ∃ tail w', resize Memory.libc (some a) w p size =
        .ok ((.ok, if g.moves then w.next else p), w') ∧
      (bs ++ tail).length = size ∧
      w'.cells = Function.update (Function.update w.cells p none)
        (if g.moves then w.next else p) (some ⟨size, .bytes (bs ++ tail)⟩) := by
  obtain ⟨w', hresize, hcells⟩ := resize_answered ha hp hpos h
  set grown := (List.range size).map fun i => bs.getD i (g.junk i) with hgrown
  have hlen : grown.length = size := by simp [hgrown]
  have htake : grown.take bs.length = bs := by
    apply List.ext_getElem
    · simp [hgrown, hsize]
    · intro i h₁ h₂
      simp [hgrown, List.getElem_take, List.getD_eq_getElem?_getD, List.getElem?_eq_getElem h₂]
  have happ : bs ++ grown.drop bs.length = grown := by
    calc bs ++ grown.drop bs.length
        = grown.take bs.length ++ grown.drop bs.length := by rw [htake]
      _ = grown := List.take_append_drop _ _
  refine ⟨grown.drop bs.length, w', hresize, ?_, ?_⟩
  · rw [happ, hlen]
  · rw [hcells, happ]
    rfl

/-- **`k4c_resize`** of a byte buffer fails without an effect, or gives a buffer
of the new size that starts with the bytes of the old one. -/
theorem resize_spec (ha : Backed a) {bs : List UInt8} {n : ℕ}
    (hp : w.cells p = some ⟨n, .bytes bs⟩) (hsize : bs.length ≤ size) (hpos : size ≠ 0) :
    (∃ w', resize Memory.libc (some a) w p size = .ok ((.noMemory, 0), w') ∧
      w'.cells = w.cells) ∨
    (∃ q tail w', resize Memory.libc (some a) w p size = .ok ((.ok, q), w') ∧
      (q = p ∨ q = w.next) ∧ (bs ++ tail).length = size ∧
      w'.cells = Function.update (Function.update w.cells p none) q
        (some ⟨size, .bytes (bs ++ tail)⟩)) := by
  cases h : w.answers w.requests with
  | none => exact .inl ⟨_, resize_refused ha hp hpos h, rfl⟩
  | some g =>
    obtain ⟨tail, w', hresize, hlen, hcells⟩ := resize_granted ha hp hsize hpos h
    refine .inr ⟨_, tail, w', hresize, ?_, hlen, hcells⟩
    split
    · exact .inr rfl
    · exact .inl rfl

/-- What a request for a new block that returned has done. -/
theorem alloc_returned {w' : Memory} {st : Status} {q : ℕ} (ha : Backed a)
    (h : alloc Memory.libc (some a) w size = .ok ((st, q), w')) (hst : st = .ok) :
    w'.sizeOf q = some size := by
  rcases alloc_spec ha w size with ⟨w₁, halloc, -⟩ | ⟨bs, w₁, halloc, -, hcells⟩
  · cases h.symm.trans halloc
    cases hst
  · cases h.symm.trans halloc
    exact Blocks.Mem.sizeOf_eq (by rw [hcells, Function.update_self])

/-- What a resize that returned has done to a block with any content. -/
theorem resize_returned {w' : Memory} {st : Status} {n q : ℕ} (ha : Backed a)
    (hp : w.sizeOf p = some n) (hsize : size ≠ 0)
    (h : resize Memory.libc (some a) w p size = .ok ((st, q), w')) :
    (st ≠ .ok ∧ w'.cells = w.cells) ∨ (st = .ok ∧ w'.sizeOf q = some size) := by
  obtain ⟨c, hc, -⟩ := Blocks.Mem.exists_cell hp
  cases hanswer : w.answers w.requests with
  | none =>
    cases h.symm.trans (resize_refused ha hc hsize hanswer)
    exact .inl ⟨by decide, rfl⟩
  | some g =>
    obtain ⟨w₁, hresize, hcells⟩ := resize_answered ha hc hsize hanswer
    cases h.symm.trans hresize
    exact .inr ⟨rfl, Blocks.Mem.sizeOf_eq (by rw [hcells, Function.update_self])⟩

/-- **`k4c_dealloc`** of a live block releases it, where the allocator reclaims. -/
theorem dealloc_spec (ha : Backed a) (hp : w.Live p) :
    ∃ w', dealloc Memory.libc (some a) w p = .ok w' ∧
      (w'.cells = Function.update w.cells p none ∨ ¬ Reclaims a ∧ w'.cells = w.cells) := by
  obtain ⟨w', hfree, hcells⟩ := Blocks.Mem.free_eq hp
  cases ha with
  | default features => exact ⟨w', hfree, .inl hcells⟩
  | view features =>
    cases hd : features.dealloc with
    | true =>
      refine ⟨w', ?_, .inl hcells⟩
      change (if features.dealloc = false then Except.ok w else w.free p) = _
      rw [hd, if_neg (by decide), hfree]
    | false =>
      refine ⟨w, ?_, .inr ⟨?_, rfl⟩⟩
      · change (if features.dealloc = false then Except.ok w else w.free p) = _
        rw [hd, if_pos rfl]
      · rintro (h | h)
        · cases h
        · exact absurd (hd.symm.trans h) (by decide)

/-- An allocator that does not reclaim keeps what it is given. -/
theorem dealloc_of_not_reclaims (ha : Backed a) (h : ¬ Reclaims a) (w : Memory) (p : ℕ) :
    dealloc Memory.libc (some a) w p = .ok w := by
  cases ha with
  | default features => exact absurd (.inl rfl) h
  | view features =>
    have hd : features.dealloc = false := Bool.eq_false_iff.2 fun hd => h (.inr hd)
    change (if features.dealloc = false then Except.ok w else w.free p) = _
    rw [if_pos hd]

/-- The request of `k4c_alloc` is in the log when it was granted. -/
theorem alloc_log {w' : Memory} {st : Status} {q : ℕ} (ha : Backed a)
    (h : alloc Memory.libc (some a) w size = .ok ((st, q), w')) :
    w'.requests = w.requests + 1 ∧
      ((st = .noMemory ∧ w'.log = w.log) ∨ (st = .ok ∧ w'.log = w.log ++ [.alloc w.next])) := by
  rw [alloc_eq ha, Blocks.Mem.alloc] at h
  split at h
  · rw [answer, if_pos rfl] at h
    cases h
    exact ⟨rfl, .inl ⟨rfl, rfl⟩⟩
  · rw [answer, if_neg w.next_pos.ne'] at h
    cases h
    exact ⟨rfl, .inr ⟨rfl, rfl⟩⟩

/-- `k4c_dealloc` requests nothing, and the log knows of nothing but the release. -/
theorem dealloc_log {w' : Memory} (ha : Backed a)
    (h : dealloc Memory.libc (some a) w p = .ok w') :
    w'.requests = w.requests ∧ (w'.log = w.log ∨ w'.log = w.log ++ [.release p]) := by
  cases ha with
  | default features => exact Blocks.Mem.free_log h
  | view features =>
    change (if features.dealloc = false then Except.ok w else w.free p) = _ at h
    split at h
    · cases h
      exact ⟨rfl, .inl rfl⟩
    · exact Blocks.Mem.free_log h

/-- What comes back from the memory explains the status. -/
theorem answer_explains {r : ℕ × Memory} (h : w.Asked r.2 (r.1 = 0)) :
    w.Explains (answer r).2 False (answer r).1.1 := by
  unfold answer
  split
  · rename_i hzero
    exact ⟨h.mono fun _ => hzero, fun _ => .inl rfl⟩
  · exact .ok (h.mono False.elim)

theorem alloc_explains {r : (Status × ℕ) × Memory} (ha : Backed a)
    (h : alloc Memory.libc (some a) w size = .ok r) : w.Explains r.2 False r.1.1 := by
  rw [alloc_eq ha] at h
  cases h
  exact answer_explains Blocks.Mem.alloc_asked

theorem resize_explains {r : (Status × ℕ) × Memory} (ha : Backed a) (hsize : size ≠ 0)
    (h : resize Memory.libc (some a) w p size = .ok r) : w.Explains r.2 False r.1.1 := by
  rw [resize_eq ha w p hsize] at h
  obtain ⟨r₁, hresize, hr⟩ := bind_eq_ok.1 h
  cases hr
  exact answer_explains (Blocks.Mem.resize_asked hresize)

theorem dealloc_asked {w' : Memory} (ha : Backed a)
    (h : dealloc Memory.libc (some a) w p = .ok w') : w.Asked w' False := by
  cases ha with
  | default features => exact Blocks.Mem.free_asked h
  | view features =>
    change (if features.dealloc = false then Except.ok w else w.free p) = _ at h
    split at h
    · cases h
      exact .refl w id
    · exact Blocks.Mem.free_asked h

/-- A release changes no other block. -/
theorem dealloc_kept {w' : Memory} {a : Allocator Memory}
    (h : w'.cells = Function.update w.cells p none ∨ ¬ Reclaims a ∧ w'.cells = w.cells) {q : ℕ}
    (hq : q ≠ p) : w'.cells q = w.cells q := by
  rcases h with h | ⟨-, h⟩
  · rw [h, Function.update_of_ne hq]
  · rw [h]

end Allocator

/-! ## Byte buffers -/

namespace Memory

variable {w : Memory} {p n off : ℕ}

/-- The bytes of a block. -/
def bytesOf (w : Memory) (p : ℕ) : Result (List UInt8) :=
  w.load p >>= fun content =>
    match content.reach with
    | none => .error .badAccess
    | some bs => .ok bs

/-- Read `n` bytes. -/
def read (w : Memory) (p off n : ℕ) : Result (List UInt8) :=
  bytesOf w p >>= fun bs => readAt bs off n

/-- Write bytes. -/
def write (w : Memory) (p off : ℕ) (new : List UInt8) : Result Memory :=
  w.load p >>= fun content =>
    match content.reach with
    | none => .error .badAccess
    | some bs => writeAt bs off new >>= fun bs' => w.store p (content.withBytes bs')

/-- The bytes that `memcpy` reads. -/
def source (w : Memory) (src : Arg) (n : ℕ) : Result (List UInt8) :=
  match src with
  | .null => .error .badAccess
  | .outside bs => readAt bs 0 n
  | .inside p => read w p.block p.offset n

/-- The ranges of `n` bytes at two places meet without being the same. -/
def Clash (dst : Ptr) (src : Arg) (n : ℕ) : Prop :=
  match src with
  | .null => False
  | .outside _ => False
  | .inside p => p.block = dst.block ∧ p.offset ≠ dst.offset ∧
      p.offset < dst.offset + n ∧ dst.offset < p.offset + n

instance (dst : Ptr) (src : Arg) (n : ℕ) : Decidable (Clash dst src n) := by
  unfold Clash
  cases src with
  | null => exact instDecidableFalse
  | outside bs => exact instDecidableFalse
  | inside p => exact inferInstance

/-- `memcpy`.  A copy of a range onto itself writes back what is there. -/
def memcpy (w : Memory) (dst : Ptr) (src : Arg) (n : ℕ) : Result Memory :=
  source w src n >>= fun bs =>
    if Clash dst src n then .error .badAccess else write w dst.block dst.offset bs

/-- `memmove`. -/
def memmove (w : Memory) (dst : Ptr) (src : Arg) (n : ℕ) : Result Memory :=
  source w src n >>= fun bs => write w dst.block dst.offset bs

/-- The bytes that can be read from a pointer on. -/
def bytesFrom (w : Memory) : Arg → Result (List UInt8)
  | .null => .error .badAccess
  | .outside bs => .ok bs
  | .inside p => bytesOf w p.block >>= fun bs => .ok (bs.drop p.offset)

section Reaching

variable {c : Content} {bs : List UInt8}

theorem bytesOf_reach (h : w.cells p = some ⟨n, c⟩) (hc : c.reach = some bs) :
    bytesOf w p = .ok bs := by
  rw [bytesOf, Blocks.Mem.load_eq h, ok_bind, hc]

theorem read_reach {k : ℕ} (h : w.cells p = some ⟨n, c⟩) (hc : c.reach = some bs)
    (hle : off + k ≤ bs.length) : read w p off k = .ok (slice bs off k) := by
  rw [read, bytesOf_reach h hc, ok_bind, readAt_of_le hle]

/-- **A write** inside the bytes of a block. -/
theorem write_reach {e : List UInt8} {k : ℕ} (h : w.cells p = some ⟨n, c⟩)
    (hc : c.reach = some bs) (hle : k + e.length ≤ bs.length) :
    ∃ w', write w p k e = .ok w' ∧
      w'.cells = Function.update w.cells p (some ⟨n, c.withBytes (splice bs k e)⟩) := by
  obtain ⟨w', hstore, hcells⟩ := Blocks.Mem.store_eq h (c.withBytes (splice bs k e))
  refine ⟨w', ?_, hcells⟩
  rw [write, Blocks.Mem.load_eq h, ok_bind, hc]
  change (writeAt bs k e >>= fun bs' => w.store p (c.withBytes bs')) = _
  rw [writeAt_of_le hle, ok_bind, hstore]

/-- **A copy** into the bytes of a block, from bytes that can be read. -/
theorem memcpy_reach {d : Ptr} {src : Arg} {k : ℕ} {e : List UInt8}
    (h : w.cells d.block = some ⟨n, c⟩) (hc : c.reach = some bs)
    (hsrc : source w src k = .ok e) (hle : d.offset + e.length ≤ bs.length)
    (hclash : ¬ Clash d src k) :
    ∃ w', memcpy w d src k = .ok w' ∧
      w'.cells =
        Function.update w.cells d.block (some ⟨n, c.withBytes (splice bs d.offset e)⟩) := by
  rw [memcpy, hsrc, ok_bind, if_neg hclash]
  exact write_reach h hc hle

end Reaching

/-! Copies ask nothing of the memory: -/

theorem write_rewritten {w' : Memory} {new : List UInt8} (h : write w p off new = .ok w') :
    w.Rewritten w' := by
  obtain ⟨c, -, h⟩ := bind_eq_ok.1 h
  split at h
  · cases h
  · obtain ⟨bs, -, h⟩ := bind_eq_ok.1 h
    exact Blocks.Mem.store_rewritten h

theorem memcpy_rewritten {w' : Memory} {d : Ptr} {src : Arg} (h : memcpy w d src n = .ok w') :
    w.Rewritten w' := by
  obtain ⟨bs, -, h⟩ := bind_eq_ok.1 h
  split at h
  · cases h
  · exact write_rewritten h

theorem memmove_rewritten {w' : Memory} {d : Ptr} {src : Arg} (h : memmove w d src n = .ok w') :
    w.Rewritten w' := by
  obtain ⟨bs, -, h⟩ := bind_eq_ok.1 h
  exact write_rewritten h

/-! In a byte buffer: -/

theorem read_eq {bs : List UInt8} {k : ℕ} (h : w.cells p = some ⟨n, .bytes bs⟩)
    (hle : off + k ≤ bs.length) : read w p off k = .ok (slice bs off k) :=
  read_reach h rfl hle

theorem write_eq {bs e : List UInt8} {k : ℕ} (h : w.cells p = some ⟨n, .bytes bs⟩)
    (hle : k + e.length ≤ bs.length) :
    ∃ w', write w p k e = .ok w' ∧
      w'.cells = Function.update w.cells p (some ⟨n, .bytes (splice bs k e)⟩) :=
  write_reach h rfl hle

theorem memcpy_eq {d : Ptr} {src : Arg} {k : ℕ} {bs e : List UInt8}
    (h : w.cells d.block = some ⟨n, .bytes bs⟩) (hsrc : source w src k = .ok e)
    (hle : d.offset + e.length ≤ bs.length) (hclash : ¬ Clash d src k) :
    ∃ w', memcpy w d src k = .ok w' ∧
      w'.cells =
        Function.update w.cells d.block (some ⟨n, .bytes (splice bs d.offset e)⟩) :=
  memcpy_reach h rfl hsrc hle hclash

theorem memmove_eq {d : Ptr} {src : Arg} {k : ℕ} {bs e : List UInt8}
    (h : w.cells d.block = some ⟨n, .bytes bs⟩) (hsrc : source w src k = .ok e)
    (hle : d.offset + e.length ≤ bs.length) :
    ∃ w', memmove w d src k = .ok w' ∧
      w'.cells =
        Function.update w.cells d.block (some ⟨n, .bytes (splice bs d.offset e)⟩) := by
  rw [memmove, hsrc, ok_bind]
  exact write_eq h hle

theorem bytesFrom_eq {bs : List UInt8} {off : ℕ} (h : w.cells p = some ⟨n, .bytes bs⟩) :
    bytesFrom w (.inside ⟨p, off⟩) = .ok (bs.drop off) := by
  rw [bytesFrom, bytesOf_reach h rfl, ok_bind]

end Memory

/-! ## Arguments -/

/-- The argument reads as the `n` bytes `e`, whatever becomes of the blocks `o`. -/
def Arg.Reads (w : Memory) (o : List ℕ) (n : ℕ) (src : Arg) (e : List UInt8) : Prop :=
  match src with
  | .null => False
  | .outside bs => n ≤ bs.length ∧ e = slice bs 0 n
  | .inside p => p.block ∉ o ∧ ∃ size c bs, w.cells p.block = some ⟨size, c⟩ ∧
      c.reach = some bs ∧ p.offset + n ≤ bs.length ∧ e = slice bs p.offset n

namespace Arg.Reads

variable {w w' : Memory} {o o' : List ℕ} {n : ℕ} {src : Arg} {e : List UInt8}

theorem outside {bs : List UInt8} (h : bs.length = n) : Reads w o n (.outside bs) bs :=
  ⟨h.ge, by rw [slice, List.drop_zero, ← h, List.take_length]⟩

theorem ne_null (h : Reads w o n src e) : src ≠ .null := by
  rintro rfl
  exact h

theorem length (h : Reads w o n src e) : e.length = n := by
  cases src with
  | null => exact absurd h id
  | outside bs => rw [h.2, length_slice (by have := h.1; omega)]
  | inside p =>
    obtain ⟨-, size, c, bs, -, -, hle, rfl⟩ := h
    exact length_slice hle

theorem source (h : Reads w o n src e) : Memory.source w src n = .ok e := by
  cases src with
  | null => exact absurd h id
  | outside bs => rw [Memory.source, readAt_of_le (by have := h.1; omega), h.2]
  | inside p =>
    obtain ⟨-, size, c, bs, hcell, hc, hle, rfl⟩ := h
    exact Memory.read_reach hcell hc hle

theorem not_clash (h : Reads w o n src e) {dst : Ptr} (hdst : dst.block ∈ o) :
    ¬ Memory.Clash dst src n := by
  cases src with
  | null => exact id
  | outside bs => exact id
  | inside p => exact fun hc => h.1 (hc.1 ▸ hdst)

/-- What is read is still there when the blocks beside `o` are. -/
theorem frame (h : Reads w o n src e)
    (hsame : ∀ p c, w.cells p = some c → p ∉ o → w'.cells p = some c ∧ p ∉ o') :
    Reads w' o' n src e := by
  cases src with
  | null => exact h
  | outside bs => exact h
  | inside p =>
    obtain ⟨hp, size, c, bs, hcell, hrest⟩ := h
    obtain ⟨hcell', hp'⟩ := hsame _ _ hcell hp
    exact ⟨hp', size, c, bs, hcell', hrest⟩

/-- Whoever owns the blocks may exchange them. -/
theorem exchange {reclaims : Prop} (h : Reads w o n src e)
    (hx : Blocks.Exchange reclaims o o' w w') : Reads w' o' n src e :=
  h.frame hx.others

end Arg.Reads

/-- The argument points at `n` bytes of the caller. -/
def Arg.own (n : ℕ) : Arg → Bool
  | .outside bs => bs.length == n
  | _ => false

theorem Arg.own_iff {n : ℕ} {src : Arg} :
    src.own n = true ↔ ∃ bs, src = .outside bs ∧ bs.length = n := by
  cases src with
  | null => simp [own]
  | outside bs => simp [own]
  | inside p => simp [own]

/-- The `n` bytes `e` at the argument can be copied to `dst`, wherever they are. -/
def Arg.Copies (w : Memory) (dst : Ptr) (n : ℕ) (src : Arg) (e : List UInt8) : Prop :=
  Memory.source w src n = .ok e ∧ ¬ Memory.Clash dst src n

theorem Arg.Reads.copies {w : Memory} {o : List ℕ} {n : ℕ} {src : Arg} {e : List UInt8}
    (h : src.Reads w o n e) {dst : Ptr} (hdst : dst.block ∈ o) : src.Copies w dst n e :=
  ⟨h.source, h.not_clash hdst⟩

/-- What `memcpy` has copied could be copied. -/
theorem Arg.copies_of_memcpy {w w' : Memory} {dst : Ptr} {n : ℕ} {src : Arg}
    (h : w.memcpy dst src n = .ok w') : ∃ e, src.Copies w dst n e := by
  obtain ⟨e, hsource, h⟩ := bind_eq_ok.1 h
  refine ⟨e, hsource, fun hclash => ?_⟩
  rw [if_pos hclash] at h
  cases h

namespace Arg.Copies

variable {w : Memory} {dst : Ptr} {n : ℕ} {src : Arg} {e : List UInt8}

/-- A range can be copied onto itself. -/
theorem self (h : Memory.source w (.inside dst) n = .ok e) : Copies w dst n (.inside dst) e :=
  ⟨h, fun hclash => hclash.2.1 rfl⟩

theorem ne_null (h : Copies w dst n src e) : src ≠ .null := by
  rintro rfl
  cases h.1

theorem length (h : Copies w dst n src e) : e.length = n := by
  obtain ⟨hsource, -⟩ := h
  cases src with
  | null => cases hsource
  | outside bs => exact length_of_readAt hsource
  | inside p =>
    obtain ⟨bs, -, hread⟩ := bind_eq_ok.1 hsource
    exact length_of_readAt hread

end Arg.Copies

end K4c
