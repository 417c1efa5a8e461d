import Mathlib.Tactic
import K4c.Mem.Requests

/-!
# Programs over an allocator

The containers are modelled over the memory of blocks.  Here a program of requests runs over
that memory, and over the addresses and bytes of an allocator.

* `serveOver` — the requests through an allocator value: names become addresses.
* `Behind` — the cells of the memory are the blocks of the allocator with their bytes.
* `step_behind` — **one request**: what the allocator does the memory can choose.
* `Conforms.realized` — what a program returns over the memory of blocks, for every choice
  of the memory, it returns over every allocator that conforms.
-/

namespace K4c
namespace Backend

open Exec Bytes Blocks Programs

variable {w w' : Memory} {p size : ℕ}

/-! ## Over an allocator -/

variable {ν : Type}

/-- The memory behind an allocator, with the address and the size of each block. -/
structure Pointers (ν : Type) where
  memory : ν
  held : ℕ → Option (ℕ × ℕ)
  /-- The name of the next block. -/
  next : ℕ
  /-- Which requests for memory were granted, oldest first. -/
  granted : List Bool

namespace Pointers

/-- Nothing was allocated yet. -/
def start (memory : ν) : Pointers ν := ⟨memory, fun _ => none, 1, []⟩

/-- The address behind a name. -/
def pointer (s : Pointers ν) (p : ℕ) : ℕ := (s.held p).elim 0 Prod.fst

/-- A block comes with a new name. -/
def named (s : Pointers ν) (memory : ν) (addr size : ℕ) : Pointers ν :=
  { s with memory, held := Function.update s.held s.next (some (addr, size)), next := s.next + 1 }

/-- The block has gone. -/
def without (s : Pointers ν) (p : ℕ) : Pointers ν :=
  { s with held := Function.update s.held p none }

/-- A request for memory was granted or refused. -/
def answered (s : Pointers ν) (granted : Bool) : Pointers ν :=
  { s with granted := s.granted ++ [granted] }

/-- The request for memory with this number was refused. -/
def Refused (s : Pointers ν) (n : ℕ) : Prop := s.granted[n]? = some false

end Pointers

/-- The bytes from an address on. -/
def bytesAt (view : Window ν) (m : ν) (addr n : ℕ) : List UInt8 :=
  (List.range n).map fun i => view.read m (addr + i)

/-- The requests through an allocator value.  A block that was moved gets a new name. -/
def serveOver (libc : Libc ν) (a : Option (Allocator ν)) (view : Window ν) (s : Pointers ν) :
    Request → Result (Reply × Pointers ν)
  | .alloc size => do
    let ((st, addr), memory) ← Allocator.alloc libc a s.memory size
    if st ≠ .ok then return (.pointer st 0, { s.answered false with memory })
    return (.pointer .ok s.next, (s.answered true).named memory addr size)
  | .resize p size => do
    let ((st, addr), memory) ← Allocator.resize libc a s.memory (s.pointer p) size
    if st ≠ .ok then return (.pointer st 0, { s.answered false with memory })
    if addr = s.pointer p then
      return (.pointer .ok p,
        { s.answered true with memory, held := Function.update s.held p (some (addr, size)) })
    return (.pointer .ok s.next, ((s.answered true).without p).named memory addr size)
  | .dealloc p => do
    let memory ← Allocator.dealloc libc a s.memory (s.pointer p)
    return (.done, { s.without p with memory })
  | .read p count =>
    match s.held p.block with
    | none => .error .badAccess
    | some b => .ok (.bytes (bytesAt view s.memory (b.1 + p.offset) count), s)
  | .rest p =>
    match s.held p.block with
    | none => .error .badAccess
    | some b => .ok (.bytes (bytesAt view s.memory (b.1 + p.offset) (b.2 - p.offset)), s)
  | .write p bytes =>
    match s.held p.block with
    | none => .error .badAccess
    | some b => .ok (.done, { s with memory := view.write s.memory (b.1 + p.offset) bytes })

/-! ## What is held -/

/-- The live allocations are the blocks that are held, at an address each. -/
structure Lists (held : ℕ → Option (ℕ × ℕ)) (live : Live) : Prop where
  granted : ∀ p addr n, held p = some (addr, n) → live addr = some n
  owned : ∀ addr n, live addr = some n → ∃ p, held p = some (addr, n)
  apart : ∀ p p' addr n n', held p = some (addr, n) → held p' = some (addr, n') → p = p'

namespace Lists

variable {held : ℕ → Option (ℕ × ℕ)} {live : Live} {addr n : ℕ}

theorem insert (h : Lists held live) (haddr : live addr = none) (hp : held p = none) :
    Lists (Function.update held p (some (addr, n))) (Function.update live addr (some n)) := by
  have hne : ∀ q addr' n', held q = some (addr', n') → addr' ≠ addr := by
    rintro q _ n' hq rfl
    rw [h.granted q _ n' hq] at haddr
    cases haddr
  refine ⟨fun q addr' n' hq => ?_, fun addr' n' hlive => ?_, fun q q' addr' n₁ n₂ hq hq' => ?_⟩
  · by_cases hqp : q = p
    · rw [hqp, Function.update_self] at hq
      cases hq
      rw [Function.update_self]
    · rw [Function.update_of_ne hqp] at hq
      rw [Function.update_of_ne (hne q addr' n' hq), h.granted q addr' n' hq]
  · by_cases haddr' : addr' = addr
    · rw [haddr', Function.update_self] at hlive
      cases hlive
      exact ⟨p, by rw [haddr', Function.update_self]⟩
    · rw [Function.update_of_ne haddr'] at hlive
      obtain ⟨q, hq⟩ := h.owned addr' n' hlive
      refine ⟨q, ?_⟩
      rw [Function.update_of_ne, hq]
      rintro rfl
      rw [hp] at hq
      cases hq
  · by_cases hqp : q = p <;> by_cases hqp' : q' = p
    · rw [hqp, hqp']
    · rw [hqp, Function.update_self] at hq
      rw [Function.update_of_ne hqp'] at hq'
      cases hq
      exact absurd rfl (hne q' _ n₂ hq')
    · rw [hqp', Function.update_self] at hq'
      rw [Function.update_of_ne hqp] at hq
      cases hq'
      exact absurd rfl (hne q _ n₁ hq)
    · rw [Function.update_of_ne hqp] at hq
      rw [Function.update_of_ne hqp'] at hq'
      exact h.apart q q' addr' n₁ n₂ hq hq'

theorem erase (h : Lists held live) (hp : held p = some (addr, n)) :
    Lists (Function.update held p none) (Function.update live addr none) := by
  have hother : ∀ q addr' n', Function.update held p none q = some (addr', n') →
      held q = some (addr', n') ∧ addr' ≠ addr := by
    intro q addr' n' hq
    have hqp : q ≠ p := by
      rintro rfl
      rw [Function.update_self] at hq
      cases hq
    rw [Function.update_of_ne hqp] at hq
    refine ⟨hq, ?_⟩
    rintro rfl
    exact hqp (h.apart q p _ n' n hq hp)
  refine ⟨fun q addr' n' hq => ?_, fun addr' n' hlive => ?_, fun q q' addr' n₁ n₂ hq hq' => ?_⟩
  · obtain ⟨hq, hne⟩ := hother q addr' n' hq
    rw [Function.update_of_ne hne, h.granted q addr' n' hq]
  · have hne : addr' ≠ addr := by
      rintro rfl
      rw [Function.update_self] at hlive
      cases hlive
    rw [Function.update_of_ne hne] at hlive
    obtain ⟨q, hq⟩ := h.owned addr' n' hlive
    refine ⟨q, ?_⟩
    rw [Function.update_of_ne, hq]
    rintro rfl
    cases hq.symm.trans hp
    exact hne rfl
  · exact h.apart q q' addr' n₁ n₂ (hother q addr' n₁ hq).1 (hother q' addr' n₂ hq').1

end Lists

/-! ## The one behind the other -/

/-- A block of an allocator, as a cell. -/
def cellAt (view : Window ν) (m : ν) (b : ℕ × ℕ) : Cell Content :=
  ⟨b.2, .bytes (bytesAt view m b.1 b.2)⟩

/-- The blocks of an allocator, as cells. -/
def cellsOf (view : Window ν) (m : ν) (held : ℕ → Option (ℕ × ℕ)) (p : ℕ) :
    Option (Cell Content) := (held p).map (cellAt view m)

/-- The allocator serves the blocks of the memory, and has granted what that has. -/
structure Behind (view : Window ν) (serves : ν → Live → Prop) (s : Pointers ν) (w : Memory) :
    Prop where
  next : s.next = w.next
  granted : s.granted = (List.range w.requests).map fun i => (w.answers i).isSome
  cells : w.cells = cellsOf view s.memory s.held
  serving : ∃ live, serves s.memory live ∧ Lists s.held live

section Cells

variable {view : Window ν} {m m' : ν} {held : ℕ → Option (ℕ × ℕ)} {live : Live} {addr n : ℕ}

theorem length_bytesAt : (bytesAt view m addr n).length = n := by simp [bytesAt]

theorem getElem?_bytesAt (i : ℕ) : (bytesAt view m addr n)[i]? =
    if i < n then some (view.read m (addr + i)) else none := by
  by_cases hi : i < n
  · simp [bytesAt, hi]
  · simp [bytesAt, hi]

theorem bytesAt_congr (h : ∀ i < n, view.read m' (addr + i) = view.read m (addr + i)) :
    bytesAt view m' addr n = bytesAt view m addr n :=
  List.map_congr_left fun i hi => h i (List.mem_range.1 hi)

/-- A part of a block. -/
theorem slice_bytesAt {off k : ℕ} (h : off + k ≤ n) :
    slice (bytesAt view m addr n) off k = bytesAt view m (addr + off) k := by
  apply List.ext_getElem?
  intro i
  rw [getElem?_slice, getElem?_bytesAt, getElem?_bytesAt, Nat.add_assoc]
  by_cases hi : i < k
  · rw [if_pos hi, if_pos hi, if_pos (by omega)]
  · rw [if_neg hi, if_neg hi]

theorem drop_bytesAt (off : ℕ) :
    (bytesAt view m addr n).drop off = bytesAt view m (addr + off) (n - off) := by
  apply List.ext_getElem?
  intro i
  rw [List.getElem?_drop, getElem?_bytesAt, getElem?_bytesAt, Nat.add_assoc]
  by_cases hi : i < n - off
  · rw [if_pos hi, if_pos (by omega)]
  · rw [if_neg hi, if_neg (by omega)]

theorem cellsOf_update (p : ℕ) (b : Option (ℕ × ℕ)) :
    cellsOf view m (Function.update held p b) =
      Function.update (cellsOf view m held) p (b.map (cellAt view m)) :=
  Function.comp_update (Option.map (cellAt view m)) held p b

/-- Blocks that are kept stay what they are. -/
theorem cellsOf_keeps (h : Keeps view live m m') (hlists : Lists held live) :
    cellsOf view m' held = cellsOf view m held := by
  funext q
  rw [cellsOf, cellsOf]
  cases hq : held q with
  | none => rfl
  | some b =>
    have hbytes : bytesAt view m' b.1 b.2 = bytesAt view m b.1 b.2 :=
      bytesAt_congr (h b.1 b.2 (hlists.granted q b.1 b.2 hq))
    rw [Option.map_some, Option.map_some, cellAt, cellAt, hbytes]

end Cells

namespace Behind

variable {view : Window ν} {serves : ν → Live → Prop} {s : Pointers ν} {w : Memory} {p : ℕ}

/-- Only the answers that were given matter. -/
theorem fromNow (h : Behind view serves s w) (c : Option Grant) :
    Behind view serves s (w.fromNow c) := by
  refine ⟨h.next, h.granted.trans (List.map_congr_left fun i hi => ?_), h.cells, h.serving⟩
  rw [Mem.fromNow_given c w (List.mem_range.1 hi)]

/-- One more answer was given. -/
theorem answered (h : Behind view serves s w) {b : Bool}
    (hb : (w.answers w.requests).isSome = b) : (s.answered b).granted =
      (List.range (w.requests + 1)).map fun i => (w.answers i).isSome := by
  rw [Pointers.answered, h.granted, List.range_succ, List.map_append, List.map_singleton, hb]

theorem length_granted (h : Behind view serves s w) : s.granted.length = w.requests := by
  rw [h.granted, List.length_map, List.length_range]

/-- What the memory has refused was refused. -/
theorem refused_of (h : Behind view serves s w) {n : ℕ} (hn : n < w.requests)
    (hnone : w.answers n = none) : s.Refused n := by
  rw [Pointers.Refused, h.granted, List.getElem?_map, List.getElem?_range hn, Option.map_some,
    hnone]
  rfl

/-- A live block is held. -/
theorem held (h : Behind view serves s w) {c : Cell Content} (hc : w.cells p = some c) :
    ∃ addr, s.held p = some (addr, c.size) ∧
      c.content = .bytes (bytesAt view s.memory addr c.size) := by
  rw [h.cells, cellsOf] at hc
  obtain ⟨⟨addr, n⟩, hb, rfl⟩ := Option.map_eq_some_iff.1 hc
  exact ⟨addr, hb, rfl⟩

theorem not_held (h : Behind view serves s w) (hp : w.cells p = none) : s.held p = none := by
  rw [h.cells, cellsOf] at hp
  exact Option.map_eq_none_iff.1 hp

theorem next_not_held (h : Behind view serves s w) : s.held s.next = none :=
  h.not_held (by rw [h.next]; exact w.unborn _ le_rfl)

theorem pointer_zero (h : Behind view serves s w) : s.pointer 0 = 0 := by
  rw [Pointers.pointer, h.not_held w.null_dead]
  rfl

/-- A request that was refused. -/
theorem refused (h : Behind view serves s w) {m : ν} {live : Live} (hlists : Lists s.held live)
    (hserves : serves m live) (hkeeps : Keeps view live s.memory m) :
    Behind view serves { s.answered false with memory := m } (w.fromNow none).refuse := by
  refine ⟨h.next, (h.fromNow none).answered ?_, ?_, live, hserves, hlists⟩
  · rw [Mem.fromNow_next]
    rfl
  · change w.cells = cellsOf view m s.held
    rw [cellsOf_keeps hkeeps hlists]
    exact h.cells

end Behind

/-! ## One request -/

section Step

variable {view : Window ν} {serves : ν → Live → Prop} {libc ops : Libc ν}
  {a : Option (Allocator ν)} {s : Pointers ν} {w : Memory} {live : Live} {m : ν} {addr : ℕ}

/-- What the memory answers so that it does what the allocator has done. -/
def Realized (libc : Libc ν) (a : Option (Allocator ν)) (view : Window ν)
    (serves : ν → Live → Prop) (s : Pointers ν) (w : Memory) (q : Request) : Prop :=
  ∃ c, ∀ r, serve (w.fromNow c) q = .ok r →
    Sat (serveOver libc a view s q) fun p => p.1 = r.1 ∧ Behind view serves p.2 r.2

/-- A block that was handed out is the next cell. -/
theorem Behind.handed (h : Behind view serves s w) (hlists : Lists s.held live)
    (hfresh : live addr = none) (hserves : serves m (Function.update live addr (some size)))
    (hkeeps : Keeps view live s.memory m) (g : Grant) :
    Behind view serves ((s.answered true).named m addr size)
      ((w.fromNow (some g)).grant
        ⟨size, Memory.fresh size fun i => view.read m (addr + i)⟩) := by
  refine ⟨congrArg (· + 1) h.next, (h.fromNow (some g)).answered ?_, ?_, _, hserves,
    hlists.insert hfresh h.next_not_held⟩
  · rw [Mem.fromNow_next]
    rfl
  · change _ = cellsOf view m (Function.update s.held s.next _)
    rw [cellsOf_update, cellsOf_keeps hkeeps hlists, ← h.cells, h.next]
    rfl

/-- The reply to a request that was granted. -/
theorem ofAnswer_of_ne {r : ℕ × Memory} (h : r.1 ≠ 0) :
    Reply.ofAnswer r = (.pointer .ok r.1, r.2) := by
  rw [Reply.ofAnswer, Allocator.answer, if_neg h]

theorem realized_alloc (hreach : Reaches libc a ops) (hops : Conforms view serves ops)
    (h : Behind view serves s w) (size : ℕ) :
    Realized libc a view serves s w (.alloc size) := by
  by_cases hsize : 0 < size
  swap
  · refine ⟨none, fun r hr => ?_⟩
    rw [serve, check, if_neg hsize] at hr
    cases hr
  obtain ⟨live, hserves, hlists⟩ := h.serving
  obtain ⟨⟨addr, m⟩, hmalloc, hhanded⟩ := hops.malloc s.memory live size hserves hsize
  have hcall : Allocator.alloc libc a s.memory size = .ok (Allocator.answer (addr, m)) := by
    rw [hreach.alloc, hmalloc]
    rfl
  cases hhanded with
  | refused hserves' hkeeps =>
    refine ⟨none, fun r hr => ?_⟩
    rw [serve_alloc hsize, Mem.alloc_refused (Mem.fromNow_next none w)] at hr
    cases hr
    refine ⟨(.pointer .noMemory 0, { s.answered false with memory := m }), ?_, rfl,
      h.refused hlists hserves' hkeeps⟩
    rw [serveOver, hcall]
    rfl
  | granted hp hfresh hserves' hkeeps =>
    refine ⟨some ⟨false, fun i => view.read m (addr + i)⟩, fun r hr => ?_⟩
    rw [serve_alloc hsize, Mem.alloc_granted (Mem.fromNow_next _ w),
      ofAnswer_of_ne w.next_pos.ne'] at hr
    cases hr
    refine ⟨(.pointer .ok s.next, (s.answered true).named m addr size), ?_, by rw [h.next]; rfl,
      h.handed hlists hfresh hserves' hkeeps _⟩
    rw [serveOver, hcall, Allocator.answer, if_neg hp]
    rfl

theorem Behind.pointer (h : Behind view serves s w) {c : Cell Content}
    (hc : w.cells p = some c) : s.held p = some (s.pointer p, c.size) ∧
      c.content = .bytes (bytesAt view s.memory (s.pointer p) c.size) := by
  obtain ⟨addr, hheld, hcontent⟩ := h.held hc
  have hpointer : s.pointer p = addr := by
    rw [Pointers.pointer, hheld]
    rfl
  rw [hpointer]
  exact ⟨hheld, hcontent⟩

/-- A byte buffer that was resized has the bytes that the allocator has kept. -/
theorem grown_bytesAt {k q : ℕ}
    (hcopied : ∀ i < min k size, view.read m (q + i) = view.read s.memory (addr + i)) :
    Memory.grown size (fun i => view.read m (q + i)) (.bytes (bytesAt view s.memory addr k)) =
      .bytes (bytesAt view m q size) := by
  refine congrArg Content.bytes (List.map_congr_left fun i hi => ?_)
  have hlt := List.mem_range.1 hi
  rw [List.getD_eq_getElem?_getD, getElem?_bytesAt]
  split
  · exact (hcopied i (by omega)).symm
  · rfl

/-- Resizing nothing allocates. -/
theorem realized_resize_null (hreach : Reaches libc a ops) (hops : Conforms view serves ops)
    (h : Behind view serves s w) (hsize : 0 < size) :
    Realized libc a view serves s w (.resize 0 size) := by
  obtain ⟨live, hserves, hlists⟩ := h.serving
  obtain ⟨⟨addr, m⟩, hrealloc, hhanded⟩ := hops.realloc_null s.memory live size hserves hsize
  have hcall : Allocator.resize libc a s.memory (s.pointer 0) size =
      .ok (Allocator.answer (addr, m)) := by
    rw [h.pointer_zero, hreach.resize _ _ _ hsize.ne', hrealloc]
    rfl
  cases hhanded with
  | refused hserves' hkeeps =>
    refine ⟨none, fun r hr => ?_⟩
    rw [serve_resize hsize, Mem.resize, if_pos rfl,
      Mem.alloc_refused (Mem.fromNow_next none w)] at hr
    cases hr
    refine ⟨(.pointer .noMemory 0, { s.answered false with memory := m }), ?_, rfl,
      h.refused hlists hserves' hkeeps⟩
    rw [serveOver, hcall]
    rfl
  | granted hp hfresh hserves' hkeeps =>
    refine ⟨some ⟨false, fun i => view.read m (addr + i)⟩, fun r hr => ?_⟩
    rw [serve_resize hsize, Mem.resize, if_pos rfl,
      Mem.alloc_granted (Mem.fromNow_next _ w)] at hr
    cases hr
    rw [ofAnswer_of_ne w.next_pos.ne']
    refine ⟨(.pointer .ok s.next, (s.answered true).named m addr size), ?_, by rw [h.next]; rfl,
      h.handed hlists hfresh hserves' hkeeps _⟩
    have hheld : Function.update s.held 0 none = s.held := by
      rw [← h.not_held w.null_dead, Function.update_eq_self]
    rw [serveOver, hcall, Allocator.answer, if_neg hp, h.pointer_zero]
    simp only [ok_bind, ne_eq, not_true_eq_false, if_false, hp, Pointers.without,
      Pointers.answered, hheld]
    rfl

/-- A live block that is resized where it lies. -/
theorem Behind.resized (h : Behind view serves s w) (hlists : Lists s.held live)
    {c : Cell Content} (hc : w.cells p = some c)
    (hnew : Function.update live (s.pointer p) none addr = none)
    (hkeeps : Keeps view (Function.update live (s.pointer p) none) s.memory m)
    (hcopied : ∀ i < min c.size size,
      view.read m (addr + i) = view.read s.memory (s.pointer p + i)) {q : ℕ}
    (hq : Function.update s.held p none q = none) :
    Lists (Function.update (Function.update s.held p none) q (some (addr, size)))
        (Function.update (Function.update live (s.pointer p) none) addr (some size)) ∧
      cellsOf view m (Function.update (Function.update s.held p none) q (some (addr, size))) =
        Function.update (Function.update w.cells p none) q
          (some ⟨size, Memory.grown size (fun i => view.read m (addr + i)) c.content⟩) := by
  obtain ⟨hheld, hcontent⟩ := h.pointer hc
  have herase := hlists.erase hheld
  refine ⟨herase.insert hnew hq, ?_⟩
  rw [cellsOf_update, cellsOf_keeps hkeeps herase, cellsOf_update, ← h.cells, hcontent,
    grown_bytesAt hcopied]
  rfl

theorem realized_resize_live (hreach : Reaches libc a ops) (hops : Conforms view serves ops)
    (h : Behind view serves s w) (hsize : 0 < size) {c : Cell Content} (hc : w.cells p = some c) :
    Realized libc a view serves s w (.resize p size) := by
  obtain ⟨live, hserves, hlists⟩ := h.serving
  obtain ⟨hheld, -⟩ := h.pointer hc
  obtain ⟨⟨addr, m⟩, hrealloc, hresized⟩ := hops.realloc s.memory live (s.pointer p) c.size size
    hserves (hlists.granted p _ _ hheld) hsize
  have hcall : Allocator.resize libc a s.memory (s.pointer p) size =
      .ok (Allocator.answer (addr, m)) := by
    rw [hreach.resize _ _ _ hsize.ne', hrealloc]
    rfl
  cases hresized with
  | refused hserves' hkeeps =>
    refine ⟨none, fun r hr => ?_⟩
    have hlive : (w.fromNow none).cells p = some c := hc
    rw [serve_resize hsize, Mem.resize_refused hlive (Mem.fromNow_next none w)] at hr
    cases hr
    refine ⟨(.pointer .noMemory 0, { s.answered false with memory := m }), ?_, rfl,
      h.refused hlists hserves' hkeeps⟩
    rw [serveOver, hcall]
    rfl
  | granted haddr hnew hserves' hkeeps hcopied =>
    -- the block moves where its address is another one
    set g : Grant := ⟨decide (addr ≠ s.pointer p), fun i => view.read m (addr + i)⟩ with hg
    have hlive : (w.fromNow (some g)).cells p = some c := hc
    have hgranted := (h.fromNow (some g)).answered (b := true) (by rw [Mem.fromNow_next]; rfl)
    refine ⟨some g, fun r hr => ?_⟩
    rw [serve_resize hsize, Mem.resize_moved hlive (Mem.fromNow_next _ w)] at hr
    by_cases hsame : addr = s.pointer p
    · rw [if_neg (by simp [hg, hsame])] at hr
      cases hr
      rw [ofAnswer_of_ne (Mem.ne_zero_of_live (Mem.live_of hc))]
      have hp : Function.update s.held p none p = none := Function.update_self ..
      obtain ⟨hlists', hcells⟩ := h.resized hlists hc hnew hkeeps hcopied hp
      rw [Function.update_idem, Function.update_idem] at hcells
      rw [Function.update_idem] at hlists'
      refine ⟨(.pointer .ok p, { s.answered true with
          memory := m, held := Function.update s.held p (some (addr, size)) }), ?_, rfl,
        h.next, hgranted, hcells.symm, _, hserves', hlists'⟩
      rw [serveOver, hcall, Allocator.answer, if_neg haddr]
      simp only [ok_bind, ne_eq, not_true_eq_false, if_false, hsame, if_true]
      rfl
    · rw [if_pos (by simp [hg, hsame])] at hr
      cases hr
      rw [ofAnswer_of_ne w.next_pos.ne']
      have hnext : Function.update s.held p none s.next = none := by
        by_cases heq : s.next = p
        · rw [heq, Function.update_self]
        · rw [Function.update_of_ne heq, h.next_not_held]
      obtain ⟨hlists', hcells⟩ := h.resized hlists hc hnew hkeeps hcopied hnext
      refine ⟨(.pointer .ok s.next, ((s.answered true).without p).named m addr size), ?_,
        by rw [h.next]; rfl, congrArg (· + 1) h.next, hgranted, ?_, _, hserves', hlists'⟩
      · rw [serveOver, hcall, Allocator.answer, if_neg haddr]
        simp only [ok_bind, ne_eq, not_true_eq_false, if_false, hsame]
        rfl
      · rw [h.next] at hcells
        change _ = cellsOf view m (Function.update (Function.update s.held p none) s.next _)
        rw [h.next, hcells]
        rfl

theorem realized_resize (hreach : Reaches libc a ops) (hops : Conforms view serves ops)
    (h : Behind view serves s w) (p size : ℕ) :
    Realized libc a view serves s w (.resize p size) := by
  by_cases hsize : 0 < size
  swap
  · refine ⟨none, fun r hr => ?_⟩
    rw [serve, check, if_neg hsize] at hr
    cases hr
  by_cases hp : p = 0
  · rw [hp]
    exact realized_resize_null hreach hops h hsize
  cases hc : w.cells p with
  | none =>
    refine ⟨none, fun r hr => ?_⟩
    have hdead : (w.fromNow none).cells p = none := hc
    rw [serve_resize hsize, Mem.resize_dead hp hdead] at hr
    cases hr
  | some c => exact realized_resize_live hreach hops h hsize hc

theorem realized_dealloc (hreach : Reaches libc a ops) (hops : Conforms view serves ops)
    (h : Behind view serves s w) (p : ℕ) :
    Realized libc a view serves s w (.dealloc p) := by
  refine ⟨none, fun r hr => ?_⟩
  obtain ⟨_, hp, hdealloc⟩ := bind_eq_ok.1 hr
  replace hp : p ≠ 0 := check_eq_ok.1 hp
  rw [serve_dealloc hp, Mem.fromNow, Mem.free_answering] at hr
  cases hc : w.cells p with
  | none =>
    rw [Mem.free_dead hp hc] at hr
    cases hr
  | some c =>
    rw [Mem.free_live (Mem.live_of hc)] at hr
    cases hr
    obtain ⟨hheld, -⟩ := h.pointer hc
    obtain ⟨live, hserves, hlists⟩ := h.serving
    have hlive := hlists.granted p _ _ hheld
    obtain ⟨m, hfree, hserves', hkeeps⟩ :=
      hops.free s.memory live (s.pointer p) hserves (by rw [hlive]; nofun)
    have herase := hlists.erase hheld
    refine ⟨(.done, { s.without p with memory := m }), ?_, rfl, h.next, (h.fromNow none).granted,
      ?_, _, hserves', herase⟩
    · rw [serveOver, hreach.dealloc, hfree]
      rfl
    · change Function.update w.cells p none = cellsOf view m (Function.update s.held p none)
      rw [cellsOf_keeps hkeeps herase, cellsOf_update, ← h.cells]
      rfl

theorem realized_read (h : Behind view serves s w) (p : Ptr) (count : ℕ) :
    Realized libc a view serves s w (.read p count) := by
  refine ⟨none, fun r hr => ?_⟩
  obtain ⟨bs, hread, hpure⟩ := bind_eq_ok.1 hr
  cases hpure
  cases hc : w.cells p.block with
  | none =>
    change (w.load p.block >>= _) >>= _ = _ at hread
    rw [Mem.load, hc] at hread
    cases hread
  | some c =>
    obtain ⟨hheld, hcontent⟩ := h.pointer hc
    change (w.load p.block >>= _) >>= _ = _ at hread
    rw [Mem.load_eq hc, ok_bind, hcontent] at hread
    change readAt (bytesAt view s.memory (s.pointer p.block) c.size) p.offset count = _ at hread
    rw [readAt] at hread
    split at hread
    · rename_i hle
      rw [length_bytesAt] at hle
      cases hread
      refine ⟨(.bytes (bytesAt view s.memory (s.pointer p.block + p.offset) count), s), ?_, ?_,
        h.fromNow none⟩
      · rw [serveOver, hheld]
      · rw [slice_bytesAt hle]
    · cases hread

theorem realized_rest (h : Behind view serves s w) (p : Ptr) :
    Realized libc a view serves s w (.rest p) := by
  refine ⟨none, fun r hr => ?_⟩
  obtain ⟨bs, hrest, hpure⟩ := bind_eq_ok.1 hr
  cases hpure
  cases hc : w.cells p.block with
  | none =>
    change (w.load p.block >>= _) >>= _ = _ at hrest
    rw [Mem.load, hc] at hrest
    cases hrest
  | some c =>
    obtain ⟨hheld, hcontent⟩ := h.pointer hc
    change (w.load p.block >>= _) >>= _ = _ at hrest
    rw [Mem.load_eq hc, ok_bind, hcontent] at hrest
    cases hrest
    refine ⟨(.bytes (bytesAt view s.memory (s.pointer p.block + p.offset) (c.size - p.offset)), s),
      ?_, ?_, h.fromNow none⟩
    · rw [serveOver, hheld]
    · rw [drop_bytesAt]

/-- Bytes that are written into a block replace the old ones. -/
theorem splice_bytesAt {off k : ℕ} {new : List UInt8} (hle : off + new.length ≤ k)
    (hwritten : ∀ i < k, view.read m (addr + i) =
      if off ≤ i then (new[i - off]?).getD (view.read s.memory (addr + i))
      else view.read s.memory (addr + i)) :
    splice (bytesAt view s.memory addr k) off new = bytesAt view m addr k := by
  apply List.ext_getElem?
  intro i
  rw [getElem?_splice (by rw [length_bytesAt]; exact hle), getElem?_bytesAt, getElem?_bytesAt]
  by_cases hi : i < k
  · rw [if_pos hi, if_pos hi, hwritten i hi]
    by_cases hbefore : i < off
    · rw [if_pos hbefore, if_neg (by omega)]
    · rw [if_neg hbefore, if_pos (show off ≤ i by omega)]
      by_cases hin : i < off + new.length
      · rw [if_pos hin, List.getElem?_eq_getElem (by omega)]
        rfl
      · rw [if_neg hin, List.getElem?_eq_none (by omega)]
        rfl
  · rw [if_neg hi, if_neg hi, if_neg (by omega), if_neg (by omega)]

theorem realized_write (hops : Conforms view serves ops) (h : Behind view serves s w) (p : Ptr)
    (new : List UInt8) : Realized libc a view serves s w (.write p new) := by
  refine ⟨none, fun r hr => ?_⟩
  obtain ⟨w', hwrite, hpure⟩ := bind_eq_ok.1 hr
  cases hpure
  cases hc : w.cells p.block with
  | none =>
    change (w.load p.block >>= _) = _ at hwrite
    rw [Mem.load, hc] at hwrite
    cases hwrite
  | some c =>
    obtain ⟨hheld, hcontent⟩ := h.pointer hc
    obtain ⟨live, hserves, hlists⟩ := h.serving
    have hlive := hlists.granted p.block _ _ hheld
    set addr := s.pointer p.block with haddr
    rw [Mem.fromNow, write_answering, Memory.write, Mem.load_eq hc, ok_bind, hcontent] at hwrite
    change (writeAt (bytesAt view s.memory addr c.size) p.offset new >>= fun bs' =>
      w.store p.block (.bytes bs')).map _ = _ at hwrite
    rw [writeAt] at hwrite
    split at hwrite
    swap
    · cases hwrite
    rename_i hle
    rw [length_bytesAt] at hle
    rw [ok_bind, Mem.store_live hc] at hwrite
    cases hwrite
    obtain ⟨hserves', hkeeps, hwritten⟩ :=
      hops.write s.memory live addr c.size p.offset new hserves hlive hle
    refine ⟨(.done, { s with memory := view.write s.memory (addr + p.offset) new }), ?_, rfl,
      h.next, (h.fromNow none).granted, ?_, live, hserves', hlists⟩
    · rw [serveOver, hheld]
    · -- the written block is the one that is not kept
      have hself : s.held = Function.update (Function.update s.held p.block none) p.block
          (some (addr, c.size)) := by
        rw [Function.update_idem, ← hheld, Function.update_eq_self]
      change Function.update w.cells p.block _ = cellsOf view _ s.held
      rw [hself, cellsOf_update, cellsOf_keeps hkeeps (hlists.erase hheld), cellsOf_update,
        ← h.cells, Option.map_none, Function.update_idem, splice_bytesAt hle hwritten]
      rfl

/-- **One request**: what an allocator that conforms does, the memory of blocks can choose. -/
theorem step_behind (hreach : Reaches libc a ops) (hops : Conforms view serves ops)
    (h : Behind view serves s w) (q : Request) : Realized libc a view serves s w q := by
  cases q with
  | alloc size => exact realized_alloc hreach hops h size
  | resize p size => exact realized_resize hreach hops h p size
  | dealloc p => exact realized_dealloc hreach hops h p
  | read p count => exact realized_read h p count
  | rest p => exact realized_rest h p
  | write p new => exact realized_write hops h p new

end Step

/-! ## Programs -/

section Programs

variable {view : Window ν} {serves : ν → Live → Prop} {libc ops : Libc ν}
  {a : Option (Allocator ν)}

theorem behind_start {m : ν} (h : serves m fun _ => none) (o : ℕ → Option Grant) :
    Behind view serves (.start m) (Mem.empty o) where
  next := rfl
  granted := rfl
  cells := rfl
  serving := ⟨_, h, fun _ _ _ hp => (by cases hp), fun _ _ hp => (by cases hp),
    fun _ _ _ _ _ hp => (by cases hp)⟩

/-- **The memory of blocks is what every allocator looks like.**  Over an allocator that
conforms, a program returns what it returns over the memory of blocks, for the choices of
the memory that the allocator has made; and afterwards the allocator holds the blocks of
the memory, with their bytes, and has granted what the memory has. -/
theorem Conforms.realized {α : Type} (hops : Conforms view serves ops)
    (hreach : Reaches libc a ops) (prog : Prog Request Reply α) {m : ν}
    (hm : serves m fun _ => none) : ∃ o, ∀ r, prog.run serve (Mem.empty o) = .ok r →
      r.2.answers = o ∧ Sat (prog.run (serveOver libc a view) (.start m)) fun p =>
        p.1 = r.1 ∧ Behind view serves p.2 r.2 := by
  obtain ⟨o, -, ho⟩ := chooser.realizes (R := Behind view serves)
    (fun _ _ q h => step_behind hreach hops h q) prog _ _ (behind_start hm fun _ => none)
  exact ⟨o, fun r hr => ⟨chooser.choices_run prog _ r hr, ho r hr⟩⟩

end Programs

end Backend
end K4c
