import Mathlib.Tactic
import K4c.Datastruct.Reachable
import K4c.Mem.ArenaMonitor

/-!
# The blocks of containers over an arena

The block that a vector, a heap or a string resizes has the size that its record tells.
Every call that returns keeps it so, with whatever arguments: it writes to blocks, which
keep their sizes, or it has resized the block to the capacity that the record then has.

* `Sized` — the record and the size of the block.
* `call_sized`, `create_sized` — a call keeps it, a constructor starts with it.
-/

namespace K4c

open Exec Blocks Arena

variable [Platform]

theorem backed_copy : Backed (Allocator.copy (some blockView)) := backed_blockView

/-! ## Vectors -/

namespace Vector

/-- The buffer of a vector over an arena has room for its capacity. -/
structure Sized (v : Vector) (w : Memory) : Prop where
  allocator : v.allocator = blockView
  elem_pos : 0 < v.elemSize
  buffer : w.sizeOf v.buffer = some (v.capacity * v.elemSize)

variable {v v' : Vector} {w w' : Memory}

/-- In a memory whose blocks have kept their sizes. -/
theorem Sized.keep (hs : Sized v w) (hsizes : ∀ p, w'.sizeOf p = w.sizeOf p) : Sized v w' :=
  { hs with buffer := (hsizes _).trans hs.buffer }

theorem Sized.same (hs : Sized v w) (hcells : w'.cells = w.cells) : Sized v w' :=
  hs.keep fun _ => Mem.sizeOf_congr (by rw [hcells])

/-- With another number of elements. -/
theorem Sized.resized (hs : Sized v w) (size : ℕ) : Sized { v with size } w := { hs with }

/-- Beside a new block. -/
theorem Sized.beside (hs : Sized v w) {n : ℕ} {r : Status × ℕ}
    (h : Allocator.alloc Memory.libc (some blockView) w n = .ok (r, w')) : Sized v w' := by
  rcases Allocator.alloc_spec backed_blockView w n with
    ⟨w₁, halloc, hcells⟩ | ⟨_, w₁, halloc, -, hcells⟩
  · cases h.symm.trans halloc
    exact hs.same hcells
  · cases h.symm.trans halloc
    obtain ⟨c, hc, -⟩ := Mem.exists_cell hs.buffer
    have hne := Mem.ne_next_of_live (Mem.live_of hc)
    refine { hs with buffer := (Mem.sizeOf_congr ?_).trans hs.buffer }
    rw [hcells, Function.update_of_ne hne]

theorem Holds.sized {bs : List UInt8} (h : Holds v w bs) (ha : v.allocator = blockView) :
    Sized v w := ⟨ha, h.elem_pos, Mem.sizeOf_eq h.buffered.cell⟩

theorem reserve_sized (hs : Sized v w) {capacity : ℕ} {st : Status}
    (h : reserve v capacity w = .ok ((st, v'), w')) : Sized v' w' := by
  unfold reserve at h
  split at h
  · cases h
    exact hs
  rename_i hle
  split at h
  · cases h
    exact hs
  rename_i allocSize hmul
  obtain ⟨rfl, -⟩ := sizeMulOverflow_eq_some.1 hmul
  obtain ⟨⟨⟨st', q⟩, w₁⟩, hresize, h⟩ := bind_eq_ok.1 h
  have hne : capacity * v.elemSize ≠ 0 := (Nat.mul_pos (by omega) hs.elem_pos).ne'
  rcases Allocator.resize_returned (hs.allocator ▸ backed_blockView) hs.buffer hne hresize with
    ⟨hst, hcells⟩ | ⟨rfl, hsize⟩
  · dsimp only at h
    rw [if_pos hst] at h
    cases h
    exact hs.same hcells
  · cases h
    exact ⟨hs.allocator, hs.elem_pos, hsize⟩

theorem makeRoom_sized (hs : Sized v w) {st : Status}
    (h : makeRoom v w = .ok ((st, v'), w')) : Sized v' w' := by
  unfold makeRoom at h
  split at h
  · split at h
    · cases h
      exact hs
    · obtain ⟨⟨st', next⟩, -, h⟩ := bind_eq_ok.1 h
      dsimp only at h
      split at h
      · cases h
        exact hs
      · exact reserve_sized hs h
  · cases h
    exact hs

theorem push_sized (hs : Sized v w) {element : Arg} {st : Status}
    (h : push v element w = .ok ((st, v'), w')) : Sized v' w' := by
  obtain ⟨_, -, h⟩ := bind_eq_ok.1 h
  obtain ⟨⟨⟨st₁, v₁⟩, w₁⟩, hroom, h⟩ := bind_eq_ok.1 h
  have hs₁ := makeRoom_sized hs hroom
  dsimp only at h
  split at h
  · cases h
    exact hs₁
  · obtain ⟨dst, -, h⟩ := bind_eq_ok.1 h
    obtain ⟨w₂, hcopy, h⟩ := bind_eq_ok.1 h
    obtain ⟨size, -, h⟩ := bind_eq_ok.1 h
    cases h
    exact (hs₁.keep (Memory.memcpy_rewritten hcopy).sizes).resized size

theorem pop_sized (hs : Sized v w) {p : Option Ptr} (h : pop v = .ok (p, v')) : Sized v' w := by
  unfold pop at h
  split at h
  · cases h
    exact hs
  · obtain ⟨size, -, h⟩ := bind_eq_ok.1 h
    obtain ⟨slot, -, h⟩ := bind_eq_ok.1 h
    cases h
    exact hs.resized size

theorem swapRemove_sized (hs : Sized v w) {index : ℕ} {p : Option Ptr}
    (h : swapRemove v index w = .ok ((p, v'), w')) : Sized v' w' := by
  unfold swapRemove at h
  split at h
  · cases h
    exact hs
  · obtain ⟨slot, -, h⟩ := bind_eq_ok.1 h
    obtain ⟨last, -, h⟩ := bind_eq_ok.1 h
    split at h
    · obtain ⟨lastSlot, -, h⟩ := bind_eq_ok.1 h
      obtain ⟨w₁, hcopy, h⟩ := bind_eq_ok.1 h
      cases h
      exact (hs.keep (Memory.memcpy_rewritten hcopy).sizes).resized last
    · cases h
      exact hs.resized last

theorem call_sized {s : Vector × Memory} (hs : Sized v w) {c : Op}
    (h : call (v, w) c = .ok s) : Sized s.1 s.2 := by
  cases c with
  | push element =>
    obtain ⟨⟨⟨st, v'⟩, w'⟩, hpush, hout⟩ := bind_eq_ok.1 h
    cases hout
    exact push_sized hs hpush
  | pop =>
    obtain ⟨⟨p, v'⟩, hpop, hout⟩ := bind_eq_ok.1 h
    cases hout
    exact pop_sized hs hpop
  | swapRemove index =>
    obtain ⟨⟨⟨p, v'⟩, w'⟩, hremove, hout⟩ := bind_eq_ok.1 h
    cases hout
    exact swapRemove_sized hs hremove
  | reserve capacity =>
    obtain ⟨⟨⟨st, v'⟩, w'⟩, hreserve, hout⟩ := bind_eq_ok.1 h
    cases hout
    exact reserve_sized hs hreserve
  | field =>
    cases h
    exact hs
  | _ =>
    obtain ⟨_, -, hout⟩ := bind_eq_ok.1 h
    cases hout
    exact hs

theorem createWithCapacity_sized {elemSize capacity : ℕ} {st : Status}
    (h : createWithCapacity elemSize capacity (some blockView) w = .ok ((st, some v), w')) :
    Sized v w' := by
  obtain ⟨_, helem, hrest⟩ := bind_eq_ok.1 h
  obtain ⟨_, hcap, -⟩ := bind_eq_ok.1 hrest
  obtain ⟨st, out, w₁, hcreate, hres⟩ := createWithCapacity_spec
    backed_copy (check_eq_ok.1 helem) (check_eq_ok.1 hcap) w
  cases h.symm.trans hcreate
  rcases hres with ⟨-, hout, -⟩ | ⟨-, _, hout, -, ⟨bs, hv⟩, -, -, -, hallocator⟩
  · cases hout
  · cases hout
    exact hv.sized hallocator

end Vector

/-! ## Heaps -/

namespace BinaryHeap

variable {h h' : BinaryHeap} {w w' : Memory}

/-- The buffer of the vector has room for its capacity. -/
structure Sized (h : BinaryHeap) (w : Memory) : Prop where
  allocator : h.allocator = blockView
  root : Vector.Sized h.root w

theorem push_sized (hs : Sized h w) {element : Arg} {st : Status}
    (hpush : push h element w = .ok ((st, h'), w')) : Sized h' w' := by
  obtain ⟨_, -, hpush⟩ := bind_eq_ok.1 hpush
  obtain ⟨⟨⟨st₁, v⟩, w₁⟩, hroot, hpush⟩ := bind_eq_ok.1 hpush
  have hv := Vector.push_sized hs.root hroot
  dsimp only at hpush
  split at hpush
  · cases hpush
    exact ⟨hs.allocator, hv⟩
  · obtain ⟨last, -, hpush⟩ := bind_eq_ok.1 hpush
    obtain ⟨w₂, hsift, hpush⟩ := bind_eq_ok.1 hpush
    cases hpush
    exact ⟨hs.allocator, hv.keep (siftUp_rewritten hsift).sizes⟩

theorem pop_sized (hs : Sized h w) {p : Option Ptr}
    (hpop : pop h w = .ok ((p, h'), w')) : Sized h' w' := by
  have hkept := pop_rewritten hpop
  unfold pop at hpop
  split at hpop
  · cases hpop
    exact hs
  · split at hpop
    · obtain ⟨⟨out, v⟩, hroot, hpop⟩ := bind_eq_ok.1 hpop
      cases hpop
      exact ⟨hs.allocator, Vector.pop_sized hs.root hroot⟩
    · obtain ⟨last, -, hpop⟩ := bind_eq_ok.1 hpop
      obtain ⟨w₁, -, hpop⟩ := bind_eq_ok.1 hpop
      obtain ⟨⟨out, v⟩, hroot, hpop⟩ := bind_eq_ok.1 hpop
      obtain ⟨w₂, -, hpop⟩ := bind_eq_ok.1 hpop
      cases hpop
      exact ⟨hs.allocator, (Vector.pop_sized hs.root hroot).keep hkept.sizes⟩

theorem call_sized {s : BinaryHeap × Memory} (hs : Sized h w) {c : Op}
    (hcall : call (h, w) c = .ok s) : Sized s.1 s.2 := by
  cases c with
  | push element =>
    obtain ⟨⟨⟨st, h'⟩, w'⟩, hpush, hout⟩ := bind_eq_ok.1 hcall
    cases hout
    exact push_sized hs hpush
  | pop =>
    obtain ⟨⟨⟨p, h'⟩, w'⟩, hpop, hout⟩ := bind_eq_ok.1 hcall
    cases hout
    exact pop_sized hs hpop
  | size =>
    cases hcall
    exact hs
  | _ =>
    obtain ⟨_, -, hout⟩ := bind_eq_ok.1 hcall
    cases hout
    exact hs

theorem create_sized {elemSize : ℕ} {cmp : Option (List UInt8 → List UInt8 → ℤ)} {st : Status}
    (hcreate : create elemSize cmp (some blockView) w = .ok ((st, some h), w')) : Sized h w' := by
  obtain ⟨_, helem, -⟩ := bind_eq_ok.1 hcreate
  obtain ⟨st, out, w₁, hcreate', hres⟩ := create_spec cmp backed_copy
    (check_eq_ok.1 helem) w
  cases hcreate.symm.trans hcreate'
  rcases hres with ⟨-, hout, -⟩ | ⟨-, _, hout, -, ⟨bs, hh⟩, -, -, -, -, hallocator⟩
  · cases hout
  · cases hout
    exact ⟨hallocator, hh.root.sized (hh.allocator.trans hallocator)⟩

end BinaryHeap

/-! ## Strings -/

namespace StringHeader

/-- The block of a string over an arena has room for its header and its capacity. -/
structure Sized (s : StringHeader) (w : Memory) : Prop where
  allocator : s.allocator = blockView
  block : w.sizeOf s.block = some (headerSize + s.capacity)

variable {s s' : StringHeader} {w w' : Memory}

theorem Sized.keep (hs : Sized s w) (hsizes : ∀ p, w'.sizeOf p = w.sizeOf p) : Sized s w' :=
  { hs with block := (hsizes _).trans hs.block }

/-- With another length. -/
theorem Sized.relabel (hs : Sized s w) (len : ℕ) : Sized { s with len } w := { hs with }

theorem ensureCapacity_sized (hs : Sized s w) {len : ℕ} {st : Status}
    (h : ensureCapacity s len w = .ok ((st, s'), w')) : Sized s' w' := by
  unfold ensureCapacity at h
  split at h
  · cases h
    exact hs
  rcases capacityFor_spec len with hfor | ⟨capacity, hfor, hcapacity, hmax⟩ <;> rw [hfor] at h
  · cases h
    exact hs
  simp only [ok_bind, ne_eq, not_true_eq_false, if_false] at h
  split at h
  · cases h
    exact hs
  rename_i allocSize hadd
  obtain ⟨rfl, -⟩ := (sizeAddOverflow_eq_some hmax).1 hadd
  obtain ⟨⟨⟨st', q⟩, w₁⟩, hresize, h⟩ := bind_eq_ok.1 h
  rcases Allocator.resize_returned (hs.allocator ▸ backed_blockView) hs.block
      (by unfold headerSize; omega) hresize with ⟨hst, hcells⟩ | ⟨rfl, hsize⟩
  · dsimp only at h
    rw [if_pos hst] at h
    cases h
    exact hs.keep fun _ => Mem.sizeOf_congr (by rw [hcells])
  · cases h
    exact ⟨hs.allocator, hsize⟩

theorem append_sized (hs : Sized s w) {suffix : Arg} {st : Status}
    (h : append s suffix w = .ok ((st, s'), w')) : Sized s' w' := by
  obtain ⟨_, -, h⟩ := bind_eq_ok.1 h
  obtain ⟨suffixLen, -, h⟩ := bind_eq_ok.1 h
  split at h
  · cases h
    exact hs
  split at h
  · cases h
    exact hs
  obtain ⟨⟨⟨st₁, s₁⟩, w₁⟩, hensure, h⟩ := bind_eq_ok.1 h
  have hs₁ := ensureCapacity_sized hs hensure
  dsimp only at h
  split at h
  · cases h
    exact hs₁
  · obtain ⟨w₂, hcopy, h⟩ := bind_eq_ok.1 h
    obtain ⟨w₃, hset, h⟩ := bind_eq_ok.1 h
    cases h
    have hkept := (Memory.memcpy_rewritten hcopy).trans (Memory.write_rewritten hset)
    exact (hs₁.keep hkept.sizes).relabel _

theorem prepend_sized (hs : Sized s w) {text : Arg} {st : Status}
    (h : prepend s text w = .ok ((st, s'), w')) : Sized s' w' := by
  obtain ⟨_, -, h⟩ := bind_eq_ok.1 h
  obtain ⟨textLen, -, h⟩ := bind_eq_ok.1 h
  split at h
  · cases h
    exact hs
  split at h
  · cases h
    exact hs
  obtain ⟨⟨⟨st₁, s₁⟩, w₁⟩, hensure, h⟩ := bind_eq_ok.1 h
  have hs₁ := ensureCapacity_sized hs hensure
  dsimp only at h
  split at h
  · cases h
    exact hs₁
  · obtain ⟨n, -, h⟩ := bind_eq_ok.1 h
    obtain ⟨w₂, hshift, h⟩ := bind_eq_ok.1 h
    obtain ⟨first, -, h⟩ := bind_eq_ok.1 h
    obtain ⟨k, -, h⟩ := bind_eq_ok.1 h
    obtain ⟨w₃, hmove, h⟩ := bind_eq_ok.1 h
    obtain ⟨w₄, hset, h⟩ := bind_eq_ok.1 h
    cases h
    have hkept := ((Memory.memmove_rewritten hshift).trans (Memory.memmove_rewritten hmove)).trans
      (Memory.write_rewritten hset)
    exact (hs₁.keep hkept.sizes).relabel _

theorem call_sized {t : StringHeader × Memory} (hs : Sized s w) {c : Op}
    (h : call (s, w) c = .ok t) : Sized t.1 t.2 := by
  cases c with
  | append suffix =>
    obtain ⟨⟨⟨st, s'⟩, w'⟩, happend, hout⟩ := bind_eq_ok.1 h
    cases hout
    exact append_sized hs happend
  | prepend text =>
    obtain ⟨⟨⟨st, s'⟩, w'⟩, hprepend, hout⟩ := bind_eq_ok.1 h
    cases hout
    exact prepend_sized hs hprepend
  | clear =>
    obtain ⟨w', hset, hout⟩ := bind_eq_ok.1 h
    cases hout
    exact (hs.keep (Memory.write_rewritten hset).sizes).relabel 0
  | len =>
    cases h
    exact hs
  | _ =>
    obtain ⟨_, -, hout⟩ := bind_eq_ok.1 h
    cases hout
    exact hs

theorem create_sized {initial : Arg} {st : Status}
    (h : create initial (some blockView) w = .ok ((st, some s), w')) : Sized s w' := by
  obtain ⟨len, -, h⟩ := bind_eq_ok.1 h
  rcases capacityFor_spec len with hfor | ⟨capacity, hfor, hcapacity, hmax⟩ <;> rw [hfor] at h
  · cases h
  simp only [ok_bind, ne_eq, not_true_eq_false, if_false] at h
  split at h
  · cases h
  rename_i allocSize hadd
  obtain ⟨rfl, -⟩ := (sizeAddOverflow_eq_some hmax).1 hadd
  obtain ⟨⟨⟨st', q⟩, w₁⟩, halloc, h⟩ := bind_eq_ok.1 h
  dsimp only at h
  split at h
  · cases h
  · rename_i hst
    obtain ⟨w₂, hcopy, h⟩ := bind_eq_ok.1 h
    obtain ⟨w₃, hset, h⟩ := bind_eq_ok.1 h
    cases h
    have hnew := Allocator.alloc_returned backed_blockView halloc (not_not.1 hst)
    have hcopied : Sized ⟨q, len, capacity, blockView⟩ w₂ := by
      refine Sized.keep ⟨rfl, hnew⟩ fun p => ?_
      unfold copyInitial at hcopy
      split at hcopy
      · exact (Memory.memcpy_rewritten hcopy).sizes p
      · cases hcopy
        rfl
    exact hcopied.keep (Memory.write_rewritten hset).sizes

end StringHeader

end K4c
