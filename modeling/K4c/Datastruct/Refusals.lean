import Mathlib.Tactic
import K4c.Datastruct.BinaryHeapCalls
import K4c.Datastruct.DequeCalls
import K4c.Datastruct.StringCalls
import K4c.Datastruct.VectorCalls

/-!
# Why a call fails

What a call does to a container is known whatever the allocator grants.  Here is what it
asks of the allocator, and that this explains its status: a call that returned
`K4C_NO_MEMORY` was refused a request, one that returned `K4C_OVERFLOW` needed a size that
is no `size_t`, and there is no other way to fail.

* `Vector.push_explains`, `Vector.reserve_explains`, `Vector.createWithCapacity_explains`.
* `Deque.push_explains`, `Deque.pushfront_explains`, `Deque.create_explains`.
* `BinaryHeap.push_explains`, `BinaryHeap.create_explains`.
* `StringHeader.append_explains`, `StringHeader.prepend_explains`, `StringHeader.create_explains`.
-/

namespace K4c

open Exec Bytes Blocks

/-! ## Vectors -/

namespace Vector

variable {v v' : Vector} {w w' : Memory} {bs : List UInt8}

theorem createWithCapacity_explains {elemSize capacity : ℕ}
    {allocator : Option (Allocator Memory)} (hbacked : Backed (Allocator.copy allocator))
    {x : (Status × Option Vector) × Memory}
    (h : createWithCapacity elemSize capacity allocator w = .ok x) :
    w.Explains x.2 (sizeMax < elemSize * capacity) x.1.1 := by
  obtain ⟨_, -, h⟩ := bind_eq_ok.1 h
  obtain ⟨_, -, h⟩ := bind_eq_ok.1 h
  cases hmul : sizeMulOverflow elemSize capacity with
  | none =>
    rw [hmul] at h
    cases h
    exact .overflow (sizeMulOverflow_eq_none.1 hmul)
  | some allocSize =>
    rw [hmul] at h
    obtain ⟨y, hcreate, h⟩ := bind_eq_ok.1 h
    cases h
    exact createOwner_explains (r := some (Allocator.copy allocator)) hbacked rfl
      (fun _ _ halloc => (Allocator.alloc_explains hbacked halloc).mono False.elim) hcreate

theorem destroy_asked (ha : Backed v.allocator) (h : destroy v w = .ok w') : w.Asked w' False :=
  destroyBuffered_asked ha h

theorem reserve_of_le {capacity : ℕ} (hle : capacity ≤ v.capacity) :
    reserve v capacity w = .ok ((.ok, v), w) := by
  rw [reserve, if_pos hle]
  rfl

/-- **Reserving** asks for the new buffer. -/
theorem reserve_explains (hholds : Holds v w bs) {capacity : ℕ} {x : (Status × Vector) × Memory}
    (h : reserve v capacity w = .ok x) :
    w.Explains x.2 (sizeMax < capacity * v.elemSize) x.1.1 := by
  by_cases hle : capacity ≤ v.capacity
  · rw [reserve_of_le hle] at h
    cases h
    exact .ok (.refl w id)
  rw [reserve, if_neg hle] at h
  cases hmul : sizeMulOverflow capacity v.elemSize with
  | none =>
    rw [hmul] at h
    cases h
    exact .overflow (sizeMulOverflow_eq_none.1 hmul)
  | some allocSize =>
    rw [hmul] at h
    obtain ⟨rfl, -⟩ := sizeMulOverflow_eq_some.1 hmul
    obtain ⟨⟨⟨st, buffer⟩, w₁⟩, hresize, h⟩ := bind_eq_ok.1 h
    have hx := Allocator.resize_explains hholds.buffered.backed (hholds.more (by omega)).2 hresize
    dsimp only at h hx
    split at h
    · cases h
      exact hx.mono False.elim
    · rename_i hok
      cases h
      rw [not_not.1 hok] at hx
      exact .ok hx.asked_of_ok

/-- **Making room** asks for the next larger buffer. -/
theorem makeRoom_explains (hholds : Holds v w bs) {x : (Status × Vector) × Memory}
    (h : makeRoom v w = .ok x) :
    w.Explains x.2 (¬ CanGrow capacityGrow v.capacity v.elemSize) x.1.1 := by
  by_cases hfull : v.size = v.capacity
  swap
  · rw [makeRoom, if_neg hfull] at h
    cases h
    exact .ok (.refl w id)
  rw [makeRoom, if_pos hfull, hfull] at h
  by_cases hmax : v.capacity + 1 ≤ sizeMax
  · obtain ⟨next, hgrow, -, -, -⟩ := growByHalf_spec hholds.capacity_le hmax
    simp only [(sizeAddOverflow_eq_some (by decide)).2 ⟨rfl, hmax⟩, capacityGrow, hgrow, ok_bind,
      ne_eq, not_true_eq_false, if_false] at h
    refine (reserve_explains hholds h).mono fun hover => ?_
    rintro ⟨-, next', hgrow', hfits⟩
    cases hgrow.symm.trans hgrow'
    exact absurd hfits (not_le.2 hover)
  · rw [(sizeAddOverflow_eq_none (by decide)).2 (by omega)] at h
    cases h
    exact .overflow fun hcan => hmax hcan.1

/-- **A push** asks for what makes room. -/
theorem push_explains (hholds : Holds v w bs) {element : Arg} {x : (Status × Vector) × Memory}
    (h : push v element w = .ok x) :
    w.Explains x.2 (¬ CanGrow capacityGrow v.capacity v.elemSize) x.1.1 := by
  obtain ⟨_, -, h⟩ := bind_eq_ok.1 h
  obtain ⟨⟨⟨st, v₁⟩, w₁⟩, hroom, h⟩ := bind_eq_ok.1 h
  have hx := makeRoom_explains hholds hroom
  dsimp only at h hx
  split at h
  · cases h
    exact hx
  · rename_i hok
    rw [not_not.1 hok] at hx
    obtain ⟨dst, -, h⟩ := bind_eq_ok.1 h
    obtain ⟨w₂, hcopy, h⟩ := bind_eq_ok.1 h
    obtain ⟨size, -, h⟩ := bind_eq_ok.1 h
    cases h
    exact hx.keep ((Memory.memcpy_rewritten hcopy).toQuiet.asked id)

/-- A push to a free slot needs nothing. -/
theorem push_fits (hlt : v.size < v.capacity) {element : Arg} {x : (Status × Vector) × Memory}
    (h : push v element w = .ok x) : x.1.1 = .ok ∧ x.1.2.capacity = v.capacity := by
  obtain ⟨_, -, h⟩ := bind_eq_ok.1 h
  simp only [makeRoom_of_lt hlt, ok_bind, ne_eq, not_true_eq_false, if_false] at h
  obtain ⟨dst, -, h⟩ := bind_eq_ok.1 h
  obtain ⟨w₁, -, h⟩ := bind_eq_ok.1 h
  obtain ⟨size, -, h⟩ := bind_eq_ok.1 h
  cases h
  exact ⟨rfl, rfl⟩

/-- **Removing by swapping** asks for nothing. -/
theorem swapRemove_asked {index : ℕ} {x : (Option Ptr × Vector) × Memory}
    (h : swapRemove v index w = .ok x) : w.Asked x.2 False := by
  unfold swapRemove at h
  split at h
  · cases h
    exact .refl w id
  · obtain ⟨slot, -, h⟩ := bind_eq_ok.1 h
    obtain ⟨last, -, h⟩ := bind_eq_ok.1 h
    split at h
    · obtain ⟨lastSlot, -, h⟩ := bind_eq_ok.1 h
      obtain ⟨w₁, hcopy, h⟩ := bind_eq_ok.1 h
      cases h
      exact (Memory.memcpy_rewritten hcopy).toQuiet.asked id
    · cases h
      exact .refl w id

end Vector

/-! ## Deques -/

namespace Deque

variable {d d' : Deque} {w w' : Memory} {bs : List UInt8}

theorem create_explains {elemSize : ℕ} {allocator : Option (Allocator Memory)}
    (hbacked : Backed (Allocator.copy allocator)) {x : (Status × Option Deque) × Memory}
    (h : create elemSize allocator w = .ok x) :
    w.Explains x.2 (sizeMax < elemSize * defaultCapacity) x.1.1 := by
  obtain ⟨_, -, h⟩ := bind_eq_ok.1 h
  cases hmul : sizeMulOverflow elemSize defaultCapacity with
  | none =>
    rw [hmul] at h
    cases h
    exact .overflow (sizeMulOverflow_eq_none.1 hmul)
  | some allocSize =>
    rw [hmul] at h
    obtain ⟨y, hcreate, h⟩ := bind_eq_ok.1 h
    cases h
    exact createOwner_explains (r := some (Allocator.copy allocator)) hbacked rfl
      (fun _ _ halloc => (Allocator.alloc_explains hbacked halloc).mono False.elim) hcreate

theorem destroy_asked (ha : Backed d.allocator) (h : destroy d w = .ok w') : w.Asked w' False :=
  destroyBuffered_asked ha h

theorem unroll_rewritten {newBuffer : ℕ} (h : unroll d newBuffer w = .ok w') :
    w.Rewritten w' := by
  unfold unroll at h
  split at h
  swap
  · cases h
    exact .refl w
  split at h
  · obtain ⟨src, -, h⟩ := bind_eq_ok.1 h
    obtain ⟨count, -, h⟩ := bind_eq_ok.1 h
    exact Memory.memcpy_rewritten h
  · obtain ⟨firstCount, -, h⟩ := bind_eq_ok.1 h
    obtain ⟨src, -, h⟩ := bind_eq_ok.1 h
    obtain ⟨first, -, h⟩ := bind_eq_ok.1 h
    obtain ⟨w₁, hcopy, h⟩ := bind_eq_ok.1 h
    split at h
    · obtain ⟨second, -, h⟩ := bind_eq_ok.1 h
      exact (Memory.memcpy_rewritten hcopy).trans (Memory.memcpy_rewritten h)
    · cases h
      exact Memory.memcpy_rewritten hcopy

/-- **Growing** asks for the next larger buffer. -/
theorem grow_explains (hholds : Holds d w bs) (hfull : d.size = d.capacity)
    {x : (Status × Deque) × Memory} (h : grow d w = .ok x) :
    w.Explains x.2 (¬ CanGrow capacityGrow d.capacity d.elemSize) x.1.1 := by
  rw [grow, hfull] at h
  by_cases hmax : d.capacity + 1 ≤ sizeMax
  swap
  · rw [(sizeAddOverflow_eq_none (by decide)).2 (by omega)] at h
    cases h
    exact .overflow fun hcan => hmax hcan.1
  rw [(sizeAddOverflow_eq_some (by decide)).2 ⟨rfl, hmax⟩] at h
  obtain ⟨⟨st, next⟩, hgrow, h⟩ := bind_eq_ok.1 h
  obtain ⟨k, hk⟩ := hholds.pow
  obtain ⟨st', out, hgrow', hres⟩ :=
    capacityGrow_spec (k := k) (by omega : 2 ^ k ≤ sizeMax) hmax
  rw [← hk] at hgrow'
  cases hgrow.symm.trans hgrow'
  dsimp only at h
  split at h
  · rename_i hst
    rcases hres with rfl | ⟨rfl, -⟩
    · cases h
      refine .overflow ?_
      rintro ⟨-, next', hnext, -⟩
      cases hgrow.symm.trans hnext
    · exact absurd rfl hst
  rename_i hst
  obtain rfl : st = .ok := not_not.1 hst
  cases hmul : sizeMulOverflow next d.elemSize with
  | none =>
    rw [hmul] at h
    cases h
    refine .overflow ?_
    rintro ⟨-, next', hnext, hfits⟩
    cases hgrow.symm.trans hnext
    exact absurd hfits (not_le.2 (sizeMulOverflow_eq_none.1 hmul))
  | some allocSize =>
    rw [hmul] at h
    obtain ⟨⟨⟨st₁, newBuffer⟩, w₁⟩, halloc, h⟩ := bind_eq_ok.1 h
    have hx := Allocator.alloc_explains hholds.buffered.backed halloc
    dsimp only at h hx
    split at h
    · cases h
      exact hx.mono False.elim
    · rename_i hok
      rw [not_not.1 hok] at hx
      obtain ⟨w₂, hunroll, h⟩ := bind_eq_ok.1 h
      obtain ⟨w₃, hdealloc, h⟩ := bind_eq_ok.1 h
      cases h
      exact .ok (hx.asked_of_ok.andThen (((unroll_rewritten hunroll).toQuiet.asked id).andThen
        (Allocator.dealloc_asked hholds.buffered.backed hdealloc)))

theorem makeRoom_explains (hholds : Holds d w bs) {x : (Status × Deque) × Memory}
    (h : makeRoom d w = .ok x) :
    w.Explains x.2 (¬ CanGrow capacityGrow d.capacity d.elemSize) x.1.1 := by
  unfold makeRoom at h
  split at h
  · exact grow_explains hholds (by assumption) h
  · cases h
    exact .ok (.refl w id)

/-- **A push** asks for what makes room. -/
theorem push_explains (hholds : Holds d w bs) {element : Arg} {x : (Status × Deque) × Memory}
    (h : push d element w = .ok x) :
    w.Explains x.2 (¬ CanGrow capacityGrow d.capacity d.elemSize) x.1.1 := by
  obtain ⟨_, -, h⟩ := bind_eq_ok.1 h
  obtain ⟨_, -, h⟩ := bind_eq_ok.1 h
  obtain ⟨⟨⟨st, d₁⟩, w₁⟩, hroom, h⟩ := bind_eq_ok.1 h
  have hx := makeRoom_explains hholds hroom
  dsimp only at h hx
  split at h
  · cases h
    exact hx
  · rename_i hok
    rw [not_not.1 hok] at hx
    obtain ⟨dst, -, h⟩ := bind_eq_ok.1 h
    obtain ⟨w₂, hcopy, h⟩ := bind_eq_ok.1 h
    obtain ⟨size, -, h⟩ := bind_eq_ok.1 h
    obtain ⟨tail, -, h⟩ := bind_eq_ok.1 h
    cases h
    exact hx.keep ((Memory.memcpy_rewritten hcopy).toQuiet.asked id)

theorem pushfront_explains (hholds : Holds d w bs) {element : Arg} {x : (Status × Deque) × Memory}
    (h : pushfront d element w = .ok x) :
    w.Explains x.2 (¬ CanGrow capacityGrow d.capacity d.elemSize) x.1.1 := by
  obtain ⟨_, -, h⟩ := bind_eq_ok.1 h
  obtain ⟨_, -, h⟩ := bind_eq_ok.1 h
  obtain ⟨⟨⟨st, d₁⟩, w₁⟩, hroom, h⟩ := bind_eq_ok.1 h
  have hx := makeRoom_explains hholds hroom
  dsimp only at h hx
  split at h
  · cases h
    exact hx
  · rename_i hok
    rw [not_not.1 hok] at hx
    obtain ⟨head, -, h⟩ := bind_eq_ok.1 h
    obtain ⟨dst, -, h⟩ := bind_eq_ok.1 h
    obtain ⟨w₂, hcopy, h⟩ := bind_eq_ok.1 h
    obtain ⟨size, -, h⟩ := bind_eq_ok.1 h
    cases h
    exact hx.keep ((Memory.memcpy_rewritten hcopy).toQuiet.asked id)

/-- A push to a free slot needs nothing. -/
theorem push_fits (hlt : d.size < d.capacity) {element : Arg} {x : (Status × Deque) × Memory}
    (h : push d element w = .ok x) : x.1.1 = .ok ∧ x.1.2.capacity = d.capacity := by
  obtain ⟨_, -, h⟩ := bind_eq_ok.1 h
  obtain ⟨_, -, h⟩ := bind_eq_ok.1 h
  simp only [makeRoom_of_lt hlt, ok_bind, ne_eq, not_true_eq_false, if_false] at h
  obtain ⟨dst, -, h⟩ := bind_eq_ok.1 h
  obtain ⟨w₁, -, h⟩ := bind_eq_ok.1 h
  obtain ⟨size, -, h⟩ := bind_eq_ok.1 h
  obtain ⟨tail, -, h⟩ := bind_eq_ok.1 h
  cases h
  exact ⟨rfl, rfl⟩

theorem pushfront_fits (hlt : d.size < d.capacity) {element : Arg}
    {x : (Status × Deque) × Memory} (h : pushfront d element w = .ok x) :
    x.1.1 = .ok ∧ x.1.2.capacity = d.capacity := by
  obtain ⟨_, -, h⟩ := bind_eq_ok.1 h
  obtain ⟨_, -, h⟩ := bind_eq_ok.1 h
  simp only [makeRoom_of_lt hlt, ok_bind, ne_eq, not_true_eq_false, if_false] at h
  obtain ⟨head, -, h⟩ := bind_eq_ok.1 h
  obtain ⟨dst, -, h⟩ := bind_eq_ok.1 h
  obtain ⟨w₁, -, h⟩ := bind_eq_ok.1 h
  obtain ⟨size, -, h⟩ := bind_eq_ok.1 h
  cases h
  exact ⟨rfl, rfl⟩

end Deque

/-! ## Heaps -/

namespace BinaryHeap

variable {h : BinaryHeap} {w w' : Memory} {bs : List UInt8}

theorem create_explains {elemSize : ℕ} {cmp : Option (List UInt8 → List UInt8 → ℤ)}
    {allocator : Option (Allocator Memory)} (hbacked : Backed (Allocator.copy allocator))
    {x : (Status × Option BinaryHeap) × Memory} (hx : create elemSize cmp allocator w = .ok x) :
    w.Explains x.2 (sizeMax < elemSize * Vector.defaultCapacity) x.1.1 := by
  obtain ⟨_, -, hx⟩ := bind_eq_ok.1 hx
  obtain ⟨y, hcreate, hx⟩ := bind_eq_ok.1 hx
  cases hx
  refine createOwner_explains (r := allocator) hbacked rfl (fun _ _ hroot => ?_) hcreate
  change Backed (Allocator.copy (some (Allocator.copy allocator))) at hbacked
  exact Vector.createWithCapacity_explains hbacked hroot

theorem destroy_asked (ha : Backed h.allocator) (hroot : Backed h.root.allocator)
    (hx : destroy h w = .ok w') : w.Asked w' False := by
  obtain ⟨w₁, hfirst, hsecond⟩ := bind_eq_ok.1 hx
  exact (Vector.destroy_asked hroot hfirst).andThen (Allocator.dealloc_asked ha hsecond)

/-- **A push** asks for what the vector asks for. -/
theorem push_explains (hh : Lies h w bs) {element : Arg} {x : (Status × BinaryHeap) × Memory}
    (hx : push h element w = .ok x) :
    w.Explains x.2 (¬ CanGrow Vector.capacityGrow h.root.capacity h.root.elemSize) x.1.1 := by
  obtain ⟨_, -, hx⟩ := bind_eq_ok.1 hx
  obtain ⟨⟨⟨st, root⟩, w₁⟩, hroot, hx⟩ := bind_eq_ok.1 hx
  have hpush := Vector.push_explains hh.root hroot
  dsimp only at hx hpush
  split at hx
  · cases hx
    exact hpush
  · rename_i hok
    rw [not_not.1 hok] at hpush
    obtain ⟨last, -, hx⟩ := bind_eq_ok.1 hx
    obtain ⟨w₂, hsift, hx⟩ := bind_eq_ok.1 hx
    cases hx
    exact hpush.keep ((siftUp_rewritten hsift).toQuiet.asked id)

/-- A push to a free slot needs nothing. -/
theorem push_fits (hlt : h.root.size < h.root.capacity) {element : Arg}
    {x : (Status × BinaryHeap) × Memory} (hx : push h element w = .ok x) :
    x.1.1 = .ok ∧ x.1.2.root.capacity = h.root.capacity := by
  obtain ⟨_, -, hx⟩ := bind_eq_ok.1 hx
  obtain ⟨⟨⟨st, root⟩, w₁⟩, hroot, hx⟩ := bind_eq_ok.1 hx
  obtain ⟨rfl, hcap⟩ : st = .ok ∧ root.capacity = h.root.capacity := Vector.push_fits hlt hroot
  dsimp only at hx
  rw [if_neg (not_not.2 rfl)] at hx
  obtain ⟨last, -, hx⟩ := bind_eq_ok.1 hx
  obtain ⟨w₂, -, hx⟩ := bind_eq_ok.1 hx
  cases hx
  exact ⟨rfl, hcap⟩

end BinaryHeap

/-! ## Strings -/

namespace StringHeader

variable {s : StringHeader} {w w' : Memory} {text t : List UInt8} {src : Arg}

/-- There is a block for a text of this length. -/
def CanHold (len : ℕ) : Prop :=
  ∃ capacity, capacityFor len = .ok (.ok, capacity) ∧ headerSize + capacity ≤ sizeMax

/-- The steps to a block for a text: there is none, or this is its size. -/
theorem capacityFor_cases (len : ℕ) :
    (capacityFor len = .ok (.overflow, 0) ∧ ¬ CanHold len) ∨
    ∃ capacity, capacityFor len = .ok (.ok, capacity) ∧
      (sizeAddOverflow headerSize capacity = none ∧ ¬ CanHold len ∨
        sizeAddOverflow headerSize capacity = some (headerSize + capacity)) := by
  rcases capacityFor_spec len with hfor | ⟨capacity, hfor, -, hmax⟩
  · refine .inl ⟨hfor, ?_⟩
    rintro ⟨capacity, hcapacity, -⟩
    cases hfor.symm.trans hcapacity
  refine .inr ⟨capacity, hfor, ?_⟩
  cases hadd : sizeAddOverflow headerSize capacity with
  | none =>
    refine .inl ⟨rfl, ?_⟩
    rintro ⟨capacity', hcapacity, hfits⟩
    cases hfor.symm.trans hcapacity
    exact absurd hfits (not_le.2 ((sizeAddOverflow_eq_none hmax).1 hadd))
  | some allocSize =>
    obtain ⟨rfl, -⟩ := (sizeAddOverflow_eq_some hmax).1 hadd
    exact .inr rfl

theorem ensureCapacity_of_lt {len : ℕ} (hlt : len < s.capacity) :
    ensureCapacity s len w = .ok ((.ok, s), w) := by
  rw [ensureCapacity, if_pos hlt]
  rfl

/-- **Making room** asks for a block for the text. -/
theorem ensureCapacity_explains (ha : Backed s.allocator) {len : ℕ}
    {x : (Status × StringHeader) × Memory} (h : ensureCapacity s len w = .ok x) :
    w.Explains x.2 (¬ CanHold len) x.1.1 := by
  by_cases hlt : len < s.capacity
  · cases h.symm.trans (ensureCapacity_of_lt hlt)
    exact .ok (.refl w id)
  rw [ensureCapacity, if_neg hlt] at h
  rcases capacityFor_cases len with ⟨hfor, hnot⟩ | ⟨capacity, hfor, hadd | hadd⟩
  · rw [hfor] at h
    cases h
    exact .overflow hnot
  · simp only [hfor, ok_bind, ne_eq, not_true_eq_false, if_false, hadd.1] at h
    cases h
    exact .overflow hadd.2
  · simp only [hfor, ok_bind, ne_eq, not_true_eq_false, if_false, hadd] at h
    have hpos : headerSize + capacity ≠ 0 := by
      unfold headerSize
      omega
    obtain ⟨⟨⟨st, tmp⟩, w₁⟩, hresize, h⟩ := bind_eq_ok.1 h
    have hx := Allocator.resize_explains ha hpos hresize
    dsimp only at h hx
    split at h
    · cases h
      exact hx.mono False.elim
    · rename_i hok
      cases h
      rw [not_not.1 hok] at hx
      exact .ok hx.asked_of_ok

theorem copyInitial_rewritten {len : ℕ} (h : copyInitial s w src len = .ok w') :
    w.Rewritten w' := by
  unfold copyInitial at h
  split at h
  · exact Memory.memcpy_rewritten h
  · cases h
    exact .refl w

theorem create_explains {allocator : Option (Allocator Memory)}
    (hbacked : Backed (Allocator.copy allocator)) (hinitial : Initial w src t)
    {x : (Status × Option StringHeader) × Memory} (h : create src allocator w = .ok x) :
    w.Explains x.2 (¬ CanHold t.length) x.1.1 := by
  rw [create, hinitial.len.1, ok_bind] at h
  rcases capacityFor_cases t.length with ⟨hfor, hnot⟩ | ⟨capacity, hfor, hadd | hadd⟩
  · rw [hfor] at h
    cases h
    exact .overflow hnot
  · simp only [hfor, ok_bind, ne_eq, not_true_eq_false, if_false, hadd.1] at h
    cases h
    exact .overflow hadd.2
  · simp only [hfor, ok_bind, ne_eq, not_true_eq_false, if_false, hadd] at h
    obtain ⟨⟨⟨st, block⟩, w₁⟩, halloc, h⟩ := bind_eq_ok.1 h
    rw [Allocator.alloc_copy] at halloc
    have hx := Allocator.alloc_explains hbacked halloc
    dsimp only at h hx
    split at h
    · cases h
      exact hx.mono False.elim
    · rename_i hok
      rw [not_not.1 hok] at hx
      obtain ⟨w₂, hcopy, h⟩ := bind_eq_ok.1 h
      obtain ⟨w₃, hset, h⟩ := bind_eq_ok.1 h
      cases h
      exact .ok (hx.asked_of_ok.andThen (((copyInitial_rewritten hcopy).toQuiet.asked id).andThen
        ((Memory.write_rewritten hset).toQuiet.asked id)))

/-- The length of a text that is added to is that of the sum, if it is a size. -/
theorem newLen_cases (s : StringHeader) (t : List UInt8) :
    sizeAddOverflow s.len t.length = none ∧ sizeMax < s.len + t.length ∨
      sizeAddOverflow s.len t.length = some (s.len + t.length) := by
  unfold sizeAddOverflow
  split
  · exact .inl ⟨rfl, by omega⟩
  · exact .inr rfl

theorem not_canHold {len : ℕ} (hlen : sizeMax ≤ len) : ¬ CanHold len := by
  rintro ⟨capacity, hfor, -⟩
  rw [capacityFor, (sizeAddOverflow_eq_none (by decide)).2 (by omega)] at hfor
  cases hfor

/-- **Appending** asks for a block for the longer text. -/
theorem append_explains (hholds : Holds s w text) (ht : src.IsString w s.owned t)
    {x : (Status × StringHeader) × Memory} (h : append s src w = .ok x) :
    w.Explains x.2 (¬ CanHold (s.len + t.length)) x.1.1 := by
  obtain ⟨head, room, -, hstored⟩ := hholds.stored
  rw [append, check_of ht.ne_null, ok_bind, ht.strlen, ok_bind] at h
  split at h
  · cases h
    exact .ok (.refl w id)
  rcases newLen_cases s t with ⟨hadd, hlen⟩ | hadd
  · rw [hadd] at h
    cases h
    exact .overflow (not_canHold hlen.le)
  rw [hadd] at h
  obtain ⟨⟨⟨st, header⟩, w₁⟩, hensure, h⟩ := bind_eq_ok.1 h
  have hx := ensureCapacity_explains hstored.backed hensure
  dsimp only at h hx
  split at h
  · cases h
    exact hx
  · rename_i hok
    rw [not_not.1 hok] at hx
    obtain ⟨w₂, hcopy, h⟩ := bind_eq_ok.1 h
    obtain ⟨w₃, hset, h⟩ := bind_eq_ok.1 h
    cases h
    exact .ok (hx.asked_of_ok.andThen (((Memory.memcpy_rewritten hcopy).toQuiet.asked id).andThen
      ((Memory.write_rewritten hset).toQuiet.asked id)))

/-- **Prepending** asks for a block for the longer text. -/
theorem prepend_explains (hholds : Holds s w text) (ht : src.IsString w s.owned t)
    {x : (Status × StringHeader) × Memory} (h : prepend s src w = .ok x) :
    w.Explains x.2 (¬ CanHold (s.len + t.length)) x.1.1 := by
  obtain ⟨head, room, -, hstored⟩ := hholds.stored
  rw [prepend, check_of ht.ne_null, ok_bind, ht.strlen, ok_bind] at h
  split at h
  · cases h
    exact .ok (.refl w id)
  rcases newLen_cases s t with ⟨hadd, hlen⟩ | hadd
  · rw [hadd] at h
    cases h
    exact .overflow (not_canHold hlen.le)
  rw [hadd] at h
  obtain ⟨⟨⟨st, header⟩, w₁⟩, hensure, h⟩ := bind_eq_ok.1 h
  have hx := ensureCapacity_explains hstored.backed hensure
  dsimp only at h hx
  split at h
  · cases h
    exact hx
  · rename_i hok
    rw [not_not.1 hok] at hx
    obtain ⟨oldSize, -, h⟩ := bind_eq_ok.1 h
    obtain ⟨w₂, hmove, h⟩ := bind_eq_ok.1 h
    obtain ⟨first, -, h⟩ := bind_eq_ok.1 h
    obtain ⟨prefixSize, -, h⟩ := bind_eq_ok.1 h
    obtain ⟨w₃, hmove₂, h⟩ := bind_eq_ok.1 h
    obtain ⟨w₄, hset, h⟩ := bind_eq_ok.1 h
    cases h
    have hmoves := (Memory.memmove_rewritten hmove).trans (Memory.memmove_rewritten hmove₂)
    exact .ok (hx.asked_of_ok.andThen ((hmoves.toQuiet.asked id).andThen
      ((Memory.write_rewritten hset).toQuiet.asked id)))

theorem Holds.newLen_of_fits (hholds : Holds s w text) (hlt : s.len + t.length < s.capacity) :
    sizeAddOverflow s.len t.length = some (s.len + t.length) := by
  obtain ⟨head, room, -, hstored⟩ := hholds.stored
  have hfits := hstored.fits
  rcases newLen_cases s t with ⟨-, hlen⟩ | hadd
  · omega
  · exact hadd

/-- A text that fits is appended, in the block there is. -/
theorem append_fits (hholds : Holds s w text) (ht : src.IsString w s.owned t)
    (hlt : s.len + t.length < s.capacity) {x : (Status × StringHeader) × Memory}
    (h : append s src w = .ok x) :
    x.1.1 = .ok ∧ x.1.2.block = s.block ∧ x.1.2.capacity = s.capacity := by
  rw [append, check_of ht.ne_null, ok_bind, ht.strlen, ok_bind] at h
  split at h
  · cases h
    exact ⟨rfl, rfl, rfl⟩
  simp only [hholds.newLen_of_fits hlt, ensureCapacity_of_lt hlt, ok_bind, ne_eq,
    not_true_eq_false, if_false] at h
  obtain ⟨w₁, -, h⟩ := bind_eq_ok.1 h
  obtain ⟨w₂, -, h⟩ := bind_eq_ok.1 h
  cases h
  exact ⟨rfl, rfl, rfl⟩

/-- A text that fits is prepended, in the block there is. -/
theorem prepend_fits (hholds : Holds s w text) (ht : src.IsString w s.owned t)
    (hlt : s.len + t.length < s.capacity) {x : (Status × StringHeader) × Memory}
    (h : prepend s src w = .ok x) :
    x.1.1 = .ok ∧ x.1.2.block = s.block ∧ x.1.2.capacity = s.capacity := by
  rw [prepend, check_of ht.ne_null, ok_bind, ht.strlen, ok_bind] at h
  split at h
  · cases h
    exact ⟨rfl, rfl, rfl⟩
  simp only [hholds.newLen_of_fits hlt, ensureCapacity_of_lt hlt, ok_bind, ne_eq,
    not_true_eq_false, if_false] at h
  obtain ⟨oldSize, -, h⟩ := bind_eq_ok.1 h
  obtain ⟨w₁, -, h⟩ := bind_eq_ok.1 h
  obtain ⟨first, -, h⟩ := bind_eq_ok.1 h
  obtain ⟨prefixSize, -, h⟩ := bind_eq_ok.1 h
  obtain ⟨w₂, -, h⟩ := bind_eq_ok.1 h
  obtain ⟨w₃, -, h⟩ := bind_eq_ok.1 h
  cases h
  exact ⟨rfl, rfl, rfl⟩

end StringHeader

end K4c
