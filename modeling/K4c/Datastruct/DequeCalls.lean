import Mathlib.Tactic
import K4c.Datastruct.Deque
import K4c.Lib.Growth
import K4c.Lib.Slots

/-!
# What the deque calls do

The invariant of a deque: its buffer is a ring of `capacity` slots, a power of
two, and the elements lie in the window of `size` slots that starts at `head`.
Each call is specified once against the list of these elements.

* `Deque.Holds` — the invariant; `Deque.elements` — the list.
* `grow_granted` — a full deque is unrolled into a buffer of twice the size.
* `push_spec`, `pushfront_spec` — fail without an effect, or add an element at
  their end.
* `popleft_spec`, `popback_spec`, `peekleft_spec`, `peekback_spec` — the place that is
  returned holds the element at the end it names.
* `items_spec` — the iterator, which masks its index, visits the elements in order.
-/

namespace K4c.Deque

open Exec Bytes Slots Blocks Growth

/-! ## Deques in memory -/

/-- The blocks of a deque. -/
def owned (d : Deque) : List ℕ := [d.self, d.buffer]

/-- The deque lies in the memory, with these bytes in its buffer. -/
structure Holds (d : Deque) (w : Memory) (bs : List UInt8) : Prop where
  buffered : Buffered d.allocator d.self d.buffer (d.capacity * d.elemSize) w bs
  elem_pos : 0 < d.elemSize
  pow : ∃ k, d.capacity = 2 ^ k
  size_le : d.size ≤ d.capacity
  head_lt : d.head < d.capacity
  tail_eq : d.tail = (d.head + d.size) % d.capacity

/-- The elements of a deque whose buffer holds these bytes. -/
def elements (d : Deque) (bs : List UInt8) : List (List UInt8) :=
  window bs d.elemSize d.capacity d.head d.size

/-- What a call keeps of the record, and what it does to the blocks. -/
structure Changed (d d' : Deque) (w w' : Memory) : Prop where
  self : d'.self = d.self
  elemSize : d'.elemSize = d.elemSize
  allocator : d'.allocator = d.allocator
  exchange : Exchange (Reclaims d.allocator) d.owned d'.owned w w'

variable {d d' d'' : Deque} {w w' w'' : Memory} {bs bs' : List UInt8}

theorem Changed.trans (h : Changed d d' w w') (h' : Changed d' d'' w' w'') :
    Changed d d'' w w'' where
  self := h'.self.trans h.self
  elemSize := h'.elemSize.trans h.elemSize
  allocator := h'.allocator.trans h.allocator
  exchange := h.exchange.trans (h.allocator ▸ h'.exchange)

namespace Holds

theorem live (h : Holds d w bs) : ∀ p ∈ d.owned, w.Live p := h.buffered.live

theorem cap_pos (h : Holds d w bs) : 0 < d.capacity := (Nat.zero_le _).trans_lt h.head_lt

theorem tail_lt (h : Holds d w bs) : d.tail < d.capacity := by
  rw [h.tail_eq]
  exact Nat.mod_lt _ h.cap_pos

/-- A power of two that is a `size_t` leaves its top bit room. -/
theorem capacity_le (h : Holds d w bs) : 2 * d.capacity ≤ sizeMax + 1 := by
  obtain ⟨k, hk⟩ := h.pow
  have hle : d.capacity ≤ sizeMax :=
    (Nat.le_mul_of_pos_right _ h.elem_pos).trans h.buffered.fits
  have hlt : 2 ^ k < 2 ^ 64 := by
    rw [← hk]
    unfold sizeMax at hle
    omega
  have hk64 : k < 64 := (Nat.pow_lt_pow_iff_right (by decide)).1 hlt
  calc 2 * d.capacity = 2 ^ (k + 1) := by rw [hk, pow_succ, Nat.mul_comm]
    _ ≤ 2 ^ 64 := Nat.pow_le_pow_right (by decide) hk64
    _ = sizeMax + 1 := rfl

theorem mask (h : Holds d w bs) (i : ℕ) : i &&& (d.capacity - 1) = i % d.capacity := by
  obtain ⟨k, hk⟩ := h.pow
  rw [hk, Nat.and_two_pow_sub_one_eq_mod]

/-- The assertions about the capacity hold. -/
theorem mask_self (h : Holds d w bs) : d.capacity &&& (d.capacity - 1) = 0 := by
  rw [h.mask, Nat.mod_self]

theorem slot_end (h : Holds d w bs) {i : ℕ} (hi : i < d.capacity) :
    i * d.elemSize + d.elemSize ≤ bs.length := by
  rw [h.buffered.length]
  exact slot_end_le hi

theorem slotAt (h : Holds d w bs) {i : ℕ} (hi : i < d.capacity) :
    d.slotAt i = .ok ⟨d.buffer, i * d.elemSize⟩ := by
  have hend := h.slot_end hi
  have hfits := h.buffered.fits
  rw [h.buffered.length] at hend
  rw [Deque.slotAt, sizeMul_of_le (by omega), ok_bind, pure_eq_ok]

theorem indexAfter (h : Holds d w bs) {i : ℕ} (hi : i < d.capacity) :
    d.indexAfter i = .ok ((i + 1) % d.capacity) := by
  have := h.capacity_le
  rw [Deque.indexAfter, sizeAdd_of_le (by omega), ok_bind, pure_eq_ok]

theorem indexBefore (h : Holds d w bs) {i : ℕ} (hi : i < d.capacity) :
    d.indexBefore i = .ok ((i + d.capacity - 1) % d.capacity) := by
  have := h.capacity_le
  rw [Deque.indexBefore, sizeAdd_of_le (by omega), ok_bind, sizeSub_of_le (by omega), ok_bind,
    pure_eq_ok]

/-- The bytes at a slot of the buffer. -/
theorem read_slot (h : Holds d w bs) {i : ℕ} (hi : i < d.capacity) :
    Memory.read w d.buffer (i * d.elemSize) d.elemSize = .ok (slot bs d.elemSize i) :=
  Memory.read_eq h.buffered.cell (h.slot_end hi)

/-- The place before the tail is that of the last element. -/
theorem before_tail (h : Holds d w bs) (hpos : 0 < d.size) :
    (d.tail + d.capacity - 1) % d.capacity = (d.head + (d.size - 1)) % d.capacity := by
  have hcap := h.cap_pos
  rw [show d.tail + d.capacity - 1 = d.tail + (d.capacity - 1) by omega, h.tail_eq,
    Nat.mod_add_mod, show d.head + d.size + (d.capacity - 1) =
      d.head + (d.size - 1) + d.capacity by omega, Nat.add_mod_right]

end Holds

theorem elements_eq_nil (h : d.size = 0) : d.elements bs = [] := by
  rw [elements, h, window_zero]

theorem length_elements : (d.elements bs).length = d.size := length_window

/-! ## Construction and destruction -/

/-- **Creating a deque** fails with everything it allocated released, or gives an
empty deque in two new blocks. -/
theorem create_spec {elemSize : ℕ} {allocator : Option (Allocator Memory)}
    (hbacked : Backed (Allocator.copy allocator)) (helem : 0 < elemSize) (w : Memory) :
    ∃ st out w', create elemSize allocator w = .ok ((st, out), w') ∧
      Creates (Reclaims (Allocator.copy allocator)) w owned
        (fun d w' => (∃ bs, Holds d w' bs) ∧ d.size = 0 ∧ d.elemSize = elemSize ∧
          d.capacity = defaultCapacity ∧ d.allocator = Allocator.copy allocator) st out w' := by
  rw [create, check_of helem, ok_bind]
  cases hmul : sizeMulOverflow elemSize defaultCapacity with
  | none => exact ⟨.overflow, none, w, rfl, .inl ⟨by decide, rfl, .refl (by simp)⟩⟩
  | some allocSize =>
    obtain ⟨rfl, hfits⟩ := sizeMulOverflow_eq_some.1 hmul
    obtain ⟨st, out, w', hcreate, hres⟩ :=
      createOwner_spec (n := handleSize) (r := some (Allocator.copy allocator)) (o := fun p => [p])
        (f := fun copy w => Allocator.alloc Memory.libc (some copy) w (elemSize * defaultCapacity))
        hbacked rfl (bufferPayload_spec hbacked (elemSize * defaultCapacity)) w
    simp only [hcreate, ok_bind, pure_eq_ok]
    refine ⟨_, _, _, rfl, ?_⟩
    rcases hres with ⟨hst, rfl, hx⟩ | ⟨rfl, ⟨self, buffer⟩, rfl, hx, ⟨bs, hlen, hcell⟩, hapart⟩
    · exact .inl ⟨hst, rfl, hx⟩
    · have hne : self ≠ buffer := by simpa using hapart
      have hbuf : Buffered (Allocator.copy allocator) self buffer (defaultCapacity * elemSize)
          w' bs := by
        rw [Nat.mul_comm] at hlen hcell hfits
        exact ⟨hbacked, hx.held _ (by simp), hcell, hne, hlen, hfits⟩
      have hpow : ∃ k, defaultCapacity = 2 ^ k := ⟨4, rfl⟩
      exact .inr ⟨rfl, _, rfl, hx,
        ⟨bs, hbuf, helem, hpow, Nat.zero_le _, (by decide : 0 < defaultCapacity), rfl⟩, rfl, rfl,
        rfl, rfl⟩

/-- **Destroying a deque** releases its two blocks. -/
theorem destroy_spec (h : Holds d w bs) :
    ∃ w', destroy d w = .ok w' ∧ Exchange (Reclaims d.allocator) d.owned [] w w' :=
  h.buffered.destroyBuffered_spec

/-! ## Growing -/

/-- Doubling from a power of two goes through the powers of two. -/
theorem doubled (k j : ℕ) : (2 * ·)^[j] (2 ^ k) = 2 ^ (k + j) := by
  rw [mul_left_iterate, Nat.pow_add, Nat.mul_comm]

theorem doubling_grows (k : ℕ) : Grows (2 * ·) (2 ^ k) := by
  intro i j hij
  change (2 * ·)^[i] (2 ^ k) < (2 * ·)^[j] (2 ^ k)
  rw [doubled, doubled]
  exact Nat.pow_lt_pow_right (by decide) (by omega)

theorem capacityGrowRound_searches (minCapacity : ℕ) :
    Searches (capacityGrowRound minCapacity) (2 * ·) minCapacity sizeMax (fun c => (.ok, c))
      (.overflow, 0) := by
  intro c _
  rw [capacityGrowRound]
  by_cases hlt : c < minCapacity
  · rw [if_pos hlt, if_pos hlt]
    by_cases hbig : c > sizeMax / 2
    · have hover : ¬ 2 * c ≤ sizeMax := by omega
      rw [if_pos hbig, if_neg hover]
    · have hfits : 2 * c ≤ sizeMax := by omega
      rw [if_neg hbig, if_pos hfits]
  · rw [if_neg hlt, if_neg hlt]

/-- **Doubling** a power of two until it covers a size gives the first power of two
that does, or leaves the type. -/
theorem capacityGrow_first {k minCapacity : ℕ} (hk : 2 ^ k ≤ sizeMax)
    (hmin : minCapacity ≤ sizeMax) :
    ∃ j, First (2 * ·) (2 ^ k) minCapacity j ∧ capacityGrow (2 ^ k) minCapacity =
      .ok (if 2 ^ (k + j) ≤ sizeMax then (.ok, 2 ^ (k + j)) else (.overflow, 0)) := by
  have hmask : 2 ^ k &&& (2 ^ k - 1) = 0 := by
    rw [Nat.and_two_pow_sub_one_eq_mod, Nat.mod_self]
  rw [capacityGrow, check_of hmask, ok_bind]
  by_cases h : 2 ^ k ≥ minCapacity
  · refine ⟨0, .zero h, ?_⟩
    rw [if_pos h, Nat.add_zero, if_pos hk]
    rfl
  · obtain ⟨j, hj, hloop⟩ := (capacityGrowRound_searches minCapacity).loop_eq
      (doubling_grows k) hk hmin (Nat.lt_succ_self _)
    rw [doubled] at hloop
    rw [if_neg h]
    exact ⟨j, hj, hloop⟩

/-- The result is a power of two again, and covers both arguments. -/
theorem capacityGrow_spec {k minCapacity : ℕ} (hk : 2 ^ k ≤ sizeMax)
    (hmin : minCapacity ≤ sizeMax) :
    ∃ st out, capacityGrow (2 ^ k) minCapacity = .ok (st, out) ∧
      (st = .overflow ∨ st = .ok ∧ (∃ j, out = 2 ^ j) ∧ 2 ^ k ≤ out ∧ minCapacity ≤ out) := by
  obtain ⟨j, hj, hgrow⟩ := capacityGrow_first hk hmin
  by_cases hfits : 2 ^ (k + j) ≤ sizeMax
  · rw [if_pos hfits] at hgrow
    have hreaches := hj.reaches
    rw [doubled] at hreaches
    have hle : 2 ^ k ≤ 2 ^ (k + j) := Nat.pow_le_pow_right (by decide) (Nat.le_add_right k j)
    exact ⟨.ok, _, hgrow, .inr ⟨rfl, ⟨_, rfl⟩, hle, hreaches⟩⟩
  · rw [if_neg hfits] at hgrow
    exact ⟨.overflow, _, hgrow, .inl rfl⟩

/-- The two copies of a growing deque unroll a ring that is full. -/
theorem unroll_spec (h : Holds d w bs) (hfull : d.size = d.capacity) {b size : ℕ}
    {fresh : List UInt8} (hnew : w.cells b = some ⟨size, .bytes fresh⟩)
    (hlen : d.capacity * d.elemSize ≤ fresh.length) (hne : b ≠ d.buffer) :
    ∃ w' bs', unroll d b w = .ok w' ∧ bs'.length = fresh.length ∧
      (∀ i < d.capacity, slot bs' d.elemSize i =
        slot bs d.elemSize ((d.head + i) % d.capacity)) ∧
      w'.cells = Function.update w.cells b (some ⟨size, .bytes bs'⟩) := by
  have hhead := h.head_lt
  have hlength := h.buffered.length
  have hfits := h.buffered.fits
  have htail : d.tail = d.head := by
    rw [h.tail_eq, hfull, Nat.add_mod_right, Nat.mod_eq_of_lt hhead]
  have hsplit : (d.capacity - d.head) * d.elemSize + d.head * d.elemSize =
      d.capacity * d.elemSize := by
    rw [← Nat.add_mul, Nat.sub_add_cancel hhead.le]
  set first := (d.capacity - d.head) * d.elemSize with hfirst
  set second := d.head * d.elemSize with hsecond
  have hread₁ : Memory.source w (.inside ⟨d.buffer, second⟩) first =
      .ok (slice bs second first) := Memory.read_eq h.buffered.cell (by dsimp only; omega)
  have hlen₁ : (slice bs second first).length = first := length_slice (by omega)
  obtain ⟨w₁, hcopy₁, hcells₁⟩ := Memory.memcpy_eq (d := ⟨b, 0⟩) hnew hread₁
    (by rw [hlen₁]; dsimp only; omega) (fun hc => hne hc.1.symm)
  set half := splice fresh 0 (slice bs second first) with hhalf
  have hhalflen : half.length = fresh.length := length_splice (by rw [hlen₁]; omega)
  have hunroll : unroll d b w = (if d.head > 0 then
      w₁.memcpy ⟨b, first⟩ (.inside ⟨d.buffer, 0⟩) second else .ok w₁) := by
    have hsrc : sizeMul d.head d.elemSize = .ok second := sizeMul_of_le (by omega)
    have hcount : sizeMul (d.capacity - d.head) d.elemSize = .ok first := sizeMul_of_le (by omega)
    rw [unroll, if_pos (by omega), if_neg (by omega), htail]
    simp only [sizeSub_of_le hhead.le, hsrc, hcount, ok_bind, hcopy₁]
    rfl
  have hslots := fun i hi => slot_unroll (n := d.elemSize) (j := i) hlen hlength hhead hi
  by_cases hzero : d.head = 0
  · have hsecond0 : second = 0 := by rw [hsecond, hzero, Nat.zero_mul]
    refine ⟨w₁, half, by rw [hunroll, if_neg (by omega)], hhalflen, fun i hi => ?_, hcells₁⟩
    rw [← hslots i hi, ← hfirst, ← hsecond, ← hhalf, hsecond0, slice_zero, splice_nil]
  · have hold : w₁.cells d.buffer = some ⟨d.capacity * d.elemSize, .bytes bs⟩ := by
      rw [hcells₁, Function.update_of_ne hne.symm, h.buffered.cell]
    have hnew₁ : w₁.cells b = some ⟨size, .bytes half⟩ := by
      rw [hcells₁, Function.update_self]
    have hread₂ : Memory.source w₁ (.inside ⟨d.buffer, 0⟩) second = .ok (slice bs 0 second) :=
      Memory.read_eq hold (by dsimp only; omega)
    have hlen₂ : (slice bs 0 second).length = second := length_slice (by omega)
    obtain ⟨w₂, hcopy₂, hcells₂⟩ := Memory.memcpy_eq (d := ⟨b, first⟩) hnew₁ hread₂
      (by rw [hlen₂]; dsimp only; omega) (fun hc => hne hc.1.symm)
    refine ⟨w₂, splice half first (slice bs 0 second),
      by rw [hunroll, if_pos (by omega), hcopy₂], ?_, fun i hi => hslots i hi, ?_⟩
    · rw [length_splice (by rw [hlen₂]; omega), hhalflen]
    · rw [hcells₂, hcells₁, Function.update_idem]

/-- The deque in the buffer that a request for more was granted. -/
def unrolled (d : Deque) (w : Memory) (capacity : ℕ) : Deque :=
  { d with buffer := w.next, capacity, head := 0, tail := d.size }

/-- **Growing** that is granted gives a deque with the same elements that is not full, and
hands the old buffer back to the allocator. -/
theorem grow_granted (h : Holds d w bs) {next : ℕ} {g : Grant}
    (hgrown : Grown capacityGrow d.size d.capacity d.elemSize w next g) :
    ∃ w' bs', grow d w = .ok ((.ok, d.unrolled w next), w') ∧ Holds (d.unrolled w next) w' bs' ∧
      d.size < next ∧ (d.unrolled w next).elements bs' = d.elements bs ∧
      Changed d (d.unrolled w next) w w' ∧
      (Reclaims d.allocator → w'.cells d.buffer = none) ∧
      (¬ Reclaims d.allocator → w'.cells d.buffer = w.cells d.buffer) := by
  obtain ⟨hfull, hmax, hgrow, hfits, hg⟩ := hgrown
  obtain ⟨k, hk⟩ := h.pow
  have hcapmax : 2 ^ k ≤ sizeMax := by
    rw [← hk]
    exact (Nat.le_mul_of_pos_right _ h.elem_pos).trans h.buffered.fits
  have hmin : d.size + 1 ≤ sizeMax := hmax
  obtain ⟨st, cap, hgrow', hcap⟩ := capacityGrow_spec hcapmax hmin
  rw [← hk] at hgrow' hcap
  cases hgrow.symm.trans hgrow'
  rcases hcap with hcap | ⟨-, hpow, -, hnext⟩
  · cases hcap
  obtain ⟨fresh, w₁, halloc, hfresh, hcells₁⟩ :=
    Allocator.alloc_granted h.buffered.backed (next * d.elemSize) hg
  have hbuffer : d.buffer ≠ w.next := Mem.ne_next_of_live (Mem.live_of h.buffered.cell)
  have hgain : Exchange (Reclaims d.allocator) d.owned (w.next :: d.owned) w w₁ :=
    .gain h.live hcells₁
  have h₁ : Holds d w₁ bs := by
    refine { h with buffered := { h.buffered with handle := ?_, cell := ?_ } }
    · exact hgain.held _ (by simp [owned])
    · rw [hcells₁, Function.update_of_ne hbuffer, h.buffered.cell]
  have hless : d.capacity * d.elemSize ≤ fresh.length := by
    rw [hfresh]
    exact Nat.mul_le_mul_right _ (by omega)
  obtain ⟨w₂, bs', hunroll, hlen', hslots, hcells₂⟩ := unroll_spec h₁ hfull
    (b := w.next) (by rw [hcells₁, Function.update_self]) hless hbuffer.symm
  obtain ⟨w₃, hdealloc, hbuffered, hx, hold⟩ :=
    h.buffered.replaced (hlen'.trans hfresh) hfits hcells₁ hcells₂
  have hlt : d.size < next := by omega
  refine ⟨w₃, bs', ?_, ⟨hbuffered, h.elem_pos, hpow, hlt.le, Nat.zero_lt_of_lt hlt, ?_⟩, hlt, ?_,
    ⟨rfl, rfl, rfl, hx⟩, hold⟩
  · rw [grow, (sizeAddOverflow_eq_some (by decide)).2 ⟨rfl, hmin⟩]
    simp only [hgrow, ok_bind, ne_eq, not_true_eq_false, if_false,
      sizeMulOverflow_eq_some.2 ⟨rfl, hfits⟩, halloc, hunroll, hdealloc, pure_eq_ok]
    rfl
  · change d.size = (0 + d.size) % next
    rw [Nat.zero_add, Nat.mod_eq_of_lt hlt]
  · change window bs' d.elemSize next 0 d.size = window bs d.elemSize d.capacity d.head d.size
    refine window_congr fun i hi => ?_
    rw [Nat.zero_add, Nat.mod_eq_of_lt (by omega)]
    exact hslots i (by omega)

/-- **Growing** that is not granted has no effect. -/
theorem grow_refused (h : Holds d w bs) (hfull : d.size = d.capacity)
    (hnot : ∀ next g, ¬ Grown capacityGrow d.size d.capacity d.elemSize w next g) :
    ∃ st w', grow d w = .ok ((st, d), w') ∧ st ≠ .ok ∧ w'.cells = w.cells := by
  rw [grow]
  by_cases hmax : d.size + 1 ≤ sizeMax
  swap
  · rw [(sizeAddOverflow_eq_none (by decide)).2 (by omega)]
    exact ⟨.overflow, w, rfl, by decide, rfl⟩
  obtain ⟨k, hk⟩ := h.pow
  have hcapmax : 2 ^ k ≤ sizeMax := by
    rw [← hk]
    exact (Nat.le_mul_of_pos_right _ h.elem_pos).trans h.buffered.fits
  obtain ⟨st, next, hgrow, hcap⟩ := capacityGrow_spec hcapmax hmax
  rw [← hk] at hgrow
  rw [(sizeAddOverflow_eq_some (by decide)).2 ⟨rfl, hmax⟩]
  rcases hcap with rfl | ⟨rfl, -⟩
  · refine ⟨.overflow, w, ?_, by decide, rfl⟩
    simp only [hgrow, ok_bind, ne_eq, reduceCtorEq, not_false_eq_true, if_true, pure_eq_ok]
  simp only [hgrow, ok_bind, ne_eq, not_true_eq_false, if_false]
  by_cases hfits : next * d.elemSize ≤ sizeMax
  · cases hg : w.answers w.requests with
    | some g => exact absurd ⟨hfull, hmax, hgrow, hfits, hg⟩ (hnot next g)
    | none =>
      refine ⟨.noMemory, w.refuse, ?_, by decide, rfl⟩
      simp only [sizeMulOverflow_eq_some.2 ⟨rfl, hfits⟩,
        Allocator.alloc_refused h.buffered.backed (next * d.elemSize) hg, ok_bind,
        reduceCtorEq, not_false_eq_true, if_true, pure_eq_ok]
  · rw [sizeMulOverflow_eq_none.2 (by omega)]
    exact ⟨.overflow, w, rfl, by decide, rfl⟩

/-- **Making room** in a full deque fails without an effect, when it cannot grow, or gives
it the larger buffer. -/
theorem makeRoom_full (h : Holds d w bs) (hfull : d.size = d.capacity) :
    (∃ st w', makeRoom d w = .ok ((st, d), w') ∧ st ≠ .ok ∧ w'.cells = w.cells ∧
      ∀ next g, ¬ Grown capacityGrow d.size d.capacity d.elemSize w next g) ∨
    (∃ next g w' bs', Grown capacityGrow d.size d.capacity d.elemSize w next g ∧
      makeRoom d w = .ok ((.ok, d.unrolled w next), w') ∧ Holds (d.unrolled w next) w' bs' ∧
      d.size < next ∧ (d.unrolled w next).elements bs' = d.elements bs ∧
      Changed d (d.unrolled w next) w w' ∧
      (Reclaims d.allocator → w'.cells d.buffer = none) ∧
      (¬ Reclaims d.allocator → w'.cells d.buffer = w.cells d.buffer)) := by
  rw [makeRoom, if_pos hfull]
  by_cases hgrown : ∃ next g, Grown capacityGrow d.size d.capacity d.elemSize w next g
  · obtain ⟨next, g, hgrown⟩ := hgrown
    obtain ⟨w', bs', hrest⟩ := grow_granted h hgrown
    exact .inr ⟨next, g, w', bs', hgrown, hrest⟩
  · have hnot : ∀ next g, ¬ Grown capacityGrow d.size d.capacity d.elemSize w next g :=
      fun next g hg => hgrown ⟨next, g, hg⟩
    obtain ⟨st, w', hgrow, hst, hcells⟩ := grow_refused h hfull hnot
    exact .inl ⟨st, w', hgrow, hst, hcells, hnot⟩

theorem makeRoom_of_lt (hlt : d.size < d.capacity) : makeRoom d w = .ok ((.ok, d), w) := by
  rw [makeRoom, if_neg hlt.ne]

/-- **Making room** fails without an effect, or gives a deque with the same
elements and a free slot. -/
theorem makeRoom_spec (h : Holds d w bs) :
    ∃ st d' w', makeRoom d w = .ok ((st, d'), w') ∧
      ((st ≠ .ok ∧ d' = d ∧ w'.cells = w.cells) ∨
        (st = .ok ∧ ∃ bs', Holds d' w' bs' ∧ d'.size = d.size ∧ d'.size < d'.capacity ∧
          d'.elements bs' = d.elements bs ∧ Changed d d' w w')) := by
  have hsize := h.size_le
  by_cases hfull : d.size = d.capacity
  · rcases makeRoom_full h hfull with ⟨st, w', hroom, hst, hcells, -⟩ |
      ⟨next, g, w', bs', -, hroom, h', hlt, helements, hchanged, -⟩
    · exact ⟨st, d, w', hroom, .inl ⟨hst, rfl, hcells⟩⟩
    · exact ⟨_, _, w', hroom, .inr ⟨rfl, bs', h', rfl, hlt, helements, hchanged⟩⟩
  · exact ⟨.ok, d, w, makeRoom_of_lt (by omega),
      .inr ⟨rfl, bs, h, rfl, by omega, rfl, rfl, rfl, rfl, .refl h.live⟩⟩

/-! ## Pushing -/

/-- The outcome of either push, with the list that `add` makes. -/
def Pushed (d : Deque) (w : Memory) (bs : List UInt8)
    (add : List (List UInt8) → List (List UInt8)) (st : Status) (d' : Deque) (w' : Memory) :
    Prop :=
  (st ≠ .ok ∧ d' = d ∧ w'.cells = w.cells) ∨
  (st = .ok ∧ ∃ bs', Holds d' w' bs' ∧ d'.elements bs' = add (d.elements bs) ∧
    Changed d d' w w')

/-- The element is written into a free slot, next to one end. -/
theorem store_slot (h : Holds d w bs) {element : Arg} {e : List UInt8} {i : ℕ}
    (he : element.Copies w ⟨d.buffer, i * d.elemSize⟩ d.elemSize e) (hi : i < d.capacity) :
    ∃ w', w.memcpy ⟨d.buffer, i * d.elemSize⟩ element d.elemSize = .ok w' ∧
      Buffered d.allocator d.self d.buffer (d.capacity * d.elemSize) w'
        (splice bs (i * d.elemSize) e) ∧
      Exchange (Reclaims d.allocator) d.owned d.owned w w' ∧ w.Quiet w' := by
  have hend := h.slot_end hi
  obtain ⟨w', hcopy, hcells⟩ := Memory.memcpy_eq (d := ⟨d.buffer, i * d.elemSize⟩)
    h.buffered.cell he.1 (by rw [he.length]; exact hend) he.2
  exact ⟨w', hcopy, h.buffered.written (length_splice (by rw [he.length]; exact hend)) hcells,
    .write h.live (by simp [owned]) hcells, (Memory.memcpy_rewritten hcopy).toQuiet⟩

/-- The slot in front of the first element. -/
def front (d : Deque) : ℕ := (d.head + d.capacity - 1) % d.capacity

theorem Holds.front_lt (h : Holds d w bs) : d.front < d.capacity := Nat.mod_lt _ h.cap_pos

/-- The deque with one more element behind the last one. -/
def addBack (d : Deque) : Deque :=
  { d with size := d.size + 1, tail := (d.tail + 1) % d.capacity }

/-- The deque with one more element in front of the first one. -/
def addFront (d : Deque) : Deque := { d with size := d.size + 1, head := d.front }

/-- The second half of `push`. -/
theorem storeBack_spec (h : Holds d w bs) (hlt : d.size < d.capacity) {element : Arg}
    {e : List UInt8} (he : element.Copies w ⟨d.buffer, d.tail * d.elemSize⟩ d.elemSize e) :
    ∃ bs' w', (do
        let dst ← slotAt d d.tail
        let w ← w.memcpy dst element d.elemSize
        let size ← sizeAdd d.size 1
        let tail ← indexAfter d d.tail
        return ((Status.ok, { d with size, tail }), w)) = .ok ((.ok, d.addBack), w') ∧
      Holds d.addBack w' bs' ∧ d.addBack.elements bs' = d.elements bs ++ [e] ∧
      Changed d d.addBack w w' ∧ w.Quiet w' := by
  obtain ⟨w', hcopy, hbuf, hx, hquiet⟩ := store_slot h he h.tail_lt
  have hmax := h.capacity_le
  refine ⟨_, w', ?_, ⟨hbuf, h.elem_pos, h.pow, hlt, h.head_lt, ?_⟩, ?_, ⟨rfl, rfl, rfl, hx⟩, hquiet⟩
  · rw [h.slotAt h.tail_lt, ok_bind, hcopy, ok_bind, sizeAdd_of_le (by omega), ok_bind,
      h.indexAfter h.tail_lt, ok_bind]
    rfl
  · change (d.tail + 1) % d.capacity = (d.head + (d.size + 1)) % d.capacity
    rw [h.tail_eq, Nat.mod_add_mod, Nat.add_assoc]
  · change window _ d.elemSize d.capacity d.head (d.size + 1) = _
    rw [h.tail_eq]
    exact window_push he.length h.buffered.length.ge hlt

/-- The second half of `pushfront`. -/
theorem storeFront_spec (h : Holds d w bs) (hlt : d.size < d.capacity) {element : Arg}
    {e : List UInt8} (he : element.Copies w ⟨d.buffer, d.front * d.elemSize⟩ d.elemSize e) :
    ∃ bs' w', (do
        let head ← indexBefore d d.head
        let dst ← slotAt d head
        let w ← w.memcpy dst element d.elemSize
        let size ← sizeAdd d.size 1
        return ((Status.ok, { d with size, head }), w)) = .ok ((.ok, d.addFront), w') ∧
      Holds d.addFront w' bs' ∧ d.addFront.elements bs' = e :: d.elements bs ∧
      Changed d d.addFront w w' ∧ w.Quiet w' := by
  obtain ⟨w', hcopy, hbuf, hx, hquiet⟩ := store_slot h he h.front_lt
  have hmax := h.capacity_le
  refine ⟨_, w', ?_, ⟨hbuf, h.elem_pos, h.pow, hlt, h.front_lt, ?_⟩, ?_, ⟨rfl, rfl, rfl, hx⟩,
    hquiet⟩
  · rw [h.indexBefore h.head_lt, ok_bind]
    change (slotAt d d.front >>= _) = _
    rw [h.slotAt h.front_lt, ok_bind, hcopy, ok_bind, sizeAdd_of_le (by omega), ok_bind]
    rfl
  · change d.tail = (d.front + (d.size + 1)) % d.capacity
    rw [h.tail_eq, Nat.add_comm d.size 1, ← Nat.add_assoc, ← Nat.mod_add_mod (d.front + 1), front,
      succ_pred_mod h.head_lt]
  · exact window_pushfront he.length h.buffered.length.ge hlt h.head_lt

section Room

variable {st : Status} {element : Arg} {e : List UInt8}

/-- A push that finds no room. -/
theorem push_of_refused (h : Holds d w bs) (hroom : makeRoom d w = .ok ((st, d'), w'))
    (hst : st ≠ .ok) (hne : element ≠ .null) : push d element w = .ok ((st, d'), w') := by
  rw [push, check_of hne, ok_bind, check_of h.cap_pos, ok_bind, hroom, ok_bind]
  simp only [ne_eq, hst, not_false_eq_true, if_true, pure_eq_ok]

theorem pushfront_of_refused (h : Holds d w bs) (hroom : makeRoom d w = .ok ((st, d'), w'))
    (hst : st ≠ .ok) (hne : element ≠ .null) : pushfront d element w = .ok ((st, d'), w') := by
  rw [pushfront, check_of hne, ok_bind, check_of h.cap_pos, ok_bind, hroom, ok_bind]
  simp only [ne_eq, hst, not_false_eq_true, if_true, pure_eq_ok]

/-- A `push` that finds room copies what the argument reads as by then. -/
theorem push_of_room (h : Holds d w bs) (hroom : makeRoom d w = .ok ((.ok, d'), w'))
    (he : element.Copies w' ⟨d'.buffer, d'.tail * d'.elemSize⟩ d'.elemSize e) :
    ∃ bs' w'', push d element w = .ok ((.ok, d'.addBack), w'') ∧ Holds d'.addBack w'' bs' ∧
      d'.addBack.elements bs' = d.elements bs ++ [e] ∧ Changed d d'.addBack w w'' ∧
      w'.Quiet w'' := by
  obtain ⟨st, d₁, w₁, hroom', hres⟩ := makeRoom_spec h
  cases hroom.symm.trans hroom'
  rcases hres with ⟨hst, -⟩ | ⟨-, bs₁, h₁, -, hlt, helements, hchanged⟩
  · exact absurd rfl hst
  obtain ⟨bs', w₂, hstore, h₂, helements₂, hchanged₂, hquiet⟩ := storeBack_spec h₁ hlt he
  refine ⟨bs', w₂, ?_, h₂, by rw [helements₂, helements], hchanged.trans hchanged₂, hquiet⟩
  rw [push, check_of he.ne_null, ok_bind, check_of h.cap_pos, ok_bind, hroom, ok_bind]
  exact hstore

/-- A `pushfront` that finds room copies what the argument reads as by then. -/
theorem pushfront_of_room (h : Holds d w bs) (hroom : makeRoom d w = .ok ((.ok, d'), w'))
    (he : element.Copies w' ⟨d'.buffer, d'.front * d'.elemSize⟩ d'.elemSize e) :
    ∃ bs' w'', pushfront d element w = .ok ((.ok, d'.addFront), w'') ∧
      Holds d'.addFront w'' bs' ∧ d'.addFront.elements bs' = e :: d.elements bs ∧
      Changed d d'.addFront w w'' ∧ w'.Quiet w'' := by
  obtain ⟨st, d₁, w₁, hroom', hres⟩ := makeRoom_spec h
  cases hroom.symm.trans hroom'
  rcases hres with ⟨hst, -⟩ | ⟨-, bs₁, h₁, -, hlt, helements, hchanged⟩
  · exact absurd rfl hst
  obtain ⟨bs', w₂, hstore, h₂, helements₂, hchanged₂, hquiet⟩ := storeFront_spec h₁ hlt he
  refine ⟨bs', w₂, ?_, h₂, by rw [helements₂, helements], hchanged.trans hchanged₂, hquiet⟩
  rw [pushfront, check_of he.ne_null, ok_bind, check_of h.cap_pos, ok_bind, hroom, ok_bind]
  exact hstore

end Room

/-- The element can be put into this slot: it lies outside of the blocks of the deque,
or there is a free slot and it does not overlap this one in part. -/
def Takes (d : Deque) (w : Memory) (slot : ℕ) (element : Arg) (e : List UInt8) : Prop :=
  element.Reads w d.owned d.elemSize e ∨
    d.size < d.capacity ∧ element.Copies w ⟨d.buffer, slot * d.elemSize⟩ d.elemSize e

theorem Takes.ne_null {slot : ℕ} {element : Arg} {e : List UInt8} (h : d.Takes w slot element e) :
    element ≠ .null := by
  rcases h with h | ⟨-, h⟩
  · exact h.ne_null
  · exact h.ne_null

/-- Making room for an element that can be put into the slot at one of the ends. -/
theorem makeRoom_takes (slot : Deque → ℕ) (h : Holds d w bs) {element : Arg} {e : List UInt8}
    (he : d.Takes w (slot d) element e) :
    ∃ st d' w', makeRoom d w = .ok ((st, d'), w') ∧
      ((st ≠ .ok ∧ d' = d ∧ w'.cells = w.cells) ∨
        (st = .ok ∧ ∃ bs', Holds d' w' bs' ∧ d'.size < d'.capacity ∧
          d'.elements bs' = d.elements bs ∧ Changed d d' w w' ∧
          element.Copies w' ⟨d'.buffer, slot d' * d'.elemSize⟩ d'.elemSize e)) := by
  rcases he with he | ⟨hlt, he⟩
  · obtain ⟨st, d', w', hroom, hres⟩ := makeRoom_spec h
    refine ⟨st, d', w', hroom, ?_⟩
    rcases hres with hfail | ⟨rfl, bs', h', -, hlt, helements, hchanged⟩
    · exact .inl hfail
    · have he' : element.Reads w' d'.owned d'.elemSize e :=
        hchanged.elemSize ▸ he.exchange hchanged.exchange
      exact .inr ⟨rfl, bs', h', hlt, helements, hchanged, he'.copies (by simp [owned])⟩
  · refine ⟨.ok, d, w, ?_, .inr ⟨rfl, bs, h, hlt, rfl, ⟨rfl, rfl, rfl, .refl h.live⟩, he⟩⟩
    rw [makeRoom, if_neg hlt.ne]

/-- **`push`** fails without an effect, or adds the element at the end. -/
theorem push_spec (h : Holds d w bs) {element : Arg} {e : List UInt8}
    (he : d.Takes w d.tail element e) :
    ∃ st d' w', push d element w = .ok ((st, d'), w') ∧
      Pushed d w bs (fun xs => xs ++ [e]) st d' w' := by
  obtain ⟨st, d₁, w₁, hroom, hres⟩ := makeRoom_takes tail h he
  rcases hres with ⟨hst, rfl, hcells⟩ | ⟨rfl, -, -, -, -, -, he₁⟩
  · exact ⟨st, d₁, w₁, push_of_refused h hroom hst he.ne_null, .inl ⟨hst, rfl, hcells⟩⟩
  obtain ⟨bs', w₂, hpush, h₂, helements, hchanged, -⟩ := push_of_room h hroom he₁
  exact ⟨.ok, _, w₂, hpush, .inr ⟨rfl, bs', h₂, helements, hchanged⟩⟩

/-- **`pushfront`** fails without an effect, or adds the element at the front. -/
theorem pushfront_spec (h : Holds d w bs) {element : Arg} {e : List UInt8}
    (he : d.Takes w d.front element e) :
    ∃ st d' w', pushfront d element w = .ok ((st, d'), w') ∧
      Pushed d w bs (fun xs => e :: xs) st d' w' := by
  obtain ⟨st, d₁, w₁, hroom, hres⟩ := makeRoom_takes front h he
  rcases hres with ⟨hst, rfl, hcells⟩ | ⟨rfl, -, -, -, -, -, he₁⟩
  · exact ⟨st, d₁, w₁, pushfront_of_refused h hroom hst he.ne_null, .inl ⟨hst, rfl, hcells⟩⟩
  obtain ⟨bs', w₂, hpush, h₂, helements, hchanged, -⟩ := pushfront_of_room h hroom he₁
  exact ⟨.ok, _, w₂, hpush, .inr ⟨rfl, bs', h₂, helements, hchanged⟩⟩

/-- A push that succeeded: room was made, and then what the argument read as was copied
into the slot at one end. -/
def Copied (d : Deque) (w : Memory) (bs : List UInt8) (slot : Deque → ℕ) (added : Deque → Deque)
    (add : List UInt8 → List (List UInt8) → List (List UInt8)) (element : Arg) (d' : Deque)
    (w' : Memory) : Prop :=
  ∃ d₁ w₁ e bs', makeRoom d w = .ok ((.ok, d₁), w₁) ∧
    element.Copies w₁ ⟨d₁.buffer, slot d₁ * d₁.elemSize⟩ d₁.elemSize e ∧ d' = added d₁ ∧
    Holds d' w' bs' ∧ d'.elements bs' = add e (d.elements bs) ∧ Changed d d' w w' ∧ w₁.Quiet w'

/-- **A `push` that returned**, whatever the argument was. -/
theorem push_returned (h : Holds d w bs) {element : Arg} {st : Status}
    (hpush : push d element w = .ok ((st, d'), w')) :
    (st ≠ .ok ∧ d' = d ∧ w'.cells = w.cells) ∨
      (st = .ok ∧ Copied d w bs tail addBack (fun e xs => xs ++ [e]) element d' w') := by
  obtain ⟨_, hcheck, hrest⟩ := bind_eq_ok.1 hpush
  obtain ⟨st₁, d₁, w₁, hroom, hres⟩ := makeRoom_spec h
  rcases hres with ⟨hst, rfl, hcells⟩ | ⟨rfl, bs₁, h₁, -⟩
  · cases hpush.symm.trans (push_of_refused h hroom hst (check_eq_ok.1 hcheck))
    exact .inl ⟨hst, rfl, hcells⟩
  · rw [check_of h.cap_pos, ok_bind, hroom, ok_bind] at hrest
    dsimp only at hrest
    rw [if_neg (not_not.2 rfl), h₁.slotAt h₁.tail_lt, ok_bind] at hrest
    obtain ⟨_, hcopy, -⟩ := bind_eq_ok.1 hrest
    obtain ⟨e, he⟩ := Arg.copies_of_memcpy hcopy
    obtain ⟨bs', w₂, hpush', hrest⟩ := push_of_room h hroom he
    cases hpush.symm.trans hpush'
    exact .inr ⟨rfl, d₁, w₁, e, bs', hroom, he, rfl, hrest⟩

/-- **A `pushfront` that returned**, whatever the argument was. -/
theorem pushfront_returned (h : Holds d w bs) {element : Arg} {st : Status}
    (hpush : pushfront d element w = .ok ((st, d'), w')) :
    (st ≠ .ok ∧ d' = d ∧ w'.cells = w.cells) ∨
      (st = .ok ∧ Copied d w bs front addFront List.cons element d' w') := by
  obtain ⟨_, hcheck, hrest⟩ := bind_eq_ok.1 hpush
  obtain ⟨st₁, d₁, w₁, hroom, hres⟩ := makeRoom_spec h
  rcases hres with ⟨hst, rfl, hcells⟩ | ⟨rfl, bs₁, h₁, -⟩
  · cases hpush.symm.trans (pushfront_of_refused h hroom hst (check_eq_ok.1 hcheck))
    exact .inl ⟨hst, rfl, hcells⟩
  · rw [check_of h.cap_pos, ok_bind, hroom, ok_bind] at hrest
    dsimp only at hrest
    rw [if_neg (not_not.2 rfl), h₁.indexBefore h₁.head_lt, ok_bind] at hrest
    change (slotAt d₁ d₁.front >>= _) = _ at hrest
    rw [h₁.slotAt h₁.front_lt, ok_bind] at hrest
    obtain ⟨_, hcopy, -⟩ := bind_eq_ok.1 hrest
    obtain ⟨e, he⟩ := Arg.copies_of_memcpy hcopy
    obtain ⟨bs', w₂, hpush', hrest⟩ := pushfront_of_room h hroom he
    cases hpush.symm.trans hpush'
    exact .inr ⟨rfl, d₁, w₁, e, bs', hroom, he, rfl, hrest⟩

/-! ## Popping and peeking -/

/-- The place of the element with this number. -/
def place (d : Deque) (i : ℕ) : Ptr := ⟨d.buffer, (d.head + i) % d.capacity * d.elemSize⟩

/-- The element with this number. -/
def nth (d : Deque) (bs : List UInt8) (i : ℕ) : List UInt8 :=
  slot bs d.elemSize ((d.head + i) % d.capacity)

/-- The bytes at the place of an element are the element. -/
theorem read_place (h : Holds d w bs) (i : ℕ) :
    Memory.read w (d.place i).block (d.place i).offset d.elemSize = .ok (d.nth bs i) :=
  h.read_slot (Nat.mod_lt _ h.cap_pos)

theorem place_zero (h : Holds d w bs) : d.place 0 = ⟨d.buffer, d.head * d.elemSize⟩ := by
  rw [place, Nat.add_zero, Nat.mod_eq_of_lt h.head_lt]

/-- The deque without its first element. -/
def dropFront (d : Deque) : Deque :=
  { d with size := d.size - 1, head := (d.head + 1) % d.capacity }

/-- The deque without its last element. -/
def dropBack (d : Deque) : Deque :=
  { d with size := d.size - 1, tail := (d.head + (d.size - 1)) % d.capacity }

/-- **`popleft`** of a non-empty deque returns the place of its first element. -/
theorem popleft_of_pos (h : Holds d w bs) (hpos : 0 < d.size) :
    popleft d = .ok (some (d.place 0), d.dropFront) := by
  rw [popleft, check_of h.cap_pos, ok_bind, if_neg hpos.ne', h.slotAt h.head_lt, ok_bind,
    h.indexAfter h.head_lt, ok_bind, sizeSub_of_le (show 1 ≤ d.size from hpos), ok_bind,
    place_zero h]
  rfl

/-- **`popback`** of a non-empty deque returns the place of its last element. -/
theorem popback_of_pos (h : Holds d w bs) (hpos : 0 < d.size) :
    popback d = .ok (some (d.place (d.size - 1)), d.dropBack) := by
  rw [popback, check_of h.cap_pos, ok_bind, if_neg hpos.ne', h.indexBefore h.tail_lt, ok_bind,
    h.slotAt (Nat.mod_lt _ h.cap_pos), ok_bind, sizeSub_of_le (show 1 ≤ d.size from hpos), ok_bind,
    h.before_tail hpos]
  rfl

theorem peekleft_of_pos (h : Holds d w bs) (hpos : 0 < d.size) :
    peekleft d = .ok (some (d.place 0)) := by
  rw [peekleft, if_neg hpos.ne', h.slotAt h.head_lt, ok_bind, place_zero h]
  rfl

theorem peekback_of_pos (h : Holds d w bs) (hpos : 0 < d.size) :
    peekback d = .ok (some (d.place (d.size - 1))) := by
  rw [peekback, check_of h.cap_pos, ok_bind, if_neg hpos.ne', h.indexBefore h.tail_lt, ok_bind,
    h.slotAt (Nat.mod_lt _ h.cap_pos), ok_bind, h.before_tail hpos]
  rfl

theorem popleft_of_empty (h : Holds d w bs) (hzero : d.size = 0) : popleft d = .ok (none, d) := by
  rw [popleft, check_of h.cap_pos, ok_bind, if_pos hzero]
  rfl

theorem popback_of_empty (h : Holds d w bs) (hzero : d.size = 0) : popback d = .ok (none, d) := by
  rw [popback, check_of h.cap_pos, ok_bind, if_pos hzero]
  rfl

theorem peekleft_of_empty (hzero : d.size = 0) : peekleft d = .ok none := by
  rw [peekleft, if_pos hzero]
  rfl

theorem peekback_of_empty (h : Holds d w bs) (hzero : d.size = 0) : peekback d = .ok none := by
  rw [peekback, check_of h.cap_pos, ok_bind, if_pos hzero]
  rfl

/-- Taking off the first element keeps the invariant. -/
theorem Holds.dropFront (h : Holds d w bs) (hpos : 0 < d.size) : Holds d.dropFront w bs where
  buffered := h.buffered
  elem_pos := h.elem_pos
  pow := h.pow
  size_le := (Nat.sub_le _ _).trans h.size_le
  head_lt := Nat.mod_lt _ h.cap_pos
  tail_eq := by
    change d.tail = ((d.head + 1) % d.capacity + (d.size - 1)) % d.capacity
    rw [Nat.mod_add_mod, h.tail_eq]
    congr 1
    omega

/-- Taking off the last element keeps the invariant. -/
theorem Holds.dropBack (h : Holds d w bs) : Holds d.dropBack w bs where
  buffered := h.buffered
  elem_pos := h.elem_pos
  pow := h.pow
  size_le := (Nat.sub_le _ _).trans h.size_le
  head_lt := h.head_lt
  tail_eq := rfl

/-- A non-empty deque: the first element and the others. -/
theorem elements_cons (h : Holds d w bs) (hpos : 0 < d.size) :
    d.elements bs = d.nth bs 0 :: d.dropFront.elements bs := by
  have hsize : d.size = d.size - 1 + 1 := by omega
  have hzero : (d.head + 0) % d.capacity = d.head := Nat.mod_eq_of_lt h.head_lt
  rw [elements, hsize, window_head h.head_lt, nth, hzero]
  rfl

/-- A non-empty deque: the last element and the others. -/
theorem elements_concat (hpos : 0 < d.size) :
    d.elements bs = d.dropBack.elements bs ++ [d.nth bs (d.size - 1)] := by
  have hsize : d.size = d.size - 1 + 1 := by omega
  rw [elements, hsize, window_last]
  rfl

/-! ## Iterating -/

/-- The places of the elements, in order. -/
def places (d : Deque) : List Ptr := (List.range d.size).map d.place

/-- **The iterator** visits the places of the elements in order. -/
theorem iterator_yields (h : Holds d w bs) :
    ∃ iter, getIterator d = .ok iter ∧ Iterator.Yields iteratorNext iter.state d.places := by
  have hmax := h.capacity_le
  have hhead := h.head_lt
  have hsize := h.size_le
  refine ⟨⟨⟨⟨d.buffer, 0⟩, d.elemSize, d.head, d.capacity - 1, d.size⟩, d.size⟩, ?_, ?_⟩
  · rw [getIterator, check_of h.mask_self, ok_bind, sizeSub_of_le h.cap_pos, ok_bind]
    rfl
  · set state : ℕ → IteratorState := fun i =>
      ⟨⟨d.buffer, 0⟩, d.elemSize, d.head + i, d.capacity - 1, d.size - i⟩ with hstate
    refine Iterator.yields_range (s := state) (f := d.place) (fun i hi => ?_) ?_
    · have hslot : (d.head + i) % d.capacity < d.capacity := Nat.mod_lt _ h.cap_pos
      have hend := h.slot_end hslot
      have hfits := h.buffered.fits
      rw [h.buffered.length] at hend
      have hindex : sizeAdd (d.head + i) 1 = .ok (d.head + (i + 1)) := sizeAdd_of_le (by omega)
      have hremaining : sizeSub (d.size - i) 1 = .ok (d.size - (i + 1)) := by
        rw [sizeSub_of_le (by omega), Nat.sub_sub]
      have hoffset : sizeMul ((d.head + i) % d.capacity) d.elemSize =
          .ok ((d.head + i) % d.capacity * d.elemSize) := sizeMul_of_le (by omega)
      rw [iteratorNext, if_neg (show ¬ d.size - i = 0 by omega)]
      simp only [hstate, hindex, hremaining, h.mask, hoffset, ok_bind, Nat.zero_add, pure_eq_ok]
      rfl
    · rw [iteratorNext, if_pos (Nat.sub_self _)]
      rfl

/-- **Popping from the front** until nothing is left visits the same places. -/
theorem popleft_yields (h : Holds d w bs) : Iterator.Yields popleft d d.places := by
  generalize hn : d.size = n
  induction n generalizing d with
  | zero =>
    rw [places, hn]
    exact .done (popleft_of_empty h hn)
  | succ n ih =>
    have hpos : 0 < d.size := by omega
    have hrest := ih (h.dropFront hpos) (show d.size - 1 = n by omega)
    have hplaces : d.places = d.place 0 :: d.dropFront.places := by
      rw [places, hn, List.range_succ_eq_map, List.map_cons, List.map_map, places,
        show d.dropFront.size = n from by change d.size - 1 = n; omega]
      congr 1
      refine List.map_congr_left fun i _ => ?_
      change Ptr.mk _ ((d.head + (i + 1)) % d.capacity * d.elemSize) =
        Ptr.mk _ (((d.head + 1) % d.capacity + i) % d.capacity * d.elemSize)
      rw [Nat.mod_add_mod, Nat.add_assoc, Nat.add_comm 1 i]
      rfl
    rw [hplaces]
    exact .item (popleft_of_pos h hpos) hrest

/-- The elements are what is stored at their places. -/
theorem read_places (h : Holds d w bs) :
    d.places.Forall₂ (fun p e => Memory.read w p.block p.offset d.elemSize = .ok e)
      (d.elements bs) := by
  rw [places, elements, window, List.forall₂_map_left_iff, List.forall₂_map_right_iff]
  exact List.forall₂_same.2 fun i _ => read_place h i

end K4c.Deque
