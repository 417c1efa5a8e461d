import Mathlib.Tactic
import K4c.Lib.Bisect
import K4c.Datastruct.Vector
import K4c.Lib.Slots

/-!
# What the vector calls do

A vector owns two blocks, its handle and a buffer of exactly `capacity` elements.
Each call is specified once, on every allocator of the block memory and for
every answer of it: a call that fails leaves the memory as it was, a call that
succeeds leaves a vector again, and exchanges the blocks it owns for its new
ones.

* `Vector.Holds` — the handle and the buffer are where the record says.
* `Vector.Changed` — what every call keeps.
* `create_spec`, `reserve_spec`, `push_spec`, `swapRemove_of_lt`, `destroy_spec`.
* `iterator_yields`, `bound_spec` — the iterator, and the two searches for whatever
  comparison.
-/

namespace K4c.Vector

open Exec Bytes Slots Blocks Bisect

/-! ## Vectors in memory -/

/-- The blocks of a vector. -/
def owned (v : Vector) : List ℕ := [v.self, v.buffer]

/-- The vector lies in the memory, with these bytes in its buffer. -/
structure Holds (v : Vector) (w : Memory) (bs : List UInt8) : Prop where
  buffered : Buffered v.allocator v.self v.buffer (v.capacity * v.elemSize) w bs
  elem_pos : 0 < v.elemSize
  cap_pos : 0 < v.capacity
  size_le : v.size ≤ v.capacity

/-- The elements of a vector whose buffer holds these bytes. -/
def elements (v : Vector) (bs : List UInt8) : List (List UInt8) := slots bs v.elemSize v.size

/-- What a call keeps of the record, and what it does to the blocks. -/
structure Changed (v v' : Vector) (w w' : Memory) : Prop where
  self : v'.self = v.self
  elemSize : v'.elemSize = v.elemSize
  allocator : v'.allocator = v.allocator
  capacity_le : v.capacity ≤ v'.capacity
  exchange : Exchange (Reclaims v.allocator) v.owned v'.owned w w'

variable {v v' v'' : Vector} {w w' w'' : Memory} {bs bs' : List UInt8}

theorem Changed.trans (h : Changed v v' w w') (h' : Changed v' v'' w' w'') :
    Changed v v'' w w'' where
  self := h'.self.trans h.self
  elemSize := h'.elemSize.trans h.elemSize
  allocator := h'.allocator.trans h.allocator
  capacity_le := h.capacity_le.trans h'.capacity_le
  exchange := h.exchange.trans (h.allocator ▸ h'.exchange)

namespace Holds

theorem live (h : Holds v w bs) : ∀ p ∈ v.owned, w.Live p := h.buffered.live

theorem capacity_le (h : Holds v w bs) : v.capacity ≤ sizeMax :=
  (Nat.le_mul_of_pos_right _ h.elem_pos).trans h.buffered.fits

/-- The end of a slot inside the buffer. -/
theorem slot_end (h : Holds v w bs) {i : ℕ} (hi : i < v.capacity) :
    i * v.elemSize + v.elemSize ≤ bs.length := by
  rw [h.buffered.length]
  exact slot_end_le hi

theorem elementAt (h : Holds v w bs) {i : ℕ} (hi : i < v.capacity) :
    v.elementAt i = .ok ⟨v.buffer, i * v.elemSize⟩ := by
  have hend := h.slot_end hi
  have hfits := h.buffered.fits
  rw [Vector.elementAt, sizeMul_of_le (by rw [h.buffered.length] at hend; omega), ok_bind,
    pure_eq_ok]

/-- The same vector with another number of elements. -/
theorem resized (h : Holds v w bs) {size : ℕ} (hle : size ≤ v.capacity) :
    Holds { v with size } w bs :=
  { h with size_le := hle }

/-- The vector after a write to its buffer. -/
theorem written (h : Holds v w bs) {bs' : List UInt8} (hlen : bs'.length = bs.length)
    (hcells : w'.cells =
      Function.update w.cells v.buffer (some ⟨v.capacity * v.elemSize, .bytes bs'⟩)) :
    Holds v w' bs' :=
  { h with buffered := h.buffered.written hlen hcells }

theorem changed_same (h : Holds v w bs) {size : ℕ} (hcells : w'.cells = w.cells) :
    Changed v { v with size } w w' :=
  ⟨rfl, rfl, rfl, le_rfl, .same h.live hcells⟩

theorem changed_written (h : Holds v w bs) {size : ℕ} {c : Cell Content}
    (hcells : w'.cells = Function.update w.cells v.buffer (some c)) :
    Changed v { v with size } w w' :=
  ⟨rfl, rfl, rfl, le_rfl, .write h.live (by simp [owned]) hcells⟩

end Holds

/-! ## Construction and destruction -/

/-- **Creating a vector** fails with everything it allocated released, or gives an
empty vector of the requested capacity in two new blocks. -/
theorem createWithCapacity_spec {elemSize capacity : ℕ} {allocator : Option (Allocator Memory)}
    (hbacked : Backed (Allocator.copy allocator)) (helem : 0 < elemSize) (hcap : 0 < capacity)
    (w : Memory) :
    ∃ st out w', createWithCapacity elemSize capacity allocator w = .ok ((st, out), w') ∧
      Creates (Reclaims (Allocator.copy allocator)) w owned
        (fun v w' => (∃ bs, Holds v w' bs) ∧ v.size = 0 ∧ v.elemSize = elemSize ∧
          v.capacity = capacity ∧ v.allocator = Allocator.copy allocator) st out w' := by
  rw [createWithCapacity, check_of helem, ok_bind, check_of hcap, ok_bind]
  cases hmul : sizeMulOverflow elemSize capacity with
  | none => exact ⟨.overflow, none, w, rfl, .inl ⟨by decide, rfl, .refl (by simp)⟩⟩
  | some allocSize =>
    obtain ⟨rfl, hfits⟩ := sizeMulOverflow_eq_some.1 hmul
    obtain ⟨st, out, w', hcreate, hres⟩ :=
      createOwner_spec (n := handleSize) (r := some (Allocator.copy allocator)) (o := fun p => [p])
        (f := fun copy w => Allocator.alloc Memory.libc (some copy) w (elemSize * capacity))
        hbacked rfl (bufferPayload_spec hbacked (elemSize * capacity)) w
    simp only [hcreate, ok_bind, pure_eq_ok]
    refine ⟨_, _, _, rfl, ?_⟩
    rcases hres with ⟨hst, rfl, hx⟩ | ⟨rfl, ⟨self, buffer⟩, rfl, hx, ⟨bs, hlen, hcell⟩, hapart⟩
    · exact .inl ⟨hst, rfl, hx⟩
    · have hne : self ≠ buffer := by simpa using hapart
      have hbuf : Buffered (Allocator.copy allocator) self buffer (capacity * elemSize) w' bs := by
        rw [Nat.mul_comm] at hlen hcell hfits
        exact ⟨hbacked, hx.held _ (by simp), hcell, hne, hlen, hfits⟩
      exact .inr ⟨rfl, _, rfl, hx, ⟨bs, hbuf, helem, hcap, Nat.zero_le _⟩, rfl, rfl, rfl, rfl⟩

/-- **Destroying a vector** releases its two blocks. -/
theorem destroy_spec (h : Holds v w bs) :
    ∃ w', destroy v w = .ok w' ∧ Exchange (Reclaims v.allocator) v.owned [] w w' :=
  h.buffered.destroyBuffered_spec

/-! ## Growing -/

/-- The vector in the buffer that a request for more was granted. -/
def regrown (v : Vector) (w : Memory) (g : Grant) (capacity : ℕ) : Vector :=
  { v with buffer := if g.moves then w.next else v.buffer, capacity }

/-- The size that is asked for holds the elements there are. -/
theorem Holds.more (h : Holds v w bs) {capacity : ℕ} (hmore : v.capacity < capacity) :
    bs.length ≤ capacity * v.elemSize ∧ capacity * v.elemSize ≠ 0 := by
  refine ⟨?_, (Nat.mul_pos (by omega) h.elem_pos).ne'⟩
  rw [h.buffered.length]
  exact Nat.mul_le_mul_right _ hmore.le

theorem reserve_refused (h : Holds v w bs) {capacity : ℕ} (hmore : v.capacity < capacity)
    (hfits : capacity * v.elemSize ≤ sizeMax) (hg : w.answers w.requests = none) :
    reserve v capacity w = .ok ((.noMemory, v), w.refuse) := by
  obtain ⟨-, hpos⟩ := h.more hmore
  rw [reserve, if_neg (by omega), sizeMulOverflow_eq_some.2 ⟨rfl, hfits⟩]
  simp only [Allocator.resize_refused h.buffered.backed h.buffered.cell hpos hg, ok_bind, ne_eq,
    reduceCtorEq, not_false_eq_true, if_true, pure_eq_ok]

/-- A reservation that is granted gives the vector a buffer that starts with the old one,
and ends the life of that one when it moves. -/
theorem reserve_granted (h : Holds v w bs) {capacity : ℕ} (hmore : v.capacity < capacity)
    (hfits : capacity * v.elemSize ≤ sizeMax) {g : Grant} (hg : w.answers w.requests = some g) :
    ∃ tail w', reserve v capacity w = .ok ((.ok, v.regrown w g capacity), w') ∧
      Holds (v.regrown w g capacity) w' (bs ++ tail) ∧ Changed v (v.regrown w g capacity) w w' ∧
      (g.moves = true → w'.cells v.buffer = none) := by
  have hb := h.buffered
  obtain ⟨hle, hpos⟩ := h.more hmore
  obtain ⟨tail, w', hresize, hlen, hcells⟩ :=
    Allocator.resize_granted hb.backed hb.cell hle hpos hg
  have hbuffer : (v.regrown w g capacity).buffer = if g.moves then w.next else v.buffer := rfl
  rw [← hbuffer] at hresize hcells
  have hq : (v.regrown w g capacity).buffer = v.buffer ∨
      (v.regrown w g capacity).buffer = w.next := by
    rw [hbuffer]
    split
    · exact .inr rfl
    · exact .inl rfl
  have hself : v.self ≠ (v.regrown w g capacity).buffer := by
    rcases hq with hq | hq
    · exact hq ▸ hb.apart
    · exact hq ▸ Mem.ne_next_of_live hb.handle
  refine ⟨tail, w', ?_, ⟨⟨hb.backed, ?_, ?_, hself, hlen, hfits⟩, h.elem_pos,
    h.cap_pos.trans hmore, h.size_le.trans hmore.le⟩, ⟨rfl, rfl, rfl, hmore.le, ?_⟩, fun hg => ?_⟩
  · rw [reserve, if_neg (by omega), sizeMulOverflow_eq_some.2 ⟨rfl, hfits⟩]
    simp only [hresize, ok_bind, ne_eq, not_true_eq_false, if_false, pure_eq_ok]
    rfl
  · have hlive := hb.handle
    change w'.Live v.self
    rwa [Mem.Live, hcells, Function.update_of_ne hself, Function.update_of_ne hb.apart]
  · rw [hcells, Function.update_self]
    rfl
  · have hx : Exchange (Reclaims v.allocator) [v.buffer, v.self]
        [(v.regrown w g capacity).buffer, v.self] w w' :=
      .rename (by simpa using hb.handle) (by simpa using hb.apart.symm) hq hcells
    exact hx.congr (by simp [owned, or_comm]) (by simp [owned, regrown, or_comm])
  · have hne : v.buffer ≠ (v.regrown w g capacity).buffer := by
      rw [hbuffer, if_pos hg]
      exact Mem.ne_next_of_live (Mem.live_of hb.cell)
    rw [hcells, Function.update_of_ne hne, Function.update_self]

/-- **Reserving** fails without an effect, or gives the vector a buffer that
starts with the old one. -/
theorem reserve_spec (h : Holds v w bs) (capacity : ℕ) :
    ∃ st v' w', reserve v capacity w = .ok ((st, v'), w') ∧
      ((st ≠ .ok ∧ v' = v ∧ w'.cells = w.cells) ∨
        (st = .ok ∧ ∃ tail, Holds v' w' (bs ++ tail) ∧ v'.size = v.size ∧
          v'.capacity = max v.capacity capacity ∧ Changed v v' w w')) := by
  by_cases hle : capacity ≤ v.capacity
  · refine ⟨.ok, v, w, by rw [reserve, if_pos hle]; rfl, .inr ⟨rfl, [], ?_, rfl, ?_, ?_⟩⟩
    · rwa [List.append_nil]
    · rw [max_eq_left hle]
    · exact h.changed_same rfl
  have hmore : v.capacity < capacity := by omega
  by_cases hfits : capacity * v.elemSize ≤ sizeMax
  · cases hg : w.answers w.requests with
    | none => exact ⟨_, _, _, reserve_refused h hmore hfits hg, .inl ⟨by decide, rfl, rfl⟩⟩
    | some g =>
      obtain ⟨tail, w', hreserve, h', hchanged, -⟩ := reserve_granted h hmore hfits hg
      exact ⟨_, _, w', hreserve, .inr ⟨rfl, tail, h', rfl, (max_eq_right hmore.le).symm, hchanged⟩⟩
  · refine ⟨.overflow, v, w, ?_, .inl ⟨by decide, rfl, rfl⟩⟩
    rw [reserve, if_neg hle, sizeMulOverflow_eq_none.2 (by omega)]
    rfl

/-- **Making room** in a full vector fails without an effect, when it cannot grow, or gives
it the larger buffer. -/
theorem makeRoom_full (h : Holds v w bs) (hfull : v.size = v.capacity) :
    (∃ st w', makeRoom v w = .ok ((st, v), w') ∧ st ≠ .ok ∧ w'.cells = w.cells ∧
      ∀ next g, ¬ Grown capacityGrow v.size v.capacity v.elemSize w next g) ∨
    (∃ next g tail w', Grown capacityGrow v.size v.capacity v.elemSize w next g ∧
      makeRoom v w = .ok ((.ok, v.regrown w g next), w') ∧ v.capacity < next ∧
      Holds (v.regrown w g next) w' (bs ++ tail) ∧ Changed v (v.regrown w g next) w w' ∧
      (g.moves = true → w'.cells v.buffer = none)) := by
  rw [makeRoom, if_pos hfull]
  by_cases hmax : v.size + 1 ≤ sizeMax
  · obtain ⟨next, hgrow, -, hnext, -⟩ := growByHalf_spec h.capacity_le hmax
    have hmore : v.capacity < next := by omega
    simp only [(sizeAddOverflow_eq_some (by decide)).2 ⟨rfl, hmax⟩, capacityGrow, hgrow, ok_bind,
      ne_eq, not_true_eq_false, if_false]
    have hsame : ∀ next' g, Grown capacityGrow v.size v.capacity v.elemSize w next' g →
        next' = next := by
      intro next' g hg
      have := hg.capacity
      rw [capacityGrow, hgrow] at this
      cases this
      rfl
    by_cases hfits : next * v.elemSize ≤ sizeMax
    · cases hg : w.answers w.requests with
      | none =>
        refine .inl ⟨_, _, reserve_refused h hmore hfits hg, by decide, rfl, fun _ g hgrown => ?_⟩
        rw [hgrown.granted] at hg
        cases hg
      | some g =>
        obtain ⟨tail, w', hreserve, h', hchanged, hmoves⟩ := reserve_granted h hmore hfits hg
        exact .inr ⟨next, g, tail, w', ⟨hfull, hmax, hgrow, hfits, hg⟩, hreserve, hmore, h',
          hchanged, hmoves⟩
    · refine .inl ⟨.overflow, w, ?_, by decide, rfl, fun next' g hgrown => ?_⟩
      · rw [reserve, if_neg (by omega), sizeMulOverflow_eq_none.2 (by omega)]
        rfl
      · have := hgrown.fits
        rw [hsame next' g hgrown] at this
        exact hfits this
  · rw [(sizeAddOverflow_eq_none (by decide)).2 (by omega)]
    exact .inl ⟨.overflow, w, rfl, by decide, rfl, fun _ _ hgrown => hmax hgrown.countable⟩

theorem makeRoom_of_lt (hlt : v.size < v.capacity) : makeRoom v w = .ok ((.ok, v), w) := by
  rw [makeRoom, if_neg hlt.ne]
  rfl

/-- **Making room** fails without an effect, or gives the vector a free slot and
keeps the bytes it has. -/
theorem makeRoom_spec (h : Holds v w bs) :
    ∃ st v' w', makeRoom v w = .ok ((st, v'), w') ∧
      ((st ≠ .ok ∧ v' = v ∧ w'.cells = w.cells) ∨
        (st = .ok ∧ v'.size < v'.capacity ∧ ∃ tail, Holds v' w' (bs ++ tail) ∧
          v'.size = v.size ∧ Changed v v' w w')) := by
  have hsize := h.size_le
  by_cases hfull : v.size = v.capacity
  · rcases makeRoom_full h hfull with ⟨st, w', hroom, hst, hcells, -⟩ |
      ⟨next, g, tail, w', -, hroom, hmore, h', hchanged, -⟩
    · exact ⟨st, v, w', hroom, .inl ⟨hst, rfl, hcells⟩⟩
    · exact ⟨_, _, w', hroom, .inr ⟨rfl, hfull.trans_lt hmore, tail, h', rfl, hchanged⟩⟩
  · refine ⟨.ok, v, w, makeRoom_of_lt (by omega), .inr ⟨rfl, by omega, [], ?_, rfl, ?_⟩⟩
    · rwa [List.append_nil]
    · exact h.changed_same rfl

/-! ## Elements -/

theorem getElem_elements {i : ℕ} (hi : i < (v.elements bs).length) :
    (v.elements bs)[i] = slot bs v.elemSize i := by
  rw [← Option.some_inj, ← List.getElem?_eq_getElem, elements, getElem?_slots, if_pos]
  rwa [elements, length_slots] at hi

/-- A buffer that starts with the old one has the same elements. -/
theorem elements_append (h : Holds v w bs) (tail : List UInt8) (hsize : v'.size = v.size)
    (helem : v'.elemSize = v.elemSize) : v'.elements (bs ++ tail) = v.elements bs := by
  rw [elements, elements, hsize, helem]
  exact slots_congr fun i hi => slot_append (h.slot_end (hi.trans_le h.size_le)) tail

/-- The second half of `push`: an element is copied to a free slot. -/
theorem store_spec (h : Holds v w bs) (hlt : v.size < v.capacity) {element : Arg} {e : List UInt8}
    (he : element.Copies w ⟨v.buffer, v.size * v.elemSize⟩ v.elemSize e) :
    ∃ bs' w', (do
        let dst ← elementAt v v.size
        let w ← w.memcpy dst element v.elemSize
        let size ← sizeAdd v.size 1
        return ((Status.ok, { v with size }), w)) =
        .ok ((.ok, { v with size := v.size + 1 }), w') ∧
      Holds { v with size := v.size + 1 } w' bs' ∧
      elements { v with size := v.size + 1 } bs' = v.elements bs ++ [e] ∧
      Changed v { v with size := v.size + 1 } w w' ∧ w.Quiet w' := by
  have hend := h.slot_end hlt
  have hcap := h.capacity_le
  obtain ⟨w', hcopy, hcells⟩ := Memory.memcpy_eq (d := ⟨v.buffer, v.size * v.elemSize⟩)
    h.buffered.cell he.1 (by rw [he.length]; exact hend) he.2
  have hlen : (splice bs (v.size * v.elemSize) e).length = bs.length :=
    length_splice (by rw [he.length]; exact hend)
  refine ⟨splice bs (v.size * v.elemSize) e, w', ?_, (h.written hlen hcells).resized hlt, ?_,
    h.changed_written hcells, (Memory.memcpy_rewritten hcopy).toQuiet⟩
  · rw [h.elementAt hlt, ok_bind, hcopy, ok_bind, sizeAdd_of_le (by omega), ok_bind, pure_eq_ok]
  · rw [elements, elements, slots_succ, slot_splice he.length hend, if_pos rfl]
    congr 1
    refine slots_congr fun i hi => ?_
    rw [slot_splice he.length hend, if_neg hi.ne]

/-- A push that finds no room. -/
theorem push_of_refused {st : Status} (hroom : makeRoom v w = .ok ((st, v'), w')) (hst : st ≠ .ok)
    {element : Arg} (hne : element ≠ .null) : push v element w = .ok ((st, v'), w') := by
  rw [push, check_of hne, ok_bind, hroom, ok_bind]
  simp only [ne_eq, hst, not_false_eq_true, if_true, pure_eq_ok]

/-- A push that finds room copies what the argument reads as by then. -/
theorem push_of_room (h : Holds v w bs) (hroom : makeRoom v w = .ok ((.ok, v'), w'))
    {element : Arg} {e : List UInt8}
    (he : element.Copies w' ⟨v'.buffer, v'.size * v'.elemSize⟩ v'.elemSize e) :
    ∃ bs' w'', push v element w = .ok ((.ok, { v' with size := v'.size + 1 }), w'') ∧
      Holds { v' with size := v'.size + 1 } w'' bs' ∧ v'.size = v.size ∧
      elements { v' with size := v'.size + 1 } bs' = v.elements bs ++ [e] ∧
      Changed v { v' with size := v'.size + 1 } w w'' ∧ w'.Quiet w'' := by
  obtain ⟨st, v₁, w₁, hroom', hres⟩ := makeRoom_spec h
  cases hroom.symm.trans hroom'
  rcases hres with ⟨hst, -⟩ | ⟨-, hlt, tail, h₁, hsize, hchanged⟩
  · exact absurd rfl hst
  obtain ⟨bs', w₂, hstore, h₂, helements, hchanged₂, hquiet⟩ := store_spec h₁ hlt he
  refine ⟨bs', w₂, ?_, h₂, hsize, ?_, hchanged.trans hchanged₂, hquiet⟩
  · rw [push, check_of he.ne_null, ok_bind, hroom, ok_bind]
    exact hstore
  · rw [helements, elements_append h tail hsize hchanged.elemSize]

/-- A push into a free slot asks the allocator for nothing. -/
theorem push_of_lt (h : Holds v w bs) (hlt : v.size < v.capacity) {element : Arg} {e : List UInt8}
    (he : element.Copies w ⟨v.buffer, v.size * v.elemSize⟩ v.elemSize e) :
    ∃ bs' w', push v element w = .ok ((.ok, { v with size := v.size + 1 }), w') ∧
      Holds { v with size := v.size + 1 } w' bs' ∧
      elements { v with size := v.size + 1 } bs' = v.elements bs ++ [e] ∧
      Changed v { v with size := v.size + 1 } w w' ∧ w.Quiet w' := by
  obtain ⟨bs', w', hpush, h', -, hrest⟩ := push_of_room h (makeRoom_of_lt hlt) he
  exact ⟨bs', w', hpush, h', hrest⟩

/-- A push that succeeded: room was made, and then what the argument read as was copied. -/
def Copied (v : Vector) (w : Memory) (bs : List UInt8) (element : Arg) (v' : Vector)
    (w' : Memory) : Prop :=
  ∃ v₁ w₁ e bs', makeRoom v w = .ok ((.ok, v₁), w₁) ∧
    element.Copies w₁ ⟨v₁.buffer, v₁.size * v₁.elemSize⟩ v₁.elemSize e ∧
    v' = { v₁ with size := v₁.size + 1 } ∧ Holds v' w' bs' ∧
    v'.elements bs' = v.elements bs ++ [e] ∧ Changed v v' w w' ∧ w₁.Quiet w'

/-- **A push that returned**, whatever the argument was. -/
theorem push_returned (h : Holds v w bs) {element : Arg} {st : Status}
    (hpush : push v element w = .ok ((st, v'), w')) :
    (st ≠ .ok ∧ v' = v ∧ w'.cells = w.cells) ∨ (st = .ok ∧ Copied v w bs element v' w') := by
  obtain ⟨_, hcheck, hrest⟩ := bind_eq_ok.1 hpush
  obtain ⟨st₁, v₁, w₁, hroom, hres⟩ := makeRoom_spec h
  rcases hres with ⟨hst, rfl, hcells⟩ | ⟨rfl, hlt, tail, h₁, -⟩
  · cases hpush.symm.trans (push_of_refused hroom hst (check_eq_ok.1 hcheck))
    exact .inl ⟨hst, rfl, hcells⟩
  · rw [hroom, ok_bind] at hrest
    dsimp only at hrest
    rw [if_neg (not_not.2 rfl), h₁.elementAt hlt, ok_bind] at hrest
    obtain ⟨_, hcopy, -⟩ := bind_eq_ok.1 hrest
    obtain ⟨e, he⟩ := Arg.copies_of_memcpy hcopy
    obtain ⟨bs', w₂, hpush', h', -, hrest⟩ := push_of_room h hroom he
    cases hpush.symm.trans hpush'
    exact .inr ⟨rfl, v₁, w₁, e, bs', hroom, he, rfl, h', hrest⟩

/-- The element can be pushed: it lies outside of the blocks of the vector, or there is
a free slot that it does not overlap in part. -/
def Takes (v : Vector) (w : Memory) (element : Arg) (e : List UInt8) : Prop :=
  element.Reads w v.owned v.elemSize e ∨
    v.size < v.capacity ∧ element.Copies w ⟨v.buffer, v.size * v.elemSize⟩ v.elemSize e

theorem Takes.ne_null {element : Arg} {e : List UInt8} (h : v.Takes w element e) :
    element ≠ .null := by
  rcases h with h | ⟨-, h⟩
  · exact h.ne_null
  · exact h.ne_null

/-- **A push** fails without an effect, or adds the element that was passed. -/
theorem push_spec (h : Holds v w bs) {element : Arg} {e : List UInt8}
    (he : v.Takes w element e) :
    ∃ st v' w', push v element w = .ok ((st, v'), w') ∧
      ((st ≠ .ok ∧ v' = v ∧ w'.cells = w.cells) ∨
        (st = .ok ∧ ∃ bs', Holds v' w' bs' ∧ v'.size = v.size + 1 ∧
          v'.elements bs' = v.elements bs ++ [e] ∧ Changed v v' w w')) := by
  rcases he with he | ⟨hlt, he⟩
  swap
  · obtain ⟨bs', w', hpush, h', helements, hchanged, -⟩ := push_of_lt h hlt he
    exact ⟨.ok, _, w', hpush, .inr ⟨rfl, bs', h', rfl, helements, hchanged⟩⟩
  obtain ⟨st, v₁, w₁, hroom, hres⟩ := makeRoom_spec h
  rcases hres with ⟨hst, rfl, hcells⟩ | ⟨rfl, -, tail, -, -, hchanged⟩
  · exact ⟨st, v₁, w₁, push_of_refused hroom hst he.ne_null, .inl ⟨hst, rfl, hcells⟩⟩
  have he₁ : element.Reads w₁ v₁.owned v₁.elemSize e :=
    hchanged.elemSize ▸ he.exchange hchanged.exchange
  obtain ⟨bs', w₂, hpush, h₂, hsize, helements, hchanged₂, -⟩ :=
    push_of_room h hroom (he₁.copies (by simp [owned]))
  exact ⟨.ok, _, w₂, hpush, .inr ⟨rfl, bs', h₂, congrArg (· + 1) hsize, helements, hchanged₂⟩⟩

/-- **A pop** of a non-empty vector returns the place of the last element. -/
theorem pop_of_pos (h : Holds v w bs) (hpos : 0 < v.size) :
    pop v = .ok (some ⟨v.buffer, (v.size - 1) * v.elemSize⟩, { v with size := v.size - 1 }) := by
  have := h.size_le
  rw [pop, if_neg hpos.ne', sizeSub_of_le (show 1 ≤ v.size from hpos), ok_bind,
    h.elementAt (by omega)]
  rfl

theorem pop_of_empty (hzero : v.size = 0) : pop v = .ok (none, v) := by
  rw [pop, if_pos hzero]
  rfl

theorem get_of_lt (h : Holds v w bs) {i : ℕ} (hi : i < v.size) :
    get v i = .ok (some ⟨v.buffer, i * v.elemSize⟩) := by
  rw [get, if_neg (by omega), h.elementAt (hi.trans_le h.size_le)]
  rfl

theorem get_of_ge {i : ℕ} (hi : v.size ≤ i) : get v i = .ok none := by
  rw [get, if_pos hi]
  rfl

/-- The bytes of a stored element. -/
theorem deref_of_lt (h : Holds v w bs) {i : ℕ} (hi : i < v.capacity) :
    deref v w (some ⟨v.buffer, i * v.elemSize⟩) = .ok (slot bs v.elemSize i) :=
  Memory.read_eq h.buffered.cell (h.slot_end hi)

theorem swapRemove_of_ge {index : ℕ} (hge : v.size ≤ index) :
    swapRemove v index w = .ok ((none, v), w) := by
  rw [swapRemove, if_pos hge]
  rfl

/-- **Removing by swapping** moves the last element into the place that is freed,
and returns that place. -/
theorem swapRemove_of_lt (h : Holds v w bs) {index : ℕ} (hlt : index < v.size) :
    ∃ w' bs', swapRemove v index w =
        .ok ((some ⟨v.buffer, index * v.elemSize⟩, { v with size := v.size - 1 }), w') ∧
      Holds { v with size := v.size - 1 } w' bs' ∧
      Changed v { v with size := v.size - 1 } w w' ∧
      ∀ i, slot bs' v.elemSize i =
        if i = index then slot bs v.elemSize (v.size - 1) else slot bs v.elemSize i := by
  have hsize := h.size_le
  rw [swapRemove, if_neg (by omega), h.elementAt (by omega), ok_bind,
    sizeSub_of_le (show 1 ≤ v.size by omega), ok_bind]
  by_cases hlast : index = v.size - 1
  · refine ⟨w, bs, ?_, h.resized (by omega), h.changed_same rfl, fun i => ?_⟩
    · rw [if_neg (by simpa using hlast), pure_eq_ok]
    · split
      · rename_i hi
        rw [hi, hlast]
      · rfl
  · have hend := h.slot_end (show index < v.capacity by omega)
    have hend' := h.slot_end (show v.size - 1 < v.capacity by omega)
    have hread : Memory.source w (.inside ⟨v.buffer, (v.size - 1) * v.elemSize⟩) v.elemSize =
        .ok (slot bs v.elemSize (v.size - 1)) := Memory.read_eq h.buffered.cell hend'
    have hslot : (slot bs v.elemSize (v.size - 1)).length = v.elemSize := length_slot hend'
    have hclash : ¬ Memory.Clash ⟨v.buffer, index * v.elemSize⟩
        (.inside ⟨v.buffer, (v.size - 1) * v.elemSize⟩) v.elemSize := by
      rintro ⟨-, -, h₁, h₂⟩
      rcases slots_disjoint (n := v.elemSize) hlast with h₃ | h₃ <;> dsimp only at * <;> omega
    obtain ⟨w', hcopy, hcells⟩ := Memory.memcpy_eq (d := ⟨v.buffer, index * v.elemSize⟩)
      h.buffered.cell hread (by rw [hslot]; exact hend) hclash
    refine ⟨w', _, ?_, (h.written (length_splice (by rw [hslot]; exact hend)) hcells).resized
      (by omega), h.changed_written hcells, fun i => slot_splice hslot hend i⟩
    rw [if_pos hlast, h.elementAt (show v.size - 1 < v.capacity by omega), ok_bind, hcopy, ok_bind,
      pure_eq_ok]

/-! ## Reading -/

/-- The places of the elements, in order. -/
def places (v : Vector) : List Ptr :=
  (List.range v.size).map fun i => ⟨v.buffer, i * v.elemSize⟩

/-- **The iterator** visits the places of the elements in order. -/
theorem iterator_yields (h : Holds v w bs) :
    Iterator.Yields iteratorNext (getIterator v).state v.places := by
  set state : ℕ → IteratorState := fun i =>
    ⟨⟨v.buffer, i * v.elemSize⟩, v.elemSize, v.size - i⟩ with hstate
  have hstart : (getIterator v).state = state 0 := by
    simp only [hstate, Nat.zero_mul, Nat.sub_zero]
    rfl
  rw [hstart]
  refine Iterator.yields_range (s := state) (fun i hi => ?_) ?_
  · have hend := h.slot_end (hi.trans_le h.size_le)
    have hfits := h.buffered.fits
    rw [h.buffered.length] at hend
    have hoffset : sizeAdd (i * v.elemSize) v.elemSize = .ok ((i + 1) * v.elemSize) := by
      rw [sizeAdd_of_le (by omega), Nat.add_mul, Nat.one_mul]
    rw [iteratorNext, if_neg (show ¬ v.size - i = 0 by omega)]
    simp only [hstate, hoffset, ok_bind, pure_eq_ok, Nat.sub_sub]
  · rw [iteratorNext, if_pos (Nat.sub_self _)]
    rfl

/-- **One round** of either search looks at the item in the middle of what is left,
and goes on with one half of it. -/
theorem boundRound_spec (h : Holds v w bs) (goRight : List UInt8 → Bool) {first count : ℕ}
    (hle : first + count ≤ v.size) :
    boundRound v w goRight (first, count) = .ok
      (if count = 0 then .inr first
      else if goRight (slot bs v.elemSize (first + count / 2)) = true then
        .inl (first + count / 2 + 1, count - (count / 2 + 1))
      else .inl (first, count / 2)) := by
  have hsize := h.size_le
  have hcap := h.capacity_le
  rw [boundRound]
  by_cases hzero : count = 0
  · rw [if_pos hzero, if_pos hzero]
    rfl
  have hmid : first + count / 2 < v.size := by omega
  rw [if_neg hzero, if_neg hzero, sizeAdd_of_le (by omega), ok_bind, get_of_lt h hmid, ok_bind,
    deref_of_lt h (by omega), ok_bind]
  by_cases hright : goRight (slot bs v.elemSize (first + count / 2)) = true
  · rw [if_pos hright, if_pos hright, sizeAdd_of_le (by omega), ok_bind, sizeSub_of_le (by omega),
      ok_bind]
    rfl
  · rw [if_neg hright, if_neg hright]
    rfl

/-- **Either bound** is an index of the vector or its size, for whatever comparison;
where the comparison splits the elements, it is the place of the split. -/
theorem bound_exact (h : Holds v w bs) (goRight : List UInt8 → Bool) :
    Sat (loop (boundRound v w goRight) (v.size + 1) (0, v.size)) fun index =>
      index ≤ v.size ∧ ∀ k, Splits goRight (v.elements bs) k → index = k := by
  set I : ℕ × ℕ → Prop := fun s => s.1 + s.2 ≤ v.size ∧
    ∀ k, Splits goRight (v.elements bs) k → Bracket k s.1 s.2 with hI
  have hround : ∀ s, I s → Sat (boundRound v w goRight s) (Round I (fun s => s.2)
      (fun index => index ≤ v.size ∧ ∀ k, Splits goRight (v.elements bs) k → index = k) s) := by
    rintro ⟨first, count⟩ ⟨hle, hbracket⟩
    dsimp only at hle hbracket
    refine ⟨_, boundRound_spec h goRight hle, ?_⟩
    by_cases hzero : count = 0
    · subst hzero
      exact ⟨hle, fun k hk => (hbracket k hk).eq⟩
    rw [if_neg hzero]
    have hmid : first + count / 2 < v.size := by omega
    -- the item in the middle tells on which side of it the split is
    have hside : ∀ k, Splits goRight (v.elements bs) k →
        (goRight (slot bs v.elemSize (first + count / 2)) = true ↔ first + count / 2 < k) := by
      intro k hk
      have := hk.2 (first + count / 2) (by rw [elements, length_slots]; exact hmid)
      rwa [getElem_elements] at this
    by_cases hright : goRight (slot bs v.elemSize (first + count / 2)) = true
    · rw [if_pos hright]
      refine ⟨⟨by dsimp only; omega, fun k hk => ?_⟩, by dsimp only; omega⟩
      exact (hbracket k hk).right ((hside k hk).1 hright)
    · rw [if_neg hright]
      refine ⟨⟨by dsimp only; omega, fun k hk => ?_⟩, by dsimp only; omega⟩
      exact (hbracket k hk).left fun hlt => hright ((hside k hk).2 hlt)
  refine loop_ok hround (v.size + 1) (0, v.size) ⟨by dsimp only; omega, fun k hk => ?_⟩
    (Nat.lt_succ_self _)
  have hlen := hk.1
  rw [elements, length_slots] at hlen
  exact ⟨Nat.zero_le k, by dsimp only; omega⟩

theorem bound_spec (h : Holds v w bs) (goRight : List UInt8 → Bool) :
    Sat (loop (boundRound v w goRight) (v.size + 1) (0, v.size)) fun index => index ≤ v.size :=
  (bound_exact h goRight).mono fun _ hindex => hindex.1

theorem binarySearch_spec (h : Holds v w bs) (key : List UInt8)
    (cmp : List UInt8 → List UInt8 → ℤ) :
    Sat (binarySearch v w key cmp) fun index => index ≤ v.size := by
  obtain ⟨index, hlower, hle⟩ : Sat (lowerBound v w key cmp) fun index => index ≤ v.size :=
    bound_spec h fun item => cmp item key < 0
  rw [binarySearch, hlower, ok_bind]
  by_cases hlt : index < v.size
  · rw [if_pos hlt, get_of_lt h hlt, ok_bind, deref_of_lt h (hlt.trans_le h.size_le), ok_bind]
    split
    · exact Sat.ok hle
    · exact Sat.ok le_rfl
  · rw [if_neg hlt]
    exact Sat.ok le_rfl

end K4c.Vector
