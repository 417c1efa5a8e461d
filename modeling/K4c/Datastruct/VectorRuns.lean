import Mathlib.Tactic
import K4c.Datastruct.Refusals
import K4c.Datastruct.VectorCalls
import K4c.Lib.Runs

/-!
# A vector is a list with a capacity

A client calls a vector in any order and reads what it is given.  Whatever the
allocator does with the requests, the vector behaves as a list beside the
capacity it has reached: `Spec` says what a call may answer and make of the two,
and `Vector.refines_growing_list` is the refinement.

* `Abstract` — the elements, the capacity, the buffer they lie in, and the
  largest capacity that was granted to a `reserve`.
* `Represents` — the vector holds the elements, in room for the reserved ones.
* `step_spec` — one call is a step of the abstract vector.
* `Laid` — where the bytes are, and that none of them lies outside the buffer.
-/

namespace K4c.Vector

open Exec Bytes Slots Blocks Runs

/-! ## The client -/

/-- A call, with the bytes that a pushed element is copied from. -/
inductive Call where
  | push (element : List UInt8)
  | pop
  | swapRemove (index : ℕ)
  | get (index : ℕ)
  | reserve (capacity : ℕ)
  deriving DecidableEq, Repr

/-- What the client learns from a call. -/
inductive Answer where
  | status (st : Status)
  /-- The bytes behind the returned pointer, absent for `NULL`. -/
  | item (bytes : Option (List UInt8))
  deriving DecidableEq, Repr

/-- A pushed element has the size the vector was created for, and a capacity is a
`size_t`. -/
def Call.Valid (elemSize : ℕ) : Call → Prop
  | .push e => e.length = elemSize
  | .swapRemove i => i ≤ sizeMax
  | .get i => i ≤ sizeMax
  | .reserve n => n ≤ sizeMax
  | _ => True

instance (elemSize : ℕ) : DecidablePred (Call.Valid elemSize) := by
  intro c
  cases c <;> unfold Call.Valid <;> exact inferInstance

/-- The bytes behind a pointer. -/
def readItem (v : Vector) (w : Memory) (p : Option Ptr) : Result (Option (List UInt8)) :=
  match p with
  | none => .ok none
  | some p => w.read p.block p.offset v.elemSize >>= fun bytes => .ok (some bytes)

/-- One call. -/
def step (s : Vector × Memory) (c : Call) : Result (Answer × (Vector × Memory)) :=
  match c with
  | .push e => do
    let ((st, v), w) ← push s.1 (.outside e) s.2
    return (.status st, (v, w))
  | .pop => do
    let (p, v) ← pop s.1
    let bytes ← readItem v s.2 p
    return (.item bytes, (v, s.2))
  | .swapRemove i => do
    let ((p, v), w) ← swapRemove s.1 i s.2
    let bytes ← readItem v w p
    return (.item bytes, (v, w))
  | .get i => do
    let p ← get s.1 i
    let bytes ← readItem s.1 s.2 p
    return (.item bytes, s)
  | .reserve n => do
    let ((st, v), w) ← reserve s.1 n s.2
    return (.status st, (v, w))

/-! ## The list -/

/-- A list, and the storage it is kept in. -/
structure Abstract where
  elements : List (List UInt8)
  capacity : ℕ
  /-- The block of the buffer. -/
  buffer : ℕ
  /-- No push has to grow the buffer up to this size. -/
  reserved : ℕ

/-- The list with the element at `i` replaced by the last one and the last one
dropped. -/
def swapRemoved (xs : List (List UInt8)) (i : ℕ) : List (List UInt8) :=
  match xs.getLast? with
  | some last => if i < xs.length then (xs.set i last).dropLast else xs
  | none => xs

/-- What a call may answer and make of the list and its storage, for elements of this size.
Only a full vector fails to push, and only a reservation of more than the capacity fails. -/
def Spec (elemSize : ℕ) (a : Abstract) : Call → Answer → Abstract → Prop
  | .push e, .status st, a' =>
    (st = .ok ∧ a'.elements = a.elements ++ [e] ∧ a'.reserved = a.reserved ∧
      a.capacity ≤ a'.capacity ∧ a'.elements.length ≤ a'.capacity ∧
      (a.elements.length < a.capacity → a'.capacity = a.capacity ∧ a'.buffer = a.buffer) ∧
      (a.elements.length < a.reserved → a'.capacity = a.capacity ∧ a'.buffer = a.buffer)) ∨
    (st.Fails (¬ CanGrow capacityGrow a.capacity elemSize) ∧ a.elements.length = a.capacity ∧
      a.reserved ≤ a.elements.length ∧ a' = a)
  | .pop, .item bytes, a' =>
    bytes = a.elements.getLast? ∧ a' = { a with elements := a.elements.dropLast }
  | .swapRemove i, .item bytes, a' =>
    bytes = (if i < a.elements.length then a.elements.getLast? else none) ∧
      a' = { a with elements := swapRemoved a.elements i }
  | .get i, .item bytes, a' => bytes = a.elements[i]? ∧ a' = a
  | .reserve n, .status st, a' =>
    (st = .ok ∧ a'.elements = a.elements ∧ a'.reserved = max a.reserved n ∧
      a'.capacity = max a.capacity n) ∨
    (st.Fails (sizeMax < n * elemSize) ∧ a.capacity < n ∧ a' = a)
  | _, _, _ => False

/-- The vector lies in the memory, with elements of this size, and is this list in
this storage. -/
structure Represents (elemSize : ℕ) (v : Vector) (w : Memory) (a : Abstract) : Prop where
  elemSize : v.elemSize = elemSize
  holds : ∃ bs, Holds v w bs ∧ v.elements bs = a.elements
  capacity : v.capacity = a.capacity
  buffer : v.buffer = a.buffer
  reserved : a.reserved ≤ a.capacity

variable {v v' : Vector} {w w' : Memory} {bs : List UInt8} {elemSize : ℕ} {a : Abstract}

@[simp] theorem length_elements : (v.elements bs).length = v.size := length_slots

theorem getElem?_elements (i : ℕ) :
    (v.elements bs)[i]? = if i < v.size then some (slot bs v.elemSize i) else none := getElem?_slots

theorem getLast?_elements (hpos : 0 < v.size) :
    (v.elements bs).getLast? = some (slot bs v.elemSize (v.size - 1)) := by
  rw [List.getLast?_eq_getElem?, length_elements, getElem?_elements, if_pos (by omega)]

theorem elements_eq_nil (hzero : v.size = 0) : v.elements bs = [] :=
  List.length_eq_zero_iff.1 (length_elements.trans hzero)

/-- Dropping the last element is a smaller size over the same bytes. -/
theorem dropLast_elements :
    (v.elements bs).dropLast = elements { v with size := v.size - 1 } bs := by
  apply List.ext_getElem?
  intro i
  rw [List.getElem?_dropLast, length_elements, getElem?_elements, getElem?_elements]
  dsimp only
  by_cases hi : i < v.size - 1
  · rw [if_pos hi, if_pos hi, if_pos (by omega)]
  · rw [if_neg hi, if_neg hi]

/-- The elements after the last one was moved over the one at `index`. -/
theorem swapRemoved_elements {bs' : List UInt8} {index : ℕ} (hlt : index < v.size)
    (hslots : ∀ i, slot bs' v.elemSize i =
      if i = index then slot bs v.elemSize (v.size - 1) else slot bs v.elemSize i) :
    swapRemoved (v.elements bs) index = elements { v with size := v.size - 1 } bs' := by
  rw [swapRemoved, getLast?_elements (by omega)]
  dsimp only
  rw [length_elements, if_pos hlt]
  apply List.ext_getElem?
  intro i
  rw [List.getElem?_dropLast, List.length_set, length_elements, getElem?_elements]
  dsimp only
  by_cases hi : i < v.size - 1
  · rw [if_pos hi, if_pos hi, hslots i, List.getElem?_set, length_elements, getElem?_elements,
      if_pos hlt]
    by_cases hsame : i = index
    · rw [if_pos hsame.symm, if_pos hsame]
    · rw [if_neg fun h => hsame h.symm, if_neg hsame, if_pos (by omega)]
  · rw [if_neg hi, if_neg hi]

theorem swapRemoved_of_le {xs : List (List UInt8)} {i : ℕ} (hle : xs.length ≤ i) :
    swapRemoved xs i = xs := by
  unfold swapRemoved
  split
  · rw [if_neg (by omega)]
  · rfl

theorem readItem_slot (h : Holds v w bs) {i : ℕ} (hi : i < v.capacity) :
    readItem v w (some ⟨v.buffer, i * v.elemSize⟩) = .ok (some (slot bs v.elemSize i)) := by
  rw [readItem, show w.read v.buffer (i * v.elemSize) v.elemSize = _ from deref_of_lt h hi, ok_bind]

namespace Represents

theorem length (h : Represents elemSize v w a) : a.elements.length = v.size := by
  obtain ⟨bs, -, helements⟩ := h.holds
  rw [← helements, length_elements]

/-- The same storage with another list in it. -/
theorem stored (h : Represents elemSize v w a) {size : ℕ} {bs' : List UInt8}
    (hholds : Holds { v with size } w' bs') :
    Represents elemSize { v with size } w'
      { a with elements := elements { v with size } bs' } :=
  ⟨h.elemSize, ⟨bs', hholds, rfl⟩, h.capacity, h.buffer, h.reserved⟩

/-- A call that failed. -/
theorem same (h : Represents elemSize v w a) (hcells : w'.cells = w.cells) :
    Represents elemSize v w' a := by
  obtain ⟨bs, hholds, helements⟩ := h.holds
  exact ⟨h.elemSize, ⟨bs, { hholds with buffered := hholds.buffered.same hcells }, helements⟩,
    h.capacity, h.buffer, h.reserved⟩

/-- **A push** below the reserved size fills a free slot; above it, it may fail or
move the buffer. -/
theorem push (h : Represents elemSize v w a) {e : List UInt8} (he : e.length = elemSize) :
    ∃ st v' w', Vector.push v (.outside e) w = .ok ((st, v'), w') ∧
      ∃ a', Spec elemSize a (.push e) (.status st) a' ∧ Represents elemSize v' w' a' := by
  have hlength := h.length
  obtain ⟨bs, hholds, helements⟩ := h.holds
  have hreads : (Arg.outside e).Reads w v.owned v.elemSize e := .outside (he.trans h.elemSize.symm)
  have hcapacity := h.capacity
  have hreserved := h.reserved
  by_cases hlt : v.size < v.capacity
  · obtain ⟨bs', w', hpush, hholds', helements', -⟩ :=
      push_of_lt hholds hlt (hreads.copies (by simp [owned]))
    refine ⟨.ok, _, w', hpush, { a with elements := a.elements ++ [e] }, ?_, ?_⟩
    · refine .inl ⟨rfl, rfl, rfl, le_rfl, ?_, fun _ => ⟨rfl, rfl⟩, fun _ => ⟨rfl, rfl⟩⟩
      rw [List.length_append, List.length_singleton]
      dsimp only
      omega
    · rw [← helements, ← helements']
      exact h.stored hholds'
  have hsize := hholds.size_le
  have hfull : a.elements.length = a.capacity := by omega
  obtain ⟨st, v', w', hpush, hres⟩ := push_spec hholds (.inl hreads)
  rcases hres with ⟨hst, rfl, hcells⟩ | ⟨rfl, bs', hholds', hsize', helements', hchanged⟩
  · have hfails := (push_explains hholds hpush).fails hst
    rw [h.elemSize, h.capacity] at hfails
    exact ⟨st, v', w', hpush, a, .inr ⟨hfails, hfull, by omega, rfl⟩, h.same hcells⟩
  · have hcap : a.capacity ≤ v'.capacity := by
      rw [← h.capacity]
      exact hchanged.capacity_le
    refine ⟨.ok, v', w', hpush, ⟨a.elements ++ [e], v'.capacity, v'.buffer, a.reserved⟩,
      .inl ⟨rfl, rfl, rfl, hcap, ?_, fun hless => absurd hless (by omega),
        fun hless => absurd hless (by omega)⟩, ?_⟩
    · have hsize_le := hholds'.size_le
      rw [List.length_append, List.length_singleton]
      dsimp only
      omega
    rw [← helements, ← helements']
    exact ⟨hchanged.elemSize.trans h.elemSize, ⟨bs', hholds', rfl⟩, rfl, rfl,
      h.reserved.trans hcap⟩

/-- **A reservation** that is granted raises the reserved size. -/
theorem reserve (h : Represents elemSize v w a) (n : ℕ) :
    ∃ st v' w', Vector.reserve v n w = .ok ((st, v'), w') ∧
      ∃ a', Spec elemSize a (.reserve n) (.status st) a' ∧ Represents elemSize v' w' a' := by
  obtain ⟨bs, hholds, helements⟩ := h.holds
  obtain ⟨st, v', w', hreserve, hres⟩ := reserve_spec hholds n
  have hcapacity := h.capacity
  rcases hres with ⟨hst, rfl, hcells⟩ | ⟨rfl, tail, hholds', hsize, hcap, hchanged⟩
  · have hfails := (reserve_explains hholds hreserve).fails hst
    rw [h.elemSize] at hfails
    refine ⟨st, v', w', hreserve, a, .inr ⟨hfails, ?_, rfl⟩, h.same hcells⟩
    by_contra hle
    cases hreserve.symm.trans (reserve_of_le (by omega))
    exact hst rfl
  · have hreserved := h.reserved
    refine ⟨.ok, v', w', hreserve, ⟨a.elements, v'.capacity, v'.buffer, max a.reserved n⟩,
      .inl ⟨rfl, rfl, rfl, ?_⟩, hchanged.elemSize.trans h.elemSize, ⟨_, hholds', ?_⟩, rfl, rfl, ?_⟩
    · dsimp only
      rw [hcap, hcapacity]
    · rw [elements_append hholds tail hsize hchanged.elemSize, helements]
    · dsimp only
      omega

/-- **A pop** returns the place of the last element. -/
theorem pop (h : Represents elemSize v w a) :
    ∃ p v', Vector.pop v = .ok (p, v') ∧ readItem v' w p = .ok a.elements.getLast? ∧
      Represents elemSize v' w { a with elements := a.elements.dropLast } := by
  obtain ⟨bs, hholds, helements⟩ := h.holds
  have hsize := hholds.size_le
  rw [← helements]
  by_cases hzero : v.size = 0
  · refine ⟨none, v, pop_of_empty hzero, ?_, h.elemSize, ⟨bs, hholds, ?_⟩, h.capacity, h.buffer,
      h.reserved⟩
    · rw [elements_eq_nil hzero]
      rfl
    · dsimp only
      rw [elements_eq_nil hzero]
      rfl
  · have hpos : 0 < v.size := by omega
    refine ⟨_, _, pop_of_pos hholds hpos, ?_, ?_⟩
    · rw [getLast?_elements hpos]
      exact readItem_slot hholds (by omega)
    · rw [dropLast_elements]
      exact h.stored (hholds.resized (by omega))

/-- **Looking up** an index. -/
theorem get (h : Represents elemSize v w a) (i : ℕ) :
    ∃ p, Vector.get v i = .ok p ∧ readItem v w p = .ok a.elements[i]? := by
  obtain ⟨bs, hholds, helements⟩ := h.holds
  rw [← helements, getElem?_elements]
  by_cases hi : i < v.size
  · rw [if_pos hi]
    exact ⟨_, get_of_lt hholds hi, readItem_slot hholds (hi.trans_le hholds.size_le)⟩
  · rw [if_neg hi]
    exact ⟨none, get_of_ge (by omega), rfl⟩

/-- **Removing by swapping** returns the place where the last element now is. -/
theorem swapRemove (h : Represents elemSize v w a) (i : ℕ) :
    ∃ p v' w', Vector.swapRemove v i w = .ok ((p, v'), w') ∧
      readItem v' w' p = .ok (if i < a.elements.length then a.elements.getLast? else none) ∧
      Represents elemSize v' w' { a with elements := swapRemoved a.elements i } := by
  obtain ⟨bs, hholds, helements⟩ := h.holds
  rw [← helements, length_elements]
  by_cases hlt : i < v.size
  · obtain ⟨w', bs', hremove, hholds', -, hslots⟩ := swapRemove_of_lt hholds hlt
    refine ⟨_, _, w', hremove, ?_, ?_⟩
    · rw [if_pos hlt, getLast?_elements (by omega),
        show slot bs v.elemSize (v.size - 1) = slot bs' v.elemSize i by rw [hslots, if_pos rfl]]
      exact readItem_slot hholds' (hlt.trans_le hholds.size_le)
    · rw [swapRemoved_elements hlt hslots]
      exact h.stored hholds'
  · rw [if_neg hlt, swapRemoved_of_le (by rw [length_elements]; omega)]
    exact ⟨none, v, w, swapRemove_of_ge (by omega), rfl, h.elemSize, ⟨bs, hholds, rfl⟩,
      h.capacity, h.buffer, h.reserved⟩

end Represents

/-- **One call** is a step of the abstract vector. -/
theorem step_spec (s : Vector × Memory) (a : Abstract) (c : Call)
    (hR : Represents elemSize s.1 s.2 a) (hc : c.Valid elemSize) :
    Sat (step s c) fun p =>
      ∃ a', Spec elemSize a c p.1 a' ∧ Represents elemSize p.2.1 p.2.2 a' := by
  obtain ⟨v, w⟩ := s
  cases c with
  | push e =>
    obtain ⟨st, v', w', hpush, hspec⟩ := hR.push hc
    exact ⟨(.status st, (v', w')), by rw [step, hpush]; rfl, hspec⟩
  | pop =>
    obtain ⟨p, v', hpop, hread, hR'⟩ := hR.pop
    refine ⟨(.item a.elements.getLast?, (v', w)), ?_, _, ⟨rfl, rfl⟩, hR'⟩
    simp only [step, hpop, ok_bind, hread, pure_eq_ok]
  | swapRemove i =>
    obtain ⟨p, v', w', hremove, hread, hR'⟩ := hR.swapRemove i
    refine ⟨(.item _, (v', w')), ?_, _, ⟨rfl, rfl⟩, hR'⟩
    simp only [step, hremove, ok_bind, hread, pure_eq_ok]
  | get i =>
    obtain ⟨p, hget, hread⟩ := hR.get i
    refine ⟨(.item a.elements[i]?, (v, w)), ?_, _, ⟨rfl, rfl⟩, hR⟩
    simp only [step, hget, ok_bind, hread, pure_eq_ok]
  | reserve n =>
    obtain ⟨st, v', w', hreserve, hspec⟩ := hR.reserve n
    exact ⟨(.status st, (v', w')), by rw [step, hreserve]; rfl, hspec⟩

/-- A call that finds no memory was refused a request. -/
theorem step_asked {s : Vector × Memory} {c : Call} {r : Answer × (Vector × Memory)}
    (hR : Represents elemSize s.1 s.2 a) (hstep : step s c = .ok r) :
    s.2.Asked r.2.2 (r.1 = .status .noMemory) := by
  obtain ⟨v, w⟩ := s
  obtain ⟨bs, hholds, -⟩ := hR.holds
  cases c with
  | push e =>
    obtain ⟨x, hpush, hout⟩ := bind_eq_ok.1 hstep
    cases hout
    exact (push_explains hholds hpush).asked.mono fun hst => Answer.status.inj hst
  | pop | get i =>
    obtain ⟨x, -, hout⟩ := bind_eq_ok.1 hstep
    obtain ⟨bytes, -, hout⟩ := bind_eq_ok.1 hout
    cases hout
    exact .refl w nofun
  | swapRemove i =>
    obtain ⟨x, hremove, hout⟩ := bind_eq_ok.1 hstep
    obtain ⟨bytes, -, hout⟩ := bind_eq_ok.1 hout
    cases hout
    exact (swapRemove_asked hremove).mono nofun
  | reserve n =>
    obtain ⟨x, hreserve, hout⟩ := bind_eq_ok.1 hstep
    cases hout
    exact (reserve_explains hholds hreserve).asked.mono fun hst => Answer.status.inj hst

/-! ## The refinement -/

/-- The elements are the consecutive slots of a buffer of exactly the capacity,
and the byte range of each of them lies inside it. -/
structure Laid (elemSize : ℕ) (v : Vector) (w : Memory) (xs : List (List UInt8)) : Prop where
  size : v.size = xs.length
  size_le : v.size ≤ v.capacity
  fits : v.capacity * elemSize ≤ sizeMax
  bytes : ∃ bs, w.cells v.buffer = some ⟨v.capacity * elemSize, .bytes bs⟩ ∧
    bs.length = v.capacity * elemSize ∧
    ∀ i < v.size, (i + 1) * elemSize ≤ bs.length ∧
      some (slice bs (i * elemSize) elemSize) = xs[i]?

theorem Represents.laid (h : Represents elemSize v w a) : Laid elemSize v w a.elements := by
  have hlength := h.length
  obtain ⟨bs, hholds, helements⟩ := h.holds
  obtain rfl := h.elemSize
  refine ⟨hlength.symm, hholds.size_le, hholds.buffered.fits, bs, hholds.buffered.cell,
    hholds.buffered.length, fun i hi => ⟨?_, ?_⟩⟩
  · rw [Nat.add_mul, Nat.one_mul]
    exact hholds.slot_end (hi.trans_le hholds.size_le)
  · rw [← helements, getElem?_elements, if_pos hi]
    rfl

/-- Every run of a vector that was created represents an abstract run. -/
theorem run_represents {elemSize capacity : ℕ} (helem : 0 < elemSize) (hcap : 0 < capacity)
    {allocator : Option (Allocator Memory)} (hbacked : Backed (Allocator.copy allocator))
    {w₀ w₁ : Memory} {v : Vector}
    (hcreate : createWithCapacity elemSize capacity allocator w₀ = .ok ((.ok, some v), w₁))
    (calls : List Call) (hvalid : ∀ c ∈ calls, c.Valid elemSize) :
    Sat (trace step (v, w₁) calls) fun p => ∃ a,
      Follows (Spec elemSize) ⟨[], capacity, v.buffer, 0⟩ calls p.1 a ∧
        Represents elemSize p.2.1 p.2.2 a ∧
        Justifies w₁ p.2.2 (· = .status .noMemory) p.1 := by
  obtain ⟨st, out, w', hcreate', hres⟩ := createWithCapacity_spec hbacked helem hcap w₀
  cases hcreate.symm.trans hcreate'
  rcases hres with ⟨hst, -⟩ | ⟨-, _, hout, -, ⟨bs, hholds⟩, hsize, helemSize, hcapacity, -⟩
  · exact absurd rfl hst
  cases hout
  have hR : Represents elemSize v w₁ ⟨[], capacity, v.buffer, 0⟩ :=
    ⟨helemSize, ⟨bs, hholds, elements_eq_nil hsize⟩, hcapacity, rfl, Nat.zero_le _⟩
  exact trace_justified (m := Prod.snd)
    (R := fun (s : Vector × Memory) a => Represents elemSize s.1 s.2 a)
    step_spec (fun _ _ _ _ hR _ hstep => step_asked hR hstep) calls _ _ hR
    (along_of_mem calls _ hvalid)

/-- **A vector is a list with a capacity.**  In every run of a vector that was
created, whatever the allocator grants, no assertion fails, no index computation
wraps and no access leaves the buffer; the answers are those of a list whose
capacity never decreases, whose failed calls change nothing, and which fills a
reserved capacity without growing; a call fails only for a buffer that it needs, when that
is no `size_t` or was refused; and in the state the run ends in the elements lie one after
the other in a buffer of exactly the capacity. -/
theorem refines_growing_list {elemSize capacity : ℕ} (helem : 0 < elemSize) (hcap : 0 < capacity)
    {allocator : Option (Allocator Memory)} (hbacked : Backed (Allocator.copy allocator))
    {w₀ w₁ : Memory} {v : Vector}
    (hcreate : createWithCapacity elemSize capacity allocator w₀ = .ok ((.ok, some v), w₁))
    (calls : List Call) (hvalid : ∀ c ∈ calls, c.Valid elemSize) :
    Sat (trace step (v, w₁) calls) fun p => ∃ a,
      Follows (Spec elemSize) ⟨[], capacity, v.buffer, 0⟩ calls p.1 a ∧
        Justifies w₁ p.2.2 (· = .status .noMemory) p.1 ∧ Laid elemSize p.2.1 p.2.2 a.elements ∧
        p.2.1.elemSize = elemSize ∧ p.2.1.capacity = a.capacity ∧ p.2.1.buffer = a.buffer := by
  apply (run_represents helem hcap hbacked hcreate calls hvalid).mono
  rintro ⟨answers, v', w'⟩ ⟨a, hfollows, hR, hjust⟩
  exact ⟨a, hfollows, hjust, hR.laid, hR.elemSize, hR.capacity, hR.buffer⟩

/-- A memory that refuses every third request. -/
def stingy : Memory :=
  .empty fun n => if n % 3 = 2 then none else some ⟨false, fun i => UInt8.ofNat i⟩

/-- A push that finds the buffer full is refused, the reservation after it is
granted, and the removal from the middle moves the last element. -/
def crowded : List Call :=
  [.push [1, 1], .push [2, 2], .reserve 4, .push [3, 3], .swapRemove 0, .get 0, .pop, .swapRemove 7,
    .reserve sizeMax]

theorem refines_growing_list_crowded : ∃ v w₁,
    createWithCapacity 2 1 none stingy = .ok ((.ok, some v), w₁) ∧
    (Sat (trace step (v, w₁) crowded) fun p => ∃ a,
      Follows (Spec 2) ⟨[], 1, v.buffer, 0⟩ crowded p.1 a ∧
        Justifies w₁ p.2.2 (· = .status .noMemory) p.1 ∧ Laid 2 p.2.1 p.2.2 a.elements ∧
        p.2.1.elemSize = 2 ∧ p.2.1.capacity = a.capacity ∧ p.2.1.buffer = a.buffer) ∧
    (trace step (v, w₁) crowded).map Prod.fst =
      .ok [.status .ok, .status .noMemory, .status .ok, .status .ok, .item (some [3, 3]),
        .item (some [3, 3]), .item (some [3, 3]), .item none, .status .overflow] := by
  have helem : 0 < 2 := by decide
  have hcap : 0 < 1 := by decide
  have hbacked : Backed (Allocator.copy none) := .default _
  exact ⟨_, _, rfl, refines_growing_list helem hcap hbacked
    (rfl : createWithCapacity 2 1 none stingy = _) crowded (by decide), by decide +kernel⟩

end K4c.Vector
