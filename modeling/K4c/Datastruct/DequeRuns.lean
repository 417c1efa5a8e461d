import Mathlib.Tactic
import K4c.Datastruct.DequeCalls
import K4c.Datastruct.Refusals
import K4c.Lib.Runs

/-!
# A deque is a list

A client calls a deque in any order and reads what it is given.  Whatever the
allocator does with the requests, the deque behaves as the list of its elements
beside the capacity it has reached: `Spec` says what a call may answer and make
of the two, and `Deque.refines_list` is the refinement.

* `step` — one call, with the bytes behind a returned pointer read at once.
* `Represents` — the deque holds the list; it keeps the ring invariant.
* `step_spec` — one call is a step of the list; `step_asked` — what it asks for.
-/

namespace K4c.Deque

open Exec Bytes Slots Blocks Runs

/-! ## The client -/

/-- A call, with the bytes that a pushed element is copied from. -/
inductive Call where
  | push (element : List UInt8)
  | pushfront (element : List UInt8)
  | popleft
  | popback
  | peekleft
  | peekback
  | size
  | iterate
  deriving DecidableEq, Repr

/-- What the client learns from a call. -/
inductive Answer where
  | status (st : Status)
  /-- The bytes behind the returned pointer, absent for `NULL`. -/
  | item (bytes : Option (List UInt8))
  | size (n : ℕ)
  | items (xs : List (List UInt8))
  deriving DecidableEq, Repr

/-- A pushed element has the size the deque was created for. -/
def Call.Valid (elemSize : ℕ) : Call → Prop
  | .push e => e.length = elemSize
  | .pushfront e => e.length = elemSize
  | _ => True

instance (elemSize : ℕ) : DecidablePred (Call.Valid elemSize) := by
  intro c
  cases c <;> unfold Call.Valid <;> exact inferInstance

/-- The bytes behind a pointer. -/
def readItem (d : Deque) (w : Memory) (p : Option Ptr) : Result (Option (List UInt8)) :=
  match p with
  | none => .ok none
  | some p => w.read p.block p.offset d.elemSize >>= fun bytes => .ok (some bytes)

/-- All elements, by the iterator. -/
def items (d : Deque) (w : Memory) : Result (List (List UInt8)) := do
  let iter ← getIterator d
  Iterator.forEach iteratorNext w d.elemSize (d.size + 1) iter

/-- All elements, by `popleft` until it returns `NULL`. -/
def drain (d : Deque) (w : Memory) : Result (List (List UInt8)) :=
  Iterator.forEach popleft w d.elemSize (d.size + 1) (Iterator.fromState d)

/-- One call. -/
def step (s : Deque × Memory) (c : Call) : Result (Answer × (Deque × Memory)) :=
  match c with
  | .push e => do
    let ((st, d), w) ← push s.1 (.outside e) s.2
    return (.status st, (d, w))
  | .pushfront e => do
    let ((st, d), w) ← pushfront s.1 (.outside e) s.2
    return (.status st, (d, w))
  | .popleft => do
    let (p, d) ← popleft s.1
    let bytes ← readItem d s.2 p
    return (.item bytes, (d, s.2))
  | .popback => do
    let (p, d) ← popback s.1
    let bytes ← readItem d s.2 p
    return (.item bytes, (d, s.2))
  | .peekleft => do
    let p ← peekleft s.1
    let bytes ← readItem s.1 s.2 p
    return (.item bytes, s)
  | .peekback => do
    let p ← peekback s.1
    let bytes ← readItem s.1 s.2 p
    return (.item bytes, s)
  | .size => return (.size s.1.size, s)
  | .iterate => do
    let xs ← items s.1 s.2
    return (.items xs, s)

/-! ## The list -/

/-- A list, and how many elements there is room for. -/
structure Abstract where
  elements : List (List UInt8)
  capacity : ℕ

/-- What either push may answer, for elements of this size, and make of the list that `xs`
is to become.  Only a full deque asks for memory, and fails without an effect. -/
def Grows (elemSize : ℕ) (a : Abstract) (xs : List (List UInt8)) (st : Status) (a' : Abstract) :
    Prop :=
  (st = .ok ∧ a'.elements = xs ∧
    (a.elements.length < a.capacity → a'.capacity = a.capacity) ∧
    (a.elements.length = a.capacity → a.capacity < a'.capacity)) ∨
  (st.Fails (¬ CanGrow capacityGrow a.capacity elemSize) ∧ a.elements.length = a.capacity ∧ a' = a)

/-- What a call may answer and make of the list. -/
def Spec (elemSize : ℕ) (a : Abstract) : Call → Answer → Abstract → Prop
  | .push e, .status st, a' => Grows elemSize a (a.elements ++ [e]) st a'
  | .pushfront e, .status st, a' => Grows elemSize a (e :: a.elements) st a'
  | .popleft, .item bytes, a' =>
    bytes = a.elements.head? ∧ a' = { a with elements := a.elements.tail }
  | .popback, .item bytes, a' =>
    bytes = a.elements.getLast? ∧ a' = { a with elements := a.elements.dropLast }
  | .peekleft, .item bytes, a' => bytes = a.elements.head? ∧ a' = a
  | .peekback, .item bytes, a' => bytes = a.elements.getLast? ∧ a' = a
  | .size, .size n, a' => n = a.elements.length ∧ a' = a
  | .iterate, .items ys, a' => ys = a.elements ∧ a' = a
  | _, _, _ => False

/-- The deque lies in the memory, with elements of this size and this capacity, and they
are the list. -/
def Represents (elemSize : ℕ) (s : Deque × Memory) (a : Abstract) : Prop :=
  s.1.elemSize = elemSize ∧ s.1.capacity = a.capacity ∧
    ∃ bs, Holds s.1 s.2 bs ∧ s.1.elements bs = a.elements

variable {d d' : Deque} {w w' : Memory} {bs : List UInt8} {elemSize : ℕ} {a : Abstract}

/-- Reading the place of an element. -/
theorem readItem_place (h : Holds d w bs) (i : ℕ) :
    readItem d w (some (d.place i)) = .ok (some (d.nth bs i)) := by
  rw [readItem, read_place h i]
  rfl

/-- **`popleft`** returns the place of the first element, and `NULL` when there is
none. -/
theorem popleft_spec (h : Holds d w bs) :
    ∃ p d', popleft d = .ok (p, d') ∧ readItem d' w p = .ok (d.elements bs).head? ∧
      Represents d.elemSize (d', w) ⟨(d.elements bs).tail, d.capacity⟩ := by
  by_cases hzero : d.size = 0
  · rw [elements_eq_nil hzero]
    exact ⟨none, d, popleft_of_empty h hzero, rfl, rfl, rfl, bs, h, elements_eq_nil hzero⟩
  · have hpos : 0 < d.size := by omega
    rw [elements_cons h hpos]
    exact ⟨_, _, popleft_of_pos h hpos, readItem_place h 0, rfl, rfl, bs, h.dropFront hpos, rfl⟩

/-- **`popback`** returns the place of the last element, and `NULL` when there is
none. -/
theorem popback_spec (h : Holds d w bs) :
    ∃ p d', popback d = .ok (p, d') ∧ readItem d' w p = .ok (d.elements bs).getLast? ∧
      Represents d.elemSize (d', w) ⟨(d.elements bs).dropLast, d.capacity⟩ := by
  by_cases hzero : d.size = 0
  · rw [elements_eq_nil hzero]
    exact ⟨none, d, popback_of_empty h hzero, rfl, rfl, rfl, bs, h, elements_eq_nil hzero⟩
  · have hpos : 0 < d.size := by omega
    rw [elements_concat hpos, List.getLast?_concat, List.dropLast_concat]
    exact ⟨_, _, popback_of_pos h hpos, readItem_place h _, rfl, rfl, bs, h.dropBack, rfl⟩

/-- **`peekleft`** returns the place of the first element. -/
theorem peekleft_spec (h : Holds d w bs) :
    ∃ p, peekleft d = .ok p ∧ readItem d w p = .ok (d.elements bs).head? := by
  by_cases hzero : d.size = 0
  · rw [elements_eq_nil hzero]
    exact ⟨none, peekleft_of_empty hzero, rfl⟩
  · have hpos : 0 < d.size := by omega
    rw [elements_cons h hpos]
    exact ⟨_, peekleft_of_pos h hpos, readItem_place h 0⟩

/-- **`peekback`** returns the place of the last element. -/
theorem peekback_spec (h : Holds d w bs) :
    ∃ p, peekback d = .ok p ∧ readItem d w p = .ok (d.elements bs).getLast? := by
  by_cases hzero : d.size = 0
  · rw [elements_eq_nil hzero]
    exact ⟨none, peekback_of_empty h hzero, rfl⟩
  · have hpos : 0 < d.size := by omega
    rw [elements_concat hpos, List.getLast?_concat]
    exact ⟨_, peekback_of_pos h hpos, readItem_place h _⟩

/-- **The iterator and `popleft` agree**, and list the elements. -/
theorem items_eq (h : Holds d w bs) :
    items d w = .ok (d.elements bs) ∧ drain d w = .ok (d.elements bs) := by
  have hlen : d.places.length < d.size + 1 := by simp [places]
  obtain ⟨iter, hiter, hyields⟩ := iterator_yields h
  refine ⟨?_, Iterator.forEach_eq (popleft_yields h) (read_places h) 0 hlen⟩
  rw [items, hiter, ok_bind]
  exact Iterator.forEach_eq hyields (read_places h) iter.sizeHint hlen

/-- The outcome of a push is a step of the list. -/
theorem Pushed.represents {add : List (List UInt8) → List (List UInt8)} {st : Status}
    (h : Holds d w bs) (hp : Pushed d w bs add st d' w')
    (hfails : st ≠ .ok → st.Fails (¬ CanGrow capacityGrow d.capacity d.elemSize))
    (hfits : d.size < d.capacity → st = .ok ∧ d'.capacity = d.capacity)
    (hlength : ∀ xs, (add xs).length = xs.length + 1) :
    ∃ a', Grows d.elemSize ⟨d.elements bs, d.capacity⟩ (add (d.elements bs)) st a' ∧
      Represents d.elemSize (d', w') a' := by
  have hsize := h.size_le
  rcases hp with ⟨hst, rfl, hcells⟩ | ⟨rfl, bs', h', helements, hchanged⟩
  · have hfull : d'.size = d'.capacity := by
      by_contra hne
      exact hst (hfits (by omega)).1
    exact ⟨_, .inr ⟨hfails hst, length_elements.trans hfull, rfl⟩, rfl, rfl, bs,
      { h with buffered := h.buffered.same hcells }, rfl⟩
  · refine ⟨⟨add (d.elements bs), d'.capacity⟩, .inl ⟨rfl, rfl, fun hlt => ?_, fun hfull => ?_⟩,
      hchanged.elemSize, rfl, bs', h', helements⟩
    · exact (hfits (by rwa [length_elements] at hlt)).2
    · -- the new element needs a slot more than there were
      have hsize' : (d'.elements bs').length ≤ d'.capacity :=
        length_elements.trans_le h'.size_le
      rw [helements, hlength] at hsize'
      dsimp only at hfull ⊢
      omega

/-- **One call** is a step of the list. -/
theorem step_spec (s : Deque × Memory) (a : Abstract) (c : Call)
    (hR : Represents elemSize s a) (hc : c.Valid elemSize) :
    Sat (step s c) fun p => ∃ a', Spec elemSize a c p.1 a' ∧ Represents elemSize p.2 a' := by
  obtain ⟨d, w⟩ := s
  obtain ⟨xs, capacity⟩ := a
  obtain ⟨rfl, rfl, bs, h, rfl⟩ := hR
  dsimp only at h hc
  cases c with
  | push e =>
    obtain ⟨st, d', w', hpush, hp⟩ := push_spec h (.inl (.outside hc))
    exact ⟨(.status st, (d', w')), by rw [step, hpush]; rfl,
      hp.represents h (push_explains h hpush).fails (fun hlt => push_fits hlt hpush) (by simp)⟩
  | pushfront e =>
    obtain ⟨st, d', w', hpush, hp⟩ := pushfront_spec h (.inl (.outside hc))
    exact ⟨(.status st, (d', w')), by rw [step, hpush]; rfl,
      hp.represents h (pushfront_explains h hpush).fails (fun hlt => pushfront_fits hlt hpush)
        (by simp)⟩
  | popleft =>
    obtain ⟨p, d', hpop, hread, hR'⟩ := popleft_spec h
    refine ⟨(.item (d.elements bs).head?, (d', w)), ?_, _, ⟨rfl, rfl⟩, hR'⟩
    simp only [step, hpop, ok_bind, hread, pure_eq_ok]
  | popback =>
    obtain ⟨p, d', hpop, hread, hR'⟩ := popback_spec h
    refine ⟨(.item (d.elements bs).getLast?, (d', w)), ?_, _, ⟨rfl, rfl⟩, hR'⟩
    simp only [step, hpop, ok_bind, hread, pure_eq_ok]
  | peekleft =>
    obtain ⟨p, hpeek, hread⟩ := peekleft_spec h
    refine ⟨(.item (d.elements bs).head?, (d, w)), ?_, _, ⟨rfl, rfl⟩, rfl, rfl, bs, h, rfl⟩
    simp only [step, hpeek, ok_bind, hread, pure_eq_ok]
  | peekback =>
    obtain ⟨p, hpeek, hread⟩ := peekback_spec h
    refine ⟨(.item (d.elements bs).getLast?, (d, w)), ?_, _, ⟨rfl, rfl⟩, rfl, rfl, bs, h, rfl⟩
    simp only [step, hpeek, ok_bind, hread, pure_eq_ok]
  | size => exact ⟨_, rfl, _, ⟨length_elements.symm, rfl⟩, rfl, rfl, bs, h, rfl⟩
  | iterate =>
    refine ⟨(.items _, (d, w)), ?_, _, ⟨rfl, rfl⟩, rfl, rfl, bs, h, rfl⟩
    rw [step, (items_eq h).1]
    rfl

/-- A call that finds no memory was refused a request. -/
theorem step_asked {s : Deque × Memory} {c : Call} {r : Answer × (Deque × Memory)}
    (hR : Represents elemSize s a) (hstep : step s c = .ok r) :
    s.2.Asked r.2.2 (r.1 = .status .noMemory) := by
  obtain ⟨d, w⟩ := s
  obtain ⟨-, -, bs, h, -⟩ := hR
  cases c with
  | push e =>
    obtain ⟨x, hpush, hout⟩ := bind_eq_ok.1 hstep
    cases hout
    exact (push_explains h hpush).asked.mono fun hst => Answer.status.inj hst
  | pushfront e =>
    obtain ⟨x, hpush, hout⟩ := bind_eq_ok.1 hstep
    cases hout
    exact (pushfront_explains h hpush).asked.mono fun hst => Answer.status.inj hst
  | popleft | popback | peekleft | peekback =>
    obtain ⟨x, -, hout⟩ := bind_eq_ok.1 hstep
    obtain ⟨bytes, -, hout⟩ := bind_eq_ok.1 hout
    cases hout
    exact .refl w nofun
  | size =>
    cases hstep
    exact .refl w nofun
  | iterate =>
    obtain ⟨ys, -, hout⟩ := bind_eq_ok.1 hstep
    cases hout
    exact .refl w nofun

/-! ## The refinement -/

/-- The circular buffer is laid out as the source assumes. -/
structure Ring (d : Deque) : Prop where
  pow : ∃ k, d.capacity = 2 ^ k
  head_lt : d.head < d.capacity
  tail_lt : d.tail < d.capacity
  tail_eq : d.tail = (d.head + d.size) % d.capacity

/-- **A deque is a list.**  In every run of a deque that was created, whatever the
allocator grants, no assertion fails and no index computation wraps; the answers
are those of the list of its elements, which a failed push does not change; a push
fails only when the deque is full, and either no larger ring is possible or the request for
it was refused; and in the state the run ends in the ring is well formed, the size is the
length of the list, and the iterator visits the elements in the order in which `popleft`
would take them. -/
theorem refines_list {elemSize : ℕ} (helem : 0 < elemSize) {allocator : Option (Allocator Memory)}
    (hbacked : Backed (Allocator.copy allocator)) {w₀ w₁ : Memory} {d : Deque}
    (hcreate : create elemSize allocator w₀ = .ok ((.ok, some d), w₁)) (calls : List Call)
    (hvalid : ∀ c ∈ calls, c.Valid elemSize) :
    Sat (trace step (d, w₁) calls) fun p => ∃ a,
      Follows (Spec elemSize) ⟨[], defaultCapacity⟩ calls p.1 a ∧
        Justifies w₁ p.2.2 (· = .status .noMemory) p.1 ∧ Ring p.2.1 ∧
        p.2.1.capacity = a.capacity ∧ p.2.1.size = a.elements.length ∧
        items p.2.1 p.2.2 = .ok a.elements ∧ drain p.2.1 p.2.2 = .ok a.elements := by
  obtain ⟨st, out, w', hcreate', hres⟩ := create_spec hbacked helem w₀
  cases hcreate.symm.trans hcreate'
  rcases hres with ⟨hst, -⟩ | ⟨-, _, hout, -, ⟨bs, h⟩, hsize, hsame, hcap, -⟩
  · exact absurd rfl hst
  cases hout
  have hrun := trace_justified (m := Prod.snd) (R := Represents elemSize)
    (B := (· = .status .noMemory)) step_spec (fun _ _ _ _ hR _ hstep => step_asked hR hstep)
    calls (d, w₁) ⟨[], defaultCapacity⟩ ⟨hsame, hcap, bs, h, elements_eq_nil hsize⟩
    (along_of_mem calls _ hvalid)
  refine hrun.mono ?_
  rintro ⟨answers, d', w'⟩ ⟨a, hfollows, ⟨-, hcapacity, bs', h', helements⟩, hjust⟩
  have hitems := items_eq h'
  rw [helements] at hitems
  exact ⟨a, hfollows, hjust, ⟨h'.pow, h'.head_lt, h'.tail_lt, h'.tail_eq⟩, hcapacity,
    by rw [← helements, length_elements], hitems⟩

/-- A memory that refuses every third request. -/
def stingy : Memory :=
  .empty fun n => if n % 3 = 2 then none else some ⟨false, fun i => UInt8.ofNat i⟩

/-- Two elements at the front and sixteen behind them: the ring is full with its
head at index 14, the first attempt to grow is refused, the second unrolls it. -/
def wrapped : List Call :=
  [.pushfront [2, 2], .pushfront [1, 1]] ++ List.replicate 16 (.push [3, 3]) ++
    [.iterate, .popback, .popleft, .size]

theorem refines_list_wrapped : ∃ d w₁, create 2 none stingy = .ok ((.ok, some d), w₁) ∧
    (Sat (trace step (d, w₁) wrapped) fun p => ∃ a,
      Follows (Spec 2) ⟨[], defaultCapacity⟩ wrapped p.1 a ∧
        Justifies w₁ p.2.2 (· = .status .noMemory) p.1 ∧ Ring p.2.1 ∧
        p.2.1.capacity = a.capacity ∧ p.2.1.size = a.elements.length ∧
        items p.2.1 p.2.2 = .ok a.elements ∧ drain p.2.1 p.2.2 = .ok a.elements) ∧
    (trace step (d, w₁) wrapped).map Prod.fst =
      .ok (List.replicate 16 (.status .ok) ++ [.status .noMemory, .status .ok,
        .items ([[1, 1], [2, 2]] ++ List.replicate 15 [3, 3]), .item (some [3, 3]),
        .item (some [1, 1]), .size 15]) := by
  have hpos : 0 < 2 := by decide
  have hbacked : Backed (Allocator.copy none) := .default _
  exact ⟨_, _, rfl, refines_list hpos hbacked (rfl : create 2 none stingy = _) wrapped (by decide),
    by decide +kernel⟩

end K4c.Deque
