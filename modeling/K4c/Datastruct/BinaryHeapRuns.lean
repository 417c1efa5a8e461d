import Mathlib.Tactic
import K4c.Datastruct.BinaryHeapCalls
import K4c.Datastruct.Refusals
import K4c.Lib.Runs

/-!
# A binary heap is a priority queue

A client pushes and pops in any order and reads what it is given.  `Spec` is a
multiset from which the smallest element is taken, beside the capacity that was
reached; `BinaryHeap.priority_queue` says that every run of a heap is a run of it,
and that the elements are in heap order after it.

* `step` — one call, with the bytes behind a returned pointer read at once.
* `Represents` — the heap holds the multiset, in heap order.
* `step_spec` — one call is a step of the multiset; `step_asked` — what it asks for.
-/

namespace K4c.BinaryHeap

open Exec Bytes Slots Blocks Runs HeapOrder

/-! ## The client -/

/-- A call, with the bytes that a pushed element is copied from. -/
inductive Call where
  | push (element : List UInt8)
  | pop
  | peek
  | size
  deriving DecidableEq, Repr

/-- What the client learns from a call. -/
inductive Answer where
  | status (st : Status)
  /-- The bytes behind the returned pointer, absent for `NULL`. -/
  | item (bytes : Option (List UInt8))
  | size (n : ℕ)
  deriving DecidableEq, Repr

/-- A pushed element has the size the heap was created for. -/
def Call.Valid (elemSize : ℕ) : Call → Prop
  | .push e => e.length = elemSize
  | _ => True

instance (elemSize : ℕ) : DecidablePred (Call.Valid elemSize) := by
  intro c
  cases c <;> unfold Call.Valid <;> exact inferInstance

/-- The client passes whole elements, and a heap never has so many of them that
an index is not a `size_t`. -/
def Allowed (elemSize : ℕ) (s : BinaryHeap × Memory) (c : Call) : Prop :=
  c.Valid elemSize ∧ s.1.size < 2 ^ 63

instance (elemSize : ℕ) (s : BinaryHeap × Memory) (c : Call) :
    Decidable (Allowed elemSize s c) := by
  unfold Allowed
  exact inferInstance

/-- The bytes behind a pointer. -/
def readItem (h : BinaryHeap) (w : Memory) (p : Option Ptr) : Result (Option (List UInt8)) :=
  match p with
  | none => .ok none
  | some p => w.read p.block p.offset h.root.elemSize >>= fun bytes => .ok (some bytes)

/-- One call. -/
def step (s : BinaryHeap × Memory) (c : Call) : Result (Answer × (BinaryHeap × Memory)) :=
  match c with
  | .push e => do
    let ((st, h), w) ← push s.1 (.outside e) s.2
    return (.status st, (h, w))
  | .pop => do
    let ((p, h), w) ← pop s.1 s.2
    let bytes ← readItem h w p
    return (.item bytes, (h, w))
  | .peek => do
    let p ← peek s.1
    let bytes ← readItem s.1 s.2 p
    return (.item bytes, s)
  | .size => return (.size s.1.size, s)

/-! ## The priority queue -/

/-- `a` comes before `b` for a comparator, which is `memcmp` when there is none. -/
def Before (cmp : Option (List UInt8 → List UInt8 → ℤ)) (a b : List UInt8) : Prop :=
  cmp.getD memcmp a b < 0

/-- `x` is one of the elements, and none of them comes before it. -/
def First (cmp : Option (List UInt8 → List UInt8 → ℤ)) (M : Multiset (List UInt8))
    (x : List UInt8) : Prop := x ∈ M ∧ ∀ y ∈ M, ¬ Before cmp y x

/-- The elements, and how many there is room for. -/
structure Abstract where
  elements : Multiset (List UInt8)
  capacity : ℕ

/-- What a call may answer and make of the elements, which have this size.  Only a full heap
asks for memory, and fails to push. -/
def Spec (elemSize : ℕ) (cmp : Option (List UInt8 → List UInt8 → ℤ)) (a : Abstract) :
    Call → Answer → Abstract → Prop
  | .push e, .status st, a' =>
    (st = .ok ∧ a'.elements = e ::ₘ a.elements ∧
      (a.elements.card < a.capacity → a'.capacity = a.capacity) ∧
      (a.elements.card = a.capacity → a.capacity < a'.capacity)) ∨
    (st.Fails (¬ CanGrow Vector.capacityGrow a.capacity elemSize) ∧
      a.elements.card = a.capacity ∧ a' = a)
  | .pop, .item none, a' => a.elements = 0 ∧ a' = a
  | .pop, .item (some x), a' =>
    First cmp a.elements x ∧ a.elements = x ::ₘ a'.elements ∧ a'.capacity = a.capacity
  | .peek, .item none, a' => a.elements = 0 ∧ a' = a
  | .peek, .item (some x), a' => First cmp a.elements x ∧ a' = a
  | .size, .size n, a' => n = a.elements.card ∧ a' = a
  | _, _, _ => False

/-- The heap lies in the memory, is in heap order, and has these elements in a buffer of this
capacity. -/
def Represents (elemSize : ℕ) (cmp : Option (List UInt8 → List UInt8 → ℤ))
    (s : BinaryHeap × Memory) (a : Abstract) : Prop :=
  s.1.root.elemSize = elemSize ∧ s.1.cmp = cmp ∧ s.1.root.capacity = a.capacity ∧
    ∃ bs, Holds s.1 s.2 bs ∧ Ordered s.1.Le (s.1.nth bs) s.1.root.size ∧
      (s.1.elements bs : Multiset (List UInt8)) = a.elements

variable {h h' : BinaryHeap} {w w' : Memory} {bs : List UInt8} {elemSize : ℕ}
  {cmp : Option (List UInt8 → List UInt8 → ℤ)} {a : Abstract}

theorem compare_eq : h.compare = h.cmp.getD memcmp := by
  unfold compare
  cases h.cmp <;> rfl

/-- In heap order the first element of the vector is a first element. -/
theorem first_nth (hh : Holds h w bs) (hord : Ordered h.Le (h.nth bs) h.root.size)
    (hpos : 0 < h.root.size) : First h.cmp (h.elements bs) (h.nth bs 0) := by
  have hpre := le_preorder hh.order
  have hcap := hh.root.size_le
  refine ⟨?_, fun y hy => ?_⟩
  · rw [elements_eq, Multiset.mem_coe, List.mem_map]
    exact ⟨0, List.mem_range.2 hpos, rfl⟩
  · rw [elements_eq, Multiset.mem_coe, List.mem_map] at hy
    obtain ⟨i, hi, rfl⟩ := hy
    rw [List.mem_range] at hi
    rw [Before, ← compare_eq]
    exact hh.not_lt_of_le (by omega) (by omega) (hord.root_le i hi)

theorem elements_eq_zero (hzero : h.root.size = 0) :
    (h.elements bs : Multiset (List UInt8)) = 0 := by
  rw [elements_eq, hzero]
  rfl

theorem card_elements : (h.elements bs : Multiset (List UInt8)).card = h.root.size := by
  rw [elements_eq, Multiset.coe_card, List.length_map, List.length_range]

/-- **A push** is a step of the priority queue. -/
theorem Represents.push {e : List UInt8} (hR : Represents elemSize cmp (h, w) a)
    (he : e.length = elemSize) :
    ∃ st h' w' a', BinaryHeap.push h (.outside e) w = .ok ((st, h'), w') ∧
      Spec elemSize cmp a (.push e) (.status st) a' ∧ Represents elemSize cmp (h', w') a' := by
  obtain ⟨M, capacity⟩ := a
  obtain ⟨rfl, rfl, rfl, bs, hh, hord, rfl⟩ := hR
  dsimp only at hh hord he
  have hsize := hh.root.size_le
  obtain ⟨st, h', w', hpush, hres⟩ := push_spec hh.lies (.inl (.outside he))
  refine ⟨st, h', w', ?_⟩
  rcases hres with ⟨hst, rfl, hcells⟩ | ⟨rfl, bs', hh', hheap, hperm, hchanged⟩
  · have hfull : h'.root.size = h'.root.capacity := by
      by_contra hne
      exact hst (push_fits (by omega) hpush).1
    exact ⟨_, hpush, .inr ⟨(push_explains hh.lies hpush).fails hst, card_elements.trans hfull,
      rfl⟩, rfl, rfl, rfl, bs, (hh.lies.same hcells).holds hh.order, hord, rfl⟩
  · obtain ⟨horder', hord'⟩ := hheap ⟨hh.order, hord⟩
    refine ⟨⟨_, h'.root.capacity⟩, hpush, .inl ⟨rfl, rfl, fun hlt => ?_, fun hfull => ?_⟩,
      hchanged.elemSize, hchanged.cmp, rfl, bs', hh'.holds horder', hord',
      Multiset.coe_eq_coe.2 hperm⟩
    · dsimp only at hlt
      rw [card_elements] at hlt
      exact (push_fits hlt hpush).2
    · -- the new element needs a slot more than there were
      have hsize' := hh'.root.size_le
      have hcard := hperm.length_eq
      rw [List.length_cons, ← Multiset.coe_card, ← Multiset.coe_card, card_elements,
        card_elements] at hcard
      dsimp only at hfull ⊢
      rw [card_elements] at hfull
      omega

/-- **One call** is a step of the priority queue. -/
theorem step_spec (s : BinaryHeap × Memory) (a : Abstract) (c : Call)
    (hR : Represents elemSize cmp s a) (hc : Allowed elemSize s c) :
    Sat (step s c) fun p =>
      ∃ a', Spec elemSize cmp a c p.1 a' ∧ Represents elemSize cmp p.2 a' := by
  obtain ⟨h, w⟩ := s
  obtain ⟨hvalid, hsmall⟩ := hc
  cases c with
  | push e =>
    obtain ⟨st, h', w', a', hpush, hspec, hR'⟩ := hR.push hvalid
    exact ⟨(.status st, (h', w')), by rw [step, hpush]; rfl, a', hspec, hR'⟩
  | pop =>
    obtain ⟨M, capacity⟩ := a
    obtain ⟨rfl, rfl, rfl, bs, hh, hord, rfl⟩ := hR
    dsimp only at hh hord hsmall
    by_cases hzero : h.root.size = 0
    · refine ⟨(.item none, (h, w)), ?_, _, ⟨elements_eq_zero hzero, rfl⟩, rfl, rfl, rfl, bs, hh,
        hord, rfl⟩
      rw [step, pop, if_pos hzero]
      rfl
    · have hpos : 0 < h.root.size := by omega
      obtain ⟨w', bs', hpop, hh', hheap, hread, hperm, hchanged⟩ :=
        pop_spec hh.lies hpos hsmall
      obtain ⟨horder', hord'⟩ := hheap ⟨hh.order, hord⟩
      have htaken : (h.elements bs : Multiset (List UInt8)) =
          h.nth bs 0 ::ₘ (h.shortened.elements bs' : Multiset (List UInt8)) :=
        Multiset.coe_eq_coe.2 hperm
      refine ⟨(.item (some (h.nth bs 0)), (h.shortened, w')), ?_, ⟨_, h.root.capacity⟩,
        ⟨first_nth hh hord hpos, htaken, rfl⟩, hchanged.elemSize, hchanged.cmp, rfl, bs',
        hh'.holds horder', hord', rfl⟩
      rw [← hchanged.elemSize] at hread
      simp only [step, hpop, ok_bind, readItem, hread, pure_eq_ok]
  | peek =>
    obtain ⟨M, capacity⟩ := a
    obtain ⟨rfl, rfl, rfl, bs, hh, hord, rfl⟩ := hR
    dsimp only at hh hord
    by_cases hzero : h.root.size = 0
    · refine ⟨(.item none, (h, w)), ?_, _, ⟨elements_eq_zero hzero, rfl⟩, rfl, rfl, rfl, bs, hh,
        hord, rfl⟩
      rw [step, peek, if_pos hzero]
      rfl
    · have hpos : 0 < h.root.size := by omega
      refine ⟨(.item (some (h.nth bs 0)), (h, w)), ?_, _, ⟨first_nth hh hord hpos, rfl⟩, rfl, rfl,
        rfl, bs, hh, hord, rfl⟩
      have hread : w.read h.root.buffer (0 * h.root.elemSize) h.root.elemSize =
          .ok (h.nth bs 0) :=
        Vector.deref_of_lt hh.root (hpos.trans_le hh.root.size_le)
      rw [step, peek, if_neg hzero, Vector.get_of_lt hh.root hpos, ok_bind, readItem, hread]
      rfl
  | size =>
    obtain ⟨hsize, hcmp, hcapacity, bs, hh, hord, helements⟩ := hR
    refine ⟨(.size h.root.size, (h, w)), rfl, _, ⟨?_, rfl⟩, hsize, hcmp, hcapacity, bs, hh, hord,
      helements⟩
    rw [← helements]
    exact card_elements.symm

/-- A call that finds no memory was refused a request. -/
theorem step_asked {s : BinaryHeap × Memory} {c : Call} {r : Answer × (BinaryHeap × Memory)}
    (hR : Represents elemSize cmp s a) (hstep : step s c = .ok r) :
    s.2.Asked r.2.2 (r.1 = .status .noMemory) := by
  obtain ⟨h, w⟩ := s
  obtain ⟨-, -, -, bs, hh, -⟩ := hR
  cases c with
  | push e =>
    obtain ⟨x, hpush, hout⟩ := bind_eq_ok.1 hstep
    cases hout
    exact (push_explains hh.lies hpush).asked.mono fun hst => Answer.status.inj hst
  | pop =>
    obtain ⟨x, hpop, hout⟩ := bind_eq_ok.1 hstep
    obtain ⟨bytes, -, hout⟩ := bind_eq_ok.1 hout
    cases hout
    exact (pop_rewritten hpop).toQuiet.asked nofun
  | peek =>
    obtain ⟨x, -, hout⟩ := bind_eq_ok.1 hstep
    obtain ⟨bytes, -, hout⟩ := bind_eq_ok.1 hout
    cases hout
    exact .refl w nofun
  | size =>
    cases hstep
    exact .refl w nofun

/-! ## The refinement -/

/-- The elements that lie in the vector of the heap, in order of their indices. -/
def Stored (h : BinaryHeap) (w : Memory) (xs : List (List UInt8)) : Prop :=
  h.size = xs.length ∧ ∀ i x, xs[i]? = some x →
    w.read h.root.buffer (i * h.root.elemSize) h.root.elemSize = .ok x

/-- No element comes before its parent. -/
def HeapOrdered (cmp : Option (List UInt8 → List UInt8 → ℤ)) (xs : List (List UInt8)) : Prop :=
  ∀ i x y, 0 < i → xs[i]? = some x → xs[(i - 1) / 2]? = some y → ¬ Before cmp x y

theorem getElem?_elements {i : ℕ} {x : List UInt8} (hx : (h.elements bs)[i]? = some x) :
    i < h.root.size ∧ h.nth bs i = x := by
  rw [elements, Vector.elements, getElem?_slots] at hx
  split at hx
  · exact ⟨by assumption, Option.some.inj hx⟩
  · cases hx

theorem Lies.stored (hh : Lies h w bs) : Stored h w (h.elements bs) := by
  refine ⟨?_, fun i x hx => ?_⟩
  · rw [elements, Vector.elements, length_slots]
    rfl
  · obtain ⟨hi, rfl⟩ := getElem?_elements hx
    exact Vector.deref_of_lt hh.root (hi.trans_le hh.root.size_le)

theorem Lies.heapOrdered (hh : Lies h w bs) (hheap : Heaped h bs) :
    HeapOrdered h.cmp (h.elements bs) := by
  intro i x y hpos hx hy
  have hcap := hh.root.size_le
  obtain ⟨hi, rfl⟩ := getElem?_elements hx
  obtain ⟨hj, rfl⟩ := getElem?_elements hy
  rw [Before, ← compare_eq]
  exact (hh.holds hheap.order).not_lt_of_le (by omega) (by omega) (hheap.ordered i hpos hi)

/-- What a heap that represents a multiset has in its vector. -/
theorem Represents.stored (hR : Represents elemSize cmp (h, w) a) :
    ∃ xs : List (List UInt8), Stored h w xs ∧ HeapOrdered cmp xs ∧
      (xs : Multiset _) = a.elements := by
  obtain ⟨-, rfl, -, bs, hh, hord, helements⟩ := hR
  exact ⟨h.elements bs, hh.lies.stored, hh.lies.heapOrdered ⟨hh.order, hord⟩, helements⟩

/-- A comparator that can be used for elements of this size, or `memcmp`. -/
theorem totalPreorder_getD (hcmp : ∀ c, cmp = some c → TotalPreorder elemSize c) :
    TotalPreorder elemSize (cmp.getD memcmp) := by
  cases cmp with
  | none => exact memcmp_totalPreorder elemSize
  | some c => exact hcmp c rfl

/-- A new heap is empty, with room for the default capacity. -/
theorem represents_of_create (helem : 0 < elemSize)
    (hcmp : ∀ c, cmp = some c → TotalPreorder elemSize c)
    {allocator : Option (Allocator Memory)} (hbacked : Backed (Allocator.copy allocator))
    {w₀ w₁ : Memory} {h : BinaryHeap}
    (hcreate : create elemSize cmp allocator w₀ = .ok ((.ok, some h), w₁)) :
    Represents elemSize cmp (h, w₁) ⟨0, Vector.defaultCapacity⟩ := by
  obtain ⟨st, out, w', hcreate', hres⟩ := create_spec cmp hbacked helem w₀
  cases hcreate.symm.trans hcreate'
  rcases hres with ⟨hst, -⟩ | ⟨-, _, hout, -, ⟨bs, hh⟩, hsize, hes, hcmp', hcap, -⟩
  · exact absurd rfl hst
  · cases hout
    have horder : TotalPreorder h.root.elemSize h.compare := by
      rw [compare_eq, hcmp', hes]
      exact totalPreorder_getD hcmp
    refine ⟨hes, hcmp', hcap, bs, hh.holds horder, fun i _ hi => ?_, elements_eq_zero hsize⟩
    dsimp only at hi
    omega

/-- **A binary heap is a priority queue.**  In every run of a heap that was created
for a comparator that is a total preorder, or for `memcmp`, whatever the allocator
grants, no assertion fails and no index overflows; a push that succeeds adds its
element and one that fails nothing, and it fails only when the vector is full, and either
no larger one is possible or the request for it was refused; a pop takes an element that no
other one comes before, and the place it returns holds that element; and the elements that
lie in the vector at the end are the ones that are left, in heap order. -/
theorem priority_queue {elemSize : ℕ} (helem : 0 < elemSize)
    {cmp : Option (List UInt8 → List UInt8 → ℤ)}
    (hcmp : ∀ c, cmp = some c → TotalPreorder elemSize c)
    {allocator : Option (Allocator Memory)} (hbacked : Backed (Allocator.copy allocator))
    {w₀ w₁ : Memory} {h : BinaryHeap}
    (hcreate : create elemSize cmp allocator w₀ = .ok ((.ok, some h), w₁)) (calls : List Call)
    (hallowed : Along step (Allowed elemSize) (h, w₁) calls) :
    Sat (trace step (h, w₁) calls) fun p => ∃ a xs,
      Follows (Spec elemSize cmp) ⟨0, Vector.defaultCapacity⟩ calls p.1 a ∧
        Justifies w₁ p.2.2 (· = .status .noMemory) p.1 ∧ p.2.1.root.capacity = a.capacity ∧
        Stored p.2.1 p.2.2 xs ∧ HeapOrdered cmp xs ∧
        (xs : Multiset (List UInt8)) = a.elements := by
  have hrun := trace_justified (m := Prod.snd) (R := Represents elemSize cmp)
    (B := (· = .status .noMemory)) step_spec (fun _ _ _ _ hR _ hstep => step_asked hR hstep)
    calls (h, w₁) _ (represents_of_create helem hcmp hbacked hcreate) hallowed
  refine hrun.mono ?_
  rintro ⟨answers, h', w'⟩ ⟨a, hfollows, hR, hjust⟩
  obtain ⟨xs, hstored, hordered, hxs⟩ := hR.stored
  exact ⟨a, xs, hfollows, hjust, hR.2.2.1, hstored, hordered, hxs⟩

/-- The largest element first. -/
theorem memcmp_reversed (n : ℕ) : TotalPreorder n fun a b => memcmp b a where
  sign a b ha hb := (memcmp_totalPreorder n).sign b a hb ha
  trans a b c ha hb hc h₁ h₂ := (memcmp_totalPreorder n).trans c b a hc hb ha h₂ h₁

/-- Five elements with ties, three of them taken out again. -/
def takeThree : List Call :=
  [.push [2], .push [3], .push [1], .push [3], .push [2], .pop, .pop, .peek, .pop, .size]

theorem priority_queue_take_three : ∃ h w₁,
    create 1 (some fun a b => memcmp b a) none (.empty fun _ => some ⟨true, fun _ => 0⟩) =
      .ok ((.ok, some h), w₁) ∧
    (Sat (trace step (h, w₁) takeThree) fun p => ∃ a xs,
      Follows (Spec 1 (some fun a b => memcmp b a)) ⟨0, Vector.defaultCapacity⟩ takeThree p.1 a ∧
        Justifies w₁ p.2.2 (· = .status .noMemory) p.1 ∧ p.2.1.root.capacity = a.capacity ∧
        Stored p.2.1 p.2.2 xs ∧ HeapOrdered (some fun a b => memcmp b a) xs ∧
        (xs : Multiset (List UInt8)) = a.elements) ∧
    (trace step (h, w₁) takeThree).map Prod.fst =
      .ok (List.replicate 5 (.status .ok) ++ [.item (some [3]), .item (some [3]),
        .item (some [2]), .item (some [2]), .size 2]) := by
  have hpos : 0 < 1 := by decide
  have hbacked : Backed (Allocator.copy none) := .default _
  refine ⟨_, _, rfl, priority_queue hpos (fun c hc => ?_) hbacked
    (rfl : create 1 (some fun a b => memcmp b a) none (.empty fun _ => some ⟨true, fun _ => 0⟩) = _)
    takeThree (along_of_check (by decide +kernel)), by decide +kernel⟩
  cases hc
  exact memcmp_reversed 1

end K4c.BinaryHeap
