import Mathlib.Tactic
import K4c.Datastruct.Reachable

/-!
# Putting a popped element back

What a pop returns is the place the element was stored in.  The place is free
afterwards and still holds the element, so it can be handed to a push, which finds a free
slot and does not grow; in a full ring, and at the end of a vector, the slot that is
written to is the place itself.

* `Vector.push_popped`, `Deque.popleft_putsBack`, `Deque.popback_putsBack`,
  `BinaryHeap.push_popped` — each pair of calls.
* `put_back` — the pairs, for every container that can be reached.
-/

namespace K4c

open Exec Bytes Slots Blocks Runs

/-! ## Vectors -/

namespace Vector

variable {v : Vector} {w : Memory} {bs : List UInt8}

theorem elements_concat (hpos : 0 < v.size) :
    v.elements bs =
      elements { v with size := v.size - 1 } bs ++ [slot bs v.elemSize (v.size - 1)] := by
  rw [elements, show v.size = v.size - 1 + 1 by omega, slots_succ]
  rfl

/-- **A popped element that is pushed back** is where it was, and so is the vector. -/
theorem push_popped (h : Holds v w bs) (hpos : 0 < v.size) :
    ∃ p v₁ w' bs', pop v = .ok (some p, v₁) ∧ push v₁ (.inside p) w = .ok ((.ok, v), w') ∧
      Holds v w' bs' ∧ v.elements bs' = v.elements bs ∧ w.Quiet w' := by
  have hsize := h.size_le
  have h₁ : Holds { v with size := v.size - 1 } w bs := h.resized (by omega)
  have hread : Memory.source w (.inside ⟨v.buffer, (v.size - 1) * v.elemSize⟩) v.elemSize =
      .ok (slot bs v.elemSize (v.size - 1)) := deref_of_lt h (by omega)
  have hlt : v.size - 1 < v.capacity := by omega
  have hback : { v with size := v.size - 1 + 1 } = v := by rw [Nat.sub_add_cancel hpos]
  obtain ⟨bs', w', hpush, h', helements, -, hquiet⟩ := push_of_lt h₁ hlt (Arg.Copies.self hread)
  dsimp only at hpush h' helements
  rw [hback] at hpush h' helements
  refine ⟨_, _, w', bs', pop_of_pos h hpos, hpush, h', ?_, hquiet⟩
  rw [helements, elements_concat hpos]

end Vector

/-! ## Deques -/

namespace Deque

variable {d d₁ : Deque} {w : Memory} {bs : List UInt8}

/-- From `d` the deque `d₁` was left, and the element at `p` is pushed to it: no call fails
or asks the allocator for anything, and the elements are now these. -/
def PutsBack (push : Deque → Arg → Memory → Result ((Status × Deque) × Memory)) (d d₁ : Deque)
    (p : Ptr) (w : Memory) (xs : List (List UInt8)) : Prop :=
  ∃ d' w', push d₁ (.inside p) w = .ok ((.ok, d'), w') ∧ items d' w' = .ok xs ∧
    d'.buffer = d.buffer ∧ d'.capacity = d.capacity ∧ w.Quiet w'

/-- An element of the deque can be copied to every slot of its buffer. -/
theorem copies_place (h : Holds d w bs) (i slot : ℕ) :
    (Arg.inside (d.place i)).Copies w ⟨d.buffer, slot * d.elemSize⟩ d.elemSize (d.nth bs i) :=
  ⟨read_place h i, Memory.not_clash_slots d.buffer slot _ d.elemSize⟩

/-- **After `popleft`** the first element can be put at either end. -/
theorem popleft_putsBack (h : Holds d w bs) (hpos : 0 < d.size) :
    ∃ p d₁, popleft d = .ok (some p, d₁) ∧
      PutsBack push d d₁ p w (d.dropFront.elements bs ++ [d.nth bs 0]) ∧
      PutsBack pushfront d d₁ p w (d.nth bs 0 :: d.dropFront.elements bs) := by
  have hsize := h.size_le
  have h₁ := h.dropFront hpos
  have hlt : d.dropFront.size < d.dropFront.capacity := by
    change d.size - 1 < d.capacity
    omega
  obtain ⟨_, w', hpush, h', helements, -, hquiet⟩ :=
    push_of_room h₁ (makeRoom_of_lt hlt) (copies_place h 0 d.dropFront.tail)
  obtain ⟨_, w'', hpushfront, h'', helements', -, hquiet'⟩ :=
    pushfront_of_room h₁ (makeRoom_of_lt hlt) (copies_place h 0 d.dropFront.front)
  refine ⟨_, _, popleft_of_pos h hpos, ⟨_, w', hpush, ?_, rfl, rfl, hquiet⟩,
    ⟨_, w'', hpushfront, ?_, rfl, rfl, hquiet'⟩⟩
  · rw [(items_eq h').1, helements]
  · rw [(items_eq h'').1, helements']

/-- **After `popback`** the last element can be put at either end. -/
theorem popback_putsBack (h : Holds d w bs) (hpos : 0 < d.size) :
    ∃ p d₁, popback d = .ok (some p, d₁) ∧
      PutsBack pushfront d d₁ p w (d.nth bs (d.size - 1) :: d.dropBack.elements bs) ∧
      PutsBack push d d₁ p w (d.dropBack.elements bs ++ [d.nth bs (d.size - 1)]) := by
  have hsize := h.size_le
  have h₁ := h.dropBack
  have hlt : d.dropBack.size < d.dropBack.capacity := by
    change d.size - 1 < d.capacity
    omega
  obtain ⟨_, w', hpush, h', helements, -, hquiet⟩ :=
    push_of_room h₁ (makeRoom_of_lt hlt) (copies_place h (d.size - 1) d.dropBack.tail)
  obtain ⟨_, w'', hpushfront, h'', helements', -, hquiet'⟩ :=
    pushfront_of_room h₁ (makeRoom_of_lt hlt) (copies_place h (d.size - 1) d.dropBack.front)
  refine ⟨_, _, popback_of_pos h hpos, ⟨_, w'', hpushfront, ?_, rfl, rfl, hquiet'⟩,
    ⟨_, w', hpush, ?_, rfl, rfl, hquiet⟩⟩
  · rw [(items_eq h'').1, helements']
  · rw [(items_eq h').1, helements]

end Deque

/-! ## Binary heaps -/

namespace BinaryHeap

variable {h : BinaryHeap} {w : Memory} {bs : List UInt8}

/-- **A popped element that is pushed back** is one of the elements again. -/
theorem push_popped (hh : Lies h w bs) (hpos : 0 < h.root.size) (hsmall : h.root.size < 2 ^ 63) :
    ∃ p h₁ w₁ w' bs', pop h w = .ok ((some p, h₁), w₁) ∧
      push h₁ (.inside p) w₁ = .ok ((.ok, h), w') ∧ Lies h w' bs' ∧
      (Heaped h bs → Heaped h bs') ∧ (h.elements bs').Perm (h.elements bs) ∧ w.Quiet w' := by
  have hsize := hh.root.size_le
  obtain ⟨w₁, bs₁, hpop, hh₁, hheaped₁, hread, hperm₁, -⟩ := pop_spec hh hpos hsmall
  have hlt : h.shortened.root.size < h.shortened.root.capacity := by
    change h.root.size - 1 < h.root.capacity
    omega
  have hne : Arg.inside h.last ≠ .null := by simp
  obtain ⟨bs₂, w₂, hpush, hv, helements, hchanged, hquiet₂⟩ :=
    Vector.push_of_lt hh₁.root hlt (Arg.Copies.self hread)
  obtain ⟨h', w', hheap, hres⟩ :=
    push_of_root hh₁ hne hpush (.inr ⟨rfl, bs₂, hv, rfl, helements, hchanged⟩)
  rcases hres with hfail | ⟨-, rfl, hquiet', bs', hh', hheaped', hperm', -⟩
  · exact absurd rfl hfail.1
  have hback : { h.shortened with
      root := { h.shortened.root with size := h.shortened.root.size + 1 } } = h := by
    simp only [shortened, Nat.sub_add_cancel hpos]
  rw [hback] at hheap hh' hheaped' hperm'
  exact ⟨_, _, w₁, w', bs', hpop, hheap, hh', fun hheap => hheaped' (hheaped₁ hheap),
    hperm'.trans hperm₁.symm, (pop_rewritten hpop).toQuiet.trans (hquiet₂.trans hquiet')⟩

end BinaryHeap

/-! ## Every container -/

/-- **Putting a popped element back.**  On every container with elements that can be
reached, over every allocator: a vector is as it was; a deque has its first element at the
end, its last one at the front, or is as it was; a heap has the same elements, in heap order
when its comparator can be used.  No push fails, and none asks the allocator for anything. -/
theorem put_back {allocator : Option (Allocator Memory)}
    (hbacked : Backed (Allocator.copy allocator)) (w₀ : Memory) :
    (∀ elemSize capacity v w, Vector.Reachable elemSize capacity allocator w₀ (v, w) →
      0 < v.size → ∃ xs p v₁ w', Vector.Stored v w xs ∧ Vector.pop v = .ok (some p, v₁) ∧
        Vector.push v₁ (.inside p) w = .ok ((.ok, v), w') ∧ Vector.Stored v w' xs ∧
        w.Quiet w') ∧
    (∀ elemSize d w, Deque.Reachable elemSize allocator w₀ (d, w) → 0 < d.size →
      (∃ x xs p d₁, Deque.items d w = .ok (x :: xs) ∧ Deque.popleft d = .ok (some p, d₁) ∧
        Deque.PutsBack Deque.push d d₁ p w (xs ++ [x]) ∧
        Deque.PutsBack Deque.pushfront d d₁ p w (x :: xs)) ∧
      (∃ xs x p d₁, Deque.items d w = .ok (xs ++ [x]) ∧ Deque.popback d = .ok (some p, d₁) ∧
        Deque.PutsBack Deque.pushfront d d₁ p w (x :: xs) ∧
        Deque.PutsBack Deque.push d d₁ p w (xs ++ [x]))) ∧
    (∀ elemSize cmp h w, BinaryHeap.Reachable elemSize cmp allocator w₀ (h, w) →
      0 < h.size → h.size < 2 ^ 63 → ∃ xs ys p h₁ w₁ w', BinaryHeap.Stored h w xs ∧
        BinaryHeap.pop h w = .ok ((some p, h₁), w₁) ∧
        BinaryHeap.push h₁ (.inside p) w₁ = .ok ((.ok, h), w') ∧ BinaryHeap.Stored h w' ys ∧
        ys.Perm xs ∧ ((∀ c, cmp = some c → TotalPreorder elemSize c) →
          BinaryHeap.HeapOrdered cmp xs ∧ BinaryHeap.HeapOrdered cmp ys) ∧ w.Quiet w') := by
  refine ⟨fun elemSize capacity v w hreach hpos => ?_, fun elemSize d w hreach hpos => ?_,
    fun elemSize cmp h w hreach hpos hsmall => ?_⟩
  · obtain ⟨bs, h⟩ := Vector.reachable_holds hbacked hreach
    obtain ⟨p, v₁, w', bs', hpop, hpush, h', helements, hquiet⟩ := Vector.push_popped h hpos
    have hstored := h'.stored
    rw [helements] at hstored
    exact ⟨_, p, v₁, w', h.stored, hpop, hpush, hstored, hquiet⟩
  · obtain ⟨bs, h⟩ := Deque.reachable_holds hbacked hreach
    dsimp only at h
    obtain ⟨p, d₁, hleft, hback, hfront⟩ := Deque.popleft_putsBack h hpos
    obtain ⟨q, d₂, hright, hfront', hback'⟩ := Deque.popback_putsBack h hpos
    refine ⟨⟨_, _, p, d₁, ?_, hleft, hback, hfront⟩, ⟨_, _, q, d₂, ?_, hright, hfront', hback'⟩⟩
    · rw [(Deque.items_eq h).1, Deque.elements_cons h hpos]
    · rw [(Deque.items_eq h).1, Deque.elements_concat hpos]
  · obtain ⟨bs, hh⟩ := BinaryHeap.reachable_lives hbacked hreach
    dsimp only at hh
    obtain ⟨p, h₁, w₁, w', bs', hpop, hpush, hlies, hheaped, hperm, hquiet⟩ :=
      BinaryHeap.push_popped hh.lies hpos hsmall
    refine ⟨_, _, p, h₁, w₁, w', hh.lies.stored, hpop, hpush, hlies.stored, hperm, fun hcmp => ?_,
      hquiet⟩
    have hheap := hh.heaped (BinaryHeap.totalPreorder_getD hcmp)
    rw [← hh.cmp]
    exact ⟨hh.lies.heapOrdered hheap, hlies.heapOrdered (hheaped hheap)⟩

/-- A ring whose two ends are in the middle of its buffer, filled up. -/
def filled : List Deque.Op :=
  [.push (.outside [1]), .push (.outside [2]), .popleft] ++
    (List.range 15).map fun i => .push (.outside [UInt8.ofNat i])

theorem put_back_full : ∃ d w, Deque.Reachable 1 none Deque.stingy (d, w) ∧
    d.size = d.capacity ∧
    ∃ x xs p d₁, Deque.items d w = .ok (x :: xs) ∧ Deque.popleft d = .ok (some p, d₁) ∧
      Deque.PutsBack Deque.push d d₁ p w (xs ++ [x]) ∧
      Deque.PutsBack Deque.pushfront d d₁ p w (x :: xs) := by
  obtain ⟨d₀, w₀, hcreate⟩ : ∃ d w, Deque.create 1 none Deque.stingy = .ok ((.ok, some d), w) :=
    ⟨_, _, rfl⟩
  have hrun : Sat (Deque.create 1 none Deque.stingy) fun r => ∀ d, r.1.2 = some d →
      Sat (trace (Deque.container 1 none).step (d, r.2) filled) fun p =>
        p.2.1.size = p.2.1.capacity ∧ 0 < p.2.1.size := by
    refine ⟨_, rfl, ?_⟩
    rintro d hd
    cases hd
    decide +kernel
  obtain ⟨r, hr, hrun⟩ := hrun
  cases hcreate.symm.trans hr
  obtain ⟨⟨os, d, w⟩, htrace, hfull, hpos⟩ := hrun d₀ rfl
  have hreach : Deque.Reachable 1 none Deque.stingy (d, w) :=
    .of_trace filled (d₀, w₀) (d, w) os (.create hcreate) (along_of_forall (fun _ _ => trivial) _ _)
      htrace
  exact ⟨d, w, hreach, hfull, ((put_back (Backed.default _) Deque.stingy).2.1 1 d w hreach hpos).1⟩

end K4c
