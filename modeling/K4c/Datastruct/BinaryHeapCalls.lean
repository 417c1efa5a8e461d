import Mathlib.Tactic
import K4c.Datastruct.BinaryHeap
import K4c.Datastruct.VectorCalls
import K4c.Lib.HeapOrder

/-!
# What the binary heap calls do

The two sifts exchange elements of the vector below the heap, one pair at a time.
Each exchange keeps the multiset of the elements and moves the one place that is
out of order; what lies behind the heap, such as an element that was just popped,
stays as it is.

* `Lies` — a heap in memory, for whatever comparator; `Heaped` — its elements are in
  the order of a comparator that can be used.
* `siftUp_spec`, `siftDown_spec` — the sifts exchange elements, and restore an order.
* `push_spec`, `pop_spec` — the calls, on the elements.
-/

namespace K4c

open Exec Bytes Slots Blocks HeapOrder

namespace BinaryHeap

/-- `a` does not come after `b`. -/
def Le (h : BinaryHeap) (a b : List UInt8) : Prop :=
  h.compare (fit h.root.elemSize a) (fit h.root.elemSize b) ≤ 0

theorem le_preorder {h : BinaryHeap} (horder : TotalPreorder h.root.elemSize h.compare) :
    IsPreorder (List UInt8) h.Le where
  refl a := by
    have := horder.sign _ _ (length_fit h.root.elemSize a) (length_fit h.root.elemSize a)
    unfold Le
    omega
  trans a b c :=
    horder.trans _ _ _ (length_fit _ a) (length_fit _ b) (length_fit _ c)

/-! ## Heaps in memory -/

/-- The blocks of a heap. -/
def owned (h : BinaryHeap) : List ℕ := h.self :: h.root.owned

/-- The heap lies in the memory, with these bytes in the buffer of its vector. -/
structure Holds (h : BinaryHeap) (w : Memory) (bs : List UInt8) : Prop where
  root : Vector.Holds h.root w bs
  handle : w.Live h.self
  apart : h.self ∉ h.root.owned
  allocator : h.root.allocator = h.allocator
  order : TotalPreorder h.root.elemSize h.compare

/-- The heap lies in the memory, for whatever comparator. -/
structure Lies (h : BinaryHeap) (w : Memory) (bs : List UInt8) : Prop where
  root : Vector.Holds h.root w bs
  handle : w.Live h.self
  apart : h.self ∉ h.root.owned
  allocator : h.root.allocator = h.allocator

/-- The element at an index. -/
def nth (h : BinaryHeap) (bs : List UInt8) (i : ℕ) : List UInt8 := slot bs h.root.elemSize i

/-- The elements, in the order of the vector. -/
def elements (h : BinaryHeap) (bs : List UInt8) : List (List UInt8) := h.root.elements bs

/-- The comparator can be used, and the elements are in its order. -/
structure Heaped (h : BinaryHeap) (bs : List UInt8) : Prop where
  order : TotalPreorder h.root.elemSize h.compare
  ordered : Ordered h.Le (h.nth bs) h.root.size

variable {h h' : BinaryHeap} {w w' w₁ w₂ : Memory} {bs bs' cur : List UInt8} {i j k n : ℕ}

theorem Holds.lies (hh : Holds h w bs) : Lies h w bs :=
  ⟨hh.root, hh.handle, hh.apart, hh.allocator⟩

namespace Lies

theorem holds (hh : Lies h w bs) (horder : TotalPreorder h.root.elemSize h.compare) :
    Holds h w bs :=
  ⟨hh.root, hh.handle, hh.apart, hh.allocator, horder⟩

theorem live (hh : Lies h w bs) : ∀ p ∈ h.owned, w.Live p := by
  intro p hp
  rcases List.mem_cons.1 hp with rfl | hp
  · exact hh.handle
  · exact hh.root.live p hp

/-- In a memory that did not change. -/
theorem same (hh : Lies h w bs) (hcells : w'.cells = w.cells) : Lies h w' bs :=
  { hh with
    root := { hh.root with buffered := hh.root.buffered.same hcells }
    handle := by
      have := hh.handle
      rwa [Mem.Live, hcells] }

theorem length_nth (hh : Lies h w bs) (hi : i < h.root.capacity) :
    (h.nth bs i).length = h.root.elemSize := length_slot (hh.root.slot_end hi)

theorem le_iff (hh : Lies h w bs) (hi : i < h.root.capacity) (hj : j < h.root.capacity) :
    h.Le (h.nth bs i) (h.nth bs j) ↔ h.compare (h.nth bs i) (h.nth bs j) ≤ 0 := by
  rw [Le, fit_of_length (hh.length_nth hi), fit_of_length (hh.length_nth hj)]

end Lies

namespace Holds

/-- An element that does not come before another one comes after it or is equal. -/
theorem le_of_not_lt (hh : Holds h w bs) (hi : i < h.root.capacity) (hj : j < h.root.capacity)
    (hlt : ¬ h.compare (h.nth bs i) (h.nth bs j) < 0) : h.Le (h.nth bs j) (h.nth bs i) := by
  have := hh.order.sign _ _ (hh.lies.length_nth hi) (hh.lies.length_nth hj)
  rw [hh.lies.le_iff hj hi]
  omega

theorem not_lt_of_le (hh : Holds h w bs) (hi : i < h.root.capacity) (hj : j < h.root.capacity)
    (hle : h.Le (h.nth bs j) (h.nth bs i)) : ¬ h.compare (h.nth bs i) (h.nth bs j) < 0 := by
  have := hh.order.sign _ _ (hh.lies.length_nth hi) (hh.lies.length_nth hj)
  rw [hh.lies.le_iff hj hi] at hle
  omega

end Holds

/-! ## One exchange -/

/-- The bytes of the buffer have become `cur`: the first `n` elements are the same
ones, and those behind them are where they were. -/
structure Sifted (h : BinaryHeap) (n : ℕ) (w : Memory) (bs : List UInt8) (w' : Memory)
    (cur : List UInt8) : Prop where
  cells : w'.cells = Function.update w.cells h.root.buffer
    (some ⟨h.root.capacity * h.root.elemSize, .bytes cur⟩)
  length : cur.length = bs.length
  perm : ((List.range n).map (h.nth cur)).Perm ((List.range n).map (h.nth bs))
  rest : ∀ i, n ≤ i → h.nth cur i = h.nth bs i

theorem Sifted.refl (hh : Lies h w bs) : Sifted h n w bs w bs where
  cells := by rw [← hh.root.buffered.cell, Function.update_eq_self]
  length := rfl
  perm := List.Perm.refl _
  rest _ _ := rfl

theorem Sifted.trans (h₁ : Sifted h n w bs w₁ cur) (h₂ : Sifted h n w₁ cur w₂ bs') :
    Sifted h n w bs w₂ bs' where
  cells := by rw [h₂.cells, h₁.cells, Function.update_idem]
  length := h₂.length.trans h₁.length
  perm := h₂.perm.trans h₁.perm
  rest i hi := (h₂.rest i hi).trans (h₁.rest i hi)

theorem Sifted.lies (hs : Sifted h n w bs w' cur) (hh : Lies h w bs) : Lies h w' cur :=
  { hh with
    root := hh.root.written hs.length hs.cells
    handle := by
      have hne : h.self ≠ h.root.buffer := fun heq => hh.apart (by simp [Vector.owned, heq])
      have := hh.handle
      rwa [Mem.Live, hs.cells, Function.update_of_ne hne] }

theorem compareIdx_eq (hh : Lies h w bs) (hi : i < h.root.size) (hj : j < h.root.size) :
    compareIdx h i j w = .ok (h.compare (h.nth bs i) (h.nth bs j)) := by
  have hsize := hh.root.size_le
  rw [compareIdx, Vector.get_of_lt hh.root hi, ok_bind, Vector.get_of_lt hh.root hj, ok_bind,
    Vector.deref_of_lt hh.root (by omega), ok_bind, Vector.deref_of_lt hh.root (by omega), ok_bind]
  rfl

/-- **Exchanging two elements** of the heap. -/
theorem swapAt_spec (hh : Lies h w bs) (hi : i < h.root.size) (hj : j < h.root.size)
    (hne : i ≠ j) (hin : i < n) (hjn : j < n) :
    ∃ w' cur, swapAt h i j w = .ok w' ∧ Sifted h n w bs w' cur ∧
      h.nth cur = swapped (h.nth bs) i j := by
  have hsize := hh.root.size_le
  obtain ⟨w', cur, hswap, hex, hcells⟩ := Memory.memswap_spec hh.root.buffered.cell
    (slots_disjoint hne) (hh.root.slot_end (by omega : i < h.root.capacity))
    (hh.root.slot_end (by omega : j < h.root.capacity))
  have hat : h.nth cur = swapped (h.nth bs) i j := funext fun x => hex.slot hne x
  refine ⟨w', cur, ?_, ⟨hcells, hex.1, ?_, fun x hx => ?_⟩, hat⟩
  · rw [swapAt, Vector.get_of_lt hh.root hi, ok_bind, Vector.get_of_lt hh.root hj, ok_bind]
    exact hswap
  · rw [hat]
    exact swapped_perm hin hjn
  · rw [hat, swapped_of_ne (by omega) (by omega)]

/-! ## The sifts -/

/-- **Sifting up** exchanges elements, and restores an order in which one place is
out of order with its parent. -/
theorem siftUp_spec (hh : Lies h w bs) (hk : k < h.root.size) :
    ∃ w' cur, siftUp h k w = .ok w' ∧ Sifted h h.root.size w bs w' cur ∧
      (TotalPreorder h.root.elemSize h.compare ∧ UpExcept h.Le (h.nth bs) h.root.size k →
        Ordered h.Le (h.nth cur) h.root.size) := by
  set n := h.root.size with hn
  set P : Prop := TotalPreorder h.root.elemSize h.compare ∧ UpExcept h.Le (h.nth bs) n k with hP
  have hcap : n ≤ h.root.capacity := hh.root.size_le
  set I : ℕ × Memory → Prop := fun s => s.1 < n ∧ ∃ cur, Sifted h n w bs s.2 cur ∧
    (P → UpExcept h.Le (h.nth cur) n s.1) with hI
  have hround : ∀ s, I s → Sat (siftUpRound h s) (Round I (fun s => s.1)
      (fun w' => ∃ cur, Sifted h n w bs w' cur ∧ (P → Ordered h.Le (h.nth cur) n)) s) := by
    rintro ⟨idx, w₁⟩ ⟨hidx, cur, hs, hexcept⟩
    dsimp only at hidx hs hexcept
    by_cases hpos : idx > 0
    · have hp : parent idx < idx := parent_lt hpos
      have hh₁ := hs.lies hh
      have hbody : siftUpRound h (idx, w₁) = (compareIdx h idx (parent idx) w₁ >>= fun order =>
          if order ≥ 0 then .ok (.inr w₁)
          else swapAt h idx (parent idx) w₁ >>= fun w => .ok (.inl (parent idx, w))) := by
        rw [siftUpRound]
        exact if_pos hpos
      rw [hbody, compareIdx_eq hh₁ hidx (hp.trans hidx), ok_bind]
      by_cases hge : h.compare (h.nth cur idx) (h.nth cur (parent idx)) ≥ 0
      · refine ⟨.inr w₁, by rw [if_pos hge], cur, hs, fun hgood => ?_⟩
        apply (hexcept hgood).done
        intro _
        exact (hh₁.holds hgood.1).le_of_not_lt (by omega) (by omega) (by omega)
      · obtain ⟨w₂, cur', hswap, hs', hat⟩ :=
          swapAt_spec hh₁ hidx (hp.trans hidx) hp.ne' hidx (hp.trans hidx)
        refine ⟨.inl (parent idx, w₂), ?_, ⟨hp.trans hidx, cur', hs.trans hs', fun hgood => ?_⟩, hp⟩
        · rw [if_neg hge, hswap, ok_bind]
        · have hpre := le_preorder hgood.1
          rw [hat]
          apply (hexcept hgood).swap hpos hidx
          rw [hh₁.le_iff (by omega) (by omega)]
          omega
    · rw [siftUpRound]
      dsimp only
      rw [if_neg hpos]
      exact Sat.ok ⟨cur, hs, fun hgood => (hexcept hgood).done fun hpos' => by omega⟩
  have hstart : I (k, w) := ⟨hk, bs, .refl hh, fun hgood => hgood.2⟩
  obtain ⟨w', hloop, cur, hs, hordered⟩ :=
    loop_ok hround (k + 1) (k, w) hstart (Nat.lt_succ_self k)
  exact ⟨w', cur, hloop, hs, hordered⟩

/-- Of a candidate and the best place so far, the one whose element comes first. -/
theorem better_spec (hh : Lies h w bs) {c b : ℕ} (hn : n ≤ h.root.size) (hb : b < n) :
    ∃ r, better h n c b w = .ok r ∧ (r = c ∧ c < n ∨ r = b) ∧
      (TotalPreorder h.root.elemSize h.compare → h.Le (h.nth bs r) (h.nth bs b) ∧
        (c < n → h.Le (h.nth bs r) (h.nth bs c))) := by
  have hcap := hh.root.size_le
  rw [better]
  by_cases hc : c < n
  · rw [if_pos hc, compareIdx_eq hh (by omega) (by omega), ok_bind]
    by_cases hlt : h.compare (h.nth bs c) (h.nth bs b) < 0
    · refine ⟨c, by rw [if_pos hlt]; rfl, .inl ⟨rfl, hc⟩, fun horder => ⟨?_, fun _ => ?_⟩⟩
      · rw [hh.le_iff (by omega) (by omega)]
        omega
      · exact (le_preorder horder).refl _
    · refine ⟨b, by rw [if_neg hlt]; rfl, .inr rfl, fun horder => ⟨?_, fun _ => ?_⟩⟩
      · exact (le_preorder horder).refl _
      · exact (hh.holds horder).le_of_not_lt (by omega) (by omega) hlt
  · refine ⟨b, by rw [if_neg hc]; rfl, .inr rfl, fun horder => ⟨?_, fun hc' => absurd hc' hc⟩⟩
    exact (le_preorder horder).refl _

/-- **Sifting down** exchanges elements in a heap whose indices do not overflow, and
restores an order in which one place is out of order with its children. -/
theorem siftDown_spec (hh : Lies h w bs) (hk : k < h.root.size)
    (hsmall : 2 * h.root.size ≤ sizeMax) :
    ∃ w' cur, siftDown h k w = .ok w' ∧ Sifted h h.root.size w bs w' cur ∧
      (TotalPreorder h.root.elemSize h.compare ∧ DownExcept h.Le (h.nth bs) h.root.size k →
        Ordered h.Le (h.nth cur) h.root.size) := by
  rw [siftDown]
  set n := h.root.size with hn
  set P : Prop := TotalPreorder h.root.elemSize h.compare ∧ DownExcept h.Le (h.nth bs) n k with hP
  have hcap : n ≤ h.root.capacity := hh.root.size_le
  set I : ℕ × Memory → Prop := fun s => s.1 < n ∧ ∃ cur, Sifted h n w bs s.2 cur ∧
    (P → DownExcept h.Le (h.nth cur) n s.1) with hI
  have hround : ∀ s, I s → Sat (siftDownRound h n s) (Round I (fun s => n - s.1)
      (fun w' => ∃ cur, Sifted h n w bs w' cur ∧ (P → Ordered h.Le (h.nth cur) n)) s) := by
    rintro ⟨idx, w₁⟩ ⟨hidx, cur, hs, hexcept⟩
    dsimp only at hidx hs hexcept
    have hh₁ := hs.lies hh
    obtain ⟨b₁, hbetter₁, hb₁, hbest₁⟩ := better_spec hh₁ (c := 2 * idx + 1) hn.le hidx
    have hb₁n : b₁ < n := by omega
    obtain ⟨b₂, hbetter₂, hb₂, hbest₂⟩ := better_spec hh₁ (c := 2 * idx + 1 + 1) hn.le hb₁n
    -- the place that is found comes before both children
    have hfirst : P → ∀ i, 0 < i → i < n → parent i = idx → h.Le (h.nth cur b₂) (h.nth cur i) := by
      intro hgood i hi hin hpar
      obtain ⟨-, hleft⟩ := hbest₁ hgood.1
      obtain ⟨hle₂, hright⟩ := hbest₂ hgood.1
      rcases (parent_eq_iff hi).1 hpar with rfl | rfl
      · exact (le_preorder hgood.1).trans _ _ _ hle₂ (hleft hin)
      · exact hright hin
    have hbody : siftDownRound h n (idx, w₁) = (if b₂ = idx then .ok (.inr w₁)
        else swapAt h idx b₂ w₁ >>= fun w => .ok (.inl (b₂, w))) := by
      rw [siftDownRound, sizeMul_of_le (by omega), ok_bind, sizeAdd_of_le (by omega), ok_bind,
        sizeAdd_of_le (by omega), ok_bind, hbetter₁, ok_bind, hbetter₂, ok_bind]
      rfl
    rw [hbody]
    by_cases hstop : b₂ = idx
    · rw [if_pos hstop]
      rw [hstop] at hfirst
      exact Sat.ok ⟨cur, hs, fun hgood => (hexcept hgood).done (hfirst hgood)⟩
    · have hchild : idx < b₂ ∧ b₂ < n ∧ parent b₂ = idx := by
        have hpos : 0 < b₂ := by omega
        rw [parent_eq_iff hpos]
        omega
      obtain ⟨hlt, hb₂n, hpar⟩ := hchild
      obtain ⟨w₂, cur', hswap, hs', hat⟩ := swapAt_spec hh₁ hidx hb₂n hlt.ne hidx hb₂n
      have hless : n - b₂ < n - idx := by omega
      refine ⟨.inl (b₂, w₂), ?_, ⟨hb₂n, cur', hs.trans hs', fun hgood => ?_⟩, hless⟩
      · rw [if_neg hstop, hswap]
        rfl
      · have hle : h.Le (h.nth cur b₂) (h.nth cur idx) :=
          (le_preorder hgood.1).trans _ _ _ (hbest₂ hgood.1).1 (hbest₁ hgood.1).1
        rw [hat]
        exact (hexcept hgood).swap (by omega) hb₂n hpar hle (hfirst hgood)
  have hstart : I (k, w) := ⟨hk, bs, .refl hh, fun hgood => hgood.2⟩
  obtain ⟨w', hloop, cur, hs, hordered⟩ := loop_ok hround (n + 1) (k, w) hstart (by omega)
  exact ⟨w', cur, hloop, hs, hordered⟩

/-! ## The traffic of the calls -/

theorem swapAt_rewritten (hswap : swapAt h i j w = .ok w') : w.Rewritten w' := by
  obtain ⟨a, -, hswap⟩ := bind_eq_ok.1 hswap
  obtain ⟨b, -, hswap⟩ := bind_eq_ok.1 hswap
  split at hswap
  · exact Memory.memswap_rewritten hswap
  · cases hswap

theorem siftUp_rewritten (hsift : siftUp h k w = .ok w') : w.Rewritten w' := by
  refine loop_keeps (I := fun s => w.Rewritten s.2) ?_ _ _ _ (.refl w) hsift
  rintro ⟨idx, w₁⟩ o hkept hbody
  rw [siftUpRound] at hbody
  split at hbody
  · obtain ⟨order, -, hbody⟩ := bind_eq_ok.1 hbody
    split at hbody
    · cases hbody
      exact hkept
    · obtain ⟨w₂, hswap, hbody⟩ := bind_eq_ok.1 hbody
      cases hbody
      exact hkept.trans (swapAt_rewritten hswap)
  · cases hbody
    exact hkept

theorem siftDown_rewritten (hsift : siftDown h k w = .ok w') : w.Rewritten w' := by
  refine loop_keeps (I := fun s => w.Rewritten s.2) ?_ _ _ _ (.refl w) hsift
  rintro ⟨idx, w₁⟩ o hkept hbody
  obtain ⟨twice, -, hbody⟩ := bind_eq_ok.1 hbody
  obtain ⟨left, -, hbody⟩ := bind_eq_ok.1 hbody
  obtain ⟨right, -, hbody⟩ := bind_eq_ok.1 hbody
  obtain ⟨best₁, -, hbody⟩ := bind_eq_ok.1 hbody
  obtain ⟨best₂, -, hbody⟩ := bind_eq_ok.1 hbody
  split at hbody
  · cases hbody
    exact hkept
  · obtain ⟨w₂, hswap, hbody⟩ := bind_eq_ok.1 hbody
    cases hbody
    exact hkept.trans (swapAt_rewritten hswap)

theorem pop_rewritten {p : Option Ptr} (hpop : pop h w = .ok ((p, h'), w')) : w.Rewritten w' := by
  unfold pop at hpop
  split at hpop
  · cases hpop
    exact .refl w
  · split at hpop
    · obtain ⟨r, -, hpop⟩ := bind_eq_ok.1 hpop
      cases hpop
      exact .refl w
    · obtain ⟨last, -, hpop⟩ := bind_eq_ok.1 hpop
      obtain ⟨w₁, hswap, hpop⟩ := bind_eq_ok.1 hpop
      obtain ⟨r, -, hpop⟩ := bind_eq_ok.1 hpop
      obtain ⟨w₂, hsift, hpop⟩ := bind_eq_ok.1 hpop
      cases hpop
      exact (swapAt_rewritten hswap).trans (siftDown_rewritten hsift)

/-! ## Construction and destruction -/

/-- What a call keeps of the record, and what it does to the blocks. -/
structure Changed (h h' : BinaryHeap) (w w' : Memory) : Prop where
  elemSize : h'.root.elemSize = h.root.elemSize
  cmp : h'.cmp = h.cmp
  allocator : h'.allocator = h.allocator
  exchange : Exchange (Reclaims h.allocator) h.owned h'.owned w w'

/-- **Creating a heap** fails with everything it allocated released, or gives an
empty heap in three new blocks. -/
theorem create_spec {elemSize : ℕ} (cmp : Option (List UInt8 → List UInt8 → ℤ))
    {allocator : Option (Allocator Memory)} (hbacked : Backed (Allocator.copy allocator))
    (helem : 0 < elemSize) (w : Memory) :
    ∃ st out w', create elemSize cmp allocator w = .ok ((st, out), w') ∧
      Creates (Reclaims (Allocator.copy allocator)) w owned
        (fun h w' => (∃ bs, Lies h w' bs) ∧ h.root.size = 0 ∧ h.root.elemSize = elemSize ∧
          h.cmp = cmp ∧ h.root.capacity = Vector.defaultCapacity ∧
          h.allocator = Allocator.copy allocator) st out w' := by
  have hpayload : ∀ w, ∃ st x w',
      Vector.create elemSize (some (Allocator.copy allocator)) w = .ok ((st, x), w') ∧
      ((st ≠ .ok ∧ Exchange (Reclaims (Allocator.copy allocator)) [] [] w w') ∨
        (st = .ok ∧ Exchange (Reclaims (Allocator.copy allocator)) []
            ((x.map Vector.owned).getD []) w w' ∧
          ∃ v, x = some v ∧ (∃ bs, Vector.Holds v w' bs) ∧ v.size = 0 ∧ v.elemSize = elemSize ∧
            v.capacity = Vector.defaultCapacity ∧ v.allocator = Allocator.copy allocator)) := by
    intro w
    obtain ⟨st, out, w', hcreate, hres⟩ := Vector.createWithCapacity_spec
      (show Backed (Allocator.copy (some (Allocator.copy allocator))) from hbacked) helem
      (by decide : 0 < Vector.defaultCapacity) w
    refine ⟨st, out, w', hcreate, ?_⟩
    rcases hres with ⟨hst, rfl, hx⟩ | ⟨rfl, v, rfl, hx, hv, hsize, hes, hcap, hal⟩
    · exact .inl ⟨hst, hx⟩
    · exact .inr ⟨rfl, hx, v, rfl, hv, hsize, hes, hcap, hal⟩
  obtain ⟨st, out, w', hcreate, hres⟩ := createOwner_spec (n := handleSize) (r := allocator)
    (f := fun copy w => Vector.create elemSize (some copy) w)
    (o := fun x => (x.map Vector.owned).getD []) hbacked rfl hpayload w
  rw [create, check_of helem, ok_bind, hcreate]
  refine ⟨_, _, w', rfl, ?_⟩
  rcases hres with ⟨hst, rfl, hx⟩ |
    ⟨rfl, ⟨self, _⟩, rfl, hx, ⟨v, rfl, ⟨bs, hv⟩, hsize, hes, hcap, hal⟩, hapart⟩
  · exact .inl ⟨hst, rfl, hx⟩
  · exact .inr ⟨rfl, _, rfl, hx, ⟨bs, hv, hx.held _ (by simp), hapart, hal⟩, hsize, hes, rfl, hcap,
      rfl⟩

/-- **Destroying a heap** releases its three blocks. -/
theorem destroy_spec (hh : Lies h w bs) :
    ∃ w', destroy h w = .ok w' ∧ Exchange (Reclaims h.allocator) h.owned [] w w' := by
  obtain ⟨w₁, hdestroy, hx⟩ := Vector.destroy_spec hh.root
  rw [hh.allocator] at hx
  have hframe : Exchange (Reclaims h.allocator) h.owned [h.self] w w₁ :=
    hx.frame (r := [h.self]) (by simpa using hh.handle) (by simpa using hh.apart)
  have hbacked : Backed h.allocator := hh.allocator ▸ hh.root.buffered.backed
  obtain ⟨w₂, hdealloc, hcells⟩ :=
    Allocator.dealloc_spec hbacked (hframe.held h.self (by simp))
  refine ⟨w₂, by rw [destroy, hdestroy, ok_bind, hdealloc], ?_⟩
  exact hframe.trans (.drop (by simp) (by simp) hcells)

/-! ## The calls -/

/-- The vector below the heap was changed by one of its own calls. -/
theorem Lies.changeRoot (hh : Lies h w bs) {v : Vector} (hv : Vector.Holds v w' bs')
    (hc : Vector.Changed h.root v w w') :
    Lies { h with root := v } w' bs' ∧ Changed h { h with root := v } w w' := by
  have hx := hc.exchange
  rw [hh.allocator] at hx
  obtain ⟨c, hcell⟩ := Mem.live_iff.1 hh.handle
  obtain ⟨hcell', hapart⟩ := hx.others _ c hcell hh.apart
  refine ⟨⟨hv, Mem.live_of hcell', hapart, hc.allocator.trans hh.allocator⟩,
    hc.elemSize, rfl, rfl, ?_⟩
  exact hx.frame (r := [h.self]) (by simpa using hh.handle) (by simpa using hh.apart)

theorem Sifted.changed (hs : Sifted h n w bs w' cur) (hh : Lies h w bs) : Changed h h w w' :=
  ⟨rfl, rfl, rfl, .write hh.live (by simp [owned, Vector.owned]) hs.cells⟩

theorem Changed.trans {h'' : BinaryHeap} (hc : Changed h h' w w₁) (hc' : Changed h' h'' w₁ w₂) :
    Changed h h'' w w₂ where
  elemSize := hc'.elemSize.trans hc.elemSize
  cmp := hc'.cmp.trans hc.cmp
  allocator := hc'.allocator.trans hc.allocator
  exchange := hc.exchange.trans (hc.allocator ▸ hc'.exchange)

theorem elements_eq : h.elements bs = (List.range h.root.size).map (h.nth bs) := rfl

/-- What becomes of the heap when its vector has taken a push. -/
theorem push_of_root (hh : Lies h w bs) {element : Arg} {e : List UInt8} {st : Status}
    {v : Vector} (hne : element ≠ .null)
    (hpush : Vector.push h.root element w = .ok ((st, v), w₁))
    (hres : (st ≠ .ok ∧ v = h.root ∧ w₁.cells = w.cells) ∨
      (st = .ok ∧ ∃ bs₁, Vector.Holds v w₁ bs₁ ∧ v.size = h.root.size + 1 ∧
        v.elements bs₁ = h.root.elements bs ++ [e] ∧ Vector.Changed h.root v w w₁)) :
    ∃ h' w', push h element w = .ok ((st, h'), w') ∧
      ((st ≠ .ok ∧ h' = h ∧ w'.cells = w.cells) ∨
        (st = .ok ∧ h' = { h with root := v } ∧ w₁.Quiet w' ∧ ∃ bs', Lies h' w' bs' ∧
          (Heaped h bs → Heaped h' bs') ∧ (h'.elements bs').Perm (e :: h.elements bs) ∧
          Changed h h' w w')) := by
  rw [push, check_of hne, ok_bind, hpush, ok_bind]
  rcases hres with ⟨hst, rfl, hcells⟩ | ⟨rfl, bs₁, hv, hsize, helements, hchanged⟩
  · exact ⟨h, w₁, by simp only [ne_eq, hst, not_false_eq_true, if_true, pure_eq_ok],
      .inl ⟨hst, rfl, hcells⟩⟩
  obtain ⟨hh₁, hc₁⟩ := hh.changeRoot hv hchanged
  set h₁ : BinaryHeap := { h with root := v } with hh₁def
  have hsize₁ : h₁.root.size = h.root.size + 1 := hsize
  have helem₁ : h₁.root.elemSize = h.root.elemSize := hchanged.elemSize
  have hold : ∀ i < h.root.size, h₁.nth bs₁ i = h.nth bs i := by
    intro i hi
    have hget : (v.elements bs₁)[i]? = (h.root.elements bs ++ [e])[i]? := by rw [helements]
    rw [List.getElem?_append_left (by rw [Vector.elements, length_slots]; exact hi),
      Vector.elements, Vector.elements, getElem?_slots, getElem?_slots, if_pos (by omega),
      if_pos hi] at hget
    exact Option.some.inj hget
  have hup : Heaped h bs → UpExcept h₁.Le (h₁.nth bs₁) h₁.root.size h.root.size := by
    intro hheap
    rw [hsize₁]
    refine UpExcept.push (f := h.nth bs) ?_ hold
    intro i hpos hi
    have hle := hheap.ordered i hpos hi
    unfold Le at hle ⊢
    rwa [helem₁]
  obtain ⟨w₂, cur, hsift, hs, hordered⟩ := siftUp_spec hh₁ (by omega : h.root.size < h₁.root.size)
  refine ⟨h₁, w₂, ?_, .inr ⟨rfl, rfl, (siftUp_rewritten hsift).toQuiet, cur, hs.lies hh₁,
    fun hheap => ?_, ?_, hc₁.trans (hs.changed hh₁)⟩⟩
  · have hlast : sizeSub h₁.root.size 1 = .ok h.root.size := by
      rw [sizeSub_of_le (by omega), hsize₁, Nat.add_sub_cancel]
    change (sizeSub h₁.root.size 1 >>= _) = _
    rw [hlast, ok_bind]
    change (siftUp h₁ h.root.size w₁ >>= _) = _
    rw [hsift]
    rfl
  · have horder : TotalPreorder h₁.root.elemSize h₁.compare := by
      rw [helem₁]
      exact hheap.order
    exact ⟨horder, hordered ⟨horder, hup hheap⟩⟩
  · have hperm : (h₁.elements cur).Perm (h₁.elements bs₁) := hs.perm
    rw [show h₁.elements bs₁ = h.elements bs ++ [e] from helements] at hperm
    exact hperm.trans (List.perm_append_singleton e _)

/-- **A push** fails without an effect, or adds the element and restores the order. -/
theorem push_spec (hh : Lies h w bs) {element : Arg} {e : List UInt8}
    (he : h.root.Takes w element e) :
    ∃ st h' w', push h element w = .ok ((st, h'), w') ∧
      ((st ≠ .ok ∧ h' = h ∧ w'.cells = w.cells) ∨
        (st = .ok ∧ ∃ bs', Lies h' w' bs' ∧ (Heaped h bs → Heaped h' bs') ∧
          (h'.elements bs').Perm (e :: h.elements bs) ∧ Changed h h' w w')) := by
  obtain ⟨st, v, w₁, hpush, hres⟩ := Vector.push_spec hh.root he
  obtain ⟨h', w', hheap, hout⟩ := push_of_root hh he.ne_null hpush hres
  refine ⟨st, h', w', hheap, ?_⟩
  rcases hout with hfail | ⟨rfl, -, -, hrest⟩
  · exact .inl hfail
  · exact .inr ⟨rfl, hrest⟩

/-- A push that succeeded: the vector took what the argument read as. -/
def Copied (h : BinaryHeap) (w : Memory) (bs : List UInt8) (element : Arg) (h' : BinaryHeap)
    (w' : Memory) : Prop :=
  ∃ v₁ w₁ e bs', Vector.makeRoom h.root w = .ok ((.ok, v₁), w₁) ∧
    element.Copies w₁ ⟨v₁.buffer, v₁.size * v₁.elemSize⟩ v₁.elemSize e ∧
    h' = { h with root := { v₁ with size := v₁.size + 1 } } ∧ Lies h' w' bs' ∧
    (Heaped h bs → Heaped h' bs') ∧ (h'.elements bs').Perm (e :: h.elements bs) ∧
    Changed h h' w w' ∧ w₁.Quiet w'

/-- **A push that returned**, whatever the argument was. -/
theorem push_returned (hh : Lies h w bs) {element : Arg} {st : Status}
    (hpush : push h element w = .ok ((st, h'), w')) :
    (st ≠ .ok ∧ h' = h ∧ w'.cells = w.cells) ∨ (st = .ok ∧ Copied h w bs element h' w') := by
  obtain ⟨_, hcheck, hrest⟩ := bind_eq_ok.1 hpush
  have hne : element ≠ .null := check_eq_ok.1 hcheck
  obtain ⟨⟨⟨st₁, v⟩, w₁⟩, hroot, -⟩ := bind_eq_ok.1 hrest
  rcases Vector.push_returned hh.root hroot with
    hfail | ⟨rfl, v₁, w₀, e, bs₁, hroom, he, rfl, hv, helements, hchanged, hquiet⟩
  · obtain ⟨_, _, hheap, hout⟩ := push_of_root (e := []) hh hne hroot (.inl hfail)
    cases hpush.symm.trans hheap
    rcases hout with hout | ⟨rfl, -⟩
    · exact .inl hout
    · exact absurd rfl hfail.1
  · have hsize : v₁.size + 1 = h.root.size + 1 := by
      have := congrArg List.length helements
      simpa [Vector.elements] using this
    obtain ⟨_, _, hheap, hout⟩ :=
      push_of_root hh hne hroot (.inr ⟨rfl, bs₁, hv, hsize, helements, hchanged⟩)
    cases hpush.symm.trans hheap
    rcases hout with hout | ⟨-, rfl, hquiet₂, bs', hh', hheaped, hperm, hchanged₂⟩
    · exact absurd rfl hout.1
    · exact .inr ⟨rfl, v₁, w₀, e, bs', hroom, he, rfl, hh', hheaped, hperm, hchanged₂,
        hquiet.trans hquiet₂⟩

/-- The place of the last element. -/
def last (h : BinaryHeap) : Ptr := ⟨h.root.buffer, (h.root.size - 1) * h.root.elemSize⟩

/-- The heap with one element less. -/
def shortened (h : BinaryHeap) : BinaryHeap :=
  { h with root := { h.root with size := h.root.size - 1 } }

/-- The last element is dropped. -/
theorem Lies.shortened (hh : Lies h w bs) :
    Lies h.shortened w bs ∧ Changed h h.shortened w w :=
  hh.changeRoot (hh.root.resized ((Nat.sub_le ..).trans hh.root.size_le))
    (hh.root.changed_same rfl)

/-- What a pop takes, and what it leaves. -/
structure Popped (h : BinaryHeap) (w : Memory) (bs : List UInt8) (w' : Memory) (bs' : List UInt8) :
    Prop where
  lies : Lies h.shortened w' bs'
  heaped : Heaped h bs → Heaped h.shortened bs'
  read : w'.read h.last.block h.last.offset h.root.elemSize = .ok (h.nth bs 0)
  perm : (h.elements bs).Perm (h.nth bs 0 :: h.shortened.elements bs')
  changed : Changed h h.shortened w w'

/-- A pop of the only element. -/
theorem pop_single (hh : Lies h w bs) (hone : h.root.size = 1) :
    pop h w = .ok ((some h.last, h.shortened), w) ∧ Popped h w bs w bs := by
  have hpos : 0 < h.root.size := by omega
  have hzero : h.root.size - 1 = 0 := by omega
  obtain ⟨hh', hchanged⟩ := hh.shortened
  refine ⟨?_, hh', fun hheap => ⟨hheap.order, fun i hi hin => ?_⟩, ?_, ?_, hchanged⟩
  · rw [pop, if_neg hpos.ne', if_pos hone, Vector.pop_of_pos hh.root hpos]
    rfl
  · change i < h.root.size - 1 at hin
    omega
  · change w.read h.root.buffer ((h.root.size - 1) * h.root.elemSize) h.root.elemSize = _
    rw [hzero]
    have hcap := hh.root.size_le
    exact Memory.read_eq hh.root.buffered.cell (hh.root.slot_end (by omega))
  · rw [elements_eq, elements_eq, hone, show h.shortened.root.size = 0 from hzero]
    exact List.Perm.refl _

/-- A pop where elements remain: the last one goes to the root, and down. -/
theorem pop_many (hh : Lies h w bs) (hmany : 1 < h.root.size) (hsmall : h.root.size < 2 ^ 63) :
    ∃ w' bs', pop h w = .ok ((some h.last, h.shortened), w') ∧ Popped h w bs w' bs' := by
  have hcap := hh.root.size_le
  obtain ⟨n, hn⟩ : ∃ n, h.root.size = n + 1 := ⟨h.root.size - 1, by omega⟩
  have hlast : h.shortened.root.size = n := by
    change h.root.size - 1 = n
    omega
  obtain ⟨w₁, cur, hswap, hs, hnth⟩ :=
    swapAt_spec hh (n := h.root.size) (i := 0) (j := n) (by omega) (by omega) (by omega) (by omega)
      (by omega)
  obtain ⟨hh₂, hc₂⟩ := (hs.lies hh).shortened
  obtain ⟨w₂, cur', hsift, hs', hordered⟩ :=
    siftDown_spec hh₂ (show 0 < h.shortened.root.size by omega)
      (by rw [hlast]; unfold sizeMax; omega)
  have hh₃ := hs'.lies hh₂
  have hstill : h.nth cur' n = h.nth bs 0 := by
    have hrest : h.nth cur' n = h.nth cur n := hs'.rest n hlast.le
    rw [hrest, hnth, swapped_right]
  refine ⟨w₂, cur', ?_, hh₃, fun hheap => ⟨hheap.order, hordered ⟨hheap.order, ?_⟩⟩, ?_, ?_,
    (hs.changed hh).trans (hc₂.trans (hs'.changed hh₂))⟩
  · rw [pop, if_neg (by omega), if_neg hmany.ne', sizeSub_of_le (by omega), ok_bind, hn,
      Nat.add_sub_cancel, hswap, ok_bind, Vector.pop_of_pos hh.root (by omega), ok_bind]
    change (siftDown h.shortened 0 w₁ >>= _) = _
    rw [hsift]
    rfl
  · have hordered₀ := hheap.ordered
    rw [hn] at hordered₀
    rw [hlast]
    change DownExcept h.Le (h.nth cur) n 0
    rw [hnth]
    exact .swapLast hordered₀
  · rw [← hstill, last, hn, Nat.add_sub_cancel]
    exact Memory.read_eq hh₃.root.buffered.cell
      (hh₃.root.slot_end (by change n < h.root.capacity; omega))
  · have hsifted := hs'.perm.symm
    rw [hlast] at hsifted
    rw [elements_eq, elements_eq, hn, hlast]
    refine (swapped_last_perm (h.nth bs) n).trans (List.Perm.cons _ ?_)
    rw [← hnth]
    exact hsifted

/-- **A pop** of a non-empty heap takes its first element and restores the order; the
place it returns still holds that element. -/
theorem pop_spec (hh : Lies h w bs) (hpos : 0 < h.root.size) (hsmall : h.root.size < 2 ^ 63) :
    ∃ w' bs', pop h w = .ok ((some h.last, h.shortened), w') ∧ Popped h w bs w' bs' := by
  by_cases hone : h.root.size = 1
  · exact ⟨w, bs, pop_single hh hone⟩
  · exact pop_many hh (by omega) hsmall

end BinaryHeap

end K4c
