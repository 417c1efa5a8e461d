import Mathlib.Tactic
import K4c.Datastruct.ArenaSizes

/-!
# Calls over a monitored arena

What vectors, heaps and strings do over the view of an arena, they do over the one that
looks at every request: `call_monitored`, `create_monitored`, `destroy_monitored`.  All
that a call needs for it is that the block which it may resize has the size that the
record tells: `Sized`.
-/

namespace K4c

open Exec Blocks Arena

variable [Platform]

/-- A constructor whose second part makes the same over both views makes the same. -/
theorem createOwner_monitored {ρ : Type} {n : ℕ} (hn : 0 < n)
    {f g : Allocator Memory → Memory → Result ((Status × ρ) × Memory)} {φ : ρ → ρ}
    (hf : ∀ w, f (monitored false) w = (g blockView w).map fun r => ((r.1.1, φ r.1.2), r.2))
    (w : Memory) :
    createOwner n f (some (monitored false)) (some (monitored false)) w =
      (createOwner n g (some blockView) (some blockView) w).map fun r =>
        ((r.1.1, r.1.2.map (Prod.map id φ)), r.2) := by
  rw [createOwner, createOwner, alloc_monitored false w hn, bind_then_map]
  refine bind_congr fun r => ?_
  obtain ⟨⟨st, self⟩, w₁⟩ := r
  dsimp only
  split
  · rfl
  change (f (monitored false) w₁ >>= _) = _
  rw [hf, map_then_bind, bind_then_map]
  refine bind_congr fun r => ?_
  obtain ⟨⟨st, owned⟩, w₂⟩ := r
  dsimp only
  split <;> rfl

namespace Vector

/-- The vector with another allocator. -/
abbrev under (a : Allocator Memory) (v : Vector) : Vector := { v with allocator := a }

variable {v v' : Vector} {w w' : Memory} (releases : Bool)

theorem reserve_monitored (hs : Sized v w) (capacity : ℕ) :
    reserve (v.under (monitored releases)) capacity w =
      (reserve v capacity w).map fun r => ((r.1.1, r.1.2.under (monitored releases)), r.2) := by
  by_cases hle : capacity ≤ v.capacity
  · simp only [reserve, under, if_pos hle]
    rfl
  simp only [reserve, under, if_neg hle]
  cases hmul : sizeMulOverflow capacity v.elemSize with
  | none => rfl
  | some allocSize =>
    obtain ⟨rfl, -⟩ := sizeMulOverflow_eq_some.1 hmul
    have hmore : v.capacity * v.elemSize ≤ capacity * v.elemSize :=
      Nat.mul_le_mul_right _ (by omega)
    have hpos : 0 < capacity * v.elemSize := Nat.mul_pos (by omega) hs.elem_pos
    dsimp only
    rw [resize_monitored releases hs.buffer hpos hmore, hs.allocator, bind_then_map]
    refine bind_congr fun r => ?_
    obtain ⟨⟨st, q⟩, w'⟩ := r
    dsimp only
    split <;> rfl

theorem makeRoom_monitored (hs : Sized v w) :
    makeRoom (v.under (monitored releases)) w =
      (makeRoom v w).map fun r => ((r.1.1, r.1.2.under (monitored releases)), r.2) := by
  by_cases hfull : v.size = v.capacity
  · simp only [makeRoom, under, if_pos hfull]
    cases hadd : sizeAddOverflow v.size 1 with
    | none => rfl
    | some minCapacity =>
      dsimp only
      rw [bind_then_map]
      refine bind_congr fun r => ?_
      obtain ⟨st, next⟩ := r
      dsimp only
      split
      · rfl
      · exact reserve_monitored releases hs next
  · simp only [makeRoom, under, if_neg hfull]
    rfl

theorem push_monitored (hs : Sized v w) (element : Arg) :
    push (v.under (monitored releases)) element w =
      (push v element w).map fun r => ((r.1.1, r.1.2.under (monitored releases)), r.2) := by
  rw [push, push, bind_then_map]
  refine bind_congr fun _ => ?_
  rw [makeRoom_monitored releases hs, map_then_bind, bind_then_map]
  refine bind_congr fun r => ?_
  obtain ⟨⟨st, v'⟩, w'⟩ := r
  dsimp only
  split
  · rfl
  · simp only [bind_then_map]
    rfl

omit [Platform] in
theorem pop_under (a : Allocator Memory) (v : Vector) :
    pop (v.under a) = (pop v).map fun r => (r.1, r.2.under a) := by
  by_cases hzero : v.size = 0
  · simp only [pop, under, if_pos hzero]
    rfl
  · simp only [pop, under, if_neg hzero, bind_then_map]
    rfl

omit [Platform] in
theorem swapRemove_under (a : Allocator Memory) (v : Vector) (index : ℕ) (w : Memory) :
    swapRemove (v.under a) index w =
      (swapRemove v index w).map fun r => ((r.1.1, r.1.2.under a), r.2) := by
  by_cases hge : index ≥ v.size
  · simp only [swapRemove, under, if_pos hge]
    rfl
  · simp only [swapRemove, under, if_neg hge, bind_then_map]
    refine bind_congr fun slot => bind_congr fun last => ?_
    split
    · simp only [bind_then_map]
      rfl
    · rfl

/-- **Every call** of a vector does the same over the monitored arena. -/
theorem call_monitored (hs : Sized v w) (c : Op) :
    call (v.under (monitored releases), w) c =
      (call (v, w) c).map fun s => (s.1.under (monitored releases), s.2) := by
  cases c with
  | push element =>
    simp only [call, push_monitored releases hs, map_then_bind, bind_then_map]
    rfl
  | pop =>
    simp only [call, pop_under, map_then_bind, bind_then_map]
    rfl
  | swapRemove index =>
    simp only [call, swapRemove_under, map_then_bind, bind_then_map]
    rfl
  | reserve capacity =>
    simp only [call, reserve_monitored releases hs, map_then_bind, bind_then_map]
    rfl
  | field => rfl
  | get index =>
    simp only [call, bind_then_map]
    rfl
  | lowerBound key cmp =>
    simp only [call, bind_then_map]
    rfl
  | upperBound key cmp =>
    simp only [call, bind_then_map]
    rfl
  | binarySearch key cmp =>
    simp only [call, bind_then_map]
    rfl
  | iterate =>
    simp only [call, bind_then_map]
    rfl

/-! ### Construction and destruction -/

theorem createWithCapacity_monitored (elemSize capacity : ℕ) (w : Memory) :
    createWithCapacity elemSize capacity (some (monitored false)) w =
      (createWithCapacity elemSize capacity (some blockView) w).map fun r =>
        ((r.1.1, r.1.2.map (under (monitored false))), r.2) := by
  rw [createWithCapacity, createWithCapacity, bind_then_map]
  by_cases helem : elemSize > 0
  swap
  · rw [check, if_neg helem]
    rfl
  by_cases hcap : capacity > 0
  swap
  · rw [check, check, if_pos helem, if_neg hcap]
    rfl
  rw [check_of helem, check_of hcap]
  simp only [ok_bind]
  cases hmul : sizeMulOverflow elemSize capacity with
  | none => rfl
  | some allocSize =>
    obtain ⟨rfl, -⟩ := sizeMulOverflow_eq_some.1 hmul
    set payload := fun (copy : Allocator Memory) (w : Memory) =>
      Allocator.alloc Memory.libc (some copy) w (elemSize * capacity) with hpayload
    have halloc : ∀ w, payload (monitored false) w =
        (payload blockView w).map fun r => ((r.1.1, id r.1.2), r.2) := fun w => by
      rw [hpayload]
      dsimp only
      rw [alloc_monitored false w (Nat.mul_pos helem hcap)]
      exact (congrFun Except.map_id _).symm
    change (createOwner _ payload (some (monitored false)) (some (monitored false)) w >>= _) = _
    rw [createOwner_monitored (by decide) halloc, map_then_bind, bind_then_map]
    refine bind_congr fun r => ?_
    obtain ⟨⟨st, out⟩, w'⟩ := r
    cases out <;> rfl

theorem destroy_monitored (ha : v.allocator = blockView) (w : Memory) :
    destroy (v.under (monitored false)) w = destroy v w := by
  rw [destroy, destroy, ha]
  rfl

end Vector

namespace BinaryHeap

/-- The heap, and its vector, with another allocator. -/
abbrev under (a : Allocator Memory) (h : BinaryHeap) : BinaryHeap :=
  { h with root := h.root.under a, allocator := a }

variable {h h' : BinaryHeap} {w w' : Memory} (releases : Bool)

theorem push_monitored (hs : Vector.Sized h.root w) (element : Arg) :
    push (h.under (monitored releases)) element w =
      (push h element w).map fun r => ((r.1.1, r.1.2.under (monitored releases)), r.2) := by
  rw [push, push, bind_then_map]
  refine bind_congr fun _ => ?_
  rw [Vector.push_monitored releases hs, map_then_bind, bind_then_map]
  refine bind_congr fun r => ?_
  obtain ⟨⟨st, v⟩, w'⟩ := r
  dsimp only
  split
  · rfl
  · simp only [bind_then_map]
    rfl

omit [Platform] in
theorem pop_under (a : Allocator Memory) (h : BinaryHeap) (w : Memory) :
    pop (h.under a) w = (pop h w).map fun r => ((r.1.1, r.1.2.under a), r.2) := by
  unfold pop
  split
  · rfl
  · split
    · rw [Vector.pop_under, map_then_bind, bind_then_map]
      rfl
    · simp only [bind_then_map, Vector.pop_under, map_then_bind]
      rfl

/-- **Every call** of a heap does the same over the monitored arena. -/
theorem call_monitored (hs : Vector.Sized h.root w) (c : Op) :
    call (h.under (monitored releases), w) c =
      (call (h, w) c).map fun s => (s.1.under (monitored releases), s.2) := by
  cases c with
  | push element =>
    simp only [call, push_monitored releases hs, map_then_bind, bind_then_map]
    rfl
  | pop =>
    simp only [call, pop_under, map_then_bind, bind_then_map]
    rfl
  | peek =>
    simp only [call, bind_then_map]
    rfl
  | size => rfl
  | iterate =>
    simp only [call, bind_then_map]
    rfl

theorem create_monitored (elemSize : ℕ) (cmp : Option (List UInt8 → List UInt8 → ℤ))
    (w : Memory) :
    create elemSize cmp (some (monitored false)) w =
      (create elemSize cmp (some blockView) w).map fun r =>
        ((r.1.1, r.1.2.map (under (monitored false))), r.2) := by
  rw [create, create, bind_then_map]
  refine bind_congr fun _ => ?_
  set payload := fun (copy : Allocator Memory) (w : Memory) =>
    Vector.create elemSize (some copy) w with hpayload
  have hcreate : ∀ w, payload (monitored false) w = (payload blockView w).map fun r =>
      ((r.1.1, r.1.2.map (Vector.under (monitored false))), r.2) := fun w =>
    Vector.createWithCapacity_monitored elemSize Vector.defaultCapacity w
  rw [createOwner_monitored (by decide) hcreate, map_then_bind, bind_then_map]
  refine bind_congr fun r => ?_
  obtain ⟨⟨st, out⟩, w'⟩ := r
  rcases out with - | ⟨self, - | root⟩ <;> rfl

theorem destroy_monitored (hs : Sized h w) :
    destroy (h.under (monitored false)) w = destroy h w := by
  rw [destroy, destroy, Vector.destroy_monitored hs.root.allocator, hs.allocator]
  rfl

end BinaryHeap

namespace StringHeader

/-- The string with another allocator. -/
abbrev under (a : Allocator Memory) (s : StringHeader) : StringHeader := { s with allocator := a }

variable {s s' : StringHeader} {w w' : Memory} (releases : Bool)

theorem ensureCapacity_monitored (hs : Sized s w) (len : ℕ) :
    ensureCapacity (s.under (monitored releases)) len w =
      (ensureCapacity s len w).map fun r => ((r.1.1, r.1.2.under (monitored releases)), r.2) := by
  by_cases hlt : len < s.capacity
  · simp only [ensureCapacity, under, if_pos hlt]
    rfl
  simp only [ensureCapacity, under, if_neg hlt]
  rcases capacityFor_spec len with hfor | ⟨capacity, hfor, hcapacity, hmax⟩
  · rw [hfor]
    rfl
  simp only [hfor, ok_bind, ne_eq, not_true_eq_false, if_false]
  cases hadd : sizeAddOverflow headerSize capacity with
  | none => rfl
  | some allocSize =>
    obtain ⟨rfl, -⟩ := (sizeAddOverflow_eq_some hmax).1 hadd
    dsimp only
    rw [resize_monitored releases hs.block (by unfold headerSize; omega) (by omega), hs.allocator,
      bind_then_map]
    refine bind_congr fun r => ?_
    obtain ⟨⟨st, q⟩, w'⟩ := r
    dsimp only
    split <;> rfl

theorem append_monitored (hs : Sized s w) (suffix : Arg) :
    append (s.under (monitored releases)) suffix w =
      (append s suffix w).map fun r => ((r.1.1, r.1.2.under (monitored releases)), r.2) := by
  rw [append, append, bind_then_map]
  refine bind_congr fun _ => ?_
  rw [bind_then_map]
  refine bind_congr fun suffixLen => ?_
  split
  · rfl
  cases sizeAddOverflow s.len suffixLen with
  | none => rfl
  | some newLen =>
    dsimp only
    rw [ensureCapacity_monitored releases hs, map_then_bind, bind_then_map]
    refine bind_congr fun r => ?_
    obtain ⟨⟨st, header⟩, w'⟩ := r
    dsimp only
    split
    · rfl
    · simp only [bind_then_map]
      rfl

theorem prepend_monitored (hs : Sized s w) (text : Arg) :
    prepend (s.under (monitored releases)) text w =
      (prepend s text w).map fun r => ((r.1.1, r.1.2.under (monitored releases)), r.2) := by
  rw [prepend, prepend, bind_then_map]
  refine bind_congr fun _ => ?_
  rw [bind_then_map]
  refine bind_congr fun textLen => ?_
  split
  · rfl
  cases sizeAddOverflow s.len textLen with
  | none => rfl
  | some newLen =>
    dsimp only
    rw [ensureCapacity_monitored releases hs, map_then_bind, bind_then_map]
    refine bind_congr fun r => ?_
    obtain ⟨⟨st, header⟩, w'⟩ := r
    dsimp only
    split
    · rfl
    · simp only [bind_then_map]
      rfl

/-- **Every call** of a string does the same over the monitored arena. -/
theorem call_monitored (hs : Sized s w) (c : Op) :
    call (s.under (monitored releases), w) c =
      (call (s, w) c).map fun t => (t.1.under (monitored releases), t.2) := by
  cases c with
  | append suffix =>
    simp only [call, append_monitored releases hs, map_then_bind, bind_then_map]
    rfl
  | prepend text =>
    simp only [call, prepend_monitored releases hs, map_then_bind, bind_then_map]
    rfl
  | clear =>
    simp only [call, clear, bind_then_map]
    rfl
  | contains needle =>
    simp only [call, bind_then_map]
    rfl
  | startsWith text =>
    simp only [call, bind_then_map]
    rfl
  | endsWith suffix =>
    simp only [call, bind_then_map]
    rfl
  | len => rfl
  | iterate =>
    simp only [call, bind_then_map]
    rfl

theorem create_monitored (initial : Arg) (w : Memory) :
    create initial (some (monitored false)) w =
      (create initial (some blockView) w).map fun r =>
        ((r.1.1, r.1.2.map (under (monitored false))), r.2) := by
  rw [create, create, bind_then_map]
  refine bind_congr fun len => ?_
  rcases capacityFor_spec len with hfor | ⟨capacity, hfor, hcapacity, hmax⟩
  · rw [hfor]
    rfl
  simp only [hfor, ok_bind, ne_eq, not_true_eq_false, if_false]
  cases hadd : sizeAddOverflow headerSize capacity with
  | none => rfl
  | some allocSize =>
    obtain ⟨rfl, -⟩ := (sizeAddOverflow_eq_some hmax).1 hadd
    dsimp only
    rw [alloc_monitored false w (by unfold headerSize; omega), bind_then_map]
    refine bind_congr fun r => ?_
    obtain ⟨⟨st, q⟩, w'⟩ := r
    dsimp only
    split
    · rfl
    · simp only [bind_then_map]
      rfl

theorem destroy_monitored (hs : Sized s w) :
    destroy (s.under (monitored false)) w = destroy s w := by
  rw [destroy, destroy, hs.allocator]
  rfl

end StringHeader

end K4c
