import Mathlib.Tactic
import K4c.Datastruct.BinaryHeapRuns
import K4c.Datastruct.DequeRuns
import K4c.Datastruct.Lifetimes
import K4c.Datastruct.VectorRuns

/-!
# The containers that can be reached

A container is reached from its constructor by calls that have returned, with whatever
arguments, while other code uses the rest of the memory.  Nothing is promised of a pushed
element: a push that has returned has read it.

* `Container.Reachable` — the states that are reached.
* `Vector.reachable_holds`, `Deque.reachable_holds`, `BinaryHeap.reachable_lies` — the
  container lies in the memory; a heap for a comparator that can be used is in its order.
-/

namespace K4c

open Exec Blocks Slots Runs HeapOrder

/-- The states of a container after calls with `P` that returned. -/
inductive Container.Reachable {σ C : Type} (K : Container σ C) (P : σ × Memory → C → Prop)
    (w₀ : Memory) : σ × Memory → Prop
  | create {h : σ} {w : Memory} : K.create w₀ = .ok ((.ok, some h), w) → Reachable K P w₀ (h, w)
  | call {s s' : σ × Memory} {c : C} : Reachable K P w₀ s → P s c → K.call s c = .ok s' →
      Reachable K P w₀ s'
  /-- Other code has left the blocks of the container alone. -/
  | elsewhere {h : σ} {w w' : Memory} {o : List ℕ} : Reachable K P w₀ (h, w) →
      K.Owns (h, w) o → (∀ p ∈ o, w'.cells p = w.cells p) → Reachable K P w₀ (h, w')

/-- A run that returned leads to a state that can be reached. -/
theorem Container.Reachable.of_trace {σ C : Type} {K : Container σ C} {P : σ × Memory → C → Prop}
    {w₀ : Memory} : ∀ (calls : List C) (s s' : σ × Memory) (os : List Unit),
    K.Reachable P w₀ s → Along K.step P s calls → trace K.step s calls = .ok (os, s') →
      K.Reachable P w₀ s' := by
  intro calls
  induction calls with
  | nil =>
    intro s s' os hs _ htrace
    cases htrace
    exact hs
  | cons c calls ih =>
    intro s s' os hs hal htrace
    obtain ⟨⟨_, s₁⟩, hstep, hrest⟩ := bind_eq_ok.1 htrace
    obtain ⟨⟨os₁, s₂⟩, htrace₁, hout⟩ := bind_eq_ok.1 hrest
    cases hout
    obtain ⟨_, hcall, hout⟩ := bind_eq_ok.1 hstep
    cases hout
    exact ih s₁ s' os₁ (.call hs hal.1 hcall) (hal.2 _ s₁ hstep) htrace₁

/-- Elements of one size at two indices are in the same place, or do not meet. -/
theorem Memory.not_clash_slots (b i j n : ℕ) :
    ¬ Memory.Clash ⟨b, i * n⟩ (.inside ⟨b, j * n⟩) n := by
  rintro ⟨-, hne, h₁, h₂⟩
  dsimp only at hne h₁ h₂
  have hij : i ≠ j := by
    rintro rfl
    exact hne rfl
  rcases slots_disjoint (n := n) hij with h | h <;> omega

theorem Buffered.elsewhere {a : Allocator Memory} {owner buffer size : ℕ} {w w' : Memory}
    {bs : List UInt8} (h : Buffered a owner buffer size w bs)
    (hsame : ∀ p ∈ [owner, buffer], w'.cells p = w.cells p) :
    Buffered a owner buffer size w' bs :=
  { h with
    handle := by
      have := h.handle
      rwa [Mem.Live, hsame owner (by simp)]
    cell := by rw [hsame buffer (by simp), h.cell] }

/-! ## Vectors -/

namespace Vector

variable {v v' : Vector} {w w' : Memory} {bs : List UInt8}

/-- The elements that lie in the buffer, in order of their indices. -/
def Stored (v : Vector) (w : Memory) (xs : List (List UInt8)) : Prop :=
  v.size = xs.length ∧ ∀ i x, xs[i]? = some x →
    w.read v.buffer (i * v.elemSize) v.elemSize = .ok x

theorem Holds.stored (h : Holds v w bs) : Stored v w (v.elements bs) := by
  refine ⟨length_elements.symm, fun i x hx => ?_⟩
  rw [getElem?_elements] at hx
  split at hx
  · cases hx
    exact deref_of_lt h (by have := h.size_le; omega)
  · cases hx

/-- A memory holds one list of elements. -/
theorem Stored.unique {xs ys : List (List UInt8)} (hx : Stored v w xs) (hy : Stored v w ys) :
    xs = ys := by
  have hlen : xs.length = ys.length := hx.1.symm.trans hy.1
  refine List.ext_getElem hlen fun i h₁ h₂ => ?_
  have hread := hx.2 i _ (List.getElem?_eq_getElem h₁)
  exact Except.ok.inj (hread.symm.trans (hy.2 i _ (List.getElem?_eq_getElem h₂)))

/-- The vectors of this element size, created with this capacity, that can be reached. -/
abbrev Reachable (elemSize capacity : ℕ) (allocator : Option (Allocator Memory)) (w₀ : Memory) :
    Vector × Memory → Prop :=
  (container elemSize capacity allocator).Reachable (fun _ _ => True) w₀

theorem call_holds {s : Vector × Memory} (h : Holds v w bs) {c : Op}
    (hcall : call (v, w) c = .ok s) : ∃ bs', Holds s.1 s.2 bs' := by
  by_cases hc : Op.Allowed (v, w) c
  · obtain ⟨s', hcall', o, ⟨hbs', -⟩, -⟩ := call_spec ⟨⟨bs, h⟩, rfl, rfl⟩ hc
    cases hcall.symm.trans hcall'
    exact hbs'
  · cases c with
    | push element =>
      obtain ⟨⟨⟨st, v'⟩, w'⟩, hpush, hout⟩ := bind_eq_ok.1 hcall
      cases hout
      rcases push_returned h hpush with ⟨-, rfl, hcells⟩ | ⟨-, _, _, _, bs', -, -, -, h', -⟩
      · exact ⟨bs, { h with buffered := h.buffered.same hcells }⟩
      · exact ⟨bs', h'⟩
    | _ => exact absurd trivial hc

/-- **Every vector** that can be reached lies in the memory. -/
theorem reachable_holds {elemSize capacity : ℕ} {allocator : Option (Allocator Memory)}
    (hbacked : Backed (Allocator.copy allocator)) {w₀ : Memory} {s : Vector × Memory}
    (hreach : Reachable elemSize capacity allocator w₀ s) : ∃ bs, Holds s.1 s.2 bs := by
  induction hreach with
  | create hcreate =>
    obtain ⟨_, helem, hrest⟩ := bind_eq_ok.1 hcreate
    obtain ⟨_, hcap, -⟩ := bind_eq_ok.1 hrest
    obtain ⟨st, out, w', hcreate', hres⟩ :=
      createWithCapacity_spec hbacked (check_eq_ok.1 helem) (check_eq_ok.1 hcap) w₀
    cases hcreate.symm.trans hcreate'
    rcases hres with ⟨hst, -⟩ | ⟨-, _, hout, -, hbs, -⟩
    · exact absurd rfl hst
    · cases hout
      exact hbs
  | call _ _ hcall ih =>
    obtain ⟨bs, h⟩ := ih
    exact call_holds h hcall
  | elsewhere _ howns hsame ih =>
    obtain ⟨bs, h⟩ := ih
    cases howns
    exact ⟨bs, { h with buffered := h.buffered.elsewhere hsame }⟩

end Vector

/-! ## Deques -/

namespace Deque

variable {d d' : Deque} {w w' : Memory} {bs : List UInt8}

/-- The deques of this element size that can be reached. -/
abbrev Reachable (elemSize : ℕ) (allocator : Option (Allocator Memory)) (w₀ : Memory) :
    Deque × Memory → Prop :=
  (container elemSize allocator).Reachable (fun _ _ => True) w₀

theorem call_holds {s : Deque × Memory} (h : Holds d w bs) {c : Op}
    (hcall : call (d, w) c = .ok s) : ∃ bs', Holds s.1 s.2 bs' := by
  by_cases hc : Op.Allowed (d, w) c
  · obtain ⟨s', hcall', o, ⟨hbs', -⟩, -⟩ := call_spec ⟨⟨bs, h⟩, rfl, rfl⟩ hc
    cases hcall.symm.trans hcall'
    exact hbs'
  · cases c with
    | push element =>
      obtain ⟨⟨⟨st, d'⟩, w'⟩, hpush, hout⟩ := bind_eq_ok.1 hcall
      cases hout
      rcases push_returned h hpush with ⟨-, rfl, hcells⟩ | ⟨-, _, _, _, bs', -, -, -, h', -⟩
      · exact ⟨bs, { h with buffered := h.buffered.same hcells }⟩
      · exact ⟨bs', h'⟩
    | pushfront element =>
      obtain ⟨⟨⟨st, d'⟩, w'⟩, hpush, hout⟩ := bind_eq_ok.1 hcall
      cases hout
      rcases pushfront_returned h hpush with ⟨-, rfl, hcells⟩ | ⟨-, _, _, _, bs', -, -, -, h', -⟩
      · exact ⟨bs, { h with buffered := h.buffered.same hcells }⟩
      · exact ⟨bs', h'⟩
    | _ => exact absurd trivial hc

/-- **Every deque** that can be reached lies in the memory. -/
theorem reachable_holds {elemSize : ℕ} {allocator : Option (Allocator Memory)}
    (hbacked : Backed (Allocator.copy allocator)) {w₀ : Memory} {s : Deque × Memory}
    (hreach : Reachable elemSize allocator w₀ s) : ∃ bs, Holds s.1 s.2 bs := by
  induction hreach with
  | create hcreate =>
    obtain ⟨_, helem, -⟩ := bind_eq_ok.1 hcreate
    obtain ⟨st, out, w', hcreate', hres⟩ := create_spec hbacked (check_eq_ok.1 helem) w₀
    cases hcreate.symm.trans hcreate'
    rcases hres with ⟨hst, -⟩ | ⟨-, _, hout, -, hbs, -⟩
    · exact absurd rfl hst
    · cases hout
      exact hbs
  | call _ _ hcall ih =>
    obtain ⟨bs, h⟩ := ih
    exact call_holds h hcall
  | elsewhere _ howns hsame ih =>
    obtain ⟨bs, h⟩ := ih
    cases howns
    exact ⟨bs, { h with buffered := h.buffered.elsewhere hsame }⟩

end Deque

/-! ## Binary heaps -/

namespace BinaryHeap

variable {h h' : BinaryHeap} {w w' : Memory} {bs : List UInt8}

/-- No object is larger than half of the addresses. -/
def Op.Indexed (s : BinaryHeap × Memory) : Op → Prop
  | .pop => s.1.root.size < 2 ^ 63
  | _ => True

/-- The heaps of this element size, with this comparator, that can be reached. -/
abbrev Reachable (elemSize : ℕ) (cmp : Option (List UInt8 → List UInt8 → ℤ))
    (allocator : Option (Allocator Memory)) (w₀ : Memory) : BinaryHeap × Memory → Prop :=
  (container elemSize cmp allocator).Reachable Op.Indexed w₀

/-- The heap lies in the memory, with the parameters it was created with; when its
comparator can be used, it is in heap order. -/
structure Lives (elemSize : ℕ) (cmp : Option (List UInt8 → List UInt8 → ℤ)) (h : BinaryHeap)
    (w : Memory) (bs : List UInt8) : Prop where
  lies : Lies h w bs
  heaped : TotalPreorder elemSize (cmp.getD memcmp) → Heaped h bs
  elemSize : h.root.elemSize = elemSize
  cmp : h.cmp = cmp

variable {elemSize : ℕ} {cmp : Option (List UInt8 → List UInt8 → ℤ)}

/-- In a memory that did not change. -/
theorem Lives.same (hh : Lives elemSize cmp h w bs) (hcells : w'.cells = w.cells) :
    Lives elemSize cmp h w' bs :=
  { hh with lies := hh.lies.same hcells }

theorem Lives.changed {bs' : List UInt8} (hh : Lives elemSize cmp h w bs) (hlies : Lies h' w' bs')
    (hheaped : Heaped h bs → Heaped h' bs') (hchanged : Changed h h' w w') :
    Lives elemSize cmp h' w' bs' where
  lies := hlies
  heaped hcmp := hheaped (hh.heaped hcmp)
  elemSize := hchanged.elemSize.trans hh.elemSize
  cmp := hchanged.cmp.trans hh.cmp

theorem call_lives {s : BinaryHeap × Memory} (hh : Lives elemSize cmp h w bs) {c : Op}
    (hc : c.Indexed (h, w)) (hcall : call (h, w) c = .ok s) :
    ∃ bs', Lives elemSize cmp s.1 s.2 bs' := by
  cases c with
  | push element =>
    obtain ⟨⟨⟨st, h'⟩, w'⟩, hpush, hout⟩ := bind_eq_ok.1 hcall
    cases hout
    rcases push_returned hh.lies hpush with
      ⟨-, rfl, hcells⟩ | ⟨-, _, _, _, bs', -, -, -, hlies, hheaped, -, hchanged, -⟩
    · exact ⟨bs, hh.same hcells⟩
    · exact ⟨bs', hh.changed hlies hheaped hchanged⟩
  | pop =>
    obtain ⟨⟨⟨p, h'⟩, w'⟩, hpop, hout⟩ := bind_eq_ok.1 hcall
    cases hout
    by_cases hzero : h.root.size = 0
    · rw [pop, if_pos hzero] at hpop
      cases hpop
      exact ⟨bs, hh⟩
    · obtain ⟨w', bs', hpop', hlies, hheaped, -, -, hchanged⟩ :=
        pop_spec hh.lies (Nat.pos_of_ne_zero hzero) hc
      cases hpop.symm.trans hpop'
      exact ⟨bs', hh.changed hlies hheaped hchanged⟩
  | peek =>
    obtain ⟨_, -, hout⟩ := bind_eq_ok.1 hcall
    cases hout
    exact ⟨bs, hh⟩
  | size =>
    cases hcall
    exact ⟨bs, hh⟩
  | iterate =>
    obtain ⟨_, -, hout⟩ := bind_eq_ok.1 hcall
    cases hout
    exact ⟨bs, hh⟩

/-- **Every heap** that can be reached lies in the memory, in heap order. -/
theorem reachable_lives {allocator : Option (Allocator Memory)}
    (hbacked : Backed (Allocator.copy allocator)) {w₀ : Memory} {s : BinaryHeap × Memory}
    (hreach : Reachable elemSize cmp allocator w₀ s) : ∃ bs, Lives elemSize cmp s.1 s.2 bs := by
  induction hreach with
  | create hcreate =>
    obtain ⟨_, helem, -⟩ := bind_eq_ok.1 hcreate
    obtain ⟨st, out, w', hcreate', hres⟩ := create_spec cmp hbacked (check_eq_ok.1 helem) w₀
    cases hcreate.symm.trans hcreate'
    rcases hres with ⟨hst, -⟩ | ⟨-, h, hout, -, ⟨bs, hlies⟩, hsize, helemSize, hcmp, -⟩
    · exact absurd rfl hst
    · cases hout
      refine ⟨bs, hlies, fun horder => ⟨?_, fun i _ hi => ?_⟩, helemSize, hcmp⟩
      · rwa [compare_eq, hcmp, helemSize]
      · rw [hsize] at hi
        exact absurd hi (Nat.not_lt_zero i)
  | call _ hc hcall ih =>
    obtain ⟨bs, hh⟩ := ih
    exact call_lives hh hc hcall
  | elsewhere _ howns hsame ih =>
    obtain ⟨bs, hh⟩ := ih
    cases howns
    refine ⟨bs, { hh with lies := { hh.lies with root := ?_, handle := ?_ } }⟩
    · exact { hh.lies.root with
        buffered := hh.lies.root.buffered.elsewhere fun p hp =>
          hsame p (List.mem_cons_of_mem _ hp) }
    · have hlive := hh.lies.handle
      rwa [Mem.Live, hsame _ (by simp [owned])]

end BinaryHeap

end K4c
