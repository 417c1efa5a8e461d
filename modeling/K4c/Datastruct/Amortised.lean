import Mathlib.Tactic
import K4c.Lib.Potential
import K4c.Datastruct.VectorRuns
import K4c.Datastruct.DequeRuns

/-!
# What growing costs

A push into a full buffer moves all elements to a larger one.  A vector grows by half and a
deque doubles, so these moves are paid by the pushes before.

* `Vector.moves_amortised` — **four elements are moved** for each push of a vector.
* `Deque.doublings_amortised` — **two elements are moved** for each push of a deque.
-/

namespace K4c

open Exec Growth Blocks Runs Potential

/-- `PTRDIFF_MAX`, the size of the largest object. -/
def ptrdiffMax : ℕ := 2 ^ 63 - 1

/-! ## Vectors -/

namespace Vector

/-- The call adds an element. -/
def Call.pushes : Call → Bool
  | .push _ => true
  | .pop => false
  | .swapRemove _ => false
  | .get _ => false
  | .reserve _ => false

/-- The elements that a push moves because the buffer grows. -/
def moved (s : Vector × Memory) (c : Call) (s' : Vector × Memory) : ℕ :=
  if c.pushes ∧ s'.1.capacity ≠ s.1.capacity then s.1.size else 0

/-- The slots by which the last third of the buffer is filled, in units of a third slot. -/
def potential (s : Vector × Memory) : ℕ := 4 * s.1.size - 3 * s.1.capacity

variable {v v' : Vector} {w w' : Memory} {bs : List UInt8} {elemSize : ℕ}

/-- A full buffer grows by one step. -/
theorem capacityGrow_full {capacity next : ℕ} (hcap : capacity ≤ ptrdiffMax)
    (hgrow : capacityGrow capacity (capacity + 1) = .ok (.ok, next)) :
    next = growthStep capacity := by
  unfold ptrdiffMax at hcap
  have hstep : growthStep capacity ≤ sizeMax ∧ capacity + 1 ≤ growthStep capacity := by
    unfold growthStep growthIncrement sizeMax
    split <;> omega
  have hmin : capacity + 1 ≤ sizeMax := hstep.2.trans hstep.1
  obtain ⟨k, hk, hgrow'⟩ := growByHalf_first (Nat.le_of_succ_le hmin) hmin
  have hone : First growthStep capacity (capacity + 1) 1 := by
    refine ⟨hstep.2, fun j hj => ?_⟩
    rw [Nat.lt_one_iff.1 hj]
    exact Nat.lt_succ_self _
  have hk1 : k = 1 := le_antisymm (hk.mono hone le_rfl) (hone.mono hk le_rfl)
  subst hk1
  have hreached : reached growthStep capacity (capacity + 1) sizeMax 1 = growthStep capacity :=
    if_pos hstep.1
  cases hgrow.symm.trans hgrow'
  exact hreached

/-- A push that returned changes nothing, fills a slot, or fills the first one behind a full
buffer, which has grown. -/
theorem push_sizes (h : Holds v w bs) (hcap : v.capacity ≤ ptrdiffMax) {element : Arg} {st : Status}
    (hpush : push v element w = .ok ((st, v'), w')) :
    (v'.size ≤ v.size + 1 ∧ v'.capacity = v.capacity) ∨
      (v.size = v.capacity ∧ v'.size = v.size + 1 ∧ v'.capacity = growthStep v.capacity) := by
  rcases push_returned h hpush with ⟨-, rfl, -⟩ | ⟨-, v₁, w₁, e, bs', hroom, -, rfl, -⟩
  · exact .inl ⟨Nat.le_succ _, rfl⟩
  by_cases hfull : v.size = v.capacity
  · rcases makeRoom_full h hfull with ⟨st', w₂, hroom', hst, -⟩ |
      ⟨next, g, -, w₂, hgrown, hroom', -⟩
    · cases hroom.symm.trans hroom'
      exact absurd rfl hst
    · cases hroom.symm.trans hroom'
      refine .inr ⟨hfull, rfl, capacityGrow_full hcap ?_⟩
      rw [← hfull]
      exact hfull ▸ hgrown.capacity
  · cases hroom.symm.trans (makeRoom_of_lt (lt_of_le_of_ne h.size_le hfull))
    exact .inl ⟨le_rfl, rfl⟩

theorem length_swapRemoved (xs : List (List UInt8)) (i : ℕ) :
    (swapRemoved xs i).length ≤ xs.length := by
  unfold swapRemoved
  split
  · split
    · rw [List.length_dropLast, List.length_set]
      exact Nat.sub_le _ _
    · exact le_rfl
  · exact le_rfl

/-- Every other call leaves fewer elements, in a buffer that is not smaller. -/
theorem Spec.sizes {a a' : Abstract} {c : Call} {o : Answer} (h : Spec elemSize a c o a')
    (hc : c.pushes = false) :
    a'.elements.length ≤ a.elements.length ∧ a.capacity ≤ a'.capacity := by
  cases c with
  | push e => cases hc
  | pop =>
    cases o with
    | status st => exact h.elim
    | item bytes =>
      obtain ⟨-, rfl⟩ := h
      exact ⟨by rw [List.length_dropLast]; exact Nat.sub_le _ _, le_rfl⟩
  | swapRemove i =>
    cases o with
    | status st => exact h.elim
    | item bytes =>
      obtain ⟨-, rfl⟩ := h
      exact ⟨length_swapRemoved _ _, le_rfl⟩
  | get i =>
    cases o with
    | status st => exact h.elim
    | item bytes =>
      obtain ⟨-, rfl⟩ := h
      exact ⟨le_rfl, le_rfl⟩
  | reserve n =>
    cases o with
    | item bytes => exact h.elim
    | status st =>
      rcases h with ⟨-, hsame, -, hcap⟩ | ⟨-, -, rfl⟩
      · exact ⟨by rw [hsame], hcap ▸ le_max_left _ _⟩
      · exact ⟨le_rfl, le_rfl⟩

/-- **One call** costs at most what it pays and what it takes from the potential. -/
theorem step_pays (s : Vector × Memory) (c : Call) (h : ∃ a, Represents elemSize s.1 s.2 a)
    (hc : c.Valid elemSize) (hcap : s.1.capacity ≤ ptrdiffMax) :
    Sat (step s c) fun p => (∃ a, Represents elemSize p.2.1 p.2.2 a) ∧
      moved s c p.2 + potential p.2 ≤ potential s + if c.pushes then 4 else 0 := by
  obtain ⟨a, hR⟩ := h
  obtain ⟨p, hstep, a', hspec, hR'⟩ := step_spec s a c hR hc
  refine ⟨p, hstep, ⟨a', hR'⟩, ?_⟩
  by_cases hpushes : c.pushes = true
  · cases c with
    | push e =>
      obtain ⟨bs, hholds, -⟩ := hR.holds
      obtain ⟨⟨⟨st, v'⟩, w'⟩, hpush, hout⟩ := bind_eq_ok.1 hstep
      cases hout
      rw [if_pos hpushes]
      unfold moved potential
      rcases push_sizes hholds hcap hpush with ⟨hsize, hsame⟩ | ⟨hfull, hsize, hgrown⟩
      · rw [if_neg fun hmoved => hmoved.2 hsame]
        dsimp only
        omega
      · -- a third of the new buffer is free, which the moved elements have paid for
        dsimp only
        rw [hgrown, hsize]
        unfold growthStep growthIncrement
        split <;> split <;> omega
    | pop => cases hpushes
    | swapRemove i => cases hpushes
    | get i => cases hpushes
    | reserve n => cases hpushes
  · have hsizes := hspec.sizes (Bool.not_eq_true _ ▸ hpushes)
    rw [hR.length, hR'.length, ← hR.capacity, ← hR'.capacity] at hsizes
    rw [moved, if_neg fun hmoved => hpushes hmoved.1]
    unfold potential
    omega

/-- **The moves of a vector.**  In every run of a vector that was created, whatever requests
are refused, the pushes move at most four elements for each push, as long as no buffer is
larger than an object can be. -/
theorem moves_amortised {elemSize capacity : ℕ} (helem : 0 < elemSize) (hcap : 0 < capacity)
    {allocator : Option (Allocator Memory)} (hbacked : Backed (Allocator.copy allocator))
    {w₀ w₁ : Memory} {v : Vector}
    (hcreate : createWithCapacity elemSize capacity allocator w₀ = .ok ((.ok, some v), w₁))
    (calls : List Call)
    (hcalls : Along step (fun s c => c.Valid elemSize ∧ s.1.capacity ≤ ptrdiffMax) (v, w₁) calls) :
    total step moved (v, w₁) calls ≤ 4 * calls.countP Call.pushes := by
  obtain ⟨p, hrun, a, -, hR, -⟩ := run_represents helem hcap hbacked hcreate [] nofun
  cases hrun
  have hstart : potential (v, w₁) = 0 := by
    obtain ⟨st, out, w', hcreate', hres⟩ := createWithCapacity_spec hbacked helem hcap w₀
    cases hcreate.symm.trans hcreate'
    rcases hres with ⟨hst, -⟩ | ⟨-, _, hout, -, -, hsize, -⟩
    · exact absurd rfl hst
    · cases hout
      rw [potential, hsize]
      exact Nat.zero_sub _
  have htotal : total step moved (v, w₁) calls ≤
      potential (v, w₁) + 4 * calls.countP Call.pushes :=
    total_le (I := fun s => ∃ a, Represents elemSize s.1 s.2 a)
      (P := fun s c => c.Valid elemSize ∧ s.1.capacity ≤ ptrdiffMax)
      (fun s c hs hc => step_pays s c hs hc.1 hc.2) calls (v, w₁) ⟨a, hR⟩ hcalls
  rwa [hstart, Nat.zero_add] at htotal

/-- Four pushes grow a vector of one element twice. -/
def growing : List Call :=
  [.push [1, 1], .push [2, 2], .get 1, .push [3, 3], .pop, .push [4, 4], .push [5, 5]]

theorem moves_amortised_growing : ∃ v w₁,
    createWithCapacity 2 1 none stingy = .ok ((.ok, some v), w₁) ∧
      total step moved (v, w₁) growing ≤ 4 * growing.countP Call.pushes := by
  have helem : 0 < 2 := by decide
  have hcap : 0 < 1 := by decide
  have hbacked : Backed (Allocator.copy none) := .default _
  exact ⟨_, _, rfl, moves_amortised helem hcap hbacked
    (rfl : createWithCapacity 2 1 none stingy = _) growing (by decide +kernel)⟩

end Vector

/-! ## Deques -/

namespace Deque

/-- The call adds an element. -/
def Call.pushes : Call → Bool
  | .push _ => true
  | .pushfront _ => true
  | .popleft => false
  | .popback => false
  | .peekleft => false
  | .peekback => false
  | .size => false
  | .iterate => false

/-- The elements that a push moves because the buffer grows. -/
def moved (s : Deque × Memory) (c : Call) (s' : Deque × Memory) : ℕ :=
  if c.pushes ∧ s'.1.capacity ≠ s.1.capacity then s.1.size else 0

/-- The slots by which the second half of the buffer is filled, in units of half a slot. -/
def potential (s : Deque × Memory) : ℕ := 2 * s.1.size - s.1.capacity

variable {d d' : Deque} {w w' : Memory} {bs : List UInt8} {elemSize : ℕ}

/-- A larger capacity is twice as large. -/
theorem capacityGrow_full {k next : ℕ} (hk : 2 ^ k < sizeMax)
    (hgrow : capacityGrow (2 ^ k) (2 ^ k + 1) = .ok (.ok, next)) : 2 * 2 ^ k ≤ next := by
  obtain ⟨st, out, hgrow', hout⟩ := capacityGrow_spec hk.le hk
  cases hgrow.symm.trans hgrow'
  rcases hout with hst | ⟨-, ⟨j, rfl⟩, -, hlt⟩
  · cases hst
  · rw [← Nat.pow_succ']
    exact Nat.pow_le_pow_right (by decide) ((Nat.pow_lt_pow_iff_right (by decide)).1 hlt)

/-- Making room that returned changes nothing, or has doubled a full buffer. -/
theorem makeRoom_sizes (h : Holds d w bs) {st : Status}
    (hroom : makeRoom d w = .ok ((st, d'), w')) :
    d'.size = d.size ∧ (d'.capacity = d.capacity ∨
      d.size = d.capacity ∧ 2 * d.capacity ≤ d'.capacity) := by
  by_cases hfull : d.size = d.capacity
  · rcases makeRoom_full h hfull with ⟨st', w₂, hroom', -⟩ |
      ⟨next, g, w₂, bs', hgrown, hroom', -⟩
    · cases hroom.symm.trans hroom'
      exact ⟨rfl, .inl rfl⟩
    · cases hroom.symm.trans hroom'
      obtain ⟨k, hk⟩ := h.pow
      have hcountable := hgrown.countable
      have hgrow := hgrown.capacity
      rw [hfull, hk] at hcountable hgrow
      -- both capacities are powers of two
      refine ⟨rfl, .inr ⟨hfull, ?_⟩⟩
      rw [hk]
      exact capacityGrow_full hcountable hgrow
  · cases hroom.symm.trans (makeRoom_of_lt (lt_of_le_of_ne h.size_le hfull))
    exact ⟨rfl, .inl rfl⟩

/-- A push leaves the deque as it is, fills a slot, or fills the first one behind a full
buffer, which was doubled. -/
def Filled (d d' : Deque) : Prop :=
  (d'.size ≤ d.size + 1 ∧ d'.capacity = d.capacity) ∨
    (d.size = d.capacity ∧ d'.size = d.size + 1 ∧ 2 * d.capacity ≤ d'.capacity)

theorem Copied.filled {slot : Deque → ℕ} {added : Deque → Deque}
    {add : List UInt8 → List (List UInt8) → List (List UInt8)} {element : Arg} (h : Holds d w bs)
    (hcopied : Copied d w bs slot added add element d' w')
    (hadded : ∀ d, (added d).size = d.size + 1 ∧ (added d).capacity = d.capacity) :
    Filled d d' := by
  obtain ⟨d₁, w₁, e, bs', hroom, -, rfl, -⟩ := hcopied
  obtain ⟨hsize, hcap⟩ := makeRoom_sizes h hroom
  rw [Filled, (hadded d₁).1, (hadded d₁).2, hsize]
  rcases hcap with hcap | ⟨hfull, hdoubled⟩
  · exact .inl ⟨le_rfl, hcap⟩
  · exact .inr ⟨hfull, rfl, hdoubled⟩

theorem step_filled {c : Call} {p : Answer × (Deque × Memory)} (h : Holds d w bs)
    (hc : c.pushes = true) (hstep : step (d, w) c = .ok p) : Filled d p.2.1 := by
  cases c with
  | push e =>
    obtain ⟨⟨⟨st, d'⟩, w'⟩, hpush, hout⟩ := bind_eq_ok.1 hstep
    cases hout
    rcases push_returned h hpush with ⟨-, rfl, -⟩ | ⟨-, hcopied⟩
    · exact .inl ⟨Nat.le_succ _, rfl⟩
    · exact hcopied.filled h fun _ => ⟨rfl, rfl⟩
  | pushfront e =>
    obtain ⟨⟨⟨st, d'⟩, w'⟩, hpush, hout⟩ := bind_eq_ok.1 hstep
    cases hout
    rcases pushfront_returned h hpush with ⟨-, rfl, -⟩ | ⟨-, hcopied⟩
    · exact .inl ⟨Nat.le_succ _, rfl⟩
    · exact hcopied.filled h fun _ => ⟨rfl, rfl⟩
  | popleft => cases hc
  | popback => cases hc
  | peekleft => cases hc
  | peekback => cases hc
  | size => cases hc
  | iterate => cases hc

/-- Every other call leaves the buffer, and no more elements. -/
theorem step_kept {c : Call} {p : Answer × (Deque × Memory)} (h : Holds d w bs)
    (hc : c.pushes = false) (hstep : step (d, w) c = .ok p) :
    p.2.1.size ≤ d.size ∧ p.2.1.capacity = d.capacity := by
  cases c with
  | push e => cases hc
  | pushfront e => cases hc
  | popleft =>
    obtain ⟨⟨q, d'⟩, hpop, hrest⟩ := bind_eq_ok.1 hstep
    obtain ⟨bytes, -, hout⟩ := bind_eq_ok.1 hrest
    cases hout
    by_cases hzero : d.size = 0
    · cases hpop.symm.trans (popleft_of_empty h hzero)
      exact ⟨le_rfl, rfl⟩
    · cases hpop.symm.trans (popleft_of_pos h (Nat.pos_of_ne_zero hzero))
      exact ⟨Nat.sub_le _ _, rfl⟩
  | popback =>
    obtain ⟨⟨q, d'⟩, hpop, hrest⟩ := bind_eq_ok.1 hstep
    obtain ⟨bytes, -, hout⟩ := bind_eq_ok.1 hrest
    cases hout
    by_cases hzero : d.size = 0
    · cases hpop.symm.trans (popback_of_empty h hzero)
      exact ⟨le_rfl, rfl⟩
    · cases hpop.symm.trans (popback_of_pos h (Nat.pos_of_ne_zero hzero))
      exact ⟨Nat.sub_le _ _, rfl⟩
  | peekleft =>
    obtain ⟨q, -, hrest⟩ := bind_eq_ok.1 hstep
    obtain ⟨bytes, -, hout⟩ := bind_eq_ok.1 hrest
    cases hout
    exact ⟨le_rfl, rfl⟩
  | peekback =>
    obtain ⟨q, -, hrest⟩ := bind_eq_ok.1 hstep
    obtain ⟨bytes, -, hout⟩ := bind_eq_ok.1 hrest
    cases hout
    exact ⟨le_rfl, rfl⟩
  | size =>
    cases hstep
    exact ⟨le_rfl, rfl⟩
  | iterate =>
    obtain ⟨xs, -, hout⟩ := bind_eq_ok.1 hstep
    cases hout
    exact ⟨le_rfl, rfl⟩

/-- **One call** costs at most what it pays and what it takes from the potential. -/
theorem step_pays (s : Deque × Memory) (c : Call) (h : ∃ a, Represents elemSize s a)
    (hc : c.Valid elemSize) : Sat (step s c) fun p => (∃ a, Represents elemSize p.2 a) ∧
      moved s c p.2 + potential p.2 ≤ potential s + if c.pushes then 2 else 0 := by
  obtain ⟨a, hR⟩ := h
  obtain ⟨p, hstep, a', -, hR'⟩ := step_spec s a c hR hc
  refine ⟨p, hstep, ⟨a', hR'⟩, ?_⟩
  obtain ⟨-, -, bs, hholds, -⟩ := hR
  unfold moved potential
  cases hpushes : c.pushes with
  | true =>
    rcases step_filled hholds hpushes hstep with ⟨hsize, hsame⟩ | ⟨hfull, hsize, hdoubled⟩
    · rw [if_neg fun hmoved => hmoved.2 hsame, if_pos rfl]
      omega
    · -- half of the new buffer is free, which the moved elements have paid for
      split <;> simp only [if_true] <;> omega
  | false =>
    obtain ⟨hsize, hsame⟩ := step_kept hholds hpushes hstep
    rw [if_neg fun hmoved => hmoved.2 hsame]
    omega

/-- **The moves of a deque.**  In every run of a deque that was created, whatever requests are
refused, the pushes move at most two elements for each push. -/
theorem doublings_amortised {elemSize : ℕ} (helem : 0 < elemSize)
    {allocator : Option (Allocator Memory)} (hbacked : Backed (Allocator.copy allocator))
    {w₀ w₁ : Memory} {d : Deque} (hcreate : create elemSize allocator w₀ = .ok ((.ok, some d), w₁))
    (calls : List Call) (hvalid : ∀ c ∈ calls, c.Valid elemSize) :
    total step moved (d, w₁) calls ≤ 2 * calls.countP Call.pushes := by
  obtain ⟨st, out, w', hcreate', hres⟩ := create_spec hbacked helem w₀
  cases hcreate.symm.trans hcreate'
  rcases hres with ⟨hst, -⟩ | ⟨-, _, hout, -, ⟨bs, h⟩, hsize, hsame, -⟩
  · exact absurd rfl hst
  cases hout
  have hstart : potential (d, w₁) = 0 := by
    rw [potential, hsize]
    exact Nat.zero_sub _
  have htotal : total step moved (d, w₁) calls ≤
      potential (d, w₁) + 2 * calls.countP Call.pushes :=
    total_le (I := fun s => ∃ a, Represents elemSize s a) (P := fun _ c => c.Valid elemSize)
      (fun s c hs hc => step_pays s c hs hc) calls (d, w₁) ⟨⟨_, _⟩, hsame, rfl, bs, h, rfl⟩
      (along_of_mem calls _ hvalid)
  rwa [hstart, Nat.zero_add] at htotal

theorem doublings_amortised_wrapped : ∃ d w₁, create 2 none stingy = .ok ((.ok, some d), w₁) ∧
    total step moved (d, w₁) wrapped ≤ 2 * wrapped.countP Call.pushes := by
  have hpos : 0 < 2 := by decide
  have hbacked : Backed (Allocator.copy none) := .default _
  exact ⟨_, _, rfl,
    doublings_amortised hpos hbacked (rfl : create 2 none stingy = _) wrapped (by decide)⟩

end Deque
end K4c
