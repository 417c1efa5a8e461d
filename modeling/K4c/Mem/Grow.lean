import Mathlib.Tactic
import K4c.Error
import K4c.Lib.Growth
import K4c.Mem.Size

/-!
# Growing a capacity by half

`k4c_vector_capacity_grow` and `k4c_string_capacity_grow` are the same loop;
`growByHalf` is that loop.

* `growByHalf_first` — it returns, without an assertion, and with what.
* `growByHalf_covers` — the result covers both arguments.
-/

namespace K4c

open Exec Growth

/-- What one round adds: half of the capacity, but not nothing. -/
def growthIncrement (capacity : ℕ) : ℕ := if capacity / 2 = 0 then 1 else capacity / 2

/-- One round of the loop: the capacity it goes on with, or the result. -/
def growByHalfRound (minCapacity capacity : ℕ) : Result (ℕ ⊕ ℕ) :=
  if capacity < minCapacity then
    match sizeAddOverflow capacity (growthIncrement capacity) with
    | none => .ok (.inr minCapacity)
    | some next => .ok (.inl next)
  else .ok (.inr capacity)

/-- The smallest capacity in the sequence that grows by half, from `capacity` on,
that is not below `minCapacity`. -/
def growByHalf (capacity minCapacity : ℕ) : Result (Status × ℕ) := do
  if capacity ≥ minCapacity then return (.ok, capacity)
  let out ← loop (growByHalfRound minCapacity) (minCapacity - capacity + 1) capacity
  return (.ok, out)

/-- One step of the sequence, with nothing to wrap. -/
def growthStep (capacity : ℕ) : ℕ := capacity + growthIncrement capacity

theorem growthIncrement_bounds {capacity : ℕ} (h : capacity ≤ sizeMax) :
    0 < growthIncrement capacity ∧ growthIncrement capacity ≤ sizeMax := by
  unfold growthIncrement
  unfold sizeMax at *
  split <;> omega

theorem growthStep_grows (capacity : ℕ) : Grows growthStep capacity := by
  refine .of_lt (fun c => ?_) capacity
  unfold growthStep growthIncrement
  split <;> omega

theorem growByHalfRound_searches (minCapacity : ℕ) :
    Searches (growByHalfRound minCapacity) growthStep minCapacity sizeMax id minCapacity := by
  intro c hc
  obtain ⟨-, hinc⟩ := growthIncrement_bounds hc
  rw [growByHalfRound]
  by_cases hlt : c < minCapacity
  · rw [if_pos hlt, if_pos hlt]
    cases hadd : sizeAddOverflow c (growthIncrement c) with
    | none =>
      have hover : ¬ growthStep c ≤ sizeMax :=
        not_le.2 ((sizeAddOverflow_eq_none hinc).1 hadd)
      rw [if_neg hover]
    | some next =>
      obtain ⟨rfl, hfits⟩ := (sizeAddOverflow_eq_some hinc).1 hadd
      have hfits' : growthStep c ≤ sizeMax := hfits
      rw [if_pos hfits']
      rfl
  · rw [if_neg hlt, if_neg hlt]
    rfl

/-- **Growth by half** ends with the first size of the sequence that reaches the
minimum, or with the minimum where that size is no `size_t`. -/
theorem growByHalf_first {capacity minCapacity : ℕ} (hcap : capacity ≤ sizeMax)
    (hmin : minCapacity ≤ sizeMax) :
    ∃ k, First growthStep capacity minCapacity k ∧
      growByHalf capacity minCapacity =
        .ok (.ok, reached growthStep capacity minCapacity sizeMax k) := by
  rw [growByHalf]
  by_cases h : minCapacity ≤ capacity
  · refine ⟨0, .zero h, ?_⟩
    rw [if_pos h, reached_zero hcap]
    rfl
  · obtain ⟨k, hk, hloop⟩ := (growByHalfRound_searches minCapacity).loop_eq
      (growthStep_grows capacity) hcap hmin (Nat.lt_succ_self _)
    refine ⟨k, hk, ?_⟩
    rw [if_neg h, hloop, ok_bind]
    rfl

/-- The result covers both arguments and is a `size_t`, and it is the old capacity
only where that was enough. -/
theorem growByHalf_covers {capacity minCapacity : ℕ} (hcap : capacity ≤ sizeMax)
    (hmin : minCapacity ≤ sizeMax) :
    ∃ out, growByHalf capacity minCapacity = .ok (.ok, out) ∧ max capacity minCapacity ≤ out ∧
      out ≤ sizeMax ∧ (out = capacity ↔ minCapacity ≤ capacity) := by
  obtain ⟨k, hk, hgrow⟩ := growByHalf_first hcap hmin
  have hle : minCapacity ≤ reached growthStep capacity minCapacity sizeMax k := le_reached hk
  by_cases h : minCapacity ≤ capacity
  · -- nothing to reach, and no step
    have hzero : k = 0 := Nat.le_zero.1 (hk.mono (.zero h) le_rfl)
    rw [hzero, reached_zero hcap] at hgrow
    exact ⟨capacity, hgrow, max_le le_rfl h, hcap, iff_of_true rfl h⟩
  · have hlt : capacity < reached growthStep capacity minCapacity sizeMax k := by omega
    exact ⟨_, hgrow, max_le hlt.le hle, reached_le hmin, iff_of_false hlt.ne' h⟩

/-- **Growth by half** ends, with a capacity that covers both arguments and is a
`size_t`. -/
theorem growByHalf_spec {capacity minCapacity : ℕ} (hcap : capacity ≤ sizeMax)
    (hmin : minCapacity ≤ sizeMax) :
    ∃ out, growByHalf capacity minCapacity = .ok (.ok, out) ∧ capacity ≤ out ∧
      minCapacity ≤ out ∧ out ≤ sizeMax := by
  obtain ⟨out, hgrow, hcover, hout, -⟩ := growByHalf_covers hcap hmin
  exact ⟨out, hgrow, le_of_max_le_left hcover, le_of_max_le_right hcover, hout⟩

end K4c
