import Mathlib.Tactic
import Mathlib.Order.Bounds.Basic
import K4c.Datastruct.DequeCalls
import K4c.Datastruct.String
import K4c.Datastruct.Vector

/-!
# The capacities that growing containers choose

A vector and a string grow by half and fall back to the minimum where the next
size is no `size_t`; a deque doubles and reports an overflow there.

* `Covers` — the contract of the two functions that grow by half.
* `StringHeader.capacityFor_eq` — the capacity for a length, and when there is none;
  `StringHeader.capacityFor_mono` — a longer text never gets a smaller one.
* `Deque.capacityGrow_isLeast` — doubling ends with the least power of two that is
  enough.
* `capacities` — **the growth loops** together.
-/

namespace K4c

open Exec Growth

/-! ## By half -/

/-- A growth function returns, with a `size_t` that covers both arguments, and with
the old capacity exactly where that is enough. -/
def Covers (grow : ℕ → ℕ → Result (Status × ℕ)) : Prop :=
  ∀ capacity ≤ sizeMax, ∀ minCapacity ≤ sizeMax, ∃ out,
    grow capacity minCapacity = .ok (.ok, out) ∧ max capacity minCapacity ≤ out ∧
      out ≤ sizeMax ∧ (out = capacity ↔ minCapacity ≤ capacity)

theorem Vector.capacityGrow_covers : Covers capacityGrow := by
  intro capacity hcap minCapacity hmin
  exact growByHalf_covers hcap hmin

namespace StringHeader

theorem capacityGrow_covers : Covers capacityGrow := by
  intro capacity hcap minCapacity hmin
  exact growByHalf_covers hcap hmin

theorem defaultCapacity_le : defaultCapacity ≤ sizeMax := by decide

theorem capacityFor_sizeMax : capacityFor sizeMax = .ok (.overflow, 0) := by
  have hadd : sizeAddOverflow sizeMax 1 = none := (sizeAddOverflow_eq_none (by decide)).2 (by simp)
  rw [capacityFor, hadd]

/-- **The capacity for a length** that leaves room for the terminator. -/
theorem capacityFor_eq {len : ℕ} (hlen : len < sizeMax) :
    ∃ k, First growthStep defaultCapacity (len + 1) k ∧
      capacityFor len = .ok (.ok, reached growthStep defaultCapacity (len + 1) sizeMax k) := by
  have hadd : sizeAddOverflow len 1 = some (len + 1) :=
    (sizeAddOverflow_eq_some (by decide)).2 ⟨rfl, hlen⟩
  rw [capacityFor, hadd]
  exact growByHalf_first defaultCapacity_le hlen

theorem capacityFor_overflow {len : ℕ} (hlen : len ≤ sizeMax) :
    capacityFor len = .ok (.overflow, 0) ↔ len = sizeMax := by
  constructor
  · intro h
    by_contra hne
    obtain ⟨k, -, hfor⟩ := capacityFor_eq (show len < sizeMax by omega)
    simp [hfor] at h
  · rintro rfl
    exact capacityFor_sizeMax

theorem capacityFor_lt {len : ℕ} (hlen : len < sizeMax) :
    ∃ out, capacityFor len = .ok (.ok, out) ∧ len < out ∧ out ≤ sizeMax := by
  obtain ⟨k, hk, hfor⟩ := capacityFor_eq hlen
  exact ⟨_, hfor, le_reached hk, reached_le hlen⟩

/-- **A longer text** never gets a smaller capacity. -/
theorem capacityFor_mono {len len' out out' : ℕ} (hle : len ≤ len')
    (h : capacityFor len = .ok (.ok, out)) (h' : capacityFor len' = .ok (.ok, out')) :
    out ≤ out' := by
  have hlen' : len' < sizeMax := by
    by_contra hge
    have hadd : sizeAddOverflow len' 1 = none :=
      (sizeAddOverflow_eq_none (by decide)).2 (by omega)
    simp [capacityFor, hadd] at h'
  obtain ⟨k, hk, hfor⟩ := capacityFor_eq (hle.trans_lt hlen')
  obtain ⟨k', hk', hfor'⟩ := capacityFor_eq hlen'
  obtain rfl : reached growthStep defaultCapacity (len + 1) sizeMax k = out := by
    simpa [hfor] using h
  obtain rfl : reached growthStep defaultCapacity (len' + 1) sizeMax k' = out' := by
    simpa [hfor'] using h'
  exact reached_mono (growthStep_grows _) hk hk' (Nat.succ_le_succ hle)

end StringHeader

/-! ## By doubling -/

namespace Deque

/-- The powers of two that are enough for both arguments. -/
def Enough (capacity minCapacity : ℕ) : Set ℕ :=
  {p | (∃ j, p = 2 ^ j) ∧ max capacity minCapacity ≤ p}

/-- The first doubling that is enough gives the least power of two that is. -/
theorem isLeast_of_first {k minCapacity j : ℕ} (h : First (2 * ·) (2 ^ k) minCapacity j) :
    IsLeast (Enough (2 ^ k) minCapacity) (2 ^ (k + j)) := by
  have hreaches := h.reaches
  rw [doubled] at hreaches
  refine ⟨⟨⟨_, rfl⟩, max_le ?_ hreaches⟩, ?_⟩
  · exact Nat.pow_le_pow_right (by decide) (Nat.le_add_right k j)
  · rintro p ⟨⟨i, rfl⟩, hp⟩
    apply Nat.pow_le_pow_right (by decide)
    -- a smaller exponent is one of the doublings before
    have hki : k ≤ i := (Nat.pow_le_pow_iff_right (by decide)).1 (le_of_max_le_left hp)
    by_contra hlt
    have hbefore := h.before (i - k) (by omega)
    rw [doubled, Nat.add_sub_cancel' hki] at hbefore
    exact absurd (le_of_max_le_right hp) (by omega)

/-- **Doubling** ends with the least power of two that is enough, or with an overflow
where that is no `size_t`. -/
theorem capacityGrow_isLeast {k minCapacity : ℕ} (hk : 2 ^ k ≤ sizeMax)
    (hmin : minCapacity ≤ sizeMax) :
    ∃ out, IsLeast (Enough (2 ^ k) minCapacity) out ∧ capacityGrow (2 ^ k) minCapacity =
      .ok (if out ≤ sizeMax then (.ok, out) else (.overflow, 0)) := by
  obtain ⟨j, hj, hgrow⟩ := capacityGrow_first hk hmin
  exact ⟨_, isLeast_of_first hj, hgrow⟩

/-- It reports an overflow exactly where no power of two that is enough is a `size_t`. -/
theorem capacityGrow_result {k minCapacity : ℕ} (hk : 2 ^ k ≤ sizeMax)
    (hmin : minCapacity ≤ sizeMax) :
    ((∃ out, capacityGrow (2 ^ k) minCapacity = .ok (.overflow, out)) ↔
        ∀ p ∈ Enough (2 ^ k) minCapacity, sizeMax < p) ∧
      ((∃ p ∈ Enough (2 ^ k) minCapacity, p ≤ sizeMax) →
        ∃ out, capacityGrow (2 ^ k) minCapacity = .ok (.ok, out) ∧
          IsLeast (Enough (2 ^ k) minCapacity) out) := by
  obtain ⟨out, hleast, hgrow⟩ := capacityGrow_isLeast hk hmin
  by_cases hfits : out ≤ sizeMax
  · rw [if_pos hfits] at hgrow
    refine ⟨iff_of_false ?_ fun h => absurd (h out hleast.1) (by omega),
      fun _ => ⟨out, hgrow, hleast⟩⟩
    simp [hgrow]
  · rw [if_neg hfits] at hgrow
    have hnone : ∀ p ∈ Enough (2 ^ k) minCapacity, sizeMax < p := by
      intro p hp
      have hle := hleast.2 hp
      omega
    refine ⟨iff_of_true ⟨0, hgrow⟩ hnone, ?_⟩
    rintro ⟨p, hp, hle⟩
    exact absurd (hnone p hp) (by omega)

end Deque

/-! ## The growth loops -/

/-- **The growth loops.**  The two that grow by half cover both arguments, and the
sizes that they go through are exact; the capacity for a text is missing only for the
longest one, is larger than its length, and grows with it; a deque gets the least
power of two that is enough, where there is one. -/
theorem capacities :
    (Covers Vector.capacityGrow ∧ Covers StringHeader.capacityGrow ∧
      ∀ capacity ≤ sizeMax, ∀ minCapacity,
        ∀ c ∈ loopStates (growByHalfRound minCapacity) (minCapacity - capacity + 1) capacity,
          c ≤ sizeMax ∧ ∃ j, c = growthStep^[j] capacity) ∧
    ((∀ len ≤ sizeMax,
        (StringHeader.capacityFor len = .ok (.overflow, 0) ↔ len = sizeMax) ∧
        (len ≠ sizeMax → ∃ out, StringHeader.capacityFor len = .ok (.ok, out) ∧ len < out ∧
          out ≤ sizeMax)) ∧
      ∀ len len' out out', len ≤ len' → StringHeader.capacityFor len = .ok (.ok, out) →
        StringHeader.capacityFor len' = .ok (.ok, out') → out ≤ out') ∧
    ∀ k, 2 ^ k ≤ sizeMax → ∀ minCapacity ≤ sizeMax,
      ((∃ out, Deque.capacityGrow (2 ^ k) minCapacity = .ok (.overflow, out)) ↔
          ∀ p ∈ Deque.Enough (2 ^ k) minCapacity, sizeMax < p) ∧
      ((∃ p ∈ Deque.Enough (2 ^ k) minCapacity, p ≤ sizeMax) →
          ∃ out, Deque.capacityGrow (2 ^ k) minCapacity = .ok (.ok, out) ∧
            IsLeast (Deque.Enough (2 ^ k) minCapacity) out) := by
  refine ⟨⟨Vector.capacityGrow_covers, StringHeader.capacityGrow_covers, ?_⟩, ⟨?_, ?_⟩, ?_⟩
  · intro capacity hcap minCapacity
    exact (growByHalfRound_searches minCapacity).loopStates hcap
  · intro len hlen
    refine ⟨StringHeader.capacityFor_overflow hlen, fun hne => ?_⟩
    exact StringHeader.capacityFor_lt (by omega)
  · intro len len' out out' hle h h'
    exact StringHeader.capacityFor_mono hle h h'
  · intro k hk minCapacity hmin
    exact Deque.capacityGrow_result hk hmin

end K4c
