import Mathlib.Tactic
import Mathlib.Order.Monotone.Basic
import K4c.Lib.Exec

/-!
# Growing until it is enough

A size that is too small grows by one step after the other, `f`, until it reaches
what is needed or would leave its type.  The sizes it goes through are the
iterates of `f`, and what the search ends with is about the first of them that
reaches the need.

* `First` — the number of steps after which the need is reached.
* `Searches` — the round of such a loop; `Searches.loop_eq` — what the loop returns;
  `Searches.loopStates` — the sizes it goes through are exact.
* `reached_mono` — a search that falls back to the need is monotone in it.
-/

namespace Growth

open Exec

/-- From `c` on, every step makes the size larger. -/
def Grows (f : ℕ → ℕ) (c : ℕ) : Prop := StrictMono fun k => f^[k] c

/-- After `k` steps from `c`, and not before, the size reaches `m`. -/
structure First (f : ℕ → ℕ) (c m k : ℕ) : Prop where
  reaches : m ≤ f^[k] c
  before : ∀ j < k, f^[j] c < m

variable {f : ℕ → ℕ} {c m m' k k' limit fuel : ℕ}

theorem Grows.of_lt (h : ∀ c, c < f c) (c : ℕ) : Grows f c := by
  refine strictMono_nat_of_lt_succ fun k => ?_
  rw [Function.iterate_succ_apply']
  exact h _

theorem First.zero (h : m ≤ c) : First f c m 0 := ⟨h, fun j hj => absurd hj (Nat.not_lt_zero j)⟩

/-- A larger need takes at least as many steps. -/
theorem First.mono (h : First f c m k) (h' : First f c m' k') (hle : m ≤ m') : k ≤ k' := by
  by_contra hlt
  have hbefore := h.before k' (by omega)
  have hreaches := h'.reaches
  omega

/-! ## The search -/

section Search

variable {ρ : Type} {body : ℕ → Result (ℕ ⊕ ρ)} {found : ℕ → ρ} {leaves : ρ}

/-- One round: the size is enough, or it grows, or one step more would leave the type. -/
def Searches (body : ℕ → Result (ℕ ⊕ ρ)) (f : ℕ → ℕ) (m limit : ℕ) (found : ℕ → ρ)
    (leaves : ρ) : Prop :=
  ∀ c ≤ limit, body c = .ok (if c < m then if f c ≤ limit then .inl (f c) else .inr leaves
    else .inr (found c))

/-- **The search** returns, with the first size that reaches the need, unless that one
leaves the type. -/
theorem Searches.loop_eq (h : Searches body f m limit found leaves) (hf : Grows f c)
    (hc : c ≤ limit) (hm : m ≤ limit) (hfuel : m - c < fuel) :
    ∃ k, First f c m k ∧
      loop body fuel c = .ok (if f^[k] c ≤ limit then found (f^[k] c) else leaves) := by
  -- so far the sizes were too small, and exact
  set I : ℕ → Prop := fun s => s ≤ limit ∧ ∃ j, s = f^[j] c ∧ ∀ i < j, f^[i] c < m with hI
  set Q : ρ → Prop := fun r => ∃ k, First f c m k ∧
    r = (if f^[k] c ≤ limit then found (f^[k] c) else leaves) with hQ
  have hround : ∀ s, I s → Sat (body s) (Round I (fun s => m - s) Q s) := by
    rintro s ⟨hs, j, rfl, hbefore⟩
    rw [h _ hs]
    by_cases hlt : f^[j] c < m
    · have hsucc : ∀ i < j + 1, f^[i] c < m := by
        intro i hi
        by_cases hij : i = j
        · rwa [hij]
        · exact hbefore i (by omega)
      have hnext : f (f^[j] c) = f^[j + 1] c := (Function.iterate_succ_apply' f j c).symm
      rw [if_pos hlt, hnext]
      by_cases hfits : f^[j + 1] c ≤ limit
      · have hgrow : f^[j] c < f^[j + 1] c := hf (Nat.lt_succ_self j)
        have hless : m - f^[j + 1] c < m - f^[j] c := by omega
        rw [if_pos hfits]
        exact Sat.ok ⟨⟨hfits, j + 1, rfl, hsucc⟩, hless⟩
      · rw [if_neg hfits]
        exact Sat.ok ⟨j + 1, ⟨by omega, hsucc⟩, (if_neg hfits).symm⟩
    · rw [if_neg hlt]
      exact Sat.ok ⟨j, ⟨by omega, hbefore⟩, (if_pos hs).symm⟩
  obtain ⟨r, hloop, k, hk, rfl⟩ := loop_ok hround fuel c
    ⟨hc, 0, rfl, fun i hi => absurd hi (Nat.not_lt_zero i)⟩ hfuel
  exact ⟨k, hk, hloop⟩

/-- The sizes that the search goes through. -/
theorem Searches.loopStates (h : Searches body f m limit found leaves) (hc : c ≤ limit) :
    ∀ s ∈ loopStates body fuel c, s ≤ limit ∧ ∃ j, s = f^[j] c := by
  refine loopStates_inv (I := fun s => s ≤ limit ∧ ∃ j, s = f^[j] c) ?_ fuel c ⟨hc, 0, rfl⟩
  rintro s s' ⟨hs, j, rfl⟩ hbody
  rw [h _ hs] at hbody
  split at hbody
  · split at hbody
    · cases hbody
      exact ⟨by assumption, j + 1, (Function.iterate_succ_apply' f j c).symm⟩
    · cases hbody
  · cases hbody

end Search

/-! ## Falling back to the need -/

/-- The size that the search ends with when it falls back to the need. -/
def reached (f : ℕ → ℕ) (c m limit k : ℕ) : ℕ := if f^[k] c ≤ limit then f^[k] c else m

theorem reached_zero (hc : c ≤ limit) : reached f c m limit 0 = c := if_pos hc

theorem le_reached (h : First f c m k) : m ≤ reached f c m limit k := by
  rw [reached]
  split
  · exact h.reaches
  · exact le_rfl

theorem reached_le (hm : m ≤ limit) : reached f c m limit k ≤ limit := by
  rw [reached]
  split
  · assumption
  · exact hm

/-- **A larger need** never gives a smaller size. -/
theorem reached_mono (hf : Grows f c) (h : First f c m k) (h' : First f c m' k') (hle : m ≤ m') :
    reached f c m limit k ≤ reached f c m' limit k' := by
  have hsteps := h.mono h' hle
  have hsize : f^[k] c ≤ f^[k'] c := hf.monotone hsteps
  rw [reached, reached]
  by_cases hfits' : f^[k'] c ≤ limit
  · rw [if_pos hfits', if_pos (hsize.trans hfits')]
    exact hsize
  rw [if_neg hfits']
  by_cases hfits : f^[k] c ≤ limit
  · -- the larger need takes more steps, so that it is not reached yet
    have hne : k ≠ k' := by
      rintro rfl
      exact hfits' hfits
    rw [if_pos hfits]
    exact (h'.before k (by omega)).le
  · rw [if_neg hfits]
    exact hle

end Growth
