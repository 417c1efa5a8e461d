import Mathlib.Tactic

/-!
# Searching by halving

A test splits a list when the items that pass it come first.  The place of the split
is then the number of items that pass, and looking at the item in the middle of a
range tells which half of the range it lies in.

* `Splits` — the items that pass are those before an index.
* `splits_countP` — where a passing item has only passing items before it, this index
  is their number.
* `Bracket` — the index lies in the range that is left; `Bracket.right` and
  `Bracket.left` go on with one half of it.
-/

namespace Bisect

variable {α : Type} {p : α → Bool} {xs : List α} {k first count : ℕ}

/-- The items that pass are the first `k`. -/
def Splits (p : α → Bool) (xs : List α) (k : ℕ) : Prop :=
  k ≤ xs.length ∧ ∀ i (h : i < xs.length), p xs[i] = true ↔ i < k

/-- **The place of the split** is the number of items that pass. -/
theorem splits_countP (h : xs.Pairwise fun a b => p b = true → p a = true) :
    Splits p xs (xs.countP p) := by
  refine ⟨List.countP_le_length, ?_⟩
  induction xs with
  | nil => intro i hi; exact absurd hi (Nat.not_lt_zero i)
  | cons x xs ih =>
    rw [List.pairwise_cons] at h
    intro i hi
    by_cases hx : p x = true
    · rw [List.countP_cons_of_pos hx]
      cases i with
      | zero => simpa using hx
      | succ i => simpa using ih h.2 i (by simpa using hi)
    · -- the first item does not pass, so none does
      have hnone : ∀ y ∈ x :: xs, ¬ p y = true := by
        intro y hy
        rcases List.mem_cons.1 hy with rfl | hy
        · exact hx
        · exact fun hpy => hx (h.1 y hy hpy)
      rw [List.countP_eq_zero.2 hnone]
      exact iff_of_false (hnone _ (List.getElem_mem hi)) (Nat.not_lt_zero i)

/-- The index `k` lies in the range of `count` items from `first` on, or right behind it. -/
def Bracket (k first count : ℕ) : Prop := first ≤ k ∧ k ≤ first + count

theorem Bracket.eq (h : Bracket k first 0) : first = k := le_antisymm h.1 h.2

theorem Bracket.right (h : Bracket k first count) (hmid : first + count / 2 < k) :
    Bracket k (first + count / 2 + 1) (count - (count / 2 + 1)) := by
  obtain ⟨h1, h2⟩ := h
  constructor <;> omega

theorem Bracket.left (h : Bracket k first count) (hmid : ¬ first + count / 2 < k) :
    Bracket k first (count / 2) := by
  obtain ⟨h1, h2⟩ := h
  constructor <;> omega

end Bisect
