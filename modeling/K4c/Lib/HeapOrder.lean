import Mathlib.Tactic

/-!
# Heap order

The order of a binary heap stored in an array, over any preorder: `f` gives
the value at an index, and the parent of `i` is `(i - 1) / 2`.  A sift exchanges
one value along a path; it starts from an array that is in order except around
one place, and each exchange moves that place until it is gone.

* `Ordered` — no value comes before its parent; `Ordered.root_le`: the root comes
  first.
* `UpExcept` — in order except between one place and its parent;
  `UpExcept.swap` moves the place up, `UpExcept.done` ends the sift.
* `DownExcept` — in order except between one place and its children;
  `DownExcept.swap` moves the place down, `DownExcept.done` ends the sift.
* `swapped_perm` — an exchange keeps the values; `swapped_last_perm`,
  `DownExcept.swapLast` — the root is exchanged with the last value and left out.
-/

namespace HeapOrder

variable {α : Type} {le : α → α → Prop} {f : ℕ → α} {n i j k : ℕ}

/-- The parent of an index. -/
def parent (i : ℕ) : ℕ := (i - 1) / 2

theorem parent_lt (h : 0 < i) : parent i < i := by
  unfold parent
  omega

theorem parent_eq_iff (h : 0 < i) : parent i = k ↔ i = 2 * k + 1 ∨ i = 2 * k + 2 := by
  unfold parent
  omega

/-- The values with two of them exchanged. -/
def swapped (f : ℕ → α) (i j : ℕ) : ℕ → α := f ∘ Equiv.swap i j

@[simp] theorem swapped_left : swapped f i j i = f j := by simp [swapped]

@[simp] theorem swapped_right : swapped f i j j = f i := by simp [swapped]

theorem swapped_of_ne (hi : k ≠ i) (hj : k ≠ j) : swapped f i j k = f k := by
  rw [swapped, Function.comp_apply, Equiv.swap_apply_of_ne_of_ne hi hj]

/-- **An exchange keeps the values.** -/
theorem swapped_perm (hi : i < n) (hj : j < n) :
    ((List.range n).map (swapped f i j)).Perm ((List.range n).map f) := by
  have hrange : ((List.range n).map (Equiv.swap i j)).Perm (List.range n) := by
    refine (List.perm_ext_iff_of_nodup ?_ List.nodup_range).2 fun k => ?_
    · exact List.nodup_range.map (Equiv.swap i j).injective
    · rw [List.mem_map]
      constructor
      · rintro ⟨m, hm, rfl⟩
        rw [List.mem_range] at *
        rw [Equiv.swap_apply_def]
        split_ifs <;> assumption
      · intro hk
        refine ⟨Equiv.swap i j k, ?_, Equiv.swap_apply_self i j k⟩
        rw [List.mem_range] at *
        rw [Equiv.swap_apply_def]
        split_ifs <;> assumption
  rw [swapped, ← List.map_map]
  exact hrange.map f

/-- The first value is exchanged with the last one, which is then left out. -/
theorem swapped_last_perm (f : ℕ → α) (n : ℕ) :
    ((List.range (n + 1)).map f).Perm (f 0 :: (List.range n).map (swapped f 0 n)) := by
  have hperm := (swapped_perm (f := f) (Nat.succ_pos n) (Nat.lt_succ_self n)).symm
  rw [List.range_succ, List.map_append, List.map_singleton, List.map_append, List.map_singleton,
    swapped_right, ← List.map_singleton (f := f), ← List.map_append, ← List.range_succ] at hperm
  exact hperm.trans (List.perm_append_singleton (f 0) _)

/-! ## Order -/

/-- No value comes before its parent. -/
def Ordered (le : α → α → Prop) (f : ℕ → α) (n : ℕ) : Prop :=
  ∀ i, 0 < i → i < n → le (f (parent i)) (f i)

theorem Ordered.congr {f' : ℕ → α} (h : Ordered le f n) (hf : ∀ i < n, f' i = f i) :
    Ordered le f' n := by
  intro i hpos hi
  have hp := parent_lt hpos
  rw [hf i hi, hf _ (by omega)]
  exact h i hpos hi

variable [IsPreorder α le]

/-- **The root comes first.** -/
theorem Ordered.root_le (h : Ordered le f n) : ∀ i < n, le (f 0) (f i) := by
  intro i
  induction i using Nat.strong_induction_on with
  | _ i ih =>
    intro hi
    rcases Nat.eq_zero_or_pos i with rfl | hpos
    · exact refl_of le (f 0)
    · have hp := parent_lt hpos
      exact trans_of le (ih _ hp (by omega)) (h i hpos hi)

/-! ## Sifting up -/

/-- In order except between `k` and its parent: every other pair is in order, and
the children of `k` come after its parent. -/
structure UpExcept (le : α → α → Prop) (f : ℕ → α) (n k : ℕ) : Prop where
  off : ∀ i, 0 < i → i < n → i ≠ k → le (f (parent i)) (f i)
  grand : 0 < k → ∀ i, 0 < i → i < n → parent i = k → le (f (parent k)) (f i)

omit [IsPreorder α le] in
/-- A value added at the end is out of order with its parent at most. -/
theorem UpExcept.push {f' : ℕ → α} (h : Ordered le f n) (hf : ∀ i < n, f' i = f i) :
    UpExcept le f' (n + 1) n := by
  refine ⟨fun i hpos hi hne => h.congr hf i hpos (by omega), fun _ i hpos hi hp => ?_⟩
  have := parent_lt hpos
  omega

omit [IsPreorder α le] in
/-- The sift ends when the place is the root or in order with its parent. -/
theorem UpExcept.done (h : UpExcept le f n k) (hk : 0 < k → le (f (parent k)) (f k)) :
    Ordered le f n := by
  intro i hpos hi
  by_cases hik : i = k
  · subst hik
    exact hk hpos
  · exact h.off i hpos hi hik

/-- The value moves up past a parent that comes after it. -/
theorem UpExcept.swap (h : UpExcept le f n k) (hpos : 0 < k) (hk : k < n)
    (hle : le (f k) (f (parent k))) : UpExcept le (swapped f k (parent k)) n (parent k) := by
  have hp := parent_lt hpos
  refine ⟨fun i hi hin hne => ?_, fun hpp i hi hin hpar => ?_⟩
  · by_cases hik : i = k
    · rw [hik, swapped_left, swapped_right]
      exact hle
    · rw [swapped_of_ne hik hne]
      by_cases hpk : parent i = k
      · -- a child of the place: the old parent comes before it
        rw [hpk, swapped_left]
        exact h.grand hpos i hi hin hpk
      · by_cases hpp : parent i = parent k
        · -- a sibling: the old parent came before it, the value comes before that
          rw [hpp, swapped_right]
          exact trans_of le hle (hpp ▸ h.off i hi hin hik)
        · rw [swapped_of_ne hpk hpp]
          exact h.off i hi hin hik
  · have hpp' := parent_lt hpp
    have hroot : le (f (parent (parent k))) (f (parent k)) :=
      h.off (parent k) hpp (by omega) (by omega)
    rw [swapped_of_ne (by omega) (by omega)]
    by_cases hik : i = k
    · rw [hik, swapped_left]
      exact hroot
    · rw [swapped_of_ne hik (by have := parent_lt hi; omega)]
      exact trans_of le hroot (hpar ▸ h.off i hi hin hik)

/-! ## Sifting down -/

/-- In order except between `k` and its children: every other pair is in order,
and the children of `k` come after its parent. -/
structure DownExcept (le : α → α → Prop) (f : ℕ → α) (n k : ℕ) : Prop where
  off : ∀ i, 0 < i → i < n → parent i ≠ k → le (f (parent i)) (f i)
  grand : 0 < k → ∀ i, 0 < i → i < n → parent i = k → le (f (parent k)) (f i)

omit [IsPreorder α le] in
/-- The last value, put at the root, is out of order with its children at most. -/
theorem DownExcept.swapLast (h : Ordered le f (n + 1)) : DownExcept le (swapped f 0 n) n 0 := by
  refine ⟨fun i hpos hi hne => ?_, fun hpos => absurd hpos (Nat.lt_irrefl 0)⟩
  have := parent_lt hpos
  rw [swapped_of_ne hpos.ne' hi.ne, swapped_of_ne hne (by omega)]
  exact h i hpos (by omega)

omit [IsPreorder α le] in
/-- The sift ends when the place is in order with its children. -/
theorem DownExcept.done (h : DownExcept le f n k)
    (hk : ∀ i, 0 < i → i < n → parent i = k → le (f k) (f i)) : Ordered le f n := by
  intro i hpos hi
  by_cases hik : parent i = k
  · rw [hik]
    exact hk i hpos hi hik
  · exact h.off i hpos hi hik

omit [IsPreorder α le] in
/-- The value moves down past its first child, when that comes before it. -/
theorem DownExcept.swap (h : DownExcept le f n k) {c : ℕ} (hc : 0 < c) (hcn : c < n)
    (hck : parent c = k) (hle : le (f c) (f k))
    (hfirst : ∀ i, 0 < i → i < n → parent i = k → le (f c) (f i)) :
    DownExcept le (swapped f k c) n c := by
  have hkc : k < c := hck ▸ parent_lt hc
  refine ⟨fun i hi hin hne => ?_, fun _ i hi hin hpar => ?_⟩
  · by_cases hik : i = k
    · -- the place itself: its parent comes before all of its children
      subst hik
      have hp := parent_lt hi
      rw [swapped_left, swapped_of_ne (by omega) (by omega)]
      exact h.grand hi c hc hcn hck
    · by_cases hpk : parent i = k
      · rw [hpk, swapped_left]
        by_cases hic : i = c
        · rw [hic, swapped_right]
          exact hle
        · rw [swapped_of_ne hik hic]
          exact hfirst i hi hin hpk
      · have hic : i ≠ c := fun heq => hpk (heq ▸ hck)
        rw [swapped_of_ne hpk hne, swapped_of_ne hik hic]
        exact h.off i hi hin hpk
  · have hp := parent_lt hi
    rw [hck, swapped_left, swapped_of_ne (by omega) (by omega)]
    exact hpar ▸ h.off i hi hin (by omega)

end HeapOrder
