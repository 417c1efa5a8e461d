import Mathlib.Tactic

/-!
# Taking the first element again and again

From a multiset elements are taken one by one, each time one that none of the others comes
before.  `before` may be any relation.

* `Taken` — the elements that were taken, in order, and those that are left.
* `Taken.add_eq`, `Taken.sorted`, `Taken.first` — **selection sorts**: nothing is lost, no
  element comes before one that was taken earlier, and none that is left comes before one
  that was taken.
-/

namespace Selection

variable {α : Type}

/-- From `M` these elements were taken, and `rest` is left. -/
inductive Taken (before : α → α → Prop) : Multiset α → List α → Multiset α → Prop
  | none (M : Multiset α) : Taken before M [] M
  | one {M M' rest : Multiset α} {x : α} {xs : List α} (hx : ∀ y ∈ M, ¬ before y x)
    (hM : M = x ::ₘ M') (h : Taken before M' xs rest) : Taken before M (x :: xs) rest

namespace Taken

variable {before : α → α → Prop} {M rest : Multiset α} {xs : List α}

theorem add_eq (h : Taken before M xs rest) : (xs : Multiset α) + rest = M := by
  induction h with
  | none M => exact zero_add M
  | one hx hM h ih => rw [hM, ← ih, ← Multiset.cons_coe, Multiset.cons_add]

/-- No element comes before one that was taken earlier. -/
theorem sorted (h : Taken before M xs rest) : xs.Pairwise fun x y => ¬ before y x := by
  induction h with
  | none M => exact .nil
  | one hx hM h ih =>
    refine List.pairwise_cons.2 ⟨fun y hy => hx y ?_, ih⟩
    rw [hM, ← h.add_eq]
    exact Multiset.mem_cons_of_mem (Multiset.mem_add.2 (.inl hy))

/-- No element that is left comes before one that was taken. -/
theorem first (h : Taken before M xs rest) : ∀ x ∈ xs, ∀ y ∈ rest, ¬ before y x := by
  induction h with
  | none M => intro x hx; cases hx
  | one hx hM h ih =>
    intro x' hx' y hy
    rcases List.mem_cons.1 hx' with rfl | hx'
    · refine hx y ?_
      rw [hM, ← h.add_eq]
      exact Multiset.mem_cons_of_mem (Multiset.mem_add.2 (.inr hy))
    · exact ih x' hx' y hy

end Taken

end Selection
