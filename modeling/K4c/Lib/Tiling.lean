import Mathlib.Data.List.Chain
import Mathlib.Tactic.Basic
import Mathlib.Tactic.Linarith

/-!
# Segments laid out one after another

A region that is divided without gaps: the segments `xs`, each with its `width`,
placed from an address on.

* `place`, `finish` — the segments with their addresses, and where they end;
  `place_append` — both halves of a tiling are tilings.
* `separated` — two segments of a tiling are the same one or do not overlap.
* `exists_split` — a segment found at an address splits the tiling there.
* `sum_width_le` — where no two gaps are neighbours, the gaps are at most one more
  than the other segments.
-/

namespace Tiling

variable {α : Type} (width : α → ℕ)

/-- The segments `xs` from the address `a` on, each with its own address. -/
def place (a : ℕ) : List α → List (ℕ × α)
  | [] => []
  | x :: xs => (a, x) :: place (a + width x) xs

/-- Where the segments `xs` end when they are placed from `a` on. -/
def finish (a : ℕ) (xs : List α) : ℕ := a + (xs.map width).sum

variable {width} {a : ℕ} {xs ys : List α}

@[simp] theorem place_nil : place width a [] = [] := rfl

@[simp] theorem place_cons (x : α) :
    place width a (x :: xs) = (a, x) :: place width (a + width x) xs := rfl

@[simp] theorem finish_nil : finish width a [] = a := rfl

@[simp] theorem finish_cons (x : α) :
    finish width a (x :: xs) = finish width (a + width x) xs := by
  simp [finish, Nat.add_assoc]

theorem finish_append : finish width a (xs ++ ys) = finish width (finish width a xs) ys := by
  simp [finish, Nat.add_assoc]

theorem le_finish : a ≤ finish width a xs := Nat.le_add_right _ _

@[simp] theorem place_append :
    place width a (xs ++ ys) = place width a xs ++ place width (finish width a xs) ys := by
  induction xs generalizing a with
  | nil => rfl
  | cons x xs ih => rw [List.cons_append, place_cons, ih, place_cons, finish_cons, List.cons_append]

theorem length_place : (place width a xs).length = xs.length := by
  induction xs generalizing a with
  | nil => rfl
  | cons x xs ih => rw [place_cons, List.length_cons, ih, List.length_cons]

/-- Every segment lies between the start and the finish. -/
theorem mem_place {p : ℕ × α} (hp : p ∈ place width a xs) :
    p.2 ∈ xs ∧ a ≤ p.1 ∧ p.1 + width p.2 ≤ finish width a xs := by
  induction xs generalizing a with
  | nil => cases hp
  | cons x xs ih =>
    rw [finish_cons]
    rcases List.mem_cons.1 hp with rfl | hp
    · exact ⟨List.mem_cons_self .., le_rfl, le_finish⟩
    · obtain ⟨h1, h2, h3⟩ := ih hp
      exact ⟨List.mem_cons_of_mem _ h1, by omega, h3⟩

/-- Each segment ends before the later ones start. -/
theorem pairwise_place :
    (place width a xs).Pairwise fun p q => p.1 + width p.2 ≤ q.1 := by
  induction xs generalizing a with
  | nil => exact .nil
  | cons x xs ih => exact ih.cons fun q hq => (mem_place hq).2.1

/-- **Segments do not overlap.** -/
theorem separated {p q : ℕ × α} (hp : p ∈ place width a xs) (hq : q ∈ place width a xs) :
    p = q ∨ p.1 + width p.2 ≤ q.1 ∨ q.1 + width q.2 ≤ p.1 := by
  induction xs generalizing a with
  | nil => cases hp
  | cons x xs ih =>
    rcases List.mem_cons.1 hp with rfl | hp <;> rcases List.mem_cons.1 hq with rfl | hq
    · exact Or.inl rfl
    · exact Or.inr (Or.inl (mem_place hq).2.1)
    · exact Or.inr (Or.inr (mem_place hp).2.1)
    · exact ih hp hq

/-- A segment at a known address splits the tiling. -/
theorem exists_split {b : ℕ} {x : α} (h : (b, x) ∈ place width a xs) :
    ∃ pre post, xs = pre ++ x :: post ∧ b = finish width a pre := by
  induction xs generalizing a with
  | nil => cases h
  | cons y xs ih =>
    rcases List.mem_cons.1 h with h | h
    · cases h
      exact ⟨[], xs, rfl, rfl⟩
    · obtain ⟨pre, post, rfl, hb⟩ := ih h
      exact ⟨y :: pre, post, rfl, by rw [finish_cons]; exact hb⟩

/-- **Gaps that are no neighbours.**  If no two neighbours are both gaps and no gap
is wider than `w`, the region is no wider than its other segments and one gap of
that width for each of them and one more. -/
theorem sum_width_le (width : α → ℕ) (gap : α → Bool) {w : ℕ}
    (hxs : xs.IsChain fun x y => ¬ (gap x ∧ gap y)) (hw : ∀ x ∈ xs, gap x → width x ≤ w) :
    (xs.map width).sum ≤
      ((xs.filter fun x => !gap x).map width).sum + ((xs.filter fun x => !gap x).length + 1) * w := by
  -- a gap at the front is not charged to a segment
  suffices h : (xs.map width).sum ≤ ((xs.filter fun x => !gap x).map width).sum +
      (xs.filter fun x => !gap x).length * w + if xs.head?.any gap then w else 0 by
    rw [Nat.succ_mul]
    split at h <;> omega
  induction xs with
  | nil => simp
  | cons x xs ih =>
    rw [List.isChain_cons] at hxs
    have htail := ih hxs.2 fun y hy => hw y (List.mem_cons_of_mem _ hy)
    rw [List.map_cons, List.sum_cons, List.head?_cons, Option.any_some]
    cases hx : gap x with
    | true =>
      have hhead : xs.head?.any gap = false := by
        cases hy : xs.head? with
        | none => rfl
        | some y => simpa [hx] using hxs.1 y hy
      have hwidth := hw x (List.mem_cons_self ..) hx
      rw [hhead] at htail
      rw [List.filter_cons_of_neg (by simp [hx])]
      simp only [Bool.false_eq_true, if_false, if_true] at htail ⊢
      omega
    | false =>
      rw [List.filter_cons_of_pos (by simp [hx]), List.map_cons, List.sum_cons, List.length_cons,
        Nat.succ_mul]
      simp only [Bool.false_eq_true, if_false]
      split at htail <;> omega

/-- There is at most one more gap than there are other segments. -/
theorem length_gaps_le (gap : α → Bool) (hxs : xs.IsChain fun x y => ¬ (gap x ∧ gap y)) :
    (xs.filter gap).length ≤ (xs.filter fun x => !gap x).length + 1 := by
  have h := sum_width_le (fun x => if gap x then 1 else 0) gap hxs fun x _ hx => by rw [if_pos hx]
  have hgaps : ∀ ys : List α, (ys.map fun x => if gap x then 1 else 0).sum =
      (ys.filter gap).length := by
    intro ys
    induction ys with
    | nil => rfl
    | cons y ys ih => cases hy : gap y <;> simp [hy, ih, Nat.add_comm]
  rw [hgaps, hgaps, List.filter_filter] at h
  simpa using h

end Tiling
