import Mathlib.Tactic

/-!
# Rows of a hash table

A table with `n` rows keeps each element in the row that the remainder of its hash
selects.  What a table holds is a list up to order, `flat`, and every operation on
the table is an operation on one row.

* `flat_update_perm` — a row that is replaced is replaced in the whole.
* `Placed` — every element is in its row; `find_row` — a search of one row is a
  search of the whole table.
* `Apart` — no two elements are alike, for a relation of being alike.
-/

namespace Rows

open scoped List

variable {α : Type} {rows rows' : ℕ → List α} {n i : ℕ} {a b : α}

/-! ## All elements -/

/-- The elements of the first `n` rows. -/
def flat (rows : ℕ → List α) (n : ℕ) : List α := (List.range n).flatMap rows

theorem flat_succ (rows : ℕ → List α) (n : ℕ) : flat rows (n + 1) = flat rows n ++ rows n := by
  simp [flat, List.range_succ]

theorem mem_flat : a ∈ flat rows n ↔ ∃ i < n, a ∈ rows i := by
  simp [flat, List.mem_flatMap]

theorem flat_congr (h : ∀ i < n, rows i = rows' i) : flat rows n = flat rows' n := by
  induction n with
  | zero => rfl
  | succ n ih => rw [flat_succ, flat_succ, ih fun i hi => h i (by omega), h n (by omega)]

theorem flat_empty (n : ℕ) : flat (fun _ => ([] : List α)) n = [] := by
  simp [flat]

theorem flat_sublist {m : ℕ} (h : m ≤ n) : List.Sublist (flat rows m) (flat rows n) := by
  induction n with
  | zero => rw [Nat.le_zero.1 h]
  | succ n ih =>
    rcases Nat.lt_or_eq_of_le h with hlt | rfl
    · rw [flat_succ]
      exact (ih (by omega)).trans (List.sublist_append_left _ _)
    · exact List.Sublist.refl _

theorem sublist_flat (hi : i < n) : List.Sublist (rows i) (flat rows n) := by
  have hrow : List.Sublist (rows i) (flat rows (i + 1)) := by
    rw [flat_succ]
    exact List.sublist_append_right _ _
  exact hrow.trans (flat_sublist hi)

/-- Two rows have nothing in common when no element is there twice. -/
theorem ne_of_ne_row {β : Type} {f : α → β} {j : ℕ} (hn : ((flat rows n).map f).Nodup)
    (hi : i < n) (hj : j < n) (hij : i ≠ j) (ha : a ∈ rows i) (hb : b ∈ rows j) :
    f a ≠ f b := by
  induction n with
  | zero => exact absurd hi (Nat.not_lt_zero i)
  | succ n ih =>
    rw [flat_succ, List.map_append, List.nodup_append] at hn
    obtain ⟨hleft, -, hapart⟩ := hn
    have hlow : ∀ {k c}, k < n + 1 → k ≠ n → c ∈ rows k → f c ∈ (flat rows n).map f :=
      fun hk hkn hc => List.mem_map_of_mem (mem_flat.2 ⟨_, by omega, hc⟩)
    by_cases hin : i = n
    · subst hin
      exact (hapart _ (hlow hj (Ne.symm hij) hb) _ (List.mem_map_of_mem ha)).symm
    · by_cases hjn : j = n
      · subst hjn
        exact hapart _ (hlow hi hin ha) _ (List.mem_map_of_mem hb)
      · exact ih hleft (by omega) (by omega)

/-- Replacing a row takes its elements out and puts the new ones in. -/
theorem flat_update_perm (rows : ℕ → List α) (hi : i < n) (row : List α) :
    flat (Function.update rows i row) n ++ rows i ~ flat rows n ++ row := by
  induction n with
  | zero => exact absurd hi (Nat.not_lt_zero i)
  | succ n ih =>
    rw [flat_succ, flat_succ]
    by_cases hin : i = n
    · subst hin
      rw [Function.update_self,
        flat_congr fun j hj => Function.update_of_ne (by omega : j ≠ i) row rows]
      rw [List.append_assoc, List.append_assoc]
      exact List.perm_append_comm.append_left _
    · rw [Function.update_of_ne (Ne.symm hin)]
      have hrec := ih (by omega)
      have hswap : ∀ l m k : List α, l ++ m ++ k ~ l ++ k ++ m := by
        intro l m k
        rw [List.append_assoc, List.append_assoc]
        exact List.perm_append_comm.append_left l
      calc flat (Function.update rows i row) n ++ rows n ++ rows i
          ~ flat (Function.update rows i row) n ++ rows i ++ rows n := hswap _ _ _
        _ ~ flat rows n ++ row ++ rows n := hrec.append_right _
        _ ~ flat rows n ++ rows n ++ row := hswap _ _ _

/-- An element is put in front of a row. -/
theorem flat_push_perm (rows : ℕ → List α) (hi : i < n) (a : α) :
    flat (Function.update rows i (a :: rows i)) n ~ a :: flat rows n := by
  have h := flat_update_perm rows hi (a :: rows i)
  refine (List.perm_append_right_iff (rows i)).1 (h.trans ?_)
  exact List.perm_middle

/-- An element is taken out of a row, or replaced in it. -/
theorem flat_splice_perm (hi : i < n) {pre mid post : List α} (mid' : List α)
    (hrow : rows i = pre ++ mid ++ post) :
    flat (Function.update rows i (pre ++ mid' ++ post)) n ++ mid ~ flat rows n ++ mid' := by
  have h := flat_update_perm rows hi (pre ++ mid' ++ post)
  rw [hrow] at h
  have hout : ∀ l m : List α, l ++ m ++ (pre ++ post) ~ l ++ (pre ++ m ++ post) := by
    intro l m
    rw [List.append_assoc]
    apply List.Perm.append_left l
    rw [List.append_assoc]
    exact List.perm_append_comm_assoc m pre post
  exact (List.perm_append_right_iff (pre ++ post)).1
    ((hout _ _).trans (h.trans (hout _ _).symm))

/-- The elements of the rows from `i` on. -/
def flatFrom (rows : ℕ → List α) (i n : ℕ) : List α := (List.range' i (n - i)).flatMap rows

theorem flatFrom_zero (rows : ℕ → List α) (n : ℕ) : flatFrom rows 0 n = flat rows n := by
  rw [flatFrom, flat, Nat.sub_zero, List.range_eq_range']

theorem flatFrom_self (rows : ℕ → List α) (n : ℕ) : flatFrom rows n n = [] := by
  simp [flatFrom]

theorem flatFrom_of_lt (rows : ℕ → List α) (hi : i < n) :
    flatFrom rows i n = rows i ++ flatFrom rows (i + 1) n := by
  rw [flatFrom, flatFrom, show n - i = n - (i + 1) + 1 by omega, List.range'_succ,
    List.flatMap_cons]

/-! ## Placement -/

/-- Every element is in the row of its hash. -/
def Placed (hash : α → ℕ) (n : ℕ) (rows : ℕ → List α) : Prop :=
  ∀ i < n, ∀ a ∈ rows i, hash a % n = i

variable {hash : α → ℕ}

theorem Placed.mem (h : Placed hash n rows) (ha : a ∈ flat rows n) : a ∈ rows (hash a % n) := by
  obtain ⟨i, hi, hmem⟩ := mem_flat.1 ha
  rwa [h i hi a hmem]

theorem Placed.push (h : Placed hash n rows) (a : α) :
    Placed hash n (Function.update rows (hash a % n) (a :: rows (hash a % n))) := by
  intro j hj b hb
  by_cases hij : j = hash a % n
  · subst hij
    rw [Function.update_self] at hb
    rcases List.mem_cons.1 hb with rfl | hb
    · rfl
    · exact h _ hj b hb
  · rw [Function.update_of_ne hij] at hb
    exact h j hj b hb

theorem Placed.update (h : Placed hash n rows) {row : List α}
    (hrow : ∀ a ∈ row, hash a % n = i) : Placed hash n (Function.update rows i row) := by
  intro j hj b hb
  by_cases hij : j = i
  · subst hij
    rw [Function.update_self] at hb
    exact hrow b hb
  · rw [Function.update_of_ne hij] at hb
    exact h j hj b hb

/-! ## Search -/

/-- No two elements are alike. -/
def Apart (alike : α → α → Prop) (l : List α) : Prop := ∀ a ∈ l, ∀ b ∈ l, alike a b → a = b

variable {alike : α → α → Prop} {l l' : List α}

theorem Apart.nil : Apart alike [] := fun _ ha => by cases ha

theorem Apart.subset (h : Apart alike l) (hsub : ∀ a ∈ l', a ∈ l) : Apart alike l' :=
  fun a ha b hb => h a (hsub a ha) b (hsub b hb)

/-- A new element that is alike to no other one. -/
theorem Apart.cons (h : Apart alike l) (hnew : ∀ b ∈ l, ¬ alike a b ∧ ¬ alike b a) :
    Apart alike (a :: l) := by
  intro b hb c hc hbc
  rcases List.mem_cons.1 hb with hba | hb' <;> rcases List.mem_cons.1 hc with hca | hc'
  · rw [hba, hca]
  · exact absurd (hba ▸ hbc) (hnew c hc').1
  · exact absurd (hca ▸ hbc) (hnew b hb').2
  · exact h b hb' c hc' hbc

/-- **Searching a row** for what only elements of that row can be is searching the
table. -/
theorem find_row {p : α → Bool} {k : ℕ} (h : Placed hash n rows) (hn : 0 < n)
    (hp : ∀ a ∈ flat rows n, p a = true → hash a = k) :
    (∀ a ∈ rows (k % n), p a = false) ↔ ∀ a ∈ flat rows n, p a = false := by
  constructor
  · intro hrow a ha
    by_contra hpa
    rw [Bool.not_eq_false] at hpa
    have hmem := h.mem ha
    rw [hp a ha hpa] at hmem
    exact absurd (hrow a hmem) (by rw [hpa]; decide)
  · intro hall a ha
    exact hall a (mem_flat.2 ⟨k % n, Nat.mod_lt k hn, ha⟩)

end Rows
