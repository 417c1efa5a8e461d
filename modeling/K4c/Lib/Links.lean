import Mathlib.Tactic

/-!
# Doubly linked sequences

Nodes are addresses, with 0 for the null link, and the links are two functions
`prev` and `next`.  `Linked prev next p xs q` says that the nodes `xs` are linked
in this order, that the first one links back to `p` and the last one on to `q`.

* `linked_append` — a sequence is linked when its two halves are, across the
  seam.
* `Linked.congr` — a sequence depends on the links of its own nodes only.
* `Linked.setNext_last`, `Linked.setPrev_head` — what follows a sequence, or
  precedes it, is decided by one link.
* `Linked.insert`, `Linked.unlink` — the four links that put a node between two
  parts, and the two that take one out.
* `Chained next xs q` — the same with forward links alone.
* `length_le_of_apart` — how many nodes there can be.
* `Chained.follow`, `Linked.follow_prev` — what a walk along the links sees.
-/

namespace Links

variable {prev next prev' next' : ℕ → ℕ}

/-- The nodes `xs` are linked in order, from `p` before them to `q` after them. -/
def Linked (prev next : ℕ → ℕ) : ℕ → List ℕ → ℕ → Prop
  | _, [], _ => True
  | p, x :: xs, q => prev x = p ∧ next x = xs.headD q ∧ Linked prev next x xs q

@[simp] theorem linked_nil (p q : ℕ) : Linked prev next p [] q := trivial

theorem linked_cons {p x q : ℕ} {xs : List ℕ} : Linked prev next p (x :: xs) q ↔
    prev x = p ∧ next x = xs.headD q ∧ Linked prev next x xs q := Iff.rfl

theorem headD_append (xs ys : List ℕ) (q : ℕ) : (xs ++ ys).headD q = xs.headD (ys.headD q) := by
  cases xs <;> rfl

theorem getLastD_append (xs ys : List ℕ) (p : ℕ) :
    (xs ++ ys).getLastD p = ys.getLastD (xs.getLastD p) := by
  induction xs generalizing p with
  | nil => rfl
  | cons x xs ih =>
    cases xs with
    | nil => cases ys <;> rfl
    | cons y xs => exact ih p

theorem getLastD_cons (p x : ℕ) (xs : List ℕ) : (x :: xs).getLastD p = xs.getLastD x := by
  rw [show x :: xs = [x] ++ xs from rfl, getLastD_append]
  rfl

theorem headD_mem {xs : List ℕ} {q : ℕ} (h : xs.headD q ≠ q) : xs.headD q ∈ xs := by
  cases xs with
  | nil => exact absurd rfl h
  | cons x xs => exact List.mem_cons_self ..

theorem getLastD_mem {xs : List ℕ} {p : ℕ} (h : xs.getLastD p ≠ p) : xs.getLastD p ∈ xs := by
  rcases List.eq_nil_or_concat xs with rfl | ⟨ys, y, rfl⟩
  · exact absurd rfl h
  · rw [List.concat_eq_append, List.getLastD_concat]
    simp

/-- **A linked sequence splits at any point.** -/
theorem linked_append {ys : List ℕ} {q : ℕ} : ∀ {xs : List ℕ} {p : ℕ},
    Linked prev next p (xs ++ ys) q ↔
      Linked prev next p xs (ys.headD q) ∧ Linked prev next (xs.getLastD p) ys q := by
  intro xs
  induction xs with
  | nil => intro p; simp
  | cons x xs ih =>
    intro p
    rw [List.cons_append, linked_cons, linked_cons, headD_append, ih, getLastD_cons]
    tauto

/-- The links of other nodes do not matter. -/
theorem Linked.congr {q : ℕ} : ∀ {xs : List ℕ} {p : ℕ}, Linked prev next p xs q →
    (∀ x ∈ xs, prev' x = prev x) → (∀ x ∈ xs, next' x = next x) → Linked prev' next' p xs q := by
  intro xs
  induction xs with
  | nil => intro p _ _ _; trivial
  | cons x xs ih =>
    rintro p ⟨h1, h2, h3⟩ hp hn
    have hx := List.mem_cons_self (a := x) (l := xs)
    exact ⟨(hp x hx).trans h1, (hn x hx).trans h2,
      ih h3 (fun y hy => hp y (List.mem_cons_of_mem _ hy))
        (fun y hy => hn y (List.mem_cons_of_mem _ hy))⟩

/-- Linking the last node elsewhere changes what follows the sequence. -/
theorem Linked.setNext_last {p q q' : ℕ} {xs : List ℕ} (h : Linked prev next p xs q)
    (hnd : xs.Nodup) (hp : ∀ x ∈ xs, prev' x = prev x)
    (hn : ∀ x ∈ xs, x ≠ xs.getLastD p → next' x = next x)
    (hlast : xs ≠ [] → next' (xs.getLastD p) = q') : Linked prev' next' p xs q' := by
  rcases List.eq_nil_or_concat xs with rfl | ⟨ys, y, rfl⟩
  · trivial
  · rw [List.concat_eq_append] at *
    rw [getLastD_append] at hn hlast
    rw [linked_append] at h ⊢
    obtain ⟨h1, h2, -, -⟩ := h
    have hy : ∀ x ∈ ys, x ≠ y := by
      intro x hx hxy
      rw [List.nodup_append] at hnd
      exact hnd.2.2 x hx y (by simp) hxy
    refine ⟨h1.congr (fun x hx => hp x (by simp [hx])) (fun x hx => hn x (by simp [hx]) (hy x hx)),
      ?_, hlast (by simp), trivial⟩
    rw [hp y (by simp), h2]

/-- Linking the first node back elsewhere changes what precedes the sequence. -/
theorem Linked.setPrev_head {p p' q : ℕ} {xs : List ℕ} (h : Linked prev next p xs q)
    (hnd : xs.Nodup) (hp : ∀ x ∈ xs, x ≠ xs.headD q → prev' x = prev x)
    (hn : ∀ x ∈ xs, next' x = next x) (hhead : xs ≠ [] → prev' (xs.headD q) = p') :
    Linked prev' next' p' xs q := by
  cases xs with
  | nil => trivial
  | cons y ys =>
    obtain ⟨-, h2, h3⟩ := h
    have hy : ∀ x ∈ ys, x ≠ y := by
      rintro x hx rfl
      exact (List.nodup_cons.1 hnd).1 hx
    refine ⟨hhead (by simp), (hn y (by simp)).trans h2, ?_⟩
    exact h3.congr (fun x hx => hp x (by simp [hx]) (hy x hx)) (fun x hx => hn x (by simp [hx]))

/-! ## Putting a node in and taking one out -/

theorem notMem_before {xs ys : List ℕ} {n : ℕ} (hnd : (xs ++ n :: ys).Nodup) : n ∉ xs :=
  fun hn => (List.nodup_append.1 hnd).2.2 n hn n (List.mem_cons_self ..) rfl

/-- What comes after a part of a list is not in this part. -/
theorem headD_ne_of_mem {xs ys : List ℕ} {q x : ℕ} (hnd : (xs ++ ys).Nodup) (hq : q ∉ xs ++ ys)
    (hx : x ∈ xs) : x ≠ ys.headD q := by
  cases ys with
  | nil => rintro rfl; exact hq (by simpa using hx)
  | cons y ys => exact (List.nodup_append.1 hnd).2.2 x hx y (List.mem_cons_self ..)

/-- What comes before a part of a list is not in this part. -/
theorem getLastD_ne_of_mem {xs ys : List ℕ} {p y : ℕ} (hnd : (xs ++ ys).Nodup)
    (hp : p ∉ xs ++ ys) (hy : y ∈ ys) : y ≠ xs.getLastD p := by
  rcases List.eq_nil_or_concat xs with rfl | ⟨zs, z, rfl⟩
  · rintro rfl
    exact hp (by simpa using hy)
  · rw [List.concat_eq_append] at *
    rw [List.getLastD_concat]
    intro h
    exact (List.nodup_append.1 hnd).2.2 z (by simp) y hy h.symm

/-- **Insertion.**  The node `n` goes between two parts of the sequence. -/
theorem Linked.insert {pre post : List ℕ} {n p q : ℕ}
    (h : Linked prev next p (pre ++ post) q) (hnd : (pre ++ n :: post).Nodup)
    (hp : p ∉ pre ++ n :: post) (hq : q ∉ pre ++ n :: post)
    (hprev : ∀ x ∈ pre ++ n :: post,
      prev' x = if x = post.headD q then n else if x = n then pre.getLastD p else prev x)
    (hnext : ∀ x ∈ pre ++ n :: post,
      next' x = if x = pre.getLastD p then n else if x = n then post.headD q else next x) :
    Linked prev' next' p (pre ++ n :: post) q := by
  obtain ⟨h1, h2⟩ := linked_append.1 h
  have hsplit := List.nodup_append.1 hnd
  have hnpost := List.nodup_cons.1 hsplit.2.1
  have hpre_n : ∀ x ∈ pre, x ≠ n := fun x hx => hsplit.2.2 x hx n (List.mem_cons_self ..)
  have hpost_n : ∀ x ∈ post, x ≠ n := by
    rintro x hx rfl
    exact hnpost.1 hx
  have hpre_head : ∀ x ∈ pre ++ [n], x ≠ post.headD q := fun x hx =>
    headD_ne_of_mem (by simpa using hnd) (by simpa using hq) hx
  have hpost_last : ∀ x ∈ n :: post, x ≠ pre.getLastD p := fun x hx =>
    getLastD_ne_of_mem hnd hp hx
  rw [linked_append]
  refine ⟨h1.setNext_last hsplit.1 ?_ ?_ ?_, ?_, ?_, h2.setPrev_head hnpost.2 ?_ ?_ ?_⟩
  · intro x hx
    rw [hprev x (by simp [hx]), if_neg (hpre_head x (by simp [hx])), if_neg (hpre_n x hx)]
  · intro x hx hne
    rw [hnext x (by simp [hx]), if_neg hne, if_neg (hpre_n x hx)]
  · intro hne
    rcases List.eq_nil_or_concat pre with rfl | ⟨ys, y, rfl⟩
    · exact absurd rfl hne
    · rw [hnext _ (by simp), if_pos rfl]
      rfl
  · rw [hprev n (by simp), if_neg (hpre_head n (by simp)), if_pos rfl]
  · rw [hnext n (by simp), if_neg (hpost_last n (by simp)), if_pos rfl]
  · intro x hx hne
    rw [hprev x (by simp [hx]), if_neg hne, if_neg (hpost_n x hx)]
  · intro x hx
    rw [hnext x (by simp [hx]), if_neg (hpost_last x (by simp [hx])), if_neg (hpost_n x hx)]
  · intro hne
    cases post with
    | nil => exact absurd rfl hne
    | cons c post => rw [hprev _ (by simp), if_pos rfl]

/-- **Removal.**  What precedes the node `n` and what follows it are linked to
each other. -/
theorem Linked.unlink {pre post : List ℕ} {n p q : ℕ}
    (h : Linked prev next p (pre ++ n :: post) q) (hnd : (pre ++ n :: post).Nodup)
    (hp : p ∉ pre ++ n :: post) (hq : q ∉ pre ++ n :: post)
    (hprev : ∀ x ∈ pre ++ post, prev' x = if x = next n then prev n else prev x)
    (hnext : ∀ x ∈ pre ++ post, next' x = if x = prev n then next n else next x) :
    Linked prev' next' p (pre ++ post) q := by
  rw [linked_append] at h
  obtain ⟨h1, hpn, hnn, h2⟩ := h
  have hsplit := List.nodup_append.1 hnd
  have hpre_head : ∀ x ∈ pre, x ≠ post.headD q := fun x hx =>
    headD_ne_of_mem (show (pre ++ [n] ++ post).Nodup by simpa using hnd) (by simpa using hq)
      (List.mem_append_left _ hx)
  have hpost_last : ∀ x ∈ post, x ≠ pre.getLastD p := fun x hx =>
    getLastD_ne_of_mem hnd hp (List.mem_cons_of_mem _ hx)
  rw [linked_append]
  refine ⟨h1.setNext_last hsplit.1 ?_ ?_ ?_,
    h2.setPrev_head (List.nodup_cons.1 hsplit.2.1).2 ?_ ?_ ?_⟩
  · intro x hx
    rw [hprev x (by simp [hx]), if_neg (by rw [hnn]; exact hpre_head x hx)]
  · intro x hx hne
    rw [hnext x (by simp [hx]), if_neg]
    rw [hpn]
    rcases List.eq_nil_or_concat pre with rfl | ⟨ys, y, rfl⟩
    · cases hx
    · rw [List.concat_eq_append, List.getLastD_concat] at *
      exact hne
  · intro hne
    rcases List.eq_nil_or_concat pre with rfl | ⟨ys, y, rfl⟩
    · exact absurd rfl hne
    · rw [List.concat_eq_append, List.getLastD_concat] at *
      rw [hnext y (by simp), if_pos hpn.symm, hnn]
  · intro x hx hne
    rw [hprev x (by simp [hx]), if_neg]
    rw [hnn]
    cases post with
    | nil => cases hx
    | cons c post => exact hne
  · intro x hx
    rw [hnext x (by simp [hx]), if_neg (by rw [hpn]; exact hpost_last x hx)]
  · intro hne
    cases post with
    | nil => exact absurd rfl hne
    | cons c post => rw [List.headD_cons, hprev c (by simp), if_pos (by rw [hnn]; rfl), hpn]

/-! ## Forward links alone -/

/-- The nodes `xs` are linked forwards in order, to `q` after them. -/
def Chained (next : ℕ → ℕ) : List ℕ → ℕ → Prop
  | [], _ => True
  | x :: xs, q => next x = xs.headD q ∧ Chained next xs q

theorem Linked.chained : ∀ {xs : List ℕ} {p q : ℕ}, Linked prev next p xs q →
    Chained next xs q := by
  intro xs
  induction xs with
  | nil => intro p q _; trivial
  | cons x xs ih => intro p q h; exact ⟨h.2.1, ih h.2.2⟩

/-- **A chain splits at any point.** -/
theorem chained_append {xs ys : List ℕ} {q : ℕ} :
    Chained next (xs ++ ys) q ↔ Chained next xs (ys.headD q) ∧ Chained next ys q := by
  induction xs with
  | nil => simp [Chained]
  | cons x xs ih =>
    rw [List.cons_append, Chained, Chained, headD_append, ih]
    tauto

/-- The links of other nodes do not matter. -/
theorem Chained.congr {q : ℕ} : ∀ {xs : List ℕ}, Chained next xs q →
    (∀ x ∈ xs, next' x = next x) → Chained next' xs q := by
  intro xs
  induction xs with
  | nil => intro _ _; trivial
  | cons x xs ih =>
    rintro ⟨h1, h2⟩ hn
    exact ⟨(hn x (List.mem_cons_self ..)).trans h1,
      ih h2 fun y hy => hn y (List.mem_cons_of_mem _ hy)⟩

/-- Linking the last node elsewhere changes what follows the chain. -/
theorem Chained.setNext_last {xs : List ℕ} {p q q' : ℕ} (h : Chained next xs q) (hnd : xs.Nodup)
    (hn : ∀ x ∈ xs, x ≠ xs.getLastD p → next' x = next x)
    (hlast : xs ≠ [] → next' (xs.getLastD p) = q') : Chained next' xs q' := by
  rcases List.eq_nil_or_concat xs with rfl | ⟨ys, y, rfl⟩
  · trivial
  · rw [List.concat_eq_append] at *
    rw [List.getLastD_concat] at hn hlast
    rw [chained_append] at h ⊢
    refine ⟨h.1.congr fun x hx => hn x (by simp [hx]) ?_, hlast (by simp), trivial⟩
    exact (List.nodup_append.1 hnd).2.2 x hx y (by simp)

/-- **Removal from a chain.**  What precedes the node `n` is linked past it. -/
theorem Chained.unlink {pre post : List ℕ} {a n q : ℕ}
    (h : Chained next (pre ++ a :: n :: post) q) (hnd : (pre ++ a :: post).Nodup)
    (hnext : ∀ x ∈ pre ++ a :: post, next' x = if x = a then post.headD q else next x) :
    Chained next' (pre ++ a :: post) q := by
  rw [List.append_cons, chained_append] at h
  rw [List.append_cons] at hnd hnext ⊢
  have hsplit := List.nodup_append.1 hnd
  refine chained_append.2 ⟨h.1.setNext_last (p := 0) hsplit.1 (fun x hx hne => ?_) fun _ => ?_,
    h.2.2.congr fun x hx => ?_⟩
  · rw [List.getLastD_concat] at hne
    rw [hnext x (List.mem_append_left _ hx), if_neg hne]
  · rw [List.getLastD_concat, hnext a (by simp), if_pos rfl]
  · rw [hnext x (List.mem_append_right _ hx), if_neg]
    exact (hsplit.2.2 a (by simp) x hx).symm

/-- Nodes that do not overlap are fewer than there are places for them. -/
theorem length_le_of_apart {xs : List ℕ} {d top : ℕ} (hd : 0 < d)
    (h : xs.Pairwise fun x y => x + d ≤ y ∨ y + d ≤ x) (hle : ∀ x ∈ xs, x ≤ top) :
    xs.length ≤ top / d + 1 := by
  have hnodup : (xs.map (· / d)).Nodup := by
    refine List.Pairwise.map _ (fun x y hxy heq => ?_) h
    have hx := Nat.div_add_mod x d
    have hy := Nat.div_add_mod y d
    have hx' := Nat.mod_lt x hd
    have hy' := Nat.mod_lt y hd
    rw [heq] at hx
    omega
  have hsub : xs.map (· / d) ⊆ List.range (top / d + 1) := by
    intro k hk
    obtain ⟨x, hx, rfl⟩ := List.mem_map.1 hk
    rw [List.mem_range]
    exact Nat.lt_succ_of_le (Nat.div_le_div_right (hle x hx))
  have hlength := (hnodup.subperm hsub).length_le
  rwa [List.length_map, List.length_range] at hlength

/-! ## Walks -/

/-- The nodes a walk passes that starts at `x` and goes on along `link` until it
meets the null link; at most as many as the fuel. -/
def follow (link : ℕ → ℕ) : ℕ → ℕ → List ℕ
  | 0, _ => []
  | fuel + 1, x => if x = 0 then [] else x :: follow link fuel (link x)

/-- **The forward walk passes the nodes in order.** -/
theorem Chained.follow : ∀ {xs : List ℕ} {fuel : ℕ}, Chained next xs 0 →
    (∀ x ∈ xs, x ≠ 0) → xs.length < fuel → follow next fuel (xs.headD 0) = xs := by
  intro xs
  induction xs with
  | nil =>
    intro fuel _ _ hfuel
    cases fuel with
    | zero => exact absurd hfuel (Nat.not_lt_zero _)
    | succ fuel => exact if_pos rfl
  | cons x xs ih =>
    rintro fuel ⟨h1, h2⟩ hnz hfuel
    cases fuel with
    | zero => exact absurd hfuel (Nat.not_lt_zero _)
    | succ fuel =>
      rw [List.headD_cons, Links.follow, if_neg (hnz x (by simp)), h1,
        ih h2 (fun y hy => hnz y (by simp [hy])) (by rw [List.length_cons] at hfuel; omega)]

theorem Linked.follow_next {xs : List ℕ} {p fuel : ℕ} (h : Linked prev next p xs 0)
    (hnz : ∀ x ∈ xs, x ≠ 0) (hfuel : xs.length < fuel) : follow next fuel (xs.headD 0) = xs :=
  h.chained.follow hnz hfuel

/-- **The backward walk passes them in reverse.** -/
theorem Linked.follow_prev {xs : List ℕ} : ∀ {q fuel : ℕ}, Linked prev next 0 xs q →
    (∀ x ∈ xs, x ≠ 0) → xs.length < fuel → follow prev fuel (xs.getLastD 0) = xs.reverse := by
  induction xs using List.reverseRecOn with
  | nil =>
    intro q fuel _ _ hfuel
    cases fuel with
    | zero => exact absurd hfuel (Nat.not_lt_zero _)
    | succ fuel => exact if_pos rfl
  | append_singleton xs x ih =>
    intro q fuel h hnz hfuel
    obtain ⟨h1, h2, -⟩ := linked_append.1 h
    rw [List.length_append, List.length_singleton] at hfuel
    cases fuel with
    | zero => exact absurd hfuel (Nat.not_lt_zero _)
    | succ fuel =>
      rw [List.getLastD_concat, follow, if_neg (hnz x (by simp)), h2,
        ih h1 (fun y hy => hnz y (by simp [hy])) (by omega), List.reverse_append,
        List.reverse_singleton, List.singleton_append]

end Links
