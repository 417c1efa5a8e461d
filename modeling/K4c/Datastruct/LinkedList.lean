import Mathlib.Tactic
import K4c.Lib.Links
import K4c.Lib.Words
import K4c.Mem.Size

/-!
# The intrusive singly linked list

The list is a handle with `size`, `head` and a cached `tail`; its nodes belong to
the caller.  A node is one word in memory, the address of the next node; 0 is
`NULL`.

* `Holds l m xs` — the handle `l` over the memory `m` is the list of the nodes
  `xs`: chained forwards, head, tail and size right.
* `push_spec`, `pushfront_spec`, `popleft_spec`, `removeAfter_spec` — the list
  operations under their C functions; each changes bytes of the list's own nodes
  only.
-/

namespace K4c

open Exec Links Words

/-- `k4c_linked_list`, without its allocator. -/
structure LinkedList where
  size : ℕ
  head : ℕ
  tail : ℕ
  deriving DecidableEq, Repr

namespace LinkedList

/-- `node->next`. -/
def next (m : Words.Memory) (node : ℕ) : ℕ := loadWord m node

/-- `node->next = v`. -/
def setNext (m : Words.Memory) (node v : ℕ) : Words.Memory := storeWord m node v

/-! ## The operations -/

/-- `k4c_linked_list_create`, once its handle is allocated. -/
def empty : LinkedList := ⟨0, 0, 0⟩

/-- `k4c_linked_list_push`. -/
def push (list : LinkedList) (m : Words.Memory) (node : ℕ) :
    Result (LinkedList × Words.Memory) := do
  check (node ≠ 0) "fatal: k4c_linked_list_push invalid arguments"
  let m := setNext m node 0
  let (list, m) :=
    if list.tail ≠ 0 then (list, setNext m list.tail node) else ({ list with head := node }, m)
  return ({ list with tail := node, size := ← sizeAdd list.size 1 }, m)

/-- `k4c_linked_list_pushfront`. -/
def pushfront (list : LinkedList) (m : Words.Memory) (node : ℕ) :
    Result (LinkedList × Words.Memory) := do
  check (node ≠ 0) "fatal: k4c_linked_list_pushfront invalid arguments"
  let m := setNext m node list.head
  let list := { list with head := node }
  let list := if list.tail = 0 then { list with tail := node } else list
  return ({ list with size := ← sizeAdd list.size 1 }, m)

/-- `k4c_linked_list_popleft`: the node, `NULL` when there is none. -/
def popleft (list : LinkedList) (m : Words.Memory) : Result (ℕ × LinkedList × Words.Memory) := do
  if list.head = 0 then return (0, list, m)
  let oldHead := list.head
  let list := { list with head := next m oldHead }
  let m := setNext m oldHead 0
  let list := if list.head = 0 then { list with tail := 0 } else list
  return (oldHead, { list with size := ← sizeSub list.size 1 }, m)

/-- `k4c_linked_list_remove_after`: the node, `NULL` when there is none. -/
def removeAfter (list : LinkedList) (m : Words.Memory) (prev : ℕ) :
    Result (ℕ × LinkedList × Words.Memory) := do
  if prev = 0 then return ← popleft list m
  let node := next m prev
  if node = 0 then return (0, list, m)
  let m := setNext m prev (next m node)
  let list := if list.tail = node then { list with tail := prev } else list
  let m := setNext m node 0
  return (node, { list with size := ← sizeSub list.size 1 }, m)

/-! ## Links in memory -/

/-- Two nodes that do not share storage. -/
def Apart (x y : ℕ) : Prop := x + 8 ≤ y ∨ y + 8 ≤ x

theorem next_setNext {m : Words.Memory} {n v x : ℕ} (hv : v ≤ sizeMax) (hx : x = n ∨ Apart n x) :
    next (setNext m n v) x = if x = n then v else next m x := by
  split
  · rename_i hxn
    rw [hxn, next, setNext, loadWord_storeWord_same (by unfold sizeMax at hv; omega)]
  · unfold Apart at hx
    exact loadWord_storeWord_of_disjoint (by omega)

/-- The memory changed in the nodes `xs` only. -/
def Relinked (xs : List ℕ) (m m' : Words.Memory) : Prop :=
  ∀ a, (∀ n ∈ xs, a < n ∨ n + 8 ≤ a) → m' a = m a

theorem Relinked.refl (xs : List ℕ) (m : Words.Memory) : Relinked xs m m := fun _ _ => rfl

theorem Relinked.setNext {xs : List ℕ} {m m' : Words.Memory} (h : Relinked xs m m') {n : ℕ}
    (hn : n ∈ xs) (v : ℕ) : Relinked xs m (setNext m' n v) :=
  fun a ha => (storeWord_outside (ha n hn)).trans (h a ha)

/-! ## What a handle stands for -/

/-- The handle is the list of these nodes. -/
structure Holds (list : LinkedList) (m : Words.Memory) (xs : List ℕ) : Prop where
  chained : Chained (next m) xs 0
  head_eq : list.head = xs.headD 0
  tail_eq : list.tail = xs.getLastD 0
  size_eq : list.size = xs.length
  apart : xs.Pairwise Apart
  ne_zero : ∀ x ∈ xs, x ≠ 0
  address : ∀ x ∈ xs, x ≤ sizeMax

theorem holds_empty (m : Words.Memory) : empty.Holds m [] :=
  ⟨trivial, rfl, rfl, rfl, .nil, by simp, by simp⟩

section Nodes

variable {list : LinkedList} {m : Words.Memory} {xs pre post : List ℕ} {n : ℕ}

theorem apart_of_mem (h : xs.Pairwise Apart) {x y : ℕ} (hx : x ∈ xs) (hy : y ∈ xs) (hne : x ≠ y) :
    Apart x y := by
  have hsymm : Std.Symm fun x y => x ≠ y → Apart x y :=
    ⟨fun _ _ hxy hne => Or.symm (hxy hne.symm)⟩
  have himp : xs.Pairwise fun x y => x ≠ y → Apart x y := by
    apply h.imp
    intro x y hxy _
    exact hxy
  exact himp.forall_of_forall (fun _ _ hne => absurd rfl hne) hx hy hne

/-- A link in one node of a list, read in any of them. -/
theorem next_setNext_of_mem (h : xs.Pairwise Apart) {a x v : ℕ} (ha : a ∈ xs) (hx : x ∈ xs)
    (hv : v ≤ sizeMax) : next (setNext m a v) x = if x = a then v else next m x := by
  apply next_setNext hv
  by_cases hxa : x = a
  · exact Or.inl hxa
  · exact Or.inr (apart_of_mem h ha hx (Ne.symm hxa))

theorem Holds.nodup (h : list.Holds m xs) : xs.Nodup := by
  apply h.apart.imp
  rintro x y hxy rfl
  unfold Apart at hxy
  omega

/-- Nodes that do not share storage are fewer than there are addresses. -/
theorem Holds.length_lt (h : list.Holds m xs) : xs.length < sizeMax := by
  have hle : xs.length ≤ sizeMax / 8 + 1 := length_le_of_apart (by decide) h.apart h.address
  unfold sizeMax at *
  omega

theorem Holds.head_eq_zero (h : list.Holds m xs) : list.head = 0 ↔ xs = [] := by
  rw [h.head_eq]
  cases xs with
  | nil => simp
  | cons c xs => simp [h.ne_zero c (by simp)]

theorem Holds.tail_eq_zero (h : list.Holds m xs) : list.tail = 0 ↔ xs = [] := by
  rw [h.tail_eq]
  rcases List.eq_nil_or_concat xs with rfl | ⟨ys, y, rfl⟩
  · simp
  · rw [List.concat_eq_append, List.getLastD_concat]
    simp [h.ne_zero y (by simp)]

theorem Holds.next_eq (h : list.Holds m (pre ++ n :: post)) : next m n = post.headD 0 :=
  (chained_append.1 h.chained).2.1

theorem headD_le_sizeMax (h : ∀ x ∈ xs, x ≤ sizeMax) : xs.headD 0 ≤ sizeMax := by
  cases xs with
  | nil => exact Nat.zero_le _
  | cons x xs => exact h x (List.mem_cons_self ..)

/-- A node that is apart from the list can be one of its nodes. -/
theorem Holds.cons_nodes (h : list.Holds m xs) (hn : n ≠ 0) (haddr : n ≤ sizeMax)
    (hapart : ∀ x ∈ xs, Apart n x) : (n :: xs).Pairwise Apart ∧ (∀ x ∈ n :: xs, x ≠ 0) ∧
      (∀ x ∈ n :: xs, x ≤ sizeMax) ∧ ∀ x ∈ xs, x ≠ n := by
  refine ⟨h.apart.cons hapart, List.forall_mem_cons.2 ⟨hn, h.ne_zero⟩,
    List.forall_mem_cons.2 ⟨haddr, h.address⟩, ?_⟩
  rintro x hx rfl
  have := hapart x hx
  unfold Apart at this
  omega

/-! ## Insertion -/

/-- A list behind whose last node another one was linked. -/
theorem Holds.append (h : list.Holds m xs) (hn : n ≠ 0) (haddr : n ≤ sizeMax)
    (hapart : ∀ x ∈ xs, Apart n x) {m' : Words.Memory}
    (hnext : ∀ x ∈ xs ++ [n],
      next m' x = if x = xs.getLastD 0 then n else if x = n then 0 else next m x) :
    Holds ⟨list.size + 1, (xs ++ [n]).headD 0, n⟩ m' (xs ++ [n]) := by
  obtain ⟨hap, hnz, haddrs, hne⟩ := h.cons_nodes hn haddr hapart
  have hperm : (xs ++ [n]).Perm (n :: xs) := List.perm_append_singleton n xs
  have hlast : n ≠ xs.getLastD 0 := fun heq =>
    hne _ (getLastD_mem (heq ▸ hn)) heq.symm
  refine ⟨chained_append.2 ⟨h.chained.setNext_last (p := 0) h.nodup (fun x hx hx' => ?_)
    fun hxs => ?_, ?_, trivial⟩, rfl, List.getLastD_concat.symm, ?_,
    (hperm.pairwise_iff fun hxy => Or.symm hxy).2 hap, fun x hx => hnz x (hperm.subset hx),
    fun x hx => haddrs x (hperm.subset hx)⟩
  · rw [hnext x (by simp [hx]), if_neg hx', if_neg (hne x hx)]
  · have hmem : xs.getLastD 0 ∈ xs := by
      apply getLastD_mem
      rw [← h.tail_eq]
      exact fun h0 => hxs (h.tail_eq_zero.1 h0)
    rw [hnext _ (List.mem_append_left _ hmem), if_pos rfl]
    rfl
  · rw [hnext n (by simp), if_neg hlast, if_pos rfl]
    rfl
  · simp [h.size_eq]

/-- **Appending.**  `push` puts a node that is apart from the list at its true
end. -/
theorem push_spec (h : list.Holds m xs) (hn : n ≠ 0) (haddr : n ≤ sizeMax)
    (hapart : ∀ x ∈ xs, Apart n x) :
    Sat (push list m n) fun p => p.1.Holds p.2 (xs ++ [n]) ∧ Relinked (xs ++ [n]) m p.2 := by
  have hap : (xs ++ [n]).Pairwise Apart :=
    ((List.perm_append_singleton n xs).pairwise_iff fun hxy => Or.symm hxy).2
      (h.apart.cons hapart)
  have hsize : sizeAdd list.size 1 = .ok (list.size + 1) := by
    have := h.length_lt
    exact sizeAdd_of_le (by rw [h.size_eq]; omega)
  have hmem : n ∈ xs ++ [n] := by simp
  set m₁ := setNext m n 0 with hm₁
  have hnext₁ : ∀ x ∈ xs ++ [n], next m₁ x = if x = n then 0 else next m x := fun x hx =>
    next_setNext_of_mem hap hmem hx (Nat.zero_le _)
  have hrel₁ : Relinked (xs ++ [n]) m m₁ := (Relinked.refl _ m).setNext hmem 0
  have hnz : ∀ x ∈ xs ++ [n], x ≠ 0 := by
    intro x hx
    rcases List.mem_append.1 hx with hx | hx
    · exact h.ne_zero x hx
    · rwa [List.mem_singleton.1 hx]
  unfold push
  rw [check_of hn, ok_bind]
  simp only [← hm₁]
  by_cases htail : list.tail = 0
  · rw [if_neg (not_not.2 htail)]
    simp only [hsize, ok_bind]
    have hholds : Holds ⟨list.size + 1, (xs ++ [n]).headD 0, n⟩ m₁ (xs ++ [n]) :=
      h.append hn haddr hapart fun x hx => by
        rw [← h.tail_eq, htail, if_neg (hnz x hx), hnext₁ x hx]
    rw [h.tail_eq_zero.1 htail] at hholds hrel₁ ⊢
    exact Sat.ok ⟨hholds, hrel₁⟩
  · have htail_mem : list.tail ∈ xs := by
      rw [h.tail_eq] at htail ⊢
      exact getLastD_mem htail
    rw [if_pos htail]
    simp only [hsize, ok_bind]
    have hhead : list.head = (xs ++ [n]).headD 0 := by
      rw [h.head_eq]
      cases xs with
      | nil => cases htail_mem
      | cons c xs => rfl
    have hholds : Holds ⟨list.size + 1, list.head, n⟩ (setNext m₁ list.tail n) (xs ++ [n]) := by
      rw [hhead]
      refine h.append hn haddr hapart fun x hx => ?_
      rw [next_setNext_of_mem hap (by simp [htail_mem]) hx haddr, ← h.tail_eq, hnext₁ x hx]
    exact Sat.ok ⟨hholds, hrel₁.setNext (by simp [htail_mem]) n⟩

/-- **Prepending.** -/
theorem pushfront_spec (h : list.Holds m xs) (hn : n ≠ 0) (haddr : n ≤ sizeMax)
    (hapart : ∀ x ∈ xs, Apart n x) :
    Sat (pushfront list m n) fun p => p.1.Holds p.2 (n :: xs) ∧ Relinked (n :: xs) m p.2 := by
  obtain ⟨hap, hnz, haddrs, hne⟩ := h.cons_nodes hn haddr hapart
  have hsize : sizeAdd list.size 1 = .ok (list.size + 1) := by
    have := h.length_lt
    exact sizeAdd_of_le (by rw [h.size_eq]; omega)
  have hhead : list.head ≤ sizeMax := by
    rw [h.head_eq]
    exact headD_le_sizeMax h.address
  have hchained : Chained (next (setNext m n list.head)) (n :: xs) 0 := by
    refine ⟨?_, h.chained.congr fun x hx => ?_⟩
    · rw [next_setNext hhead (Or.inl rfl), if_pos rfl, h.head_eq]
    · rw [next_setNext hhead (Or.inr (hapart x hx)), if_neg (hne x hx)]
  have hrel : Relinked (n :: xs) m (setNext m n list.head) :=
    (Relinked.refl _ m).setNext (List.mem_cons_self ..) _
  unfold pushfront
  rw [check_of hn, ok_bind]
  dsimp only
  by_cases ht : list.tail = 0
  · rw [if_pos ht]
    simp only [hsize, ok_bind]
    refine Sat.ok ⟨⟨hchained, rfl, ?_, by simp [h.size_eq], hap, hnz, haddrs⟩, hrel⟩
    rw [h.tail_eq_zero.1 ht]
    rfl
  · rw [if_neg ht]
    simp only [hsize, ok_bind]
    refine Sat.ok ⟨⟨hchained, rfl, ?_, by simp [h.size_eq], hap, hnz, haddrs⟩, hrel⟩
    rw [getLastD_cons]
    cases xs with
    | nil => exact absurd (h.tail_eq_zero.2 rfl) ht
    | cons c xs => exact h.tail_eq

/-! ## Removal -/

/-- **Popping at the front.** -/
theorem popleft_spec (h : list.Holds m (n :: post)) :
    Sat (popleft list m) fun p => p.1 = n ∧ p.2.1.Holds p.2.2 post ∧
      Relinked (n :: post) m p.2.2 ∧ next p.2.2 n = 0 := by
  obtain ⟨hnext, hrest⟩ := h.chained
  have hn0 : n ≠ 0 := h.ne_zero n (by simp)
  have hhead : list.head = n := h.head_eq
  obtain ⟨hapart, hap⟩ := List.pairwise_cons.1 h.apart
  have hne : ∀ x ∈ post, x ≠ n := by
    rintro x hx rfl
    exact (List.nodup_cons.1 h.nodup).1 hx
  have hsize : sizeSub list.size 1 = .ok post.length := by
    rw [h.size_eq, List.length_cons, sizeSub_of_le (by omega), Nat.add_sub_cancel]
  have hchained : Chained (next (setNext m n 0)) post 0 := hrest.congr fun x hx => by
    rw [next_setNext (Nat.zero_le _) (Or.inr (hapart x hx)), if_neg (hne x hx)]
  have hcleared : next (setNext m n 0) n = 0 := by
    rw [next_setNext (Nat.zero_le _) (Or.inl rfl), if_pos rfl]
  have hrel : Relinked (n :: post) m (setNext m n 0) :=
    (Relinked.refl _ m).setNext (List.mem_cons_self ..) 0
  have hnz : ∀ x ∈ post, x ≠ 0 := fun x hx => h.ne_zero x (List.mem_cons_of_mem _ hx)
  have haddr : ∀ x ∈ post, x ≤ sizeMax := fun x hx => h.address x (List.mem_cons_of_mem _ hx)
  unfold popleft
  rw [hhead, if_neg hn0]
  dsimp only
  rw [hnext]
  cases post with
  | nil =>
    rw [List.headD_nil, if_pos rfl]
    simp only [hsize, ok_bind]
    exact Sat.ok ⟨rfl, ⟨hchained, rfl, rfl, rfl, hap, hnz, haddr⟩, hrel, hcleared⟩
  | cons c post =>
    rw [List.headD_cons, if_neg (hnz c (by simp))]
    simp only [hsize, ok_bind]
    refine Sat.ok ⟨rfl, ⟨hchained, rfl, ?_, rfl, hap, hnz, haddr⟩, hrel, hcleared⟩
    rw [h.tail_eq, getLastD_cons, getLastD_cons, getLastD_cons]

/-- A list in which a node was linked past the one behind it, which was then cleared. -/
theorem Holds.unlink {a : ℕ} (h : list.Holds m (pre ++ a :: n :: post)) {m' : Words.Memory}
    (hm' : m' = setNext (setNext m a (post.headD 0)) n 0) :
    Holds ⟨(pre ++ a :: post).length, list.head, (pre ++ a :: post).getLastD 0⟩ m'
        (pre ++ a :: post) ∧ Relinked (pre ++ a :: n :: post) m m' ∧ next m' n = 0 := by
  have hsub : (pre ++ a :: post).Sublist (pre ++ a :: n :: post) :=
    (List.Sublist.refl pre).append ((List.sublist_cons_self n post).cons_cons a)
  have hhead : post.headD 0 ≤ sizeMax :=
    headD_le_sizeMax fun x hx => h.address x (hsub.subset (by simp [hx]))
  have hne_n : ∀ x ∈ pre ++ a :: post, x ≠ n := by
    have hnodup := h.nodup
    rw [List.append_cons, List.nodup_middle, ← List.append_cons] at hnodup
    rintro x hx rfl
    exact (List.nodup_cons.1 hnodup).1 hx
  have hnext : ∀ x ∈ pre ++ a :: n :: post,
      next m' x = if x = n then 0 else if x = a then post.headD 0 else next m x := by
    intro x hx
    rw [hm', next_setNext_of_mem h.apart (by simp) hx (Nat.zero_le _),
      next_setNext_of_mem h.apart (by simp) hx hhead]
  refine ⟨⟨h.chained.unlink (hsub.nodup h.nodup) fun x hx => ?_, ?_, rfl, rfl,
    h.apart.sublist hsub, fun x hx => h.ne_zero x (hsub.subset hx),
    fun x hx => h.address x (hsub.subset hx)⟩, ?_, ?_⟩
  · rw [hnext x (hsub.subset hx), if_neg (hne_n x hx)]
  · simp only [h.head_eq, headD_append]
    rfl
  · rw [hm']
    exact ((Relinked.refl _ m).setNext (by simp) _).setNext (by simp) 0
  · rw [hnext n (by simp), if_pos rfl]

/-- **Removal behind a node.**  `removeAfter` takes out what follows the node and
keeps the tail right when that was the last one. -/
theorem removeAfter_spec {a : ℕ} (h : list.Holds m (pre ++ a :: n :: post)) :
    Sat (removeAfter list m a) fun p => p.1 = n ∧ p.2.1.Holds p.2.2 (pre ++ a :: post) ∧
      Relinked (pre ++ a :: n :: post) m p.2.2 ∧ next p.2.2 n = 0 := by
  have ha0 : a ≠ 0 := h.ne_zero a (by simp)
  have hn0 : n ≠ 0 := h.ne_zero n (by simp)
  have hnext_a : next m a = n := h.next_eq
  have hnext_n : next m n = post.headD 0 := by
    have h' := h
    rw [List.append_cons] at h'
    exact h'.next_eq
  have hsize : sizeSub list.size 1 = .ok (pre ++ a :: post).length := by
    have hlength : (pre ++ a :: n :: post).length = (pre ++ a :: post).length + 1 := by simp; omega
    rw [h.size_eq, hlength, sizeSub_of_le (Nat.le_add_left 1 _), Nat.add_sub_cancel]
  have hunlink := h.unlink rfl
  unfold removeAfter
  rw [if_neg ha0]
  dsimp only
  rw [hnext_a, if_neg hn0, hnext_n]
  by_cases htail : list.tail = n
  · -- the node was the last one
    have hpost : post = [] := by
      rcases List.eq_nil_or_concat post with rfl | ⟨ys, y, rfl⟩
      · rfl
      · have hnodup := h.nodup
        rw [h.tail_eq, List.concat_eq_append, show pre ++ a :: n :: (ys ++ [y]) =
          (pre ++ a :: n :: ys) ++ [y] by simp, List.getLastD_concat] at htail
        rw [htail] at hnodup
        have hbehind := (List.nodup_cons.1 (List.nodup_append.1 hnodup).2.1).2
        exact absurd (by simp) (List.nodup_cons.1 hbehind).1
    rw [if_pos htail]
    simp only [hsize, ok_bind]
    rw [hpost] at hunlink ⊢
    rw [List.getLastD_concat] at hunlink
    exact Sat.ok ⟨rfl, hunlink⟩
  · have hlast : (pre ++ a :: post).getLastD 0 = list.tail := by
      cases post with
      | nil =>
        rw [h.tail_eq, List.append_cons, List.getLastD_concat] at htail
        exact absurd rfl htail
      | cons c post => simp only [h.tail_eq, getLastD_append, getLastD_cons]
    rw [if_neg htail]
    simp only [hsize, ok_bind]
    rw [hlast] at hunlink
    exact Sat.ok ⟨rfl, hunlink⟩

/-- Behind the last node there is nothing to remove. -/
theorem removeAfter_last {a : ℕ} (h : list.Holds m (pre ++ [a])) :
    removeAfter list m a = .ok (0, list, m) := by
  have hnext : next m a = 0 := h.next_eq
  rw [removeAfter, if_neg (h.ne_zero a (by simp))]
  dsimp only
  rw [hnext, if_pos rfl]
  rfl

/-- An empty list has nothing to pop. -/
theorem popleft_nil (h : list.Holds m []) : popleft list m = .ok (0, list, m) := by
  rw [popleft, if_pos (h.head_eq_zero.2 rfl)]
  rfl

end Nodes

end LinkedList
end K4c
