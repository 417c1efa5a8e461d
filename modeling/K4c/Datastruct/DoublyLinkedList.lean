import Mathlib.Tactic
import K4c.Lib.Links
import K4c.Lib.Words
import K4c.Mem.Size

/-!
# The intrusive doubly linked list

The list is a handle with `size`, `head` and `tail`; its nodes belong to the
caller and may lie anywhere, so the functions work over a `NodeStore`: whatever
holds two links for each node.  Nodes are addresses, 0 is `NULL`.

* `Holds l m xs` — the handle `l` over the store `m` is the list of the nodes
  `xs`: linked forwards and backwards, head, tail and size right.
* `push_spec`, `pushfront_spec`, `insertAfter_spec`, `remove_spec`, `popleft_spec`,
  `popback_spec` — the list operations under their C functions, with `Relinked`
  for what they leave alone: every store they do not reach through the links of
  their own nodes.
-/

namespace K4c

open Exec Links

/-- A store with two links in each node. -/
class NodeStore (M : Type) where
  prev : M → ℕ → ℕ
  next : M → ℕ → ℕ
  setPrev : M → ℕ → ℕ → M
  setNext : M → ℕ → ℕ → M
  /-- Two nodes whose links do not share storage. -/
  apart : ℕ → ℕ → Prop
  /-- An address that a link can hold. -/
  fits : ℕ → Prop
  apart_symm : ∀ {x y}, apart x y → apart y x
  apart_irrefl : ∀ x, ¬ apart x x
  fits_zero : fits 0
  prev_setPrev : ∀ {m n v x}, fits v → (x = n ∨ apart n x) →
    prev (setPrev m n v) x = if x = n then v else prev m x
  next_setNext : ∀ {m n v x}, fits v → (x = n ∨ apart n x) →
    next (setNext m n v) x = if x = n then v else next m x
  prev_setNext : ∀ {m n v x}, (x = n ∨ apart n x) → prev (setNext m n v) x = prev m x
  next_setPrev : ∀ {m n v x}, (x = n ∨ apart n x) → next (setPrev m n v) x = next m x

/-- `k4c_doubly_linked_list`, without its allocator. -/
structure DoublyLinkedList where
  size : ℕ
  head : ℕ
  tail : ℕ
  deriving DecidableEq, Repr

namespace DoublyLinkedList

open NodeStore

variable {M : Type} [NodeStore M]

/-! ## The operations -/

/-- `k4c_doubly_linked_list_create`, once its handle is allocated. -/
def empty : DoublyLinkedList := ⟨0, 0, 0⟩

/-- `k4c_doubly_linked_list_push`. -/
def push (list : DoublyLinkedList) (m : M) (node : ℕ) : Result (DoublyLinkedList × M) := do
  check (node ≠ 0) "fatal: k4c_doubly_linked_list_push invalid arguments"
  let m := setPrev m node list.tail
  let m := setNext m node 0
  let (list, m) :=
    if list.tail ≠ 0 then (list, setNext m list.tail node) else ({ list with head := node }, m)
  return ({ list with tail := node, size := ← sizeAdd list.size 1 }, m)

/-- `k4c_doubly_linked_list_pushfront`. -/
def pushfront (list : DoublyLinkedList) (m : M) (node : ℕ) : Result (DoublyLinkedList × M) := do
  check (node ≠ 0) "fatal: k4c_doubly_linked_list_pushfront invalid arguments"
  let m := setPrev m node 0
  let m := setNext m node list.head
  let (list, m) :=
    if list.head ≠ 0 then (list, setPrev m list.head node) else ({ list with tail := node }, m)
  return ({ list with head := node, size := ← sizeAdd list.size 1 }, m)

/-- `k4c_doubly_linked_list_insert_after`. -/
def insertAfter (list : DoublyLinkedList) (m : M) (after node : ℕ) :
    Result (DoublyLinkedList × M) := do
  check (node ≠ 0) "fatal: k4c_doubly_linked_list_insert_after invalid arguments"
  if after = 0 then pushfront list m node
  else
    let m := setPrev m node after
    let m := setNext m node (next m after)
    let (list, m) :=
      if next m after ≠ 0 then (list, setPrev m (next m after) node)
      else ({ list with tail := node }, m)
    let m := setNext m after node
    return ({ list with size := ← sizeAdd list.size 1 }, m)

/-- `k4c_doubly_linked_list_popleft`: the node, `NULL` when there is none. -/
def popleft (list : DoublyLinkedList) (m : M) : Result (ℕ × DoublyLinkedList × M) := do
  if list.head = 0 then return (0, list, m)
  let oldHead := list.head
  let list := { list with head := next m oldHead }
  let (list, m) :=
    if list.head ≠ 0 then (list, setPrev m list.head 0) else ({ list with tail := 0 }, m)
  let m := setPrev m oldHead 0
  let m := setNext m oldHead 0
  return (oldHead, { list with size := ← sizeSub list.size 1 }, m)

/-- `k4c_doubly_linked_list_popback`: the node, `NULL` when there is none. -/
def popback (list : DoublyLinkedList) (m : M) : Result (ℕ × DoublyLinkedList × M) := do
  if list.tail = 0 then return (0, list, m)
  let oldTail := list.tail
  let list := { list with tail := prev m oldTail }
  let (list, m) :=
    if list.tail ≠ 0 then (list, setNext m list.tail 0) else ({ list with head := 0 }, m)
  let m := setPrev m oldTail 0
  let m := setNext m oldTail 0
  return (oldTail, { list with size := ← sizeSub list.size 1 }, m)

/-- `k4c_doubly_linked_list_remove`. -/
def remove (list : DoublyLinkedList) (m : M) (node : ℕ) : Result (DoublyLinkedList × M) := do
  check (node ≠ 0) "fatal: k4c_doubly_linked_list_remove invalid arguments"
  let (list, m) :=
    if prev m node ≠ 0 then (list, setNext m (prev m node) (next m node))
    else ({ list with head := next m node }, m)
  let (list, m) :=
    if next m node ≠ 0 then (list, setPrev m (next m node) (prev m node))
    else ({ list with tail := prev m node }, m)
  let m := setPrev m node 0
  let m := setNext m node 0
  return ({ list with size := ← sizeSub list.size 1 }, m)

/-! ## What a handle stands for -/

/-- The handle is the list of these nodes. -/
structure Holds (list : DoublyLinkedList) (m : M) (xs : List ℕ) : Prop where
  linked : Linked (prev m) (next m) 0 xs 0
  head_eq : list.head = xs.headD 0
  tail_eq : list.tail = xs.getLastD 0
  size_eq : list.size = xs.length
  apart : xs.Pairwise (apart M)
  ne_zero : ∀ x ∈ xs, x ≠ 0
  fits : ∀ x ∈ xs, fits M x

/-- Two nodes of a list are the same node or do not share storage. -/
theorem same_or_apart {xs : List ℕ} (h : xs.Pairwise (NodeStore.apart M)) {x y : ℕ} (hx : x ∈ xs)
    (hy : y ∈ xs) : y = x ∨ NodeStore.apart M x y := by
  have hsymm : Std.Symm fun x y => y = x ∨ NodeStore.apart M x y :=
    ⟨fun _ _ hxy => hxy.imp Eq.symm apart_symm⟩
  exact List.Pairwise.forall_of_forall (R := fun x y => y = x ∨ NodeStore.apart M x y)
    (fun _ _ => Or.inl rfl) (h.imp fun hxy => Or.inr hxy) hx hy

theorem Holds.nodup {list : DoublyLinkedList} {m : M} {xs : List ℕ} (h : list.Holds m xs) :
    xs.Nodup := by
  refine List.Pairwise.imp ?_ h.apart
  rintro x y hxy rfl
  exact apart_irrefl _ hxy

section Neighbours

variable {list : DoublyLinkedList} {m : M} {pre post : List ℕ} {n : ℕ}

theorem Holds.prev_eq (h : list.Holds m (pre ++ n :: post)) : prev m n = pre.getLastD 0 :=
  (linked_append.1 h.linked).2.1

theorem Holds.next_eq (h : list.Holds m (pre ++ n :: post)) : next m n = post.headD 0 :=
  (linked_append.1 h.linked).2.2.1

theorem Holds.prev_mem (h : list.Holds m (pre ++ n :: post)) (hp : prev m n ≠ 0) :
    prev m n ∈ pre := by
  rw [h.prev_eq] at hp ⊢
  exact getLastD_mem hp

theorem Holds.next_mem (h : list.Holds m (pre ++ n :: post)) (hn : next m n ≠ 0) :
    next m n ∈ post := by
  rw [h.next_eq] at hn ⊢
  exact headD_mem hn

theorem Holds.prev_eq_zero (h : list.Holds m (pre ++ n :: post)) : prev m n = 0 ↔ pre = [] := by
  constructor
  · intro h0
    rw [h.prev_eq] at h0
    rcases List.eq_nil_or_concat pre with rfl | ⟨ys, y, rfl⟩
    · rfl
    · rw [List.concat_eq_append, List.getLastD_concat] at h0
      exact absurd h0 (h.ne_zero y (by simp))
  · rintro rfl
    exact h.prev_eq

theorem Holds.next_eq_zero (h : list.Holds m (pre ++ n :: post)) : next m n = 0 ↔ post = [] := by
  constructor
  · intro h0
    rw [h.next_eq] at h0
    cases post with
    | nil => rfl
    | cons c post => exact absurd h0 (h.ne_zero c (by simp))
  · rintro rfl
    exact h.next_eq

theorem Holds.fits_prev (h : list.Holds m (pre ++ n :: post)) : NodeStore.fits M (prev m n) := by
  by_cases h0 : prev m n = 0
  · rw [h0]
    exact fits_zero
  · exact h.fits _ (List.mem_append_left _ (h.prev_mem h0))

theorem Holds.fits_next (h : list.Holds m (pre ++ n :: post)) : NodeStore.fits M (next m n) := by
  by_cases h0 : next m n = 0
  · rw [h0]
    exact fits_zero
  · exact h.fits _ (List.mem_append_right _ (List.mem_cons_of_mem _ (h.next_mem h0)))

/-- An empty list has no ends. -/
theorem Holds.head_eq_zero {xs : List ℕ} (h : list.Holds m xs) : list.head = 0 ↔ xs = [] := by
  rw [h.head_eq]
  cases xs with
  | nil => simp
  | cons c xs => simp [h.ne_zero c (by simp)]

theorem Holds.tail_eq_zero {xs : List ℕ} (h : list.Holds m xs) : list.tail = 0 ↔ xs = [] := by
  rw [h.tail_eq]
  rcases List.eq_nil_or_concat xs with rfl | ⟨ys, y, rfl⟩
  · simp
  · rw [List.concat_eq_append, List.getLastD_concat]
    simp [h.ne_zero y (by simp)]

end Neighbours

/-- The store changed in the links of the nodes `xs` only. -/
inductive Relinked (xs : List ℕ) (m : M) : M → Prop
  | refl : Relinked xs m m
  | setPrev {m' : M} {n v : ℕ} : Relinked xs m m' → n ∈ xs → Relinked xs m (setPrev m' n v)
  | setNext {m' : M} {n v : ℕ} : Relinked xs m m' → n ∈ xs → Relinked xs m (setNext m' n v)

/-! ## Insertion and removal -/

theorem holds_empty (m : M) : empty.Holds m [] :=
  ⟨trivial, rfl, rfl, rfl, .nil, by simp, by simp⟩

section Insertion

variable {list : DoublyLinkedList} {m : M} {xs zs pre post : List ℕ} {a b n : ℕ}

/-- The stores that put the node `n` between `a` and `b`, each of which may be absent. -/
def between (m : M) (a n b : ℕ) : M :=
  let m := setNext (setPrev m n a) n b
  let m := if b ≠ 0 then setPrev m b n else m
  if a ≠ 0 then setNext m a n else m

/-- What these stores leave in the links of nodes that are apart. -/
theorem between_links (hap : zs.Pairwise (NodeStore.apart M)) (h0 : 0 ∉ zs) (hn : n ∈ zs)
    (ha : a = 0 ∨ a ∈ zs) (hb : b = 0 ∨ b ∈ zs) (hfit : ∀ x ∈ zs, NodeStore.fits M x) {x : ℕ}
    (hx : x ∈ zs) :
    prev (between m a n b) x = (if x = b then n else if x = n then a else prev m x) ∧
      next (between m a n b) x = if x = a then n else if x = n then b else next m x := by
  have hso : ∀ {y}, y ∈ zs → x = y ∨ NodeStore.apart M y x := fun hy => same_or_apart hap hy hx
  have hfit' : ∀ {y}, y = 0 ∨ y ∈ zs → NodeStore.fits M y := by
    rintro y (rfl | hy)
    · exact fits_zero
    · exact hfit y hy
  have hx0 : x ≠ 0 := fun h => h0 (h ▸ hx)
  set m₁ := setNext (setPrev m n a) n b with hm₁
  have hprev₁ : prev m₁ x = if x = n then a else prev m x := by
    rw [hm₁, prev_setNext (hso hn), prev_setPrev (hfit' ha) (hso hn)]
  have hnext₁ : next m₁ x = if x = n then b else next m x := by
    rw [hm₁, next_setNext (hfit' hb) (hso hn), next_setPrev (hso hn)]
  set m₂ := if b ≠ 0 then setPrev m₁ b n else m₁ with hm₂
  have hlinks₂ : prev m₂ x = (if x = b then n else prev m₁ x) ∧ next m₂ x = next m₁ x := by
    rw [hm₂]
    rcases hb with rfl | hb
    · rw [if_neg (not_not.2 rfl), if_neg hx0]
      exact ⟨rfl, rfl⟩
    · rw [if_pos fun h : b = 0 => h0 (h ▸ hb)]
      exact ⟨prev_setPrev (hfit n hn) (hso hb), next_setPrev (hso hb)⟩
  have hlinks₃ : prev (between m a n b) x = prev m₂ x ∧
      next (between m a n b) x = if x = a then n else next m₂ x := by
    change prev (if a ≠ 0 then setNext m₂ a n else m₂) x = _ ∧
      next (if a ≠ 0 then setNext m₂ a n else m₂) x = _
    rcases ha with rfl | ha
    · rw [if_neg (not_not.2 rfl), if_neg hx0]
      exact ⟨rfl, rfl⟩
    · rw [if_pos fun h : a = 0 => h0 (h ▸ ha)]
      exact ⟨prev_setNext (hso ha), next_setNext (hfit n hn) (hso ha)⟩
  rw [hlinks₃.1, hlinks₃.2, hlinks₂.1, hlinks₂.2, hprev₁, hnext₁]
  exact ⟨rfl, rfl⟩

theorem between_relinked (hn : n ∈ zs) (ha : a = 0 ∨ a ∈ zs) (hb : b = 0 ∨ b ∈ zs) :
    Relinked zs m (between m a n b) := by
  have h₁ : Relinked zs m (setNext (setPrev m n a) n b) :=
    (Relinked.refl.setPrev hn).setNext hn
  have h₂ : Relinked zs m (if b ≠ 0 then setPrev (setNext (setPrev m n a) n b) b n
      else setNext (setPrev m n a) n b) := by
    split
    · exact h₁.setPrev (hb.resolve_left ‹_›)
    · exact h₁
  rw [between]
  split
  · exact h₂.setNext (ha.resolve_left ‹_›)
  · exact h₂

/-- **A node in between.**  A list into which a node that is apart from it was linked. -/
theorem Holds.insert (h : list.Holds m (pre ++ post)) (hn : n ≠ 0) (hfit : NodeStore.fits M n)
    (hapart : ∀ x ∈ pre ++ post, NodeStore.apart M n x) :
    Holds ⟨list.size + 1, (pre ++ n :: post).headD 0, (pre ++ n :: post).getLastD 0⟩
        (between m (pre.getLastD 0) n (post.headD 0)) (pre ++ n :: post) ∧
      Relinked (pre ++ n :: post) m (between m (pre.getLastD 0) n (post.headD 0)) := by
  have hperm : (pre ++ n :: post).Perm (n :: (pre ++ post)) := List.perm_middle
  have hap : (pre ++ n :: post).Pairwise (NodeStore.apart M) :=
    (hperm.pairwise_iff apart_symm).2 (h.apart.cons hapart)
  have hnodup : (pre ++ n :: post).Nodup :=
    hperm.nodup_iff.2 (List.nodup_cons.2 ⟨fun hx => apart_irrefl _ (hapart n hx), h.nodup⟩)
  have hall : ∀ {P : ℕ → Prop}, P n → (∀ x ∈ pre ++ post, P x) → ∀ x ∈ pre ++ n :: post, P x := by
    intro P hPn hP x hx
    rcases List.mem_cons.1 (hperm.subset hx) with rfl | hx
    · exact hPn
    · exact hP x hx
  have hnz := hall hn h.ne_zero
  have hfits := hall hfit h.fits
  have h0 : 0 ∉ pre ++ n :: post := fun h0 => hnz 0 h0 rfl
  have hmem : n ∈ pre ++ n :: post := by simp
  have ha : pre.getLastD 0 = 0 ∨ pre.getLastD 0 ∈ pre ++ n :: post := by
    refine (eq_or_ne _ _).imp id fun hne => ?_
    exact List.mem_append_left _ (getLastD_mem hne)
  have hb : post.headD 0 = 0 ∨ post.headD 0 ∈ pre ++ n :: post := by
    refine (eq_or_ne _ _).imp id fun hne => ?_
    exact List.mem_append_right _ (List.mem_cons_of_mem n (headD_mem hne))
  have hlinks := fun x hx => between_links (m := m) (x := x) hap h0 hmem ha hb hfits hx
  refine ⟨⟨h.linked.insert hnodup h0 h0 (fun x hx => (hlinks x hx).1) fun x hx => (hlinks x hx).2,
    rfl, rfl, ?_, hap, hnz, hfits⟩, between_relinked hmem ha hb⟩
  simp only [h.size_eq, List.length_append, List.length_cons]
  omega

/-- **Appending.**  `push` puts a node that is apart from the list at its end. -/
theorem push_spec (h : list.Holds m xs) (hn : n ≠ 0) (hfit : NodeStore.fits M n)
    (hapart : ∀ x ∈ xs, NodeStore.apart M n x) (hsize : list.size < sizeMax) :
    Sat (push list m n) fun p => p.1.Holds p.2 (xs ++ [n]) ∧ Relinked (xs ++ [n]) m p.2 := by
  have hpush : push list m n = .ok (⟨list.size + 1, (xs ++ [n]).headD 0, (xs ++ [n]).getLastD 0⟩,
      between m (xs.getLastD 0) n 0) := by
    rw [push, check_of hn, ok_bind, between, ← h.tail_eq]
    by_cases htail : list.tail = 0
    · rw [h.tail_eq_zero.1 htail]
      simp [htail, sizeAdd_of_le (show list.size + 1 ≤ sizeMax by omega)]
    · have hhead : (xs ++ [n]).headD 0 = list.head := by
        rw [h.head_eq]
        cases xs with
        | nil => exact absurd h.tail_eq htail
        | cons c xs => rfl
      rw [hhead]
      simp [htail, sizeAdd_of_le (show list.size + 1 ≤ sizeMax by omega)]
  have h' : list.Holds m (xs ++ []) := by rwa [List.append_nil]
  exact ⟨_, hpush, h'.insert hn hfit (by rwa [List.append_nil])⟩

/-- **Prepending.**  `pushfront` puts a node that is apart from the list at its
front. -/
theorem pushfront_spec (h : list.Holds m xs) (hn : n ≠ 0) (hfit : NodeStore.fits M n)
    (hapart : ∀ x ∈ xs, NodeStore.apart M n x) (hsize : list.size < sizeMax) :
    Sat (pushfront list m n) fun p => p.1.Holds p.2 (n :: xs) ∧ Relinked (n :: xs) m p.2 := by
  have hpush : pushfront list m n = .ok (⟨list.size + 1, n, (n :: xs).getLastD 0⟩,
      between m 0 n (xs.headD 0)) := by
    rw [pushfront, check_of hn, ok_bind, between, ← h.head_eq]
    by_cases hhead : list.head = 0
    · rw [h.head_eq_zero.1 hhead]
      simp [hhead, sizeAdd_of_le (show list.size + 1 ≤ sizeMax by omega)]
    · have htail : (n :: xs).getLastD 0 = list.tail := by
        rw [h.tail_eq, getLastD_cons]
        cases xs with
        | nil => exact absurd h.head_eq hhead
        | cons c xs => rw [getLastD_cons, getLastD_cons]
      rw [htail]
      simp [hhead, sizeAdd_of_le (show list.size + 1 ≤ sizeMax by omega)]
  have h' : list.Holds m ([] ++ xs) := h
  exact ⟨_, hpush, h'.insert hn hfit hapart⟩

/-- **Insertion.**  `insertAfter` puts a node that is apart from the list right
behind one of its nodes. -/
theorem insertAfter_spec (h : list.Holds m (pre ++ a :: post)) (hn : n ≠ 0)
    (hfit : NodeStore.fits M n) (hapart : ∀ x ∈ pre ++ a :: post, NodeStore.apart M n x)
    (hsize : list.size < sizeMax) :
    Sat (insertAfter list m a n) fun p =>
      p.1.Holds p.2 (pre ++ a :: n :: post) ∧ Relinked (pre ++ a :: n :: post) m p.2 := by
  have ha0 : a ≠ 0 := h.ne_zero a (by simp)
  have hna : a = n ∨ NodeStore.apart M n a := .inr (hapart a (by simp))
  have hnext : next (setPrev m n a) a = next m a := next_setPrev hna
  have hnext' : next (setNext (setPrev m n a) n (next m a)) a = next m a := by
    rw [next_setNext h.fits_next hna, hnext, ite_self]
  have hinsert : insertAfter list m a n = .ok (⟨list.size + 1, (pre ++ a :: n :: post).headD 0,
      (pre ++ a :: n :: post).getLastD 0⟩, between m a n (next m a)) := by
    have hhead : (pre ++ a :: n :: post).headD 0 = list.head := by
      simp only [h.head_eq, headD_append]
      rfl
    rw [hhead, insertAfter, check_of hn, ok_bind, if_neg ha0, between]
    simp only [hnext, hnext']
    by_cases hv0 : next m a = 0
    · rw [h.next_eq_zero.1 hv0]
      simp [hv0, ha0, sizeAdd_of_le (show list.size + 1 ≤ sizeMax by omega)]
    · have htail : (pre ++ a :: n :: post).getLastD 0 = list.tail := by
        cases post with
        | nil => exact absurd h.next_eq hv0
        | cons c post =>
          simp only [h.tail_eq, getLastD_append, getLastD_cons]
      rw [htail]
      simp [hv0, ha0, sizeAdd_of_le (show list.size + 1 ≤ sizeMax by omega)]
  have h' : list.Holds m (pre ++ [a] ++ post) := by rwa [List.append_assoc]
  have hholds := h'.insert hn hfit (by rwa [List.append_assoc])
  rw [List.getLastD_concat, ← h.next_eq, List.append_assoc] at hholds
  exact ⟨_, hinsert, hholds⟩

end Insertion

section Removal

variable {list : DoublyLinkedList} {m : M} {pre post : List ℕ} {n : ℕ}

/-- The first half of `remove`: what precedes the node is linked forwards past
it. -/
theorem remove_forward (h : list.Holds m (pre ++ n :: post)) : ∃ l₁ : DoublyLinkedList, ∃ m₁ : M,
    (if prev m n ≠ 0 then (list, setNext m (prev m n) (next m n))
      else ({ list with head := next m n }, m)) = (l₁, m₁) ∧
    l₁.size = list.size ∧ l₁.tail = list.tail ∧ l₁.head = (pre ++ post).headD 0 ∧
    (∀ x ∈ pre ++ n :: post, prev m₁ x = prev m x) ∧
    (∀ x ∈ pre ++ n :: post, next m₁ x = if x = prev m n then next m n else next m x) ∧
    Relinked (pre ++ n :: post) m m₁ := by
  by_cases hp0 : prev m n = 0
  · rw [if_neg (not_not.2 hp0)]
    refine ⟨_, _, rfl, rfl, rfl, ?_, fun _ _ => rfl, ?_, .refl⟩
    · rw [h.prev_eq_zero.1 hp0]
      exact h.next_eq
    · intro x hx
      rw [hp0, if_neg (h.ne_zero x hx)]
  · have hmem : prev m n ∈ pre ++ n :: post := List.mem_append_left _ (h.prev_mem hp0)
    rw [if_pos hp0]
    refine ⟨_, _, rfl, rfl, rfl, ?_, fun x hx => prev_setNext (same_or_apart h.apart hmem hx),
      fun x hx => next_setNext h.fits_next (same_or_apart h.apart hmem hx),
      Relinked.refl.setNext hmem⟩
    cases pre with
    | nil => exact absurd h.prev_eq hp0
    | cons c pre => exact h.head_eq

/-- The second half of `remove`: what follows the node is linked back past it. -/
theorem remove_backward (h : list.Holds m (pre ++ n :: post)) {l₁ : DoublyLinkedList} {m₁ : M}
    (htail : l₁.tail = list.tail)
    (hprev₁ : ∀ x ∈ pre ++ n :: post, prev m₁ x = prev m x) :
    ∃ l₂ : DoublyLinkedList, ∃ m₂ : M,
      (if next m n ≠ 0 then (l₁, setPrev m₁ (next m n) (prev m n))
        else ({ l₁ with tail := prev m n }, m₁)) = (l₂, m₂) ∧
      l₂.size = l₁.size ∧ l₂.head = l₁.head ∧ l₂.tail = (pre ++ post).getLastD 0 ∧
      (∀ x ∈ pre ++ n :: post, prev m₂ x = if x = next m n then prev m n else prev m x) ∧
      (∀ x ∈ pre ++ n :: post, next m₂ x = next m₁ x) ∧
      (Relinked (pre ++ n :: post) m m₁ → Relinked (pre ++ n :: post) m m₂) := by
  by_cases hv0 : next m n = 0
  · rw [if_neg (not_not.2 hv0)]
    refine ⟨_, _, rfl, rfl, rfl, ?_, ?_, fun _ _ => rfl, id⟩
    · rw [h.next_eq_zero.1 hv0, List.append_nil]
      exact h.prev_eq
    · intro x hx
      rw [hv0, if_neg (h.ne_zero x hx), hprev₁ x hx]
  · have hmem : next m n ∈ pre ++ n :: post :=
      List.mem_append_right _ (List.mem_cons_of_mem _ (h.next_mem hv0))
    rw [if_pos hv0]
    refine ⟨_, _, rfl, rfl, rfl, ?_, ?_,
      fun x hx => next_setPrev (same_or_apart h.apart hmem hx), fun hr => hr.setPrev hmem⟩
    · cases post with
      | nil => exact absurd h.next_eq hv0
      | cons c post =>
        rw [htail, h.tail_eq, getLastD_append, getLastD_append]
        simp only [getLastD_cons]
    · intro x hx
      rw [prev_setPrev h.fits_prev (same_or_apart h.apart hmem hx), hprev₁ x hx]

/-- **Removal.**  `remove` takes a node out of the list and clears its links. -/
theorem remove_spec (h : list.Holds m (pre ++ n :: post)) :
    Sat (remove list m n) fun p =>
      p.1.Holds p.2 (pre ++ post) ∧ Relinked (pre ++ n :: post) m p.2 ∧
        prev p.2 n = 0 ∧ next p.2 n = 0 := by
  have hn : n ∈ pre ++ n :: post := by simp
  have hso : ∀ {x}, x ∈ pre ++ n :: post → x = n ∨ NodeStore.apart M n x :=
    fun hx => same_or_apart h.apart hn hx
  have hrest : ∀ x ∈ pre ++ post, x ∈ pre ++ n :: post ∧ x ≠ n := by
    intro x hx
    refine ⟨?_, ?_⟩
    · simp only [List.mem_append, List.mem_cons] at hx ⊢
      tauto
    · rintro rfl
      exact (List.nodup_cons.1 (List.nodup_middle.1 h.nodup)).1 hx
  have h0 : 0 ∉ pre ++ n :: post := fun h0 => h.ne_zero 0 h0 rfl
  have hne_prev : n ≠ prev m n := by
    rw [h.prev_eq]
    exact getLastD_ne_of_mem h.nodup h0 (List.mem_cons_self ..)
  obtain ⟨l₁, m₁, hstep₁, hsize₁, htail₁, hhead₁, hprev₁, hnext₁, hrel₁⟩ := remove_forward h
  obtain ⟨l₂, m₂, hstep₂, hsize₂, hhead₂, htail₂, hprev₂, hnext₂, hrel₂⟩ :=
    remove_backward h htail₁ hprev₁
  have hprev_n : prev m₁ n = prev m n := hprev₁ n hn
  have hnext_n : next m₁ n = next m n := by rw [hnext₁ n hn, if_neg hne_prev]
  have hsize : l₂.size = pre.length + post.length + 1 := by
    rw [hsize₂, hsize₁, h.size_eq, List.length_append, List.length_cons, Nat.add_assoc]
  unfold remove
  rw [check_of (h.ne_zero n hn), ok_bind, hstep₁]
  simp only [hprev_n, hnext_n, hstep₂, hsize, sizeSub_of_le (Nat.le_add_left 1 _), ok_bind]
  refine Sat.ok ⟨⟨h.linked.unlink h.nodup h0 h0 ?_ ?_, hhead₂.trans hhead₁, htail₂, ?_, ?_, ?_, ?_⟩,
    ((hrel₂ hrel₁).setPrev hn).setNext hn, ?_, ?_⟩
  · intro x hx
    obtain ⟨hx, hxn⟩ := hrest x hx
    rw [prev_setNext (hso hx), prev_setPrev fits_zero (hso hx), if_neg hxn, hprev₂ x hx]
  · intro x hx
    obtain ⟨hx, hxn⟩ := hrest x hx
    rw [next_setNext fits_zero (hso hx), if_neg hxn, next_setPrev (hso hx), hnext₂ x hx,
      hnext₁ x hx]
  · simp only [List.length_append, Nat.add_sub_cancel]
  · exact h.apart.sublist ((List.Sublist.refl pre).append (List.sublist_cons_self n post))
  · exact fun x hx => h.ne_zero x (hrest x hx).1
  · exact fun x hx => h.fits x (hrest x hx).1
  · rw [prev_setNext (Or.inl rfl), prev_setPrev fits_zero (Or.inl rfl), if_pos rfl]
  · rw [next_setNext fits_zero (Or.inl rfl), if_pos rfl]

/-- `popleft` removes the head. -/
theorem popleft_eq (h : list.Holds m (n :: post)) :
    popleft list m = (remove list m n >>= fun p => .ok (n, p)) := by
  have hhead : list.head = n := h.head_eq
  have hfront : list.Holds m ([] ++ n :: post) := h
  have hprev : prev m n = 0 := hfront.prev_eq
  have hn0 : n ≠ 0 := h.ne_zero n (by simp)
  unfold popleft remove
  rw [hhead, if_neg hn0, check_of hn0, ok_bind, if_neg (not_not.2 hprev)]
  dsimp only
  rw [hprev]
  by_cases hv0 : next m n = 0
  · rw [if_neg (not_not.2 hv0)]
    cases sizeSub list.size 1 <;> rfl
  · rw [if_pos hv0]
    cases sizeSub list.size 1 <;> rfl

/-- `popback` removes the tail. -/
theorem popback_eq (h : list.Holds m (pre ++ [n])) :
    popback list m = (remove list m n >>= fun p => .ok (n, p)) := by
  have htail : n = list.tail := (h.tail_eq.trans List.getLastD_concat).symm
  subst htail
  have hnext : next m list.tail = 0 := h.next_eq
  have hn0 : list.tail ≠ 0 := h.ne_zero _ (by simp)
  obtain ⟨l₁, m₁, hstep₁, -, -, -, hprev₁, hnext₁, -⟩ := remove_forward h
  have hnext_n : next m₁ list.tail = 0 := by
    rw [hnext₁ _ (by simp), hnext, ite_self]
  unfold popback remove
  rw [if_neg hn0, check_of hn0, ok_bind, hstep₁]
  dsimp only
  rw [if_neg (not_not.2 hnext_n), hprev₁ _ (by simp)]
  rw [hnext] at hstep₁
  by_cases hp0 : prev m list.tail = 0
  · rw [if_neg (not_not.2 hp0)] at hstep₁ ⊢
    obtain ⟨rfl, rfl⟩ := Prod.mk.inj hstep₁
    dsimp only
    rw [hp0]
    cases sizeSub list.size 1 <;> rfl
  · rw [if_pos hp0] at hstep₁ ⊢
    obtain ⟨rfl, rfl⟩ := Prod.mk.inj hstep₁
    dsimp only
    cases sizeSub list.size 1 <;> rfl

/-- **Popping at the front.** -/
theorem popleft_spec (h : list.Holds m (n :: post)) :
    Sat (popleft list m) fun p => p.1 = n ∧ p.2.1.Holds p.2.2 post ∧
      Relinked (n :: post) m p.2.2 ∧ prev p.2.2 n = 0 ∧ next p.2.2 n = 0 := by
  rw [popleft_eq h]
  have hfront : list.Holds m ([] ++ n :: post) := h
  exact (remove_spec hfront).bind fun p hp => Sat.ok ⟨rfl, hp⟩

/-- **Popping at the back.** -/
theorem popback_spec (h : list.Holds m (pre ++ [n])) :
    Sat (popback list m) fun p => p.1 = n ∧ p.2.1.Holds p.2.2 pre ∧
      Relinked (pre ++ [n]) m p.2.2 ∧ prev p.2.2 n = 0 ∧ next p.2.2 n = 0 := by
  rw [popback_eq h]
  refine (remove_spec h).bind fun p hp => Sat.ok ⟨rfl, ?_⟩
  rwa [List.append_nil] at hp

end Removal

/-! ## Links in memory -/

open Words

/-- Nodes in byte-addressed memory: `prev`, then `next`. -/
instance : NodeStore Words.Memory where
  prev m n := loadWord m n
  next m n := loadWord m (n + 8)
  setPrev m n v := storeWord m n v
  setNext m n v := storeWord m (n + 8) v
  apart x y := x + 16 ≤ y ∨ y + 16 ≤ x
  fits v := v ≤ sizeMax
  apart_symm h := h.symm
  apart_irrefl x h := by omega
  fits_zero := Nat.zero_le _
  prev_setPrev := by
    intro m n v x hv hx
    split
    · rename_i hxn
      rw [hxn, loadWord_storeWord_same (by unfold sizeMax at hv; omega)]
    · exact loadWord_storeWord_of_disjoint (by omega)
  next_setNext := by
    intro m n v x hv hx
    split
    · rename_i hxn
      rw [hxn, loadWord_storeWord_same (by unfold sizeMax at hv; omega)]
    · exact loadWord_storeWord_of_disjoint (by omega)
  prev_setNext := by
    intro m n v x hx
    exact loadWord_storeWord_of_disjoint (by omega)
  next_setPrev := by
    intro m n v x hx
    exact loadWord_storeWord_of_disjoint (by omega)

/-- A list in memory depends on the bytes of its nodes only. -/
theorem Holds.congr {list : DoublyLinkedList} {m m' : Words.Memory} {xs : List ℕ}
    (h : list.Holds m xs) (hsame : ∀ n ∈ xs, ∀ x, n ≤ x → x < n + 16 → m' x = m x) :
    list.Holds m' xs where
  linked := h.linked.congr
    (fun n hn => loadWord_congr fun x h1 h2 => hsame n hn x h1 (by omega))
    (fun n hn => loadWord_congr fun x h1 h2 => hsame n hn x (by omega) (by omega))
  head_eq := h.head_eq
  tail_eq := h.tail_eq
  size_eq := h.size_eq
  apart := h.apart
  ne_zero := h.ne_zero
  fits := h.fits

/-- Relinking changes no byte outside of the nodes. -/
theorem Relinked.outside {xs : List ℕ} {m m' : Words.Memory} (h : Relinked xs m m') {a : ℕ}
    (ha : ∀ x ∈ xs, a < x ∨ x + 16 ≤ a) : m' a = m a := by
  induction h with
  | refl => rfl
  | setPrev _ hn ih => exact (storeWord_outside (by have := ha _ hn; omega)).trans ih
  | setNext _ hn ih => exact (storeWord_outside (by have := ha _ hn; omega)).trans ih

end DoublyLinkedList
end K4c
