import Mathlib.Tactic
import K4c.Datastruct.DoublyLinkedList
import K4c.Datastruct.Iterator
import K4c.Lib.Runs

/-!
# A doubly linked list is a sequence of nodes

A client inserts, pops and removes nodes of its own memory in any order.  A node
that is inserted is in no list; a node that is removed, or inserted after, is in
this one.

* `Spec` — the calls on the sequence of nodes.
* `IsSequence` — what a client can see of the links: both chains, the ends, the
  size and the iterator.
* `Keeps` — what one call does to the links of nodes that are not in the list.
* `refines_sequence` — the refinement.
-/

namespace K4c.DoublyLinkedList

open Exec Links Runs

/-! ## The iterator -/

/-- `k4c_doubly_linked_list_iterator_next`, on the node that comes next. -/
def iteratorNext {M : Type} [NodeStore M] (m : M) (node : ℕ) : Result (Option ℕ × ℕ) :=
  if node = 0 then .ok (none, node) else .ok (some node, NodeStore.next m node)

/-- `k4c_doubly_linked_list_get_iterator`. -/
def getIterator (list : DoublyLinkedList) : Iterator ℕ :=
  (Iterator.fromState list.head).setSizeHint list.size

theorem iteratorNext_yields {M : Type} [NodeStore M] {m : M} : ∀ {xs : List ℕ} {p : ℕ},
    Linked (NodeStore.prev m) (NodeStore.next m) p xs 0 → (∀ x ∈ xs, x ≠ 0) →
    Iterator.Yields (iteratorNext m) (xs.headD 0) xs := by
  intro xs
  induction xs with
  | nil => intro p _ _; exact .done (if_pos rfl)
  | cons x xs ih =>
    rintro p ⟨-, hnext, hrest⟩ hnz
    obtain ⟨hx, hnz⟩ := List.forall_mem_cons.1 hnz
    refine .item ?_ (ih hrest hnz)
    rw [iteratorNext, List.headD_cons, if_neg hx, hnext]

/-! ## The client -/

/-- A list, and the memory its nodes lie in. -/
structure State where
  list : DoublyLinkedList
  mem : Words.Memory

/-- A call on the list. -/
inductive Call where
  | push (node : ℕ)
  | pushfront (node : ℕ)
  | insertAfter (after node : ℕ)
  | popleft
  | popback
  | remove (node : ℕ)
  deriving DecidableEq, Repr

/-- The node a call puts into the list. -/
def Call.inserted : Call → Option ℕ
  | .push node => some node
  | .pushfront node => some node
  | .insertAfter _ node => some node
  | _ => none

/-- The node a call with this answer takes out of the list. -/
def Call.removed : Call → ℕ → Option ℕ
  | .popleft, node => if node = 0 then none else some node
  | .popback, node => if node = 0 then none else some node
  | .remove node, _ => some node
  | _, _ => none

namespace State

/-- The nodes along `next`, from the head on. -/
def forward (s : State) : List ℕ :=
  follow (NodeStore.next s.mem) (s.list.size + 1) s.list.head

/-- The nodes along `prev`, from the tail on. -/
def backward (s : State) : List ℕ :=
  follow (NodeStore.prev s.mem) (s.list.size + 1) s.list.tail

/-- A node whose links are not those of a node of the list. -/
structure Fresh (s : State) (node : ℕ) : Prop where
  ne_null : node ≠ 0
  address : node ≤ sizeMax
  apart : ∀ x ∈ s.forward, node + 16 ≤ x ∨ x + 16 ≤ node

/-- What the client may call. -/
def Valid (s : State) : Call → Prop
  | .push node => s.Fresh node
  | .pushfront node => s.Fresh node
  | .insertAfter after node => (after = 0 ∨ after ∈ s.forward) ∧ s.Fresh node
  | .remove node => node ∈ s.forward
  | _ => True

instance (s : State) (node : ℕ) : Decidable (s.Fresh node) :=
  decidable_of_iff (node ≠ 0 ∧ node ≤ sizeMax ∧
    ∀ x ∈ s.forward, node + 16 ≤ x ∨ x + 16 ≤ node)
    ⟨fun h => ⟨h.1, h.2.1, h.2.2⟩, fun h => ⟨h.ne_null, h.address, h.apart⟩⟩

instance (s : State) : (c : Call) → Decidable (s.Valid c)
  | .push node => inferInstanceAs (Decidable (s.Fresh node))
  | .pushfront node => inferInstanceAs (Decidable (s.Fresh node))
  | .insertAfter after node =>
    inferInstanceAs (Decidable ((after = 0 ∨ after ∈ s.forward) ∧ s.Fresh node))
  | .remove node => inferInstanceAs (Decidable (node ∈ s.forward))
  | .popleft => .isTrue trivial
  | .popback => .isTrue trivial

/-- Make a call: the node that is returned, `NULL` for a call that returns none. -/
def step (s : State) : Call → Result (ℕ × State)
  | .push node => do
    let (list, mem) ← s.list.push s.mem node
    return (0, ⟨list, mem⟩)
  | .pushfront node => do
    let (list, mem) ← s.list.pushfront s.mem node
    return (0, ⟨list, mem⟩)
  | .insertAfter after node => do
    let (list, mem) ← s.list.insertAfter s.mem after node
    return (0, ⟨list, mem⟩)
  | .popleft => do
    let (node, list, mem) ← s.list.popleft s.mem
    return (node, ⟨list, mem⟩)
  | .popback => do
    let (node, list, mem) ← s.list.popback s.mem
    return (node, ⟨list, mem⟩)
  | .remove node => do
    let (list, mem) ← s.list.remove s.mem node
    return (0, ⟨list, mem⟩)

end State

/-! ## The sequence -/

/-- The sequence with `node` behind `after`. -/
def insertBehind (after node : ℕ) : List ℕ → List ℕ
  | [] => []
  | x :: xs => if x = after then x :: node :: xs else x :: insertBehind after node xs

/-- The calls on the sequence of nodes, with their answers. -/
def Spec (xs : List ℕ) : Call → ℕ → List ℕ → Prop
  | .push node, o, ys => o = 0 ∧ ys = xs ++ [node]
  | .pushfront node, o, ys => o = 0 ∧ ys = node :: xs
  | .insertAfter after node, o, ys =>
    o = 0 ∧ ys = if after = 0 then node :: xs else insertBehind after node xs
  | .popleft, o, ys => o = xs.headD 0 ∧ ys = xs.tail
  | .popback, o, ys => o = xs.getLastD 0 ∧ ys = xs.dropLast
  | .remove node, o, ys => o = 0 ∧ ys = xs.erase node

theorem insertBehind_middle {after : ℕ} {pre : List ℕ} (h : after ∉ pre) (node : ℕ)
    (post : List ℕ) :
    insertBehind after node (pre ++ after :: post) = pre ++ after :: node :: post := by
  induction pre with
  | nil => exact if_pos rfl
  | cons x pre ih =>
    rw [List.mem_cons, not_or] at h
    rw [List.cons_append, insertBehind, if_neg (Ne.symm h.1), ih h.2, List.cons_append]

/-- What the links of a list show when it is the sequence `xs`. -/
structure IsSequence (s : State) (xs : List ℕ) : Prop where
  forward_eq : s.forward = xs
  backward_eq : s.backward = xs.reverse
  head_prev : s.list.head ≠ 0 → NodeStore.prev s.mem s.list.head = 0
  tail_next : s.list.tail ≠ 0 → NodeStore.next s.mem s.list.tail = 0
  head_null : s.list.head = 0 ↔ xs = []
  tail_null : s.list.tail = 0 ↔ xs = []
  size_eq : s.list.size = xs.length
  iterator : Iterator.Yields (iteratorNext s.mem) (getIterator s.list).state xs

/-- What a call does to nodes that are not in the list afterwards. -/
structure Keeps (s : State) (c : Call) (o : ℕ) (s' : State) : Prop where
  detached : ∀ n ∈ c.removed o, NodeStore.prev s'.mem n = 0 ∧ NodeStore.next s'.mem n = 0
  untouched : ∀ x, (∀ n ∈ s.forward, x < n ∨ n + 16 ≤ x) →
    (∀ n ∈ c.inserted, x < n ∨ n + 16 ≤ x) → s'.mem x = s.mem x

section Sequences

variable {s : State} {xs : List ℕ}

/-- Nodes that do not share storage are fewer than there are addresses. -/
theorem Holds.length_lt {list : DoublyLinkedList} {m : Words.Memory} (h : list.Holds m xs) :
    xs.length < sizeMax := by
  have hle : xs.length ≤ sizeMax / 16 + 1 := Links.length_le_of_apart (by decide) h.apart h.fits
  unfold sizeMax at *
  omega

theorem Holds.forward_eq (h : s.list.Holds s.mem xs) : s.forward = xs := by
  rw [State.forward, h.head_eq]
  exact h.linked.follow_next h.ne_zero (by rw [h.size_eq]; exact Nat.lt_succ_self _)

theorem Holds.isSequence (h : s.list.Holds s.mem xs) : IsSequence s xs where
  forward_eq := h.forward_eq
  backward_eq := by
    rw [State.backward, h.tail_eq]
    exact h.linked.follow_prev h.ne_zero (by rw [h.size_eq]; exact Nat.lt_succ_self _)
  head_prev hne := by
    rw [h.head_eq] at hne ⊢
    cases xs with
    | nil => exact absurd rfl hne
    | cons x xs => exact h.linked.1
  tail_next hne := by
    rw [h.tail_eq] at hne ⊢
    rcases List.eq_nil_or_concat xs with rfl | ⟨ys, y, rfl⟩
    · exact absurd rfl hne
    · rw [List.concat_eq_append] at *
      rw [List.getLastD_concat]
      exact h.next_eq
  head_null := h.head_eq_zero
  tail_null := h.tail_eq_zero
  size_eq := h.size_eq
  iterator := by
    rw [getIterator, Iterator.setSizeHint, Iterator.fromState, h.head_eq]
    exact iteratorNext_yields h.linked h.ne_zero

/-! ## One call -/

/-- A call that relinks the nodes of the list and the one that is inserted. -/
theorem Keeps.of_relinked {c : Call} {o : ℕ} {s' : State} {ys : List ℕ} (h : s.list.Holds s.mem xs)
    (hrel : Relinked ys s.mem s'.mem) (hsub : ∀ n ∈ ys, n ∈ xs ∨ n ∈ c.inserted)
    (hdetached : ∀ n ∈ c.removed o, NodeStore.prev s'.mem n = 0 ∧ NodeStore.next s'.mem n = 0) :
    Keeps s c o s' where
  detached := hdetached
  untouched x hlist hnode := by
    rw [h.forward_eq] at hlist
    refine hrel.outside fun n hn => ?_
    rcases hsub n hn with hn | hn
    · exact hlist n hn
    · exact hnode n hn

/-- A call that puts one node into the list. -/
theorem Keeps.of_inserted {c : Call} {o n : ℕ} {s' : State} {ys : List ℕ}
    (h : s.list.Holds s.mem xs) (hrel : Relinked ys s.mem s'.mem) (hsub : ∀ m ∈ ys, m = n ∨ m ∈ xs)
    (hins : c.inserted = some n) (hrem : c.removed o = none) : Keeps s c o s' := by
  refine .of_relinked h hrel (fun m hm => ?_) (by simp [hrem])
  rw [hins, Option.mem_some_iff, eq_comm, or_comm]
  exact hsub m hm

/-- A call that takes one node out of it. -/
theorem Keeps.of_removed {c : Call} {o n : ℕ} {s' : State} (h : s.list.Holds s.mem xs)
    (hrel : Relinked xs s.mem s'.mem) (hrem : c.removed o = some n)
    (hprev : NodeStore.prev s'.mem n = 0) (hnext : NodeStore.next s'.mem n = 0) :
    Keeps s c o s' := by
  refine .of_relinked h hrel (fun _ hm => .inl hm) fun m hm => ?_
  rw [hrem, Option.mem_some_iff] at hm
  rw [← hm]
  exact ⟨hprev, hnext⟩

/-- A removal that finds none. -/
theorem Keeps.refl {c : Call} {o : ℕ} (hrem : c.removed o = none) : Keeps s c o s :=
  ⟨by simp [hrem], fun _ _ _ => rfl⟩

theorem insertAfter_null {n : ℕ} (hn : n ≠ 0) (list : DoublyLinkedList) (m : Words.Memory) :
    list.insertAfter m 0 n = list.pushfront m n := by
  rw [insertAfter, check_of hn, ok_bind, if_pos rfl]

theorem Holds.popleft_nil {list : DoublyLinkedList} {m : Words.Memory} (h : list.Holds m []) :
    list.popleft m = .ok (0, list, m) := by
  rw [popleft, if_pos (h.head_eq_zero.2 rfl)]
  rfl

theorem Holds.popback_nil {list : DoublyLinkedList} {m : Words.Memory} (h : list.Holds m []) :
    list.popback m = .ok (0, list, m) := by
  rw [popback, if_pos (h.tail_eq_zero.2 rfl)]
  rfl

theorem Holds.size_lt {list : DoublyLinkedList} {m : Words.Memory} (h : list.Holds m xs) :
    list.size < sizeMax := by
  rw [h.size_eq]
  exact h.length_lt

/-- A node that is not in the list shares no storage with it. -/
theorem Holds.apart_of_fresh (h : s.list.Holds s.mem xs) {n : ℕ} (hn : s.Fresh n) :
    ∀ x ∈ xs, NodeStore.apart Words.Memory n x := by
  intro x hx
  exact hn.apart x (by rwa [h.forward_eq])

theorem step_push (h : s.list.Holds s.mem xs) {n : ℕ} (hn : s.Fresh n) :
    Sat (s.step (.push n)) fun p =>
      (p.1 = 0 ∧ p.2.list.Holds p.2.mem (xs ++ [n])) ∧ Keeps s (.push n) p.1 p.2 := by
  apply (push_spec h hn.ne_null hn.address (h.apart_of_fresh hn) h.size_lt).bind
  rintro ⟨list, mem⟩ ⟨hh, hrel⟩
  exact Sat.ok ⟨⟨rfl, hh⟩, .of_inserted h hrel (by simp [or_comm]) rfl rfl⟩

/-- Inserting at the front, by `pushfront` or by `insertAfter` without a node. -/
theorem front_spec (h : s.list.Holds s.mem xs) {n : ℕ} (hn : s.Fresh n) {c : Call}
    (hins : c.inserted = some n) (hrem : c.removed 0 = none) :
    Sat (s.list.pushfront s.mem n) fun p =>
      p.1.Holds p.2 (n :: xs) ∧ Keeps s c 0 ⟨p.1, p.2⟩ := by
  apply (pushfront_spec h hn.ne_null hn.address (h.apart_of_fresh hn) h.size_lt).mono
  rintro ⟨list, mem⟩ ⟨hh, hrel⟩
  exact ⟨hh, .of_inserted h hrel (by simp) hins hrem⟩

theorem step_insertAfter (h : s.list.Holds s.mem xs) {a n : ℕ} (ha : a ∈ xs) (hn : s.Fresh n) :
    Sat (s.step (.insertAfter a n)) fun p =>
      (p.1 = 0 ∧ p.2.list.Holds p.2.mem (insertBehind a n xs)) ∧
        Keeps s (.insertAfter a n) p.1 p.2 := by
  obtain ⟨pre, post, rfl⟩ := List.append_of_mem ha
  rw [insertBehind_middle (notMem_before h.nodup)]
  apply (insertAfter_spec h hn.ne_null hn.address (h.apart_of_fresh hn) h.size_lt).bind
  rintro ⟨list, mem⟩ ⟨hh, hrel⟩
  refine Sat.ok ⟨⟨rfl, hh⟩, .of_inserted h hrel (fun m hm => ?_) rfl rfl⟩
  simp only [List.mem_append, List.mem_cons] at hm ⊢
  tauto

theorem step_popleft (h : s.list.Holds s.mem xs) :
    Sat (s.step .popleft) fun p =>
      (p.1 = xs.headD 0 ∧ p.2.list.Holds p.2.mem xs.tail) ∧ Keeps s .popleft p.1 p.2 := by
  cases xs with
  | nil =>
    rw [State.step, h.popleft_nil]
    exact Sat.ok ⟨⟨rfl, h⟩, .refl rfl⟩
  | cons n post =>
    apply (popleft_spec h).bind
    rintro ⟨_, list, mem⟩ ⟨rfl, hh, hrel, hprev, hnext⟩
    have hn := h.ne_zero _ (List.mem_cons_self ..)
    exact Sat.ok ⟨⟨rfl, hh⟩, .of_removed h hrel (if_neg hn) hprev hnext⟩

theorem step_popback (h : s.list.Holds s.mem xs) :
    Sat (s.step .popback) fun p =>
      (p.1 = xs.getLastD 0 ∧ p.2.list.Holds p.2.mem xs.dropLast) ∧ Keeps s .popback p.1 p.2 := by
  rcases List.eq_nil_or_concat xs with rfl | ⟨pre, n, rfl⟩
  · rw [State.step, h.popback_nil]
    exact Sat.ok ⟨⟨rfl, h⟩, .refl rfl⟩
  · rw [List.concat_eq_append] at *
    rw [List.getLastD_concat, List.dropLast_concat]
    apply (popback_spec h).bind
    rintro ⟨_, list, mem⟩ ⟨rfl, hh, hrel, hprev, hnext⟩
    have hn := h.ne_zero _ (List.mem_append_right _ (List.mem_cons_self ..))
    exact Sat.ok ⟨⟨rfl, hh⟩, .of_removed h hrel (if_neg hn) hprev hnext⟩

theorem step_remove (h : s.list.Holds s.mem xs) {n : ℕ} (hn : n ∈ xs) :
    Sat (s.step (.remove n)) fun p =>
      (p.1 = 0 ∧ p.2.list.Holds p.2.mem (xs.erase n)) ∧ Keeps s (.remove n) p.1 p.2 := by
  obtain ⟨pre, post, rfl⟩ := List.append_of_mem hn
  rw [List.erase_append_right _ (notMem_before h.nodup), List.erase_cons_head]
  apply (remove_spec h).bind
  rintro ⟨list, mem⟩ ⟨hh, hrel, hprev, hnext⟩
  exact Sat.ok ⟨⟨rfl, hh⟩, .of_removed h hrel rfl hprev hnext⟩

/-- One call is a step of the sequence. -/
theorem step_spec (h : s.list.Holds s.mem xs) {c : Call} (hv : s.Valid c) :
    Sat (s.step c) fun p =>
      (∃ ys, Spec xs c p.1 ys ∧ p.2.list.Holds p.2.mem ys) ∧ Keeps s c p.1 p.2 := by
  cases c with
  | push n => exact (step_push h hv).mono fun p hp => ⟨⟨_, ⟨hp.1.1, rfl⟩, hp.1.2⟩, hp.2⟩
  | pushfront n =>
    exact (front_spec h hv rfl rfl).bind fun p hp => Sat.ok ⟨⟨_, ⟨rfl, rfl⟩, hp.1⟩, hp.2⟩
  | insertAfter after n =>
    obtain ⟨hafter, hn⟩ := hv
    by_cases h0 : after = 0
    · subst h0
      rw [State.step, insertAfter_null hn.ne_null]
      exact (front_spec h hn rfl rfl).bind fun p hp => Sat.ok ⟨⟨_, ⟨rfl, rfl⟩, hp.1⟩, hp.2⟩
    · rw [h.forward_eq] at hafter
      apply (step_insertAfter h (hafter.resolve_left h0) hn).mono
      rintro p ⟨⟨ho, hh⟩, hkeeps⟩
      exact ⟨⟨_, ⟨ho, (if_neg h0).symm⟩, hh⟩, hkeeps⟩
  | popleft => exact (step_popleft h).mono fun p hp => ⟨⟨_, ⟨hp.1.1, rfl⟩, hp.1.2⟩, hp.2⟩
  | popback => exact (step_popback h).mono fun p hp => ⟨⟨_, ⟨hp.1.1, rfl⟩, hp.1.2⟩, hp.2⟩
  | remove n =>
    have hn : n ∈ xs := by
      rw [← h.forward_eq]
      exact hv
    exact (step_remove h hn).mono fun p hp => ⟨⟨_, ⟨hp.1.1, rfl⟩, hp.1.2⟩, hp.2⟩

/-! ## The refinement -/

/-- **A doubly linked list is a sequence of nodes.**  After any run of a list that
was empty, the answers are those of the sequence, the links show the sequence in
both directions, and any further call clears the links of a node it takes out and
touches no byte outside of the list's nodes. -/
theorem refines_sequence (mem : Words.Memory) (calls : List Call)
    (hvalid : Along State.step State.Valid ⟨empty, mem⟩ calls) :
    Sat (trace State.step ⟨empty, mem⟩ calls) fun p => ∃ xs,
      Follows Spec [] calls p.1 xs ∧ IsSequence p.2 xs ∧
        ∀ c, p.2.Valid c → Sat (p.2.step c) fun q => Keeps p.2 c q.1 q.2 := by
  refine (trace_refines (T := Spec) (R := fun (s : State) xs => s.list.Holds s.mem xs)
    (fun s xs c h hv => ?_) calls
    ⟨empty, mem⟩ [] (holds_empty mem) hvalid).mono ?_
  · exact (step_spec h hv).mono fun p hp => hp.1
  · rintro p ⟨xs, hfollows, hh⟩
    exact ⟨xs, hfollows, hh.isSequence, fun c hv => (step_spec hh hv).mono fun q hq => hq.2⟩

end Sequences

/-- Nodes inserted at both ends and in the middle, and taken out again. -/
def shuffle : List Call :=
  [.push 64, .pushfront 32, .insertAfter 32 96, .insertAfter 0 128, .remove 96, .popback, .popleft,
    .insertAfter 32 64, .popleft, .popleft, .popleft, .push 32]

theorem refines_sequence_shuffle :
    Sat (trace State.step ⟨empty, fun _ => 0⟩ shuffle) fun p => ∃ xs,
      Follows Spec [] shuffle p.1 xs ∧ IsSequence p.2 xs ∧
        ∀ c, p.2.Valid c → Sat (p.2.step c) fun q => Keeps p.2 c q.1 q.2 :=
  refines_sequence _ shuffle (along_of_check (by decide +kernel))

end K4c.DoublyLinkedList
