import Mathlib.Tactic
import K4c.Datastruct.LinkedList
import K4c.Datastruct.Iterator
import K4c.Lib.Runs

/-!
# A singly linked list is a sequence of nodes

A client inserts and removes nodes of its own memory in any order.  A node that is
inserted is in no list; a node that another one is removed after is in this one.

* `Spec` — the calls on the sequence of nodes.
* `IsSequence` — what a client can see of the links: the chain, the cached tail,
  the size and the iterator.
* `refines_forward_sequence` — the refinement.
-/

namespace K4c.LinkedList

open Exec Links Runs

/-! ## The iterator -/

/-- `k4c_linked_list_iterator_next`, on the node that comes next. -/
def iteratorNext (m : Words.Memory) (node : ℕ) : Result (Option ℕ × ℕ) :=
  if node = 0 then .ok (none, node) else .ok (some node, next m node)

/-- `k4c_linked_list_get_iterator`. -/
def getIterator (list : LinkedList) : Iterator ℕ :=
  (Iterator.fromState list.head).setSizeHint list.size

theorem iteratorNext_yields {m : Words.Memory} : ∀ {xs : List ℕ}, Chained (next m) xs 0 →
    (∀ x ∈ xs, x ≠ 0) → Iterator.Yields (iteratorNext m) (xs.headD 0) xs := by
  intro xs
  induction xs with
  | nil => intro _ _; exact .done (if_pos rfl)
  | cons x xs ih =>
    rintro ⟨hnext, hrest⟩ hnz
    obtain ⟨hx, hnz⟩ := List.forall_mem_cons.1 hnz
    refine .item ?_ (ih hrest hnz)
    rw [iteratorNext, List.headD_cons, if_neg hx, hnext]

/-! ## The client -/

/-- A list, and the memory its nodes lie in. -/
structure State where
  list : LinkedList
  mem : Words.Memory

/-- A call on the list. -/
inductive Call where
  | push (node : ℕ)
  | pushfront (node : ℕ)
  | popleft
  | removeAfter (prev : ℕ)
  deriving DecidableEq, Repr

/-- The node a call puts into the list. -/
def Call.inserted : Call → Option ℕ
  | .push node => some node
  | .pushfront node => some node
  | _ => none

/-- The call takes a node out of the list. -/
def Call.Removes : Call → Prop
  | .popleft => True
  | .removeAfter _ => True
  | _ => False

namespace State

/-- The nodes along `next`, from the head on. -/
def forward (s : State) : List ℕ := follow (next s.mem) (s.list.size + 1) s.list.head

/-- A node that shares no storage with a node of the list. -/
structure Fresh (s : State) (node : ℕ) : Prop where
  ne_null : node ≠ 0
  address : node ≤ sizeMax
  apart : ∀ x ∈ s.forward, node + 8 ≤ x ∨ x + 8 ≤ node

/-- What the client may call. -/
def Valid (s : State) : Call → Prop
  | .push node => s.Fresh node
  | .pushfront node => s.Fresh node
  | .removeAfter prev => prev = 0 ∨ prev ∈ s.forward
  | .popleft => True

instance (s : State) (node : ℕ) : Decidable (s.Fresh node) :=
  decidable_of_iff (node ≠ 0 ∧ node ≤ sizeMax ∧ ∀ x ∈ s.forward, node + 8 ≤ x ∨ x + 8 ≤ node)
    ⟨fun h => ⟨h.1, h.2.1, h.2.2⟩, fun h => ⟨h.ne_null, h.address, h.apart⟩⟩

instance (s : State) : (c : Call) → Decidable (s.Valid c)
  | .push node => inferInstanceAs (Decidable (s.Fresh node))
  | .pushfront node => inferInstanceAs (Decidable (s.Fresh node))
  | .removeAfter prev => inferInstanceAs (Decidable (prev = 0 ∨ prev ∈ s.forward))
  | .popleft => .isTrue trivial

/-- Make a call: the node that is returned, `NULL` for a call that returns none. -/
def step (s : State) : Call → Result (ℕ × State)
  | .push node => do
    let (list, mem) ← s.list.push s.mem node
    return (0, ⟨list, mem⟩)
  | .pushfront node => do
    let (list, mem) ← s.list.pushfront s.mem node
    return (0, ⟨list, mem⟩)
  | .popleft => do
    let (node, list, mem) ← s.list.popleft s.mem
    return (node, ⟨list, mem⟩)
  | .removeAfter prev => do
    let (node, list, mem) ← s.list.removeAfter s.mem prev
    return (node, ⟨list, mem⟩)

end State

/-! ## The sequence -/

/-- The node behind `prev`, 0 when there is none. -/
def behind (prev : ℕ) : List ℕ → ℕ
  | [] => 0
  | x :: xs => if x = prev then xs.headD 0 else behind prev xs

/-- The sequence without the node behind `prev`. -/
def eraseBehind (prev : ℕ) : List ℕ → List ℕ
  | [] => []
  | x :: xs => if x = prev then x :: xs.tail else x :: eraseBehind prev xs

theorem behind_middle {a : ℕ} {pre : List ℕ} (h : a ∉ pre) (post : List ℕ) :
    behind a (pre ++ a :: post) = post.headD 0 := by
  induction pre with
  | nil => exact if_pos rfl
  | cons x pre ih =>
    rw [List.mem_cons, not_or] at h
    rw [List.cons_append, behind, if_neg (Ne.symm h.1), ih h.2]

theorem eraseBehind_middle {a : ℕ} {pre : List ℕ} (h : a ∉ pre) (post : List ℕ) :
    eraseBehind a (pre ++ a :: post) = pre ++ a :: post.tail := by
  induction pre with
  | nil => exact if_pos rfl
  | cons x pre ih =>
    rw [List.mem_cons, not_or] at h
    rw [List.cons_append, eraseBehind, if_neg (Ne.symm h.1), ih h.2, List.cons_append]

/-- The calls on the sequence of nodes, with their answers. -/
def Spec (xs : List ℕ) : Call → ℕ → List ℕ → Prop
  | .push node, o, ys => o = 0 ∧ ys = xs ++ [node]
  | .pushfront node, o, ys => o = 0 ∧ ys = node :: xs
  | .popleft, o, ys => o = xs.headD 0 ∧ ys = xs.tail
  | .removeAfter prev, o, ys =>
    if prev = 0 then o = xs.headD 0 ∧ ys = xs.tail
    else o = behind prev xs ∧ ys = eraseBehind prev xs

/-- What the links of a list show when it is the sequence `xs`. -/
structure IsSequence (s : State) (xs : List ℕ) : Prop where
  forward_eq : s.forward = xs
  /-- The cached tail is the last node, and its link is `NULL`. -/
  tail_eq : s.list.tail = xs.getLastD 0
  tail_next : s.list.tail ≠ 0 → next s.mem s.list.tail = 0
  tail_null : s.list.tail = 0 ↔ xs = []
  head_null : s.list.head = 0 ↔ xs = []
  size_eq : s.list.size = xs.length
  iterator : Iterator.Yields (iteratorNext s.mem) (getIterator s.list).state xs

/-- What a call does to nodes that are not in the list afterwards. -/
structure Keeps (s : State) (c : Call) (o : ℕ) (s' : State) : Prop where
  detached : c.Removes → o ≠ 0 → next s'.mem o = 0
  /-- With nothing to remove, nothing changes. -/
  unchanged : c.Removes → o = 0 → s' = s
  untouched : ∀ x, (∀ n ∈ s.forward, x < n ∨ n + 8 ≤ x) →
    (∀ n ∈ c.inserted, x < n ∨ n + 8 ≤ x) → s'.mem x = s.mem x

section Sequences

variable {s : State} {xs : List ℕ}

theorem Holds.forward_eq (h : s.list.Holds s.mem xs) : s.forward = xs := by
  rw [State.forward, h.head_eq]
  exact h.chained.follow h.ne_zero (by rw [h.size_eq]; exact Nat.lt_succ_self _)

theorem Holds.isSequence (h : s.list.Holds s.mem xs) : IsSequence s xs where
  forward_eq := h.forward_eq
  tail_eq := h.tail_eq
  tail_next hne := by
    rw [h.tail_eq] at hne ⊢
    rcases List.eq_nil_or_concat xs with rfl | ⟨ys, y, rfl⟩
    · exact absurd rfl hne
    · rw [List.concat_eq_append] at *
      rw [List.getLastD_concat]
      exact h.next_eq
  tail_null := h.tail_eq_zero
  head_null := h.head_eq_zero
  size_eq := h.size_eq
  iterator := by
    rw [getIterator, Iterator.setSizeHint, Iterator.fromState, h.head_eq]
    exact iteratorNext_yields h.chained h.ne_zero

/-! ## One call -/

theorem step_push (h : s.list.Holds s.mem xs) {n : ℕ} (hv : s.Fresh n) :
    Sat (s.step (.push n)) fun p =>
      (p.1 = 0 ∧ p.2.list.Holds p.2.mem (xs ++ [n])) ∧ Keeps s (.push n) p.1 p.2 := by
  apply (push_spec h hv.ne_null hv.address (by rw [← h.forward_eq]; exact hv.apart)).bind
  rintro ⟨list, mem⟩ ⟨hh, hrel⟩
  refine Sat.ok ⟨⟨rfl, hh⟩, fun hc => hc.elim, fun hc => hc.elim, fun x hlist hnode => ?_⟩
  rw [h.forward_eq] at hlist
  refine hrel x fun y hy => ?_
  rcases List.mem_append.1 hy with hy | hy
  · exact hlist y hy
  · exact hnode y (by rw [List.mem_singleton.1 hy]; rfl)

theorem step_pushfront (h : s.list.Holds s.mem xs) {n : ℕ} (hv : s.Fresh n) :
    Sat (s.step (.pushfront n)) fun p =>
      (p.1 = 0 ∧ p.2.list.Holds p.2.mem (n :: xs)) ∧ Keeps s (.pushfront n) p.1 p.2 := by
  apply (pushfront_spec h hv.ne_null hv.address (by rw [← h.forward_eq]; exact hv.apart)).bind
  rintro ⟨list, mem⟩ ⟨hh, hrel⟩
  refine Sat.ok ⟨⟨rfl, hh⟩, fun hc => hc.elim, fun hc => hc.elim, fun x hlist hnode => ?_⟩
  rw [h.forward_eq] at hlist
  refine hrel x fun y hy => ?_
  rcases List.mem_cons.1 hy with hy | hy
  · exact hnode y (by rw [hy]; rfl)
  · exact hlist y hy

/-- A removal that finds a node. -/
theorem Keeps.of_removed {c : Call} {n : ℕ} {s' : State} (h : s.list.Holds s.mem xs)
    (hn : n ∈ xs) (hrel : Relinked xs s.mem s'.mem) (hcleared : next s'.mem n = 0) :
    Keeps s c n s' where
  detached _ _ := hcleared
  unchanged _ h0 := absurd h0 (h.ne_zero n hn)
  untouched x hlist _ := by
    rw [h.forward_eq] at hlist
    exact hrel x hlist

/-- A removal that finds none. -/
theorem Keeps.refl (c : Call) : Keeps s c 0 s :=
  ⟨fun _ h0 => absurd rfl h0, fun _ _ => rfl, fun _ _ _ => rfl⟩

/-- Removing at the front, by `popleft` or by `removeAfter` without a node. -/
theorem front_spec (h : s.list.Holds s.mem xs) (c : Call) :
    Sat (s.list.popleft s.mem) fun p =>
      (p.1 = xs.headD 0 ∧ p.2.1.Holds p.2.2 xs.tail) ∧ Keeps s c p.1 ⟨p.2.1, p.2.2⟩ := by
  cases xs with
  | nil =>
    rw [popleft_nil h]
    exact Sat.ok ⟨⟨rfl, h⟩, .refl c⟩
  | cons n post =>
    apply (popleft_spec h).mono
    rintro ⟨o, list, mem⟩ ⟨rfl, hh, hrel, hcleared⟩
    exact ⟨⟨rfl, hh⟩, .of_removed h (List.mem_cons_self ..) hrel hcleared⟩

/-- Removing behind a node. -/
theorem step_removeAfter (h : s.list.Holds s.mem xs) {a : ℕ} (ha : a ∈ xs) :
    Sat (s.step (.removeAfter a)) fun p =>
      (p.1 = behind a xs ∧ p.2.list.Holds p.2.mem (eraseBehind a xs)) ∧
        Keeps s (.removeAfter a) p.1 p.2 := by
  obtain ⟨pre, post, rfl⟩ := List.append_of_mem ha
  have hpre := notMem_before h.nodup
  rw [behind_middle hpre, eraseBehind_middle hpre]
  cases post with
  | nil =>
    rw [State.step, removeAfter_last h]
    exact Sat.ok ⟨⟨rfl, h⟩, .refl _⟩
  | cons n post =>
    apply (removeAfter_spec h).bind
    rintro ⟨o, list, mem⟩ ⟨rfl, hh, hrel, hcleared⟩
    exact Sat.ok ⟨⟨rfl, hh⟩, .of_removed h (by simp) hrel hcleared⟩

/-- One call is a step of the sequence. -/
theorem step_spec (h : s.list.Holds s.mem xs) {c : Call} (hv : s.Valid c) :
    Sat (s.step c) fun p =>
      (∃ ys, Spec xs c p.1 ys ∧ p.2.list.Holds p.2.mem ys) ∧ Keeps s c p.1 p.2 := by
  cases c with
  | push n => exact (step_push h hv).mono fun p hp => ⟨⟨_, ⟨hp.1.1, rfl⟩, hp.1.2⟩, hp.2⟩
  | pushfront n => exact (step_pushfront h hv).mono fun p hp => ⟨⟨_, ⟨hp.1.1, rfl⟩, hp.1.2⟩, hp.2⟩
  | popleft =>
    exact (front_spec h .popleft).bind fun p hp =>
      Sat.ok ⟨⟨_, ⟨hp.1.1, rfl⟩, hp.1.2⟩, hp.2⟩
  | removeAfter prev =>
    by_cases h0 : prev = 0
    · have hfront : s.list.removeAfter s.mem prev = s.list.popleft s.mem := by
        rw [removeAfter, if_pos h0]
      rw [State.step, hfront]
      refine (front_spec h (.removeAfter prev)).bind fun p hp => Sat.ok ⟨⟨_, ?_, hp.1.2⟩, hp.2⟩
      rw [Spec, if_pos h0]
      exact ⟨hp.1.1, rfl⟩
    · have hmem : prev ∈ xs := by
        rw [← h.forward_eq]
        exact hv.resolve_left h0
      refine (step_removeAfter h hmem).mono fun p hp => ⟨⟨_, ?_, hp.1.2⟩, hp.2⟩
      rw [Spec, if_neg h0]
      exact ⟨hp.1.1, rfl⟩

/-! ## The refinement -/

/-- **A singly linked list is a sequence of nodes.**  After any run of a list that
was empty, the answers are those of the sequence, the chain from the head is the
sequence and the cached tail its last node; and any further call clears the link
of a node it takes out, changes nothing if it finds none, and touches no byte
outside of the list's nodes. -/
theorem refines_forward_sequence (mem : Words.Memory) (calls : List Call)
    (hvalid : Along State.step State.Valid ⟨empty, mem⟩ calls) :
    Sat (trace State.step ⟨empty, mem⟩ calls) fun p => ∃ xs,
      Follows Spec [] calls p.1 xs ∧ IsSequence p.2 xs ∧
        ∀ c, p.2.Valid c → Sat (p.2.step c) fun q => Keeps p.2 c q.1 q.2 := by
  refine (trace_refines (T := Spec) (R := fun (s : State) xs => s.list.Holds s.mem xs)
    (fun s xs c h hv => ?_) calls ⟨empty, mem⟩ [] (holds_empty mem) hvalid).mono ?_
  · exact (step_spec h hv).mono fun p hp => hp.1
  · rintro p ⟨xs, hfollows, hh⟩
    exact ⟨xs, hfollows, hh.isSequence, fun c hv => (step_spec hh hv).mono fun q hq => hq.2⟩

end Sequences

/-- The tail is removed, the list is emptied, and it is filled again from either
end. -/
def refill : List Call :=
  [.push 64, .push 32, .removeAfter 64, .push 96, .removeAfter 96, .removeAfter 0, .popleft,
    .popleft, .pushfront 32, .push 64, .removeAfter 32, .push 96]

theorem refines_forward_sequence_refill :
    Sat (trace State.step ⟨empty, fun _ => 0⟩ refill) fun p => ∃ xs,
      Follows Spec [] refill p.1 xs ∧ IsSequence p.2 xs ∧
        ∀ c, p.2.Valid c → Sat (p.2.step c) fun q => Keeps p.2 c q.1 q.2 :=
  refines_forward_sequence _ refill (along_of_check (by decide +kernel))

end K4c.LinkedList
