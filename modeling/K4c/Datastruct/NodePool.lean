import Mathlib.Tactic
import K4c.Lib.Spans
import K4c.Datastruct.DoublyLinkedListRuns
import K4c.Datastruct.LinkedListRuns

/-!
# Lists that share their nodes

A client keeps any number of singly and doubly linked lists.  The nodes lie in memory of
its own, it moves them from list to list, and it writes into everything else.

* `LinkedList.part`, `DoublyLinkedList.part` — the two lists as parts of a program, each
  using the bytes of its nodes; `LinkedList.lawful`, `DoublyLinkedList.lawful`.
* `lists_share_nodes` — **any number of lists** are so many sequences of nodes.
-/

namespace K4c

open Exec Links Runs Spans

/-- The nodes `xs`, each of `width` bytes. -/
def nodeSpans (width : ℕ) (xs : List ℕ) : List Span := xs.map fun n => ⟨n, width⟩

theorem outside_nodeSpans {width x : ℕ} {xs : List ℕ} :
    Outside (nodeSpans width xs) x ↔ ∀ n ∈ xs, x < n ∨ n + width ≤ x := by
  simp only [Outside, nodeSpans, List.mem_map, forall_exists_index, and_imp,
    forall_apply_eq_imp_iff₂]

theorem nodeSpans_subset {width : ℕ} {xs ys zs : List ℕ} (h : ∀ n ∈ ys, n ∈ xs ∨ n ∈ zs) :
    nodeSpans width ys ⊆ nodeSpans width xs ++ nodeSpans width zs := by
  rw [nodeSpans, nodeSpans, nodeSpans, ← List.map_append]
  exact List.map_subset _ fun n hn => List.mem_append.2 (h n hn)

/-- A part that uses `width` bytes of each of its nodes, and takes in the nodes that are
inserted. -/
theorem lawful_of_nodes {P : Spans.Part UInt8} {Inv : P.Handle × Words.Memory → P.Model → Prop}
    (width : ℕ) (nodes : P.Model → List ℕ) (inserted : P.Call → Option ℕ)
    (hspans : ∀ s a, Inv s a → P.spans s = nodeSpans width (nodes a))
    (hgiven : ∀ c, P.given c = nodeSpans width (inserted c).toList)
    (hinitial : ∀ m, Inv (P.initial, m) P.first) (hfirst : nodes P.first = [])
    (hcongr : ∀ h m m' a, Inv (h, m) a →
      (∀ n ∈ nodes a, ∀ x, n ≤ x → x < n + width → m' x = m x) → Inv (h, m') a)
    (hstep : ∀ s a c, Inv s a → P.Allowed s c → Sat (P.step s c) fun p =>
      (∃ a', P.Spec a c p.1 a' ∧ Inv p.2 a' ∧ ∀ n ∈ nodes a', n ∈ nodes a ∨ n ∈ inserted c) ∧
        ∀ x, (∀ n ∈ nodes a, x < n ∨ n + width ≤ x) →
          (∀ n ∈ inserted c, x < n ∨ n + width ≤ x) → p.2.2 x = s.2 x) :
    P.Lawful Inv := by
  constructor
  case initial =>
    intro m
    refine ⟨hinitial m, ?_⟩
    rw [hspans _ _ (hinitial m), hfirst]
    rfl
  case congr =>
    intro h m m' a ha hsame
    rw [hspans _ _ ha] at hsame ⊢
    have ha' : Inv (h, m') a := hcongr h m m' a ha fun n hn x h1 h2 => hsame x fun hout => by
      have := outside_nodeSpans.1 hout n hn
      omega
    exact ⟨ha', hspans _ _ ha'⟩
  case step =>
    intro s a c ha hc
    apply (hstep s a c ha hc).mono
    rintro p ⟨⟨a', hspec, ha', hmem⟩, hsame⟩
    refine ⟨⟨a', hspec, ha'⟩, ?_, fun x hx => ?_⟩
    · rw [hspans _ _ ha, hspans _ _ ha', hgiven]
      exact nodeSpans_subset fun n hn => (hmem n hn).imp_right Option.mem_toList.2
    · rw [hspans _ _ ha, hgiven] at hx
      obtain ⟨hnodes, hinserted⟩ := outside_append.1 hx
      refine hsame x (outside_nodeSpans.1 hnodes) fun n hn => ?_
      exact outside_nodeSpans.1 hinserted n (Option.mem_toList.2 hn)

/-! ## Singly linked lists -/

namespace LinkedList

/-- A singly linked list uses the bytes of its nodes. -/
@[reducible] def part : Spans.Part UInt8 where
  Handle := LinkedList
  Call := Call
  Answer := ℕ
  Model := List ℕ
  initial := empty
  step s c := do
    let (o, t) ← State.step ⟨s.1, s.2⟩ c
    return (o, (t.list, t.mem))
  spans s := nodeSpans 8 (State.forward ⟨s.1, s.2⟩)
  given c := nodeSpans 8 c.inserted.toList
  Allowed s c := State.Valid ⟨s.1, s.2⟩ c
  first := []
  Spec := Spec

/-- A list in memory depends on the bytes of its nodes only. -/
theorem Holds.congr {list : LinkedList} {m m' : Words.Memory} {xs : List ℕ}
    (h : list.Holds m xs) (hsame : ∀ n ∈ xs, ∀ x, n ≤ x → x < n + 8 → m' x = m x) :
    list.Holds m' xs where
  chained := h.chained.congr fun n hn => Words.loadWord_congr fun x h1 h2 => hsame n hn x h1 h2
  head_eq := h.head_eq
  tail_eq := h.tail_eq
  size_eq := h.size_eq
  apart := h.apart
  ne_zero := h.ne_zero
  address := h.address

theorem mem_eraseBehind {prev n : ℕ} {xs : List ℕ} (h : n ∈ eraseBehind prev xs) : n ∈ xs := by
  induction xs with
  | nil => exact h
  | cons x xs ih =>
    rw [eraseBehind] at h
    split at h
    · rcases List.mem_cons.1 h with rfl | h
      · exact List.mem_cons_self ..
      · exact List.mem_cons_of_mem _ (List.mem_of_mem_tail h)
    · rcases List.mem_cons.1 h with rfl | h
      · exact List.mem_cons_self ..
      · exact List.mem_cons_of_mem _ (ih h)

/-- The nodes after a call were in the list or are inserted. -/
theorem Spec.mem {xs ys : List ℕ} {c : Call} {o : ℕ} (h : Spec xs c o ys) {n : ℕ} (hn : n ∈ ys) :
    n ∈ xs ∨ n ∈ c.inserted := by
  cases c with
  | push node =>
    obtain ⟨-, rfl⟩ := h
    simpa [Call.inserted, @eq_comm _ node n] using hn
  | pushfront node =>
    obtain ⟨-, rfl⟩ := h
    simpa [Call.inserted, @eq_comm _ node n, or_comm] using hn
  | popleft =>
    obtain ⟨-, rfl⟩ := h
    exact .inl (List.mem_of_mem_tail hn)
  | removeAfter prev =>
    rw [Spec] at h
    split at h
    · obtain ⟨-, rfl⟩ := h
      exact .inl (List.mem_of_mem_tail hn)
    · obtain ⟨-, rfl⟩ := h
      exact .inl (mem_eraseBehind hn)

theorem lawful : part.Lawful fun s xs => s.1.Holds s.2 xs := by
  apply lawful_of_nodes 8 id Call.inserted
  case hspans =>
    intro s xs h
    exact congrArg (nodeSpans 8) (Holds.forward_eq (s := ⟨s.1, s.2⟩) h)
  case hgiven => exact fun _ => rfl
  case hinitial => exact fun m => holds_empty m
  case hfirst => rfl
  case hcongr => exact fun list m m' xs h hsame => Holds.congr h hsame
  case hstep =>
    intro s xs c h hc
    refine (step_spec (s := ⟨s.1, s.2⟩) h hc).bind fun q hq => Sat.ok ?_
    obtain ⟨⟨ys, hspec, h'⟩, hkeeps⟩ := hq
    refine ⟨⟨ys, hspec, h', fun n hn => hspec.mem hn⟩, fun x hnodes hinserted => ?_⟩
    refine hkeeps.untouched x ?_ hinserted
    rwa [Holds.forward_eq (s := ⟨s.1, s.2⟩) h]

end LinkedList

/-! ## Doubly linked lists -/

namespace DoublyLinkedList

/-- A doubly linked list uses the bytes of its nodes. -/
@[reducible] def part : Spans.Part UInt8 where
  Handle := DoublyLinkedList
  Call := Call
  Answer := ℕ
  Model := List ℕ
  initial := empty
  step s c := do
    let (o, t) ← State.step ⟨s.1, s.2⟩ c
    return (o, (t.list, t.mem))
  spans s := nodeSpans 16 (State.forward ⟨s.1, s.2⟩)
  given c := nodeSpans 16 c.inserted.toList
  Allowed s c := State.Valid ⟨s.1, s.2⟩ c
  first := []
  Spec := Spec

theorem mem_insertBehind {after node n : ℕ} {xs : List ℕ} (h : n ∈ insertBehind after node xs) :
    n ∈ xs ∨ n = node := by
  induction xs with
  | nil => exact .inl h
  | cons x xs ih =>
    rw [insertBehind] at h
    split at h
    · simp only [List.mem_cons] at h ⊢
      tauto
    · rcases List.mem_cons.1 h with rfl | h
      · exact .inl (List.mem_cons_self ..)
      · exact (ih h).imp (List.mem_cons_of_mem _) id

/-- The nodes after a call were in the list or are inserted. -/
theorem Spec.mem {xs ys : List ℕ} {c : Call} {o : ℕ} (h : Spec xs c o ys) {n : ℕ} (hn : n ∈ ys) :
    n ∈ xs ∨ n ∈ c.inserted := by
  cases c with
  | push node =>
    obtain ⟨-, rfl⟩ := h
    simpa [Call.inserted, @eq_comm _ node n] using hn
  | pushfront node =>
    obtain ⟨-, rfl⟩ := h
    simpa [Call.inserted, @eq_comm _ node n, or_comm] using hn
  | insertAfter after node =>
    obtain ⟨-, rfl⟩ := h
    split at hn
    · simpa [Call.inserted, @eq_comm _ node n, or_comm] using hn
    · simpa [Call.inserted, @eq_comm _ node n] using mem_insertBehind hn
  | popleft =>
    obtain ⟨-, rfl⟩ := h
    exact .inl (List.mem_of_mem_tail hn)
  | popback =>
    obtain ⟨-, rfl⟩ := h
    exact .inl (List.mem_of_mem_dropLast hn)
  | remove node =>
    obtain ⟨-, rfl⟩ := h
    exact .inl (List.mem_of_mem_erase hn)

theorem lawful : part.Lawful fun s xs => s.1.Holds s.2 xs := by
  apply lawful_of_nodes 16 id Call.inserted
  case hspans =>
    intro s xs h
    exact congrArg (nodeSpans 16) (Holds.forward_eq (s := ⟨s.1, s.2⟩) h)
  case hgiven => exact fun _ => rfl
  case hinitial => exact fun m => holds_empty m
  case hfirst => rfl
  case hcongr => exact fun list m m' xs h hsame => Holds.congr h hsame
  case hstep =>
    intro s xs c h hc
    refine (step_spec (s := ⟨s.1, s.2⟩) h hc).bind fun q hq => Sat.ok ?_
    obtain ⟨⟨ys, hspec, h'⟩, hkeeps⟩ := hq
    refine ⟨⟨ys, hspec, h', fun n hn => hspec.mem hn⟩, fun x hnodes hinserted => ?_⟩
    refine hkeeps.untouched x ?_ hinserted
    rwa [Holds.forward_eq (s := ⟨s.1, s.2⟩) h]

end DoublyLinkedList

/-! ## Any number of lists -/

/-- Whether a list is singly or doubly linked. -/
inductive ListKind where
  | singly
  | doubly
  deriving DecidableEq

namespace ListKind

/-- A list of this kind as a part of a program. -/
def part : ListKind → Spans.Part UInt8
  | .singly => LinkedList.part
  | .doubly => DoublyLinkedList.part

/-- A list of this kind is the nodes `xs`. -/
def Holds : (k : ListKind) → k.part.Handle × Words.Memory → k.part.Model → Prop
  | .singly => fun s xs => LinkedList.Holds s.1 s.2 xs
  | .doubly => fun s xs => DoublyLinkedList.Holds s.1 s.2 xs

/-- What the links of a list of this kind show. -/
def Shows : (k : ListKind) → k.part.Handle × Words.Memory → k.part.Model → Prop
  | .singly => fun s xs => LinkedList.IsSequence ⟨s.1, s.2⟩ xs
  | .doubly => fun s xs => DoublyLinkedList.IsSequence ⟨s.1, s.2⟩ xs

instance : (k : ListKind) → (s : k.part.Handle × Words.Memory) → (c : k.part.Call) →
    Decidable (k.part.Allowed s c)
  | .singly => fun s (c : LinkedList.Call) =>
    inferInstanceAs (Decidable (LinkedList.State.Valid ⟨s.1, s.2⟩ c))
  | .doubly => fun s (c : DoublyLinkedList.Call) =>
    inferInstanceAs (Decidable (DoublyLinkedList.State.Valid ⟨s.1, s.2⟩ c))

theorem lawful (k : ListKind) : k.part.Lawful k.Holds := by
  cases k with
  | singly => exact LinkedList.lawful
  | doubly => exact DoublyLinkedList.lawful

theorem Holds.shows {k : ListKind} {s : k.part.Handle × Words.Memory} {xs : k.part.Model}
    (h : k.Holds s xs) : k.Shows s xs := by
  cases k with
  | singly => exact LinkedList.Holds.isSequence (s := ⟨s.1, s.2⟩) h
  | doubly => exact DoublyLinkedList.Holds.isSequence (s := ⟨s.1, s.2⟩) h

end ListKind

section Sharing

variable {V : Type} [DecidableEq V] (kind : V → ListKind)

/-- **Any number of lists share their nodes.**  Singly and doubly linked lists are called in
any order, a node that is inserted shares no byte with a node of any list, and the client
writes where no node lies.  Then each call answers as on the sequence of its own list, the
links of every list show its sequence, no two lists have a byte in common, and a byte that
is never in an inserted node or written is what it was. -/
theorem lists_share_nodes (mem : Words.Memory) (acts : List (Act fun i => (kind i).part))
    (hready : Along step Ready (World.start mem) acts) :
    Sat (trace step (World.start mem) acts) fun p =>
      (∃ xs, Follows Spans.Spec (fun i => (kind i).part.first) acts p.1 xs ∧
        ∀ i, (kind i).Shows (p.2.handles i, p.2.mem) (xs i)) ∧
      (∀ i j, i ≠ j → ∀ t ∈ p.2.spans i, ∀ u ∈ p.2.spans j, Apart t u) ∧
      ∀ x, (∀ l ∈ acts, Outside l.reach x) → p.2.mem x = mem x := by
  have hlaws : ∀ i, (kind i).part.Lawful (kind i).Holds := fun i => (kind i).lawful
  obtain ⟨p, hrun, xs, hfollows, hjoint⟩ := run_spec hlaws mem acts hready
  refine ⟨p, hrun, ⟨xs, hfollows, fun i => (hjoint.holds i).shows⟩, hjoint.apart, fun x hx => ?_⟩
  obtain ⟨p', hrun', hsame⟩ := run_untouched hlaws mem acts hready hx
  cases hrun.symm.trans hrun'
  exact hsame

end Sharing

/-- A free list and a list in use. -/
def twoLists : Bool → ListKind
  | false => .singly
  | true => .doubly

/-- Two nodes go from the free list to the list in use, and one comes back. -/
def recycle : List (Act fun i => (twoLists i).part) :=
  [.call false (LinkedList.Call.push 64), .call false (LinkedList.Call.push 96), .write 80 [7],
    .call false LinkedList.Call.popleft, .call true (DoublyLinkedList.Call.push 64),
    .call false LinkedList.Call.popleft, .call true (DoublyLinkedList.Call.pushfront 96),
    .call true (DoublyLinkedList.Call.remove 64), .call false (LinkedList.Call.pushfront 64),
    .write 72 [1, 2]]

theorem lists_share_nodes_recycle : Sat (trace step (World.start fun _ => 0) recycle) fun p =>
    (∃ xs, Follows Spans.Spec (fun i => (twoLists i).part.first) recycle p.1 xs ∧
      ∀ i, (twoLists i).Shows (p.2.handles i, p.2.mem) (xs i)) ∧
    (∀ i j, i ≠ j → ∀ t ∈ p.2.spans i, ∀ u ∈ p.2.spans j, Apart t u) ∧
    ∀ x, (∀ l ∈ recycle, Outside l.reach x) → p.2.mem x = 0 :=
  lists_share_nodes twoLists _ recycle (along_of_check (by decide +kernel))

end K4c
