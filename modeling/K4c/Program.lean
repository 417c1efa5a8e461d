import Mathlib.Tactic
import K4c.Datastruct.Kinds
import K4c.Hash.Kinds

/-!
# Programs with many containers

A program declares variables for vectors, deques, strings, heaps, maps and sets, each with
an allocator of its own choice, and uses them in any order.  All of them end in one memory.

* `Shape`, `Decl` — what a variable is declared for.
* `shared_memory` — every container behaves as if it were the only one, and every block
  belongs to one of them.
* `others_leave_alone` — what is done to the other variables does not reach a container.
-/

namespace K4c

open Exec Blocks Runs Objects HeapOrder

section Declared

variable [Platform]

/-! ## Declarations -/

/-- The containers a variable can be declared for. -/
inductive Shape where
  | vector (elemSize capacity : ℕ) (helem : 0 < elemSize) (hcap : 0 < capacity)
  | deque (elemSize : ℕ) (helem : 0 < elemSize)
  /-- A string that starts as a copy of these bytes. -/
  | string (initial : List UInt8) (hnul : 0 ∈ initial)
  | heap (elemSize : ℕ) (cmp : Option (List UInt8 → List UInt8 → ℤ)) (helem : 0 < elemSize)
      (hcmp : TotalPreorder elemSize (cmp.getD memcmp))
  | map {keySize : ℕ} (c : Comparison keySize) (valueSize : ℕ) (hkey : 0 < keySize)
      (hvalue : 0 < valueSize)
  | set {elemSize : ℕ} (c : Comparison elemSize) (helem : 0 < elemSize)

namespace Shape

/-- The container, over this allocator. -/
def kind (allocator : Option (Allocator Memory)) : Shape → Kind Content
  | .vector elemSize capacity _ _ => (Vector.typed elemSize capacity allocator).kind
  | .deque elemSize _ => (Deque.typed elemSize allocator).kind
  | .string initial _ => (StringHeader.typed initial allocator).kind
  | .heap elemSize cmp _ _ => (BinaryHeap.typed elemSize cmp allocator).kind
  | .map c valueSize _ _ => (Hashmap.typed c valueSize allocator).kind
  | .set c _ => (Hashset.typed c allocator).kind

instance (allocator : Option (Allocator Memory)) (shape : Shape)
    (s : (shape.kind allocator).Handle × Memory) (l : (shape.kind allocator).Call) :
    Decidable ((shape.kind allocator).Allowed s l) :=
  match shape with
  | .vector elemSize _ _ _ => (inferInstance : DecidablePred (Vector.Call.Valid elemSize)) l
  | .deque elemSize _ => (inferInstance : DecidablePred (Deque.Call.Valid elemSize)) l
  | .string _ _ => (inferInstance : DecidablePred StringHeader.Call.Valid) l
  | .heap elemSize _ _ _ => (inferInstance : ∀ s c, Decidable (BinaryHeap.Allowed elemSize s c)) s l
  | .map _ _ _ _ => inferInstanceAs (Decidable True)
  | .set _ _ => inferInstanceAs (Decidable True)

/-- The container is in the memory, means this, and owns these blocks. -/
def Keeps (allocator : Option (Allocator Memory)) : (shape : Shape) →
    (shape.kind allocator).Handle × Memory → (shape.kind allocator).Model → List ℕ → Prop
  | .vector elemSize _ _ _ => fun s a o =>
    Vector.Represents elemSize s.1 s.2 a ∧ Vector.Kept (Allocator.copy allocator) s o
  | .deque elemSize _ => fun s a o =>
    Deque.Represents elemSize s a ∧ Deque.Kept (Allocator.copy allocator) s o
  | .string _ _ => fun s a o =>
    StringHeader.Represents s a ∧ StringHeader.Kept (Allocator.copy allocator) s o
  | .heap elemSize cmp _ _ => fun s a o =>
    BinaryHeap.Represents elemSize cmp s a ∧ BinaryHeap.Kept (Allocator.copy allocator) s o
  | .map c valueSize _ _ => fun s M o =>
    Hashmap.Represents c valueSize s M ∧ Hashmap.Kept (Allocator.copy allocator) s o
  | .set c _ => fun s M o =>
    Hashset.Represents c s M ∧ Hashset.Kept (Allocator.copy allocator) s o

theorem lawful {allocator : Option (Allocator Memory)}
    (hbacked : Backed (Allocator.copy allocator)) (shape : Shape) :
    (shape.kind allocator).Lawful (Reclaims (Allocator.copy allocator)) (shape.Keeps allocator) := by
  cases shape with
  | vector elemSize capacity helem hcap => exact Vector.lawful hbacked helem hcap
  | deque elemSize helem => exact Deque.lawful hbacked helem
  | string initial hnul => exact StringHeader.lawful hbacked hnul
  | heap elemSize cmp helem hcmp => exact BinaryHeap.lawful hbacked helem hcmp
  | map c valueSize hkey hvalue => exact Hashmap.lawful hbacked hkey hvalue
  | set c helem => exact Hashset.lawful hbacked helem

end Shape

/-- A variable: its container, and the allocator that is passed to its constructor. -/
structure Decl where
  shape : Shape
  allocator : Option (Allocator Memory)
  backed : Backed (Allocator.copy allocator)

/-- The objects of a variable. -/
abbrev Decl.kind (d : Decl) : Kind Content := d.shape.kind d.allocator

/-- The object of a variable is in the memory, means this, and owns these blocks. -/
abbrev Decl.Keeps (d : Decl) : d.kind.Handle × Memory → d.kind.Model → List ℕ → Prop :=
  d.shape.Keeps d.allocator

/-- Every allocator of the program releases what it is given. -/
def AllReclaim {V : Type} (decl : V → Decl) : Prop :=
  ∀ x, Reclaims (Allocator.copy (decl x).allocator)

/-! ## Runs -/

variable {V : Type} [DecidableEq V] {decl : V → Decl}

omit [DecidableEq V] in
theorem Decl.lawful (decl : V → Decl) (x : V) :
    (decl x).kind.Lawful (AllReclaim decl) (decl x).Keeps :=
  ((decl x).shape.lawful (decl x).backed).imp fun h => h x

/-- **The others leave a container alone.**  In whatever state a program has brought it to,
a container keeps its handle, its blocks and every byte in them while only other variables
are created, called and destroyed: pointers into it stay good. -/
theorem others_leave_alone (decl : V → Decl) (w₀ : Memory) (y : V)
    (before others : List (Σ x, (decl x).kind.Act)) (hothers : ∀ l ∈ others, l.1 ≠ y)
    (hready : Along step Ready (.start w₀) (before ++ others)) :
    Sat (trace step (.start w₀) before) fun p => ∃ m o,
      Kind.Holds (decl y).Keeps (p.2.objects y, p.2.mem) m o ∧
      Sat (trace step p.2 others) fun q => q.2.objects y = p.2.objects y ∧
        Kind.Holds (decl y).Keeps (q.2.objects y, q.2.mem) m o ∧
        ∀ b ∈ o, q.2.mem.cells b = p.2.mem.cells b := by
  obtain ⟨p, htrace, a, -, ⟨o, hj⟩, -⟩ := run_spec (Decl.lawful decl) w₀ before hready.left
  refine ⟨p, htrace, a y, o y, hj.holds y, ?_⟩
  have hrest := hready.right htrace
  apply (run_untouched (Decl.lawful decl) hj others hrest hothers).mono
  rintro q ⟨a', o', hj', hy⟩
  refine ⟨hy.object, ?_, hy.cells⟩
  rw [← hy.model, ← hy.owned]
  exact hj'.holds y

end Declared

section Example

local instance programPlatform : Platform := lp64

/-- A queue of two-byte elements, a set of single bytes, and a text. -/
inductive Var where
  | queue
  | seen
  | line
  deriving DecidableEq

/-- The text lies in a memory that never releases, the other two in the default one. -/
def declared : Var → Decl
  | .queue => ⟨.deque 2 (by decide), none, .default _⟩
  | .seen => ⟨.set (.bytewise 1) (by decide), none, .default _⟩
  | .line => ⟨.string [97, 0] (by decide), some (Memory.view ⟨false, true, false⟩), .view _⟩

/-- A memory that refuses its fifth request, the first one for the text. -/
def fussy : Memory := .empty fun n => if n = 4 then none else some ⟨true, fun _ => 0⟩

/-- The three are used in turn, and the queue is destroyed. -/
def inTurn : List (Σ x, (declared x).kind.Act) :=
  [⟨.queue, .create⟩, ⟨.seen, .create⟩, ⟨.line, .create⟩, ⟨.line, .create⟩,
    ⟨.queue, .call (.push [1, 2])⟩, ⟨.seen, .call (.insert ⟨[7], rfl⟩)⟩,
    ⟨.line, .call (.append [98, 0])⟩, ⟨.queue, .call .popleft⟩, ⟨.queue, .destroy⟩]

/-- The queue is created again, and something is taken out of the set. -/
def afterwards : List (Σ x, (declared x).kind.Act) :=
  [⟨.queue, .create⟩, ⟨.seen, .call (.remove ⟨[7], rfl⟩)⟩, ⟨.queue, .call (.pushfront [3, 4])⟩]

set_option maxRecDepth 4000 in
theorem others_leave_alone_afterwards :
    Sat (trace step (.start fussy) inTurn) fun p => ∃ m o,
      Kind.Holds (declared .line).Keeps (p.2.objects .line, p.2.mem) m o ∧
      Sat (trace step p.2 afterwards) fun q => q.2.objects .line = p.2.objects .line ∧
        Kind.Holds (declared .line).Keeps (q.2.objects .line, q.2.mem) m o ∧
        ∀ b ∈ o, q.2.mem.cells b = p.2.mem.cells b :=
  others_leave_alone declared fussy .line inTurn afterwards (by decide +kernel)
    (along_of_check (by decide +kernel))

end Example

end K4c
