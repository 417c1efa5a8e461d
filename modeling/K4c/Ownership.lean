import Mathlib.Tactic
import K4c.Datastruct.Lifetimes
import K4c.Hash.Lifetimes

/-!
# No leak and no double release

The lives of the six containers that own memory, put together: over an allocator that
releases what it is given, whatever requests it refuses, what is live beside the blocks
of others is always what the handle owns.

* `no_leak` — the statement for all of them.
-/

namespace K4c

open Exec Blocks Runs

/-- **No leak and no double release.**  Over an allocator that releases, and from any
memory with any pattern of refusals: a constructor that fails leaves `*out` absent and
nothing behind; in every state of every run the blocks that have come since are those
that the handle owns; no request hands in a block after the end of its life; and after
the destructor nothing is left. -/
theorem no_leak [Platform] {allocator : Option (Allocator Memory)}
    (hbacked : Backed (Allocator.copy allocator)) (hreclaims : Reclaims (Allocator.copy allocator))
    (w₀ : Memory) :
    (∀ elemSize capacity, 0 < elemSize → 0 < capacity →
      (Vector.container elemSize capacity allocator).NoLeak w₀) ∧
    (∀ elemSize, 0 < elemSize → (Deque.container elemSize allocator).NoLeak w₀) ∧
    (∀ initial t, StringHeader.Initial w₀ initial t →
      (StringHeader.container initial allocator).NoLeak w₀) ∧
    (∀ elemSize cmp, 0 < elemSize → (BinaryHeap.container elemSize cmp allocator).NoLeak w₀) ∧
    (∀ keySize valueSize keyEq, 0 < keySize → 0 < valueSize →
      (Hashmap.container keySize valueSize keyEq allocator).NoLeak w₀) ∧
    (∀ elemSize elemEq, 0 < elemSize →
      (Hashset.container elemSize elemEq allocator).NoLeak w₀) := by
  refine ⟨?_, ?_, ?_, ?_, ?_, ?_⟩
  · intro elemSize capacity helem hcap
    exact (Vector.sound hbacked helem hcap w₀).noLeak hreclaims
  · intro elemSize helem
    exact (Deque.sound hbacked helem w₀).noLeak hreclaims
  · intro initial t hinitial
    exact (StringHeader.sound hbacked hinitial).noLeak hreclaims
  · intro elemSize cmp helem
    exact (BinaryHeap.sound hbacked helem w₀).noLeak hreclaims
  · intro keySize valueSize keyEq hkey hvalue
    exact (Hashmap.sound hbacked hkey hvalue w₀).noLeak hreclaims
  · intro elemSize elemEq helem
    exact (Hashset.sound hbacked helem w₀).noLeak hreclaims

section Example

local instance ownershipPlatform : Platform := lp64

/-- A memory that refuses its fourth request and moves what is resized. -/
def refusing : Memory := .empty fun n => if n = 3 then none else some ⟨true, fun _ => 0⟩

/-- An entry is added, the first attempt to rehash is refused, and the second one
granted. -/
def rehashed : List Hashmap.Op :=
  [.put (.outside [1]) (.outside [10, 11]), .reserve 100, .reserve 100, .iterate]

set_option maxRecDepth 4000 in
theorem no_leak_rehashed : ∃ m w₁,
    Hashmap.create 1 2 none none refusing = .ok ((.ok, some m), w₁) ∧
    Sat (trace (Hashmap.container 1 2 none none).step (m, w₁) rehashed) fun p =>
      (Hashmap.container 1 2 none none).Accounted refusing p.2 := by
  have hbacked : Backed (Allocator.copy none) := .default _
  have hreclaims : Reclaims (Allocator.copy none) := .inl rfl
  obtain ⟨-, -, -, -, hmap, -⟩ := no_leak hbacked hreclaims refusing
  obtain ⟨r, hcreate, hres⟩ := hmap 1 2 none (by decide) (by decide)
  obtain ⟨m, w₁, hm, hkey, hvalue⟩ :
      ∃ m w₁, Hashmap.create 1 2 none none refusing = .ok ((.ok, some m), w₁) ∧
        m.keySize = 1 ∧ m.valueSize = 2 := by
    refine ⟨_, _, rfl, ?_, ?_⟩
    · rfl
    · rfl
  refine ⟨m, w₁, hm, ?_⟩
  cases hcreate.symm.trans hm
  rcases hres with ⟨hst, -⟩ | ⟨-, s, hs, hruns⟩
  · exact absurd rfl hst
  cases hs
  have hput : (Hashmap.container 1 2 none none).Allowed (m, w₁)
      (.put (.outside [1]) (.outside [10, 11])) :=
    ⟨[1], [10, 11], .outside hkey.symm hvalue.symm⟩
  exact hruns rehashed ⟨hput, fun _ _ _ => ⟨trivial, fun _ _ _ => ⟨trivial, fun _ _ _ =>
    ⟨trivial, fun _ _ _ => trivial⟩⟩⟩⟩

end Example

end K4c
