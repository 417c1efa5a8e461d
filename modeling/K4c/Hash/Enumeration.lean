import Mathlib.Tactic
import K4c.Hash.Lifetimes

/-!
# Iterators enumerate the entries

In every state that a run of a hash map or a hash set reaches, an iterator that is
asked for more and more items returns the entries, each once, and then nothing.

* `Hashmap.Iterated`, `Hashset.Iterated` — what the iterators of a table enumerate.
* `iterators_enumerate` — this is so after every run.
-/

namespace K4c

open Exec Runs HashCommon

section Enumeration

variable [Platform]

/-! ## Maps -/

namespace Hashmap

/-- The three iterators go through the same entries in the same order: one returns the
keys, one the values, and one both.  Where equality of keys is an equivalence that
respects the hashes, the value is what a get returns for the key. -/
def Iterated (m : Hashmap) (w : Memory) : Prop :=
  ∃ es, m.toTable.Stored m.dataSize w es ∧
    Iterator.Enumerates (m.iteratorNext w) m.getIterator
      (es.map fun e => ⟨Table.entryKey e.block, m.entryValue e.block⟩) ∧
    Iterator.Enumerates (m.keyIteratorNext w) m.getIterator
      (es.map fun e => Table.entryKey e.block) ∧
    Iterator.Enumerates (m.valueIteratorNext w) m.getIterator
      (es.map fun e => m.entryValue e.block) ∧
    (KeyEquivalence m.keySize m.equal → ∀ e ∈ es, ∀ key : Arg,
      key.Reads w [] m.keySize (e.key m.keySize) →
        m.get key w = .ok (some (m.entryValue e.block)))

variable {rows : ℕ → List Entry}

theorem Intact.iterated {keySize valueSize : ℕ}
    {keyEq : Option (List UInt8 → List UInt8 → Bool)} {s : Hashmap × Memory}
    (h : Intact keySize valueSize keyEq s rows) : s.1.Iterated s.2 := by
  have hlies := h.table.lies
  refine ⟨_, hlies.stored, Table.iterator_enumerates hlies fun entry =>
    EntryView.mk (Table.entryKey entry) (s.1.entryValue entry),
    Table.iterator_enumerates hlies Table.entryKey,
    Table.iterator_enumerates hlies s.1.entryValue, fun hequal e he key hkey => ?_⟩
  have hholds : Holds s.1 s.2 rows := by
    refine ⟨h.table.holds ?_, h.entrySize⟩
    rw [← h.table.keySize_eq, ← h.table.keyEq_eq]
    exact hequal
  exact hholds.get_entry he hkey (hequal.refl _ (hlies.length_key he))

end Hashmap

/-! ## Sets -/

namespace Hashset

/-- The iterator goes through the elements. -/
def Iterated (s : Hashset) (w : Memory) : Prop :=
  ∃ es, Table.Stored s s.keySize w es ∧
    Iterator.Enumerates (s.iteratorNext w) s.getIterator (es.map fun e => Table.entryKey e.block)

theorem Intact.iterated {elemSize : ℕ} {elemEq : Option (List UInt8 → List UInt8 → Bool)}
    {s : Hashset × Memory} {rows : ℕ → List Entry} (h : Intact elemSize elemEq s rows) :
    Hashset.Iterated s.1 s.2 :=
  ⟨_, h.table.lies.stored, Table.iterator_enumerates h.table.lies Table.entryKey⟩

end Hashset

/-! ## Runs -/

/-- **Iterators enumerate the entries.**  After every run of a hash map or a hash set,
with whatever comparison and whatever the allocator grants, an iterator returns every
entry once, and then nothing however often it is asked; before each call its size hint
is the number of entries to come.  The items of the three iterators of a map belong to
the same entries in the same order, and the value is what a get returns for the key. -/
theorem iterators_enumerate {allocator : Option (Allocator Memory)}
    (hbacked : Backed (Allocator.copy allocator)) (w₀ : Memory) :
    (∀ keySize valueSize keyEq m w₁ uses,
      Hashmap.create keySize valueSize keyEq allocator w₀ = .ok ((.ok, some m), w₁) →
      Along (Hashmap.client keySize valueSize keyEq allocator).step Hashmap.Use.Allowed (m, w₁)
        uses →
      Sat (trace (Hashmap.client keySize valueSize keyEq allocator).step (m, w₁) uses) fun p =>
        p.2.1.Iterated p.2.2) ∧
    (∀ elemSize elemEq s w₁ calls,
      Hashset.create elemSize elemEq allocator w₀ = .ok ((.ok, some s), w₁) →
      Along (Hashset.container elemSize elemEq allocator).step Hashset.Op.Allowed (s, w₁) calls →
      Sat (trace (Hashset.container elemSize elemEq allocator).step (s, w₁) calls) fun p =>
        Hashset.Iterated p.2.1 p.2.2) := by
  refine ⟨?_, ?_⟩
  · intro keySize valueSize keyEq m w₁ uses hcreate halong
    apply (Hashmap.reached (Hashmap.create_intact hbacked hcreate) uses halong).mono
    rintro ⟨_, s⟩ ⟨rows, h⟩
    exact h.iterated
  · intro elemSize elemEq s w₁ calls hcreate halong
    apply (Hashset.reached (Hashset.create_intact hbacked hcreate) calls halong).mono
    rintro ⟨_, s⟩ ⟨rows, h⟩
    exact h.iterated

end Enumeration

section Example

local instance enumerationPlatform : Platform := lp64

/-- A memory that refuses its fifth request. -/
def grudging : Memory := .empty fun i => if i = 4 then none else some ⟨true, fun _ => 0⟩

/-- Two keys in different buckets, a value that is stored to, and a growth that is
refused. -/
def fillAndStore : List Hashmap.Use :=
  [.call (.put (.outside [1]) (.outside [10, 11])), .call (.put (.outside [9]) (.outside [20, 21])),
    .store (.outside [1]) 1 [12], .call (.reserve 100)]

/-- Two elements in different buckets, and a growth that is refused. -/
def fillTwo : List Hashset.Op :=
  [.insert (.outside [1]), .insert (.outside [9]), .reserve 100]

set_option maxRecDepth 4000 in
theorem iterators_enumerate_fill_and_store :
    (∃ m w₁, Hashmap.create 1 2 none none grudging = .ok ((.ok, some m), w₁) ∧
      Sat (trace (Hashmap.client 1 2 none none).step (m, w₁) fillAndStore) fun p =>
        p.2.1.Iterated p.2.2) ∧
    (∃ s w₁, Hashset.create 1 none none grudging = .ok ((.ok, some s), w₁) ∧
      Sat (trace (Hashset.container 1 none none).step (s, w₁) fillTwo) fun p =>
        Hashset.Iterated p.2.1 p.2.2) := by
  have hbacked : Backed (Allocator.copy none) := .default _
  refine ⟨?_, ?_⟩
  · obtain ⟨m, w₁, hcreate⟩ : ∃ m w₁,
        Hashmap.create 1 2 none none grudging = .ok ((.ok, some m), w₁) := by
      exact ⟨_, _, rfl⟩
    exact ⟨m, w₁, hcreate, (iterators_enumerate hbacked _).1 1 2 none m w₁ fillAndStore hcreate
      (Hashmap.along_own (Hashmap.create_intact hbacked hcreate) _ (by decide))⟩
  · obtain ⟨s, w₁, hcreate⟩ : ∃ s w₁,
        Hashset.create 1 none none grudging = .ok ((.ok, some s), w₁) := by
      exact ⟨_, _, rfl⟩
    exact ⟨s, w₁, hcreate, (iterators_enumerate hbacked _).2 1 none s w₁ fillTwo hcreate
      (Hashset.along_own (Hashset.create_intact hbacked hcreate) _ (by decide))⟩

end Example

end K4c
