import Mathlib.Tactic
import K4c.Hash.Turns

/-!
# The lives of hash maps and hash sets

The two tables with all of their calls, from the constructor to the destructor.

* `Table.Owns` — the handle, the bucket array, and one block for each entry.
* `Table.Stored` — the entries that are linked to the bucket array.
* `Kept` — the table lies in the memory, with this allocator.
* `sound` — every call exchanges the blocks that are owned.
* `Hashmap.client` — a map whose caller also stores to the values; `reached` — every run
  of the two leaves an intact table.
-/

namespace K4c

open Exec Blocks Runs HashCommon

variable [Platform]

/-- The blocks of a table in this memory: its handle, its bucket array, and one for
each of the `size` entries in the lists of the buckets. -/
def Table.Owns (t : Table) (w : Memory) (o : List ℕ) : Prop :=
  ∃ n rows, Arrayed (sizeofEntry + n) (Entry.hash t.keySize) w t.buckets t.capacity rows ∧
    t.size = (t.entries rows).length ∧ o = t.owned rows

theorem Table.Lies.owns {t : Table} {n : ℕ} {w : Memory} {rows : ℕ → List Entry}
    (h : Table.Lies t n w rows) : t.Owns w (t.owned rows) :=
  ⟨n, rows, h.arrayed, h.size, rfl⟩

theorem Table.Lies.nodup {t : Table} {n : ℕ} {w : Memory} {rows : ℕ → List Entry}
    (h : Table.Lies t n w rows) : (t.owned rows).Nodup :=
  List.nodup_cons.2 ⟨h.apart, List.nodup_cons.2 ⟨h.arrayed.array_notMem, h.arrayed.nodup⟩⟩

/-- These are the entries in the buckets of the table, with `n` bytes of data each. -/
structure Table.Stored (t : Table) (n : ℕ) (w : Memory) (es : List Entry) : Prop where
  linked : ∃ rows, Arrayed (sizeofEntry + n) (Entry.hash t.keySize) w t.buckets t.capacity rows ∧
    es = t.entries rows
  nodup : (es.map Entry.block).Nodup
  size : t.size = es.length

theorem Table.Lies.stored {t : Table} {n : ℕ} {w : Memory} {rows : ℕ → List Entry}
    (h : Table.Lies t n w rows) : t.Stored n w (t.entries rows) :=
  ⟨⟨rows, h.arrayed, rfl⟩, h.arrayed.nodup, h.size⟩

/-! ## Maps -/

namespace Hashmap

/-- Maps with keys and values of these sizes and this comparison of keys. -/
def container (keySize valueSize : ℕ) (keyEq : Option (List UInt8 → List UInt8 → Bool))
    (allocator : Option (Allocator Memory)) : Container Hashmap Op where
  create := create keySize valueSize keyEq allocator
  call := call
  destroy := destroy
  Owns s o := s.1.toTable.Owns s.2 o
  Allowed := Op.Allowed

/-- The same maps in the hands of a caller that also stores to their values. -/
def client (keySize valueSize : ℕ) (keyEq : Option (List UInt8 → List UInt8 → Bool))
    (allocator : Option (Allocator Memory)) : Container Hashmap Use where
  create := create keySize valueSize keyEq allocator
  call := use
  destroy := destroy
  Owns s o := s.1.toTable.Owns s.2 o
  Allowed := Use.Allowed

/-- The map lies in the memory and owns these blocks. -/
def Kept (a : Allocator Memory) (s : Hashmap × Memory) (o : List ℕ) : Prop :=
  ∃ rows, Lies s.1 s.2 rows ∧ s.1.allocator = a ∧ o = s.1.owned rows

/-- **The life of a map.** -/
theorem sound {keySize valueSize : ℕ} {keyEq : Option (List UInt8 → List UInt8 → Bool)}
    {allocator : Option (Allocator Memory)} (hbacked : Backed (Allocator.copy allocator))
    (hkey : 0 < keySize) (hvalue : 0 < valueSize) (w₀ : Memory) :
    (container keySize valueSize keyEq allocator).Sound
      (Reclaims (Allocator.copy allocator)) w₀ (Kept (Allocator.copy allocator)) where
  owns := by
    rintro s o ⟨rows, h, -, rfl⟩
    exact h.table.owns
  nodup := by
    rintro s o ⟨rows, h, -, rfl⟩
    exact h.table.nodup
  create := by
    obtain ⟨st, out, w, hcreate, hres⟩ := create_spec keyEq hbacked hkey hvalue w₀
    refine ⟨st, out, w, hcreate, ?_⟩
    rcases hres with hfail | ⟨rfl, m, rfl, hx, h, -, -, -, hallocator, -⟩
    · exact .inl hfail
    · exact .inr ⟨rfl, m, _, rfl, ⟨_, h, hallocator, rfl⟩, hx⟩
  call := by
    rintro ⟨m, w⟩ o c ⟨rows, h, hallocator, rfl⟩ hc
    apply (call_turn h hc).mono
    rintro ⟨m', w'⟩ ⟨rows', h', hchanged, -⟩
    exact ⟨_, ⟨rows', h', hchanged.table.allocator.trans hallocator, rfl⟩,
      hallocator ▸ hchanged.table.exchange⟩
  destroy := by
    rintro s o ⟨rows, h, hallocator, rfl⟩
    obtain ⟨w', hdestroy, hx⟩ := destroy_spec h
    exact ⟨w', hdestroy, hallocator ▸ hx⟩

section Runs

variable {keySize valueSize : ℕ} {keyEq : Option (List UInt8 → List UInt8 → Bool)}
  {allocator : Option (Allocator Memory)}

theorem client_step {s : Hashmap × Memory} {u : Use}
    (h : ∃ rows, Intact keySize valueSize keyEq s rows) (hu : u.Allowed s) :
    Sat ((client keySize valueSize keyEq allocator).step s u) fun p =>
      ∃ rows, Intact keySize valueSize keyEq p.2 rows := by
  obtain ⟨rows, h⟩ := h
  exact (h.use hu).bind fun _ h' => Sat.ok h'

/-- **What a run leaves**, from a map that is intact. -/
theorem reached {s : Hashmap × Memory} {rows : ℕ → List Entry}
    (h : Intact keySize valueSize keyEq s rows) (uses : List Use)
    (halong : Along (client keySize valueSize keyEq allocator).step Use.Allowed s uses) :
    Sat (trace (client keySize valueSize keyEq allocator).step s uses) fun p =>
      ∃ rows', Intact keySize valueSize keyEq p.2 rows' :=
  trace_inv (I := fun s => ∃ rows, Intact keySize valueSize keyEq s rows)
    (fun _ _ h hu => client_step h hu) uses s ⟨rows, h⟩ halong

/-- A caller that passes bytes of its own may do so at any time. -/
theorem along_own {s : Hashmap × Memory} {rows : ℕ → List Entry}
    (h : Intact keySize valueSize keyEq s rows) (uses : List Use)
    (hown : ∀ u ∈ uses, u.own keySize valueSize = true) :
    Along (client keySize valueSize keyEq allocator).step Use.Allowed s uses := by
  refine along_of_inv (I := fun s => ∃ rows, Intact keySize valueSize keyEq s rows)
    (fun s u hs hu => ?_) (fun _ _ h hu => client_step h hu) uses s ⟨rows, h⟩ hown
  obtain ⟨rows, h⟩ := hs
  rw [← h.table.keySize_eq, ← h.valueSize_eq] at hu
  exact Use.allowed_of_own hu

end Runs

end Hashmap

/-! ## Sets -/

namespace Hashset

/-- Sets of elements of this size and with this comparison. -/
def container (elemSize : ℕ) (elemEq : Option (List UInt8 → List UInt8 → Bool))
    (allocator : Option (Allocator Memory)) : Container Hashset Op where
  create := create elemSize elemEq allocator
  call := call
  destroy := destroy
  Owns s o := Table.Owns s.1 s.2 o
  Allowed := Op.Allowed

/-- The set lies in the memory and owns these blocks. -/
def Kept (a : Allocator Memory) (s : Hashset × Memory) (o : List ℕ) : Prop :=
  ∃ rows, Lies s.1 s.2 rows ∧ s.1.allocator = a ∧ o = s.1.owned rows

/-- **The life of a set.** -/
theorem sound {elemSize : ℕ} {elemEq : Option (List UInt8 → List UInt8 → Bool)}
    {allocator : Option (Allocator Memory)} (hbacked : Backed (Allocator.copy allocator))
    (helem : 0 < elemSize) (w₀ : Memory) :
    (container elemSize elemEq allocator).Sound
      (Reclaims (Allocator.copy allocator)) w₀ (Kept (Allocator.copy allocator)) where
  owns := by
    rintro s o ⟨rows, h, -, rfl⟩
    exact h.table.owns
  nodup := by
    rintro s o ⟨rows, h, -, rfl⟩
    exact h.table.nodup
  create := by
    obtain ⟨st, out, w, hcreate, hres⟩ := create_spec elemEq hbacked helem w₀
    refine ⟨st, out, w, hcreate, ?_⟩
    rcases hres with hfail | ⟨rfl, s, rfl, hx, h, -, -, hallocator, -⟩
    · exact .inl hfail
    · exact .inr ⟨rfl, s, _, rfl, ⟨_, h, hallocator, rfl⟩, hx⟩
  call := by
    rintro ⟨s, w⟩ o c ⟨rows, h, hallocator, rfl⟩ hc
    apply (call_turn h hc).mono
    rintro ⟨s', w'⟩ ⟨rows', h', hchanged, -⟩
    exact ⟨_, ⟨rows', h', hchanged.allocator.trans hallocator, rfl⟩,
      hallocator ▸ hchanged.exchange⟩
  destroy := by
    rintro s o ⟨rows, h, hallocator, rfl⟩
    obtain ⟨w', hdestroy, hx⟩ := destroy_spec h
    exact ⟨w', hdestroy, hallocator ▸ hx⟩

section Runs

variable {elemSize : ℕ} {elemEq : Option (List UInt8 → List UInt8 → Bool)}
  {allocator : Option (Allocator Memory)}

theorem container_step {s : Hashset × Memory} {c : Op}
    (h : ∃ rows, Intact elemSize elemEq s rows) (hc : c.Allowed s) :
    Sat ((container elemSize elemEq allocator).step s c) fun p =>
      ∃ rows, Intact elemSize elemEq p.2 rows := by
  obtain ⟨rows, h⟩ := h
  exact (h.call hc).bind fun _ h' => Sat.ok h'

/-- **What a run leaves**, from a set that is intact. -/
theorem reached {s : Hashset × Memory} {rows : ℕ → List Entry}
    (h : Intact elemSize elemEq s rows) (calls : List Op)
    (halong : Along (container elemSize elemEq allocator).step Op.Allowed s calls) :
    Sat (trace (container elemSize elemEq allocator).step s calls) fun p =>
      ∃ rows', Intact elemSize elemEq p.2 rows' :=
  trace_inv (I := fun s => ∃ rows, Intact elemSize elemEq s rows)
    (fun _ _ h hc => container_step h hc) calls s ⟨rows, h⟩ halong

/-- A caller that passes bytes of its own may do so at any time. -/
theorem along_own {s : Hashset × Memory} {rows : ℕ → List Entry}
    (h : Intact elemSize elemEq s rows) (calls : List Op)
    (hown : ∀ c ∈ calls, c.own elemSize = true) :
    Along (container elemSize elemEq allocator).step Op.Allowed s calls := by
  refine along_of_inv (I := fun s => ∃ rows, Intact elemSize elemEq s rows)
    (fun s c hs hc => ?_) (fun _ _ h hc => container_step h hc) calls s ⟨rows, h⟩ hown
  obtain ⟨rows, h⟩ := hs
  rw [← h.table.keySize_eq] at hc
  exact Op.allowed_of_own hc

end Runs

end Hashset

end K4c
