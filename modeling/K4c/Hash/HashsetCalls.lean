import Mathlib.Tactic
import K4c.Hash.Hashset
import K4c.Hash.TableCalls

/-!
# What the hash set calls do

The calls of the set on the entries of its table, each of which is an element.

* `create_spec`, `reserve_spec`, `insert_spec`, `entryGet_spec`, `remove_spec`,
  `destroy_spec` — each call, on every allocator of the block memory and for whatever
  comparison of the elements.
* `Holds.reserve`, `Holds.insert`, `Holds.entryGet`, `Holds.remove` — the same where
  the comparison is an equivalence, and no two elements are equal.
-/

namespace K4c.Hashset

open Exec Bytes Blocks HashCommon
open scoped List

variable [Platform]

/-- The set lies in the memory, with these lists of entries. -/
structure Holds (s : Hashset) (w : Memory) (rows : ℕ → List Entry) : Prop where
  table : Table.Holds s s.keySize w rows
  entrySize : entrySize s.keySize = some (sizeofEntry + s.keySize)

/-- The set lies in the memory, for whatever comparison of its elements. -/
structure Lies (s : Hashset) (w : Memory) (rows : ℕ → List Entry) : Prop where
  table : Table.Lies s s.keySize w rows
  entrySize : entrySize s.keySize = some (sizeofEntry + s.keySize)

variable {s s' : Hashset} {w w' : Memory} {rows rows' : ℕ → List Entry} {elem : Arg}
  {n : ℕ} {x : List UInt8} {e : Entry}

/-- The set after a call. -/
theorem Lies.changed (h : Lies s w rows) (ht : Table.Lies s' s.keySize w' rows')
    (hchanged : Table.Changed s s' rows rows' w w') : Lies s' w' rows' := by
  rw [← hchanged.keySize] at ht
  exact ⟨ht, by rw [hchanged.keySize]; exact h.entrySize⟩

/-! ## Construction and destruction -/

/-- **Creating a set** fails with everything it allocated released, or gives an empty
set. -/
theorem create_spec {elemSize : ℕ} (elemEq : Option (List UInt8 → List UInt8 → Bool))
    {allocator : Option (Allocator Memory)} (hbacked : Backed (Allocator.copy allocator))
    (helem : 0 < elemSize) (w : Memory) :
    ∃ st out w', create elemSize elemEq allocator w = .ok ((st, out), w') ∧
      Creates (Reclaims (Allocator.copy allocator)) w (fun s => s.owned fun _ => [])
        (fun s w' => Lies s w' (fun _ => []) ∧ s.keySize = elemSize ∧ s.keyEq = elemEq ∧
          s.allocator = Allocator.copy allocator ∧ s.Loaded) st out w' := by
  rw [create, check_of helem, ok_bind]
  cases hsize : entrySize elemSize with
  | none => exact ⟨_, _, w, rfl, .inl ⟨by decide, rfl, .refl (by simp)⟩⟩
  | some size =>
    have hadd := add_of_sizeAddOverflow hsize
    subst hadd
    obtain ⟨st, out, w', hcreate, hres⟩ :=
      Table.create_spec (n := elemSize) hbacked helem le_rfl w
    refine ⟨st, out, w', hcreate, ?_⟩
    rcases hres with hfailed | ⟨rfl, t, rfl, hx, hholds, rfl, rfl, ha⟩
    · exact .inl hfailed
    · exact .inr ⟨rfl, t, rfl, hx, ⟨hholds, hsize⟩, rfl, rfl, ha⟩

/-- **Destroying a set** releases all its blocks. -/
theorem destroy_spec (h : Lies s w rows) :
    ∃ w', destroy s w = .ok w' ∧ Exchange (Reclaims s.allocator) (s.owned rows) [] w w' :=
  Table.destroy_spec h.table

/-! ## Calls -/

/-- **Reserving** keeps the entries, whether it fails or not. -/
theorem reserve_spec (h : Lies s w rows) (size : ℕ) :
    ∃ st s' w' rows', reserve s size w = .ok ((st, s'), w') ∧ Lies s' w' rows' ∧
      Table.Changed s s' rows rows' w w' ∧ s'.entries rows' ~ s.entries rows := by
  obtain ⟨st, s', w', rows', hreserve, ht, -, hperm, hchanged, -⟩ :=
    Table.reserve_spec h.table size
  exact ⟨st, s', w', rows', hreserve, h.changed ht hchanged, hchanged, hperm⟩

/-- **The copy into a new entry.** -/
theorem fill_spec {p : ℕ} (hle : s.keySize ≤ n) (helem : elem.Reads w' [p] s.keySize x) :
    Table.Fills s n x (fun entry w => w.memcpy (Table.entryKey entry) elem s.keySize)
      (fun _ => True) w' p := by
  intro link data hdata hcell
  have hx := helem.length
  obtain ⟨w₂, hcopy, hcells⟩ := Memory.memcpy_reach (d := Table.entryKey p) hcell rfl helem.source
    (by change 0 + _ ≤ _; omega) (helem.not_clash (List.mem_singleton_self p))
  refine ⟨_, w₂, hcopy, ?_, ?_, trivial, hcells⟩
  · rw [length_splice (by change 0 + _ ≤ _; omega), hdata]
  · rw [← hx]
    exact slice_splice_same (by change 0 + _ ≤ _; omega)

/-- **An insertion** fails and keeps the entries, or finds an element that it takes for
it and keeps them, or adds an entry.  It cannot fail where it finds one. -/
theorem insert_spec (h : Lies s w rows) (helem : elem.Reads w [s.self, s.buckets] s.keySize x) :
    ∃ st s' w' rows', insert s elem w = .ok ((st, s'), w') ∧ Lies s' w' rows' ∧
      Table.Changed s s' rows rows' w w' ∧
      ((st ≠ .ok ∧ (∀ e ∈ s.entries rows, s.found x e = false) ∧
          s'.entries rows' ~ s.entries rows) ∨
        (st = .ok ∧ (∃ e ∈ s.entries rows, s.found x e = true) ∧
          s'.entries rows' ~ s.entries rows) ∨
        (st = .ok ∧ (∀ e ∈ s.entries rows, s.found x e = false) ∧
          ∃ e', s'.entries rows' ~ e' :: s.entries rows ∧ e'.key s.keySize = x)) := by
  have hx := helem.length
  obtain ⟨node, hfind, hres⟩ := Table.find_spec h.table hx
  rw [insert, check_of helem.ne_null, ok_bind, helem.source, ok_bind]
  dsimp only
  rw [hfind, ok_bind]
  rcases hres with ⟨rfl, hmiss⟩ | ⟨hnode, e, he, rfl, hfound⟩
  · rw [if_neg (not_not.2 rfl), h.entrySize]
    obtain ⟨st, s', w', rows', hadd, ht, hchanged, hres⟩ :=
      Table.addEntry_spec h.table
        (fun entry w => w.memcpy (Table.entryKey entry) elem s.keySize) (fun _ => True)
        fun _ _ hreads => fill_spec le_rfl (hreads _ _ _ helem)
    refine ⟨st, s', w', rows', hadd, h.changed ht hchanged, hchanged, ?_⟩
    rcases hres with ⟨hst, hperm⟩ | ⟨rfl, e, hekey, -, hperm⟩
    · exact .inl ⟨hst, hmiss, hperm⟩
    · exact .inr (.inr ⟨rfl, hmiss, e, hperm, hekey⟩)
  · rw [if_pos hnode]
    exact ⟨.ok, s, w, rows, rfl, h, h.table.changed_same rfl,
      .inr (.inl ⟨rfl, ⟨e, he, hfound⟩, .refl _⟩)⟩

/-- **A search** finds an entry that it takes for the element, and its bytes are read
there. -/
theorem entryGet_spec (h : Lies s w rows) (helem : elem.Reads w [] s.keySize x) :
    ∃ node, s.entryGet elem w = .ok node ∧
      ((node = 0 ∧ ∀ e ∈ s.entries rows, s.found x e = false) ∨
        (node ≠ 0 ∧ ∃ e ∈ s.entries rows, s.found x e = true ∧ node = e.block ∧
          w.read node 0 s.keySize = .ok (e.key s.keySize))) := by
  obtain ⟨node, hfind, hres⟩ := Table.find_spec h.table helem.length
  have hget : s.entryGet elem w = .ok node := by
    rw [Table.entryGet, helem.source, ok_bind]
    exact hfind
  refine ⟨node, hget, ?_⟩
  rcases hres with hmiss | ⟨hnode, e, he, rfl, hfound⟩
  · exact .inl hmiss
  · exact .inr ⟨hnode, e, he, hfound, rfl, h.table.read_key he⟩

/-- **A removal** takes an entry out that is found for the element, if there is one. -/
theorem remove_spec (h : Lies s w rows) (helem : elem.Reads w [] s.keySize x) :
    ∃ s' w' rows', remove s elem w = .ok (s', w') ∧ Lies s' w' rows' ∧
      Table.Changed s s' rows rows' w w' ∧
      ((s'.entries rows' ~ s.entries rows ∧
          ∀ e ∈ s.entries rows, s.found x e = false) ∨
        ∃ e, s.found x e = true ∧ s.entries rows ~ e :: s'.entries rows') := by
  obtain ⟨s', w', rows', hremove, ht, hchanged, hres⟩ := Table.remove_spec h.table helem
  refine ⟨s', w', rows', ?_, h.changed ht hchanged, hchanged, hres⟩
  rw [remove, check_of helem.ne_null, ok_bind]
  exact hremove

/-! ## Distinct elements -/

theorem Holds.lies (h : Holds s w rows) : Lies s w rows := ⟨h.table.lies, h.entrySize⟩

namespace Holds

/-- **Reserving** keeps the entries, whether it fails or not. -/
theorem reserve (h : Holds s w rows) (size : ℕ) :
    ∃ st s' w' rows', Hashset.reserve s size w = .ok ((st, s'), w') ∧ Holds s' w' rows' ∧
      Table.Changed s s' rows rows' w w' ∧ s'.entries rows' ~ s.entries rows := by
  obtain ⟨st, s', w', rows', hreserve, h', hchanged, hperm⟩ := reserve_spec h.lies size
  exact ⟨st, s', w', rows', hreserve, ⟨h.table.kept h'.table hchanged hperm, h'.entrySize⟩,
    hchanged, hperm⟩

/-- **An insertion** fails and keeps the entries, or finds an equal element and keeps
them, or adds an entry.  It cannot fail where there is an equal element. -/
theorem insert (h : Holds s w rows) (helem : elem.Reads w [s.self, s.buckets] s.keySize x) :
    ∃ st s' w' rows', Hashset.insert s elem w = .ok ((st, s'), w') ∧ Holds s' w' rows' ∧
      Table.Changed s s' rows rows' w w' ∧
      ((st ≠ .ok ∧ (∀ e ∈ s.entries rows, s.equal (e.key s.keySize) x = false) ∧
          s'.entries rows' ~ s.entries rows) ∨
        (st = .ok ∧ (∃ e ∈ s.entries rows, s.equal (e.key s.keySize) x = true) ∧
          s'.entries rows' ~ s.entries rows) ∨
        (st = .ok ∧ (∀ e ∈ s.entries rows, s.equal (e.key s.keySize) x = false) ∧
          ∃ e', s'.entries rows' ~ e' :: s.entries rows ∧ e'.key s.keySize = x)) := by
  obtain ⟨st, s', w', rows', hinsert, h', hchanged, hres⟩ := insert_spec h.lies helem
  refine ⟨st, s', w', rows', hinsert, ?_⟩
  rcases hres with ⟨hst, hmiss, hperm⟩ | ⟨rfl, ⟨e, he, hfound⟩, hperm⟩ |
    ⟨rfl, hmiss, e', hnew, hekey⟩
  · exact ⟨⟨h.table.kept h'.table hchanged hperm, h'.entrySize⟩, hchanged,
      .inl ⟨hst, h.table.missed helem.length hmiss, hperm⟩⟩
  · exact ⟨⟨h.table.kept h'.table hchanged hperm, h'.entrySize⟩, hchanged,
      .inr (.inl ⟨rfl, ⟨e, he, Table.equal_of_found hfound⟩, hperm⟩)⟩
  · have hnone := h.table.missed helem.length hmiss
    exact ⟨⟨h.table.more h'.table hchanged hnew helem.length hekey hnone, h'.entrySize⟩, hchanged,
      .inr (.inr ⟨rfl, hnone, e', hnew, hekey⟩)⟩

/-- **A search** finds the entry of an equal element, and its bytes are read there. -/
theorem entryGet (h : Holds s w rows) (helem : elem.Reads w [] s.keySize x) :
    ∃ node, s.entryGet elem w = .ok node ∧
      ((node = 0 ∧ ∀ e ∈ s.entries rows, s.equal (e.key s.keySize) x = false) ∨
        (node ≠ 0 ∧ ∃ e ∈ s.entries rows, s.equal (e.key s.keySize) x = true ∧ node = e.block ∧
          w.read node 0 s.keySize = .ok (e.key s.keySize))) := by
  obtain ⟨node, hget, hres⟩ := entryGet_spec h.lies helem
  refine ⟨node, hget, ?_⟩
  rcases hres with ⟨hnode, hmiss⟩ | ⟨hnode, e, he, hfound, hblock, hread⟩
  · exact .inl ⟨hnode, h.table.missed helem.length hmiss⟩
  · exact .inr ⟨hnode, e, he, Table.equal_of_found hfound, hblock, hread⟩

/-- **A get** returns the place of an equal element. -/
theorem get (h : Holds s w rows) (helem : elem.Reads w [] s.keySize x) :
    ∃ p, Hashset.get s elem w = .ok p ∧
      ((p = none ∧ ∀ e ∈ s.entries rows, s.equal (e.key s.keySize) x = false) ∨
        ∃ e ∈ s.entries rows, s.equal (e.key s.keySize) x = true ∧
          p = some (Table.entryKey e.block)) := by
  obtain ⟨node, hget, hres⟩ := h.entryGet helem
  rw [Hashset.get, check_of helem.ne_null, ok_bind, hget, ok_bind]
  rcases hres with ⟨rfl, hmiss⟩ | ⟨hnode, e, he, hequal, rfl, -⟩
  · exact ⟨none, if_neg (not_not.2 rfl), .inl ⟨rfl, hmiss⟩⟩
  · exact ⟨_, if_pos hnode, .inr ⟨e, he, hequal, rfl⟩⟩

/-- What a get returns where an entry has an equal element. -/
theorem get_entry (h : Holds s w rows) (he : e ∈ s.entries rows)
    (helem : elem.Reads w [] s.keySize x) (hequal : s.equal (e.key s.keySize) x = true) :
    Hashset.get s elem w = .ok (some (Table.entryKey e.block)) := by
  obtain ⟨p, hget, hres⟩ := h.get helem
  rcases hres with ⟨-, hmiss⟩ | ⟨d, hd, hequal', rfl⟩
  · rw [hmiss e he] at hequal
    cases hequal
  · rw [hget, h.table.unique hd he helem.length hequal' hequal]

/-- A pointer that a get returns is the place of an element. -/
theorem entry_of_get {a : Ptr} (h : Holds s w rows) (helem : elem.Reads w [] s.keySize x)
    (hget : Hashset.get s elem w = .ok (some a)) :
    ∃ e ∈ s.entries rows, s.equal (e.key s.keySize) x = true ∧ a = Table.entryKey e.block := by
  obtain ⟨p, hp, hres⟩ := h.get helem
  cases hget.symm.trans hp
  rcases hres with ⟨hnone, -⟩ | ⟨e, he, hequal, ha⟩
  · cases hnone
  · exact ⟨e, he, hequal, Option.some.inj ha⟩

/-- **A removal** takes the entry of an equal element out, if there is one. -/
theorem remove (h : Holds s w rows) (helem : elem.Reads w [] s.keySize x) :
    ∃ s' w' rows', Hashset.remove s elem w = .ok (s', w') ∧ Holds s' w' rows' ∧
      Table.Changed s s' rows rows' w w' ∧
      ((s'.entries rows' ~ s.entries rows ∧
          ∀ e ∈ s.entries rows, s.equal (e.key s.keySize) x = false) ∨
        ∃ e, s.equal (e.key s.keySize) x = true ∧ s.entries rows ~ e :: s'.entries rows') := by
  obtain ⟨s', w', rows', hremove, h', hchanged, hres⟩ := remove_spec h.lies helem
  refine ⟨s', w', rows', hremove, ?_⟩
  rcases hres with ⟨hperm, hmiss⟩ | ⟨e, hfound, hperm⟩
  · exact ⟨⟨h.table.kept h'.table hchanged hperm, h'.entrySize⟩, hchanged,
      .inl ⟨hperm, h.table.missed helem.length hmiss⟩⟩
  · exact ⟨⟨h.table.less h'.table hchanged hperm, h'.entrySize⟩, hchanged,
      .inr ⟨e, Table.equal_of_found hfound, hperm⟩⟩

end Holds

end K4c.Hashset
