import Mathlib.Tactic
import K4c.Hash.Hashmap
import K4c.Hash.TableCalls

/-!
# What the hash map calls do

The calls of the map on the entries of its table: a key and, behind it at the next
multiple of the alignment, a value.

* `entrySize_eq_some` — the layout of an entry.
* `create_spec`, `reserve_spec`, `put_spec`, `get_spec`, `remove_spec`,
  `destroy_spec` — each call, on every allocator of the block memory and for whatever
  comparison of the keys.
* `Holds.reserve`, `Holds.put`, `Holds.get`, `Holds.remove` — the same where the
  comparison is an equivalence, and no two keys are equal.
-/

namespace K4c.Hashmap

open Exec Bytes Blocks HashCommon
open scoped List

variable [Platform]

/-! ## Layout -/

/-- Where the value of an entry starts. -/
def valueOffset (keySize : ℕ) : ℕ := alignUp keySize memoryAlign

/-- The number of bytes an entry has behind its header. -/
def dataSize (m : Hashmap) : ℕ := valueOffset m.keySize + m.valueSize

/-- **The layout of an entry**, where its size is a `size_t`: the value is behind
the key. -/
theorem entrySize_eq_some {keySize valueSize size : ℕ}
    (h : entrySize keySize valueSize = some size) :
    size = sizeofEntry + (valueOffset keySize + valueSize) ∧ keySize ≤ valueOffset keySize := by
  obtain ⟨offset, halign, h⟩ := Option.bind_eq_some_iff.1 h
  obtain ⟨payload, hpayload, h⟩ := Option.bind_eq_some_iff.1 h
  rw [valueOffset, alignUp_eq halign, add_of_sizeAddOverflow hpayload, add_of_sizeAddOverflow h]
  exact ⟨rfl, (alignUpOverflow_eq_some halign).2.1⟩

/-! ## Maps in memory -/

/-- The value of an entry. -/
def valueOf (m : Hashmap) (e : Entry) : List UInt8 :=
  slice e.data (valueOffset m.keySize) m.valueSize

/-- The map lies in the memory, with these lists of entries. -/
structure Holds (m : Hashmap) (w : Memory) (rows : ℕ → List Entry) : Prop where
  table : Table.Holds m.toTable m.dataSize w rows
  entrySize : entrySize m.keySize m.valueSize = some (sizeofEntry + m.dataSize)

/-- The map lies in the memory, for whatever comparison of its keys. -/
structure Lies (m : Hashmap) (w : Memory) (rows : ℕ → List Entry) : Prop where
  table : Table.Lies m.toTable m.dataSize w rows
  entrySize : entrySize m.keySize m.valueSize = some (sizeofEntry + m.dataSize)

/-- What a call keeps of the record, and what it does to the blocks. -/
structure Changed (m m' : Hashmap) (rows rows' : ℕ → List Entry) (w w' : Memory) : Prop where
  table : Table.Changed m.toTable m'.toTable rows rows' w w'
  valueSize : m'.valueSize = m.valueSize

variable {m m' : Hashmap} {w w' : Memory} {rows rows' : ℕ → List Entry} {key value : Arg}
  {k v : List UInt8} {e : Entry}

/-- A map whose table was replaced. -/
theorem Lies.withTable {t : Table} (h : Lies m w rows) (ht : Table.Lies t m.dataSize w' rows')
    (hchanged : Table.Changed m.toTable t rows rows' w w') :
    Lies { m with toTable := t } w' rows' := by
  have hsize : dataSize { m with toTable := t } = m.dataSize := by
    change valueOffset t.keySize + m.valueSize = _
    rw [hchanged.keySize]
    rfl
  refine ⟨by rw [hsize]; exact ht, ?_⟩
  rw [hsize]
  change Hashmap.entrySize t.keySize m.valueSize = _
  rw [hchanged.keySize]
  exact h.entrySize

/-- The value of an entry can be read. -/
theorem Lies.read_value (h : Lies m w rows) (he : e ∈ m.entries rows) :
    w.read e.block (valueOffset m.keySize) m.valueSize = .ok (m.valueOf e) :=
  h.table.read he le_rfl

theorem Lies.key_le (h : Lies m w rows) : m.keySize ≤ valueOffset m.keySize :=
  (entrySize_eq_some h.entrySize).2

/-! ## Construction and destruction -/

/-- **Creating a map** fails with everything it allocated released, or gives a map
without entries. -/
theorem create_spec {keySize valueSize : ℕ} (keyEq : Option (List UInt8 → List UInt8 → Bool))
    {allocator : Option (Allocator Memory)} (hbacked : Backed (Allocator.copy allocator))
    (hkey : 0 < keySize) (hvalue : 0 < valueSize) (w : Memory) :
    ∃ st out w', create keySize valueSize keyEq allocator w = .ok ((st, out), w') ∧
      Creates (Reclaims (Allocator.copy allocator)) w (fun m => m.owned fun _ => [])
        (fun m w' => Lies m w' (fun _ => []) ∧ m.keySize = keySize ∧ m.keyEq = keyEq ∧
          m.valueSize = valueSize ∧ m.allocator = Allocator.copy allocator ∧ m.Loaded)
        st out w' := by
  rw [create, check_of hkey, ok_bind, check_of hvalue, ok_bind]
  cases hsize : entrySize keySize valueSize with
  | none => exact ⟨_, _, w, rfl, .inl ⟨by decide, rfl, .refl (by simp)⟩⟩
  | some size =>
    obtain ⟨rfl, hle⟩ := entrySize_eq_some hsize
    obtain ⟨st, out, w', hcreate, hres⟩ :=
      Table.create_spec (n := valueOffset keySize + valueSize) hbacked hkey (by omega) w
    dsimp only
    rw [hcreate]
    refine ⟨_, _, _, rfl, ?_⟩
    rcases hres with ⟨hst, rfl, hx⟩ | ⟨rfl, t, rfl, hx, hholds, rfl, rfl, ha⟩
    · exact .inl ⟨hst, rfl, hx⟩
    · exact .inr ⟨rfl, _, rfl, hx, ⟨hholds, hsize⟩, rfl, rfl, rfl, ha.1, ha.2.power, ha.2.load⟩

/-- **Destroying a map** releases all its blocks. -/
theorem destroy_spec (h : Lies m w rows) :
    ∃ w', destroy m w = .ok w' ∧ Exchange (Reclaims m.allocator) (m.owned rows) [] w w' :=
  Table.destroy_spec h.table

/-! ## Calls -/

/-- **Reserving** keeps the entries, whether it fails or not. -/
theorem reserve_spec (h : Lies m w rows) (size : ℕ) :
    ∃ st m' w' rows', reserve m size w = .ok ((st, m'), w') ∧ Lies m' w' rows' ∧
      Changed m m' rows rows' w w' ∧ m'.entries rows' ~ m.entries rows := by
  obtain ⟨st, t, w', rows', hreserve, ht, -, hperm, hchanged, -⟩ :=
    Table.reserve_spec h.table size
  exact ⟨st, { m with toTable := t }, w', rows', by rw [reserve, hreserve]; rfl,
    h.withTable ht hchanged, ⟨hchanged, rfl⟩, hperm⟩

/-- A copy of a value into the data of an entry. -/
theorem value_written {data : List UInt8} (h : Lies m w rows) (hdata : data.length = m.dataSize)
    (hv : v.length = m.valueSize) :
    (splice data (valueOffset m.keySize) v).length = m.dataSize ∧
      slice (splice data (valueOffset m.keySize) v) 0 m.keySize = slice data 0 m.keySize ∧
      slice (splice data (valueOffset m.keySize) v) (valueOffset m.keySize) m.valueSize = v := by
  have hend : valueOffset m.keySize + v.length ≤ data.length := by
    rw [hdata, hv]
    exact le_rfl
  refine ⟨by rw [length_splice hend, hdata], ?_, ?_⟩
  · exact slice_splice_of_disjoint hend (.inl (by have := h.key_le; omega))
  · rw [← hv]
    exact slice_splice_same hend

/-- What a put copies can be read, in an entry of the map also; the value is not copied
over a part of itself. -/
structure Takes (m : Hashmap) (w : Memory) (key value : Arg) (k v : List UInt8) : Prop where
  reads_key : key.Reads w [m.self, m.buckets] m.keySize k
  reads_value : value.Reads w [m.self, m.buckets] m.valueSize v
  apart : ∀ node, m.entryGet key w = .ok node →
    ¬ Memory.Clash (m.entryValue node) value m.valueSize

theorem Takes.outside (hk : k.length = m.keySize) (hv : v.length = m.valueSize) :
    m.Takes w (.outside k) (.outside v) k v :=
  ⟨.outside hk, .outside hv, fun _ _ => id⟩

/-- **The copies into a new entry.** -/
theorem fill_spec (h : Lies m w rows) {p : ℕ} (hkey : key.Reads w' [p] m.keySize k)
    (hvalue : value.Reads w' [p] m.valueSize v) :
    Table.Fills m.toTable m.dataSize k (m.fill key value)
      (fun data => slice data (valueOffset m.keySize) m.valueSize = v) w' p := by
  intro link data hdata hcell
  have hk := hkey.length
  have hle := h.table.key_le
  obtain ⟨w₂, hcopy₂, hcells₂⟩ := Memory.memcpy_reach (d := Table.entryKey p) hcell rfl
    hkey.source (by change 0 + _ ≤ _; omega) (hkey.not_clash (List.mem_singleton_self p))
  have hcell₂ : w₂.cells p =
      some ⟨sizeofEntry + m.dataSize, .entry link (fnv1aHash k) (splice data 0 k)⟩ := by
    rw [hcells₂]
    exact Function.update_self ..
  have hvalue₂ : value.Reads w₂ [p] m.valueSize v := hvalue.frame fun q c hc hq => by
    have hne : q ≠ p := by simpa using hq
    exact ⟨by rw [hcells₂]; exact (Function.update_of_ne hne ..).trans hc, hq⟩
  have hlen₂ : (splice data 0 k).length = m.dataSize := by
    rw [length_splice (by omega), hdata]
  obtain ⟨hlen₃, hkey₃, hvalue₃⟩ := value_written h hlen₂ hvalue.length
  obtain ⟨w₃, hcopy₃, hcells₃⟩ := Memory.memcpy_reach (d := m.entryValue p) hcell₂ rfl
    hvalue₂.source (by
      change valueOffset m.keySize + _ ≤ _
      rw [hlen₂, hvalue.length]
      exact le_rfl) (hvalue₂.not_clash (List.mem_singleton_self p))
  refine ⟨_, w₃, by rw [fill, hcopy₂, ok_bind, hcopy₃], hlen₃, ?_, hvalue₃, ?_⟩
  · rw [hkey₃, ← hk]
    exact slice_splice_same (by omega)
  · rw [hcells₃, hcells₂]
    exact Function.update_idem ..

/-- **A put** fails and keeps the entries, which it can do only where none is found for the
key, or changes the value of an entry that is found, or adds an entry where none is. -/
theorem put_spec (h : Lies m w rows) (htakes : m.Takes w key value k v) :
    ∃ st m' w' rows', put m key value w = .ok ((st, m'), w') ∧ Lies m' w' rows' ∧
      Changed m m' rows rows' w w' ∧
      ((st ≠ .ok ∧ (∀ e ∈ m.entries rows, m.found k e = false) ∧
          m'.entries rows' ~ m.entries rows) ∨
        (st = .ok ∧ ∃ e e' rest, m.found k e = true ∧ m.entries rows ~ e :: rest ∧
          m'.entries rows' ~ e' :: rest ∧ e'.block = e.block ∧
          e'.key m.keySize = e.key m.keySize ∧ m.valueOf e' = v) ∨
        (st = .ok ∧ (∀ e ∈ m.entries rows, m.found k e = false) ∧
          ∃ e', m'.entries rows' ~ e' :: m.entries rows ∧ e'.key m.keySize = k ∧
            m.valueOf e' = v)) := by
  obtain ⟨hkey, hvalue, hclash⟩ := htakes
  obtain ⟨node, hfind, hres⟩ := Table.find_spec h.table hkey.length
  have hget : m.entryGet key w = .ok node := by
    rw [Table.entryGet, hkey.source, ok_bind]
    exact hfind
  rw [put, check_of hkey.ne_null, ok_bind, check_of hvalue.ne_null, ok_bind, hkey.source, ok_bind]
  dsimp only
  rw [hfind, ok_bind]
  rcases hres with ⟨rfl, hmiss⟩ | ⟨hnode, e, he, rfl, hfound⟩
  · -- no entry is found
    rw [if_neg (not_not.2 rfl), h.entrySize]
    obtain ⟨st, t, w', rows', hadd, ht, hchanged, hres⟩ :=
      Table.addEntry_spec h.table (m.fill key value)
        (fun data => slice data (valueOffset m.keySize) m.valueSize = v)
        fun _ _ hreads => fill_spec h (hreads _ _ _ hkey) (hreads _ _ _ hvalue)
    rw [hadd]
    refine ⟨st, { m with toTable := t }, w', rows', rfl, h.withTable ht hchanged, ⟨hchanged, rfl⟩,
      ?_⟩
    rcases hres with ⟨hst, hperm⟩ | ⟨rfl, e, hekey, hevalue, hperm⟩
    · exact .inl ⟨hst, hmiss, hperm⟩
    · exact .inr (.inr ⟨rfl, hmiss, e, hperm, hekey, hevalue⟩)
  · -- the entry gets another value
    rw [if_pos hnode]
    obtain ⟨next, hcell⟩ := h.table.arrayed.cell he
    have hdata := h.table.data e he
    obtain ⟨hlen', hkey', hvalue'⟩ := value_written h hdata hvalue.length
    obtain ⟨w', hcopy, hcells⟩ := Memory.memcpy_reach (d := m.entryValue e.block) hcell rfl
      hvalue.source (by
        change valueOffset m.keySize + _ ≤ _
        rw [hdata, hvalue.length]
        exact le_rfl) (hclash _ hget)
    obtain ⟨rows', rest, ht, hsplit, hperm, hchanged⟩ :=
      Table.overwritten h.table he hlen' (congrArg fnv1aHash hkey') hcell hcells
    rw [hcopy, ok_bind]
    exact ⟨.ok, m, w', rows', rfl, h.withTable ht hchanged, ⟨hchanged, rfl⟩,
      .inr (.inl ⟨rfl, e, _, rest, hfound, hsplit, hperm, rfl, hkey', hvalue'⟩)⟩

/-- **A get** returns the place of the value of an entry that is found for the key. -/
theorem get_spec (h : Lies m w rows) (hkey : key.Reads w [] m.keySize k) :
    ∃ p, get m key w = .ok p ∧
      ((p = none ∧ ∀ e ∈ m.entries rows, m.found k e = false) ∨
        ∃ e ∈ m.entries rows, m.found k e = true ∧ p = some (m.entryValue e.block) ∧
          w.read e.block (valueOffset m.keySize) m.valueSize = .ok (m.valueOf e)) := by
  obtain ⟨node, hfind, hres⟩ := Table.find_spec h.table hkey.length
  have hget : m.entryGet key w = .ok node := by
    rw [Table.entryGet, hkey.source, ok_bind]
    exact hfind
  rw [get, check_of hkey.ne_null, ok_bind, hget, ok_bind]
  rcases hres with ⟨rfl, hmiss⟩ | ⟨hnode, e, he, rfl, hfound⟩
  · exact ⟨none, if_neg (not_not.2 rfl), .inl ⟨rfl, hmiss⟩⟩
  · exact ⟨_, if_pos hnode, .inr ⟨e, he, hfound, rfl, h.read_value he⟩⟩

/-- **A removal** takes an entry out that is found for the key, if there is one. -/
theorem remove_spec (h : Lies m w rows) (hkey : key.Reads w [] m.keySize k) :
    ∃ m' w' rows', remove m key w = .ok (m', w') ∧ Lies m' w' rows' ∧
      Changed m m' rows rows' w w' ∧
      ((m'.entries rows' ~ m.entries rows ∧ ∀ e ∈ m.entries rows, m.found k e = false) ∨
        ∃ e, m.found k e = true ∧ m.entries rows ~ e :: m'.entries rows') := by
  obtain ⟨t, w', rows', hremove, ht, hchanged, hres⟩ := Table.remove_spec h.table hkey
  refine ⟨{ m with toTable := t }, w', rows', ?_, h.withTable ht hchanged, ⟨hchanged, rfl⟩, hres⟩
  rw [remove, check_of hkey.ne_null, ok_bind, hremove]
  rfl

/-! ## Distinct keys -/

theorem Holds.lies (h : Holds m w rows) : Lies m w rows := ⟨h.table.lies, h.entrySize⟩

namespace Holds

/-- **Reserving** keeps the entries, whether it fails or not. -/
theorem reserve (h : Holds m w rows) (size : ℕ) :
    ∃ st m' w' rows', Hashmap.reserve m size w = .ok ((st, m'), w') ∧ Holds m' w' rows' ∧
      Changed m m' rows rows' w w' ∧ m'.entries rows' ~ m.entries rows := by
  obtain ⟨st, m', w', rows', hreserve, h', hchanged, hperm⟩ := reserve_spec h.lies size
  exact ⟨st, m', w', rows', hreserve, ⟨h.table.kept h'.table hchanged.table hperm, h'.entrySize⟩,
    hchanged, hperm⟩

/-- **A put** fails and keeps the entries, which it can do only where no key is equal, or
changes the value of the entry with an equal key, or adds an entry where there is none. -/
theorem put (h : Holds m w rows) (htakes : m.Takes w key value k v) :
    ∃ st m' w' rows', Hashmap.put m key value w = .ok ((st, m'), w') ∧ Holds m' w' rows' ∧
      Changed m m' rows rows' w w' ∧
      ((st ≠ .ok ∧ (∀ e ∈ m.entries rows, m.equal (e.key m.keySize) k = false) ∧
          m'.entries rows' ~ m.entries rows) ∨
        (st = .ok ∧ ∃ e e' rest, m.equal (e.key m.keySize) k = true ∧
          m.entries rows ~ e :: rest ∧ m'.entries rows' ~ e' :: rest ∧ e'.block = e.block ∧
          e'.key m.keySize = e.key m.keySize ∧ m.valueOf e' = v) ∨
        (st = .ok ∧ (∀ e ∈ m.entries rows, m.equal (e.key m.keySize) k = false) ∧
          ∃ e', m'.entries rows' ~ e' :: m.entries rows ∧ e'.key m.keySize = k ∧
            m.valueOf e' = v)) := by
  obtain ⟨st, m', w', rows', hput, h', hchanged, hres⟩ := put_spec h.lies htakes
  have hkey := htakes.reads_key
  refine ⟨st, m', w', rows', hput, ?_⟩
  rcases hres with ⟨hst, hmiss, hperm⟩ |
    ⟨rfl, e, e', rest, hfound, hold, hnew, hblock, hkept, hvalue'⟩ |
    ⟨rfl, hmiss, e', hnew, hekey, hvalue'⟩
  · exact ⟨⟨h.table.kept h'.table hchanged.table hperm, h'.entrySize⟩, hchanged,
      .inl ⟨hst, h.table.missed hkey.length hmiss, hperm⟩⟩
  · exact ⟨⟨h.table.replaced h'.table hchanged.table hold hnew hkept, h'.entrySize⟩, hchanged,
      .inr (.inl ⟨rfl, e, e', rest, Table.equal_of_found hfound, hold, hnew, hblock, hkept,
        hvalue'⟩)⟩
  · have hnone := h.table.missed hkey.length hmiss
    exact ⟨⟨h.table.more h'.table hchanged.table hnew hkey.length hekey hnone, h'.entrySize⟩,
      hchanged, .inr (.inr ⟨rfl, hnone, e', hnew, hekey, hvalue'⟩)⟩

/-- **A get** returns the place of the value of the entry with an equal key. -/
theorem get (h : Holds m w rows) (hkey : key.Reads w [] m.keySize k) :
    ∃ p, Hashmap.get m key w = .ok p ∧
      ((p = none ∧ ∀ e ∈ m.entries rows, m.equal (e.key m.keySize) k = false) ∨
        ∃ e ∈ m.entries rows, m.equal (e.key m.keySize) k = true ∧
          p = some (m.entryValue e.block) ∧
          w.read e.block (valueOffset m.keySize) m.valueSize = .ok (m.valueOf e)) := by
  obtain ⟨p, hget, hres⟩ := get_spec h.lies hkey
  refine ⟨p, hget, ?_⟩
  rcases hres with ⟨rfl, hmiss⟩ | ⟨e, he, hfound, rfl, hread⟩
  · exact .inl ⟨rfl, h.table.missed hkey.length hmiss⟩
  · exact .inr ⟨e, he, Table.equal_of_found hfound, rfl, hread⟩

/-- What a get returns where an entry has an equal key. -/
theorem get_entry (h : Holds m w rows) (he : e ∈ m.entries rows)
    (hkey : key.Reads w [] m.keySize k) (hequal : m.equal (e.key m.keySize) k = true) :
    Hashmap.get m key w = .ok (some (m.entryValue e.block)) := by
  obtain ⟨p, hget, hres⟩ := h.get hkey
  rcases hres with ⟨-, hmiss⟩ | ⟨d, hd, hequal', rfl, -⟩
  · rw [hmiss e he] at hequal
    cases hequal
  · rw [hget, h.table.unique hd he hkey.length hequal' hequal]

/-- A pointer that a get returns is the place of a value. -/
theorem entry_of_get {a : Ptr} (h : Holds m w rows) (hkey : key.Reads w [] m.keySize k)
    (hget : Hashmap.get m key w = .ok (some a)) :
    ∃ e ∈ m.entries rows, m.equal (e.key m.keySize) k = true ∧ a = m.entryValue e.block := by
  obtain ⟨p, hp, hres⟩ := h.get hkey
  cases hget.symm.trans hp
  rcases hres with ⟨hnone, -⟩ | ⟨e, he, hequal, ha, -⟩
  · cases hnone
  · exact ⟨e, he, hequal, Option.some.inj ha⟩

/-- **A removal** takes the entry with an equal key out, if there is one. -/
theorem remove (h : Holds m w rows) (hkey : key.Reads w [] m.keySize k) :
    ∃ m' w' rows', Hashmap.remove m key w = .ok (m', w') ∧ Holds m' w' rows' ∧
      Changed m m' rows rows' w w' ∧
      ((m'.entries rows' ~ m.entries rows ∧
          ∀ e ∈ m.entries rows, m.equal (e.key m.keySize) k = false) ∨
        ∃ e, m.equal (e.key m.keySize) k = true ∧ m.entries rows ~ e :: m'.entries rows') := by
  obtain ⟨m', w', rows', hremove, h', hchanged, hres⟩ := remove_spec h.lies hkey
  refine ⟨m', w', rows', hremove, ?_⟩
  rcases hres with ⟨hperm, hmiss⟩ | ⟨e, hfound, hperm⟩
  · exact ⟨⟨h.table.kept h'.table hchanged.table hperm, h'.entrySize⟩, hchanged,
      .inl ⟨hperm, h.table.missed hkey.length hmiss⟩⟩
  · exact ⟨⟨h.table.less h'.table hchanged.table hperm, h'.entrySize⟩, hchanged,
      .inr ⟨e, Table.equal_of_found hfound, hperm⟩⟩

end Holds

end K4c.Hashmap
