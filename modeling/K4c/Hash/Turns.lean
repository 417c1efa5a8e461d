import Mathlib.Tactic
import K4c.Hash.IteratorCalls
import K4c.Mem.Lifecycle

/-!
# What one call makes of a hash table

The calls of the two tables, and what any one of them does to the entries.  The
comparison of the keys can be anything.  What is looked for or put into a table can
lie anywhere, also in one of its entries; only a value may not overlap the place of the
value it replaces.

* `Table.Turn` — the entries are the same ones, or one came, one went, or one has other
  data behind its key.
* `Op`, `call` — the calls; what they answer is left out.  `Hashmap.Use` are the calls of
  a map with the stores of its caller through the pointers that `k4c_hashmap_get` returns.
* `call_turn`, `use_turn` — every call is a turn.
* `Table.Holds.turn` — no turn makes two keys equal.
* `Intact` — a table as every call leaves it.
-/

namespace K4c

open Exec Bytes Blocks Rows HashCommon
open scoped List

namespace Table

/-- What a call makes of the entries.  It may add an entry for a key of `puts` that is
not found, or give other data to one that is found for it, or take out one that is found
for a key of `removes`. -/
inductive Turn (t : Table) (puts removes : List UInt8 → Prop) (es es' : List Entry) : Prop
  | kept (hperm : es' ~ es)
  | added (k : List UInt8) (e : Entry) (hputs : puts k) (hk : k.length = t.keySize)
      (hmiss : ∀ d ∈ es, t.found k d = false) (hkey : e.key t.keySize = k) (hnew : es' ~ e :: es)
  | rewritten (k : List UInt8) (e e' : Entry) (rest : List Entry) (hputs : puts k)
      (hk : k.length = t.keySize) (hfound : t.found k e = true) (hold : es ~ e :: rest)
      (hnew : es' ~ e' :: rest) (hblock : e'.block = e.block)
      (hkey : e'.key t.keySize = e.key t.keySize)
  | removed (k : List UInt8) (e : Entry) (hremoves : removes k) (hk : k.length = t.keySize)
      (hfound : t.found k e = true) (hold : es ~ e :: es')

variable [Platform] {t t' : Table} {n n' : ℕ} {w w' : Memory} {rows rows' : ℕ → List Entry}
  {puts removes : List UInt8 → Prop}

/-- **A turn** makes no two keys equal, where equality is an equivalence that respects the
hashes. -/
theorem Holds.turn (h : Holds t n w rows) (h' : Lies t' n' w' rows')
    (hchanged : Changed t t' rows rows' w w')
    (hturn : Turn t puts removes (t.entries rows) (t'.entries rows')) : Holds t' n' w' rows' := by
  cases hturn with
  | kept hperm => exact h.kept h' hchanged hperm
  | added k e _ hk hmiss hkey hnew => exact h.more h' hchanged hnew hk hkey (h.missed hk hmiss)
  | rewritten k e e' rest _ _ _ hold hnew _ hkey => exact h.replaced h' hchanged hold hnew hkey
  | removed k e _ _ _ hold => exact h.less h' hchanged hold

/-- A table as every call leaves it, with keys of this size and this comparison. -/
structure Intact (keySize : ℕ) (keyEq : Option (List UInt8 → List UInt8 → Bool)) (t : Table)
    (n : ℕ) (w : Memory) (rows : ℕ → List Entry) : Prop where
  lies : Lies t n w rows
  loaded : t.Loaded
  keySize_eq : t.keySize = keySize
  keyEq_eq : t.keyEq = keyEq
  holds : KeyEquivalence keySize (fun x y => valueEq x y keyEq) → Holds t n w rows

theorem Intact.turn {keySize : ℕ} {keyEq : Option (List UInt8 → List UInt8 → Bool)}
    (h : Intact keySize keyEq t n w rows) (h' : Lies t' n' w' rows')
    (hchanged : Changed t t' rows rows' w w')
    (hturn : Turn t puts removes (t.entries rows) (t'.entries rows')) :
    Intact keySize keyEq t' n' w' rows' :=
  ⟨h', hchanged.loaded h.loaded, hchanged.keySize.trans h.keySize_eq,
    hchanged.keyEq.trans h.keyEq_eq, fun hequal => (h.holds hequal).turn h' hchanged hturn⟩

theorem Intact.equal_eq {keySize : ℕ} {keyEq : Option (List UInt8 → List UInt8 → Bool)}
    (h : Intact keySize keyEq t n w rows) : t.equal = fun x y => valueEq x y keyEq := by
  unfold Table.equal
  rw [h.keyEq_eq]

/-- A new table. -/
theorem Intact.new {keySize : ℕ} {keyEq : Option (List UInt8 → List UInt8 → Bool)}
    (h : Lies t n w fun _ => []) (hloaded : t.Loaded) (hkeySize : t.keySize = keySize)
    (hkeyEq : t.keyEq = keyEq) : Intact keySize keyEq t n w fun _ => [] := by
  refine ⟨h, hloaded, hkeySize, hkeyEq, fun hequal => h.holds ?_ ?_⟩
  · unfold Table.equal
    rw [hkeySize, hkeyEq]
    exact hequal
  · rw [entries, flat_empty]
    exact Apart.nil

end Table

variable [Platform]

/-! ## Maps -/

namespace Hashmap

/-- The calls of a map. -/
inductive Op where
  | put (key value : Arg)
  | get (key : Arg)
  | remove (key : Arg)
  | reserve (size : ℕ)
  | size
  /-- By entries, by keys or by values. -/
  | iterate
  | iterateKeys
  | iterateValues

/-- One call. -/
def call (s : Hashmap × Memory) : Op → Result (Hashmap × Memory)
  | .put key value => do
    let ((_, m), w) ← put s.1 key value s.2
    return (m, w)
  | .get key => do
    let _ ← get s.1 key s.2
    return s
  | .remove key => remove s.1 key s.2
  | .reserve size => do
    let ((_, m), w) ← reserve s.1 size s.2
    return (m, w)
  | .size => return s
  | .iterate => do
    let _ ← Iterator.items (iteratorNext s.1 s.2) (s.1.size + 1) (Table.getIterator s.1.toTable)
    return s
  | .iterateKeys => do
    let _ ← Iterator.items (keyIteratorNext s.1 s.2) (s.1.size + 1)
      (Table.getIterator s.1.toTable)
    return s
  | .iterateValues => do
    let _ ← Iterator.items (valueIteratorNext s.1 s.2) (s.1.size + 1)
      (Table.getIterator s.1.toTable)
    return s

/-- What is put can be read, in an entry of the map also, and the value is not copied over
a part of itself; a key that is looked for can be read. -/
def Op.Allowed (s : Hashmap × Memory) : Op → Prop
  | .put key value => ∃ k v, s.1.Takes s.2 key value k v
  | .get key => ∃ k, key.Reads s.2 [] s.1.keySize k
  | .remove key => ∃ k, key.Reads s.2 [] s.1.keySize k
  | _ => True

/-- What is passed are bytes of the caller, as many as the map takes. -/
def Op.own (keySize valueSize : ℕ) : Op → Bool
  | .put key value => key.own keySize && value.own valueSize
  | .get key => key.own keySize
  | .remove key => key.own keySize
  | _ => true

theorem Op.allowed_of_own {s : Hashmap × Memory} {c : Op}
    (hc : c.own s.1.keySize s.1.valueSize = true) : c.Allowed s := by
  cases c with
  | put key value =>
    rw [own, Bool.and_eq_true, Arg.own_iff, Arg.own_iff] at hc
    obtain ⟨⟨k, rfl, hk⟩, v, rfl, hv⟩ := hc
    exact ⟨k, v, .outside hk hv⟩
  | get key =>
    obtain ⟨k, rfl, hk⟩ := Arg.own_iff.1 hc
    exact ⟨k, .outside hk⟩
  | remove key =>
    obtain ⟨k, rfl, hk⟩ := Arg.own_iff.1 hc
    exact ⟨k, .outside hk⟩
  | reserve | size | iterate | iterateKeys | iterateValues => trivial

/-- The key that a call puts. -/
def Op.Puts (s : Hashmap × Memory) (k : List UInt8) : Op → Prop
  | .put key _ => s.2.source key s.1.keySize = .ok k
  | _ => False

/-- The key that a call removes. -/
def Op.Removes (s : Hashmap × Memory) (k : List UInt8) : Op → Prop
  | .remove key => s.2.source key s.1.keySize = .ok k
  | _ => False

variable {m m' : Hashmap} {w w' : Memory} {rows rows' : ℕ → List Entry}

/-- What a call does: it returns, and takes a turn. -/
def Turns (m : Hashmap) (w : Memory) (rows : ℕ → List Entry) (puts removes : List UInt8 → Prop)
    (s : Hashmap × Memory) : Prop :=
  ∃ rows', Lies s.1 s.2 rows' ∧ Changed m s.1 rows rows' w s.2 ∧
    m.Turn puts removes (m.entries rows) (s.1.entries rows')

/-- A call that only reads. -/
theorem Lies.read {α : Type} {x : Result α} {puts removes : List UInt8 → Prop}
    (h : Lies m w rows) (hx : Sat x fun _ => True) :
    Sat (x >>= fun _ => .ok (m, w)) (Turns m w rows puts removes) :=
  hx.bind fun _ _ => Sat.ok ⟨rows, h, ⟨h.table.changed_same rfl, rfl⟩, .kept (.refl _)⟩

/-- The iterators return all items, whatever is shown of an entry. -/
theorem Lies.iterates {ι : Type} (h : Lies m w rows) (f : ℕ → ι) :
    Sat (Iterator.items (fun state => m.nextEntry w state >>= fun r => .ok (r.1.map f, r.2))
      (m.size + 1) (Table.getIterator m.toTable)) fun _ => True := by
  refine ⟨_, Iterator.items_eq ((Table.nextEntry_yields h.table).map f) _ ?_, trivial⟩
  rw [List.length_map, List.length_map, h.table.size]
  exact Nat.lt_succ_self _

/-- **Every call** of a map is a turn, for whatever comparison of its keys. -/
theorem call_turn {c : Op} (h : Lies m w rows) (hc : Op.Allowed (m, w) c) :
    Sat (call (m, w) c)
      (Turns m w rows (fun k => c.Puts (m, w) k) fun k => c.Removes (m, w) k) := by
  cases c with
  | put key value =>
    obtain ⟨k, v, htakes⟩ := hc
    have hsource : w.source key m.keySize = .ok k := htakes.reads_key.source
    have hk := htakes.reads_key.length
    obtain ⟨st, m', w', rows', hput, h', hchanged, hres⟩ := put_spec h htakes
    refine ⟨(m', w'), by simp only [call, hput]; rfl, rows', h', hchanged, ?_⟩
    rcases hres with ⟨-, -, hperm⟩ | ⟨-, e, e', rest, hfound, hold, hnew, hblock, hkey, -⟩ |
      ⟨-, hmiss, e', hnew, hkey, -⟩
    · exact .kept hperm
    · exact .rewritten k e e' rest hsource hk hfound hold hnew hblock hkey
    · exact .added k e' hsource hk hmiss hkey hnew
  | get key =>
    obtain ⟨k, hkey⟩ := hc
    obtain ⟨p, hget, -⟩ := get_spec h hkey
    exact h.read ⟨p, hget, trivial⟩
  | remove key =>
    obtain ⟨k, hkey⟩ := hc
    obtain ⟨m', w', rows', hremove, h', hchanged, hres⟩ := remove_spec h hkey
    refine ⟨(m', w'), hremove, rows', h', hchanged, ?_⟩
    rcases hres with ⟨hperm, -⟩ | ⟨e, hfound, hold⟩
    · exact .kept hperm
    · exact .removed k e hkey.source hkey.length hfound hold
  | reserve size =>
    obtain ⟨st, m', w', rows', hreserve, h', hchanged, hperm⟩ := reserve_spec h size
    exact ⟨(m', w'), by simp only [call, hreserve]; rfl, rows', h', hchanged, .kept hperm⟩
  | size => exact h.read (Sat.ok (a := ()) trivial)
  | iterate =>
    exact h.read (h.iterates fun entry => EntryView.mk (Table.entryKey entry) (m.entryValue entry))
  | iterateKeys => exact h.read (h.iterates Table.entryKey)
  | iterateValues => exact h.read (h.iterates m.entryValue)

/-! ### Stores of the caller -/

/-- What a caller does with a map: it makes calls, and writes behind the pointer that
`k4c_hashmap_get` returns for a key. -/
inductive Use where
  | call (c : Op)
  | store (key : Arg) (offset : ℕ) (bytes : List UInt8)

/-- A store of the caller, when the key is there. -/
def store (m : Hashmap) (key : Arg) (offset : ℕ) (bytes : List UInt8) (w : Memory) :
    Result Memory := do
  let p ← m.get key w
  match p with
  | none => return w
  | some p => w.write p.block (p.offset + offset) bytes

/-- One call or store. -/
def use (s : Hashmap × Memory) : Use → Result (Hashmap × Memory)
  | .call c => call s c
  | .store key offset bytes => do
    let w ← s.1.store key offset bytes s.2
    return (s.1, w)

/-- A store stays in the value. -/
def Use.Allowed (s : Hashmap × Memory) : Use → Prop
  | .call c => c.Allowed s
  | .store key offset bytes =>
    (∃ k, key.Reads s.2 [] s.1.keySize k) ∧ offset + bytes.length ≤ s.1.valueSize

/-- What is passed are bytes of the caller, as many as the map takes. -/
def Use.own (keySize valueSize : ℕ) : Use → Bool
  | .call c => c.own keySize valueSize
  | .store key offset bytes => key.own keySize && decide (offset + bytes.length ≤ valueSize)

theorem Use.allowed_of_own {s : Hashmap × Memory} {u : Use}
    (hu : u.own s.1.keySize s.1.valueSize = true) : u.Allowed s := by
  cases u with
  | call c => exact Op.allowed_of_own hu
  | store key offset bytes =>
    rw [own, Bool.and_eq_true, Arg.own_iff, decide_eq_true_iff] at hu
    obtain ⟨⟨k, rfl, hk⟩, hle⟩ := hu
    exact ⟨⟨k, .outside hk⟩, hle⟩

/-- The key that is put, or whose value is stored to. -/
def Use.Puts (s : Hashmap × Memory) (k : List UInt8) : Use → Prop
  | .call c => c.Puts s k
  | .store key _ _ => s.2.source key s.1.keySize = .ok k

/-- The key that is removed. -/
def Use.Removes (s : Hashmap × Memory) (k : List UInt8) : Use → Prop
  | .call c => c.Removes s k
  | .store _ _ _ => False

/-- **A store** gives other data to the entry that is found, behind its key. -/
theorem store_spec {key : Arg} {k bytes : List UInt8} {offset : ℕ} (h : Lies m w rows)
    (hkey : key.Reads w [] m.keySize k) (hle : offset + bytes.length ≤ m.valueSize) :
    ∃ w' rows', m.store key offset bytes w = .ok w' ∧ Lies m w' rows' ∧
      Changed m m rows rows' w w' ∧
      (m.entries rows' ~ m.entries rows ∨ ∃ e e' rest, m.found k e = true ∧
        m.entries rows ~ e :: rest ∧ m.entries rows' ~ e' :: rest ∧ e'.block = e.block ∧
        e'.key m.keySize = e.key m.keySize) := by
  obtain ⟨p, hget, hres⟩ := get_spec h hkey
  rw [store, hget, ok_bind]
  rcases hres with ⟨rfl, -⟩ | ⟨e, he, hfound, rfl, -⟩
  · exact ⟨w, rows, rfl, h, ⟨h.table.changed_same rfl, rfl⟩, .inl (.refl _)⟩
  obtain ⟨next, hcell⟩ := h.table.arrayed.cell he
  have hdata := h.table.data e he
  have hend : valueOffset m.keySize + offset + bytes.length ≤ e.data.length := by
    rw [hdata, dataSize]
    omega
  obtain ⟨w', hwrite, hcells⟩ := Memory.write_reach hcell rfl hend
  have hkept : slice (splice e.data (valueOffset m.keySize + offset) bytes) 0 m.keySize =
      e.key m.keySize :=
    slice_splice_of_disjoint hend (.inl (by have := h.key_le; omega))
  obtain ⟨rows', rest, ht, hold, hnew, hchanged⟩ := Table.overwritten h.table he
    (by rw [length_splice hend, hdata]) (congrArg fnv1aHash hkept) hcell hcells
  exact ⟨w', rows', hwrite, h.withTable ht hchanged, ⟨hchanged, rfl⟩,
    .inr ⟨e, _, rest, hfound, hold, hnew, rfl, hkept⟩⟩

/-- **Every call and every store** is a turn. -/
theorem use_turn {u : Use} (h : Lies m w rows) (hu : Use.Allowed (m, w) u) :
    Sat (use (m, w) u)
      (Turns m w rows (fun k => u.Puts (m, w) k) fun k => u.Removes (m, w) k) := by
  cases u with
  | call c => exact call_turn h hu
  | store key offset bytes =>
    obtain ⟨⟨k, hkey⟩, hle⟩ := hu
    obtain ⟨w', rows', hstore, h', hchanged, hres⟩ := store_spec h hkey hle
    refine ⟨(m, w'), by rw [use, hstore]; rfl, rows', h', hchanged, ?_⟩
    rcases hres with hperm | ⟨e, e', rest, hfound, hold, hnew, hblock, hkept⟩
    · exact .kept hperm
    · exact .rewritten k e e' rest hkey.source hkey.length hfound hold hnew hblock hkept

/-- A map as every call and every store leaves it, with keys and values of these sizes. -/
structure Intact (keySize valueSize : ℕ) (keyEq : Option (List UInt8 → List UInt8 → Bool))
    (s : Hashmap × Memory) (rows : ℕ → List Entry) : Prop where
  table : s.1.toTable.Intact keySize keyEq s.1.dataSize s.2 rows
  entrySize : Hashmap.entrySize s.1.keySize s.1.valueSize = some (sizeofEntry + s.1.dataSize)
  valueSize_eq : s.1.valueSize = valueSize

theorem Intact.lies {keySize valueSize : ℕ} {keyEq : Option (List UInt8 → List UInt8 → Bool)}
    {s : Hashmap × Memory} (h : Intact keySize valueSize keyEq s rows) : Lies s.1 s.2 rows :=
  ⟨h.table.lies, h.entrySize⟩

theorem Intact.turn {keySize valueSize : ℕ} {keyEq : Option (List UInt8 → List UInt8 → Bool)}
    {s s' : Hashmap × Memory} {puts removes : List UInt8 → Prop}
    (h : Intact keySize valueSize keyEq s rows) (h' : Lies s'.1 s'.2 rows')
    (hchanged : Changed s.1 s'.1 rows rows' s.2 s'.2)
    (hturn : s.1.Turn puts removes (s.1.entries rows) (s'.1.entries rows')) :
    Intact keySize valueSize keyEq s' rows' :=
  ⟨h.table.turn h'.table hchanged.table hturn, h'.entrySize,
    hchanged.valueSize.trans h.valueSize_eq⟩

theorem Intact.use {keySize valueSize : ℕ} {keyEq : Option (List UInt8 → List UInt8 → Bool)}
    {s : Hashmap × Memory} {u : Use} (h : Intact keySize valueSize keyEq s rows)
    (hu : u.Allowed s) :
    Sat (Hashmap.use s u) fun s' => ∃ rows', Intact keySize valueSize keyEq s' rows' := by
  apply (use_turn h.lies hu).mono
  rintro s' ⟨rows', h', hchanged, hturn⟩
  exact ⟨rows', h.turn h' hchanged hturn⟩

theorem create_intact {keySize valueSize : ℕ} {keyEq : Option (List UInt8 → List UInt8 → Bool)}
    {allocator : Option (Allocator Memory)} (hbacked : Backed (Allocator.copy allocator))
    {w₀ : Memory}
    (hcreate : create keySize valueSize keyEq allocator w₀ = .ok ((.ok, some m), w)) :
    Intact keySize valueSize keyEq (m, w) fun _ => [] := by
  obtain ⟨_, hkey, hcreate'⟩ := bind_eq_ok.1 hcreate
  obtain ⟨_, hvalue, -⟩ := bind_eq_ok.1 hcreate'
  obtain ⟨st, out, w', hcreate'', hres⟩ := create_spec keyEq hbacked
    (check_eq_ok.1 hkey) (check_eq_ok.1 hvalue) w₀
  cases hcreate.symm.trans hcreate''
  rcases hres with ⟨hst, -⟩ | ⟨-, _, hout, -, h, hkeySize, hkeyEq, hvalueSize, -, hloaded⟩
  · exact absurd rfl hst
  cases hout
  exact ⟨.new h.table hloaded hkeySize hkeyEq, h.entrySize, hvalueSize⟩

end Hashmap

/-! ## Sets -/

namespace Hashset

/-- The calls of a set. -/
inductive Op where
  | insert (elem : Arg)
  | contains (elem : Arg)
  | get (elem : Arg)
  | remove (elem : Arg)
  | reserve (size : ℕ)
  | size
  | iterate

/-- One call. -/
def call (s : Hashset × Memory) : Op → Result (Hashset × Memory)
  | .insert elem => do
    let ((_, set), w) ← insert s.1 elem s.2
    return (set, w)
  | .contains elem => do
    let _ ← contains s.1 elem s.2
    return s
  | .get elem => do
    let _ ← get s.1 elem s.2
    return s
  | .remove elem => remove s.1 elem s.2
  | .reserve size => do
    let ((_, set), w) ← reserve s.1 size s.2
    return (set, w)
  | .size => return s
  | .iterate => do
    let _ ← Iterator.items (iteratorNext s.1 s.2) (s.1.size + 1) (Table.getIterator s.1)
    return s

/-- An element that is inserted or looked for can be read, in an entry of the set also. -/
def Op.Allowed (s : Hashset × Memory) : Op → Prop
  | .insert elem => ∃ x, elem.Reads s.2 [s.1.self, s.1.buckets] s.1.keySize x
  | .contains elem => ∃ x, elem.Reads s.2 [] s.1.keySize x
  | .get elem => ∃ x, elem.Reads s.2 [] s.1.keySize x
  | .remove elem => ∃ x, elem.Reads s.2 [] s.1.keySize x
  | _ => True

/-- What is passed are bytes of the caller, as many as an element has. -/
def Op.own (elemSize : ℕ) : Op → Bool
  | .insert elem => elem.own elemSize
  | .contains elem => elem.own elemSize
  | .get elem => elem.own elemSize
  | .remove elem => elem.own elemSize
  | _ => true

omit [Platform] in
theorem Op.allowed_of_own {s : Hashset × Memory} {c : Op} (hc : c.own s.1.keySize = true) :
    c.Allowed s := by
  cases c with
  | insert elem =>
    obtain ⟨x, rfl, hx⟩ := Arg.own_iff.1 hc
    exact ⟨x, .outside hx⟩
  | contains elem | get elem | remove elem =>
    obtain ⟨x, rfl, hx⟩ := Arg.own_iff.1 hc
    exact ⟨x, .outside hx⟩
  | reserve | size | iterate => trivial

/-- The element that a call inserts. -/
def Op.Puts (s : Hashset × Memory) (x : List UInt8) : Op → Prop
  | .insert elem => s.2.source elem s.1.keySize = .ok x
  | _ => False

/-- The element that a call removes. -/
def Op.Removes (s : Hashset × Memory) (x : List UInt8) : Op → Prop
  | .remove elem => s.2.source elem s.1.keySize = .ok x
  | _ => False

variable {s : Hashset} {w : Memory} {rows : ℕ → List Entry}

/-- What a call does: it returns, and takes a turn. -/
def Turns (s : Hashset) (w : Memory) (rows : ℕ → List Entry) (puts removes : List UInt8 → Prop)
    (r : Hashset × Memory) : Prop :=
  ∃ rows', Lies r.1 r.2 rows' ∧ Table.Changed s r.1 rows rows' w r.2 ∧
    s.Turn puts removes (s.entries rows) (r.1.entries rows')

/-- A call that only reads. -/
theorem Lies.read {α : Type} {x : Result α} {puts removes : List UInt8 → Prop}
    (h : Lies s w rows) (hx : Sat x fun _ => True) :
    Sat (x >>= fun _ => .ok (s, w)) (Turns s w rows puts removes) :=
  hx.bind fun _ _ => Sat.ok ⟨rows, h, h.table.changed_same rfl, .kept (.refl _)⟩

/-- **Every call** of a set is a turn, for whatever comparison of its elements. -/
theorem call_turn {c : Op} (h : Lies s w rows) (hc : Op.Allowed (s, w) c) :
    Sat (call (s, w) c)
      (Turns s w rows (fun x => c.Puts (s, w) x) fun x => c.Removes (s, w) x) := by
  cases c with
  | insert elem =>
    obtain ⟨x, helem⟩ := hc
    obtain ⟨st, s', w', rows', hinsert, h', hchanged, hres⟩ := insert_spec h helem
    refine ⟨(s', w'), by simp only [call, hinsert]; rfl, rows', h', hchanged, ?_⟩
    rcases hres with ⟨-, -, hperm⟩ | ⟨-, -, hperm⟩ | ⟨-, hmiss, e', hnew, hkey⟩
    · exact .kept hperm
    · exact .kept hperm
    · exact .added x e' helem.source helem.length hmiss hkey hnew
  | contains elem =>
    obtain ⟨x, helem⟩ := hc
    obtain ⟨node, hget, -⟩ := entryGet_spec h helem
    refine h.read ⟨decide (node ≠ 0), ?_, trivial⟩
    rw [contains, check_of helem.ne_null, ok_bind, hget]
    rfl
  | get elem =>
    obtain ⟨x, helem⟩ := hc
    obtain ⟨node, hget, -⟩ := entryGet_spec h helem
    apply h.read
    rw [get, check_of helem.ne_null, ok_bind, hget, ok_bind]
    split
    · exact Sat.ok trivial
    · exact Sat.ok trivial
  | remove elem =>
    obtain ⟨x, helem⟩ := hc
    obtain ⟨s', w', rows', hremove, h', hchanged, hres⟩ := remove_spec h helem
    refine ⟨(s', w'), hremove, rows', h', hchanged, ?_⟩
    rcases hres with ⟨hperm, -⟩ | ⟨e, hfound, hold⟩
    · exact .kept hperm
    · exact .removed x e helem.source helem.length hfound hold
  | reserve size =>
    obtain ⟨st, s', w', rows', hreserve, h', hchanged, hperm⟩ := reserve_spec h size
    exact ⟨(s', w'), by simp only [call, hreserve]; rfl, rows', h', hchanged, .kept hperm⟩
  | size => exact h.read (Sat.ok (a := ()) trivial)
  | iterate =>
    refine h.read ⟨_, Iterator.items_eq ((Table.nextEntry_yields h.table).map Table.entryKey) _ ?_,
      trivial⟩
    rw [List.length_map, List.length_map, h.table.size]
    exact Nat.lt_succ_self _

/-- A set as every call leaves it, with elements of this size. -/
structure Intact (elemSize : ℕ) (elemEq : Option (List UInt8 → List UInt8 → Bool))
    (s : Hashset × Memory) (rows : ℕ → List Entry) : Prop where
  table : Table.Intact elemSize elemEq s.1 s.1.keySize s.2 rows
  entrySize : Hashset.entrySize s.1.keySize = some (sizeofEntry + s.1.keySize)

theorem Intact.lies {elemSize : ℕ} {elemEq : Option (List UInt8 → List UInt8 → Bool)}
    {s : Hashset × Memory} (h : Intact elemSize elemEq s rows) : Lies s.1 s.2 rows :=
  ⟨h.table.lies, h.entrySize⟩

theorem Intact.turn {elemSize : ℕ} {elemEq : Option (List UInt8 → List UInt8 → Bool)}
    {s s' : Hashset × Memory} {rows' : ℕ → List Entry} {puts removes : List UInt8 → Prop}
    (h : Intact elemSize elemEq s rows) (h' : Lies s'.1 s'.2 rows')
    (hchanged : Table.Changed s.1 s'.1 rows rows' s.2 s'.2)
    (hturn : s.1.Turn puts removes (s.1.entries rows) (s'.1.entries rows')) :
    Intact elemSize elemEq s' rows' :=
  ⟨h.table.turn h'.table hchanged hturn, h'.entrySize⟩

theorem Intact.call {elemSize : ℕ} {elemEq : Option (List UInt8 → List UInt8 → Bool)}
    {s : Hashset × Memory} {c : Op} (h : Intact elemSize elemEq s rows) (hc : c.Allowed s) :
    Sat (Hashset.call s c) fun s' => ∃ rows', Intact elemSize elemEq s' rows' := by
  apply (call_turn h.lies hc).mono
  rintro s' ⟨rows', h', hchanged, hturn⟩
  exact ⟨rows', h.turn h' hchanged hturn⟩

theorem create_intact {elemSize : ℕ} {elemEq : Option (List UInt8 → List UInt8 → Bool)}
    {allocator : Option (Allocator Memory)} (hbacked : Backed (Allocator.copy allocator))
    {w₀ : Memory} (hcreate : create elemSize elemEq allocator w₀ = .ok ((.ok, some s), w)) :
    Intact elemSize elemEq (s, w) fun _ => [] := by
  obtain ⟨_, helem, -⟩ := bind_eq_ok.1 hcreate
  obtain ⟨st, out, w', hcreate', hres⟩ := create_spec elemEq hbacked (check_eq_ok.1 helem) w₀
  cases hcreate.symm.trans hcreate'
  rcases hres with ⟨hst, -⟩ | ⟨-, _, hout, -, h, hkeySize, hkeyEq, -, hloaded⟩
  · exact absurd rfl hst
  cases hout
  exact ⟨.new h.table hloaded hkeySize hkeyEq, h.entrySize⟩

end Hashset

end K4c
