import Mathlib.Tactic
import K4c.Hash.Lifetimes
import K4c.Hash.Refusals

/-!
# What the hash tables ask of the memory

Which blocks a call requests and releases, from the log of the memory.  A call that has
no reason to grow the table makes one request at most, for the block of an entry.

* `Steady` — a call has kept the bucket array, and its traffic was about entries.
* `addEntry_steady`, `remove_steady` — adding an entry where there is room, and removing
  one.
* `Within` — a call that has no reason to grow the table; `use_steady`, `call_steady` —
  what it asks for.
-/

namespace K4c

open Exec Blocks HashCommon
open scoped List

/-! ## Calls on a table -/

namespace Table

/-- An entry of the table lies in the block. -/
def HasEntry [Platform] (t : Table) (w : Memory) (p : ℕ) : Prop :=
  ∃ n es, t.Stored n w es ∧ p ∈ es.map Entry.block

/-- The bucket array was kept.  The memory was asked for one block at most, which is that
of an entry when it was granted, and at most the block of an entry was released. -/
structure Steady [Platform] (t t' : Table) (w w' : Memory) : Prop where
  buckets : t'.buckets = t.buckets
  capacity : t'.capacity = t.capacity
  requests : w'.requests ≤ w.requests + 1
  log : w'.log = w.log ∨ (∃ p, w'.log = w.log ++ [.alloc p] ∧ t'.HasEntry w' p) ∨
    ∃ p, w'.log = w.log ++ [.release p] ∧ t.HasEntry w p

variable [Platform] {t t' : Table} {n : ℕ} {w w' : Memory} {rows : ℕ → List Entry}
  {k : List UInt8}

theorem Steady.of_quiet (h : w.Quiet w') : Steady t t w w' :=
  ⟨rfl, rfl, h.requests.le.trans (Nat.le_succ _), .inl h.log⟩

/-- A call that only reads. -/
theorem Steady.of_read {σ α : Type} (table : σ → Table) {x : Result α} {s : σ} {r : σ × Memory}
    (h : (x >>= fun _ => .ok (s, w)) = .ok r) : Steady (table s) (table r.1) w r.2 := by
  obtain ⟨_, -, h⟩ := bind_eq_ok.1 h
  cases h
  exact .of_quiet (.refl w)

theorem Lies.hasEntry {e : Entry} (h : Lies t n w rows) (he : e ∈ t.entries rows) :
    t.HasEntry w e.block :=
  ⟨n, _, h.stored, List.mem_map_of_mem he⟩

/-- The requests of a new entry in a table that has room for it. -/
theorem addEntry_log (h : Lies t n w rows) (hload : 4 * (t.size + 1) ≤ 3 * t.capacity)
    {hash bucket size : ℕ} {fill : ℕ → Memory → Result Memory} {st : Status}
    (hfill : ∀ p w₁ w₂, fill p w₁ = .ok w₂ → w₁.Quiet w₂)
    (hadd : addEntry t hash bucket (some size) fill w = .ok ((st, t'), w')) :
    w'.requests = w.requests + 1 ∧
      (w'.log = w.log ∨ (st = .ok ∧ w'.log = w.log ++ [.alloc w.next])) := by
  rw [addEntry, makeRoom_eq h hload, ok_bind] at hadd
  dsimp only at hadd
  rw [if_neg (not_not.2 rfl)] at hadd
  obtain ⟨⟨⟨st₁, p⟩, w₁⟩, halloc, hadd⟩ := bind_eq_ok.1 hadd
  obtain ⟨hrequests, hlog⟩ := Allocator.alloc_log h.backed halloc
  dsimp only at hadd
  rcases hlog with ⟨rfl, hlog⟩ | ⟨rfl, hlog⟩
  · rw [if_pos (by decide)] at hadd
    cases hadd
    exact ⟨hrequests, .inl hlog⟩
  · rw [if_neg (not_not.2 rfl)] at hadd
    obtain ⟨w₂, hset, hadd⟩ := bind_eq_ok.1 hadd
    obtain ⟨w₃, hfilled, hadd⟩ := bind_eq_ok.1 hadd
    obtain ⟨w₄, hpush, hadd⟩ := bind_eq_ok.1 hadd
    obtain ⟨size, -, hadd⟩ := bind_eq_ok.1 hadd
    cases hadd
    have hquiet := ((Memory.setEntryHash_quiet hset).trans (hfill _ _ _ hfilled)).trans
      (bucketPushfront_quiet hpush)
    exact ⟨hquiet.requests.trans hrequests, .inr ⟨rfl, hquiet.log.trans hlog⟩⟩

/-- **A new entry in a table that has room for it** is the only block that is asked for. -/
theorem addEntry_steady (h : Lies t n w rows) (hload : 4 * (t.size + 1) ≤ 3 * t.capacity)
    {fill : ℕ → Memory → Result Memory} {P : List UInt8 → Prop}
    (hquiet : ∀ p w₁ w₂, fill p w₁ = .ok w₂ → w₁.Quiet w₂)
    (hfill : ∀ w₁, (∀ src m bs, Arg.Reads w [t.self, t.buckets] m src bs →
      Arg.Reads w₁ [w.next] m src bs) → Fills t n k fill P w₁ w.next) {st : Status}
    (hadd : addEntry t (fnv1aHash k) (fnv1aHash k % t.capacity) (some (sizeofEntry + n)) fill w =
      .ok ((st, t'), w')) : Steady t t' w w' := by
  obtain ⟨hrequests, hlog⟩ := addEntry_log h hload hquiet hadd
  obtain ⟨st', t₁, w₁, rows₁, hadd₁, h₁, -, hbuckets, hcapacity, hres⟩ :=
    addEntry_room (k := k) h hload fill P hfill
  cases hadd.symm.trans hadd₁
  refine ⟨hbuckets, hcapacity, hrequests.le, ?_⟩
  rcases hlog with hlog | ⟨rfl, hlog⟩
  · exact .inl hlog
  · rcases hres with ⟨hst, -⟩ | ⟨-, e, hblock, -, -, hperm⟩
    · cases hst
    · refine .inr (.inl ⟨w.next, hlog, ?_⟩)
      rw [← hblock]
      exact h₁.hasEntry (hperm.mem_iff.2 (List.mem_cons_self ..))

/-- **A removal** releases the block of an entry at most. -/
theorem remove_steady {key : Arg} (h : Lies t n w rows) (hkey : key.Reads w [] t.keySize k)
    (hremove : remove t key w = .ok (t', w')) : Steady t t' w w' := by
  rw [remove, hkey.source, ok_bind] at hremove
  obtain ⟨⟨node, w₁⟩, hunlink, hremove⟩ := bind_eq_ok.1 hremove
  have hquiet := bucketRemove_quiet hunlink
  dsimp only at hremove
  split at hremove
  · obtain ⟨w₂, hdealloc, hremove⟩ := bind_eq_ok.1 hremove
    obtain ⟨size, -, hremove⟩ := bind_eq_ok.1 hremove
    cases hremove
    obtain ⟨hrequests, hlog⟩ := Allocator.dealloc_log h.backed hdealloc
    refine ⟨rfl, rfl, (hrequests.trans hquiet.requests).le.trans (Nat.le_succ _), ?_⟩
    rw [hquiet.log] at hlog
    rcases hlog with hlog | hlog
    · exact .inl hlog
    · -- what is released was the entry that was found
      refine .inr (.inr ⟨node, hlog, ?_⟩)
      rcases unlink_spec h hkey.length True with ⟨hmiss, -⟩ | ⟨e, w', rows', hhit, -, hperm, -⟩
      · cases hunlink.symm.trans hmiss
        exact absurd rfl ‹_›
      · cases hunlink.symm.trans hhit
        exact h.hasEntry (hperm.mem_iff.2 (List.mem_cons_self ..))
  · cases hremove
    exact .of_quiet hquiet

end Table

/-! ## Calls of a map -/

namespace Hashmap

variable [Platform] {m m' : Hashmap} {n : ℕ} {w w' : Memory} {rows : ℕ → List Entry}

/-- The call is no reserve, and puts an absent key only while there are fewer than `n`. -/
def Use.Within (n : ℕ) (s : Hashmap × Memory) : Use → Prop
  | .call (.put key _) => s.1.get key s.2 = .ok none → s.1.size < n
  | .call (.reserve _) => False
  | _ => True

/-- **A put** of a key that is there, or where there is room for it. -/
theorem put_steady {key value : Arg} {k v : List UInt8} {st : Status} (h : Lies m w rows)
    (hload : 4 * n ≤ 3 * m.capacity) (htakes : m.Takes w key value k v)
    (hwithin : m.get key w = .ok none → m.size < n)
    (hput : m.put key value w = .ok ((st, m'), w')) :
    Table.Steady m.toTable m'.toTable w w' := by
  obtain ⟨hkey, hvalue, -⟩ := htakes
  obtain ⟨node, hfind, hres⟩ := Table.find_spec h.table hkey.length
  have hnode : m.entryGet key w = .ok node := by
    rw [Table.entryGet, hkey.source, ok_bind]
    exact hfind
  rw [put, check_of hkey.ne_null, ok_bind, check_of hvalue.ne_null, ok_bind, hkey.source,
    ok_bind] at hput
  dsimp only at hput
  rw [hfind, ok_bind] at hput
  rcases hres with ⟨rfl, -⟩ | ⟨hne, -⟩
  · have hget : m.get key w = .ok none := by
      rw [get, check_of hkey.ne_null, ok_bind, hnode, ok_bind]
      exact if_neg (not_not.2 rfl)
    have hsize := hwithin hget
    rw [if_neg (not_not.2 rfl), h.entrySize] at hput
    obtain ⟨⟨⟨st', t⟩, w₁⟩, hadd, hput⟩ := bind_eq_ok.1 hput
    cases hput
    refine Table.addEntry_steady h.table (by omega) (fun p w₁ w₂ hfill => ?_)
      (fun w₁ hreads => fill_spec h (hreads _ _ _ hkey) (hreads _ _ _ hvalue)) hadd
    obtain ⟨w₃, hcopy, hfill⟩ := bind_eq_ok.1 hfill
    exact ((Memory.memcpy_rewritten hcopy).trans (Memory.memcpy_rewritten hfill)).toQuiet
  · rw [if_pos hne] at hput
    obtain ⟨w₁, hcopy, hput⟩ := bind_eq_ok.1 hput
    cases hput
    exact .of_quiet (Memory.memcpy_rewritten hcopy).toQuiet

/-- **Every call and every store** that has no reason to grow the table. -/
theorem use_steady {u : Use} {s : Hashmap × Memory} (h : Lies m w rows)
    (hload : 4 * n ≤ 3 * m.capacity) (hu : u.Allowed (m, w)) (hwithin : u.Within n (m, w))
    (huse : use (m, w) u = .ok s) : Table.Steady m.toTable s.1.toTable w s.2 := by
  cases u with
  | store key offset bytes =>
    obtain ⟨w', hstore, huse⟩ := bind_eq_ok.1 huse
    cases huse
    obtain ⟨p, -, hstore⟩ := bind_eq_ok.1 hstore
    cases p with
    | none =>
      cases hstore
      exact .of_quiet (.refl w)
    | some p => exact .of_quiet (Memory.write_rewritten hstore).toQuiet
  | call c =>
    cases c with
    | put key value =>
      obtain ⟨k, v, htakes⟩ := hu
      obtain ⟨⟨⟨st, m'⟩, w'⟩, hput, huse⟩ := bind_eq_ok.1 huse
      cases huse
      exact put_steady h hload htakes hwithin hput
    | remove key =>
      obtain ⟨k, hkey⟩ := hu
      obtain ⟨_, -, huse⟩ := bind_eq_ok.1 huse
      obtain ⟨⟨t, w'⟩, hremove, huse⟩ := bind_eq_ok.1 huse
      cases huse
      exact Table.remove_steady h.table hkey hremove
    | reserve size => cases hwithin
    | size =>
      cases huse
      exact .of_quiet (.refl w)
    | get key => exact .of_read toTable huse
    | iterate => exact .of_read toTable huse
    | iterateKeys => exact .of_read toTable huse
    | iterateValues => exact .of_read toTable huse

end Hashmap

/-! ## Calls of a set -/

namespace Hashset

variable [Platform] {s s' : Hashset} {n : ℕ} {w w' : Memory} {rows : ℕ → List Entry}

/-- The call is no reserve, and inserts an absent element only while there are fewer
than `n`. -/
def Op.Within (n : ℕ) (s : Hashset × Memory) : Op → Prop
  | .insert elem => Hashset.contains s.1 elem s.2 = .ok false → s.1.size < n
  | .reserve _ => False
  | _ => True

/-- **An insertion** of an element that is there, or where there is room for it. -/
theorem insert_steady {elem : Arg} {x : List UInt8} {st : Status} (h : Lies s w rows)
    (hload : 4 * n ≤ 3 * s.capacity) (helem : elem.Reads w [s.self, s.buckets] s.keySize x)
    (hwithin : contains s elem w = .ok false → s.size < n)
    (hinsert : insert s elem w = .ok ((st, s'), w')) : Table.Steady s s' w w' := by
  obtain ⟨node, hfind, hres⟩ := Table.find_spec h.table helem.length
  have hnode : s.entryGet elem w = .ok node := by
    rw [Table.entryGet, helem.source, ok_bind]
    exact hfind
  rw [insert, check_of helem.ne_null, ok_bind, helem.source, ok_bind] at hinsert
  dsimp only at hinsert
  rw [hfind, ok_bind] at hinsert
  rcases hres with ⟨rfl, -⟩ | ⟨hne, -⟩
  · have hcontains : contains s elem w = .ok false := by
      rw [contains, check_of helem.ne_null, ok_bind, hnode]
      rfl
    have hsize := hwithin hcontains
    rw [if_neg (not_not.2 rfl), h.entrySize] at hinsert
    exact Table.addEntry_steady h.table (by omega)
      (fun _ _ _ h => (Memory.memcpy_rewritten h).toQuiet)
      (fun w₁ hreads => fill_spec le_rfl (hreads _ _ _ helem)) hinsert
  · rw [if_pos hne] at hinsert
    cases hinsert
    exact .of_quiet (.refl w)

/-- **Every call** that has no reason to grow the table. -/
theorem call_steady {c : Op} {r : Hashset × Memory} (h : Lies s w rows)
    (hload : 4 * n ≤ 3 * s.capacity) (hc : c.Allowed (s, w)) (hwithin : c.Within n (s, w))
    (hcall : call (s, w) c = .ok r) : Table.Steady s r.1 w r.2 := by
  cases c with
  | insert elem =>
    obtain ⟨x, helem⟩ := hc
    obtain ⟨⟨⟨st, s'⟩, w'⟩, hinsert, hcall⟩ := bind_eq_ok.1 hcall
    cases hcall
    exact insert_steady h hload helem hwithin hinsert
  | remove elem =>
    obtain ⟨x, helem⟩ := hc
    obtain ⟨_, -, hremove⟩ := bind_eq_ok.1 hcall
    exact Table.remove_steady h.table helem hremove
  | reserve size => cases hwithin
  | size =>
    cases hcall
    exact .of_quiet (.refl w)
  | contains elem => exact .of_read id hcall
  | get elem => exact .of_read id hcall
  | iterate => exact .of_read id hcall

end Hashset

end K4c
