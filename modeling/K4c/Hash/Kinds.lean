import Mathlib.Tactic
import K4c.Datastruct.Kinds
import K4c.Hash.HashmapRuns
import K4c.Hash.HashsetRuns
import K4c.Hash.Lifetimes

/-!
# Hash maps and hash sets as kinds of objects

What a table means and which blocks it owns are both read off the lists of its entries; a
memory has only one such family of lists.

* `Arrayed.unique` — the lists of an array are determined by the memory.
* `Hashmap.lawful`, `Hashset.lawful` — the kinds.
-/

namespace K4c

open Exec Bytes Blocks Runs Rows HashCommon Objects ClassMap

namespace HashCommon

variable {size size' b cap : ℕ} {hash hash' : Entry → ℕ} {w : Memory} {es es' : List Entry}
  {rows rows' : ℕ → List Entry}

/-- The links of a list say what its entries are. -/
theorem Linked.unique (h : Linked size hash w es 0) (h' : Linked size' hash' w es' 0)
    (hfirst : first es 0 = first es' 0) : es = es' := by
  induction es generalizing es' with
  | nil =>
    cases es' with
    | nil => rfl
    | cons e' es' => exact absurd hfirst.symm (Mem.ne_zero_of_live (Mem.live_of h'.1))
  | cons e es ih =>
    cases es' with
    | nil => exact absurd hfirst (Mem.ne_zero_of_live (Mem.live_of h.1))
    | cons e' es' =>
      have hblock : e.block = e'.block := hfirst
      have hcell := h.1.symm.trans (hblock ▸ h'.1)
      simp only [Option.some.injEq, Cell.mk.injEq, Content.entry.injEq] at hcell
      obtain ⟨-, hnext, -, hdata⟩ := hcell
      rw [ih h.2 h'.2 hnext, show e = e' from by cases e; cases e'; simp_all]

/-- The heads of an array and the links say what is in its lists. -/
theorem Arrayed.unique (h : Arrayed size hash w b cap rows)
    (h' : Arrayed size' hash' w b cap rows') : flat rows cap = flat rows' cap := by
  refine flat_congr fun i hi => (h.linked i hi).unique (h'.linked i hi) ?_
  have harray := h.array.symm.trans h'.array
  simp only [Option.some.injEq, Cell.mk.injEq, Content.buckets.injEq, true_and] at harray
  have hget := congrArg (fun heads => heads[i]?) harray
  simpa [getElem?_heads hi] using hget

end HashCommon

variable [Platform]

namespace Table

variable {t : Table} {n n' : ℕ} {w w' : Memory} {rows rows' : ℕ → List Entry}

theorem Lies.owned_eq (h : Lies t n w rows) (h' : Lies t n' w rows') :
    t.owned rows = t.owned rows' := by
  rw [owned, owned, blocks, blocks, h.arrayed.unique h'.arrayed]

/-- In a memory in which the blocks of the table are as they were. -/
theorem Holds.frame (h : Holds t n w rows) (hsame : ∀ p ∈ t.owned rows, w'.cells p = w.cells p) :
    Holds t n w' rows :=
  (h.lies.frame hsame).holds h.equal h.distinct

end Table

/-! ## Maps -/

namespace Hashmap

variable {n m : ℕ} {c : Comparison n} {allocator : Option (Allocator Memory)}

/-- A call without its answer. -/
def Call.op : Call c m → Op
  | .put key value => .put (.outside key.1) (.outside value.1)
  | .get key => .get (.outside key.1)
  | .remove key => .remove (.outside key.1)
  | .reserve k => .reserve k
  | .size => .size

theorem agree {s s' s'' : Hashmap × Memory} {l : Call c m} {o : Answer}
    (h : step s l = .ok (o, s')) (h' : call s l.op = .ok s'') : s'' = s' := by
  cases l
  all_goals
    simp [step, call, Call.op, bind_eq_ok] at h h'
    grind

/-- Maps as finite maps. -/
def typed (c : Comparison n) (m : ℕ) (allocator : Option (Allocator Memory)) :
    (container n m c.eq allocator).Typed where
  Call := Call c m
  Answer := Answer
  Model := KeyMap c
  step := step
  op := Call.op
  Allowed _ _ := True
  Initial M := M = ∅
  Spec := Spec c m
  Blames := (· = .status .noMemory)
  TooLarge := entrySize n m = none

theorem refines (hbacked : Backed (Allocator.copy allocator)) (hn : 0 < n) (hm : 0 < m) :
    (typed c m allocator).Refines (Represents c m) (Kept (Allocator.copy allocator)) where
  agree _ _ _ _ _ := agree
  allowed := by
    rintro s M l ⟨hkey, -, hvalue, -⟩ -
    cases l with
    | put k v => exact ⟨k.1, v.1, .outside (k.2.trans hkey.symm) (v.2.trans hvalue.symm)⟩
    | get k => exact ⟨k.1, .outside (k.2.trans hkey.symm)⟩
    | remove k => exact ⟨k.1, .outside (k.2.trans hkey.symm)⟩
    | _ => trivial
  step s M l hR _ := step_spec s M l hR
  created w map w' hcreate := by
    obtain ⟨st, out, w₁, hcreate', hres⟩ := create_spec c.eq hbacked hn hm w
    cases hcreate.symm.trans hcreate'
    rcases hres with ⟨hst, -⟩ | ⟨-, _, hout, -, h, hkey, heq, hvalue, -⟩
    · exact absurd rfl hst
    cases hout
    have hnone : map.entries (fun _ => []) = [] := flat_empty _
    have hequal : KeyEquivalence map.keySize map.equal := by
      unfold Table.equal
      rw [hkey, heq]
      exact c.equivalence
    refine ⟨(∅ : KeyMap c), rfl, hkey, heq, hvalue, _, ⟨h.table.holds hequal ?_, h.entrySize⟩, ?_⟩
    · rw [hnone]
      exact Apart.nil
    · rw [hnone]
      exact Lists.empty
  explained w r := create_explains hbacked
  asked s M l r hR _ := step_asked hR
  destroyed := by
    rintro s o w ⟨rows, h, -⟩ hdestroy
    exact Table.destroy_asked h.table.backed hdestroy
  live := by
    rintro s o ⟨rows, h, -, rfl⟩
    exact h.table.live
  frame := by
    rintro map w w' M o ⟨hkey, heq, hvalue, rows', h', hlists⟩ ⟨rows, h, hallocator, rfl⟩ hsame
    refine ⟨⟨hkey, heq, hvalue, rows', ⟨h'.table.frame ?_, h'.entrySize⟩, hlists⟩, rows,
      ⟨h.table.frame hsame, h.entrySize⟩, hallocator, rfl⟩
    rw [h'.table.lies.owned_eq h.table]
    exact hsame

/-- **Maps are a lawful kind.** -/
theorem lawful (hbacked : Backed (Allocator.copy allocator)) (hn : 0 < n) (hm : 0 < m) :
    (typed c m allocator).kind.Lawful (Reclaims (Allocator.copy allocator))
      fun s M o => Represents c m s M ∧ Kept (Allocator.copy allocator) s o :=
  (refines hbacked hn hm).lawful (sound hbacked hn hm)

end Hashmap

/-! ## Sets -/

namespace Hashset

variable {n : ℕ} {c : Comparison n} {allocator : Option (Allocator Memory)}

/-- A call without its answer. -/
def Call.op : Call c → Op
  | .insert elem => .insert (.outside elem.1)
  | .contains elem => .contains (.outside elem.1)
  | .get elem => .get (.outside elem.1)
  | .remove elem => .remove (.outside elem.1)
  | .reserve k => .reserve k
  | .size => .size

theorem agree {s s' s'' : Hashset × Memory} {l : Call c} {o : Answer}
    (h : step s l = .ok (o, s')) (h' : call s l.op = .ok s'') : s'' = s' := by
  cases l
  all_goals
    simp [step, call, Call.op, bind_eq_ok] at h h'
    grind

/-- Sets as finite sets of representatives. -/
def typed (c : Comparison n) (allocator : Option (Allocator Memory)) :
    (container n c.eq allocator).Typed where
  Call := Call c
  Answer := Answer
  Model := KeyMap c
  step := step
  op := Call.op
  Allowed _ _ := True
  Initial M := M = ∅
  Spec := Spec c
  Blames := (· = .status .noMemory)
  TooLarge := entrySize n = none

theorem refines (hbacked : Backed (Allocator.copy allocator)) (hn : 0 < n) :
    (typed c allocator).Refines (Represents c) (Kept (Allocator.copy allocator)) where
  agree _ _ _ _ _ := agree
  allowed := by
    rintro s M l ⟨hkey, -⟩ -
    cases l with
    | insert x => exact ⟨x.1, .outside (x.2.trans hkey.symm)⟩
    | contains x => exact ⟨x.1, .outside (x.2.trans hkey.symm)⟩
    | get x => exact ⟨x.1, .outside (x.2.trans hkey.symm)⟩
    | remove x => exact ⟨x.1, .outside (x.2.trans hkey.symm)⟩
    | _ => trivial
  step s M l hR _ := step_spec s M l hR
  created w set w' hcreate := by
    obtain ⟨st, out, w₁, hcreate', hres⟩ := create_spec c.eq hbacked hn w
    cases hcreate.symm.trans hcreate'
    rcases hres with ⟨hst, -⟩ | ⟨-, _, hout, -, h, hkey, heq, -⟩
    · exact absurd rfl hst
    cases hout
    have hnone : set.entries (fun _ => []) = [] := flat_empty _
    have hequal : KeyEquivalence set.keySize set.equal := by
      unfold Table.equal
      rw [hkey, heq]
      exact c.equivalence
    refine ⟨(∅ : KeyMap c), rfl, hkey, heq, _, ⟨h.table.holds hequal ?_, h.entrySize⟩, ?_⟩
    · rw [hnone]
      exact Apart.nil
    · rw [hnone]
      exact Lists.empty
  explained w r := create_explains hbacked
  asked s M l r hR _ := step_asked hR
  destroyed := by
    rintro s o w ⟨rows, h, -⟩ hdestroy
    exact Table.destroy_asked h.table.backed hdestroy
  live := by
    rintro s o ⟨rows, h, -, rfl⟩
    exact h.table.live
  frame := by
    rintro set w w' M o ⟨hkey, heq, rows', h', hlists⟩ ⟨rows, h, hallocator, rfl⟩ hsame
    refine ⟨⟨hkey, heq, rows', ⟨h'.table.frame ?_, h'.entrySize⟩, hlists⟩, rows,
      ⟨h.table.frame hsame, h.entrySize⟩, hallocator, rfl⟩
    rw [h'.table.lies.owned_eq h.table]
    exact hsame

/-- **Sets are a lawful kind.** -/
theorem lawful (hbacked : Backed (Allocator.copy allocator)) (hn : 0 < n) :
    (typed c allocator).kind.Lawful (Reclaims (Allocator.copy allocator))
      fun s M o => Represents c s M ∧ Kept (Allocator.copy allocator) s o :=
  (refines hbacked hn).lawful (sound hbacked hn)

end Hashset

end K4c
