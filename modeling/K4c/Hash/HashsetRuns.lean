import Mathlib.Tactic
import K4c.Hash.Refusals

/-!
# A hash set is a finite set of representatives

A client inserts, looks up, removes and reserves in any order.  `Spec` is a finite
map from the classes of equal elements to the element of the class that was
inserted first; `Hashset.refines_set` says that every run of a hash set is a run of
it.

* `step` — one call.
* `Represents` — the entries of the set, each as the representative of its class.
* `step_spec` — one call is a step of the finite map.
* `step_asked` — a call that finds no memory was refused some.
-/

namespace K4c.Hashset

open Exec Bytes Blocks Runs Rows ClassMap
open scoped List

section Refinement

variable [Platform]

/-! ## The client -/

variable {n : ℕ}

/-- A call, with the bytes of its element. -/
inductive Call (c : Comparison n) where
  | insert (elem : Key c)
  | contains (elem : Key c)
  | get (elem : Key c)
  | remove (elem : Key c)
  | reserve (size : ℕ)
  | size

/-- What the client learns from a call. -/
inductive Answer where
  | status (st : Status)
  | found (b : Bool)
  /-- The bytes behind the returned pointer, absent for `NULL`. -/
  | elem (bytes : Option (List UInt8))
  | done
  | size (n : ℕ)
  deriving DecidableEq, Repr

variable {c : Comparison n}

/-- The element behind a pointer. -/
def readElem (set : Hashset) (w : Memory) (p : Option Ptr) : Result (Option (List UInt8)) :=
  match p with
  | none => .ok none
  | some p => w.read p.block p.offset set.keySize >>= fun bytes => .ok (some bytes)

/-- One call. -/
def step (s : Hashset × Memory) (call : Call c) : Result (Answer × (Hashset × Memory)) :=
  match call with
  | .insert elem => do
    let ((st, set), w) ← insert s.1 (.outside elem.1) s.2
    return (.status st, (set, w))
  | .contains elem => do
    let b ← contains s.1 (.outside elem.1) s.2
    return (.found b, s)
  | .get elem => do
    let p ← get s.1 (.outside elem.1) s.2
    let bytes ← readElem s.1 s.2 p
    return (.elem bytes, s)
  | .remove elem => do
    let (set, w) ← remove s.1 (.outside elem.1) s.2
    return (.done, (set, w))
  | .reserve size => do
    let ((st, set), w) ← reserve s.1 size s.2
    return (.status st, (set, w))
  | .size => return (.size s.1.size, s)

/-! ## The finite set -/

/-- What a call may answer and make of the representatives.  Only an insertion of a new
element can fail. -/
def Spec (c : Comparison n) (M : KeyMap c) : Call c → Answer → KeyMap c → Prop
  | .insert x, .status st, M' =>
    (st = .ok ∧ M' = if (⟦x⟧ : Quotient (keySetoid c)) ∈ M then M else M.insert ⟦x⟧ x.1) ∨
      (st.Fails (Table.TooMany (M.keys.card + 1)) ∧
        (⟦x⟧ : Quotient (keySetoid c)) ∉ M ∧ M' = M)
  | .contains x, .found b, M' => (b = true ↔ (⟦x⟧ : Quotient (keySetoid c)) ∈ M) ∧ M' = M
  | .get x, .elem bytes, M' => bytes = M.lookup ⟦x⟧ ∧ M' = M
  | .remove x, .done, M' => M' = M.erase ⟦x⟧
  | .reserve k, .status st, M' => (st = .ok ∨ st.Fails (Table.TooMany k)) ∧ M' = M
  | .size, .size n, M' => n = M.keys.card ∧ M' = M
  | _, _, _ => False

/-- The entries, as elements that represent their classes. -/
def pairs (c : Comparison n) (set : Hashset) (es : List Entry) : List (Key c × List UInt8) :=
  es.map fun e => (Key.of c (e.key set.keySize), e.key set.keySize)

/-- The set lies in the memory, and its entries are the representatives. -/
def Represents (c : Comparison n) (s : Hashset × Memory) (M : KeyMap c) : Prop :=
  s.1.keySize = n ∧ s.1.keyEq = c.eq ∧
    ∃ rows, Holds s.1 s.2 rows ∧ Lists M (pairs c s.1 (s.1.entries rows))

variable {set set' : Hashset} {w w' : Memory} {rows rows' : ℕ → List Entry} {e : Entry}
  {M : KeyMap c}

/-- What a search finds is what the finite map has. -/
theorem lookup_spec (h : Holds set w rows) (hn : set.keySize = n) (hc : set.keyEq = c.eq)
    (hlists : Lists M (pairs c set (set.entries rows))) (x : Key c) :
    ∃ node, set.entryGet (.outside x.1) w = .ok node ∧
      ((node = 0 ∧ M.lookup ⟦x⟧ = none) ∨
        (node ≠ 0 ∧ ∃ bytes, M.lookup ⟦x⟧ = some bytes ∧
          w.read node 0 set.keySize = .ok bytes)) := by
  obtain ⟨node, hget, hres⟩ := h.entryGet (.outside (x.2.trans hn.symm))
  refine ⟨node, hget, ?_⟩
  rcases hres with ⟨rfl, hmiss⟩ | ⟨hnode, e, he, hequal, -, hread⟩
  · exact .inl ⟨rfl, hlists.lookup_eq_none.2 (h.table.lies.no_key_equiv hn hc hmiss)⟩
  · exact .inr ⟨hnode, _, hlists.lookup_eq_some.2
      ⟨_, List.mem_map_of_mem he, (h.table.lies.key_equiv hn hc he x).2 hequal, rfl⟩, hread⟩

/-- The entries are as many as the classes of the finite set. -/
theorem card_keys (h : Holds set w rows) (hlists : Lists M (pairs c set (set.entries rows))) :
    M.keys.card = set.size := by
  rw [hlists.card, pairs, List.length_map]
  exact h.table.size.symm

/-- Entries that were changed represent what their pairs are. -/
theorem Represents.changed {w₁ : Memory} {M' : KeyMap c} (hR : Represents c (set, w₁) M)
    (h' : Holds set' w' rows') (hchanged : Table.Changed set set' rows rows' w w')
    (hlists : Lists M' (pairs c set (set'.entries rows'))) : Represents c (set', w') M' := by
  obtain ⟨hn, hc, -⟩ := hR
  refine ⟨hchanged.keySize.trans hn, hchanged.keyEq.trans hc, rows', h', ?_⟩
  rw [pairs, hchanged.keySize]
  exact hlists

/-- **An insertion** is a step of the finite set. -/
theorem Represents.insert (hR : Represents c (set, w) M) (x : Key c) :
    ∃ st set' w' M', Hashset.insert set (.outside x.1) w = .ok ((st, set'), w') ∧
      Spec c M (.insert x) (.status st) M' ∧ Represents c (set', w') M' := by
  have hself := hR
  obtain ⟨hn, hc, rows, h, hlists⟩ := hR
  dsimp only at hn hc h hlists
  obtain ⟨st, set', w', rows', hinsert, h', hchanged, hres⟩ :=
    h.insert (.outside (x.2.trans hn.symm))
  refine ⟨st, set', w', ?_⟩
  rcases hres with ⟨hst, hmiss, hperm⟩ | ⟨rfl, ⟨e, he, hequal⟩, hperm⟩ |
    ⟨rfl, hmiss, e, hperm, hekey⟩
  · have hmem : (⟦x⟧ : Quotient (keySetoid c)) ∉ M :=
      Finmap.lookup_eq_none.1 (hlists.lookup_eq_none.2 (h.table.lies.no_key_equiv hn hc hmiss))
    have hfails := (insert_explains h.lies hinsert).fails hst
    rw [← card_keys h hlists] at hfails
    exact ⟨M, hinsert, .inr ⟨hfails, hmem, rfl⟩,
      hself.changed h' hchanged (hlists.perm (hperm.symm.map _))⟩
  · have hmem : (⟦x⟧ : Quotient (keySetoid c)) ∈ M :=
      Finmap.mem_of_lookup_eq_some (hlists.lookup_eq_some.2
        ⟨_, List.mem_map_of_mem he, (h.table.lies.key_equiv hn hc he x).2 hequal, rfl⟩)
    exact ⟨M, hinsert, .inl ⟨rfl, (if_pos hmem).symm⟩,
      hself.changed h' hchanged (hlists.perm (hperm.symm.map _))⟩
  · have hnone : ∀ p ∈ pairs c set (set.entries rows), ¬ p.1 ≈ x :=
      h.table.lies.no_key_equiv hn hc hmiss
    have hmem : (⟦x⟧ : Quotient (keySetoid c)) ∉ M :=
      Finmap.lookup_eq_none.1 (hlists.lookup_eq_none.2 hnone)
    refine ⟨M.insert ⟦x⟧ x.1, hinsert, .inl ⟨rfl, (if_neg hmem).symm⟩, hself.changed h' hchanged ?_⟩
    refine Lists.perm ?_ (hperm.symm.map _)
    rw [List.map_cons, hekey, Key.of_val]
    exact hlists.insert hnone

/-- **One call** is a step of the finite set. -/
theorem step_spec (s : Hashset × Memory) (M : KeyMap c) (call : Call c)
    (hR : Represents c s M) :
    Sat (step s call) fun p => ∃ M', Spec c M call p.1 M' ∧ Represents c p.2 M' := by
  obtain ⟨set, w⟩ := s
  have hself := hR
  obtain ⟨hn, hc, rows, h, hlists⟩ := hR
  dsimp only at hn hc h hlists
  have helem : ∀ (x : Key c) {o : List ℕ}, Arg.Reads w o set.keySize (.outside x.1) x.1 :=
    fun x => .outside (x.2.trans hn.symm)
  have hnull : ∀ x : Key c, Arg.outside x.1 ≠ .null := fun x => (helem x (o := [])).ne_null
  cases call with
  | insert x =>
    obtain ⟨st, set', w', M', hinsert, hspec, hR'⟩ := hself.insert x
    exact ⟨(.status st, (set', w')), by rw [step, hinsert]; rfl, M', hspec, hR'⟩
  | contains x =>
    obtain ⟨node, hget, hres⟩ := lookup_spec h hn hc hlists x
    refine ⟨(.found (decide (node ≠ 0)), (set, w)), ?_, M, ⟨?_, rfl⟩, hself⟩
    · rw [step, contains, check_of (hnull x), ok_bind, hget]
      rfl
    · rw [decide_eq_true_iff]
      rcases hres with ⟨rfl, hnone⟩ | ⟨hnode, bytes, hsome, -⟩
      · exact ⟨fun h => absurd rfl h, fun hmem => absurd hmem (Finmap.lookup_eq_none.1 hnone)⟩
      · exact ⟨fun _ => Finmap.mem_of_lookup_eq_some hsome, fun _ => hnode⟩
  | get x =>
    obtain ⟨node, hget, hres⟩ := lookup_spec h hn hc hlists x
    refine ⟨(.elem (M.lookup ⟦x⟧), (set, w)), ?_, M, ⟨rfl, rfl⟩, hself⟩
    rw [step, get, check_of (hnull x), ok_bind, hget, ok_bind]
    rcases hres with ⟨rfl, hnone⟩ | ⟨hnode, bytes, hsome, hread⟩
    · rw [if_neg (not_not.2 rfl), hnone]
      rfl
    · rw [if_pos hnode, hsome, pure_eq_ok, ok_bind, readElem]
      change (w.read node 0 set.keySize >>= _ >>= _) = _
      rw [hread]
      rfl
  | remove x =>
    obtain ⟨set', w', rows', hremove, h', hchanged, hres⟩ := h.remove (helem x)
    exact ⟨(.done, (set', w')), by rw [step, hremove]; rfl, _, rfl,
      hself.changed h' hchanged (h.table.lies.erased hn hc hlists hres)⟩
  | reserve size =>
    obtain ⟨st, set', w', rows', hreserve, h', hchanged, hperm⟩ := h.reserve size
    refine ⟨(.status st, (set', w')), by rw [step, hreserve]; rfl, M, ⟨?_, rfl⟩,
      hself.changed h' hchanged (hlists.perm (hperm.symm.map _))⟩
    exact or_iff_not_imp_left.2 (Table.reserve_explains h.lies.table hreserve).fails
  | size => exact ⟨(.size set.size, (set, w)), rfl, M, ⟨(card_keys h hlists).symm, rfl⟩, hself⟩

/-- A call that finds no memory was refused a request. -/
theorem step_asked {s : Hashset × Memory} {call : Call c} {r : Answer × (Hashset × Memory)}
    (hR : Represents c s M) (hstep : step s call = .ok r) :
    s.2.Asked r.2.2 (r.1 = .status .noMemory) := by
  obtain ⟨set, w⟩ := s
  obtain ⟨-, -, rows, h, -⟩ := hR
  cases call with
  | insert x =>
    obtain ⟨y, hinsert, hout⟩ := bind_eq_ok.1 hstep
    cases hout
    exact (insert_explains h.lies hinsert).asked.mono fun hst => Answer.status.inj hst
  | contains x =>
    obtain ⟨b, -, hout⟩ := bind_eq_ok.1 hstep
    cases hout
    exact .refl w nofun
  | get x =>
    obtain ⟨p, -, hout⟩ := bind_eq_ok.1 hstep
    obtain ⟨bytes, -, hout⟩ := bind_eq_ok.1 hout
    cases hout
    exact .refl w nofun
  | remove x =>
    obtain ⟨y, hremove, hout⟩ := bind_eq_ok.1 hstep
    cases hout
    obtain ⟨_, -, hremove⟩ := bind_eq_ok.1 hremove
    exact (Table.remove_asked h.table.lies.backed hremove).mono nofun
  | reserve size =>
    obtain ⟨y, hreserve, hout⟩ := bind_eq_ok.1 hstep
    cases hout
    exact (Table.reserve_explains h.lies.table hreserve).asked.mono
      fun hst => Answer.status.inj hst
  | size =>
    cases hstep
    exact .refl w nofun

/-! ## The refinement -/

/-- **A hash set is a finite set of first representatives.**  In every run of a set
that was created for elements that are compared by their bytes, or by an equivalence
that respects their hashes, whatever the allocator grants, no assertion fails and
nothing is accessed that is not there; the set contains what an equal element of was
inserted with success and not removed since, and returns the first of these; its
size is the number of classes; and an insertion or reserve that fails changes no
answer, and it fails only when it was refused a request or there is no array for so
many entries. -/
theorem refines_set {n : ℕ} (c : Comparison n) {allocator : Option (Allocator Memory)}
    (hbacked : Backed (Allocator.copy allocator)) {w₀ w₁ : Memory} {set : Hashset}
    (hcreate : create n c.eq allocator w₀ = .ok ((.ok, some set), w₁)) (calls : List (Call c)) :
    Sat (trace step (set, w₁) calls) fun p => ∃ M, Follows (Spec c) ∅ calls p.1 M ∧
      Justifies w₁ p.2.2 (· = .status .noMemory) p.1 ∧ p.2.1.size = M.keys.card ∧
      ∀ x, ∃ node, p.2.1.entryGet (.outside x.1) p.2.2 = .ok node ∧
        ((node = 0 ∧ M.lookup ⟦x⟧ = none) ∨
          (node ≠ 0 ∧ ∃ bytes, M.lookup ⟦x⟧ = some bytes ∧ p.2.2.read node 0 n = .ok bytes)) := by
  obtain ⟨_, helem, -⟩ := bind_eq_ok.1 hcreate
  obtain ⟨st, out, w', hcreate', hres⟩ :=
    create_spec c.eq hbacked (check_eq_ok.1 helem) w₀
  cases hcreate.symm.trans hcreate'
  rcases hres with ⟨hst, -⟩ | ⟨-, _, hout, -, h, hn, hc, -⟩
  · exact absurd rfl hst
  cases hout
  have hnone : set.entries (fun _ => []) = [] := flat_empty _
  have hequal : KeyEquivalence set.keySize set.equal := by
    unfold Table.equal
    rw [hn, hc]
    exact c.equivalence
  have hstart : Represents c (set, w₁) ∅ := by
    refine ⟨hn, hc, _, ⟨h.table.holds hequal ?_, h.entrySize⟩, ?_⟩
    · rw [hnone]
      exact Apart.nil
    · rw [hnone]
      exact Lists.empty
  have hrun := trace_justified (m := Prod.snd) (R := Represents c)
    (B := (· = .status .noMemory)) (fun s M call hR _ => step_spec s M call hR)
    (fun _ _ _ _ hR _ hstep => step_asked hR hstep) calls (set, w₁) ∅ hstart
    (along_of_forall (P := fun _ _ => True) (fun _ _ => trivial) calls _)
  refine hrun.mono ?_
  rintro ⟨answers, set', w'⟩ ⟨M, hfollows, ⟨rfl, hc', rows, h', hlists⟩, hjust⟩
  exact ⟨M, hfollows, hjust, (card_keys h' hlists).symm, fun x => lookup_spec h' rfl hc' hlists x⟩

end Refinement

section Example

local instance : Platform := lp64

/-- A memory that refuses its fifth request. -/
def sparing : Memory := .empty fun i => if i = 4 then none else some ⟨true, fun _ => 0⟩

/-- Two equal insertions, a removal between two lookups, and an insertion that the
allocator refuses. -/
def insertTwice : List (Call (.bytewise 1)) :=
  [.insert ⟨[8], rfl⟩, .insert ⟨[8], rfl⟩, .contains ⟨[8], rfl⟩, .reserve 100, .remove ⟨[8], rfl⟩,
    .get ⟨[8], rfl⟩, .insert ⟨[9], rfl⟩, .size]

set_option maxRecDepth 4000 in
theorem refines_set_insert_twice : ∃ set w₁,
    create 1 none none sparing = .ok ((.ok, some set), w₁) ∧
    (Sat (trace step (set, w₁) insertTwice) fun p => ∃ M,
      Follows (Spec (.bytewise 1)) ∅ insertTwice p.1 M ∧
      Justifies w₁ p.2.2 (· = .status .noMemory) p.1 ∧ p.2.1.size = M.keys.card ∧
      ∀ x, ∃ node, p.2.1.entryGet (.outside x.1) p.2.2 = .ok node ∧
        ((node = 0 ∧ M.lookup ⟦x⟧ = none) ∨
          (node ≠ 0 ∧ ∃ bytes, M.lookup ⟦x⟧ = some bytes ∧ p.2.2.read node 0 1 = .ok bytes))) ∧
    (trace step (set, w₁) insertTwice).map Prod.fst =
      .ok [.status .ok, .status .ok, .found true, .status .ok, .done, .elem none,
        .status .noMemory, .size 0] := by
  have hbacked : Backed (Allocator.copy none) := .default _
  exact ⟨_, _, rfl, refines_set (.bytewise 1) hbacked
    (rfl : create 1 none none sparing = _) insertTwice, by decide +kernel⟩

end Example

end K4c.Hashset
