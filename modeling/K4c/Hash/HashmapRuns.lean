import Mathlib.Tactic
import K4c.Hash.Refusals

/-!
# A hash map is a finite map

A client puts, gets, removes and reserves in any order, and reads the value behind
every pointer it is given.  `Spec` is a finite map on the classes of the keys;
`Hashmap.refines_map` says that every run of a hash map is a run of it, and that no
two entries have equal keys after it.

* `step` — one call.
* `Represents` — the entries of the map, as pairs of a key and a value.
* `step_spec` — one call is a step of the finite map.
* `step_asked` — a call that finds no memory was refused some.
-/

namespace K4c.Hashmap

open Exec Bytes Blocks Runs Rows ClassMap
open scoped List

section Refinement

variable [Platform]

/-! ## The client -/

variable {n m : ℕ}

/-- A call, with the bytes that a key and a value are copied from. -/
inductive Call (c : Comparison n) (m : ℕ) where
  | put (key : Key c) (value : ByteString m)
  | get (key : Key c)
  | remove (key : Key c)
  | reserve (size : ℕ)
  | size

/-- What the client learns from a call. -/
inductive Answer where
  | status (st : Status)
  /-- The bytes behind the returned pointer, absent for `NULL`. -/
  | value (bytes : Option (List UInt8))
  | done
  | size (n : ℕ)
  deriving DecidableEq, Repr

variable {c : Comparison n}

/-- The value behind a pointer. -/
def readValue (map : Hashmap) (w : Memory) (p : Option Ptr) : Result (Option (List UInt8)) :=
  match p with
  | none => .ok none
  | some p => w.read p.block p.offset map.valueSize >>= fun bytes => .ok (some bytes)

/-- One call. -/
def step (s : Hashmap × Memory) (call : Call c m) : Result (Answer × (Hashmap × Memory)) :=
  match call with
  | .put key value => do
    let ((st, map), w) ← put s.1 (.outside key.1) (.outside value.1) s.2
    return (.status st, (map, w))
  | .get key => do
    let p ← get s.1 (.outside key.1) s.2
    let bytes ← readValue s.1 s.2 p
    return (.value bytes, s)
  | .remove key => do
    let (map, w) ← remove s.1 (.outside key.1) s.2
    return (.done, (map, w))
  | .reserve size => do
    let ((st, map), w) ← reserve s.1 size s.2
    return (.status st, (map, w))
  | .size => return (.size s.1.size, s)

/-! ## The finite map -/

/-- What a call may answer and make of the map.  Only a put of a new key can fail. -/
def Spec (c : Comparison n) (m : ℕ) (M : KeyMap c) : Call c m → Answer → KeyMap c → Prop
  | .put k v, .status st, M' =>
    (st = .ok ∧ M' = M.insert ⟦k⟧ v.1) ∨
      (st.Fails (Table.TooMany (M.keys.card + 1)) ∧
        (⟦k⟧ : Quotient (keySetoid c)) ∉ M ∧ M' = M)
  | .get k, .value bytes, M' => bytes = M.lookup ⟦k⟧ ∧ M' = M
  | .remove k, .done, M' => M' = M.erase ⟦k⟧
  | .reserve k, .status st, M' => (st = .ok ∨ st.Fails (Table.TooMany k)) ∧ M' = M
  | .size, .size n, M' => n = M.keys.card ∧ M' = M
  | _, _, _ => False

/-- The pairs of a key and a value that the entries are. -/
def pairs (c : Comparison n) (map : Hashmap) (es : List Entry) : List (Key c × List UInt8) :=
  es.map fun e => (Key.of c (e.key map.keySize), map.valueOf e)

/-- The map lies in the memory, and its entries are those of the finite map. -/
def Represents (c : Comparison n) (m : ℕ) (s : Hashmap × Memory) (M : KeyMap c) : Prop :=
  s.1.keySize = n ∧ s.1.keyEq = c.eq ∧ s.1.valueSize = m ∧
    ∃ rows, Holds s.1 s.2 rows ∧ Lists M (pairs c s.1 (s.1.entries rows))

variable {map map' : Hashmap} {w w' : Memory} {rows rows' : ℕ → List Entry} {e : Entry}
  {M : KeyMap c} {es es' : List Entry}

theorem pairs_congr (h : Changed map map' rows rows' w w') (es : List Entry) :
    pairs c map' es = pairs c map es := by
  rw [pairs, pairs]
  refine List.map_congr_left fun e _ => ?_
  rw [valueOf, valueOf, h.table.keySize, h.valueSize]

/-- The entries are as many as the keys of the finite map. -/
theorem card_keys (h : Holds map w rows) (hlists : Lists M (pairs c map (map.entries rows))) :
    M.keys.card = map.size := by
  rw [hlists.card, pairs, List.length_map]
  exact h.table.size.symm

/-- Entries that were changed represent what their pairs are. -/
theorem Represents.changed {w₁ : Memory} {M' : KeyMap c} (hR : Represents c m (map, w₁) M)
    (h' : Holds map' w' rows') (hchanged : Changed map map' rows rows' w w')
    (hlists : Lists M' (pairs c map (map'.entries rows'))) : Represents c m (map', w') M' := by
  obtain ⟨hn, hc, hm, -⟩ := hR
  refine ⟨hchanged.table.keySize.trans hn, hchanged.table.keyEq.trans hc,
    hchanged.valueSize.trans hm, rows', h', ?_⟩
  rw [pairs_congr hchanged]
  exact hlists

/-- **A put** is a step of the finite map. -/
theorem Represents.put (hR : Represents c m (map, w) M) (k : Key c) (v : ByteString m) :
    ∃ st map' w' M', Hashmap.put map (.outside k.1) (.outside v.1) w = .ok ((st, map'), w') ∧
      Spec c m M (.put k v) (.status st) M' ∧ Represents c m (map', w') M' := by
  have hself := hR
  obtain ⟨hn, hc, hm, rows, h, hlists⟩ := hR
  dsimp only at hn hc hm h hlists
  obtain ⟨st, map', w', rows', hput, h', hchanged, hres⟩ :=
    h.put (.outside (k.2.trans hn.symm) (v.2.trans hm.symm))
  refine ⟨st, map', w', ?_⟩
  rcases hres with ⟨hst, hmiss, hperm⟩ |
    ⟨rfl, e, e', rest, hequal, hold, hnew, -, hkept, hvalue⟩ |
    ⟨rfl, hmiss, e', hnew, hekey, hvalue⟩
  · have hnone : (⟦k⟧ : Quotient (keySetoid c)) ∉ M :=
      Finmap.lookup_eq_none.1 (hlists.lookup_eq_none.2 (h.table.lies.no_key_equiv hn hc hmiss))
    have hfails := (put_explains h.lies hput).fails hst
    rw [← card_keys h hlists] at hfails
    exact ⟨M, hput, .inr ⟨hfails, hnone, rfl⟩,
      hself.changed h' hchanged (hlists.perm (hperm.symm.map _))⟩
  · -- the value of an entry was changed
    have hlists₁ := hlists.perm (hold.map _)
    have hlists₂ : Lists _ ((_, v.1) :: _) :=
      hlists₁.replace ((h.table.lies.key_equiv hn hc
        (hold.mem_iff.2 (List.mem_cons_self ..)) k).2 hequal)
    refine ⟨_, hput, .inl ⟨rfl, rfl⟩, hself.changed h' hchanged ?_⟩
    refine Lists.perm ?_ (hnew.symm.map _)
    rw [List.map_cons, hkept, hvalue]
    exact hlists₂
  · -- an entry was added
    refine ⟨_, hput, .inl ⟨rfl, rfl⟩, hself.changed h' hchanged ?_⟩
    refine Lists.perm ?_ (hnew.symm.map _)
    rw [List.map_cons, hekey, hvalue, Key.of_val]
    exact hlists.insert (h.table.lies.no_key_equiv hn hc hmiss)

/-- **One call** is a step of the finite map. -/
theorem step_spec (s : Hashmap × Memory) (M : KeyMap c) (call : Call c m)
    (hR : Represents c m s M) :
    Sat (step s call) fun p => ∃ M', Spec c m M call p.1 M' ∧ Represents c m p.2 M' := by
  obtain ⟨map, w⟩ := s
  have hself := hR
  obtain ⟨hn, hc, hm, rows, h, hlists⟩ := hR
  dsimp only at hn hc hm h hlists
  have hkey : ∀ (k : Key c) {o : List ℕ}, Arg.Reads w o map.keySize (.outside k.1) k.1 :=
    fun k => .outside (k.2.trans hn.symm)
  cases call with
  | put k v =>
    obtain ⟨st, map', w', M', hput, hspec, hR'⟩ := hself.put k v
    exact ⟨(.status st, (map', w')), by rw [step, hput]; rfl, M', hspec, hR'⟩
  | get k =>
    obtain ⟨p, hget, hres⟩ := h.get (hkey k)
    rcases hres with ⟨rfl, hmiss⟩ | ⟨e, he, hequal, rfl, hread⟩
    · refine ⟨(.value none, (map, w)), by rw [step, hget]; rfl, M, ⟨?_, rfl⟩, hself⟩
      exact (hlists.lookup_eq_none.2 (h.table.lies.no_key_equiv hn hc hmiss)).symm
    · refine ⟨(.value (some (map.valueOf e)), (map, w)), ?_, M, ⟨?_, rfl⟩, hself⟩
      · rw [step, hget, ok_bind, readValue]
        change (w.read e.block (valueOffset map.keySize) map.valueSize >>= _ >>= _) = _
        rw [hread]
        rfl
      · exact (hlists.lookup_eq_some.2
          ⟨_, List.mem_map_of_mem he, (h.table.lies.key_equiv hn hc he k).2 hequal, rfl⟩).symm
  | remove k =>
    obtain ⟨map', w', rows', hremove, h', hchanged, hres⟩ := h.remove (hkey k)
    exact ⟨(.done, (map', w')), by rw [step, hremove]; rfl, _, rfl,
      hself.changed h' hchanged (h.table.lies.erased hn hc hlists hres)⟩
  | reserve size =>
    obtain ⟨st, map', w', rows', hreserve, h', hchanged, hperm⟩ := h.reserve size
    refine ⟨(.status st, (map', w')), by rw [step, hreserve]; rfl, M, ⟨?_, rfl⟩,
      hself.changed h' hchanged (hlists.perm (hperm.symm.map _))⟩
    exact or_iff_not_imp_left.2 (reserve_explains h.lies hreserve).fails
  | size =>
    exact ⟨(.size map.size, (map, w)), rfl, M, ⟨(card_keys h hlists).symm, rfl⟩, hself⟩

/-- A call that finds no memory was refused a request. -/
theorem step_asked {s : Hashmap × Memory} {call : Call c m} {r : Answer × (Hashmap × Memory)}
    (hR : Represents c m s M) (hstep : step s call = .ok r) :
    s.2.Asked r.2.2 (r.1 = .status .noMemory) := by
  obtain ⟨map, w⟩ := s
  obtain ⟨-, -, -, rows, h, -⟩ := hR
  cases call with
  | put k v =>
    obtain ⟨x, hput, hout⟩ := bind_eq_ok.1 hstep
    cases hout
    exact (put_explains h.lies hput).asked.mono fun hst => Answer.status.inj hst
  | get k =>
    obtain ⟨x, -, hout⟩ := bind_eq_ok.1 hstep
    obtain ⟨bytes, -, hout⟩ := bind_eq_ok.1 hout
    cases hout
    exact .refl w nofun
  | remove k =>
    obtain ⟨x, hremove, hout⟩ := bind_eq_ok.1 hstep
    cases hout
    obtain ⟨_, -, hremove⟩ := bind_eq_ok.1 hremove
    obtain ⟨y, htable, hremove⟩ := bind_eq_ok.1 hremove
    cases hremove
    exact (Table.remove_asked h.table.lies.backed htable).mono nofun
  | reserve size =>
    obtain ⟨x, hreserve, hout⟩ := bind_eq_ok.1 hstep
    cases hout
    exact (reserve_explains h.lies hreserve).asked.mono fun hst => Answer.status.inj hst
  | size =>
    cases hstep
    exact .refl w nofun

/-! ## The refinement -/

/-- The entries that lie in the buckets of the map, each in the bucket of its hash
and with its hash stored in it. -/
def Stored (map : Hashmap) (w : Memory) (es : List Entry) : Prop :=
  ∃ rows, HashCommon.Arrayed (sizeofEntry + map.dataSize) (Entry.hash map.keySize) w map.buckets
      map.capacity rows ∧
    Placed (Entry.hash map.keySize) map.capacity rows ∧ es = map.entries rows

/-- **A hash map is a finite map.**  In every run of a map that was created for keys
that are compared by their bytes, or by an equivalence that respects their hashes,
whatever the allocator grants, no assertion fails and nothing is accessed that is
not there; every get answers what the last put with an equal key has stored that
succeeded and was not removed since, and the size is the number of such keys; a put
or reserve that fails changes no answer, and it fails only when it was refused a request
or there is no array for so many entries; and after the run no two entries in the table
have equal keys. -/
theorem refines_map {n m : ℕ} (c : Comparison n) {allocator : Option (Allocator Memory)}
    (hbacked : Backed (Allocator.copy allocator)) {w₀ w₁ : Memory} {map : Hashmap}
    (hcreate : create n m c.eq allocator w₀ = .ok ((.ok, some map), w₁)) (calls : List (Call c m)) :
    Sat (trace step (map, w₁) calls) fun p => ∃ M es, Follows (Spec c m) ∅ calls p.1 M ∧
      Justifies w₁ p.2.2 (· = .status .noMemory) p.1 ∧
      Stored p.2.1 p.2.2 es ∧ p.2.1.size = es.length ∧
      ∀ d ∈ es, ∀ e ∈ es, p.2.1.equal (d.key n) (e.key n) = true → d = e := by
  obtain ⟨_, hkey, hcreate'⟩ := bind_eq_ok.1 hcreate
  obtain ⟨_, hvalue, -⟩ := bind_eq_ok.1 hcreate'
  obtain ⟨st, out, w', hcreate'', hres⟩ := create_spec c.eq hbacked
    (check_eq_ok.1 hkey) (check_eq_ok.1 hvalue) w₀
  cases hcreate.symm.trans hcreate''
  rcases hres with ⟨hst, -⟩ | ⟨-, _, hout, -, h, hn, hc, hm, -⟩
  · exact absurd rfl hst
  cases hout
  have hnone : map.entries (fun _ => []) = [] := flat_empty _
  have hequal : KeyEquivalence map.keySize map.equal := by
    unfold Table.equal
    rw [hn, hc]
    exact c.equivalence
  have hstart : Represents c m (map, w₁) ∅ := by
    refine ⟨hn, hc, hm, _, ⟨h.table.holds hequal ?_, h.entrySize⟩, ?_⟩
    · rw [hnone]
      exact Apart.nil
    · rw [hnone]
      exact Lists.empty
  have hrun := trace_justified (m := Prod.snd) (R := Represents c m)
    (B := (· = .status .noMemory)) (fun s M call hR _ => step_spec s M call hR)
    (fun _ _ _ _ hR _ hstep => step_asked hR hstep) calls (map, w₁) ∅ hstart
    (along_of_forall (P := fun _ _ => True) (fun _ _ => trivial) calls _)
  refine hrun.mono ?_
  rintro ⟨answers, map', w'⟩ ⟨M, hfollows, ⟨rfl, -, -, rows, h', -⟩, hjust⟩
  exact ⟨M, _, hfollows, hjust, ⟨rows, h'.table.arrayed, h'.table.placed, rfl⟩, h'.table.size,
    h'.table.distinct⟩

end Refinement

section Example

local instance : Platform := lp64

/-- A memory that refuses its sixth request. -/
def sparing : Memory := .empty fun i => if i = 5 then none else some ⟨true, fun _ => 0⟩

/-- Two keys, one of them with two values and then without, and a put that the
allocator refuses. -/
def overwriteAndRemove : List (Call (.bytewise 1) 2) :=
  [.put ⟨[1], rfl⟩ ⟨[10, 11], rfl⟩, .put ⟨[2], rfl⟩ ⟨[20, 21], rfl⟩,
    .put ⟨[1], rfl⟩ ⟨[12, 13], rfl⟩, .get ⟨[1], rfl⟩, .reserve 100, .remove ⟨[1], rfl⟩,
    .get ⟨[1], rfl⟩, .put ⟨[3], rfl⟩ ⟨[30, 31], rfl⟩, .size]

set_option maxRecDepth 4000 in
theorem refines_map_overwrite : ∃ map w₁,
    create 1 2 none none sparing = .ok ((.ok, some map), w₁) ∧
    (Sat (trace step (map, w₁) overwriteAndRemove) fun p => ∃ M es,
      Follows (Spec (.bytewise 1) 2) ∅ overwriteAndRemove p.1 M ∧
      Justifies w₁ p.2.2 (· = .status .noMemory) p.1 ∧ Stored p.2.1 p.2.2 es ∧
      p.2.1.size = es.length ∧
      ∀ d ∈ es, ∀ e ∈ es, p.2.1.equal (d.key 1) (e.key 1) = true → d = e) ∧
    (trace step (map, w₁) overwriteAndRemove).map Prod.fst =
      .ok [.status .ok, .status .ok, .status .ok, .value (some [12, 13]), .status .ok, .done,
        .value none, .status .noMemory, .size 1] := by
  have hbacked : Backed (Allocator.copy none) := .default _
  exact ⟨_, _, rfl, refines_map (.bytewise 1) hbacked
    (rfl : create 1 2 none none sparing = _) overwriteAndRemove, by decide +kernel⟩

end Example

end K4c.Hashmap
