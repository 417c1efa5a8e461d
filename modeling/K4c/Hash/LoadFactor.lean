import Mathlib.Tactic
import K4c.Hash.Requests

/-!
# The load of the hash tables

A table grows when one more entry would load it by more than three quarters, and a
reserve makes it as large as its entries will need.  The two computations are guarded
against overflow each in its own way; here they agree.

* `Reserves` — what a reserve answers: it overflows when no capacity is large enough, and
  then nothing has happened.
* `Keeps` — a run that leaves the bucket array where it is and asks for entries only.
* `load_factor` — every reachable table is loaded at most three quarters, and what is
  reserved can be filled without growing.
* `reserved_set_grows` — at the full size one more key makes the table grow, also when
  its entry is then refused.
-/

namespace K4c

open Exec Blocks Runs HashCommon

section Load

variable [Platform]

/-- What reserving `n` answers. -/
structure Table.Reserves (n : ℕ) (t t' : Table) (st : Status) (w w' : Memory) : Prop where
  overflow_iff : st = .overflow ↔ ¬ ∃ c, Capacity c ∧ 4 * n ≤ 3 * c
  unchanged : st = .overflow → t' = t ∧ w' = w
  large : st = .ok → 4 * n ≤ 3 * t'.capacity

/-- Reserving in a table that lies in the memory. -/
theorem Table.Lies.reserve {t : Table} {k : ℕ} {w : Memory} {rows : ℕ → List Entry}
    (h : Lies t k w rows) (n : ℕ) :
    ∃ st t' w' rows', t.reserve n w = .ok ((st, t'), w') ∧ Reserves n t t' st w w' ∧
      Lies t' k w' rows' ∧ Changed t t' rows rows' w w' ∧
      Turn t (fun _ => False) (fun _ => False) (t.entries rows) (t'.entries rows') := by
  obtain ⟨st, t', w', rows', hreserve, h', -, hperm, hchanged, hlarge, hoverflow, hunchanged⟩ :=
    reserve_spec h n
  refine ⟨st, t', w', rows', hreserve, ⟨?_, hunchanged, hlarge⟩, h', hchanged, .kept hperm⟩
  simp only [hoverflow, not_exists, not_and, not_le]

/-- Every call of the run keeps the bucket array and asks for the block of an entry at
most, and so all of them keep it. -/
def Table.Keeps {S L : Type} (step : S × Memory → L → Result (Unit × (S × Memory)))
    (table : S → Table) (s : S × Memory) (ls : List L) : Prop :=
  Along step (fun s l => ∀ r, step s l = .ok r → Steady (table s.1) (table r.2.1) s.2 r.2.2) s ls ∧
    Sat (trace step s ls) fun q => (table q.2.1).buckets = (table s.1).buckets ∧
      (table q.2.1).capacity = (table s.1).capacity

/-- **A run of steady calls**, where an invariant says that they are. -/
theorem Table.keeps {S L : Type} {step : S × Memory → L → Result (Unit × (S × Memory))}
    (table : S → Table) {P : S × Memory → L → Prop} {I : S × Memory → Prop} {s : S × Memory}
    (hstep : ∀ s' l, I s' → (table s'.1).capacity = (table s.1).capacity → P s' l →
      Sat (step s' l) fun r => I r.2 ∧ Steady (table s'.1) (table r.2.1) s'.2 r.2.2)
    {ls : List L} (hs : I s) (halong : Along step P s ls) : Keeps step table s ls := by
  -- the calls are steady while the bucket array is the one of the beginning
  have hround : ∀ s' l, (I s' ∧ (table s'.1).buckets = (table s.1).buckets ∧
      (table s'.1).capacity = (table s.1).capacity) → P s' l →
      (∀ r, step s' l = .ok r → Steady (table s'.1) (table r.2.1) s'.2 r.2.2) ∧
      Sat (step s' l) fun r => I r.2 ∧ (table r.2.1).buckets = (table s.1).buckets ∧
        (table r.2.1).capacity = (table s.1).capacity := by
    rintro s' l ⟨hI, hbuckets, hcapacity⟩ hl
    obtain ⟨r, hr, hI', hsteady⟩ := hstep s' l hI hcapacity hl
    refine ⟨fun r' hr' => ?_, r, hr, hI', hsteady.buckets.trans hbuckets,
      hsteady.capacity.trans hcapacity⟩
    cases hr.symm.trans hr'
    exact hsteady
  refine ⟨Along.of_inv hround ls s ⟨hs, rfl, rfl⟩ halong, ?_⟩
  exact (trace_inv (fun s' l hs' hl => (hround s' l hs' hl).2) ls s ⟨hs, rfl, rfl⟩ halong).mono
    fun q hq => hq.2

/-! ## Maps -/

namespace Hashmap

variable {keySize valueSize : ℕ} {keyEq : Option (List UInt8 → List UInt8 → Bool)}
  {allocator : Option (Allocator Memory)} {s : Hashmap × Memory} {rows : ℕ → List Entry}

/-- What was reserved can be filled. -/
theorem Intact.keeps {n : ℕ} (h : Intact keySize valueSize keyEq s rows)
    (hload : 4 * n ≤ 3 * s.1.capacity) (uses : List Use)
    (halong : Along (client keySize valueSize keyEq allocator).step
      (fun s u => u.Allowed s ∧ u.Within n s) s uses) :
    Table.Keeps (client keySize valueSize keyEq allocator).step Hashmap.toTable s uses := by
  refine Table.keeps Hashmap.toTable (I := fun s => ∃ rows, Intact keySize valueSize keyEq s rows)
    ?_ ⟨rows, h⟩ halong
  rintro s' u ⟨rows', h'⟩ hcapacity ⟨hu, hwithin⟩
  rw [← hcapacity] at hload
  obtain ⟨r, huse, hr⟩ := h'.use hu
  refine ⟨((), r), ?_, hr, use_steady h'.lies hload hu hwithin huse⟩
  change (Hashmap.use s' u >>= _) = _
  rw [huse]
  rfl

/-- Reserving, after any run. -/
theorem Intact.reserves (h : Intact keySize valueSize keyEq s rows) (n : ℕ) :
    Sat (s.1.reserve n s.2) fun r =>
      Table.Reserves n s.1.toTable r.1.2.toTable r.1.1 s.2 r.2 ∧
      r.1.2.valueSize = s.1.valueSize ∧
      ∃ rows', Intact keySize valueSize keyEq (r.1.2, r.2) rows' := by
  obtain ⟨st, t, w, rows', hreserve, hres, ht, hchanged, hturn⟩ := h.table.lies.reserve n
  have hlies := h.lies.withTable ht hchanged
  refine ⟨((st, { s.1 with toTable := t }), w), by rw [reserve, hreserve]; rfl, hres, rfl, rows',
    ?_⟩
  exact h.turn hlies ⟨hchanged, rfl⟩ hturn

end Hashmap

/-! ## Sets -/

namespace Hashset

variable {elemSize : ℕ} {elemEq : Option (List UInt8 → List UInt8 → Bool)}
  {allocator : Option (Allocator Memory)} {s : Hashset × Memory} {rows : ℕ → List Entry}

/-- What was reserved can be filled. -/
theorem Intact.keeps {n : ℕ} (h : Intact elemSize elemEq s rows)
    (hload : 4 * n ≤ 3 * s.1.capacity) (calls : List Op)
    (halong : Along (container elemSize elemEq allocator).step
      (fun s c => c.Allowed s ∧ c.Within n s) s calls) :
    Table.Keeps (container elemSize elemEq allocator).step id s calls := by
  refine Table.keeps id (I := fun s => ∃ rows, Intact elemSize elemEq s rows) ?_ ⟨rows, h⟩ halong
  rintro s' c ⟨rows', h'⟩ hcapacity ⟨hc, hwithin⟩
  change s'.1.capacity = s.1.capacity at hcapacity
  rw [← hcapacity] at hload
  obtain ⟨r, hcall, hr⟩ := h'.call hc
  refine ⟨((), r), ?_, hr, call_steady h'.lies hload hc hwithin hcall⟩
  change (Hashset.call s' c >>= _) = _
  rw [hcall]
  rfl

/-- Reserving, after any run. -/
theorem Intact.reserves (h : Intact elemSize elemEq s rows) (n : ℕ) :
    Sat (reserve s.1 n s.2) fun r => Table.Reserves n s.1 r.1.2 r.1.1 s.2 r.2 ∧
      ∃ rows', Intact elemSize elemEq (r.1.2, r.2) rows' := by
  obtain ⟨st, t, w, rows', hreserve, hres, ht, hchanged, hturn⟩ := h.table.lies.reserve n
  exact ⟨((st, t), w), hreserve, hres, rows', h.turn (h.lies.changed ht hchanged) hchanged hturn⟩

end Hashset

/-! ## Runs -/

/-- **The load factor and the promise of a reserve.**  After every run of a hash map or a
hash set the capacity is `16 * 2 ^ k` and loaded at most three quarters.  A reserve of `n`
overflows if and only if no capacity that can be computed is large enough, and then nothing
has changed; when it succeeds the bucket array is kept, and only entries are allocated,
in every later run in which an absent key is put only while there are fewer than `n`. -/
theorem load_factor {allocator : Option (Allocator Memory)}
    (hbacked : Backed (Allocator.copy allocator)) (w₀ : Memory) :
    (∀ keySize valueSize keyEq m w₁ before,
      Hashmap.create keySize valueSize keyEq allocator w₀ = .ok ((.ok, some m), w₁) →
      Along (Hashmap.client keySize valueSize keyEq allocator).step Hashmap.Use.Allowed (m, w₁)
        before →
      Sat (trace (Hashmap.client keySize valueSize keyEq allocator).step (m, w₁) before) fun p =>
        p.2.1.Loaded ∧ ∀ n, Sat (p.2.1.reserve n p.2.2) fun r =>
          Table.Reserves n p.2.1.toTable r.1.2.toTable r.1.1 p.2.2 r.2 ∧
          r.1.2.valueSize = p.2.1.valueSize ∧ (r.1.1 = .ok → ∀ later,
            Along (Hashmap.client keySize valueSize keyEq allocator).step
              (fun s u => u.Allowed s ∧ u.Within n s) (r.1.2, r.2) later →
            Table.Keeps (Hashmap.client keySize valueSize keyEq allocator).step Hashmap.toTable
              (r.1.2, r.2) later)) ∧
    (∀ elemSize elemEq s w₁ before,
      Hashset.create elemSize elemEq allocator w₀ = .ok ((.ok, some s), w₁) →
      Along (Hashset.container elemSize elemEq allocator).step Hashset.Op.Allowed (s, w₁) before →
      Sat (trace (Hashset.container elemSize elemEq allocator).step (s, w₁) before) fun p =>
        Table.Loaded p.2.1 ∧ ∀ n, Sat (Hashset.reserve p.2.1 n p.2.2) fun r =>
          Table.Reserves n p.2.1 r.1.2 r.1.1 p.2.2 r.2 ∧ (r.1.1 = .ok → ∀ later,
            Along (Hashset.container elemSize elemEq allocator).step
              (fun s c => c.Allowed s ∧ c.Within n s) (r.1.2, r.2) later →
            Table.Keeps (Hashset.container elemSize elemEq allocator).step id
              (r.1.2, r.2) later)) := by
  refine ⟨?_, ?_⟩
  · intro keySize valueSize keyEq m w₁ before hcreate halong
    apply (Hashmap.reached (Hashmap.create_intact hbacked hcreate) before halong).mono
    rintro ⟨_, s⟩ ⟨rows, h⟩
    refine ⟨h.table.loaded, fun n => (h.reserves n).mono ?_⟩
    rintro r ⟨hres, hvalueSize, rows', h'⟩
    exact ⟨hres, hvalueSize, fun hst later hlater => h'.keeps (hres.large hst) later hlater⟩
  · intro elemSize elemEq s w₁ before hcreate halong
    apply (Hashset.reached (Hashset.create_intact hbacked hcreate) before halong).mono
    rintro ⟨_, s⟩ ⟨rows, h⟩
    refine ⟨h.table.loaded, fun n => (h.reserves n).mono ?_⟩
    rintro r ⟨hres, rows', h'⟩
    exact ⟨hres, fun hst later hlater => h'.keeps (hres.large hst) later hlater⟩

end Load

section Example

local instance loadPlatform : Platform := lp64

/-- A memory that grants every request and moves what it resizes. -/
def lavish : Memory := .empty fun _ => some ⟨true, fun _ => 0⟩

/-- An entry that comes and goes in a map that was made for twenty. -/
def putRemove : List Hashmap.Use :=
  [.call (.put (.outside [1]) (.outside [10, 11])), .call (.remove (.outside [1]))]

/-- The same in a set. -/
def insertRemove : List Hashset.Op := [.insert (.outside [1]), .remove (.outside [1])]

set_option maxRecDepth 4000 in
theorem load_factor_put_remove :
    (∃ m w₁ m' w₂, Hashmap.create 1 2 none none lavish = .ok ((.ok, some m), w₁) ∧
      m.Loaded ∧ m.reserve 20 w₁ = .ok ((.ok, m'), w₂) ∧ m'.capacity = 32 ∧
      Table.Keeps (Hashmap.client 1 2 none none).step Hashmap.toTable (m', w₂) putRemove) ∧
    (∃ s w₁ s' w₂, Hashset.create 1 none none lavish = .ok ((.ok, some s), w₁) ∧
      s.Loaded ∧ Hashset.reserve s 20 w₁ = .ok ((.ok, s'), w₂) ∧ s'.capacity = 32 ∧
      Table.Keeps (Hashset.container 1 none none).step id (s', w₂) insertRemove) := by
  have hbacked : Backed (Allocator.copy none) := .default _
  refine ⟨?_, ?_⟩
  · obtain ⟨m, w₁, m', w₂, hcreate, hreserve, hcapacity, hsizes⟩ : ∃ m w₁ m' w₂,
        Hashmap.create 1 2 none none lavish = .ok ((.ok, some m), w₁) ∧
        m.reserve 20 w₁ = .ok ((.ok, m'), w₂) ∧ m'.capacity = 32 ∧
        checkAlong (Hashmap.client 1 2 none none).step (fun s _ => s.1.size < 20) (m', w₂)
          putRemove = true := by
      exact ⟨_, _, _, _, rfl, rfl, rfl, rfl⟩
    have hnew := Hashmap.create_intact hbacked hcreate
    obtain ⟨p, hp, hloaded, hall⟩ := (load_factor hbacked _).1 1 2 none m w₁ [] hcreate trivial
    cases hp
    obtain ⟨r, hr, -, -, hkeeps⟩ := hall 20
    cases hreserve.symm.trans hr
    obtain ⟨r, hr, -, -, rows, hintact⟩ := hnew.reserves 20
    cases hreserve.symm.trans hr
    have hown : Along (Hashmap.client 1 2 none none).step Hashmap.Use.Allowed (m', w₂) putRemove :=
      Hashmap.along_own hintact _ (by decide)
    have hplain : Along (Hashmap.client 1 2 none none).step (fun _ u => u ∈ putRemove) (m', w₂)
        putRemove := along_of_mem putRemove _ fun _ hu => hu
    refine ⟨m, w₁, m', w₂, hcreate, hloaded, hreserve, hcapacity, hkeeps rfl putRemove ?_⟩
    apply ((hown.and (along_of_check hsizes)).and hplain).mono
    rintro s u ⟨⟨hu, hsize⟩, hmem⟩
    refine ⟨hu, ?_⟩
    simp only [putRemove, List.mem_cons, List.not_mem_nil, or_false] at hmem
    rcases hmem with rfl | rfl
    · exact fun _ => hsize
    · trivial
  · obtain ⟨s, w₁, s', w₂, hcreate, hreserve, hcapacity, hsizes⟩ : ∃ s w₁ s' w₂,
        Hashset.create 1 none none lavish = .ok ((.ok, some s), w₁) ∧
        Hashset.reserve s 20 w₁ = .ok ((.ok, s'), w₂) ∧ s'.capacity = 32 ∧
        checkAlong (Hashset.container 1 none none).step (fun s _ => s.1.size < 20) (s', w₂)
          insertRemove = true := by
      exact ⟨_, _, _, _, rfl, rfl, rfl, rfl⟩
    have hnew := Hashset.create_intact hbacked hcreate
    obtain ⟨p, hp, hloaded, hall⟩ := (load_factor hbacked _).2 1 none s w₁ [] hcreate trivial
    cases hp
    obtain ⟨r, hr, -, hkeeps⟩ := hall 20
    cases hreserve.symm.trans hr
    obtain ⟨r, hr, -, rows, hintact⟩ := hnew.reserves 20
    cases hreserve.symm.trans hr
    have hown : Along (Hashset.container 1 none none).step Hashset.Op.Allowed (s', w₂)
        insertRemove := Hashset.along_own hintact _ (by decide)
    have hplain : Along (Hashset.container 1 none none).step (fun _ c => c ∈ insertRemove) (s', w₂)
        insertRemove := along_of_mem insertRemove _ fun _ hc => hc
    refine ⟨s, w₁, s', w₂, hcreate, hloaded, hreserve, hcapacity, hkeeps rfl insertRemove ?_⟩
    apply ((hown.and (along_of_check hsizes)).and hplain).mono
    rintro s c ⟨⟨hc, hsize⟩, hmem⟩
    refine ⟨hc, ?_⟩
    simp only [insertRemove, List.mem_cons, List.not_mem_nil, or_false] at hmem
    rcases hmem with rfl | rfl
    · exact fun _ => hsize
    · trivial

/-- Thirteen insertions: the bucket array was made for twelve. -/
def thirteen : List Hashset.Op :=
  (List.range 13).map fun i => .insert (.outside [UInt8.ofNat i])

/-- After the handle and the bucket array, twelve entries and another bucket array are
granted, and the last entry is not. -/
def refuseLast (i : ℕ) : Option Grant := if i = 15 then none else some ⟨true, fun _ => 0⟩

/-- There are never more than twelve elements, for which the capacity of 16 was reserved,
but the table has grown. -/
theorem reserved_set_grows :
    (∀ c ∈ thirteen, c.own 1 = true) ∧
    Sat (Hashset.create 1 none none (.empty refuseLast)) fun r => r.1.1 = .ok ∧ ∃ s ∈ r.1.2,
      Sat (Hashset.reserve s 12 r.2) fun r => r.1.1 = .ok ∧ r.1.2.capacity = 16 ∧
        Along (Hashset.container 1 none none).step (fun s _ => s.1.size ≤ 12) (r.1.2, r.2)
          thirteen ∧
        Sat (trace (Hashset.container 1 none none).step (r.1.2, r.2) thirteen) fun q =>
          q.2.1.size = 12 ∧ q.2.1.capacity = 32 := by
  decide +kernel

end Example

end K4c
