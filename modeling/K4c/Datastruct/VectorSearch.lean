import Mathlib.Tactic
import K4c.Datastruct.VectorRuns
import K4c.Mem.Utils

/-!
# Searching a sorted vector

`lower_bound` and `upper_bound` halve the range that is left with two opposite tests.
In a vector that is sorted by a total preorder each test splits the elements, and the
search returns the place of the split; for any other comparison and any contents it
still ends, and looks at elements of the vector only.

* `probes` — the indices a search looks at.
* `Bounded` — what holds whatever the comparison is.
* `Found` — what holds of a sorted vector.
* `search_bounds` — both, in every state of every run.
-/

namespace K4c.Vector

open Exec Bytes Slots Blocks Bisect Runs

/-- The indices of the items that a search looks at. -/
def probes (v : Vector) (w : Memory) (goRight : List UInt8 → Bool) : List ℕ :=
  ((loopStates (boundRound v w goRight) (v.size + 1) (0, v.size)).filter (·.2 ≠ 0)).map
    fun s => s.1 + s.2 / 2

/-- The searches return an index of the vector or its size, and look at indices of the
vector only. -/
structure Bounded (v : Vector) (w : Memory) (key : List UInt8)
    (cmp : List UInt8 → List UInt8 → ℤ) : Prop where
  lower : Sat (lowerBound v w key cmp) (· ≤ v.size)
  upper : Sat (upperBound v w key cmp) (· ≤ v.size)
  search : Sat (binarySearch v w key cmp) (· ≤ v.size)
  lowerProbes : ∀ i ∈ probes v w (fun item => cmp item key < 0), i < v.size
  upperProbes : ∀ i ∈ probes v w (fun item => cmp key item ≥ 0), i < v.size

/-- The range `[lower, upper)` of a list is the range of the items that are equal to the
key, and `found` is its start, or the length of the list when it is empty. -/
structure Found (xs : List (List UInt8)) (key : List UInt8) (cmp : List UInt8 → List UInt8 → ℤ)
    (lower upper found : ℕ) : Prop where
  lower_eq : lower = xs.countP fun x => cmp x key < 0
  upper_eq : upper = xs.countP fun x => cmp x key ≤ 0
  equal : ∀ i (h : i < xs.length), lower ≤ i ∧ i < upper ↔ cmp xs[i] key = 0
  found_eq : found = if lower < upper then lower else xs.length

variable {v : Vector} {w : Memory} {bs key : List UInt8} {cmp : List UInt8 → List UInt8 → ℤ}

/-! ## Any comparison -/

/-- Every item that is looked at is an item of the vector. -/
theorem probes_lt (h : Holds v w bs) (goRight : List UInt8 → Bool) :
    ∀ i ∈ probes v w goRight, i < v.size := by
  intro i hi
  obtain ⟨s, hs, rfl⟩ := List.mem_map.1 hi
  obtain ⟨hstate, hcount⟩ := List.mem_filter.1 hs
  have hle : s.1 + s.2 ≤ v.size := by
    refine loopStates_inv (I := fun s => s.1 + s.2 ≤ v.size) ?_ _ _ ?_ s hstate
    · rintro ⟨first, count⟩ s' hle hround
      rw [boundRound_spec h goRight hle] at hround
      split at hround
      · cases hround
      · split at hround
        · cases hround
          dsimp only at hle ⊢
          omega
        · cases hround
          dsimp only at hle ⊢
          omega
    · dsimp only
      omega
  have hne : s.2 ≠ 0 := by simpa using hcount
  omega

theorem Holds.bounded (h : Holds v w bs) (key : List UInt8)
    (cmp : List UInt8 → List UInt8 → ℤ) : Bounded v w key cmp where
  lower := bound_spec h _
  upper := bound_spec h _
  search := binarySearch_spec h key cmp
  lowerProbes := probes_lt h _
  upperProbes := probes_lt h _

/-! ## Sorted vectors -/

theorem length_of_mem_elements (h : Holds v w bs) {x : List UInt8} (hx : x ∈ v.elements bs) :
    x.length = v.elemSize := by
  obtain ⟨i, hi, rfl⟩ := List.getElem_of_mem hx
  rw [getElem_elements]
  rw [elements, length_slots] at hi
  apply length_slot
  rw [h.buffered.length]
  exact slot_end_le (hi.trans_le h.size_le)

/-- The elements of a vector, in the order of a comparator. -/
def Sorted (xs : List (List UInt8)) (cmp : List UInt8 → List UInt8 → ℤ) : Prop :=
  xs.Pairwise fun a b => cmp a b ≤ 0

section Sorted

variable (h : Holds v w bs) (hcmp : TotalPreorder v.elemSize cmp) (hkey : key.length = v.elemSize)
  (hsorted : Sorted (v.elements bs) cmp)

include h hcmp hkey hsorted

/-- The items that are smaller than the key come first. -/
theorem smaller_split :
    Splits (fun x => cmp x key < 0) (v.elements bs) ((v.elements bs).countP (cmp · key < 0)) := by
  refine splits_countP (hsorted.imp_of_mem fun {a b} ha hb hle hlt => ?_)
  rw [decide_eq_true_iff] at hlt ⊢
  exact hcmp.lt_of_le_of_lt (length_of_mem_elements h ha) (length_of_mem_elements h hb) hkey hle hlt

/-- The items that are not greater than the key come first. -/
theorem notGreater_split :
    Splits (fun x => cmp key x ≥ 0) (v.elements bs) ((v.elements bs).countP (cmp · key ≤ 0)) := by
  have hcount : (v.elements bs).countP (cmp · key ≤ 0) =
      (v.elements bs).countP fun x => cmp key x ≥ 0 := by
    refine List.countP_congr fun x hx => ?_
    rw [decide_eq_true_iff, decide_eq_true_iff]
    exact (hcmp.nonneg_iff (length_of_mem_elements h hx) hkey).symm
  rw [hcount]
  refine splits_countP (hsorted.imp_of_mem fun {a b} ha hb hle hge => ?_)
  have ha' := length_of_mem_elements h ha
  have hb' := length_of_mem_elements h hb
  rw [decide_eq_true_iff] at hge ⊢
  rw [ge_iff_le, hcmp.nonneg_iff hb' hkey] at hge
  rw [ge_iff_le, hcmp.nonneg_iff ha' hkey]
  exact hcmp.trans a b key ha' hb' hkey hle hge

/-- **The searches in a sorted vector.** -/
theorem found_spec : ∃ lower upper found, lowerBound v w key cmp = .ok lower ∧
    upperBound v w key cmp = .ok upper ∧ binarySearch v w key cmp = .ok found ∧
    Found (v.elements bs) key cmp lower upper found := by
  have hsmaller := smaller_split h hcmp hkey hsorted
  have hnotGreater := notGreater_split h hcmp hkey hsorted
  obtain ⟨lower, hlower, hle, hlowerEq⟩ := bound_exact h fun item => cmp item key < 0
  obtain ⟨upper, hupper, -, hupperEq⟩ := bound_exact h fun item => cmp key item ≥ 0
  have hlowerCount := hlowerEq _ hsmaller
  have hupperCount := hupperEq _ hnotGreater
  rw [← hlowerCount] at hsmaller
  rw [← hupperCount] at hnotGreater
  have hequal : ∀ i (hi : i < (v.elements bs).length),
      lower ≤ i ∧ i < upper ↔ cmp (v.elements bs)[i] key = 0 := by
    intro i hi
    have hlen := length_of_mem_elements h (List.getElem_mem hi)
    have hlow := hsmaller.2 i hi
    have hup := hnotGreater.2 i hi
    rw [decide_eq_true_iff] at hlow hup
    rw [ge_iff_le, hcmp.nonneg_iff hlen hkey] at hup
    omega
  refine ⟨lower, upper, _, hlower, hupper, ?_, hlowerCount, hupperCount, hequal, rfl⟩
  change lowerBound v w key cmp = .ok lower at hlower
  rw [binarySearch, hlower, ok_bind, length_elements]
  by_cases hlt : lower < v.size
  · have hitem := hequal lower (by rw [length_elements]; exact hlt)
    rw [getElem_elements, and_iff_right le_rfl] at hitem
    rw [if_pos hlt, get_of_lt h hlt, ok_bind, deref_of_lt h (hlt.trans_le h.size_le), ok_bind]
    by_cases hzero : cmp (slot bs v.elemSize lower) key = 0
    · rw [if_pos hzero, if_pos (hitem.2 hzero)]
      rfl
    · rw [if_neg hzero, if_neg fun hlt' => hzero (hitem.1 hlt')]
      rfl
  · have hupperLe := hnotGreater.1
    rw [length_elements] at hupperLe
    rw [if_neg hlt, if_neg (by omega)]
    rfl

end Sorted

/-! ## Every vector -/

/-- **The searches.**  In the state that any run of a vector ends in they return, for
any key and comparison, an index of the vector or its size, and look at items of the
vector only; where the comparison is a total preorder that the elements are sorted by,
the bounds enclose the items that are equal to the key. -/
theorem search_bounds {elemSize capacity : ℕ} (helem : 0 < elemSize) (hcap : 0 < capacity)
    {allocator : Option (Allocator Memory)} (hbacked : Backed (Allocator.copy allocator))
    {w₀ w₁ : Memory} {v : Vector}
    (hcreate : createWithCapacity elemSize capacity allocator w₀ = .ok ((.ok, some v), w₁))
    (calls : List Call) (hvalid : ∀ c ∈ calls, c.Valid elemSize) :
    Sat (trace step (v, w₁) calls) fun p => ∃ xs, Laid elemSize p.2.1 p.2.2 xs ∧
      ∀ key cmp, Bounded p.2.1 p.2.2 key cmp ∧
        (key.length = elemSize → TotalPreorder elemSize cmp → Sorted xs cmp →
          ∃ lower upper found, lowerBound p.2.1 p.2.2 key cmp = .ok lower ∧
            upperBound p.2.1 p.2.2 key cmp = .ok upper ∧
            binarySearch p.2.1 p.2.2 key cmp = .ok found ∧
            Found xs key cmp lower upper found) := by
  apply (run_represents helem hcap hbacked hcreate calls hvalid).mono
  rintro ⟨answers, v', w'⟩ ⟨a, -, hR, -⟩
  refine ⟨a.elements, hR.laid, fun key cmp => ?_⟩
  obtain ⟨bs, hholds, helements⟩ := hR.holds
  obtain rfl := hR.elemSize
  rw [← helements]
  exact ⟨hholds.bounded key cmp, fun hkey hcmp hsorted => found_spec hholds hcmp hkey hsorted⟩

/-- A sorted vector with a run of equal elements. -/
def ascending : List Call := [.push [1], .push [3], .push [3], .push [3], .push [8]]

theorem search_bounds_ascending : ∃ v w₁,
    createWithCapacity 1 2 none stingy = .ok ((.ok, some v), w₁) ∧
    Sat (trace step (v, w₁) ascending) fun p => ∃ xs, Laid 1 p.2.1 p.2.2 xs ∧
      ∀ key cmp, Bounded p.2.1 p.2.2 key cmp ∧
        (key.length = 1 → TotalPreorder 1 cmp → Sorted xs cmp →
          ∃ lower upper found, lowerBound p.2.1 p.2.2 key cmp = .ok lower ∧
            upperBound p.2.1 p.2.2 key cmp = .ok upper ∧
            binarySearch p.2.1 p.2.2 key cmp = .ok found ∧
            Found xs key cmp lower upper found) := by
  have hbacked : Backed (Allocator.copy none) := .default _
  exact ⟨_, _, rfl, search_bounds (by decide) (by decide) hbacked
    (rfl : createWithCapacity 1 2 none stingy = _) ascending (by decide)⟩

end K4c.Vector
