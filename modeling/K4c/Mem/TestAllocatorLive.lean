import Mathlib.Tactic
import Mathlib.Data.Finset.Card
import K4c.Mem.TestAllocator

/-!
# The test allocator counts what is live

Over a libc that conforms and hands out addresses, `outstanding_allocations` is the number of
live blocks, whatever else the counters say and whichever requests are made to fail.

* `Counting` — the counter is the number of the live blocks.
* `conforms_counting` — the operations of the test allocator keep it.
* `isClean_iff` — `k4c_test_allocator_is_clean` says that there are no live blocks.
-/

namespace K4c

open Exec

/-! ## Addresses -/

/-- The pointers that `malloc` and `realloc` return are of the type `size_t`. -/
structure Libc.Addressed {ν : Type} (libc : Libc ν) : Prop where
  malloc : ∀ w size p w', libc.malloc w size = .ok (p, w') → p ≤ sizeMax
  realloc : ∀ w ptr size p w', libc.realloc w ptr size = .ok (p, w') → p ≤ sizeMax

namespace TestAllocator

open Backend

variable {ν : Type} {view : Window ν} {serves : ν → Live → Prop} {libc : Libc ν}
  {t t' : TestAllocator ν} {live : Live} {p size : ℕ}

/-! ## The counter -/

theorem outstanding_shouldFail (t : TestAllocator ν) :
    (shouldFail t).2.outstandingAllocations = t.outstandingAllocations := by
  unfold shouldFail
  split
  · rfl
  · split
    · rfl
    · rfl

/-- A block that is handed out is counted, and its address is one of libc. -/
theorem alloc_counts (haddr : libc.Addressed) (h : alloc libc t size = .ok (p, t')) :
    p ≤ sizeMax ∧ t'.outstandingAllocations =
      if p = 0 then t.outstandingAllocations else increment t.outstandingAllocations := by
  have hcount := outstanding_shouldFail t
  unfold alloc at h
  rcases hfail : shouldFail t with ⟨fails, t₁⟩
  rw [hfail] at h hcount
  cases fails with
  | true =>
    cases h
    exact ⟨Nat.zero_le _, hcount⟩
  | false =>
    obtain ⟨⟨q, memory⟩, hmalloc, hpure⟩ := bind_eq_ok.1 h
    dsimp only at hpure
    split at hpure
    · cases hpure
      exact ⟨Nat.zero_le _, hcount⟩
    · rename_i hq
      cases hpure
      rw [if_neg hq]
      exact ⟨haddr.malloc _ _ _ _ hmalloc, congrArg increment hcount⟩

/-- A resize changes nothing about the count. -/
theorem realloc_counts (haddr : libc.Addressed) {ptr : ℕ} (hptr : ptr ≠ 0) (hsize : size ≠ 0)
    (h : realloc libc t ptr size = .ok (p, t')) :
    p ≤ sizeMax ∧ t'.outstandingAllocations = t.outstandingAllocations := by
  have hcount := outstanding_shouldFail t
  rw [realloc, if_neg hptr, if_neg hsize] at h
  rcases hfail : shouldFail t with ⟨fails, t₁⟩
  rw [hfail] at h hcount
  cases fails with
  | true =>
    cases h
    exact ⟨Nat.zero_le _, hcount⟩
  | false =>
    obtain ⟨⟨q, memory⟩, hrealloc, hpure⟩ := bind_eq_ok.1 h
    dsimp only at hpure
    split at hpure
    · cases hpure
      exact ⟨Nat.zero_le _, hcount⟩
    · cases hpure
      exact ⟨haddr.realloc _ _ _ _ _ hrealloc, hcount⟩

/-! ## The live blocks -/

/-- There are `n` live blocks, and they lie at addresses. -/
def Counts (live : Live) (n : ℕ) : Prop :=
  ∃ S : Finset ℕ, (∀ p, p ∈ S ↔ live p ≠ none) ∧ S ⊆ Finset.Icc 1 sizeMax ∧ n = S.card

namespace Counts

variable {n : ℕ}

/-- There are not so many addresses that a counter wraps. -/
theorem le (h : Counts live n) : n ≤ sizeMax := by
  obtain ⟨S, -, hsub, rfl⟩ := h
  simpa using Finset.card_le_card hsub

/-- A block more. -/
theorem insert (h : Counts live n) (size : ℕ) (hp : p ≠ 0) (hle : p ≤ sizeMax)
    (hnew : live p = none) :
    Counts (Function.update live p (some size)) (n + 1) := by
  obtain ⟨S, hS, hsub, rfl⟩ := h
  have hnotin : p ∉ S := fun hmem => (hS p).1 hmem hnew
  refine ⟨Insert.insert p S, fun q => ?_, fun q hq => ?_, ?_⟩
  · by_cases hqp : q = p
    · simp [hqp]
    · simp [hqp, hS]
  · rcases Finset.mem_insert.1 hq with rfl | hq
    · exact Finset.mem_Icc.2 ⟨Nat.one_le_iff_ne_zero.2 hp, hle⟩
    · exact hsub hq
  · rw [Finset.card_insert_of_notMem hnotin]

/-- A block less. -/
theorem erase (h : Counts live n) (hp : live p ≠ none) :
    0 < n ∧ Counts (Function.update live p none) (n - 1) := by
  obtain ⟨S, hS, hsub, rfl⟩ := h
  have hmem : p ∈ S := (hS p).2 hp
  refine ⟨Finset.card_pos.2 ⟨p, hmem⟩, S.erase p, fun q => ?_,
    (Finset.erase_subset p S).trans hsub, (Finset.card_erase_of_mem hmem).symm⟩
  by_cases hqp : q = p
  · simp [hqp]
  · simp [hqp, hS]

theorem increment_eq (h : Counts live (n + 1)) : increment n = n + 1 :=
  Nat.mod_eq_of_lt (Nat.lt_succ_of_le h.le)

end Counts

/-- The counter is the number of the live blocks. -/
structure Counting (serves : ν → Live → Prop) (t : TestAllocator ν) (live : Live) : Prop where
  serves : serves t.memory live
  counts : Counts live t.outstandingAllocations

/-- **The verdict** of the test allocator. -/
theorem Counting.isClean_iff (h : Counting serves t live) :
    t.isClean = true ↔ ∀ p, live p = none := by
  obtain ⟨S, hS, -, hcount⟩ := h.counts
  rw [isClean, beq_iff_eq, hcount, Finset.card_eq_zero, Finset.eq_empty_iff_forall_notMem]
  simp only [hS, not_not]

theorem counting_init {memory : ν} (h : serves memory fun _ => none) (failAfter : ℕ) :
    Counting serves { init memory with failAfter } fun _ => none :=
  ⟨h, ∅, fun _ => by simp, Finset.empty_subset _, rfl⟩

/-! ## The operations -/

theorem handed_counting (haddr : libc.Addressed) (ht : Counting serves t live)
    (h : Sat (alloc libc t size) (Handed (window view) (Serving serves) t live size)) :
    Sat (alloc libc t size) (Handed (window view) (Counting serves) t live size) := by
  obtain ⟨⟨p, t'⟩, halloc, hhanded⟩ := h
  obtain ⟨hle, hcount⟩ := alloc_counts haddr halloc
  refine ⟨(p, t'), halloc, ?_⟩
  cases hhanded with
  | refused hserves hkeeps =>
    rw [if_pos rfl] at hcount
    exact .refused ⟨hserves, hcount ▸ ht.counts⟩ hkeeps
  | granted hp hnew hserves hkeeps =>
    have hcounts := ht.counts.insert size hp hle hnew
    rw [if_neg hp, hcounts.increment_eq] at hcount
    exact .granted hp hnew ⟨hserves, hcount ▸ hcounts⟩ hkeeps

/-- **The test allocator keeps count.** -/
theorem conforms_counting (hlibc : Conforms view serves libc) (haddr : libc.Addressed) :
    Conforms (window view) (Counting serves) (operations libc) where
  null t live ht := hlibc.null t.memory live ht.serves
  malloc t live size ht hsize := handed_counting haddr ht (alloc_spec hlibc ht.serves hsize)
  realloc_null t live size ht hsize := by
    change Sat (realloc libc t 0 size) _
    rw [realloc, if_pos rfl]
    exact handed_counting haddr ht (alloc_spec hlibc ht.serves hsize)
  realloc t live p k size ht hp hsize := by
    have hp0 : p ≠ 0 := by
      rintro rfl
      rw [hlibc.null t.memory live ht.serves] at hp
      cases hp
    obtain ⟨⟨q, t'⟩, hrealloc, hresized⟩ := realloc_spec hlibc ht.serves hp hsize
    obtain ⟨hle, hcount⟩ := realloc_counts haddr hp0 hsize.ne' hrealloc
    refine ⟨(q, t'), hrealloc, ?_⟩
    cases hresized with
    | refused hserves hkeeps => exact .refused ⟨hserves, hcount ▸ ht.counts⟩ hkeeps
    | granted hq hnew hserves hkeeps hcopied =>
      -- one block less, and one more
      obtain ⟨hpos, hless⟩ := ht.counts.erase (p := p) (by rw [hp]; exact Option.some_ne_none k)
      have hcounts := hless.insert size hq hle hnew
      rw [Nat.sub_add_cancel hpos, ← hcount] at hcounts
      exact .granted hq hnew ⟨hserves, hcounts⟩ hkeeps hcopied
  free t live p ht hp := by
    have hp0 : p ≠ 0 := by
      rintro rfl
      exact hp (hlibc.null t.memory live ht.serves)
    obtain ⟨w, hw, hserves, hkeeps⟩ := hlibc.free t.memory live p ht.serves hp
    change Sat (dealloc libc t p) _
    rw [dealloc, if_neg hp0, hw]
    exact Sat.ok ⟨⟨hserves, (ht.counts.erase hp).2⟩, hkeeps⟩
  write t live p k offset bytes ht hp hle := by
    obtain ⟨hserves, hkeeps, hwritten⟩ :=
      hlibc.write t.memory live p k offset bytes ht.serves hp hle
    exact ⟨⟨hserves, ht.counts⟩, hkeeps, hwritten⟩

end TestAllocator
end K4c
