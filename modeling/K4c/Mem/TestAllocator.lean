import Mathlib.Tactic
import K4c.Mem.Backend

/-!
# The test allocator

`k4c_test_allocator` passes every request on to libc and counts what it did; it can
be told to fail.  Its counters are `size_t` values and wrap around.

`TestAllocator.conforms` — over a libc that conforms, its operations conform too,
whatever the counters say, and releasing `NULL` does nothing.
-/

namespace K4c

open Exec

/-- `k4c_test_allocator`, with the memory of the libc behind it. -/
structure TestAllocator (ν : Type) where
  allocCount : ℕ
  reallocCount : ℕ
  deallocCount : ℕ
  outstandingAllocations : ℕ
  failedAllocations : ℕ
  failAfter : ℕ
  memory : ν

namespace TestAllocator

variable {ν : Type}

/-- `K4C_TEST_ALLOCATOR_NO_FAILURE`. -/
def noFailure : ℕ := sizeMax

/-- `n += 1` in `size_t`. -/
def increment (n : ℕ) : ℕ := (n + 1) % (sizeMax + 1)

/-- `k4c_test_allocator_should_fail`. -/
def shouldFail (t : TestAllocator ν) : Bool × TestAllocator ν :=
  if t.failAfter = noFailure then (false, t)
  else if t.failAfter = 0 then
    (true, { t with failedAllocations := increment t.failedAllocations })
  else (false, { t with failAfter := t.failAfter - 1 })

/-- `k4c_test_allocator_alloc`. -/
def alloc (libc : Libc ν) (t : TestAllocator ν) (size : ℕ) : Result (ℕ × TestAllocator ν) :=
  match shouldFail t with
  | (true, t) => .ok (0, t)
  | (false, t) => do
    let (ptr, memory) ← libc.malloc t.memory size
    if ptr = 0 then
      return (0, { t with memory, failedAllocations := increment t.failedAllocations })
    return (ptr, { t with
      memory
      allocCount := increment t.allocCount
      outstandingAllocations := increment t.outstandingAllocations })

/-- `k4c_test_allocator_dealloc`. -/
def dealloc (libc : Libc ν) (t : TestAllocator ν) (ptr : ℕ) : Result (TestAllocator ν) :=
  if ptr = 0 then .ok t
  else do
    let memory ← libc.free t.memory ptr
    return { t with
      memory
      deallocCount := increment t.deallocCount
      outstandingAllocations := t.outstandingAllocations - 1 }

/-- `k4c_test_allocator_realloc`. -/
def realloc (libc : Libc ν) (t : TestAllocator ν) (ptr size : ℕ) :
    Result (ℕ × TestAllocator ν) :=
  if ptr = 0 then alloc libc t size
  else if size = 0 then do return (0, ← dealloc libc t ptr)
  else
    match shouldFail t with
    | (true, t) => .ok (0, t)
    | (false, t) => do
      let (newPtr, memory) ← libc.realloc t.memory ptr size
      if newPtr = 0 then
        return (0, { t with memory, failedAllocations := increment t.failedAllocations })
      return (newPtr, { t with memory, reallocCount := increment t.reallocCount })

/-- The allocator value of `k4c_test_allocator_init`. -/
def allocatorView (libc : Libc ν) : Allocator (TestAllocator ν) where
  features := { dealloc := true, realloc := true, reset := false }
  vtable := some
    { alloc := some (alloc libc), resize := some (realloc libc), dealloc := some (dealloc libc) }

/-- The test allocator after `k4c_test_allocator_init`. -/
def init (memory : ν) : TestAllocator ν := ⟨0, 0, 0, 0, 0, noFailure, memory⟩

/-- `k4c_test_allocator_reset_counts`. -/
def resetCounts (t : TestAllocator ν) : TestAllocator ν :=
  { t with allocCount := 0, reallocCount := 0, deallocCount := 0, failedAllocations := 0 }

/-- `k4c_test_allocator_is_clean`. -/
def isClean (t : TestAllocator ν) : Bool := t.outstandingAllocations == 0

/-! ## The contract -/

/-- Its operations, by the names of libc. -/
def operations (libc : Libc ν) : Libc (TestAllocator ν) := ⟨alloc libc, realloc libc, dealloc libc⟩

/-- The view of the memory behind it. -/
def window (view : Backend.Window ν) : Backend.Window (TestAllocator ν) where
  read t := view.read t.memory
  write t addr bytes := { t with memory := view.write t.memory addr bytes }

theorem shouldFail_memory (t : TestAllocator ν) : (shouldFail t).2.memory = t.memory := by
  unfold shouldFail
  split
  · rfl
  · split
    · rfl
    · rfl

theorem reaches (libc : Libc ν) (libc' : Libc (TestAllocator ν)) :
    Backend.Reaches libc' (some (allocatorView libc)) (operations libc) where
  alloc _ _ := rfl
  resize _ _ size hsize := by
    rw [Allocator.resize, if_neg hsize]
    rfl
  dealloc _ _ := rfl

section Conforms

open Backend

variable {view : Window ν} {serves : ν → Live → Prop} {libc : Libc ν}

/-- The live blocks of a test allocator are those of the libc behind it. -/
def Serving (serves : ν → Live → Prop) (t : TestAllocator ν) (live : Live) : Prop :=
  serves t.memory live

theorem alloc_spec (hlibc : Conforms view serves libc) {t : TestAllocator ν} {live : Live}
    {size : ℕ} (ht : Serving serves t live) (hsize : 0 < size) :
    Sat (alloc libc t size) (Handed (window view) (Serving serves) t live size) := by
  unfold alloc
  have hmemory := shouldFail_memory t
  rcases hfail : shouldFail t with ⟨fails, t₁⟩
  rw [hfail] at hmemory
  dsimp only at hmemory ⊢
  cases fails with
  | true =>
    refine Sat.ok (.refused ?_ fun q m hq i hi => ?_)
    · rwa [Serving, hmemory]
    · simp only [window, hmemory]
  | false =>
    obtain ⟨r, hr, hhanded⟩ := hlibc.malloc t.memory live size ht hsize
    dsimp only
    rw [hmemory, hr, ok_bind]
    cases hhanded with
    | refused hserves hkeeps => exact Sat.ok (.refused hserves hkeeps)
    | granted hp hnew hserves hkeeps =>
      rw [if_neg hp]
      exact Sat.ok (.granted hp hnew hserves hkeeps)

theorem realloc_spec (hlibc : Conforms view serves libc) {t : TestAllocator ν} {live : Live}
    {p k size : ℕ} (ht : Serving serves t live) (hp : live p = some k) (hsize : 0 < size) :
    Sat (realloc libc t p size) (Resized (window view) (Serving serves) t live p k size) := by
  have hp0 : p ≠ 0 := by
    rintro rfl
    rw [hlibc.null t.memory live ht] at hp
    cases hp
  unfold realloc
  rw [if_neg hp0, if_neg (by omega)]
  have hmemory := shouldFail_memory t
  rcases hfail : shouldFail t with ⟨fails, t₁⟩
  rw [hfail] at hmemory
  dsimp only at hmemory ⊢
  cases fails with
  | true =>
    refine Sat.ok (.refused ?_ fun q m hq i hi => ?_)
    · rwa [Serving, hmemory]
    · simp only [window, hmemory]
  | false =>
    obtain ⟨r, hr, hresized⟩ := hlibc.realloc t.memory live p k size ht hp hsize
    dsimp only
    rw [hmemory, hr, ok_bind]
    cases hresized with
    | refused hserves hkeeps => exact Sat.ok (.refused hserves hkeeps)
    | granted hq hnew hserves hkeeps hcopied =>
      rw [if_neg hq]
      exact Sat.ok (.granted hq hnew hserves hkeeps hcopied)

/-- **The test allocator conforms** when its libc does. -/
theorem conforms (hlibc : Conforms view serves libc) :
    Conforms (window view) (Serving serves) (operations libc) where
  null t live ht := hlibc.null t.memory live ht
  malloc t live size ht hsize := alloc_spec hlibc ht hsize
  realloc_null t live size ht hsize := by
    change Sat (realloc libc t 0 size) _
    rw [realloc, if_pos rfl]
    exact alloc_spec hlibc ht hsize
  realloc t live p k size ht hp hsize := realloc_spec hlibc ht hp hsize
  free t live p ht hp := by
    have hp0 : p ≠ 0 := by
      rintro rfl
      exact hp (hlibc.null t.memory live ht)
    obtain ⟨w, hw, hserves, hkeeps⟩ := hlibc.free t.memory live p ht hp
    change Sat (dealloc libc t p) _
    rw [dealloc, if_neg hp0, hw]
    exact Sat.ok ⟨hserves, hkeeps⟩
  write t live p k offset bytes ht hp hle := hlibc.write t.memory live p k offset bytes ht hp hle

/-- It takes `NULL` back. -/
theorem freesNull (libc : Libc ν) :
    FreesNull (window view) (Serving serves) (operations libc) := by
  intro t live ht
  exact Sat.ok ⟨ht, fun _ _ _ _ _ => rfl⟩

end Conforms

end TestAllocator
end K4c
