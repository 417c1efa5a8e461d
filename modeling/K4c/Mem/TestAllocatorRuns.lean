import Mathlib.Tactic
import Mathlib.Data.Finset.Card
import K4c.Lib.Runs
import K4c.Mem.Ram
import K4c.Mem.TestAllocator

/-!
# The verdict of the test allocator

A client allocates, resizes and releases through the view, on `NULL` or on blocks it
holds, and resets the counters in between.  The libc behind the view may fail, and keeps
a log of what it is asked.

* `Documented` — what libc does: a new pointer is not one of the live blocks.
* `Client`, `step` — the client, with the set of the blocks it holds.
* `Call.attempt` — the request of a call that counts: every allocation and every resize
  to a size other than zero, whether the block grows or not.
* `Trusted` — what the counters say in a state; `step_spec` — one call keeps the facts
  behind it.
* `verdict` — **the verdict** can be trusted after every run.
-/

namespace K4c.TestAllocator

open Exec Runs

/-! ## What libc is asked -/

/-- One call of `malloc`, `realloc` or `free`. -/
inductive Request where
  | malloc (size : ℕ)
  | realloc (ptr size : ℕ)
  | free (ptr : ℕ)
  deriving DecidableEq, Repr

/-- It asks for memory. -/
def Request.asks : Request → Bool
  | .malloc _ => true
  | .realloc _ _ => true
  | .free _ => false

variable {ν : Type}

/-- A libc that keeps a log. -/
def recorded (libc : Libc ν) : Libc (ν × List Request) where
  malloc w size := do
    let (p, memory) ← libc.malloc w.1 size
    return (p, (memory, w.2 ++ [.malloc size]))
  realloc w ptr size := do
    let (p, memory) ← libc.realloc w.1 ptr size
    return (p, (memory, w.2 ++ [.realloc ptr size]))
  free w ptr := do
    let memory ← libc.free w.1 ptr
    return (memory, w.2 ++ [.free ptr])

/-- A pointer in place of `old`, or none; then the live blocks are the same ones. -/
def Given (serves : ν → Finset ℕ → Prop) (live old : Finset ℕ) (r : ℕ × ν) : Prop :=
  (r.1 = 0 ∧ serves r.2 live) ∨ (r.1 ≠ 0 ∧ r.1 ∉ old ∧ serves r.2 (insert r.1 old))

/-- What is documented of libc, for a memory that serves a set of live blocks: each of
them has an address, a new one is none of the others, and a request for memory may fail. -/
structure Documented (serves : ν → Finset ℕ → Prop) (libc : Libc ν) : Prop where
  address : ∀ w live p, serves w live → p ∈ live → p ≠ 0 ∧ p ≤ sizeMax
  malloc : ∀ w live size, serves w live → Sat (libc.malloc w size) (Given serves live live)
  realloc : ∀ w live p size, serves w live → p ∈ live → size ≠ 0 →
    Sat (libc.realloc w p size) (Given serves live (live.erase p))
  free : ∀ w live p, serves w live → p ∈ live →
    Sat (libc.free w p) fun w' => serves w' (live.erase p)

/-! ## The client -/

/-- The test allocator, and the blocks that were handed out and not released. -/
structure Client (ν : Type) where
  tester : TestAllocator (ν × List Request)
  live : Finset ℕ

/-- A call of the client. -/
inductive Call where
  | alloc (size : ℕ)
  | resize (ptr size : ℕ)
  | dealloc (ptr : ℕ)
  | resetCounts
  deriving DecidableEq, Repr

namespace Client

/-- What libc was asked so far. -/
def requests (s : Client ν) : List Request := s.tester.memory.2

/-- The pointers are `NULL` or live. -/
def Allowed (s : Client ν) : Call → Prop
  | .alloc _ => True
  | .resize ptr _ => ptr = 0 ∨ ptr ∈ s.live
  | .dealloc ptr => ptr = 0 ∨ ptr ∈ s.live
  | .resetCounts => True

instance (s : Client ν) (call : Call) : Decidable (s.Allowed call) := by
  cases call <;> unfold Allowed <;> infer_instance

/-- The client after `k4c_test_allocator_init`, with `fail_after` set. -/
def start (w : ν) (failAfter : ℕ) : Client ν := ⟨{ init (w, []) with failAfter }, ∅⟩

/-- The state after an attempt that was refused before it reached libc. -/
def refused (s : Client ν) : Client ν :=
  { s with tester := { s.tester with failedAllocations := increment s.tester.failedAllocations } }

/-- One call, through the view. -/
def step (libc : Libc ν) (s : Client ν) : Call → Result ((Status × ℕ) × Client ν)
  | .alloc size => do
    let ((st, p), tester) ← Allocator.alloc (operations (recorded libc))
      (some (allocatorView (recorded libc))) s.tester size
    return ((st, p), ⟨tester, if st = .ok then insert p s.live else s.live⟩)
  | .resize ptr size => do
    let ((st, p), tester) ← Allocator.resize (operations (recorded libc))
      (some (allocatorView (recorded libc))) s.tester ptr size
    return ((st, p), ⟨tester, if size = 0 then s.live.erase ptr
      else if st = .ok then insert p (s.live.erase ptr) else s.live⟩)
  | .dealloc ptr => do
    let tester ← Allocator.dealloc (operations (recorded libc))
      (some (allocatorView (recorded libc))) s.tester ptr
    return ((.ok, 0), ⟨tester, s.live.erase ptr⟩)
  | .resetCounts => .ok ((.ok, 0), ⟨s.tester.resetCounts, s.live⟩)

end Client

/-- The request of a call that is an attempt. -/
def Call.attempt : Call → Option Request
  | .alloc size => some (.malloc size)
  | .resize ptr size =>
    if size = 0 then none else if ptr = 0 then some (.malloc size) else some (.realloc ptr size)
  | .dealloc _ => none
  | .resetCounts => none

variable {serves : ν → Finset ℕ → Prop} {libc : Libc ν} {N : ℕ} {attempts : List Request}
  {s : Client ν} {t : TestAllocator ν} {w : ν} {live : Finset ℕ} {r : Request} {ptr size : ℕ}

/-! ## The budget -/

/-- The budget after an attempt that it allowed. -/
def spent (failAfter : ℕ) : ℕ := if failAfter = noFailure then noFailure else failAfter - 1

theorem shouldFail_refuses (h : t.failAfter = 0) :
    shouldFail t = (true, { t with failedAllocations := increment t.failedAllocations }) := by
  simp [shouldFail, h, noFailure, sizeMax]

theorem shouldFail_passes (h : t.failAfter ≠ 0) :
    shouldFail t = (false, { t with failAfter := spent t.failAfter }) := by
  rw [shouldFail, spent]
  by_cases hnever : t.failAfter = noFailure
  · rw [if_pos hnever, if_pos hnever, ← hnever]
  · rw [if_neg hnever, if_neg h, if_neg hnever]

/-! ## Counting -/

/-- The addresses of a process are enough for a count of blocks. -/
theorem Documented.card_le (hlibc : Documented serves libc) (h : serves w live) :
    live.card ≤ sizeMax := by
  have hsub : live ⊆ Finset.Icc 1 sizeMax := by
    intro p hp
    obtain ⟨hpos, hle⟩ := hlibc.address w live p h hp
    exact Finset.mem_Icc.2 ⟨Nat.one_le_iff_ne_zero.2 hpos, hle⟩
  simpa using Finset.card_le_card hsub

theorem Documented.increment_card (hlibc : Documented serves libc) {p : ℕ} (hp : p ∉ live)
    (h : serves w (insert p live)) : increment live.card = (insert p live).card := by
  have hle := hlibc.card_le h
  rw [Finset.card_insert_of_notMem hp] at hle ⊢
  rw [increment, Nat.mod_eq_of_lt (Nat.lt_succ_of_le hle)]

/-- What the fields of the test allocator and the log say after these attempts. -/
structure Inv (serves : ν → Finset ℕ → Prop) (N : ℕ) (attempts : List Request)
    (s : Client ν) : Prop where
  serves : serves s.tester.memory.1 s.live
  outstanding : s.tester.outstandingAllocations = s.live.card
  budget : s.tester.failAfter = if N = noFailure then noFailure else N - attempts.length
  reached : s.requests.filter Request.asks =
    if N = noFailure then attempts else attempts.take N

namespace Inv

theorem start (h : serves w ∅) : Inv serves N [] (Client.start w N) := by
  refine ⟨h, rfl, ?_, ?_⟩
  · simp only [Client.start, List.length_nil, Nat.sub_zero]
    split
    · assumption
    · rfl
  · simp [Client.start, Client.requests, init]

/-- The budget is used up. -/
theorem failAfter_eq_zero (h : Inv serves N attempts s) :
    s.tester.failAfter = 0 ↔ N ≠ noFailure ∧ N ≤ attempts.length := by
  rw [h.budget]
  by_cases hN : N = noFailure
  · simp [hN, noFailure, sizeMax]
  · simp [hN, Nat.sub_eq_zero_iff_le]

/-- An attempt that is refused. -/
theorem refused (h : Inv serves N attempts s) (hfail : s.tester.failAfter = 0) (r : Request) :
    Inv serves N (attempts ++ [r]) s.refused := by
  obtain ⟨hN, hle⟩ := h.failAfter_eq_zero.1 hfail
  refine ⟨h.serves, h.outstanding, ?_, ?_⟩
  · have hbudget := h.budget
    rw [if_neg hN] at hbudget ⊢
    rw [List.length_append, List.length_singleton]
    change s.tester.failAfter = _
    omega
  · have hreached := h.reached
    rw [if_neg hN] at hreached ⊢
    rw [List.take_append_of_le_length hle]
    exact hreached

/-- An attempt that reaches libc. -/
theorem passed (h : Inv serves N attempts s) (hN : N ≤ sizeMax) (hleft : s.tester.failAfter ≠ 0)
    (hasks : r.asks = true) {t' : TestAllocator (ν × List Request)}
    (hmemory : t'.memory = (w, s.requests ++ [r]))
    (hbudget : t'.failAfter = spent s.tester.failAfter) (hserves : serves w live)
    (hcount : t'.outstandingAllocations = live.card) :
    Inv serves N (attempts ++ [r]) ⟨t', live⟩ := by
  have hlt : N ≠ noFailure → attempts.length < N := by
    intro hne
    by_contra hge
    exact hleft (h.failAfter_eq_zero.2 ⟨hne, by omega⟩)
  refine ⟨?_, hcount, ?_, ?_⟩
  · dsimp only
    rw [hmemory]
    exact hserves
  · dsimp only
    rw [hbudget, spent, h.budget]
    by_cases hne : N = noFailure
    · simp [hne]
    · have hsmall : N - attempts.length ≠ noFailure := by
        unfold noFailure at *
        omega
      rw [if_neg hne, if_neg hsmall, if_neg hne, List.length_append, List.length_singleton]
      omega
  · have hlog : Client.requests ⟨t', live⟩ = s.requests ++ [r] := by rw [Client.requests, hmemory]
    have hreached := h.reached
    rw [hlog, List.filter_append, hreached]
    by_cases hne : N = noFailure
    · simp [hne, hasks]
    · have hlen := hlt hne
      rw [if_neg hne, if_neg hne, List.take_of_length_le hlen.le,
        List.take_of_length_le (by simpa using hlen)]
      simp [hasks]

/-- `alloc` is an attempt, and a block that it returns is a new one. -/
theorem alloc (hlibc : Documented serves libc) (hN : N ≤ sizeMax) (h : Inv serves N attempts s)
    (size : ℕ) :
    Sat (TestAllocator.alloc (recorded libc) s.tester size) fun q =>
      Inv serves N (attempts ++ [.malloc size])
        ⟨q.2, if q.1 = 0 then s.live else insert q.1 s.live⟩ := by
  by_cases hfail : s.tester.failAfter = 0
  · rw [TestAllocator.alloc, shouldFail_refuses hfail]
    exact Sat.ok (h.refused hfail _)
  obtain ⟨⟨p, w⟩, hmalloc, hgiven⟩ := hlibc.malloc _ _ size h.serves
  have hrecorded : (recorded libc).malloc s.tester.memory size =
      .ok (p, (w, s.requests ++ [.malloc size])) := by
    change (libc.malloc s.tester.memory.1 size >>= _) = _
    rw [hmalloc]
    rfl
  rw [TestAllocator.alloc, shouldFail_passes hfail]
  dsimp only
  rw [hrecorded, ok_bind]
  rcases hgiven with ⟨hp, hserves⟩ | ⟨hp, hnew, hserves⟩
  · dsimp only at hp ⊢
    rw [if_pos hp]
    exact Sat.ok (h.passed hN hfail rfl rfl rfl hserves h.outstanding)
  · dsimp only at hp hnew hserves ⊢
    rw [if_neg hp]
    refine Sat.ok ?_
    dsimp only
    rw [if_neg hp]
    refine h.passed hN hfail rfl rfl rfl hserves ?_
    dsimp only
    rw [h.outstanding, hlibc.increment_card hnew hserves]

/-- `realloc` of a live block is an attempt; it fails and the block stays, or another
block takes its place. -/
theorem realloc (hlibc : Documented serves libc) (hN : N ≤ sizeMax)
    (h : Inv serves N attempts s) (hptr : ptr ∈ s.live) (hsize : size ≠ 0) :
    Sat (TestAllocator.realloc (recorded libc) s.tester ptr size) fun q =>
      Inv serves N (attempts ++ [.realloc ptr size])
        ⟨q.2, if q.1 = 0 then s.live else insert q.1 (s.live.erase ptr)⟩ ∧
      q.2.outstandingAllocations = s.tester.outstandingAllocations := by
  have hne : ptr ≠ 0 := (hlibc.address _ _ _ h.serves hptr).1
  rw [TestAllocator.realloc, if_neg hne, if_neg hsize]
  by_cases hfail : s.tester.failAfter = 0
  · rw [shouldFail_refuses hfail]
    exact Sat.ok ⟨h.refused hfail _, rfl⟩
  obtain ⟨⟨p, w⟩, hrealloc, hgiven⟩ := hlibc.realloc _ _ ptr size h.serves hptr hsize
  have hrecorded : (recorded libc).realloc s.tester.memory ptr size =
      .ok (p, (w, s.requests ++ [.realloc ptr size])) := by
    change (libc.realloc s.tester.memory.1 ptr size >>= _) = _
    rw [hrealloc]
    rfl
  rw [shouldFail_passes hfail]
  dsimp only
  rw [hrecorded, ok_bind]
  rcases hgiven with ⟨hp, hserves⟩ | ⟨hp, hnew, hserves⟩
  · dsimp only at hp ⊢
    rw [if_pos hp]
    exact Sat.ok ⟨h.passed hN hfail rfl rfl rfl hserves h.outstanding, rfl⟩
  · dsimp only at hp hnew hserves ⊢
    rw [if_neg hp]
    refine Sat.ok ⟨?_, rfl⟩
    dsimp only
    rw [if_neg hp]
    refine h.passed hN hfail rfl rfl rfl hserves ?_
    dsimp only
    rw [h.outstanding, Finset.card_insert_of_notMem hnew, Finset.card_erase_add_one hptr]

/-- `dealloc` is no attempt. -/
theorem dealloc (hlibc : Documented serves libc) (h : Inv serves N attempts s)
    (hptr : ptr = 0 ∨ ptr ∈ s.live) :
    Sat (TestAllocator.dealloc (recorded libc) s.tester ptr) fun t =>
      Inv serves N attempts ⟨t, s.live.erase ptr⟩ := by
  have hnull : 0 ∉ s.live := fun hmem => (hlibc.address _ _ _ h.serves hmem).1 rfl
  rw [TestAllocator.dealloc]
  by_cases hzero : ptr = 0
  · subst hzero
    rw [if_pos rfl, Finset.erase_eq_of_notMem hnull]
    exact Sat.ok h
  have hlive : ptr ∈ s.live := hptr.resolve_left hzero
  obtain ⟨w, hfree, hserves⟩ := hlibc.free _ _ ptr h.serves hlive
  have hrecorded : (recorded libc).free s.tester.memory ptr =
      .ok (w, s.requests ++ [.free ptr]) := by
    change (libc.free s.tester.memory.1 ptr >>= _) = _
    rw [hfree]
    rfl
  rw [if_neg hzero, hrecorded, ok_bind]
  refine Sat.ok ⟨hserves, ?_, h.budget, ?_⟩
  · dsimp only
    rw [h.outstanding, Finset.card_erase_of_mem hlive]
  · change (s.requests ++ [Request.free ptr]).filter Request.asks = _
    rw [List.filter_append, h.reached]
    simp [Request.asks]

end Inv

/-! ## One call -/

namespace Client

/-- The blocks that a client holds after a request that came back with this pointer. -/
theorem live_of_answer (q : ℕ × TestAllocator (ν × List Request)) (live old : Finset ℕ) :
    (if (Allocator.answer q).1.1 = .ok then insert (Allocator.answer q).1.2 old else live) =
      if q.1 = 0 then live else insert q.1 old := by
  by_cases hq : q.1 = 0
  · simp [Allocator.answer, hq]
  · simp [Allocator.answer, hq]

theorem tester_of_answer (q : ℕ × TestAllocator (ν × List Request)) :
    (Allocator.answer q).2 = q.2 := by
  rw [Allocator.answer]
  split <;> rfl

/-- An allocation through the view. -/
theorem step_alloc {q : ℕ × TestAllocator (ν × List Request)}
    (h : TestAllocator.alloc (recorded libc) s.tester size = .ok q) :
    step libc s (.alloc size) = .ok ((Allocator.answer q).1,
      ⟨q.2, if q.1 = 0 then s.live else insert q.1 s.live⟩) := by
  have halloc := (reaches (recorded libc) (operations (recorded libc))).alloc s.tester size
  have hmalloc : (operations (recorded libc)).malloc s.tester size = .ok q := h
  rw [hmalloc, ok_bind] at halloc
  rw [step, halloc, ok_bind]
  dsimp only
  rw [live_of_answer, tester_of_answer]
  rfl

/-- A resize through the view, to a size other than zero. -/
theorem step_resize {q : ℕ × TestAllocator (ν × List Request)} (hsize : size ≠ 0)
    (h : TestAllocator.realloc (recorded libc) s.tester ptr size = .ok q) :
    step libc s (.resize ptr size) = .ok ((Allocator.answer q).1,
      ⟨q.2, if q.1 = 0 then s.live else insert q.1 (s.live.erase ptr)⟩) := by
  have hresize := (reaches (recorded libc) (operations (recorded libc))).resize s.tester ptr size
    hsize
  have hrealloc : (operations (recorded libc)).realloc s.tester ptr size = .ok q := h
  rw [hrealloc, ok_bind] at hresize
  rw [step, hresize, ok_bind]
  dsimp only
  rw [if_neg hsize, live_of_answer, tester_of_answer]
  rfl

/-- A release through the view. -/
theorem step_dealloc (libc : Libc ν) (s : Client ν) (ptr : ℕ) : step libc s (.dealloc ptr) =
    (TestAllocator.dealloc (recorded libc) s.tester ptr >>= fun t =>
      .ok ((.ok, 0), ⟨t, s.live.erase ptr⟩)) := rfl

/-- A resize to zero through the view releases. -/
theorem step_resize_zero (libc : Libc ν) (s : Client ν) (ptr : ℕ) :
    step libc s (.resize ptr 0) = step libc s (.dealloc ptr) := by
  have hresize : Allocator.resize (operations (recorded libc))
      (some (allocatorView (recorded libc))) s.tester ptr 0 =
        (TestAllocator.dealloc (recorded libc) s.tester ptr >>= fun t => .ok ((Status.ok, 0), t)) :=
    rfl
  rw [step_dealloc, step, hresize]
  cases TestAllocator.dealloc (recorded libc) s.tester ptr with
  | error e => rfl
  | ok t => rfl

theorem dealloc_spec (hlibc : Documented serves libc) (h : Inv serves N attempts s)
    (hptr : ptr = 0 ∨ ptr ∈ s.live) :
    Sat (step libc s (.dealloc ptr)) fun q =>
      Inv serves N attempts q.2 ∧ q.2.live = s.live.erase ptr := by
  rw [step_dealloc]
  exact (h.dealloc hlibc hptr).bind fun t ht => Sat.ok ⟨ht, rfl⟩

/-- A resize of a live block keeps the number of blocks; if it fails, the block stays. -/
theorem resize_spec (hlibc : Documented serves libc) (hN : N ≤ sizeMax)
    (h : Inv serves N attempts s) (hptr : ptr ∈ s.live) (hsize : size ≠ 0) :
    Sat (step libc s (.resize ptr size)) fun q =>
      Inv serves N (attempts ++ [.realloc ptr size]) q.2 ∧
      q.2.tester.outstandingAllocations = s.tester.outstandingAllocations ∧
      (q.1.1 ≠ .ok → q.2.live = s.live) := by
  obtain ⟨q, hrealloc, h', hcount⟩ := h.realloc hlibc hN hptr hsize
  rw [step_resize hsize hrealloc]
  refine Sat.ok ⟨h', hcount, fun hst => ?_⟩
  by_cases hq : q.1 = 0
  · exact if_pos hq
  · simp [Allocator.answer, hq] at hst

/-- **One call** keeps the invariant, and it is one attempt or none. -/
theorem step_spec (hlibc : Documented serves libc) (hN : N ≤ sizeMax)
    (h : Inv serves N attempts s) {call : Call} (hcall : s.Allowed call) :
    Sat (step libc s call) fun q =>
      Inv serves N (attempts ++ call.attempt.toList) q.2 := by
  have hnull : 0 ∉ s.live := fun hmem => (hlibc.address _ _ _ h.serves hmem).1 rfl
  have hnone : attempts ++ none.toList = attempts := List.append_nil _
  cases call with
  | alloc size =>
    obtain ⟨q, halloc, h'⟩ := h.alloc hlibc hN size
    rw [step_alloc halloc]
    exact Sat.ok h'
  | resize ptr size =>
    rw [Call.attempt]
    by_cases hsize : size = 0
    · subst hsize
      rw [if_pos rfl, hnone, step_resize_zero]
      exact (dealloc_spec hlibc h hcall).mono fun q hq => hq.1
    rw [if_neg hsize]
    by_cases hzero : ptr = 0
    · -- it acts as an allocation
      subst hzero
      obtain ⟨q, halloc, h'⟩ := h.alloc hlibc hN size
      have hrealloc : TestAllocator.realloc (recorded libc) s.tester 0 size = .ok q := by
        rw [TestAllocator.realloc, if_pos rfl, halloc]
      rw [if_pos rfl, step_resize hsize hrealloc, Finset.erase_eq_of_notMem hnull]
      exact Sat.ok h'
    · rw [if_neg hzero]
      exact (resize_spec hlibc hN h (hcall.resolve_left hzero) hsize).mono fun q hq => hq.1
  | dealloc ptr =>
    rw [Call.attempt, hnone]
    exact (dealloc_spec hlibc h hcall).mono fun q hq => hq.1
  | resetCounts =>
    rw [Call.attempt, hnone]
    exact Sat.ok ⟨h.serves, h.outstanding, h.budget, h.reached⟩

/-- An attempt without a budget fails, and libc is not asked. -/
theorem step_refused (libc : Libc ν) (h : Inv serves N attempts s) (hN : N ≠ noFailure)
    (hle : N ≤ attempts.length) {call : Call} (hattempt : call.attempt = some r) :
    step libc s call = .ok ((.noMemory, 0), s.refused) := by
  have hfail : s.tester.failAfter = 0 := h.failAfter_eq_zero.2 ⟨hN, hle⟩
  have halloc : ∀ size, TestAllocator.alloc (recorded libc) s.tester size =
      .ok (0, s.refused.tester) := by
    intro size
    rw [TestAllocator.alloc, shouldFail_refuses hfail]
    rfl
  cases call with
  | alloc size => exact step_alloc (halloc size)
  | resize ptr size =>
    rw [Call.attempt] at hattempt
    by_cases hsize : size = 0
    · simp [hsize] at hattempt
    have hrealloc : TestAllocator.realloc (recorded libc) s.tester ptr size =
        .ok (0, s.refused.tester) := by
      rw [TestAllocator.realloc]
      by_cases hzero : ptr = 0
      · rw [if_pos hzero, halloc]
      · rw [if_neg hzero, if_neg hsize, shouldFail_refuses hfail]
        rfl
    exact step_resize hsize hrealloc
  | dealloc ptr => cases hattempt
  | resetCounts => cases hattempt

end Client

/-! ## The verdict -/

/-- What the counters say after calls with these attempts.  The outstanding allocations
are the blocks that were handed out and not released: a resize keeps their number, and one
that fails keeps the block; a resize to zero releases it.  Under a budget of `N` the first
`N` attempts reached libc, and every later one fails. -/
structure Trusted (libc : Libc ν) (N : ℕ) (attempts : List Request) (s : Client ν) : Prop where
  outstanding : s.tester.outstandingAllocations = s.live.card
  clean : s.tester.isClean = true ↔ s.live = ∅
  resized : ∀ ptr ∈ s.live, ∀ size ≠ 0, Sat (Client.step libc s (.resize ptr size)) fun q =>
    q.2.tester.outstandingAllocations = s.tester.outstandingAllocations ∧
      (q.1.1 ≠ .ok → q.2.live = s.live)
  released : ∀ ptr ∈ s.live, Sat (Client.step libc s (.resize ptr 0)) fun q =>
    q.2.tester.outstandingAllocations + 1 = s.tester.outstandingAllocations ∧
      q.2.live = s.live.erase ptr
  reached : N ≠ noFailure → s.requests.filter Request.asks = attempts.take N
  refused : N ≠ noFailure → N ≤ attempts.length → ∀ call r, call.attempt = some r →
    Client.step libc s call = .ok ((.noMemory, 0), s.refused)

theorem Inv.trusted (hlibc : Documented serves libc) (hN : N ≤ sizeMax)
    (h : Inv serves N attempts s) : Trusted libc N attempts s where
  outstanding := h.outstanding
  clean := by simp [isClean, h.outstanding]
  resized ptr hptr size hsize :=
    (Client.resize_spec hlibc hN h hptr hsize).mono fun q hq => hq.2
  released ptr hptr := by
    rw [Client.step_resize_zero]
    refine (Client.dealloc_spec hlibc h (.inr hptr)).mono ?_
    rintro q ⟨h', hlive⟩
    refine ⟨?_, hlive⟩
    rw [h'.outstanding, hlive, h.outstanding, Finset.card_erase_add_one hptr]
  reached hne := by rw [h.reached, if_neg hne]
  refused hne hle _ _ hattempt := Client.step_refused libc h hne hle hattempt

/-- **The verdict can be trusted** after every run of calls on `NULL` or live pointers,
over a libc that may fail, with the counters reset in between or not. -/
theorem verdict (hlibc : Documented serves libc) (hw : serves w ∅) (hN : N ≤ sizeMax)
    (calls : List Call) (halong : Along (Client.step libc) Client.Allowed (.start w N) calls) :
    Sat (trace (Client.step libc) (.start w N) calls) fun p =>
      Trusted libc N (calls.filterMap Call.attempt) p.2 := by
  have hrun := trace_inv_history (P := Client.Allowed)
    (I := fun h s => Inv serves N ((h.map Prod.fst).filterMap Call.attempt) s)
    (fun h s call hs hcall => by
      refine (Client.step_spec hlibc hN hs hcall).mono fun q hq => ?_
      rw [List.map_append, List.filterMap_append]
      cases hattempt : call.attempt with
      | none => simpa [hattempt] using hq
      | some r => simpa [hattempt] using hq)
    calls [] (.start w N) (Inv.start hw) halong
  refine hrun.mono ?_
  rintro p ⟨hlen, hinv⟩
  rw [List.nil_append, List.map_fst_zip hlen.ge] at hinv
  exact hinv.trusted hlibc hN

section Example

open Backend

/-- The blocks of a memory that is never used twice. -/
structure Holding (w : Ram) (live : Finset ℕ) : Prop where
  next_pos : 0 < w.next
  live_iff : ∀ p, p ∈ live ↔ w.live p ≠ none
  inside : ∀ p ∈ live, 0 < p ∧ p < 32 * w.next ∧ p ≤ sizeMax

variable {v : Ram} {held : Finset ℕ}

theorem Holding.erase (h : Holding v held) (p : ℕ) :
    Holding { v with live := Function.update v.live p none } (held.erase p) where
  next_pos := h.next_pos
  live_iff q := by
    by_cases hq : q = p
    · simp [hq]
    · simp [hq, h.live_iff]
  inside q hq := h.inside q (Finset.mem_of_mem_erase hq)

theorem Holding.insert (h : Holding v held) (hfits : 32 * v.next + size ≤ sizeMax)
    (bytes : Words.Memory) :
    Holding ⟨bytes, Function.update v.live (32 * v.next) (some size), v.next + size / 32 + 1⟩
      (insert (32 * v.next) held) where
  next_pos := Nat.succ_pos _
  live_iff q := by
    by_cases hq : q = 32 * v.next
    · simp [hq]
    · simp [hq, h.live_iff]
  inside q hq := by
    have hpos := h.next_pos
    rcases Finset.mem_insert.1 hq with rfl | hq
    · dsimp only
      omega
    · have hin := h.inside q hq
      dsimp only
      omega

theorem Holding.fresh (h : Holding v held) : 32 * v.next ∉ held := by
  intro hmem
  have hin := h.inside _ hmem
  omega

theorem ram_documented : Documented Holding Ram.libc where
  address v held p h hp := ⟨(h.inside p hp).1.ne', (h.inside p hp).2.2⟩
  malloc v held size h := by
    have hpos := h.next_pos
    change Sat (Ram.malloc v size) _
    rw [Ram.malloc]
    split
    · rename_i hfits
      exact Sat.ok (.inr ⟨by omega, h.fresh, h.insert hfits v.bytes⟩)
    · exact Sat.ok (.inl ⟨rfl, h⟩)
  realloc v held p size h hp _ := by
    obtain ⟨k, hk⟩ := Option.ne_none_iff_exists'.1 ((h.live_iff p).1 hp)
    have hin := h.inside p hp
    change Sat (Ram.realloc v p size) _
    rw [Ram.realloc, if_neg (by omega), hk]
    dsimp only
    split
    · rename_i hfits
      exact Sat.ok (.inr ⟨by omega, (h.erase p).fresh, (h.erase p).insert hfits _⟩)
    · exact Sat.ok (.inl ⟨rfl, h⟩)
  free v held p h hp := by
    obtain ⟨k, hk⟩ := Option.ne_none_iff_exists'.1 ((h.live_iff p).1 hp)
    have hin := h.inside p hp
    change Sat (Ram.free v p) _
    rw [Ram.free, if_neg (by omega), hk]
    exact Sat.ok (h.erase p)

theorem holding_empty : Holding Ram.empty ∅ :=
  ⟨Nat.one_pos, by simp [Ram.empty], by simp⟩

/-- Two blocks, one of which is resized, and the counters are reset. -/
def tested : List Call :=
  [.alloc 100, .alloc 0, .resetCounts, .resize 32 300, .resize 0 5, .dealloc 160, .resize 192 0]

theorem verdict_tested :
    Sat (trace (Client.step Ram.libc) (.start Ram.empty 3) tested) fun p =>
      Trusted Ram.libc 3 (tested.filterMap Call.attempt) p.2 :=
  verdict ram_documented holding_empty (by decide) tested (by decide +kernel)

/-- The requests for a new block or for a larger one; `sizes` are those of the blocks. -/
def growths (sizes : ℕ → ℕ) : List (Call × (Status × ℕ)) → List Request
  | [] => []
  | (call, answer) :: rest =>
    let sizes' := if answer.1 = .ok then match call with
      | .alloc size => Function.update sizes answer.2 size
      | .resize ptr size => Function.update (Function.update sizes ptr 0) answer.2 size
      | _ => sizes
    else sizes
    let grows := match call with
      | .resize ptr size => decide (sizes ptr < size)
      | _ => true
    (if grows then call.attempt.toList else []) ++ growths sizes' rest

/-- Under a budget of two, a block is made smaller: the second allocation does not reach
libc. -/
theorem growths_not_first : ¬ ∀ calls,
    Along (Client.step Ram.libc) Client.Allowed (.start Ram.empty 2) calls →
      Sat (trace (Client.step Ram.libc) (.start Ram.empty 2) calls) fun p =>
        p.2.requests.filter Request.asks = (growths (fun _ => 0) (calls.zip p.1)).take 2 := by
  intro h
  have hshrunk := h [.alloc 100, .resize 32 50, .alloc 1] (by decide +kernel)
  revert hshrunk
  decide +kernel

end Example

end K4c.TestAllocator
