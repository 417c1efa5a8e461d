import Mathlib.Tactic
import K4c.Mem.HeapRuns

/-!
# When calls of the general heap fail

The failures of `alloc` and `resize` in terms of the blocks that are found along
the block list.

* `Room` — a free block of the list with room for a request.
* `RoomBehind` — the block directly behind one is free, and both together have
  room for a request.
* `failure_exact` — **failure is exact and atomic**: a request fails only if the
  size cannot be rounded up or nothing has room for it, and leaves everything as
  it was.
-/

namespace K4c
namespace Heap

open Exec Runs Words

/-- The block at `a` is a free block of the list with `n` payload bytes. -/
structure Room (h : Heap) (n a : ℕ) : Prop where
  mem_walk : a ∈ walk h
  isFree : blockIsFree h.mem a = true
  size_ge : n ≤ blockSize h.mem a

/-- The block behind the one at `a` is free, and merging the two gives `n`
payload bytes. -/
structure RoomBehind (h : Heap) (n a : ℕ) : Prop where
  exists_next : next h.mem a ≠ 0
  isFree : blockIsFree h.mem (next h.mem a) = true
  size_ge : n ≤ blockSize h.mem a + headerSize + blockSize h.mem (next h.mem a)

section Blocks

variable [Platform] {h : Heap} {bs pre post : List Block} {b : Block} {n a : ℕ}

theorem Holds.room_iff (hh : Holds h bs) :
    Room h n a ↔ ∃ b, (a, b) ∈ placed h.buffer bs ∧ Block.Fits n b := by
  constructor
  · rintro ⟨hwalk, hfree, hsize⟩
    rw [hh.walk_eq] at hwalk
    obtain ⟨b, hb⟩ := mem_starts.1 hwalk
    rw [(hh.headers a b hb).isFree_eq] at hfree
    rw [(hh.headers a b hb).size_eq] at hsize
    exact ⟨b, hb, hfree, hsize⟩
  · rintro ⟨b, hb, hfree, hsize⟩
    refine ⟨?_, ?_, ?_⟩
    · rw [hh.walk_eq]
      exact mem_starts.2 ⟨b, hb⟩
    · rw [(hh.headers a b hb).isFree_eq]
      exact hfree
    · rw [(hh.headers a b hb).size_eq]
      exact hsize

/-- No block fits: nothing has room. -/
theorem Holds.not_room (hh : Holds h bs) (hno : ∀ b ∈ bs, ¬ Block.Fits n b) (a : ℕ) :
    ¬ Room h n a := by
  intro hroom
  obtain ⟨b, hb, hfit⟩ := hh.room_iff.1 hroom
  exact hno b (mem_placed hb).1 hfit

/-- The first block that fits has room. -/
theorem Holds.room_middle (hh : Holds h (pre ++ b :: post)) (hfit : Block.Fits n b) :
    Room h n (stop h.buffer pre) :=
  hh.room_iff.2 ⟨b, mem_placed_middle h.buffer, hfit⟩

/-- The first block that fits is the lowest one with room. -/
theorem Holds.lowest (hh : Holds h (pre ++ b :: post)) (hpre : ∀ c ∈ pre, ¬ Block.Fits n c)
    (hroom : Room h n a) : stop h.buffer pre ≤ a := by
  obtain ⟨c, hc, hfit⟩ := hh.room_iff.1 hroom
  rw [placed_append, List.mem_append, placed_cons, List.mem_cons] at hc
  rcases hc with hc | hc | hc
  · exact absurd hfit (hpre c (mem_placed hc).1)
  · rw [(Prod.mk.inj hc).1]
  · have := (mem_placed hc).2.1
    omega

theorem Holds.roomBehind_iff (hh : Holds h (pre ++ b :: post)) :
    RoomBehind h n (stop h.buffer pre) ↔ Grows n b post := by
  have hheader := hh.headers _ _ (mem_placed_middle h.buffer)
  cases post with
  | nil =>
    constructor
    · intro hroom
      exact absurd (by rw [hh.next_eq, firstAt]) hroom.exists_next
    · rintro ⟨c, post', hpost, -, -⟩
      cases hpost
  | cons c post =>
    have hc := hh.headers (stop h.buffer pre + b.width) c (by simp)
    have hnext : next h.mem (stop h.buffer pre) = stop h.buffer pre + b.width := by
      rw [hh.next_eq, firstAt]
    constructor
    · rintro ⟨-, hfree, hsize⟩
      rw [hnext, hc.isFree_eq] at hfree
      rw [hnext, hc.size_eq, hheader.size_eq] at hsize
      exact ⟨c, post, rfl, hfree, by rw [Block.size_merge]; omega⟩
    · rintro ⟨c', post', hpost, hfree, hsize⟩
      cases hpost
      rw [Block.size_merge] at hsize
      refine ⟨?_, ?_, ?_⟩
      · have := hh.stop_ne_zero pre
        omega
      · rw [hnext, hc.isFree_eq]
        exact hfree
      · rw [hnext, hc.size_eq, hheader.size_eq]
        omega

end Blocks

namespace Client

section Exactness

variable [Platform] {s : Client} {bs : List Block} {libc : Libc Heap}

/-- The answer of `alloc(size)`, and what it does to the client. -/
structure AllocExact (s : Client) (size : ℕ) (ans : Status × ℕ) (s' : Client) : Prop where
  status : ans.1 = if ans.2 = 0 then .noMemory else .ok
  null_iff : ans.2 = 0 ↔ alignUpOverflow size memoryAlign = none ∨
    ∃ n, alignUpOverflow size memoryAlign = some n ∧ ∀ a, ¬ Room s.heap n a
  /-- The block with the lowest address that fits is taken. -/
  first_fit : ans.2 ≠ 0 → ∃ n a, alignUpOverflow size memoryAlign = some n ∧
    ans.2 = a + headerSize ∧ Room s.heap n a ∧ (∀ b, Room s.heap n b → a ≤ b) ∧
    a ∈ walk s'.heap ∧ blockIsFree s'.heap.mem a = false
  /-- Neither a byte of the memory nor the block list changes. -/
  unchanged : ans.2 = 0 → s' = s

/-- The answer of `resize(ptr, size)`, and what it does to the client. -/
structure ResizeExact (s : Client) (ptr size : ℕ) (ans : Status × ℕ) (s' : Client) : Prop where
  status : ans.1 = if ans.2 = 0 then .noMemory else .ok
  null_iff : ans.2 = 0 ↔ alignUpOverflow size memoryAlign = none ∨
    ∃ n, alignUpOverflow size memoryAlign = some n ∧
      blockSize s.heap.mem (ptr - headerSize) < n ∧
      ¬ RoomBehind s.heap n (ptr - headerSize) ∧ ∀ a, ¬ Room s.heap n a
  /-- Neither a byte of the memory nor the block list changes. -/
  unchanged : ans.2 = 0 → s' = s

theorem alloc_exact (hi : Inv s bs) {size : ℕ} (hsize : 0 < size) :
    Sat (step libc s (.alloc size)) fun p => AllocExact s size p.1 p.2 := by
  apply (alloc_blocks hi hsize).mono
  rintro ⟨ans, s'⟩ (⟨hfull, heq⟩ | ⟨n, pre, b, post, hround, rfl, hpre, hfit, hans, -, -, hb⟩)
  · cases heq
    refine ⟨rfl, ⟨fun _ => ?_, fun _ => rfl⟩, fun h => absurd rfl h, fun _ => rfl⟩
    exact hfull.imp id fun ⟨n, hround, hno⟩ => ⟨n, hround, hi.holds.not_room hno⟩
  dsimp only at hans hb
  subst hans
  have hroom := hi.holds.room_middle hfit
  have hne : stop s.heap.buffer pre + headerSize ≠ 0 := by
    unfold headerSize
    omega
  refine ⟨by rw [if_neg hne], ?_, fun _ => ?_, fun h => absurd h hne⟩
  · refine ⟨fun h => absurd h hne, ?_⟩
    rintro (hnone | ⟨n', hn', hno⟩)
    · rw [hround] at hnone
      cases hnone
    · rw [hround] at hn'
      cases hn'
      exact absurd hroom (hno _)
  · -- the block that is taken is the first one of the cut
    obtain ⟨c, rest, hcut, hused⟩ := exists_cut_used b n
    have hplaced : (stop s.heap.buffer pre, c) ∈ placed s'.heap.buffer
        (pre ++ ({ b with isFree := false } : Block).cut n ++ post) := by
      rw [hb.buffer_eq]
      simp [hcut]
    refine ⟨n, _, hround, rfl, hroom, fun a ha => hi.holds.lowest hpre ha, ?_, ?_⟩
    · rw [hb.holds.walk_eq]
      exact mem_starts.2 ⟨c, hplaced⟩
    · rw [(hb.holds.headers _ _ hplaced).isFree_eq, hused]

/-- A resize that one of the three strategies serves. -/
theorem resizeExact_of_served {pre post : List Block} {b : Block} {size n p : ℕ} {s' : Client}
    (hh : Holds s.heap (pre ++ b :: post)) (hround : alignUpOverflow size memoryAlign = some n)
    (hne : p ≠ 0) (hserved : b.size < n → Grows n b post ∨ ∃ a, Room s.heap n a) :
    ResizeExact s (stop s.heap.buffer pre + headerSize) size (.ok, p) s' := by
  have hheader := hh.headers _ _ (mem_placed_middle s.heap.buffer)
  refine ⟨by rw [if_neg hne], ⟨fun h => absurd h hne, ?_⟩, fun h => absurd h hne⟩
  rintro (hnone | ⟨n', hn', hlt, hbehind, hno⟩)
  · rw [hround] at hnone
    cases hnone
  · rw [hround] at hn'
    cases hn'
    rw [Nat.add_sub_cancel, hheader.size_eq] at hlt
    rw [Nat.add_sub_cancel, hh.roomBehind_iff] at hbehind
    rcases hserved hlt with hgrows | ⟨a, ha⟩
    · exact absurd hgrows hbehind
    · exact absurd ha (hno a)

theorem resize_exact (hi : Inv s bs) {ptr size : ℕ} (hl : s.live ptr ≠ none) (hsize : 0 < size) :
    Sat (step libc s (.resize ptr size)) fun p => ResizeExact s ptr size p.1 p.2 := by
  obtain ⟨k, hk⟩ := Option.ne_none_iff_exists'.1 hl
  obtain ⟨pre, b, post, rfl, rfl, hb, -⟩ := hi.block hk
  obtain ⟨⟨p, h'⟩, hrealloc, hp⟩ := vtableRealloc_spec hi.holds hb hsize
  have hheader := hi.holds.headers _ _ (mem_placed_middle s.heap.buffer)
  rw [step, resize_answer libc hsize.ne' hrealloc, ok_bind]
  rcases hp with ⟨hnone, heq⟩ | ⟨n, hround, hp⟩
  · cases heq
    exact Sat.ok ⟨rfl, ⟨fun _ => Or.inl hnone, fun _ => rfl⟩, fun _ => rfl⟩
  have hsucc : p ≠ 0 → Allocator.answer (p, h') = ((.ok, p), h') := fun hp0 => if_neg hp0
  dsimp only at hp
  cases hp with
  | failed hlt hgrows hno =>
    refine Sat.ok ⟨rfl, ⟨fun _ => Or.inr ⟨n, hround, ?_, ?_, hi.holds.not_room hno⟩, fun _ => rfl⟩,
      fun _ => rfl⟩
    · rw [Nat.add_sub_cancel, hheader.size_eq]
      exact hlt
    · rw [Nat.add_sub_cancel, hi.holds.roomBehind_iff]
      exact hgrows
  | shrunk hn hp hbec =>
    have hne : p ≠ 0 := by rw [hp]; unfold headerSize; omega
    rw [hsucc hne]
    exact Sat.ok (resizeExact_of_served hi.holds hround hne fun h => absurd hn (by omega))
  | @grown c post' _ _ hlt hpost hc hn hp hbec =>
    have hne : p ≠ 0 := by rw [hp]; unfold headerSize; omega
    rw [hsucc hne]
    exact Sat.ok (resizeExact_of_served hi.holds hround hne
      fun _ => Or.inl ⟨c, post', hpost, hc, hn⟩)
  | @moved pre₂ d post₂ pre₁ post₁ _ _ hlt hgrows heq hpre₂ hfit _ _ hp =>
    have hne : p ≠ 0 := by rw [hp]; unfold headerSize; omega
    have hroom : Room s.heap n (stop s.heap.buffer pre₂) := by
      have hh := hi.holds
      rw [heq] at hh
      exact hh.room_middle hfit
    rw [hsucc hne]
    exact Sat.ok (resizeExact_of_served hi.holds hround hne fun _ => Or.inr ⟨_, hroom⟩)

/-- **Failure is exact and atomic.**  After any run of valid calls, `alloc` and
`resize` return `NULL` only if the size cannot be rounded up or nothing in the
heap has room for it, and then leave the heap exactly as it was; `alloc` takes the
lowest block that fits. -/
theorem failure_exact {ν : Type} (libc₀ : Libc ν) (hplaced : libc₀.Placed)
    (libc : Libc Heap) (mem : Words.Memory) (w w' : ν) (capacity : ℕ) (st : Status) (h : Heap)
    (hc : create libc₀ mem w capacity = .ok ((st, some h), w')) (calls : List Call)
    (hcalls : Along (step libc) Valid (start h) calls) :
    Sat (trace (step libc) (start h) calls) fun p =>
      (∀ size, 0 < size →
        Sat (step libc p.2 (.alloc size)) fun q => AllocExact p.2 size q.1 q.2) ∧
      ∀ ptr size, p.2.live ptr ≠ none → 0 < size →
        Sat (step libc p.2 (.resize ptr size)) fun q => ResizeExact p.2 ptr size q.1 q.2 := by
  apply (run_inv (inv_start hplaced hc) hcalls).mono
  rintro p ⟨⟨bs, hi⟩, -, -⟩
  exact ⟨fun size hsize => alloc_exact hi hsize, fun ptr size hl hsize => resize_exact hi hl hsize⟩

end Exactness

section Lp64

local instance failurePlatform : Platform := lp64

/-- Two blocks fill the heap, and one of them is freed. -/
theorem failure_exact_full : ∃ st h w,
    create Libc.bump (fun _ => 0) 1 256 = .ok ((st, some h), w) ∧
      Sat (trace (step .exhausted) (start h) [.alloc 100, .alloc 64, .dealloc 96]) fun p =>
        (∀ size, 0 < size →
          Sat (step .exhausted p.2 (.alloc size)) fun q => AllocExact p.2 size q.1 q.2) ∧
        ∀ ptr size, p.2.live ptr ≠ none → 0 < size →
          Sat (step .exhausted p.2 (.resize ptr size)) fun q =>
            ResizeExact p.2 ptr size q.1 q.2 := by
  obtain ⟨st, h, w, hc, hcheck⟩ := exists_of_check (r := create Libc.bump (fun _ => 0) 1 256)
    (f := fun h => checkAlong (step .exhausted) Valid (start h)
      [.alloc 100, .alloc 64, .dealloc 96]) (by decide +kernel)
  exact ⟨st, h, w, hc, failure_exact Libc.bump Libc.bump_placed .exhausted (fun _ => 0) 1 w 256 st h
    hc _ (along_of_check hcheck)⟩

end Lp64

end Client

end Heap
end K4c
