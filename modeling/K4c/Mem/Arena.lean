import Mathlib.Tactic
import K4c.Lib.Tiling
import K4c.Lib.Words
import K4c.Mem.Allocator

/-!
# The arena

`k4c_arena` hands out one piece of its buffer after the other, each behind a
header with the rounded size, and takes them back all at once.

* `vtableAlloc`, `vtableRealloc` — the operations of the allocator view.
* `Holds` — the pieces tile the used part of the buffer, and every header holds
  the size of its piece.
* `vtableAlloc_spec` — an allocation fails exactly when the piece does not fit.
-/

namespace K4c

open Exec Words

/-- `k4c_arena`, with the memory its buffer is part of. -/
structure Arena where
  mem : Words.Memory
  buffer : ℕ
  capacity : ℕ
  offset : ℕ

namespace Arena

section Operations

variable [Platform]

/-- `k4c_align_up(sizeof(k4c_arena_alloc_header), K4C_MEMORY_ALIGN)`. -/
def headerSize : ℕ := alignUp 8 memoryAlign

/-! ## The allocator operations -/

/-- The test of `k4c_arena_vtable_alloc` on a rounded size, left to right. -/
def exceeds (a : Arena) (size : ℕ) : Result Bool := do
  if size > a.capacity then return true
  if headerSize > (← sizeSub a.capacity size) then return true
  return decide (a.offset > (← sizeSub (← sizeSub a.capacity headerSize) size))

/-- `k4c_arena_vtable_alloc`: the pointer, or `NULL`. -/
def vtableAlloc (a : Arena) (size : ℕ) : Result (ℕ × Arena) := do
  check (a.buffer ≠ 0) "fatal: k4c_arena_alloc invalid k4c_arena"
  check (size > 0) "fatal: k4c_arena_alloc invalid arguments"
  match alignUpOverflow size memoryAlign with
  | none => return (0, a)
  | some size =>
    if ← exceeds a size then return (0, a)
    let ptr ← sizeAdd a.buffer a.offset
    let mem := storeWord a.mem ptr size
    let offset ← sizeAdd a.offset (← sizeAdd headerSize size)
    return (← sizeAdd ptr headerSize, { a with mem, offset })

/-- `k4c_arena_vtable_realloc`: the pointer, or `NULL`. -/
def vtableRealloc (a : Arena) (ptr size : ℕ) : Result (ℕ × Arena) := do
  check (a.buffer ≠ 0) "fatal: k4c_arena_realloc invalid k4c_arena"
  if ptr = 0 then return ← vtableAlloc a size
  if size = 0 then return (0, a)
  match alignUpOverflow size memoryAlign with
  | none => return (0, a)
  | some size =>
    let header ← sizeSub ptr headerSize
    check (size ≥ loadWord a.mem header) "fatal: k4c_arena_realloc cannot shrink allocation"
    if size = loadWord a.mem header then return (ptr, a)
    let (newPtr, a) ← vtableAlloc a size
    if newPtr = 0 then return (0, a)
    let mem ← memcpy a.mem newPtr ptr (loadWord a.mem header)
    return (newPtr, { a with mem })

/-- `k4c_arena_allocator_view`: nothing is released one by one. -/
def allocatorView : Allocator Arena where
  features := { dealloc := false, realloc := true, reset := true }
  vtable := some { alloc := some vtableAlloc, resize := some vtableRealloc, dealloc := none }

/-! ## The arena itself -/

/-- `k4c_arena_create`, in a memory `mem` and over a libc with state `w`. -/
def create {ν : Type} (libc : Libc ν) (mem : Words.Memory) (w : ν) (capacity : ℕ) :
    Result ((Status × Option Arena) × ν) := do
  check (capacity > 0) "fatal: k4c_arena_create invalid capacity"
  match alignUpOverflow capacity memoryAlign with
  | none => return ((.overflow, none), w)
  | some capacity =>
    let ((st, arena), w) ← Allocator.alloc libc none w 24
    if st ≠ .ok then return ((st, none), w)
    let ((st, buffer), w) ← Allocator.alloc libc none w capacity
    if st ≠ .ok then return ((st, none), ← Allocator.dealloc libc none w arena)
    return ((.ok, some ⟨mem, buffer, capacity, 0⟩), w)

end Operations

/-- `k4c_arena_reset`. -/
def reset (a : Arena) : Result Arena := do
  check (a.buffer ≠ 0) "fatal: k4c_arena_reset invalid k4c_arena"
  return { a with offset := 0 }

/-- `k4c_arena_used`. -/
def used (a : Arena) : Result ℕ := do
  check (a.buffer ≠ 0) "fatal: k4c_arena_used invalid k4c_arena"
  return a.offset

/-- `k4c_arena_available`. -/
def available (a : Arena) : Result ℕ := do
  check (a.buffer ≠ 0) "fatal: k4c_arena_available invalid k4c_arena"
  sizeSub a.capacity a.offset

/-! ## Pieces of the buffer -/

variable [Platform]

theorem headerSize_spec : memoryAlign ∣ headerSize ∧ 8 ≤ headerSize ∧ headerSize ≤ 40 := by
  cases h : alignUpOverflow 8 memoryAlign with
  | none =>
    have := alignUpOverflow_eq_none.1 h
    have := memoryAlign_le
    unfold sizeMax at *
    omega
  | some m =>
    obtain ⟨hdvd, hge, hlt, -⟩ := alignUpOverflow_eq_some h
    have := memoryAlign_le
    rw [headerSize, alignUp_eq h]
    exact ⟨hdvd, hge, by omega⟩

/-- The bytes a piece takes, with its header. -/
def width (size : ℕ) : ℕ := headerSize + size

/-- The pieces with the addresses of their headers. -/
def placed (buffer : ℕ) (sizes : List ℕ) : List (ℕ × ℕ) := Tiling.place width buffer sizes

/-- The used part of the arena is divided into pieces of these sizes. -/
structure Holds (a : Arena) (sizes : List ℕ) : Prop where
  buffer_ne : a.buffer ≠ 0
  buffer_dvd : memoryAlign ∣ a.buffer
  fits : a.buffer + a.capacity ≤ sizeMax
  finish_eq : Tiling.finish width a.buffer sizes = a.buffer + a.offset
  offset_le : a.offset ≤ a.capacity
  sizes_dvd : ∀ n ∈ sizes, 0 < n ∧ memoryAlign ∣ n
  headers : ∀ q n, (q, n) ∈ placed a.buffer sizes → loadWord a.mem q = n

variable {a : Arena} {sizes : List ℕ} {q n : ℕ}

/-- A sequence of pieces starts and ends at multiples of the alignment. -/
theorem finish_dvd : ∀ {sizes : List ℕ} {start : ℕ}, (∀ n ∈ sizes, 0 < n ∧ memoryAlign ∣ n) →
    memoryAlign ∣ start → memoryAlign ∣ Tiling.finish width start sizes := by
  intro sizes
  induction sizes with
  | nil => exact fun _ hstart => hstart
  | cons n sizes ih =>
    intro start hsizes hstart
    rw [Tiling.finish_cons]
    refine ih (fun k hk => hsizes k (List.mem_cons_of_mem n hk)) (hstart.add ?_)
    exact headerSize_spec.1.add (hsizes n (List.mem_cons_self ..)).2

namespace Holds

/-- A piece lies in the used part of the buffer. -/
theorem piece (h : Holds a sizes) (hq : (q, n) ∈ placed a.buffer sizes) :
    a.buffer ≤ q ∧ q + headerSize + n ≤ a.buffer + a.offset := by
  obtain ⟨-, hle, hend⟩ := Tiling.mem_place hq
  rw [h.finish_eq] at hend
  unfold width at hend
  dsimp only at hle hend
  omega

theorem piece_dvd (h : Holds a sizes) (hq : (q, n) ∈ placed a.buffer sizes) :
    memoryAlign ∣ q := by
  obtain ⟨pre, post, rfl, rfl⟩ := Tiling.exists_split hq
  exact finish_dvd (fun k hk => h.sizes_dvd k (by simp [hk])) h.buffer_dvd

/-- Writing outside of the headers keeps the pieces. -/
theorem rewrite (h : Holds a sizes) {mem : Words.Memory}
    (hmem : ∀ q n, (q, n) ∈ placed a.buffer sizes → ∀ x, q ≤ x → x < q + 8 → mem x = a.mem x) :
    Holds { a with mem } sizes :=
  { h with headers := fun q n hq => (loadWord_congr (hmem q n hq)).trans (h.headers q n hq) }

/-- The used and the available bytes are the whole capacity. -/
theorem balance (h : Holds a sizes) :
    used a = .ok a.offset ∧ available a = .ok (a.capacity - a.offset) := by
  rw [used, available, check_of h.buffer_ne, check_of h.buffer_ne, ok_bind, ok_bind,
    sizeSub_of_le h.offset_le]
  exact ⟨rfl, rfl⟩

/-- A reset arena has no pieces. -/
theorem reset (h : Holds a sizes) :
    Arena.reset a = .ok { a with offset := 0 } ∧ Holds { a with offset := 0 } [] := by
  refine ⟨by rw [Arena.reset, check_of h.buffer_ne]; rfl, ?_⟩
  exact ⟨h.buffer_ne, h.buffer_dvd, h.fits, rfl, Nat.zero_le _, fun _ hn => (by cases hn),
    fun _ _ hq => (by cases hq)⟩

end Holds

/-! ## Allocating -/

/-- **The test never wraps**, and says whether the piece fits behind the others. -/
theorem exceeds_eq (h : Holds a sizes) (n : ℕ) :
    exceeds a n = .ok (decide (a.capacity - a.offset < headerSize + n)) := by
  have hoffset := h.offset_le
  unfold exceeds
  by_cases hsize : n > a.capacity
  · rw [if_pos hsize, pure_eq_ok, decide_eq_true (by omega)]
  rw [if_neg hsize, sizeSub_of_le (by omega), ok_bind]
  by_cases hheader : headerSize > a.capacity - n
  · rw [if_pos hheader, pure_eq_ok, decide_eq_true (by omega)]
  rw [if_neg hheader, sizeSub_of_le (by omega), ok_bind, sizeSub_of_le (by omega), ok_bind,
    pure_eq_ok]
  congr 1
  rw [decide_eq_decide]
  omega

/-- The arena with one more piece. -/
def extended (a : Arena) (n : ℕ) : Arena :=
  { a with mem := storeWord a.mem (a.buffer + a.offset) n, offset := a.offset + (headerSize + n) }

/-- The arena has no room for a piece of this size. -/
def Refuses (a : Arena) (size : ℕ) : Prop :=
  alignUpOverflow size memoryAlign = none ∨
    ∃ n free, alignUpOverflow size memoryAlign = some n ∧ available a = .ok free ∧
      free < headerSize + n

theorem Holds.placed_extended (h : Holds a sizes) :
    placed a.buffer (sizes ++ [n]) = placed a.buffer sizes ++ [(a.buffer + a.offset, n)] := by
  rw [placed, Tiling.place_append, h.finish_eq]
  rfl

/-- Adding a piece keeps the other ones. -/
theorem Holds.extended (h : Holds a sizes) (hpos : 0 < n) (hdvd : memoryAlign ∣ n)
    (hroom : headerSize + n ≤ a.capacity - a.offset) : Holds (extended a n) (sizes ++ [n]) := by
  have hoffset := h.offset_le
  have hfits := h.fits
  have hheader := headerSize_spec.2.1
  refine ⟨h.buffer_ne, h.buffer_dvd, hfits, ?_, ?_, ?_, fun q k hq => ?_⟩
  · rw [Tiling.finish_append, show Tiling.finish width (Arena.extended a n).buffer sizes = _ from
      h.finish_eq, Tiling.finish_cons, Tiling.finish_nil, width, Nat.add_assoc]
    rfl
  · change a.offset + (headerSize + n) ≤ a.capacity
    omega
  · intro k hk
    rcases List.mem_append.1 hk with hk | hk
    · exact h.sizes_dvd k hk
    · rw [List.mem_singleton.1 hk]
      exact ⟨hpos, hdvd⟩
  · rw [show placed (Arena.extended a n).buffer (sizes ++ [n]) = _ from h.placed_extended,
      List.mem_append, List.mem_singleton] at hq
    change loadWord (storeWord a.mem (a.buffer + a.offset) n) q = k
    rcases hq with hq | hq
    · have hpiece := h.piece hq
      rw [loadWord_storeWord_of_disjoint (by omega), h.headers q k hq]
    · cases hq
      exact loadWord_storeWord_same (by unfold sizeMax at hfits; omega)

/-- **An allocation** fails exactly when there is no room, and otherwise adds a
piece behind the others. -/
theorem vtableAlloc_spec (h : Holds a sizes) {size : ℕ} (hsize : 0 < size) :
    (Refuses a size ∧ vtableAlloc a size = .ok (0, a)) ∨
      (¬ Refuses a size ∧ ∃ n, alignUpOverflow size memoryAlign = some n ∧
        headerSize + n ≤ a.capacity - a.offset ∧
        vtableAlloc a size = .ok (a.buffer + a.offset + headerSize, extended a n) ∧
        Holds (extended a n) (sizes ++ [n])) := by
  have hoffset := h.offset_le
  have hfits := h.fits
  have havailable := h.balance.2
  rw [vtableAlloc, check_of h.buffer_ne, ok_bind, check_of hsize, ok_bind]
  cases hround : alignUpOverflow size memoryAlign with
  | none => exact .inl ⟨.inl hround, rfl⟩
  | some n =>
    obtain ⟨hdvd, hge, -, -⟩ := alignUpOverflow_eq_some hround
    dsimp only
    rw [exceeds_eq h n, ok_bind]
    by_cases hroom : a.capacity - a.offset < headerSize + n
    · rw [if_pos (by simpa using hroom)]
      exact .inl ⟨.inr ⟨n, _, hround, havailable, hroom⟩, rfl⟩
    · have hroom' : headerSize + n ≤ a.capacity - a.offset := by omega
      rw [if_neg (by simpa using hroom')]
      refine .inr ⟨?_, n, rfl, hroom', ?_, h.extended (by omega) hdvd hroom'⟩
      · rintro (hnone | ⟨k, free, hk, hfree, hless⟩)
        · cases hround.symm.trans hnone
        · cases hround.symm.trans hk
          cases havailable.symm.trans hfree
          exact hroom hless
      · rw [sizeAdd_of_le (by omega), ok_bind, sizeAdd_of_le (by omega), ok_bind,
          sizeAdd_of_le (by omega), ok_bind, sizeAdd_of_le (by omega), ok_bind]
        rfl

/-! ## Resizing -/

/-- Rounding a size first does not change whether it fits. -/
theorem refuses_rounded {size m : ℕ} (hround : alignUpOverflow size memoryAlign = some m) :
    Refuses a m ↔ Refuses a size := by
  rw [Refuses, Refuses, hround, alignUpOverflow_idem hround]

/-- The arena with a piece of `m` bytes that starts with the `n` bytes from `ptr` on. -/
def moved (a : Arena) (ptr n m : ℕ) : Arena :=
  { extended a m with mem := copy (extended a m).mem (a.buffer + a.offset + headerSize) ptr n }

/-- The bytes that were in use keep their values when a piece is added. -/
theorem extended_mem {x : ℕ} (hx : x < a.buffer + a.offset) : (extended a n).mem x = a.mem x :=
  storeWord_outside (.inl hx)

theorem moved_mem {ptr m x : ℕ} (hx : x < a.buffer + a.offset) :
    (moved a ptr n m).mem x = a.mem x :=
  (copy_outside (by omega)).trans (extended_mem hx)

/-- The new piece starts with the bytes of the old one. -/
theorem moved_payload {ptr m i : ℕ} (hi : i < n) (hptr : ptr + n ≤ a.buffer + a.offset) :
    (moved a ptr n m).mem (a.buffer + a.offset + headerSize + i) = a.mem (ptr + i) :=
  (copy_inside hi).trans (extended_mem (by omega))

theorem Holds.moved (h : Holds a sizes) {ptr m : ℕ}
    (h' : Holds (Arena.extended a m) (sizes ++ [m])) :
    Holds (Arena.moved a ptr n m) (sizes ++ [m]) := by
  have hheader := headerSize_spec.2.1
  refine h'.rewrite fun q k hq x hle hlt => copy_outside ?_
  rw [show placed (Arena.extended a m).buffer (sizes ++ [m]) = _ from h.placed_extended,
    List.mem_append, List.mem_singleton] at hq
  rcases hq with hq | hq
  · have := h.piece hq
    omega
  · cases hq
    omega

/-- **A resize** returns the same pointer when the rounded size is the old one,
fails exactly when a larger piece does not fit, and otherwise copies the piece
behind the others. -/
theorem vtableRealloc_spec (h : Holds a sizes) {size : ℕ} (hsize : 0 < size)
    (hq : (q, n) ∈ placed a.buffer sizes)
    (hgrows : ∀ m, alignUpOverflow size memoryAlign = some m → n ≤ m) :
    (alignUpOverflow size memoryAlign = some n ∧
        vtableRealloc a (q + headerSize) size = .ok (q + headerSize, a)) ∨
      (alignUpOverflow size memoryAlign ≠ some n ∧ Refuses a size ∧
        vtableRealloc a (q + headerSize) size = .ok (0, a)) ∨
      ∃ m, alignUpOverflow size memoryAlign = some m ∧ n < m ∧ ¬ Refuses a size ∧
        vtableRealloc a (q + headerSize) size =
          .ok (a.buffer + a.offset + headerSize, moved a (q + headerSize) n m) ∧
        Holds (moved a (q + headerSize) n m) (sizes ++ [m]) := by
  have hheader := headerSize_spec.2.1
  have hpiece := h.piece hq
  have hload := h.headers q n hq
  rw [vtableRealloc, check_of h.buffer_ne, ok_bind, if_neg (by omega), if_neg (by omega)]
  cases hround : alignUpOverflow size memoryAlign with
  | none => exact .inr (.inl ⟨by simp, .inl hround, rfl⟩)
  | some m =>
    have hle := hgrows m hround
    dsimp only
    rw [sizeSub_of_le (by omega), ok_bind, Nat.add_sub_cancel, hload, check_of hle, ok_bind]
    by_cases hsame : m = n
    · rw [if_pos hsame, hsame]
      exact .inl ⟨rfl, rfl⟩
    have hless : n < m := by omega
    rw [if_neg hsame]
    rcases vtableAlloc_spec h (show 0 < m by omega) with
      ⟨hrefuses, halloc⟩ | ⟨hroom, k, hk, hfit, halloc, h'⟩
    · rw [halloc, ok_bind, if_pos rfl]
      exact .inr (.inl ⟨by simp [hsame], (refuses_rounded hround).1 hrefuses, rfl⟩)
    · cases hk.symm.trans (alignUpOverflow_idem hround)
      have hload' : loadWord (extended a m).mem q = n :=
        (loadWord_congr fun x _ _ => extended_mem (by omega)).trans hload
      refine .inr (.inr ⟨m, rfl, hless, fun hr => hroom ((refuses_rounded hround).2 hr), ?_,
        h.moved h'⟩)
      rw [halloc, ok_bind, if_neg (by omega), hload', memcpy_of_disjoint (by omega), ok_bind]
      rfl

/-! ## Creating -/

/-- A new arena has no pieces. -/
theorem create_spec {ν : Type} {libc : Libc ν} (hplaced : libc.Placed) {mem : Words.Memory}
    {w w' : ν} {capacity : ℕ} {st : Status}
    (hc : create libc mem w capacity = .ok ((st, some a), w')) :
    alignUpOverflow capacity memoryAlign = some a.capacity ∧ Holds a [] := by
  unfold create at hc
  obtain ⟨_, -, hc⟩ := bind_eq_ok.1 hc
  cases hround : alignUpOverflow capacity memoryAlign with
  | none =>
    rw [hround] at hc
    cases hc
  | some c =>
    rw [hround] at hc
    obtain ⟨⟨⟨st₁, p₁⟩, w₁⟩, -, hc⟩ := bind_eq_ok.1 hc
    dsimp only at hc
    split at hc
    · cases hc
    obtain ⟨⟨⟨st₂, buffer⟩, w₂⟩, halloc, hc⟩ := bind_eq_ok.1 hc
    dsimp only at hc
    split at hc
    · obtain ⟨_, -, hc⟩ := bind_eq_ok.1 hc
      cases hc
    rename_i hst₂
    cases hc
    obtain ⟨hmalloc, hne⟩ := Allocator.alloc_none_ok halloc (not_not.1 hst₂)
    obtain ⟨hbuffer, hmax⟩ := hplaced _ _ _ _ hmalloc hne
    exact ⟨rfl, hne, hbuffer, hmax, rfl, Nat.zero_le _, fun _ hn => (by cases hn),
      fun _ _ hq => (by cases hq)⟩

end Arena
end K4c
