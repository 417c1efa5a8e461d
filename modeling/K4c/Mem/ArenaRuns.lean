import Mathlib.Tactic
import K4c.Lib.Runs
import K4c.Mem.Arena

/-!
# Runs of the arena

A client allocates from an arena and resizes through its allocator view, writes
into what it was given, and resets the arena.

* `Client` — the arena, and the size requested for each pointer handed out since
  the last reset.
* `Inv` — the pointers handed out are the pieces of the arena.
* `Client.step_spec` — what one call does: `Effect`.
* `Client.layout` — what holds in every state of every run.
-/

namespace K4c
namespace Arena

open Exec Words Runs

/-- An arena in use. -/
structure Client where
  arena : Arena
  /-- The size requested for each pointer since the last reset. -/
  live : ℕ → Option ℕ

/-- What a client can do. -/
inductive Call where
  | alloc (size : ℕ)
  | resize (ptr size : ℕ)
  | write (ptr offset : ℕ) (bytes : List UInt8)
  | reset
  deriving DecidableEq, Repr

section Layout

variable [Platform]

/-- The size in the header of a pointer. -/
def payload (a : Arena) (ptr : ℕ) : ℕ := loadWord a.mem (ptr - headerSize)

namespace Client

/-- Nothing has been handed out. -/
def start (a : Arena) : Client := ⟨a, fun _ => none⟩

/-- What the client may call: sizes are positive, pointers were handed out since
the last reset, a resize does not shrink the rounded size, and a write stays
inside of the size that was requested. -/
def Valid (s : Client) : Call → Prop
  | .alloc size => 0 < size
  | .resize ptr size => 0 < size ∧ s.live ptr ≠ none ∧
    ∀ n ∈ alignUpOverflow size memoryAlign, payload s.arena ptr ≤ n
  | .write ptr offset bytes => ∃ n ∈ s.live ptr, offset + bytes.length ≤ n
  | .reset => True

instance (s : Client) : (c : Call) → Decidable (s.Valid c)
  | .alloc size => inferInstanceAs (Decidable (0 < size))
  | .resize ptr size => inferInstanceAs (Decidable (0 < size ∧ s.live ptr ≠ none ∧
    ∀ n ∈ alignUpOverflow size memoryAlign, payload s.arena ptr ≤ n))
  | .write ptr offset bytes =>
    inferInstanceAs (Decidable (∃ n ∈ s.live ptr, offset + bytes.length ≤ n))
  | .reset => .isTrue trivial

/-- Make a call, over a libc that the allocator view never reaches: the status
and the pointer that came back. -/
def step (libc : Libc Arena) (s : Client) : Call → Result ((Status × ℕ) × Client)
  | .alloc size => do
    let ((st, p), arena) ← Allocator.alloc libc (some allocatorView) s.arena size
    return ((st, p), ⟨arena, if st = .ok then Function.update s.live p (some size) else s.live⟩)
  | .resize ptr size => do
    let ((st, p), arena) ← Allocator.resize libc (some allocatorView) s.arena ptr size
    return ((st, p), ⟨arena, if st = .ok then Function.update s.live p (some size) else s.live⟩)
  | .write ptr offset bytes =>
    let mem := poke s.arena.mem (ptr + offset) bytes
    .ok ((.ok, 0), { s with arena := { s.arena with mem } })
  | .reset => do
    let arena ← reset s.arena
    return ((.ok, 0), ⟨arena, fun _ => none⟩)

end Client

/-! ## Pointers and pieces -/

/-- The pieces of the arena are what was handed out, rounded. -/
structure Inv (s : Client) (sizes : List ℕ) : Prop where
  holds : Holds s.arena sizes
  granted : ∀ p k, s.live p = some k → ∃ q n, (q, n) ∈ placed s.arena.buffer sizes ∧
    p = q + headerSize ∧ alignUpOverflow k memoryAlign = some n
  owned : ∀ q n, (q, n) ∈ placed s.arena.buffer sizes → s.live (q + headerSize) ≠ none

variable {s : Client} {sizes : List ℕ} {p q k n : ℕ}

namespace Inv

theorem payload_eq (hi : Inv s sizes) (hq : (q, n) ∈ placed s.arena.buffer sizes) :
    payload s.arena (q + headerSize) = n := by
  rw [payload, Nat.add_sub_cancel, hi.holds.headers q n hq]

/-- A pointer names the piece behind it. -/
theorem exists_piece (hi : Inv s sizes) (hp : s.live p ≠ none) :
    ∃ q, (q, payload s.arena p) ∈ placed s.arena.buffer sizes ∧ p = q + headerSize := by
  obtain ⟨k, hk⟩ := Option.ne_none_iff_exists'.1 hp
  obtain ⟨q, n, hq, rfl, -⟩ := hi.granted p k hk
  rw [hi.payload_eq hq]
  exact ⟨q, hq, rfl⟩

/-- The header holds the rounded size of what was requested. -/
theorem rounded (hi : Inv s sizes) (hp : s.live p = some k) :
    alignUpOverflow k memoryAlign = some (payload s.arena p) := by
  obtain ⟨q, n, hq, rfl, hround⟩ := hi.granted p k hp
  rw [hi.payload_eq hq, hround]

/-- The bytes behind a pointer lie in the used part of the buffer. -/
theorem inside (hi : Inv s sizes) (hp : s.live p ≠ none) :
    s.arena.buffer + headerSize ≤ p ∧ p + payload s.arena p ≤ s.arena.buffer + s.arena.offset := by
  obtain ⟨q, hq, hpq⟩ := hi.exists_piece hp
  have := hi.holds.piece hq
  omega

/-- The pointer of a new piece was not handed out before. -/
theorem live_new (hi : Inv s sizes) :
    s.live (s.arena.buffer + s.arena.offset + headerSize) = none := by
  by_contra hp
  have hinside := hi.inside hp
  have hheader := headerSize_spec.2.1
  omega

/-- A pointer is handed out for the piece that was added. -/
theorem extend {a : Arena} (hi : Inv s sizes) (hbuffer : a.buffer = s.arena.buffer)
    (h' : Holds a (sizes ++ [n])) (hround : alignUpOverflow k memoryAlign = some n) :
    Inv ⟨a, Function.update s.live (s.arena.buffer + s.arena.offset + headerSize) (some k)⟩
      (sizes ++ [n]) := by
  have hplaced : placed a.buffer (sizes ++ [n]) =
      placed s.arena.buffer sizes ++ [(s.arena.buffer + s.arena.offset, n)] := by
    rw [hbuffer, hi.holds.placed_extended]
  refine ⟨h', fun p j hp => ?_, fun q m hq => ?_⟩ <;> dsimp only at * <;> rw [hplaced] at *
  · by_cases hnew : p = s.arena.buffer + s.arena.offset + headerSize
    · rw [hnew, Function.update_self, Option.some.injEq] at hp
      exact ⟨_, n, by simp, hnew, hp ▸ hround⟩
    · rw [Function.update_of_ne hnew] at hp
      obtain ⟨q, m, hq, hpq, hm⟩ := hi.granted p j hp
      exact ⟨q, m, by simp [hq], hpq, hm⟩
  · by_cases hnew : q + headerSize = s.arena.buffer + s.arena.offset + headerSize
    · rw [hnew, Function.update_self]
      simp
    · rw [Function.update_of_ne hnew]
      rcases List.mem_append.1 hq with hq | hq
      · exact hi.owned q m hq
      · cases List.mem_singleton.1 hq
        exact absurd rfl hnew

/-- A pointer is requested again, with another size that rounds to its piece. -/
theorem renew (hi : Inv s sizes) (hq : (q, n) ∈ placed s.arena.buffer sizes)
    (hround : alignUpOverflow k memoryAlign = some n) :
    Inv ⟨s.arena, Function.update s.live (q + headerSize) (some k)⟩ sizes := by
  refine ⟨hi.holds, fun p j hp => ?_, fun r m hr => ?_⟩ <;> dsimp only at *
  · by_cases hsame : p = q + headerSize
    · rw [hsame, Function.update_self, Option.some.injEq] at hp
      exact ⟨q, n, hq, hsame, hp ▸ hround⟩
    · rw [Function.update_of_ne hsame] at hp
      exact hi.granted p j hp
  · by_cases hsame : r + headerSize = q + headerSize
    · rw [hsame, Function.update_self]
      simp
    · rw [Function.update_of_ne hsame]
      exact hi.owned r m hr

/-- A write inside of a pointer's size keeps every header. -/
theorem write (hi : Inv s sizes) (hp : s.live p = some k) {offset : ℕ} {bytes : List UInt8}
    (hle : offset + bytes.length ≤ k) :
    Inv { s with arena := { s.arena with mem := poke s.arena.mem (p + offset) bytes } } sizes := by
  have hheader := headerSize_spec.2.1
  obtain ⟨q, n, hq, rfl, hround⟩ := hi.granted p k hp
  have hkn := (alignUpOverflow_eq_some hround).2.1
  refine ⟨hi.holds.rewrite fun r m hr x hge hlt => poke_outside ?_, hi.granted, hi.owned⟩
  rcases Tiling.separated hq hr with hsame | hsep
  · cases hsame
    omega
  · unfold width at hsep
    dsimp only at hsep
    omega

end Inv

/-! ## One call -/

namespace Client

/-- What a call does.  A refused request leaves the whole state as it was. -/
def Effect (s : Client) : Call → Status × ℕ → Client → Prop
  | .alloc size, (st, p), s' =>
    (st ≠ .ok ∧ Refuses s.arena size ∧ s' = s) ∨
    (st = .ok ∧ ¬ Refuses s.arena size ∧ s.live p = none ∧
      s'.live = Function.update s.live p (some size) ∧
      ∀ r k, s.live r = some k →
        ∀ i < payload s.arena r, s'.arena.mem (r + i) = s.arena.mem (r + i))
  | .resize ptr size, (st, p), s' =>
    (st ≠ .ok ∧ Refuses s.arena size ∧ s' = s) ∨
    (st = .ok ∧ (p = ptr ↔ alignUpOverflow size memoryAlign = some (payload s.arena ptr)) ∧
      s'.live = Function.update s.live p (some size) ∧
      (∀ i < payload s.arena ptr, s'.arena.mem (p + i) = s.arena.mem (ptr + i)) ∧
      ∀ r k, s.live r = some k →
        ∀ i < payload s.arena r, s'.arena.mem (r + i) = s.arena.mem (r + i))
  | .write ptr offset bytes, _, s' =>
    s'.live = s.live ∧ s'.arena.mem = poke s.arena.mem (ptr + offset) bytes
  | .reset, _, s' => (∀ p, s'.live p = none) ∧ used s'.arena = .ok 0

/-- What a successful allocation or resize keeps of the pointers handed out before. -/
theorem kept_of_mem {a : Arena} (hi : Inv s sizes)
    (hmem : ∀ x < s.arena.buffer + s.arena.offset, a.mem x = s.arena.mem x) :
    ∀ r k, s.live r = some k → ∀ i < payload s.arena r, a.mem (r + i) = s.arena.mem (r + i) := by
  intro r k hr i hlt
  have hinside := hi.inside (Option.ne_none_iff_exists'.2 ⟨k, hr⟩)
  exact hmem _ (by omega)

omit [Platform] in
/-- A granted request, as the client sees it. -/
theorem grant {ptr size : ℕ} {a : Arena} (hptr : ptr ≠ 0) :
    (Except.ok (Allocator.answer (ptr, a)) : Result ((Status × ℕ) × Arena)) >>= (fun r =>
      (.ok (r.1, ⟨r.2, if r.1.1 = .ok then Function.update s.live r.1.2 (some size)
        else s.live⟩) : Result ((Status × ℕ) × Client))) =
      .ok ((.ok, ptr), ⟨a, Function.update s.live ptr (some size)⟩) := by
  rw [Allocator.answer, if_neg hptr]
  rfl

theorem alloc_spec (libc : Libc Arena) (hi : Inv s sizes) {size : ℕ} (hsize : 0 < size) :
    Sat (step libc s (.alloc size)) fun t =>
      (∃ sizes', Inv t.2 sizes') ∧ Effect s (.alloc size) t.1 t.2 := by
  have hheader := headerSize_spec.2.1
  rcases vtableAlloc_spec hi.holds hsize with ⟨hrefuses, halloc⟩ | ⟨hroom, n, hround, -, halloc, h'⟩
  · refine ⟨((.noMemory, 0), s), ?_, ⟨sizes, hi⟩, .inl ⟨by decide, hrefuses, rfl⟩⟩
    change (vtableAlloc s.arena size >>= _) >>= _ = _
    rw [halloc]
    rfl
  · refine ⟨((.ok, s.arena.buffer + s.arena.offset + headerSize), ⟨extended s.arena n, _⟩), ?_,
      ⟨_, hi.extend rfl h' hround⟩, .inr ⟨rfl, hroom, hi.live_new, rfl,
        kept_of_mem hi fun x hx => extended_mem hx⟩⟩
    change (vtableAlloc s.arena size >>= fun res => .ok (Allocator.answer res)) >>= _ = _
    rw [halloc]
    exact grant (by omega)

theorem step_resize (libc : Libc Arena) (s : Client) {ptr size : ℕ} (hsize : 0 < size) :
    step libc s (.resize ptr size) =
      (vtableRealloc s.arena ptr size >>= fun res => .ok (Allocator.answer res)) >>= fun r =>
        .ok (r.1, ⟨r.2, if r.1.1 = .ok then Function.update s.live r.1.2 (some size)
          else s.live⟩) := by
  simp only [step, Allocator.resize, if_neg hsize.ne']
  rfl

theorem resize_spec (libc : Libc Arena) (hi : Inv s sizes) {ptr size : ℕ}
    (hv : s.Valid (.resize ptr size)) :
    Sat (step libc s (.resize ptr size)) fun t =>
      (∃ sizes', Inv t.2 sizes') ∧ Effect s (.resize ptr size) t.1 t.2 := by
  obtain ⟨hsize, hlive, hgrows⟩ := hv
  have hheader := headerSize_spec.2.1
  have hinside := hi.inside hlive
  obtain ⟨q, hq, hptr⟩ := hi.exists_piece hlive
  rw [step_resize libc s hsize]
  rcases vtableRealloc_spec hi.holds hsize hq hgrows with
    ⟨hsame, hrealloc⟩ | ⟨hdiff, hrefuses, hrealloc⟩ | ⟨m, hround, hless, hroom, hrealloc, h'⟩
  · rw [← hptr] at hrealloc
    refine ⟨((.ok, ptr), ⟨s.arena, Function.update s.live ptr (some size)⟩), ?_, ⟨sizes, ?_⟩,
      .inr ⟨rfl, iff_of_true rfl hsame, rfl, fun i _ => rfl, fun r k _ i _ => rfl⟩⟩
    · rw [hrealloc]
      exact grant (by omega)
    · rw [hptr]
      exact hi.renew hq hsame
  · rw [← hptr] at hrealloc
    refine ⟨((.noMemory, 0), s), ?_, ⟨sizes, hi⟩, .inl ⟨by decide, hrefuses, rfl⟩⟩
    rw [hrealloc]
    rfl
  · rw [← hptr] at hrealloc h'
    refine ⟨((.ok, s.arena.buffer + s.arena.offset + headerSize), ⟨moved s.arena ptr _ m, _⟩), ?_,
      ⟨_, hi.extend rfl h' hround⟩, .inr ⟨rfl, ?_, rfl, fun i hlt => moved_payload hlt hinside.2,
        kept_of_mem hi fun x hx => moved_mem hx⟩⟩
    · rw [hrealloc]
      exact grant (by omega)
    · refine iff_of_false (by omega) fun hsame => ?_
      cases hround.symm.trans hsame
      omega

/-- A block that was resized lies where it was, or at an address that was not handed out. -/
theorem resize_fresh (libc : Libc Arena) (hi : Inv s sizes) {ptr size : ℕ}
    (hv : s.Valid (.resize ptr size)) {s' : Client}
    (hstep : step libc s (.resize ptr size) = .ok ((.ok, p), s')) : p = ptr ∨ s.live p = none := by
  obtain ⟨hsize, hlive, hgrows⟩ := hv
  have hheader := headerSize_spec.2.1
  have hinside := hi.inside hlive
  obtain ⟨q, hq, hptr⟩ := hi.exists_piece hlive
  rw [step_resize libc s hsize] at hstep
  rcases vtableRealloc_spec hi.holds hsize hq hgrows with
    ⟨-, hrealloc⟩ | ⟨-, -, hrealloc⟩ | ⟨m, -, -, -, hrealloc, -⟩ <;> rw [← hptr] at hrealloc <;>
    rw [hrealloc] at hstep
  · cases hstep.symm.trans (grant (by omega))
    exact .inl rfl
  · cases hstep
  · cases hstep.symm.trans (grant (by omega))
    exact .inr hi.live_new

/-- **One call** keeps the invariant and has its effect. -/
theorem step_spec (libc : Libc Arena) (hi : Inv s sizes) {c : Call} (hv : s.Valid c) :
    Sat (step libc s c) fun t => (∃ sizes', Inv t.2 sizes') ∧ Effect s c t.1 t.2 := by
  cases c with
  | alloc size => exact alloc_spec libc hi hv
  | resize ptr size => exact resize_spec libc hi hv
  | write ptr offset bytes =>
    obtain ⟨k, hk, hle⟩ := hv
    exact ⟨_, rfl, ⟨sizes, hi.write hk hle⟩, rfl, rfl⟩
  | reset =>
    obtain ⟨hreset, h'⟩ := hi.holds.reset
    refine ⟨((.ok, 0), ⟨{ s.arena with offset := 0 }, fun _ => none⟩), ?_, ⟨[], h', ?_, ?_⟩,
      fun _ => rfl, h'.balance.1⟩
    · rw [step, hreset]
      rfl
    · exact fun p k hp => (by cases hp)
    · exact fun q n hq => (by cases hq)

/-! ## Every state of a run -/

/-- What was handed out since the last reset is aligned, inside the buffer, and
clear of everything else that was handed out and of every header. -/
structure Laid (s : Client) : Prop where
  balance : ∃ taken free, used s.arena = .ok taken ∧ available s.arena = .ok free ∧
    taken ≤ s.arena.capacity ∧ taken + free = s.arena.capacity
  rounded : ∀ p k, s.live p = some k → alignUpOverflow k memoryAlign = some (payload s.arena p)
  aligned : ∀ p k, s.live p = some k → memoryAlign ∣ p
  inside : ∀ p k, s.live p = some k → s.arena.buffer + headerSize ≤ p ∧
    p + payload s.arena p ≤ s.arena.buffer + s.arena.capacity
  disjoint : ∀ p k q j, s.live p = some k → s.live q = some j → p ≠ q →
    p + payload s.arena p ≤ q ∨ q + payload s.arena q ≤ p
  headers : ∀ p k q j, s.live p = some k → s.live q = some j →
    p + payload s.arena p ≤ q - headerSize ∨ q ≤ p

/-- Pieces that are apart, header included. -/
theorem pieces_apart (hi : Inv s sizes) (hp : s.live p = some k) {j : ℕ} (hq : s.live q = some j)
    (hne : p ≠ q) :
    p + payload s.arena p ≤ q - headerSize ∨ q + payload s.arena q ≤ p - headerSize := by
  obtain ⟨a, ha, hpa⟩ := hi.exists_piece (Option.ne_none_iff_exists'.2 ⟨k, hp⟩)
  obtain ⟨b, hb, hqb⟩ := hi.exists_piece (Option.ne_none_iff_exists'.2 ⟨j, hq⟩)
  rcases Tiling.separated ha hb with hsame | hsep
  · have hab : a = b := congrArg Prod.fst hsame
    exact absurd (by omega) hne
  · unfold width at hsep
    dsimp only at hsep
    omega

theorem laid_of_inv (hi : Inv s sizes) : Laid s where
  balance := by
    have hoffset := hi.holds.offset_le
    exact ⟨_, _, hi.holds.balance.1, hi.holds.balance.2, hoffset, by omega⟩
  rounded p k hp := hi.rounded hp
  aligned p k hp := by
    obtain ⟨q, hq, hpq⟩ := hi.exists_piece (Option.ne_none_iff_exists'.2 ⟨k, hp⟩)
    rw [hpq]
    exact (hi.holds.piece_dvd hq).add headerSize_spec.1
  inside p k hp := by
    have hinside := hi.inside (Option.ne_none_iff_exists'.2 ⟨k, hp⟩)
    have hoffset := hi.holds.offset_le
    omega
  disjoint p k q j hp hq hne := by
    have := pieces_apart hi hp hq hne
    omega
  headers p k q j hp hq := by
    by_cases hne : p = q
    · exact .inr hne.ge
    · have := pieces_apart hi hp hq hne
      omega

end Client

end Layout

namespace Client

section Lp64

local instance : Platform := lp64

/-- A block that has to move, one that stays, a request that does not fit, and a
reset. -/
def crossing : List Call :=
  [.alloc 8, .write 80 0 [1, 2], .resize 80 32, .write 112 30 [3, 4], .alloc 7, .resize 112 20,
    .alloc 81, .resize 160 sizeMax, .reset, .alloc 8]

end Lp64

end Client
end Arena
end K4c
