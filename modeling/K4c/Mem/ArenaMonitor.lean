import Mathlib.Tactic
import K4c.Mem.ArenaRuns
import K4c.Mem.Blocks

/-!
# The assertions of the arena

A container knows the size of its block, and the arena the rounded one that it has
written in front of it.  Here the memory of the containers is put behind the view of an
arena twice: as it is, and with a look at every request before it is answered, from the
side of the arena.

* `Client.Reached` — the states of an arena and what was handed out of it.
* `TakesAlloc`, `TakesResize` — no arena that still has the block stops at the request.
* `monitored` — the view that stops where one does; `alloc_monitored`,
  `resize_monitored` — a request that does not shrink a block passes.
* `Mirrors` — the blocks of a memory are what an arena has handed out;
  `Mirrors.alloc`, `Mirrors.resize` — they are so after the next request, for one of the
  answers that the memory can give.
-/

namespace K4c
namespace Arena

open Exec Words Blocks

section Monitor

variable [Platform]

/-! ## Arenas in use -/

/-- A new arena, and every state after valid calls. -/
inductive Client.Reached (libc : Libc Arena) : Client → Prop
  | create {ν : Type} {libc₀ : Libc ν} {mem : Words.Memory} {w w' : ν} {capacity : ℕ}
      {st : Status} {a : Arena} : libc₀.Placed →
      Arena.create libc₀ mem w capacity = .ok ((st, some a), w') → Reached libc (start a)
  | call {s s' : Client} {c : Call} {o : Status × ℕ} : Reached libc s → s.Valid c →
      step libc s c = .ok (o, s') → Reached libc s'

variable {libc : Libc Arena} {s s' : Client} {ptr size n : ℕ}

theorem Client.Reached.inv (h : s.Reached libc) : ∃ sizes, Inv s sizes := by
  induction h with
  | create hplaced hcreate =>
    exact ⟨[], (create_spec hplaced hcreate).2, fun _ _ hp => (by cases hp),
      fun _ _ hq => (by cases hq)⟩
  | call _ hvalid hstep ih =>
    obtain ⟨sizes, hi⟩ := ih
    obtain ⟨t, hstep', hinv, -⟩ := step_spec libc hi hvalid
    cases hstep.symm.trans hstep'
    exact hinv

/-! ## What the arena takes -/

/-- No arena stops at a request for a new block of this size. -/
def TakesAlloc (size : ℕ) : Prop :=
  ∀ (libc : Libc Arena) (s : Client), s.Reached libc →
    Sat (vtableAlloc s.arena size) fun _ => True

/-- The block can be resized to this size, which is not zero: in every arena that has it,
the rounded size is not below the one in its header, and the arena does not stop. -/
def TakesResize (w : Memory) (p size : ℕ) : Prop :=
  0 < size ∧ ∃ n, w.sizeOf p = some n ∧
    ∀ (libc : Libc Arena) (s : Client) (ptr : ℕ), s.Reached libc → s.live ptr = some n →
      (∀ m ∈ alignUpOverflow size memoryAlign, payload s.arena ptr ≤ m) ∧
        Sat (vtableRealloc s.arena ptr size) fun _ => True

theorem takesAlloc_of_pos (hsize : 0 < size) : TakesAlloc size := by
  intro libc s hs
  obtain ⟨sizes, hi⟩ := hs.inv
  rcases vtableAlloc_spec hi.holds hsize with ⟨-, halloc⟩ | ⟨-, n, -, -, halloc, -⟩
  · exact ⟨_, halloc, trivial⟩
  · exact ⟨_, halloc, trivial⟩

/-- **A block that does not shrink** can be resized. -/
theorem takesResize_of_le {w : Memory} {p : ℕ} (hp : w.sizeOf p = some n) (hsize : 0 < size)
    (hle : n ≤ size) : TakesResize w p size := by
  refine ⟨hsize, n, hp, fun libc s ptr hs hlive => ?_⟩
  obtain ⟨sizes, hi⟩ := hs.inv
  obtain ⟨q, m, hq, rfl, hround⟩ := hi.granted ptr n hlive
  have hgrows : ∀ k, alignUpOverflow size memoryAlign = some k → m ≤ k := fun k hk =>
    alignUpOverflow_mono hle hround hk
  rw [hi.payload_eq hq]
  refine ⟨hgrows, ?_⟩
  rcases vtableRealloc_spec hi.holds hsize hq hgrows with
    ⟨-, hrealloc⟩ | ⟨-, -, hrealloc⟩ | ⟨k, -, -, -, hrealloc, -⟩
  · exact ⟨_, hrealloc, trivial⟩
  · exact ⟨_, hrealloc, trivial⟩
  · exact ⟨_, hrealloc, trivial⟩

/-! ## The two views -/

/-- The memory behind the view of an arena: nothing is asserted. -/
def blockView : Allocator Memory := Memory.view allocatorView.features

open Classical in
/-- The same memory, where every request has to be one that the arena takes.  With
`releases` the view promises to release blocks one by one and has no operation for it:
then `k4c_dealloc`, and with it a resize to zero, is a failed assertion too. -/
noncomputable def monitored (releases : Bool) : Allocator Memory where
  features := { allocatorView.features with dealloc := releases }
  vtable := some {
    alloc := some fun w size => do
      check (TakesAlloc size) "fatal: k4c_arena_alloc invalid arguments"
      Memory.libc.malloc w size
    resize := some fun w p size => do
      check (TakesResize w p size) "fatal: k4c_arena_realloc cannot shrink allocation"
      Memory.libc.realloc w p size
    dealloc := none }

theorem backed_blockView : Backed blockView := .view _

variable {w : Memory} {p : ℕ} (releases : Bool)

open Classical in
theorem alloc_monitored (w : Memory) (hsize : 0 < size) :
    Allocator.alloc Memory.libc (some (monitored releases)) w size =
      Allocator.alloc Memory.libc (some blockView) w size := by
  change (check (TakesAlloc size) _ >>= fun _ => Memory.libc.malloc w size) >>= _ = _
  rw [check_of (takesAlloc_of_pos hsize), ok_bind]
  rfl

open Classical in
theorem resize_monitored (hp : w.sizeOf p = some n) (hsize : 0 < size) (hle : n ≤ size) :
    Allocator.resize Memory.libc (some (monitored releases)) w p size =
      Allocator.resize Memory.libc (some blockView) w p size := by
  rw [Allocator.resize, Allocator.resize, if_neg hsize.ne', if_neg hsize.ne']
  change (check (TakesResize w p size) _ >>= fun _ => Memory.libc.realloc w p size) >>= _ = _
  rw [check_of (takesResize_of_le hp hsize hle), ok_bind]
  rfl

/-! ## The arena behind the memory -/

/-- The blocks `o` of the memory are what the arena has handed out: each at an address of
its own, for its size. -/
structure Mirrors (libc : Libc Arena) (s : Client) (addr : ℕ → ℕ) (o : Set ℕ) (w : Memory) :
    Prop where
  reached : s.Reached libc
  granted : ∀ p ∈ o, ∃ n, w.sizeOf p = some n ∧ s.live (addr p) = some n
  distinct : ∀ p ∈ o, ∀ q ∈ o, addr p = addr q → p = q

/-- The memory, with this answer to come. -/
def answering (w : Memory) (g : Option Grant) : Memory := { w with answers := fun _ => g }

/-- The memory has answered a request as the arena has, which leaves it with the blocks
`o` if it was refused, and else with the new one beside `o'`. -/
def Agrees (libc : Libc Arena) (addr : ℕ → ℕ) (o o' : Set ℕ) (t : (Status × ℕ) × Client)
    (u : (Status × ℕ) × Memory) : Prop :=
  (t.1.1 ≠ .ok ∧ u.1.1 ≠ .ok ∧ Mirrors libc t.2 addr o u.2) ∨
  (t.1.1 = .ok ∧ u.1.1 = .ok ∧
    Mirrors libc t.2 (Function.update addr u.1.2 t.1.2) (insert u.1.2 o') u.2)

namespace Mirrors

variable {addr : ℕ → ℕ} {o o' : Set ℕ} {w' : Memory} {q : ℕ}

theorem same (h : Mirrors libc s addr o w) (hcells : w'.cells = w.cells) :
    Mirrors libc s addr o w' :=
  { h with
    granted := fun p hp => by
      obtain ⟨n, hn, hlive⟩ := h.granted p hp
      exact ⟨n, (Mem.sizeOf_congr (by rw [hcells])).trans hn, hlive⟩ }

/-- A block comes to the others, at an address that none of them has. -/
theorem insert (h : Mirrors libc s addr o w) (hsub : o' ⊆ o) (hreached : s'.Reached libc)
    (hq : q ∉ o') (hptr : ∀ p ∈ o', addr p ≠ ptr)
    (hlive : s'.live = Function.update s.live ptr (some size)) (hsize : w'.sizeOf q = some size)
    (hkept : ∀ p ∈ o', w'.sizeOf p = w.sizeOf p) :
    Mirrors libc s' (Function.update addr q ptr) (Insert.insert q o') w' := by
  have hne : ∀ p ∈ o', p ≠ q := fun p hp heq => hq (heq ▸ hp)
  have hold : ∀ p ∈ o', Function.update addr q ptr p = addr p := fun p hp =>
    Function.update_of_ne (hne p hp) ..
  have hnew : Function.update addr q ptr q = ptr := Function.update_self ..
  refine ⟨hreached, fun p hp => ?_, fun p hp r hr heq => ?_⟩
  · rcases hp with rfl | hp
    · exact ⟨size, hsize, by rw [hlive, hnew, Function.update_self]⟩
    · obtain ⟨n, hn, hlive'⟩ := h.granted p (hsub hp)
      refine ⟨n, (hkept p hp).trans hn, ?_⟩
      rw [hold p hp, hlive, Function.update_of_ne (hptr p hp), hlive']
  · rcases hp with rfl | hp <;> rcases hr with rfl | hr
    · rfl
    · rw [hnew, hold r hr] at heq
      exact absurd heq.symm (hptr r hr)
    · rw [hnew, hold p hp] at heq
      exact absurd heq (hptr p hp)
    · rw [hold p hp, hold r hr] at heq
      exact h.distinct p (hsub hp) r (hsub hr) heq

/-- **A new block**: whatever the arena answers, the memory can answer. -/
theorem alloc (h : Mirrors libc s addr o w) (hsize : 0 < size) :
    Sat (Client.step libc s (.alloc size)) fun t => ∃ g,
      Sat (Allocator.alloc Memory.libc (some blockView) (answering w g) size)
        (Agrees libc addr o o t) := by
  obtain ⟨sizes, hi⟩ := h.reached.inv
  obtain ⟨⟨⟨st, ptr⟩, s'⟩, hstep, -, heffect⟩ := Client.alloc_spec libc hi hsize
  refine ⟨_, hstep, ?_⟩
  rcases heffect with ⟨hst, -, rfl⟩ | ⟨rfl, -, hfree, hlive, -⟩
  · refine ⟨none, _, Allocator.alloc_refused backed_blockView size rfl, .inl ⟨hst, nofun, ?_⟩⟩
    exact h.same rfl
  · have hanswer : (answering w (some ⟨false, 0⟩)).answers w.requests = some ⟨false, 0⟩ := rfl
    obtain ⟨bs, w', halloc, -, hcells⟩ :=
      Allocator.alloc_granted backed_blockView size hanswer
    have hnext : ∀ p ∈ o, p ≠ w.next := fun p hp heq => by
      obtain ⟨n, hn, -⟩ := h.granted p hp
      obtain ⟨c, hc, -⟩ := Mem.exists_cell hn
      exact Mem.ne_next_of_live (Mem.live_of hc) heq
    refine ⟨some ⟨false, 0⟩, _, halloc, .inr ⟨rfl, rfl, ?_⟩⟩
    refine h.insert subset_rfl (.call (c := .alloc size) h.reached hsize hstep)
      (fun hq => hnext _ hq rfl) (fun p hp heq => ?_) hlive
      (Mem.sizeOf_eq (by rw [hcells]; exact Function.update_self ..))
      fun p hp => Mem.sizeOf_congr (by rw [hcells]; exact Function.update_of_ne (hnext p hp) ..)
    obtain ⟨n, -, hlive'⟩ := h.granted p hp
    rw [heq, hfree] at hlive'
    cases hlive'

/-- **A resize** that the arena takes: whatever it answers, the memory can answer. -/
theorem resize (h : Mirrors libc s addr o w) (hp : p ∈ o) (htakes : TakesResize w p size) :
    Sat (Client.step libc s (.resize (addr p) size)) fun t => ∃ g,
      Sat (Allocator.resize Memory.libc (some blockView) (answering w g) p size)
        (Agrees libc addr o (o \ {p}) t) := by
  obtain ⟨sizes, hi⟩ := h.reached.inv
  obtain ⟨n, hn, hlive⟩ := h.granted p hp
  obtain ⟨hsize, n', hn', htaken⟩ := htakes
  cases hn.symm.trans hn'
  have hvalid : s.Valid (.resize (addr p) size) :=
    ⟨hsize, by simp [hlive], (htaken libc s (addr p) h.reached hlive).1⟩
  obtain ⟨⟨⟨st, ptr⟩, s'⟩, hstep, -, heffect⟩ := Client.resize_spec libc hi hvalid
  refine ⟨_, hstep, ?_⟩
  obtain ⟨c, hc, -⟩ := Mem.exists_cell hn
  rcases heffect with ⟨hst, -, rfl⟩ | ⟨rfl, -, hlive', -⟩
  · refine ⟨none, _, Allocator.resize_refused backed_blockView hc hsize.ne' rfl,
      .inl ⟨hst, nofun, h.same rfl⟩⟩
  · -- the block moves where its address is another one
    set moves := decide (ptr ≠ addr p) with hmoves
    have hc' : (answering w (some ⟨moves, 0⟩)).cells p = some c := hc
    obtain ⟨w', hresize, hcells⟩ := Allocator.resize_answered backed_blockView hc' hsize.ne' rfl
    refine ⟨some ⟨moves, 0⟩, _, hresize, .inr ⟨rfl, rfl, ?_⟩⟩
    have hother : ∀ r ∈ o \ {p}, r ≠ p ∧ r ≠ w.next ∧ addr r ≠ ptr := by
      rintro r ⟨hr, hne⟩
      obtain ⟨k, hk, hliver⟩ := h.granted r hr
      obtain ⟨cr, hcr, -⟩ := Mem.exists_cell hk
      refine ⟨hne, Mem.ne_next_of_live (Mem.live_of hcr), fun heq => ?_⟩
      rcases Client.resize_fresh libc hi hvalid hstep with rfl | hfree
      · exact hne (h.distinct r hr p hp heq)
      · rw [heq, hfree] at hliver
        cases hliver
    refine h.insert Set.sdiff_subset (.call (c := .resize (addr p) size) h.reached hvalid hstep)
      (fun hq => ?_) (fun r hr => (hother r hr).2.2) hlive'
      (Mem.sizeOf_eq (by rw [hcells]; exact Function.update_self ..))
      fun r hr => Mem.sizeOf_congr ?_
    · have hne := hother _ hq
      dsimp only at hne
      split at hne
      · exact hne.2.1 rfl
      · exact hne.1 rfl
    · have hne := hother r hr
      rw [hcells, Function.update_of_ne, Function.update_of_ne hne.1]
      · rfl
      · dsimp only
        split
        · exact hne.2.1
        · exact hne.1

end Mirrors

theorem pos_of_takesAlloc (hs : s.Reached libc) (h : TakesAlloc size) : 0 < size := by
  obtain ⟨r, halloc, -⟩ := h libc s hs
  obtain ⟨_, -, halloc⟩ := bind_eq_ok.1 halloc
  obtain ⟨_, hsize, -⟩ := bind_eq_ok.1 halloc
  exact check_eq_ok.1 hsize

/-- Whatever the arena answers to a request that it takes, the memory can answer, and the
arena is behind it again. -/
def Follows (libc : Libc Arena) (s : Client) (addr : ℕ → ℕ) (o : Set ℕ) (w : Memory) : Prop :=
  (∀ size, TakesAlloc size → Sat (Client.step libc s (.alloc size)) fun t => ∃ g,
    Sat (Allocator.alloc Memory.libc (some blockView) (answering w g) size)
      (Agrees libc addr o o t)) ∧
  ∀ p ∈ o, ∀ size, TakesResize w p size →
    Sat (Client.step libc s (.resize (addr p) size)) fun t => ∃ g,
      Sat (Allocator.resize Memory.libc (some blockView) (answering w g) p size)
        (Agrees libc addr o (o \ {p}) t)

theorem Mirrors.follows {addr : ℕ → ℕ} {o : Set ℕ} (h : Mirrors libc s addr o w) :
    Follows libc s addr o w :=
  ⟨fun _ htakes => h.alloc (pos_of_takesAlloc h.reached htakes), fun _ hp _ => h.resize hp⟩

end Monitor

section Lp64

local instance : Platform := lp64

/-- A request that shrinks a block of 64 bytes to 40 does not pass. -/
example {w : Memory} {p : ℕ} (h : w.sizeOf p = some 64) : ¬ TakesResize w p 40 := by
  rintro ⟨-, n, hn, htaken⟩
  cases h.symm.trans hn
  obtain ⟨st, a, w', hcreate, hcheck⟩ := exists_of_check
    (r := create Libc.bump (fun _ => 0) 1 250)
    (f := fun a => decide (Sat (Client.step .exhausted (Client.start a) (.alloc 64)) fun t =>
      t.2.live 80 = some 64 ∧ payload t.2.arena 80 = 64)) (by decide +kernel)
  obtain ⟨t, hstep, hlive, hpayload⟩ := of_decide_eq_true hcheck
  have hreached : t.2.Reached .exhausted :=
    .call (c := .alloc 64) (.create Libc.bump_placed hcreate) (Nat.succ_pos 63) hstep
  have hle := (htaken _ t.2 80 hreached hlive).1 48 (by decide +kernel)
  omega

end Lp64

end Arena
end K4c
