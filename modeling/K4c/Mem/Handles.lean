import Mathlib.Tactic
import K4c.Mem.ArenaRuns
import K4c.Mem.HeapRuns
import K4c.Mem.Ram

/-!
# What libc gets back

A general heap and an arena take their handles and their buffers from libc.  A program
creates, calls and destroys any number of them, over a libc that may refuse every request.

* `Heap.Handle.create`, `Heap.Handle.destroy`, `Arena.Handle.create`, `Arena.Handle.destroy`
  — the same operations as before, with the addresses of the handles.
* `Accounts` — besides what was live before, these blocks of libc are live.
* `nothing_is_kept` — **after any run** they are the blocks of what has been created and not
  destroyed; when that is destroyed as well, libc is back where it was.
-/

namespace K4c

open Exec Backend Runs

variable {ν : Type}

/-! ## The handle of a list -/

namespace DoublyLinkedList

/-- `k4c_doubly_linked_list_create`: the address of the handle, and the list. -/
def create (libc : Libc ν) (a : Option (Allocator ν)) (w : ν) :
    Result ((Status × Option (ℕ × DoublyLinkedList)) × ν) := do
  let ((st, list), w) ← Allocator.alloc libc a w 48
  if st ≠ .ok then return ((st, none), w)
  return ((.ok, some (list, empty)), w)

/-- `k4c_doubly_linked_list_destroy`, with the allocator that the handle holds. -/
def destroy (libc : Libc ν) (a : Allocator ν) (w : ν) (list : ℕ) : Result ν := do
  check (list ≠ 0) "fatal: k4c_doubly_linked_list_destroy invalid arguments"
  Allocator.dealloc libc (some a) w list

end DoublyLinkedList

/-! ## The handles of heaps and arenas -/

/-- A heap, where its handle lies, and where the handle of its list lies. -/
structure Heap.Handle where
  self : ℕ
  list : ℕ
  heap : Heap

/-- An arena, and where its handle lies. -/
structure Arena.Handle where
  self : ℕ
  arena : Arena

namespace Heap.Handle

/-- The blocks of libc that a heap is made of. -/
def owned (h : Handle) : List (ℕ × ℕ) :=
  [(h.list, 48), (h.heap.buffer, h.heap.capacity), (h.self, 24)]

/-- `k4c_heap_create`, with the addresses of the handles. -/
def create [Platform] (libc : Libc ν) (mem : Words.Memory) (w : ν) (capacity : ℕ) :
    Result ((Status × Option Handle) × ν) := do
  check (capacity > headerSize + memoryAlign) "fatal: k4c_heap_create invalid capacity"
  match alignUpOverflow capacity memoryAlign with
  | none => return ((.overflow, none), w)
  | some capacity =>
    let ((st, self), w) ← Allocator.alloc libc none w 24
    if st ≠ .ok then return ((st, none), w)
    let ((st, buffer), w) ← Allocator.alloc libc none w capacity
    if st ≠ .ok then return ((st, none), ← Allocator.dealloc libc none w self)
    let ((st, blocks), w) ← DoublyLinkedList.create libc none w
    match blocks with
    | none =>
      let w ← Allocator.dealloc libc none w buffer
      return ((st, none), ← Allocator.dealloc libc none w self)
    | some (list, _) => return ((.ok, some ⟨self, list, ← init mem buffer capacity⟩), w)

/-- `k4c_heap_destroy`. -/
def destroy (libc : Libc ν) (w : ν) (h : Handle) : Result ν := do
  check (h.self ≠ 0) "fatal: k4c_heap_destroy invalid arguments"
  let w ← if h.list ≠ 0 then DoublyLinkedList.destroy libc (Allocator.copy none) w h.list
    else pure w
  let w ← Allocator.dealloc libc none w h.heap.buffer
  Allocator.dealloc libc none w h.self

end Heap.Handle

namespace Arena.Handle

/-- The blocks of libc that an arena is made of. -/
def owned (a : Handle) : List (ℕ × ℕ) := [(a.arena.buffer, a.arena.capacity), (a.self, 24)]

/-- `k4c_arena_create`, with the address of the handle. -/
def create [Platform] (libc : Libc ν) (mem : Words.Memory) (w : ν) (capacity : ℕ) :
    Result ((Status × Option Handle) × ν) := do
  check (capacity > 0) "fatal: k4c_arena_create invalid capacity"
  match alignUpOverflow capacity memoryAlign with
  | none => return ((.overflow, none), w)
  | some capacity =>
    let ((st, self), w) ← Allocator.alloc libc none w 24
    if st ≠ .ok then return ((st, none), w)
    let ((st, buffer), w) ← Allocator.alloc libc none w capacity
    if st ≠ .ok then return ((st, none), ← Allocator.dealloc libc none w self)
    return ((.ok, some ⟨self, mem, buffer, capacity, 0⟩), w)

/-- `k4c_arena_destroy`. -/
def destroy (libc : Libc ν) (w : ν) (a : Handle) : Result ν := do
  check (a.self ≠ 0) "fatal: k4c_arena_destroy invalid arguments"
  let w ← Allocator.dealloc libc none w a.arena.buffer
  Allocator.dealloc libc none w a.self

end Arena.Handle

/-! ## The operations without the addresses -/

section Forget

variable [Platform] (libc : Libc ν) (mem : Words.Memory) (w : ν) (capacity : ℕ)

/-- It is `Heap.create`, which does not tell where the handles lie. -/
theorem Heap.Handle.create_heap : Heap.create libc mem w capacity =
    (create libc mem w capacity).map (Prod.map (Prod.map id (Option.map heap)) id) := by
  unfold Heap.create create DoublyLinkedList.create
  rw [bind_then_map]
  congr 1
  funext _
  cases alignUpOverflow capacity memoryAlign with
  | none => rfl
  | some c =>
    dsimp only
    rw [bind_then_map]
    congr 1
    funext r
    split
    · rfl
    · rw [bind_then_map]
      congr 1
      funext r
      split
      · rw [bind_then_map]
        rfl
      · cases hlist : Allocator.alloc libc none r.2 48 with
        | error e => rfl
        | ok l =>
          rw [ok_bind, ok_bind]
          by_cases hst : l.1.1 = .ok
          · simp only [hst, ne_eq, not_true_eq_false, if_false, pure_eq_ok, ok_bind,
              bind_then_map]
            rfl
          · simp only [hst, ne_eq, not_false_eq_true, if_true, pure_eq_ok, ok_bind, bind_then_map]
            rfl

/-- It is `Arena.create`, which does not tell where the handle lies. -/
theorem Arena.Handle.create_arena : Arena.create libc mem w capacity =
    (create libc mem w capacity).map (Prod.map (Prod.map id (Option.map arena)) id) := by
  unfold Arena.create create
  rw [bind_then_map]
  congr 1
  funext _
  cases alignUpOverflow capacity memoryAlign with
  | none => rfl
  | some c =>
    dsimp only
    rw [bind_then_map]
    congr 1
    funext r
    split
    · rfl
    · rw [bind_then_map]
      congr 1
      funext r
      split
      · rw [bind_then_map]
        rfl
      · rfl

end Forget

/-! ## The blocks of libc -/

namespace Handles

/-- Besides what is live in `live₀`, these blocks are live, each at an address of its own. -/
structure Holding (live₀ live : Live) (bs : List (ℕ × ℕ)) : Prop where
  nodup : (bs.map Prod.fst).Nodup
  held : ∀ b ∈ bs, live b.1 = some b.2 ∧ live₀ b.1 = none
  others : ∀ p ∉ bs.map Prod.fst, live p = live₀ p

section Blocks

variable {live₀ live : Live} {bs bs' : List (ℕ × ℕ)} {p n : ℕ}

theorem ne_of_mem {b : ℕ × ℕ} (hp : p ∉ bs.map Prod.fst) (hb : b ∈ bs) : b.1 ≠ p := by
  rintro rfl
  exact hp (List.mem_map_of_mem hb)

theorem Holding.nil (live₀ : Live) : Holding live₀ live₀ [] :=
  ⟨List.nodup_nil, nofun, fun _ _ => rfl⟩

theorem Holding.eq (h : Holding live₀ live []) : live = live₀ :=
  funext fun p => h.others p List.not_mem_nil

theorem Holding.perm (h : Holding live₀ live bs) (hp : bs.Perm bs') : Holding live₀ live bs' where
  nodup := (hp.map _).nodup_iff.1 h.nodup
  held b hb := h.held b (hp.mem_iff.2 hb)
  others q hq := h.others q fun hmem => hq ((hp.map _).mem_iff.1 hmem)

/-- A block is handed out. -/
theorem Holding.cons (h : Holding live₀ live bs) (hnew : live p = none) :
    Holding live₀ (Function.update live p (some n)) ((p, n) :: bs) := by
  have hp : p ∉ bs.map Prod.fst := by
    intro hmem
    obtain ⟨b, hb, rfl⟩ := List.mem_map.1 hmem
    rw [(h.held b hb).1] at hnew
    cases hnew
  constructor
  case nodup => exact List.nodup_cons.2 ⟨hp, h.nodup⟩
  case held =>
    intro b hb
    rcases List.mem_cons.1 hb with rfl | hb
    · exact ⟨Function.update_self .., (h.others p hp).symm.trans hnew⟩
    · rw [Function.update_of_ne (ne_of_mem hp hb)]
      exact h.held b hb
  case others =>
    intro q hq
    obtain ⟨hqp, hq⟩ := not_or.1 (List.mem_cons.not.1 hq)
    rw [Function.update_of_ne hqp]
    exact h.others q hq

/-- A block is handed in. -/
theorem Holding.tail (h : Holding live₀ live ((p, n) :: bs)) :
    Holding live₀ (Function.update live p none) bs := by
  obtain ⟨hp, hnodup⟩ := List.nodup_cons.1 h.nodup
  refine ⟨hnodup, fun b hb => ?_, fun q hq => ?_⟩
  · rw [Function.update_of_ne (ne_of_mem hp hb)]
    exact h.held b (List.mem_cons_of_mem _ hb)
  · by_cases hqp : q = p
    · subst hqp
      rw [Function.update_self, (h.held _ (List.mem_cons_self ..)).2]
    · rw [Function.update_of_ne hqp]
      exact h.others q (List.mem_cons.not.2 (not_or.2 ⟨hqp, hq⟩))

end Blocks

section Requests

variable (serves : ν → Live → Prop) (live₀ : Live)

/-- Besides what was live before, these blocks of libc are live. -/
def Accounts (w : ν) (bs : List (ℕ × ℕ)) : Prop := ∃ live, serves w live ∧ Holding live₀ live bs

/-- What comes of a request to libc. -/
inductive Asked [Platform] (bs : List (ℕ × ℕ)) (size : ℕ) : (Status × ℕ) × ν → Prop
  | refused {p : ℕ} {w : ν} : Accounts serves live₀ w bs → Asked bs size ((.noMemory, p), w)
  | granted {p : ℕ} {w : ν} : p ≠ 0 → memoryAlign ∣ p → p + size ≤ sizeMax →
      Accounts serves live₀ w ((p, size) :: bs) → Asked bs size ((.ok, p), w)

/-- What comes of creating something that is made of the blocks `owned`. -/
inductive Created {H : Type} (owned : H → List (ℕ × ℕ)) (sound : H → Prop) (bs : List (ℕ × ℕ)) :
    (Status × Option H) × ν → Prop
  | failed {st : Status} {w : ν} : st ≠ .ok → Accounts serves live₀ w bs →
      Created owned sound bs ((st, none), w)
  | made {h : H} {w : ν} : sound h → Accounts serves live₀ w (owned h ++ bs) →
      Created owned sound bs ((.ok, some h), w)

variable {serves live₀} {view : Window ν} {libc : Libc ν} {w : ν} {bs bs' : List (ℕ × ℕ)}
  {p n size : ℕ}

theorem Accounts.perm (h : Accounts serves live₀ w bs) (hp : bs.Perm bs') :
    Accounts serves live₀ w bs' := by
  obtain ⟨live, hs, hh⟩ := h
  exact ⟨live, hs, hh.perm hp⟩

theorem Accounts.ne_zero (hops : Conforms view serves libc)
    (h : Accounts serves live₀ w bs) (hp : (p, n) ∈ bs) : p ≠ 0 := by
  rintro rfl
  obtain ⟨live, hs, hh⟩ := h
  have hlive := (hh.held _ hp).1
  rw [hops.null w live hs] at hlive
  cases hlive

theorem alloc_asked [Platform] (hops : Conforms view serves libc) (hplaced : libc.Placed)
    (h : Accounts serves live₀ w bs) (hsize : 0 < size) :
    Sat (Allocator.alloc libc none w size) (Asked serves live₀ bs size) := by
  obtain ⟨live, hs, hh⟩ := h
  obtain ⟨⟨p, w'⟩, hmalloc, hhanded⟩ := hops.malloc w live size hs hsize
  have halloc : Allocator.alloc libc none w size = .ok (Allocator.answer (p, w')) := by
    change (libc.malloc w size >>= fun r => .ok (Allocator.answer r)) = _
    rw [hmalloc, ok_bind]
  rw [halloc]
  cases hhanded with
  | refused hs' _ => exact Sat.ok (.refused ⟨live, hs', hh⟩)
  | granted hp hnew hs' _ =>
    obtain ⟨hdvd, hle⟩ := hplaced w size p w' hmalloc hp
    rw [Allocator.answer, if_neg hp]
    exact Sat.ok (.granted hp hdvd hle ⟨_, hs', hh.cons hnew⟩)

theorem free_accounts (hops : Conforms view serves libc)
    (h : Accounts serves live₀ w ((p, n) :: bs)) :
    Sat (libc.free w p) fun w' => Accounts serves live₀ w' bs := by
  obtain ⟨live, hs, hh⟩ := h
  have hlive : live p ≠ none := by
    rw [(hh.held _ (List.mem_cons_self ..)).1]
    exact Option.some_ne_none n
  exact (hops.free w live p hs hlive).mono fun w' hw => ⟨_, hw.1, hh.tail⟩

/-! ## Creating and destroying -/

theorem heap_destroy_spec (hops : Conforms view serves libc) {h : Heap.Handle}
    (hacc : Accounts serves live₀ w (h.owned ++ bs)) :
    Sat (h.destroy libc w) fun w' => Accounts serves live₀ w' bs := by
  have hself : h.self ≠ 0 := hacc.ne_zero hops (n := 24) (by simp [Heap.Handle.owned])
  have hlist : h.list ≠ 0 := hacc.ne_zero hops (n := 48) (by simp [Heap.Handle.owned])
  unfold Heap.Handle.destroy DoublyLinkedList.destroy
  rw [check_of hself, ok_bind, if_pos hlist, check_of hlist, ok_bind]
  exact (free_accounts hops hacc).bind fun w₁ h₁ =>
    (free_accounts hops h₁).bind fun w₂ h₂ => free_accounts hops h₂

theorem arena_destroy_spec (hops : Conforms view serves libc) {a : Arena.Handle}
    (hacc : Accounts serves live₀ w (a.owned ++ bs)) :
    Sat (a.destroy libc w) fun w' => Accounts serves live₀ w' bs := by
  have hself : a.self ≠ 0 := hacc.ne_zero hops (n := 24) (by simp [Arena.Handle.owned])
  unfold Arena.Handle.destroy
  rw [check_of hself, ok_bind]
  exact (free_accounts hops hacc).bind fun w₁ h₁ => free_accounts hops h₁

variable [Platform]

theorem list_create_spec (hops : Conforms view serves libc) (hplaced : libc.Placed)
    (h : Accounts serves live₀ w bs) : Sat (DoublyLinkedList.create libc none w)
      (Created serves live₀ (fun l => [(l.1, 48)]) (fun _ => True) bs) := by
  unfold DoublyLinkedList.create
  refine (alloc_asked hops hplaced h (by decide)).bind fun r hlist => ?_
  cases hlist with
  | refused hw => exact Sat.ok (.failed (by decide) hw)
  | granted _ _ _ hw => exact Sat.ok (.made trivial hw)

theorem heap_create_spec (hops : Conforms view serves libc) (hplaced : libc.Placed)
    (h : Accounts serves live₀ w bs) (mem : Words.Memory) {capacity : ℕ}
    (hcapacity : capacity > Heap.headerSize + memoryAlign) :
    Sat (Heap.Handle.create libc mem w capacity) (Created serves live₀
      Heap.Handle.owned (fun h => ∃ cs, Heap.Client.Inv (.start h.heap) cs) bs) := by
  unfold Heap.Handle.create
  rw [check_of hcapacity, ok_bind]
  cases hround : alignUpOverflow capacity memoryAlign with
  | none => exact Sat.ok (.failed (by decide) h)
  | some c =>
    obtain ⟨hdvd, hle, -, -⟩ := alignUpOverflow_eq_some hround
    refine (alloc_asked hops hplaced h (by decide)).bind fun r hself => ?_
    cases hself with
    | refused hw => exact Sat.ok (.failed (by decide) hw)
    | @granted self w₁ _ _ _ hw =>
      refine (alloc_asked hops hplaced hw (show 0 < c by omega)).bind fun r hbuffer => ?_
      cases hbuffer with
      | refused hw =>
        -- the handle goes back
        exact (free_accounts hops hw).bind fun w₂ hw => Sat.ok (.failed (by decide) hw)
      | @granted buffer w₂ hne haligned hmax hw =>
        obtain ⟨heap, hinit, hbuf, hcap, hholds⟩ := Heap.init_spec mem (Nat.pos_of_ne_zero hne)
          haligned hdvd (by omega) hmax
        refine (list_create_spec hops hplaced hw).bind fun r hlist => ?_
        cases hlist with
        | failed hst hw =>
          -- the buffer goes back, and then the handle
          exact (free_accounts hops hw).bind fun w₃ hw => (free_accounts hops hw).bind
            fun w₄ hw => Sat.ok (.failed hst hw)
        | @made l w₃ _ hw =>
          refine ⟨((.ok, some ⟨self, l.1, heap⟩), w₃), ?_, .made ?_ ?_⟩
          · dsimp only
            rw [hinit]
            rfl
          · exact ⟨_, hholds, fun _ _ hp => (by cases hp), fun _ _ hp => (by cases hp)⟩
          · rw [Heap.Handle.owned, hbuf, hcap]
            exact hw

theorem arena_create_spec (hops : Conforms view serves libc) (hplaced : libc.Placed)
    (h : Accounts serves live₀ w bs) (mem : Words.Memory) {capacity : ℕ}
    (hcapacity : capacity > 0) :
    Sat (Arena.Handle.create libc mem w capacity) (Created serves live₀
      Arena.Handle.owned (fun a => ∃ sizes, Arena.Inv (.start a.arena) sizes) bs) := by
  unfold Arena.Handle.create
  rw [check_of hcapacity, ok_bind]
  cases hround : alignUpOverflow capacity memoryAlign with
  | none => exact Sat.ok (.failed (by decide) h)
  | some c =>
    obtain ⟨-, hle, -, -⟩ := alignUpOverflow_eq_some hround
    refine (alloc_asked hops hplaced h (by decide)).bind fun r hself => ?_
    cases hself with
    | refused hw => exact Sat.ok (.failed (by decide) hw)
    | granted _ _ _ hw =>
      refine (alloc_asked hops hplaced hw (show 0 < c by omega)).bind fun r hbuffer => ?_
      cases hbuffer with
      | refused hw =>
        exact (free_accounts hops hw).bind fun w₂ hw => Sat.ok (.failed (by decide) hw)
      | granted hne haligned hmax hw =>
        refine Sat.ok (.made ⟨[], ?_, fun _ _ hp => (by cases hp), fun _ _ hq => (by cases hq)⟩ hw)
        exact ⟨hne, haligned, hmax, rfl, Nat.zero_le _, fun _ hn => (by cases hn),
          fun _ _ hq => (by cases hq)⟩

end Requests

/-! ## Calls -/

/-- No call moves the buffer of an arena. -/
theorem arena_step_stays [Platform] (libc : Libc Arena) {s : Arena.Client} {sizes : List ℕ}
    (hi : Arena.Inv s sizes) {c : Arena.Call} (hv : s.Valid c) :
    Sat (Arena.Client.step libc s c) fun r =>
      r.2.arena.buffer = s.arena.buffer ∧ r.2.arena.capacity = s.arena.capacity := by
  have hheader := Arena.headerSize_spec.2.1
  cases c with
  | alloc size =>
    change Sat ((Arena.vtableAlloc s.arena size >>= fun res => .ok (Allocator.answer res)) >>= _) _
    rcases Arena.vtableAlloc_spec hi.holds hv with ⟨-, halloc⟩ | ⟨-, n, -, -, halloc, -⟩
    · rw [halloc]
      exact Sat.ok ⟨rfl, rfl⟩
    · rw [halloc]
      exact ⟨_, Arena.Client.grant (by omega), rfl, rfl⟩
  | resize ptr size =>
    obtain ⟨hsize, hlive, hgrows⟩ := hv
    obtain ⟨q, hq, hptr⟩ := hi.exists_piece hlive
    rw [Arena.Client.step_resize libc s hsize, hptr]
    rcases Arena.vtableRealloc_spec hi.holds hsize hq hgrows with
      ⟨-, hrealloc⟩ | ⟨-, -, hrealloc⟩ | ⟨m, -, -, -, hrealloc, -⟩
    · rw [hrealloc]
      exact ⟨_, Arena.Client.grant (by omega), rfl, rfl⟩
    · rw [hrealloc]
      exact Sat.ok ⟨rfl, rfl⟩
    · rw [hrealloc]
      exact ⟨_, Arena.Client.grant (by omega), rfl, rfl⟩
  | write ptr offset bytes => exact Sat.ok ⟨rfl, rfl⟩
  | reset =>
    obtain ⟨hreset, -⟩ := hi.holds.reset
    refine ⟨((.ok, 0), ⟨{ s.arena with offset := 0 }, fun _ => none⟩), ?_, rfl, rfl⟩
    rw [Arena.Client.step, hreset]
    rfl

/-! ## A program -/

/-- What a program has made: a heap or an arena, and what was handed out from it. -/
inductive Made where
  | heap (h : Heap.Handle) (live : ℕ → Option ℕ)
  | arena (a : Arena.Handle) (live : ℕ → Option ℕ)

namespace Made

/-- The blocks of libc that it is made of. -/
def owned : Made → List (ℕ × ℕ)
  | .heap h _ => h.owned
  | .arena a _ => a.owned

def destroy (libc : Libc ν) (w : ν) : Made → Result ν
  | .heap h _ => h.destroy libc w
  | .arena a _ => a.destroy libc w

/-- It is in a state that its clients can bring it to. -/
def Sound [Platform] : Made → Prop
  | .heap h live => ∃ cs, Heap.Client.Inv ⟨h.heap, live⟩ cs
  | .arena a live => ∃ sizes, Arena.Inv ⟨a.arena, live⟩ sizes

end Made

/-- The memory of libc, and what has been made and not destroyed, the latest first. -/
structure State (ν : Type) where
  memory : ν
  made : List Made

/-- What a program does; the bytes in memory are any when something is created. -/
inductive Act where
  | createHeap (mem : Words.Memory) (capacity : ℕ)
  | createArena (mem : Words.Memory) (capacity : ℕ)
  | callHeap (i : ℕ) (c : Heap.Call)
  | callArena (i : ℕ) (c : Arena.Call)
  | destroy (i : ℕ)

section Promises

variable [Platform]

/-- It is a heap, and may be called so. -/
def HeapReady : Option Made → Heap.Call → Prop
  | some (.heap h live), c => Heap.Client.Valid ⟨h.heap, live⟩ c
  | some (.arena _ _), _ => False
  | none, _ => False

/-- It is an arena, and may be called so. -/
def ArenaReady : Option Made → Arena.Call → Prop
  | some (.arena a live), c => Arena.Client.Valid ⟨a.arena, live⟩ c
  | some (.heap _ _), _ => False
  | none, _ => False

/-- What a program promises. -/
def Ready (s : State ν) : Act → Prop
  | .createHeap _ capacity => capacity > Heap.headerSize + memoryAlign
  | .createArena _ capacity => capacity > 0
  | .callHeap i c => HeapReady s.made[i]? c
  | .callArena i c => ArenaReady s.made[i]? c
  | .destroy i => i < s.made.length

instance : (m : Option Made) → (c : Heap.Call) → Decidable (HeapReady m c)
  | some (.heap h live), c => inferInstanceAs (Decidable (Heap.Client.Valid ⟨h.heap, live⟩ c))
  | some (.arena _ _), _ => .isFalse id
  | none, _ => .isFalse id

instance : (m : Option Made) → (c : Arena.Call) → Decidable (ArenaReady m c)
  | some (.arena a live), c => inferInstanceAs (Decidable (Arena.Client.Valid ⟨a.arena, live⟩ c))
  | some (.heap _ _), _ => .isFalse id
  | none, _ => .isFalse id

instance (s : State ν) : (l : Act) → Decidable (Ready s l)
  | .createHeap _ capacity =>
    inferInstanceAs (Decidable (capacity > Heap.headerSize + memoryAlign))
  | .createArena _ capacity => inferInstanceAs (Decidable (capacity > 0))
  | .callHeap i c => inferInstanceAs (Decidable (HeapReady s.made[i]? c))
  | .callArena i c => inferInstanceAs (Decidable (ArenaReady s.made[i]? c))
  | .destroy i => inferInstanceAs (Decidable (i < s.made.length))

end Promises

section Program

variable [Platform] (libc : Libc ν) (libcH : Libc Heap) (libcA : Libc Arena)

/-- One act: the status and the pointer that came back.  The views of heaps and arenas never
reach `libcH` and `libcA`. -/
def step (s : State ν) : Act → Result ((Status × ℕ) × State ν)
  | .createHeap mem capacity => do
    let ((st, h), memory) ← Heap.Handle.create libc mem s.memory capacity
    let new := h.map fun h => .heap h fun _ => none
    return ((st, 0), ⟨memory, new.toList ++ s.made⟩)
  | .createArena mem capacity => do
    let ((st, a), memory) ← Arena.Handle.create libc mem s.memory capacity
    let new := a.map fun a => .arena a fun _ => none
    return ((st, 0), ⟨memory, new.toList ++ s.made⟩)
  | .callHeap i c => match s.made[i]? with
    | some (.heap h live) => do
      let (o, t) ← Heap.Client.step libcH ⟨h.heap, live⟩ c
      return (o, { s with made := s.made.set i (.heap { h with heap := t.heap } t.live) })
    | _ => .error .badAccess
  | .callArena i c => match s.made[i]? with
    | some (.arena a live) => do
      let (o, t) ← Arena.Client.step libcA ⟨a.arena, live⟩ c
      return (o, { s with made := s.made.set i (.arena { a with arena := t.arena } t.live) })
    | _ => .error .badAccess
  | .destroy i => match s.made[i]? with
    | some m => do
      let memory ← m.destroy libc s.memory
      return ((.ok, 0), ⟨memory, s.made.eraseIdx i⟩)
    | none => .error .badAccess

/-- Everything is destroyed. -/
def destroyAll : List Made → ν → Result ν
  | [], w => .ok w
  | m :: ms, w => do
    let w ← m.destroy libc w
    destroyAll ms w

end Program

section Runs

variable {serves : ν → Live → Prop} {live₀ : Live} {view : Window ν} {libc : Libc ν}
  {libcH : Libc Heap} {libcA : Libc Arena} {s : State ν} {w : ν}

theorem destroy_spec (hops : Conforms view serves libc) {m : Made} {bs : List (ℕ × ℕ)}
    (h : Accounts serves live₀ w (m.owned ++ bs)) :
    Sat (m.destroy libc w) fun w' => Accounts serves live₀ w' bs := by
  cases m with
  | heap a live => exact heap_destroy_spec hops h
  | arena a live => exact arena_destroy_spec hops h

/-- When everything is destroyed, libc is back where it was. -/
theorem destroyAll_spec (hops : Conforms view serves libc) : ∀ (ms : List Made) (w : ν),
    Accounts serves live₀ w (ms.flatMap Made.owned) →
      Sat (destroyAll libc ms w) fun w' => serves w' live₀ := by
  intro ms
  induction ms with
  | nil =>
    rintro w ⟨live, hs, hh⟩
    rw [hh.eq] at hs
    exact Sat.ok hs
  | cons m ms ih =>
    intro w h
    exact (destroy_spec hops h).bind fun w' hw => ih w' hw

variable [Platform]

/-- What is live in libc, and the states of what has been made. -/
structure Inv (serves : ν → Live → Prop) (live₀ : Live) (s : State ν) : Prop where
  accounts : Accounts serves live₀ s.memory (s.made.flatMap Made.owned)
  sound : ∀ m ∈ s.made, m.Sound

/-- A call to one of them takes nothing from libc. -/
theorem Inv.set (h : Inv serves live₀ s) {i : ℕ} {m m' : Made} (hm : s.made[i]? = some m)
    (howned : m'.owned = m.owned) (hsound : m'.Sound) :
    Inv serves live₀ { s with made := s.made.set i m' } := by
  obtain ⟨hi, rfl⟩ := List.getElem?_eq_some_iff.1 hm
  constructor
  case accounts =>
    have hlt : i < (s.made.map Made.owned).length := by rwa [List.length_map]
    have hget : (s.made.map Made.owned)[i] = s.made[i].owned := List.getElem_map ..
    have hsame : (s.made.set i m').map Made.owned = s.made.map Made.owned := by
      rw [List.map_set, howned, ← hget, List.set_getElem_self]
    rw [List.flatMap_def, hsame, ← List.flatMap_def]
    exact h.accounts
  case sound =>
    intro n hn
    rcases List.mem_or_eq_of_mem_set hn with hn | rfl
    · exact h.sound n hn
    · exact hsound

theorem Inv.eraseIdx (hops : Conforms view serves libc) (h : Inv serves live₀ s) {i : ℕ}
    (hi : i < s.made.length) : Sat (s.made[i].destroy libc s.memory) fun w =>
      Inv serves live₀ ⟨w, s.made.eraseIdx i⟩ := by
  have hperm : (s.made.flatMap Made.owned).Perm
      (s.made[i].owned ++ (s.made.eraseIdx i).flatMap Made.owned) :=
    (List.getElem_cons_eraseIdx_perm hi).symm.flatMap_right Made.owned
  refine (destroy_spec hops (h.accounts.perm hperm)).mono fun w hw => ⟨hw, fun m hm => ?_⟩
  exact h.sound m (List.mem_of_mem_eraseIdx hm)

/-- **One act.** -/
theorem step_inv (hops : Conforms view serves libc) (hplaced : libc.Placed)
    (h : Inv serves live₀ s) {l : Act} (hl : Ready s l) :
    Sat (step libc libcH libcA s l) fun p => Inv serves live₀ p.2 := by
  cases l with
  | createHeap mem capacity =>
    refine (heap_create_spec hops hplaced h.accounts mem hl).bind fun r hr => ?_
    cases hr with
    | failed _ hw => exact Sat.ok ⟨hw, h.sound⟩
    | made hsound hw => exact Sat.ok ⟨hw, List.forall_mem_cons.2 ⟨hsound, h.sound⟩⟩
  | createArena mem capacity =>
    refine (arena_create_spec hops hplaced h.accounts mem hl).bind fun r hr => ?_
    cases hr with
    | failed _ hw => exact Sat.ok ⟨hw, h.sound⟩
    | made hsound hw => exact Sat.ok ⟨hw, List.forall_mem_cons.2 ⟨hsound, h.sound⟩⟩
  | callHeap i c =>
    rw [Ready] at hl
    cases hm : s.made[i]? with
    | none => rw [hm] at hl; exact hl.elim
    | some m =>
      rw [hm] at hl
      cases m with
      | arena a live => exact hl.elim
      | heap a live =>
        obtain ⟨cs, hi⟩ := h.sound _ (List.mem_of_getElem? hm)
        rw [step, hm]
        refine (Heap.Client.step_spec hi hl).bind fun r hr => Sat.ok ?_
        obtain ⟨cs', hi', hbuffer, hcapacity, -, -⟩ := hr
        -- the blocks are the same ones, because a call does not move the buffer
        refine h.set hm ?_ ⟨cs', hi'⟩
        dsimp only [Made.owned, Heap.Handle.owned]
        rw [hbuffer, hcapacity]
  | callArena i c =>
    rw [Ready] at hl
    cases hm : s.made[i]? with
    | none => rw [hm] at hl; exact hl.elim
    | some m =>
      rw [hm] at hl
      cases m with
      | heap a live => exact hl.elim
      | arena a live =>
        obtain ⟨sizes, hi⟩ := h.sound _ (List.mem_of_getElem? hm)
        rw [step, hm]
        refine ((Arena.Client.step_spec libcA hi hl).and (arena_step_stays libcA hi hl)).bind
          fun r hr => Sat.ok ?_
        obtain ⟨⟨hi', -⟩, hbuffer, hcapacity⟩ := hr
        refine h.set hm ?_ hi'
        dsimp only [Made.owned, Arena.Handle.owned]
        rw [hbuffer, hcapacity]
  | destroy i =>
    have hi : i < s.made.length := hl
    rw [step, List.getElem?_eq_getElem hi]
    exact (h.eraseIdx hops hi).bind fun w hw => Sat.ok hw

variable (libcH libcA)

/-- **Nothing is kept.**  Heaps and arenas are created, called and destroyed in any order,
over a libc that keeps its contract and may refuse every request.  Every run returns.  The
blocks that libc has handed out and not got back are the handles and the buffers of what was
created and not destroyed, whatever requests failed, and when that is destroyed there are
none. -/
theorem nothing_is_kept (hops : Conforms view serves libc) (hplaced : libc.Placed)
    (hw : serves w live₀) (acts : List Act)
    (hready : Along (step libc libcH libcA) Ready ⟨w, []⟩ acts) :
    Sat (trace (step libc libcH libcA) ⟨w, []⟩ acts) fun p =>
      Accounts serves live₀ p.2.memory (p.2.made.flatMap Made.owned) ∧
        Sat (destroyAll libc p.2.made p.2.memory) fun w' => serves w' live₀ := by
  have hstart : Inv serves live₀ ⟨w, []⟩ := ⟨⟨live₀, hw, .nil live₀⟩, nofun⟩
  refine (trace_inv (P := Ready) (I := Inv serves live₀)
    (fun s l h hl => step_inv hops hplaced h hl) acts _ hstart hready).mono ?_
  exact fun p hp => ⟨hp.accounts, destroyAll_spec hops _ _ hp.accounts⟩

end Runs

theorem ram_placed [Platform] : Ram.libc.Placed := by
  intro w size p w' h hp
  change Ram.malloc w size = _ at h
  unfold Ram.malloc at h
  split at h
  · cases h
    exact ⟨memoryAlign_dvd_32.mul_right w.next, by assumption⟩
  · cases h
    exact absurd rfl hp

section Lp64

local instance handlesPlatform : Platform := lp64

/-- A heap and an arena; a third one is refused its buffer, and the heap is destroyed. -/
def refusedBuffer : List Act :=
  [.createHeap (fun _ => 0) 512, .createArena (fun _ => 7) 100, .callHeap 1 (.alloc 40),
    .callArena 0 (.alloc 8), .createArena (fun _ => 0) (2 ^ 64 - 32), .callHeap 1 (.alloc 1000),
    .destroy 1, .callArena 0 .reset]

theorem nothing_is_kept_refused :
    Sat (trace (step Ram.libc .exhausted .exhausted) ⟨Ram.empty, []⟩ refusedBuffer) fun p =>
      Accounts Ram.Serves (fun _ => none) p.2.memory (p.2.made.flatMap Made.owned) ∧
        Sat (destroyAll Ram.libc p.2.made p.2.memory) fun w' => Ram.Serves w' fun _ => none :=
  nothing_is_kept .exhausted .exhausted Ram.conforms ram_placed Ram.serves_empty refusedBuffer
    (along_of_check (by decide +kernel))

end Lp64

end Handles
end K4c
