import Mathlib.Tactic
import K4c.Mem.HeapClient

/-!
# Runs of the general heap

What holds after any sequence of calls a client may make, for every heap that
`create` returns.

* `live_allocations_separate` — live allocations never collide, and no call
  touches the bytes of another one.
* `blocks_tile_buffer` — the block list tiles the buffer, both ways round, and its
  used blocks are the live allocations.
* `released_memory_recovered` — a heap that is not cut in front of a free block
  is one free block again when everything is released; `shrink_fragments` is the
  run that a cut in front of a free block spoils.
-/

namespace K4c
namespace Heap

open Exec Runs Words

/-! ## Walking the block list -/

/-- The blocks from the head of the list on, along `next`. -/
def walk (h : Heap) : List ℕ :=
  (Links.follow (NodeStore.next h.mem) (h.blocks.size + 1) h.blocks.head).map blockOfNode

/-- The blocks from the tail of the list on, along `prev`. -/
def walkBack (h : Heap) : List ℕ :=
  (Links.follow (NodeStore.prev h.mem) (h.blocks.size + 1) h.blocks.tail).map blockOfNode

theorem map_blockOfNode (a : ℕ) (bs : List Block) :
    (nodes a bs).map blockOfNode = starts a bs := by
  rw [nodes, starts, List.map_map]
  exact List.map_congr_left fun p _ => blockOfNode_blockNode p.1

theorem starts_adjacent {m : Words.Memory} : ∀ {bs : List Block} {a : ℕ},
    (∀ q b, (q, b) ∈ placed a bs → HeaderAt m q b) →
    (starts a bs).IsChain fun p q => q = p + headerSize + blockSize m p := by
  intro bs
  induction bs with
  | nil => intro a _; exact .nil
  | cons b bs ih =>
    intro a hm
    rw [starts_cons, List.isChain_cons]
    refine ⟨fun q hq => ?_, ih fun q c hq => hm q c (by simp [hq])⟩
    cases bs with
    | nil => cases hq
    | cons c bs =>
      cases hq
      rw [(hm a b (by simp)).size_eq, Nat.add_assoc]
      rfl

section Walks

variable [Platform] {h : Heap} {bs : List Block}

theorem Holds.walk_eq (hh : Holds h bs) : walk h = starts h.buffer bs := by
  rw [walk, hh.list.head_eq, hh.list.linked.follow_next hh.list.ne_zero, map_blockOfNode]
  rw [hh.list.size_eq]
  exact Nat.lt_succ_self _

theorem Holds.walkBack_eq (hh : Holds h bs) : walkBack h = (starts h.buffer bs).reverse := by
  rw [walkBack, hh.list.tail_eq, hh.list.linked.follow_prev hh.list.ne_zero, List.map_reverse,
    map_blockOfNode]
  rw [hh.list.size_eq]
  exact Nat.lt_succ_self _

end Walks

namespace Client

section Separation

variable [Platform] {h : Heap} {bs : List Block} {s : Client}

/-- What a run keeps: the invariant, for some blocks in the same buffer. -/
theorem run_inv {libc : Libc Heap} (hi : Inv s bs) {calls : List Call}
    (hcalls : Along (step libc) Valid s calls) :
    Sat (trace (step libc) s calls) fun p => (∃ bs', Inv p.2 bs') ∧
      p.2.heap.buffer = s.heap.buffer ∧ p.2.heap.capacity = s.heap.capacity := by
  refine trace_inv (P := Valid) (I := fun t => (∃ bs', Inv t bs') ∧
    t.heap.buffer = s.heap.buffer ∧ t.heap.capacity = s.heap.capacity) ?_ calls s
    ⟨⟨bs, hi⟩, rfl, rfl⟩ hcalls
  rintro t c ⟨⟨cs, ht⟩, hbuf, hcap⟩ hv
  refine (step_spec ht hv).mono fun p hp => ?_
  obtain ⟨cs', hi', hb, hc, -, -⟩ := hp
  exact ⟨⟨cs', hi'⟩, hb.trans hbuf, hc.trans hcap⟩

/-- A new heap, before any call. -/
theorem inv_start {ν : Type} {libc : Libc ν} (hplaced : libc.Placed) {mem : Words.Memory} {w w' : ν}
    {capacity : ℕ} {st : Status} (hc : create libc mem w capacity = .ok ((st, some h), w')) :
    Inv (start h) [⟨h.capacity - headerSize, true⟩] :=
  ⟨(create_spec hplaced hc).2.2, ⟨fun _ _ hp => (by cases hp), fun _ _ hp => (by cases hp)⟩⟩

/-! ## Live allocations -/

/-- Live allocations and block headers do not overlap and lie in the buffer. -/
structure Separate (s : Client) : Prop where
  disjoint : ∀ p n q m, s.live p = some n → s.live q = some m → p ≠ q → p + n ≤ q ∨ q + m ≤ p
  inside : ∀ p n, s.live p = some n →
    s.heap.buffer ≤ p ∧ p + n ≤ s.heap.buffer + s.heap.capacity
  aligned : ∀ p n, s.live p = some n → memoryAlign ∣ p
  headers : ∀ p n, s.live p = some n → ∀ a ∈ walk s.heap, p + n ≤ a ∨ a + headerSize ≤ p

/-- Blocks start at multiples of the alignment. -/
theorem dvd_of_mem_placed (hh : Holds h bs) {q : ℕ} {b : Block}
    (hq : (q, b) ∈ placed h.buffer bs) : memoryAlign ∣ q := by
  obtain ⟨pre, post, rfl, rfl⟩ := exists_split hq
  have hsizes : ∀ cs : List Block, (∀ c ∈ cs, memoryAlign ∣ c.size) → ∀ a, memoryAlign ∣ a →
      memoryAlign ∣ stop a cs := by
    intro cs
    induction cs with
    | nil => exact fun _ a ha => ha
    | cons c cs ih =>
      intro hcs a ha
      rw [stop_cons]
      refine ih (fun d hd => hcs d (by simp [hd])) _ (ha.add ?_)
      exact memoryAlign_dvd_32.add (hcs c (by simp))
  exact hsizes pre (fun c hc => (hh.sizes c (by simp [hc])).2) _ hh.buffer_dvd

theorem Inv.separate (hi : Inv s bs) : Separate s where
  disjoint p n q m hp hq hne := by
    obtain ⟨t, ht, hnt⟩ := hi.serves.granted p n hp
    obtain ⟨u, hu, hmu⟩ := hi.serves.granted q m hq
    have := used_disjoint ht hu hne
    omega
  inside p n hp := by
    obtain ⟨t, ht, hnt⟩ := hi.serves.granted p n hp
    obtain ⟨q, hq, rfl⟩ := mem_used.1 ht
    have := mem_placed hq
    rw [hi.holds.stop_eq] at this
    dsimp only at this
    omega
  aligned p n hp := by
    obtain ⟨t, ht, -⟩ := hi.serves.granted p n hp
    obtain ⟨q, hq, rfl⟩ := mem_used.1 ht
    exact (dvd_of_mem_placed hi.holds hq).add memoryAlign_dvd_32
  headers p n hp a ha := by
    obtain ⟨t, ht, hnt⟩ := hi.serves.granted p n hp
    obtain ⟨q, hq, rfl⟩ := mem_used.1 ht
    rw [hi.holds.walk_eq] at ha
    obtain ⟨c, hc⟩ := mem_starts.1 ha
    have := placed_separated hq hc
    dsimp only at this
    omega

/-- **Live allocations never collide.**  After any run of valid calls the ranges
of the live allocations are disjoint, aligned, inside the buffer and clear of
every block header, and any further call preserves all others, byte for byte; a
successful `resize` preserves the bytes that fit. -/
theorem live_allocations_separate {ν : Type} (libc₀ : Libc ν) (hplaced : libc₀.Placed)
    (libc : Libc Heap) (mem : Words.Memory) (w w' : ν) (capacity : ℕ) (st : Status) (h : Heap)
    (hc : create libc₀ mem w capacity = .ok ((st, some h), w')) (calls : List Call)
    (hcalls : Along (step libc) Valid (start h) calls) :
    Sat (trace (step libc) (start h) calls) fun p => Separate p.2 ∧
      ∀ c, p.2.Valid c → Sat (step libc p.2 c) fun q => Preserves p.2 c q.1 q.2 := by
  apply (run_inv (inv_start hplaced hc) hcalls).mono
  rintro p ⟨⟨bs, hi⟩, -, -⟩
  refine ⟨hi.separate, fun c hv => (step_spec hi hv).mono fun q hq => ?_⟩
  obtain ⟨-, -, -, -, hpres, -⟩ := hq
  exact hpres

end Separation

section Lp64

local instance : Platform := lp64

/-- A resize that has to move its block. -/
theorem live_allocations_separate_move : ∃ st h w,
    create Libc.bump (fun _ => 0) 1 512 = .ok ((st, some h), w) ∧
      Sat (trace (step .exhausted) (start h)
        [.alloc 40, .alloc 8, .write 96 0 [1, 2], .resize 96 100]) fun p => Separate p.2 ∧
          ∀ c, p.2.Valid c → Sat (step .exhausted p.2 c) fun q => Preserves p.2 c q.1 q.2 := by
  obtain ⟨st, h, w, hc, hcheck⟩ := exists_of_check (r := create Libc.bump (fun _ => 0) 1 512)
    (f := fun h => checkAlong (step .exhausted) Valid (start h)
      [.alloc 40, .alloc 8, .write 96 0 [1, 2], .resize 96 100]) (by decide +kernel)
  exact ⟨st, h, w, hc, live_allocations_separate Libc.bump Libc.bump_placed .exhausted (fun _ => 0)
    1 w 512 st h hc _ (along_of_check hcheck)⟩

end Lp64

/-! ## Tiling -/

section TilingRuns

variable [Platform] {h : Heap} {bs : List Block} {s : Client}

/-- The block list tiles the buffer, and its used blocks are the live
allocations. -/
structure Tiled (s : Client) : Prop where
  first : (walk s.heap).head? = some s.heap.buffer
  adjacent : (walk s.heap).IsChain fun a b => b = a + headerSize + blockSize s.heap.mem a
  last : ∀ a ∈ (walk s.heap).getLast?,
    a + headerSize + blockSize s.heap.mem a = s.heap.buffer + s.heap.capacity
  sizes : ∀ a ∈ walk s.heap,
    0 < blockSize s.heap.mem a ∧ memoryAlign ∣ blockSize s.heap.mem a
  back : walkBack s.heap = (walk s.heap).reverse
  count : s.heap.blocks.size = (walk s.heap).length
  once : (walk s.heap).Nodup
  payloads : ∀ p, s.live p ≠ none ↔
    ∃ a ∈ walk s.heap, p = a + headerSize ∧ blockIsFree s.heap.mem a = false
  balance : ∃ free, available s.heap = .ok free ∧
    free + (((walk s.heap).filter fun a => !blockIsFree s.heap.mem a).map
      (blockSize s.heap.mem)).sum + (walk s.heap).length * headerSize = s.heap.capacity

omit [Platform] in
/-- The used blocks, found by their flags in memory. -/
theorem usedBytes_eq {m : Words.Memory} : ∀ {bs : List Block} {a : ℕ},
    (∀ q b, (q, b) ∈ placed a bs → HeaderAt m q b) →
    (((starts a bs).filter fun a => !blockIsFree m a).map (blockSize m)).sum = usedBytes bs := by
  intro bs
  induction bs with
  | nil => intro a _; rfl
  | cons b bs ih =>
    intro a hm
    have hheader := hm a b (by simp)
    have hrest := ih (a := a + b.width) fun q c hq => hm q c (by simp [hq])
    rw [starts_cons, List.filter_cons, hheader.isFree_eq, usedBytes, List.map_cons, List.sum_cons,
      ← usedBytes, ← hrest]
    cases b.isFree with
    | true => simp
    | false => simp [hheader.size_eq]

omit [Platform] in
theorem nodup_starts (a : ℕ) (bs : List Block) : (starts a bs).Nodup := by
  refine List.Pairwise.map _ ?_ Tiling.pairwise_place
  intro p q hpq heq
  unfold Block.width headerSize at hpq
  omega

theorem Inv.tiled (hi : Inv s bs) (hcapacity : 0 < s.heap.capacity) : Tiled s := by
  have hh := hi.holds
  have hstop := hh.stop_eq
  have hwalk := hh.walk_eq
  have hlength : (starts s.heap.buffer bs).length = bs.length := by
    rw [starts, List.length_map, placed, Tiling.length_place]
  refine ⟨?_, ?_, ?_, ?_, ?_, ?_, ?_, ?_, ?_⟩
  · rw [hwalk]
    cases bs with
    | nil =>
      rw [stop_nil] at hstop
      omega
    | cons b bs => rfl
  · rw [hwalk]
    exact starts_adjacent hh.headers
  · intro a ha
    rw [hwalk] at ha
    rcases List.eq_nil_or_concat bs with rfl | ⟨cs, b, rfl⟩
    · cases ha
    · rw [List.concat_eq_append] at *
      rw [starts_append, starts_cons, starts_nil, List.getLast?_concat, Option.mem_some_iff] at ha
      rw [← ha, (hh.headers _ b (by simp)).size_eq, ← hstop, stop_append, stop_cons, stop_nil,
        Nat.add_assoc]
      rfl
  · intro a ha
    rw [hwalk] at ha
    obtain ⟨b, hb⟩ := mem_starts.1 ha
    rw [(hh.headers a b hb).size_eq]
    exact hh.sizes b (mem_placed hb).1
  · rw [hh.walkBack_eq, hwalk]
  · rw [hh.size_eq, hwalk, hlength]
  · rw [hwalk]
    exact nodup_starts _ _
  · intro p
    rw [hwalk]
    constructor
    · intro hp
      obtain ⟨n, hn⟩ := Option.ne_none_iff_exists'.1 hp
      obtain ⟨t, ht, -⟩ := hi.serves.granted p n hn
      obtain ⟨q, hq, rfl⟩ := mem_used.1 ht
      exact ⟨q, mem_starts.2 ⟨_, hq⟩, rfl, (hh.headers q _ hq).isFree_eq⟩
    · rintro ⟨a, ha, rfl, hfree⟩
      obtain ⟨⟨t, f⟩, hb⟩ := mem_starts.1 ha
      rw [(hh.headers a _ hb).isFree_eq] at hfree
      dsimp only at hfree
      subst hfree
      exact hi.serves.owned _ t (mem_used.2 ⟨a, hb, rfl⟩)
  · refine ⟨freeBytes bs, available_spec hh, ?_⟩
    rw [Heap.stop_eq] at hstop
    rw [hwalk, usedBytes_eq hh.headers, hlength]
    omega

/-- **The block list tiles the buffer exactly**, after any run of valid calls. -/
theorem blocks_tile_buffer {ν : Type} (libc₀ : Libc ν) (hplaced : libc₀.Placed)
    (libc : Libc Heap) (mem : Words.Memory) (w w' : ν) (capacity : ℕ) (st : Status) (h : Heap)
    (hc : create libc₀ mem w capacity = .ok ((st, some h), w')) (calls : List Call)
    (hcalls : Along (step libc) Valid (start h) calls) :
    Sat (trace (step libc) (start h) calls) fun p => Tiled p.2 ∧
      p.2.heap.buffer = h.buffer ∧ p.2.heap.capacity = h.capacity := by
  apply (run_inv (inv_start hplaced hc) hcalls).mono
  rintro p ⟨⟨bs, hi⟩, hbuf, hcap⟩
  refine ⟨hi.tiled ?_, hbuf, hcap⟩
  have := (create_spec hplaced hc).2.1
  have : p.2.heap.capacity = h.capacity := hcap
  omega

end TilingRuns

section Lp64

local instance : Platform := lp64

/-- A block is cut, grows back and is freed. -/
theorem blocks_tile_buffer_cut_and_grow : ∃ st h w,
    create Libc.bump (fun _ => 0) 1 512 = .ok ((st, some h), w) ∧
      Sat (trace (step .exhausted) (start h)
          [.alloc 128, .resize 96 16, .resize 96 64, .dealloc 96])
        fun p => Tiled p.2 ∧ p.2.heap.buffer = h.buffer ∧ p.2.heap.capacity = h.capacity := by
  obtain ⟨st, h, w, hc, hcheck⟩ := exists_of_check (r := create Libc.bump (fun _ => 0) 1 512)
    (f := fun h => checkAlong (step .exhausted) Valid (start h)
      [.alloc 128, .resize 96 16, .resize 96 64, .dealloc 96]) (by decide +kernel)
  exact ⟨st, h, w, hc, blocks_tile_buffer Libc.bump Libc.bump_placed .exhausted (fun _ => 0) 1 w 512
    st h hc _ (along_of_check hcheck)⟩

end Lp64

/-! ## Recovery -/

section Recovery

variable [Platform] {h : Heap} {bs : List Block} {s : Client}

/-- The heap is one free block, as it was when it was created. -/
structure Recovered (libc : Libc Heap) (h : Heap) (s : Client) : Prop where
  single : walk s.heap = [h.buffer]
  free : blockIsFree s.heap.mem h.buffer = true
  size : blockSize s.heap.mem h.buffer = h.capacity - headerSize
  available : available s.heap = available h
  whole : Sat (step libc s (.alloc (h.capacity - headerSize))) fun p => p.1.1 = .ok

/-- One free block serves its whole payload. -/
theorem Inv.alloc_whole {libc : Libc Heap} {n : ℕ} (hi : Inv s [⟨n, true⟩]) :
    Sat (step libc s (.alloc n)) fun p => p.1.1 = .ok := by
  obtain ⟨hn, hdvd⟩ := hi.holds.sizes _ (List.mem_singleton_self _)
  have hmax := hi.holds.stop_le
  have hstop := hi.holds.stop_eq
  have hpos := hi.holds.buffer_pos
  have halign := memoryAlign_le
  simp only [stop_cons, stop_nil, Block.width, headerSize] at hstop
  have hround : alignUpOverflow n memoryAlign = some n := alignUpOverflow_of_dvd hdvd (by omega)
  obtain ⟨⟨p, h'⟩, halloc, hp⟩ := vtableAlloc_spec hi.holds hn
  change Sat (vtableAlloc s.heap n >>= (fun res => .ok (Allocator.answer res)) >>= _) _
  rw [halloc, ok_bind, ok_bind]
  rcases hp with ⟨hnone, -⟩ | ⟨n', hn', hp⟩
  · rw [hround] at hnone
    cases hnone
  rw [hround] at hn'
  cases hn'
  dsimp only at hp
  cases hp with
  | none hno => exact absurd ⟨rfl, le_rfl⟩ (hno _ (List.mem_singleton_self _))
  | some _ _ _ hp _ =>
    rw [Allocator.answer, if_neg (by rw [hp]; unfold headerSize; omega)]
    exact Sat.ok rfl

/-- Nothing is live, so no block is in use. -/
theorem Inv.all_free (hi : Inv s bs) (hfree : ∀ p, s.live p = none) :
    ∀ b ∈ bs, b.isFree = true := by
  intro b hb
  obtain ⟨pre, post, rfl⟩ := List.append_of_mem hb
  by_contra hused
  have hmem := used_middle (Bool.eq_false_of_not_eq_true hused) s.heap.buffer pre post
  exact hi.serves.owned (stop s.heap.buffer pre + headerSize) b.size (by rw [hmem]; simp) (hfree _)

theorem Inv.recovered {libc : Libc Heap} (hi : Inv s bs)
    (hh : Holds h [⟨h.capacity - headerSize, true⟩])
    (hlarge : headerSize + memoryAlign < h.capacity) (hbuf : s.heap.buffer = h.buffer)
    (hcap : s.heap.capacity = h.capacity) (hm : Merged bs) (hfree : ∀ p, s.live p = none) :
    Recovered libc h s := by
  have hstop := hi.holds.stop_eq
  obtain ⟨⟨n, f⟩, rfl, hb⟩ := hm.eq_singleton (by
    rintro rfl
    rw [stop_nil] at hstop
    omega) (hi.all_free hfree)
  dsimp only at hb
  subst hb
  have hn : n = h.capacity - headerSize := by
    simp only [stop_cons, stop_nil, Block.width] at hstop
    omega
  subst hn
  have hheader := hi.holds.headers s.heap.buffer _ (List.mem_singleton_self _)
  rw [hbuf] at hheader
  refine ⟨?_, hheader.isFree_eq, hheader.size_eq, ?_, hi.alloc_whole⟩
  · rw [hi.holds.walk_eq, hbuf]
    rfl
  · rw [available_spec hi.holds, available_spec hh]

/-- **Released memory is recovered.**  If no call of a run cuts a block in front
of a free one, then whenever every allocation has been released the heap is one
free block again, as large as after `create`, and can be allocated as a whole. -/
theorem released_memory_recovered {ν : Type} (libc₀ : Libc ν) (hplaced : libc₀.Placed)
    (libc : Libc Heap) (mem : Words.Memory) (w w' : ν) (capacity : ℕ) (st : Status) (h : Heap)
    (hc : create libc₀ mem w capacity = .ok ((st, some h), w')) (calls : List Call)
    (hcalls : Along (step libc) (fun s c => s.Valid c ∧ s.KeepsMerged c) (start h) calls) :
    Sat (trace (step libc) (start h) calls) fun p =>
      (∀ q, p.2.live q = none) → Recovered libc h p.2 := by
  obtain ⟨-, hlarge, hh⟩ := create_spec hplaced hc
  refine (trace_inv (I := fun t => ∃ bs, Inv t bs ∧ Merged bs ∧
    t.heap.buffer = h.buffer ∧ t.heap.capacity = h.capacity) ?_ calls (start h)
    ⟨_, inv_start hplaced hc, List.isChain_singleton _, rfl, rfl⟩ hcalls).mono ?_
  · rintro t c ⟨bs, hi, hm, hbuf, hcap⟩ ⟨hv, hk⟩
    refine (step_spec hi hv).mono fun p hp => ?_
    obtain ⟨bs', hi', hb, hc', -, hm'⟩ := hp
    exact ⟨bs', hi', hm' hk hm, hb.trans hbuf, hc'.trans hcap⟩
  · rintro p ⟨bs, hi, hm, hbuf, hcap⟩ hfree
    exact hi.recovered hh hlarge hbuf hcap hm hfree

end Recovery

section Lp64

local instance : Platform := lp64

/-- A block that is cut in front of a used one. -/
theorem released_memory_recovered_in_order : ∃ st h w,
    create Libc.bump (fun _ => 0) 1 512 = .ok ((st, some h), w) ∧
      Sat (trace (step .exhausted) (start h)
        [.alloc 128, .alloc 16, .resize 96 16, .dealloc 256, .dealloc 96]) fun p =>
        (∀ q, p.2.live q = none) → Recovered .exhausted h p.2 := by
  obtain ⟨st, h, w, hc, hcheck⟩ := exists_of_check (r := create Libc.bump (fun _ => 0) 1 512)
    (f := fun h => checkAlong (step .exhausted) (fun s c => s.Valid c ∧ s.KeepsMerged c) (start h)
      [.alloc 128, .alloc 16, .resize 96 16, .dealloc 256, .dealloc 96]) (by decide +kernel)
  exact ⟨st, h, w, hc, released_memory_recovered Libc.bump Libc.bump_placed .exhausted (fun _ => 0)
    1 w 512 st h hc _ (along_of_check hcheck)⟩

/-- **Cutting a block in front of a free one fragments the heap for good.**  In a
heap of 256 bytes, 128 bytes are allocated, shrunk to 16 and released: the part
cut off is not joined with the free block behind it, and of 224 free bytes 192
are left, in two blocks. -/
theorem shrink_fragments : ∃ st h w p,
    create Libc.bump (fun _ => 0) 1 256 = .ok ((st, some h), w) ∧
      Along (step .exhausted) Valid (start h) [.alloc 128, .resize 96 16, .dealloc 96] ∧
      trace (step .exhausted) (start h) [.alloc 128, .resize 96 16, .dealloc 96] = .ok p ∧
      (∀ q, p.2.live q = none) ∧ available h = .ok 224 ∧ available p.2.heap = .ok 192 ∧
      ¬ Recovered .exhausted h p.2 := by
  obtain ⟨st, h, w, hc, hcheck⟩ := exists_of_check (r := create Libc.bump (fun _ => 0) 1 256)
    (f := fun h => checkAlong (step .exhausted) Valid (start h)
        [.alloc 128, .resize 96 16, .dealloc 96] &&
      match trace (step .exhausted) (start h) [.alloc 128, .resize 96 16, .dealloc 96] with
      | .ok p => decide (available h = .ok 224 ∧ available p.2.heap = .ok 192) &&
          (walk p.2.heap).all (blockIsFree p.2.heap.mem)
      | .error _ => false) (by decide +kernel)
  rw [Bool.and_eq_true] at hcheck
  have hvalid := along_of_check hcheck.1
  obtain ⟨p, htrace, ⟨bs, hi⟩, -, hcap⟩ := run_inv (inv_start Libc.bump_placed hc) hvalid
  have hrun := hcheck.2
  rw [htrace] at hrun
  simp only [Bool.and_eq_true, decide_eq_true_eq, List.all_eq_true] at hrun
  obtain ⟨⟨hfirst, hlast⟩, hfree⟩ := hrun
  have hlarge := (create_spec Libc.bump_placed hc).2.1
  have htiled := hi.tiled (by rw [hcap]; show 0 < h.capacity; omega)
  refine ⟨st, h, w, p, hc, hvalid, htrace, fun q => ?_, hfirst, hlast, fun hrec => ?_⟩
  · by_contra hq
    obtain ⟨a, ha, -, hused⟩ := (htiled.payloads q).1 hq
    rw [hfree a ha] at hused
    cases hused
  · have := hrec.available
    rw [hfirst, hlast] at this
    cases this

end Lp64

end Client

end Heap
end K4c
