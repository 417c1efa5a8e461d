import Mathlib.Tactic
import K4c.Mem.HeapRuns

/-!
# Releasing memory to the general heap

Which block list is left when allocations are released.

* `release_release` — of two blocks in use, either may be freed first;
  `releaseAt_comm` — the same with the blocks given by their addresses.
* `release_cut` — in a merged heap, freeing undoes an allocation.
* `order_of_releases` — **the order of releases does not matter**, from any
  reachable state, blocks without a merged neighbour included.
* `release_after_alloc` — **an allocation released at once leaves no trace**, in
  every state that runs without `resize` reach.
-/

namespace K4c
namespace Heap

open Exec Runs Words

/-! ## Freeing two blocks -/

section Neighbours

variable {pre mid post : List Block} {b c d : Block}

theorem merge_assoc (b c d : Block) : (b.merge c).merge d = b.merge (c.merge d) := by
  simp only [Block.merge, Block.mk.injEq, and_true]
  omega

/-- Only the last block before a free one matters. -/
theorem mergePrev_append (hne : mid ≠ []) (pre : List Block) (b : Block) :
    mergePrev (pre ++ mid) b = pre ++ mergePrev mid b := by
  obtain ⟨mid, c, rfl⟩ := (List.eq_nil_or_concat mid).resolve_left hne
  rw [List.concat_eq_append, ← List.append_assoc, mergePrev_concat, mergePrev_concat]
  split <;> simp

theorem mergePrev_of_used (hlast : ∀ c ∈ pre.getLast?, c.isFree = false) (b : Block) :
    mergePrev pre b = pre ++ [b] := by
  rcases List.eq_nil_or_concat pre with rfl | ⟨pre, c, rfl⟩
  · rfl
  · rw [List.concat_eq_append] at *
    rw [mergePrev_concat, if_neg (by simp [hlast c (by simp)])]

theorem mergePrev_used_append (hc : c.isFree = false) (pre mid : List Block) (b : Block) :
    mergePrev (pre ++ c :: mid) b = pre ++ c :: mergePrev mid b := by
  cases mid with
  | nil => rw [mergePrev_concat, if_neg (by simp [hc])]; simp
  | cons m mid => rw [List.append_cons, mergePrev_append (by simp), ← List.append_cons]

/-- A free block and one that is joined with it. -/
theorem mergePrev_mergePrev (hb : b.isFree = true) (pre : List Block) (d : Block) :
    mergePrev (mergePrev pre b) d = mergePrev pre (b.merge d) := by
  rcases List.eq_nil_or_concat pre with rfl | ⟨pre, c, rfl⟩
  · rw [mergePrev_nil, mergePrev_nil, ← List.nil_append [b], mergePrev_concat, if_pos hb]
    rfl
  · rw [List.concat_eq_append, mergePrev_concat, mergePrev_concat]
    by_cases hc : c.isFree
    · rw [if_pos hc, if_pos hc, mergePrev_concat, if_pos (by simpa using hc), merge_assoc]
    · rw [if_neg hc, if_neg hc, mergePrev_concat, if_pos hb]

/-- A block in use keeps what is behind it apart. -/
theorem release_used_right (hd : d.isFree = false) (pre mid : List Block) (b : Block)
    (post : List Block) : release pre b (mid ++ d :: post) = release pre b mid ++ d :: post := by
  rw [release, release]
  cases mid with
  | nil => simp [mergeNext, hd]
  | cons m mid =>
    rw [List.cons_append, mergeNext, mergeNext]
    split <;> simp

/-- A block in use keeps what is before it apart. -/
theorem release_used_left (hb : b.isFree = false) (pre mid : List Block) (d : Block)
    (post : List Block) : release (pre ++ b :: mid) d post = pre ++ b :: release mid d post := by
  rw [release, release, mergePrev_used_append hb]
  simp

/-- **Of two blocks, either may be freed first.** -/
theorem release_release (pre : List Block) (b : Block) (mid : List Block) (d : Block)
    (post : List Block) :
    release (release pre b mid) d post = release pre b (release mid d post) := by
  have hfree := (used_mergeNext 0 { d with isFree := true } post rfl).2.2
  unfold release
  generalize mergeNext { d with isFree := true } post = next at hfree ⊢
  obtain ⟨d, post⟩ := next
  dsimp only at hfree ⊢
  cases mid with
  | nil =>
    -- the two are neighbours
    rw [mergePrev_nil, List.singleton_append, mergeNext, mergeNext, if_pos hfree, List.append_nil,
      mergePrev_mergePrev rfl]
  | cons m mid =>
    by_cases hm : m.isFree
    · rw [mergeNext, if_pos hm]
      cases mid with
      | nil =>
        -- one free block lies between them
        have hjoined : mergePrev [m] d = [m.merge d] := (mergePrev_concat [] m d).trans (if_pos hm)
        rw [hjoined, List.singleton_append, mergeNext, if_pos (by simpa using hm), List.append_nil,
          mergePrev_mergePrev rfl, merge_assoc]
      | cons m' mid =>
        have hlast : mergePrev (m :: m' :: mid) d = m :: mergePrev (m' :: mid) d :=
          mergePrev_append (List.cons_ne_nil m' mid) [m] d
        rw [mergePrev_append (List.cons_ne_nil m' mid), hlast, List.cons_append, mergeNext,
          if_pos hm, List.append_assoc]
    · have hm' : m.isFree = false := by simpa using hm
      rw [mergeNext, if_neg hm, mergePrev_used_append hm',
        show mergePrev (m :: mid) d = m :: mergePrev mid d from mergePrev_used_append hm' [] mid d,
        List.cons_append, mergeNext, if_neg hm]
      simp

/-- **Freeing undoes an allocation** in a merged heap. -/
theorem release_cut [Platform] (hm : Merged (pre ++ b :: post)) (hb : b.isFree = true) (n : ℕ)
    {rest : List Block} (hcut : ({ b with isFree := false } : Block).cut n = c :: rest) :
    release pre c (rest ++ post) = pre ++ b :: post := by
  obtain ⟨-, -, hlast, hhead⟩ := merged_middle.1 hm
  have hlast' : ∀ x ∈ pre.getLast?, x.isFree = false := fun x hx => by simpa [hb] using hlast x hx
  have hsame : ({ b with isFree := true } : Block) = b := by rw [← hb]
  unfold Block.cut at hcut
  rw [release]
  split at hcut
  · obtain ⟨rfl, rfl⟩ := List.cons.inj hcut
    rw [List.nil_append, mergePrev_of_used hlast']
    cases post with
    | nil => simp [mergeNext, hsame]
    | cons x post =>
      have hx : x.isFree = false := by simpa [hb] using hhead x rfl
      simp [mergeNext, hx, hsame]
  · rename_i hroom
    obtain ⟨rfl, rfl⟩ := List.cons.inj hcut
    have hjoined :
        ({ size := n, isFree := true } : Block).merge ⟨b.size - n - headerSize, true⟩ = b := by
      rw [← hsame]
      simp only [Block.merge, Block.mk.injEq, and_true]
      unfold headerSize at *
      dsimp only at hroom
      omega
    rw [mergePrev_of_used hlast', List.singleton_append, mergeNext, if_pos rfl]
    simp [hjoined]

end Neighbours

/-! ## Freeing by address -/

/-- The block whose payload in use is at `p` is freed, found among the blocks
behind `pre`. -/
def releaseFrom (a p : ℕ) (pre : List Block) : List Block → List Block
  | [] => pre
  | b :: post =>
    if b.isFree = false ∧ p = stop a pre + headerSize then release pre b post
    else releaseFrom a p (pre ++ [b]) post

/-- The block whose payload in use is at `p` is freed; without one, nothing
changes. -/
def releaseAt (a : ℕ) (bs : List Block) (p : ℕ) : List Block := releaseFrom a p [] bs

section Addresses

variable {a p q : ℕ} {bs pre mid post : List Block} {b d : Block}

theorem releaseFrom_skip : ∀ (mid pre : List Block), (∀ s, (p, s) ∉ used (stop a pre) mid) →
    ∀ post, releaseFrom a p pre (mid ++ post) = releaseFrom a p (pre ++ mid) post := by
  intro mid
  induction mid with
  | nil => intro pre _ post; simp
  | cons m mid ih =>
    intro pre hno post
    rw [List.cons_append, releaseFrom, if_neg, ih, ← List.append_cons]
    · intro s hs
      rw [stop_append, stop_cons, stop_nil] at hs
      exact hno s (by rw [used_cons]; exact List.mem_append_right _ hs)
    · rintro ⟨hm, hp⟩
      exact hno m.size (by rw [used_cons, hm, hp]; simp)

theorem releaseAt_middle (hb : b.isFree = false) (a : ℕ) (pre post : List Block) :
    releaseAt a (pre ++ b :: post) (stop a pre + headerSize) = release pre b post := by
  rw [releaseAt, releaseFrom_skip, List.nil_append, releaseFrom, if_pos ⟨hb, rfl⟩]
  intro s hs
  obtain ⟨q, hq, heq⟩ := mem_used.1 hs
  have hend := (mem_placed hq).2.2
  rw [stop_nil] at hend
  unfold headerSize at *
  omega

theorem releaseAt_of_not_used (hno : ∀ s, (p, s) ∉ used a bs) : releaseAt a bs p = bs := by
  have hskip := releaseFrom_skip bs [] hno []
  rwa [List.append_nil, List.nil_append] at hskip

/-- A payload in use is that of a block. -/
theorem exists_block_of_used {s : ℕ} (h : (p, s) ∈ used a bs) :
    ∃ pre b post, bs = pre ++ b :: post ∧ b.isFree = false ∧ p = stop a pre + headerSize := by
  obtain ⟨q, hq, rfl⟩ := mem_used.1 h
  obtain ⟨pre, post, hbs, rfl⟩ := exists_split hq
  exact ⟨pre, _, post, hbs, rfl, rfl⟩

/-- Freeing takes a payload out of use and brings none in. -/
theorem used_releaseAt_subset (a : ℕ) (bs : List Block) (p : ℕ) :
    used a (releaseAt a bs p) ⊆ used a bs := by
  by_cases hp : ∃ s, (p, s) ∈ used a bs
  · obtain ⟨s, hs⟩ := hp
    obtain ⟨pre, b, post, rfl, hb, rfl⟩ := exists_block_of_used hs
    rw [releaseAt_middle hb, (used_release a pre b post).2, used_middle hb]
    intro x hx
    simp only [List.mem_append, List.mem_cons] at hx ⊢
    tauto
  · rw [releaseAt_of_not_used fun s hs => hp ⟨s, hs⟩]
    exact List.Subset.refl _

/-- Two blocks in use, in the order of their addresses. -/
theorem releaseAt_two (hb : b.isFree = false) (hd : d.isFree = false) (a : ℕ)
    (pre mid post : List Block) :
    releaseAt a (releaseAt a (pre ++ b :: (mid ++ d :: post)) (stop a pre + headerSize))
        (stop a (pre ++ b :: mid) + headerSize) =
      releaseAt a
        (releaseAt a (pre ++ b :: (mid ++ d :: post)) (stop a (pre ++ b :: mid) + headerSize))
        (stop a pre + headerSize) := by
  have hfirst : releaseAt a (pre ++ b :: (mid ++ d :: post)) (stop a pre + headerSize) =
      release pre b mid ++ d :: post := by
    rw [releaseAt_middle hb, release_used_right hd]
  have hsecond : releaseAt a (pre ++ b :: (mid ++ d :: post))
      (stop a (pre ++ b :: mid) + headerSize) = pre ++ b :: release mid d post := by
    rw [show pre ++ b :: (mid ++ d :: post) = (pre ++ b :: mid) ++ d :: post by simp,
      releaseAt_middle hd, release_used_left hb]
  rw [hfirst, hsecond, ← (used_release a pre b mid).1, releaseAt_middle hd, releaseAt_middle hb,
    release_release]

/-- **Freeing commutes.** -/
theorem releaseAt_comm (a : ℕ) (bs : List Block) (p q : ℕ) :
    releaseAt a (releaseAt a bs p) q = releaseAt a (releaseAt a bs q) p := by
  by_cases hp : ∃ s, (p, s) ∈ used a bs
  · by_cases hq : ∃ s, (q, s) ∈ used a bs
    · obtain ⟨s, hs⟩ := hp
      obtain ⟨t, ht⟩ := hq
      obtain ⟨pre, b, post, rfl, hb, rfl⟩ := exists_block_of_used hs
      obtain ⟨u, hu, rfl⟩ := mem_used.1 ht
      rw [placed_append, List.mem_append, placed_cons, List.mem_cons] at hu
      rcases hu with hu | hu | hu
      · -- `q` lies before `p`
        obtain ⟨pre, mid, rfl, rfl⟩ := exists_split hu
        rw [List.append_assoc, List.cons_append]
        exact (releaseAt_two rfl hb a pre mid post).symm
      · rw [(Prod.mk.inj hu).1]
      · obtain ⟨mid, post, rfl, hstop⟩ := exists_split hu
        rw [hstop, ← stop_cons, ← stop_append]
        exact releaseAt_two hb rfl a pre mid post
    · have hno : ∀ s, (q, s) ∉ used a bs := fun s hs => hq ⟨s, hs⟩
      rw [releaseAt_of_not_used hno, releaseAt_of_not_used]
      exact fun s hs => hno s (used_releaseAt_subset a bs p hs)
  · have hno : ∀ s, (p, s) ∉ used a bs := fun s hs => hp ⟨s, hs⟩
    rw [releaseAt_of_not_used hno]
    exact (releaseAt_of_not_used fun s hs => hno s (used_releaseAt_subset a bs q hs)).symm

end Addresses

/-! ## The block list -/

/-- The blocks along the list, each with its address, payload size and flag. -/
def blockList (h : Heap) : List (ℕ × ℕ × Bool) :=
  (walk h).map fun a => (a, blockSize h.mem a, blockIsFree h.mem a)

theorem Holds.blockList_eq [Platform] {h : Heap} {bs : List Block} (hh : Holds h bs) :
    blockList h = (placed h.buffer bs).map fun p => (p.1, p.2.size, p.2.isFree) := by
  rw [blockList, hh.walk_eq, starts, List.map_map]
  refine List.map_congr_left fun p hp => ?_
  have hheader := hh.headers p.1 p.2 hp
  simp only [Function.comp_apply, hheader.size_eq, hheader.isFree_eq]

namespace Client

section Releases

variable [Platform] {s : Client} {bs : List Block} {libc : Libc Heap} {h : Heap}

/-- Releasing a live allocation, with the blocks that are left. -/
theorem dealloc_exact (hi : Inv s bs) {ptr : ℕ} (hl : s.live ptr ≠ none) :
    Sat (step libc s (.dealloc ptr)) fun p => Inv p.2 (releaseAt s.heap.buffer bs ptr) ∧
      p.2.heap.buffer = s.heap.buffer ∧ p.2.live = Function.update s.live ptr none := by
  apply (release_blocks libc hi hl).bind
  rintro h' ⟨pre, b, post, rfl, rfl, hb, hi', hh'⟩
  refine Sat.ok ⟨?_, hh'.buffer_eq, rfl⟩
  rw [releaseAt_middle hb]
  exact hi'

/-- Releasing some live allocations one by one. -/
theorem releases_exact : ∀ (ps : List ℕ) (s : Client) (bs : List Block), Inv s bs → ps.Nodup →
    (∀ p ∈ ps, s.live p ≠ none) → Sat (trace (step libc) s (ps.map .dealloc)) fun r =>
      Holds r.2.heap (ps.foldl (releaseAt s.heap.buffer) bs) ∧
        r.2.heap.buffer = s.heap.buffer := by
  intro ps
  induction ps with
  | nil => intro s bs hi _ _; exact Sat.ok ⟨hi.holds, rfl⟩
  | cons p ps ih =>
    intro s bs hi hnodup hlive
    obtain ⟨hp, hnodup⟩ := List.nodup_cons.1 hnodup
    obtain ⟨⟨o, s₁⟩, hstep, hi₁, hbuffer, hlive₁⟩ : Sat (step libc s (.dealloc p)) _ :=
      dealloc_exact hi (hlive p (List.mem_cons_self ..))
    have hothers : ∀ q ∈ ps, s₁.live q ≠ none := by
      intro q hq
      have hne : q ≠ p := fun h => hp (h ▸ hq)
      rw [show s₁.live = Function.update s.live p none from hlive₁, Function.update_of_ne hne]
      exact hlive q (List.mem_cons_of_mem _ hq)
    rw [List.map_cons, trace_cons_of_ok hstep]
    refine (ih s₁ _ hi₁ hnodup hothers).bind fun r hr => Sat.ok ?_
    rw [show s₁.heap.buffer = s.heap.buffer from hbuffer] at hr
    exact hr

/-- **The order of releases does not matter.**  In every state a run of valid
calls reaches, releasing a set of live allocations in any two orders leads to the
same blocks at the same addresses, with the same sizes and flags. -/
theorem order_of_releases {ν : Type} (libc₀ : Libc ν) (hplaced : libc₀.Placed)
    (libc : Libc Heap) (mem : Words.Memory) (w w' : ν) (capacity : ℕ) (st : Status) (h : Heap)
    (hc : create libc₀ mem w capacity = .ok ((st, some h), w')) (calls : List Call)
    (hcalls : Along (step libc) Valid (start h) calls) :
    Sat (trace (step libc) (start h) calls) fun p => ∀ ps qs : List ℕ, ps.Nodup → ps.Perm qs →
      (∀ q ∈ ps, p.2.live q ≠ none) →
      Sat (trace (step libc) p.2 (ps.map .dealloc)) fun r =>
        Sat (trace (step libc) p.2 (qs.map .dealloc)) fun r' =>
          blockList r.2.heap = blockList r'.2.heap := by
  apply (run_inv (inv_start hplaced hc) hcalls).mono
  rintro p ⟨⟨bs, hi⟩, -, -⟩ ps qs hnodup hperm hlive
  have hfold : ps.foldl (releaseAt p.2.heap.buffer) bs = qs.foldl (releaseAt p.2.heap.buffer) bs :=
    hperm.foldl_eq' (fun x _ y _ z => releaseAt_comm _ z x y) bs
  refine (releases_exact ps p.2 bs hi hnodup hlive).mono fun r hr => ?_
  refine (releases_exact qs p.2 bs hi (hperm.nodup_iff.1 hnodup)
    fun q hq => hlive q (hperm.mem_iff.2 hq)).mono fun r' hr' => ?_
  rw [hr.1.blockList_eq, hr'.1.blockList_eq, hr.2, hr'.2, hfold]

end Releases

section Lp64

local instance : Platform := lp64

/-- Two free blocks lie behind the first of three that are released. -/
theorem order_of_releases_after_shrink : ∃ st h w,
    create Libc.bump (fun _ => 0) 1 1024 = .ok ((st, some h), w) ∧
      Sat (trace (step .exhausted) (start h)
        [.alloc 128, .alloc 128, .alloc 16, .dealloc 256, .resize 96 16]) fun p =>
        ∀ ps qs : List ℕ, ps.Nodup → ps.Perm qs → (∀ q ∈ ps, p.2.live q ≠ none) →
          Sat (trace (step .exhausted) p.2 (ps.map .dealloc)) fun r =>
            Sat (trace (step .exhausted) p.2 (qs.map .dealloc)) fun r' =>
              blockList r.2.heap = blockList r'.2.heap := by
  obtain ⟨st, h, w, hc, hcheck⟩ := exists_of_check (r := create Libc.bump (fun _ => 0) 1 1024)
    (f := fun h => checkAlong (step .exhausted) Valid (start h)
      [.alloc 128, .alloc 128, .alloc 16, .dealloc 256, .resize 96 16]) (by decide +kernel)
  exact ⟨st, h, w, hc, order_of_releases Libc.bump Libc.bump_placed .exhausted (fun _ => 0) 1 w 1024
    st h hc _ (along_of_check hcheck)⟩

end Lp64

/-! ## Allocations that are released at once -/

section Scratch

variable [Platform] {s : Client} {bs : List Block} {libc : Libc Heap} {h : Heap}

/-- Allocate and release at once, for one size after the other. -/
def scratch (libc : Libc Heap) (s : Client) : List ℕ → Result Client
  | [] => .ok s
  | size :: sizes => do
    let ((st, p), s) ← step libc s (.alloc size)
    if st = .ok then
      let (_, s) ← step libc s (.dealloc p)
      scratch libc s sizes
    else scratch libc s sizes

/-- **Releasing undoes the allocation** in a merged heap. -/
theorem alloc_dealloc (hi : Inv s bs) (hm : Merged bs) {size : ℕ} (hsize : 0 < size) :
    Sat (step libc s (.alloc size)) fun p =>
      (p.1.1 = .ok → Sat (step libc p.2 (.dealloc p.1.2)) fun r =>
        Inv r.2 bs ∧ r.2.heap.buffer = s.heap.buffer) ∧ (p.1.1 ≠ .ok → p.2 = s) := by
  apply (alloc_blocks hi hsize).mono
  rintro ⟨ans, s'⟩ (⟨-, heq⟩ | ⟨n, pre, b, post, -, rfl, -, hfit, hans, hlive, hi', hb⟩)
  · cases heq
    exact ⟨fun h => absurd h (by simp), fun _ => rfl⟩
  dsimp only at hans hlive hi' hb
  subst hans
  refine ⟨fun _ => ?_, fun h => absurd rfl h⟩
  have hbuffer : s'.heap.buffer = s.heap.buffer := hb.buffer_eq
  obtain ⟨c, rest, hcut, hused⟩ := exists_cut_used b n
  refine (dealloc_exact hi' (by rw [hlive, Function.update_self]; simp)).mono fun r hr => ?_
  obtain ⟨hr, hbuf, -⟩ := hr
  rw [hbuffer, hcut, List.append_assoc, List.cons_append, releaseAt_middle hused,
    release_cut hm hfit.1 n hcut] at hr
  exact ⟨hr, hbuf.trans hbuffer⟩

/-- Scratch allocations leave the blocks as they were. -/
theorem scratch_spec (hm : Merged bs) : ∀ (sizes : List ℕ) (s : Client), Inv s bs →
    (∀ size ∈ sizes, 0 < size) → Sat (scratch libc s sizes) fun s' =>
      Inv s' bs ∧ s'.heap.buffer = s.heap.buffer := by
  intro sizes
  induction sizes with
  | nil => intro s hi _; exact Sat.ok ⟨hi, rfl⟩
  | cons size sizes ih =>
    intro s hi hpos
    have hpos' : ∀ n ∈ sizes, 0 < n := fun n hn => hpos n (List.mem_cons_of_mem _ hn)
    rw [scratch]
    apply (alloc_dealloc hi hm (hpos size (List.mem_cons_self ..))).bind
    rintro ⟨⟨st, p⟩, s'⟩ ⟨hok, hfailed⟩
    dsimp only at hok hfailed ⊢
    by_cases hst : st = .ok
    · rw [if_pos hst]
      apply (hok hst).bind
      rintro ⟨o, r⟩ ⟨hr, hbuf⟩
      exact (ih r hr hpos').mono fun s'' hs => ⟨hs.1, hs.2.trans hbuf⟩
    · rw [if_neg hst, hfailed hst]
      exact ih s hi hpos'

/-- **An allocation that is released at once leaves no trace.**  In every state
reached without `resize`, releasing what `alloc` returned restores the block list
exactly, and so does any number of such scratch allocations. -/
theorem release_after_alloc {ν : Type} (libc₀ : Libc ν) (hplaced : libc₀.Placed)
    (libc : Libc Heap) (mem : Words.Memory) (w w' : ν) (capacity : ℕ) (st : Status) (h : Heap)
    (hc : create libc₀ mem w capacity = .ok ((st, some h), w')) (calls : List Call)
    (hcalls : Along (step libc) Valid (start h) calls)
    (hnoresize : ∀ p n, Call.resize p n ∉ calls) :
    Sat (trace (step libc) (start h) calls) fun p =>
      (∀ size, 0 < size → Sat (step libc p.2 (.alloc size)) fun q => q.1.1 = .ok →
        Sat (step libc q.2 (.dealloc q.1.2)) fun r => blockList r.2.heap = blockList p.2.heap) ∧
      ∀ sizes : List ℕ, (∀ size ∈ sizes, 0 < size) →
        Sat (scratch libc p.2 sizes) fun s => blockList s.heap = blockList p.2.heap := by
  have hcalls' := hcalls.and (along_of_mem calls (start h)
    (Q := fun c => ∀ p n, c ≠ .resize p n) fun c hc p n heq => hnoresize p n (heq ▸ hc))
  refine (trace_inv (I := fun t => ∃ bs, Inv t bs ∧ Merged bs) ?_ calls (start h)
    ⟨_, inv_start hplaced hc, List.isChain_singleton _⟩ hcalls').mono ?_
  · rintro t c ⟨bs, hi, hm⟩ ⟨hv, hne⟩
    refine (step_spec hi hv).mono fun p hp => ?_
    obtain ⟨bs', hi', -, -, -, hm'⟩ := hp
    refine ⟨bs', hi', hm' ?_ hm⟩
    cases c with
    | resize p n => exact absurd rfl (hne p n)
    | alloc size => trivial
    | dealloc ptr => trivial
    | write ptr offset bytes => trivial
  · rintro p ⟨bs, hi, hm⟩
    refine ⟨fun size hsize => ?_, fun sizes hpos => ?_⟩
    · refine (alloc_dealloc hi hm hsize).mono fun q hq hst => (hq.1 hst).mono fun r hr => ?_
      rw [hr.1.holds.blockList_eq, hi.holds.blockList_eq, hr.2]
    · refine (scratch_spec hm sizes p.2 hi hpos).mono fun s hs => ?_
      rw [hs.1.holds.blockList_eq, hi.holds.blockList_eq, hs.2]

end Scratch

section Lp64

local instance : Platform := lp64

/-- A hole of one block lies before the allocations. -/
theorem release_after_alloc_hole : ∃ st h w,
    create Libc.bump (fun _ => 0) 1 512 = .ok ((st, some h), w) ∧
      Sat (trace (step .exhausted) (start h) [.alloc 128, .alloc 16, .dealloc 96]) fun p =>
        (∀ size, 0 < size → Sat (step .exhausted p.2 (.alloc size)) fun q => q.1.1 = .ok →
          Sat (step .exhausted q.2 (.dealloc q.1.2)) fun r =>
            blockList r.2.heap = blockList p.2.heap) ∧
        ∀ sizes : List ℕ, (∀ size ∈ sizes, 0 < size) →
          Sat (scratch .exhausted p.2 sizes) fun s => blockList s.heap = blockList p.2.heap := by
  obtain ⟨st, h, w, hc, hcheck⟩ := exists_of_check (r := create Libc.bump (fun _ => 0) 1 512)
    (f := fun h => checkAlong (step .exhausted) Valid (start h)
      [.alloc 128, .alloc 16, .dealloc 96]) (by decide +kernel)
  exact ⟨st, h, w, hc, release_after_alloc Libc.bump Libc.bump_placed .exhausted (fun _ => 0) 1 w
    512 st h hc _ (along_of_check hcheck) (by simp)⟩

end Lp64

end Client

end Heap
end K4c
