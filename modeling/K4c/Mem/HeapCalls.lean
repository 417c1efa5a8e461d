import Mathlib.Tactic
import K4c.Mem.HeapLayout

/-!
# What one call of the general heap does

Each operation of the heap on the block list, for every heap that holds one.

* `coalesce_spec`, `vtableDealloc_spec` — freeing a block is `release`.
* `vtableAlloc_spec` — allocation cuts the first block that fits, and fails only
  if there is none.
* `vtableRealloc_spec` — the four ways of resizing: in place with a cut, in place
  with the free block behind, by moving, or not at all.
* `available_spec`, `create_spec` — the free bytes, and the first heap.
-/

namespace K4c
namespace Heap

open Exec Words DoublyLinkedList

/-! ## Walking the list -/

/-- The address of the first of some blocks, `NULL` if there is none. -/
def firstAt (a : ℕ) : List Block → ℕ
  | [] => 0
  | _ :: _ => a

theorem blockOfNode_blockNode (a : ℕ) : blockOfNode (blockNode a) = a := by
  simp [blockOfNode, blockNode]

theorem blockOfNode_headD (a : ℕ) (bs : List Block) :
    blockOfNode ((nodes a bs).headD 0) = firstAt a bs := by
  cases bs with
  | nil => rfl
  | cons b bs => exact blockOfNode_blockNode a

variable [Platform] {h : Heap} {bs pre post : List Block} {b : Block}

theorem Holds.head_eq (hh : Holds h bs) : head h = firstAt h.buffer bs := by
  rw [head, hh.list.head_eq, blockOfNode_headD]

theorem Holds.next_eq (hh : Holds h (pre ++ b :: post)) :
    next h.mem (stop h.buffer pre) = firstAt (stop h.buffer pre + b.width) post := by
  have hl := hh.list
  rw [nodes_append, nodes_cons] at hl
  rw [next, hl.next_eq, blockOfNode_headD]

theorem Holds.prev_eq_of_nil (hh : Holds h (b :: post)) : prev h.mem h.buffer = 0 := by
  have hl : h.blocks.Holds h.mem ([] ++ blockNode h.buffer :: nodes (h.buffer + b.width) post) :=
    hh.list
  rw [prev, hl.prev_eq]
  rfl

theorem Holds.prev_eq_of_concat {c : Block} (hh : Holds h (pre ++ c :: b :: post)) :
    prev h.mem (stop h.buffer pre + c.width) = stop h.buffer pre := by
  have hl := hh.list
  rw [nodes_append, nodes_cons, nodes_cons, List.append_cons] at hl
  rw [prev, hl.prev_eq, List.getLastD_concat, blockOfNode_blockNode]

theorem Holds.stop_ne_zero (hh : Holds h bs) (pre : List Block) : stop h.buffer pre ≠ 0 := by
  have := hh.buffer_pos
  have : h.buffer ≤ stop h.buffer pre := le_stop
  omega

theorem Becomes.refl (hh : Holds h bs) (addrs : List ℕ) : Becomes h addrs bs h :=
  ⟨rfl, rfl, hh, fun _ _ => rfl⟩

/-! ## Freeing -/

omit [Platform] in
theorem starts_mergeNext (a : ℕ) (b : Block) (post : List Block) :
    starts a ((mergeNext b post).1 :: (mergeNext b post).2) ⊆ starts a (b :: post) := by
  cases post with
  | nil => exact List.Subset.refl _
  | cons c post =>
    rw [mergeNext]
    split
    · simp only [starts_cons, width_merge, Nat.add_assoc]
      exact List.cons_subset_cons _ (List.subset_cons_self _ _)
    · exact List.Subset.refl _

/-- The block behind is taken in if it is free. -/
theorem coalesceNext_spec (hh : Holds h (pre ++ b :: post)) :
    Sat (coalesceNext h (stop h.buffer pre)) (Becomes h (starts h.buffer (pre ++ b :: post))
      (pre ++ (mergeNext b post).1 :: (mergeNext b post).2)) := by
  unfold coalesceNext
  dsimp only
  rw [hh.next_eq]
  cases post with
  | nil =>
    rw [if_neg (by simp [firstAt])]
    exact Sat.ok (.refl hh _)
  | cons c post =>
    have hstop : stop h.buffer pre + b.width ≠ 0 := by
      have := hh.stop_ne_zero pre
      omega
    have hc : blockIsFree h.mem (stop h.buffer pre + b.width) = c.isFree :=
      (hh.headers _ c (by simp)).isFree_eq
    rw [firstAt, hc, mergeNext]
    by_cases hfree : c.isFree
    · rw [if_pos ⟨hstop, hfree⟩, if_pos hfree]
      exact absorb_spec hh
    · rw [if_neg (fun h => hfree h.2), if_neg hfree]
      exact Sat.ok (.refl hh _)

/-- The block before takes this one in if it is free. -/
theorem coalescePrev_spec (hh : Holds h (pre ++ b :: post)) :
    Sat (coalescePrev h (stop h.buffer pre)) fun p =>
      Becomes h (starts h.buffer (pre ++ b :: post)) (mergePrev pre b ++ post) p.2 := by
  unfold coalescePrev
  dsimp only
  rcases List.eq_nil_or_concat pre with rfl | ⟨pre, c, rfl⟩
  · rw [if_neg (fun h0 => h0.1 (Holds.prev_eq_of_nil hh))]
    exact Sat.ok (.refl hh _)
  · rw [List.concat_eq_append] at *
    have hh' : Holds h (pre ++ c :: b :: post) := by simpa using hh
    have hstop : stop h.buffer (pre ++ [c]) = stop h.buffer pre + c.width := by simp
    have hc : blockIsFree h.mem (stop h.buffer pre) = c.isFree :=
      (hh'.headers _ c (by simp)).isFree_eq
    rw [hstop, hh'.prev_eq_of_concat, hc, mergePrev_concat]
    by_cases hfree : c.isFree
    · rw [if_pos ⟨hh'.stop_ne_zero pre, hfree⟩, if_pos hfree]
      exact (absorb_spec hh').bind fun h₁ h₂ => Sat.ok (by simpa using h₂)
    · rw [if_neg (fun h => hfree h.2), if_neg hfree]
      exact Sat.ok (.refl (by simpa using hh) _)

/-- **A free block is joined with its free neighbours.** -/
theorem coalesce_spec (hh : Holds h (pre ++ b :: post)) (hb : b.isFree = true) :
    Sat (coalesce h (stop h.buffer pre)) fun p =>
      Becomes h (starts h.buffer (pre ++ b :: post)) (release pre b post) p.2 := by
  have hsame : ({ b with isFree := true } : Block) = b := by rw [← hb]
  unfold coalesce
  refine (coalesceNext_spec hh).bind fun h₁ hnext => ?_
  have hprev := coalescePrev_spec hnext.holds
  rw [hnext.buffer_eq] at hprev
  refine hprev.mono fun p hp => ?_
  rw [release, hsame]
  apply hnext.trans hp
  rw [starts_append, starts_append]
  exact List.append_subset.2 ⟨List.subset_append_left _ _,
    List.subset_append_of_subset_right _ (starts_mergeNext _ _ _)⟩

/-- **Freeing a block.** -/
theorem vtableDealloc_spec (hh : Holds h (pre ++ b :: post)) :
    Sat (vtableDealloc h (stop h.buffer pre + headerSize))
      (Becomes h (starts h.buffer (pre ++ b :: post)) (release pre b post)) := by
  have hb := (hh.sizes b (by simp)).1
  have hpos := hh.buffer_pos
  obtain ⟨hlow, hhigh⟩ := hh.bounds
  have hset := setIsFree_spec hh true
  unfold vtableDealloc
  rw [check_of (by unfold headerSize; omega), ok_bind, check_of (by omega), ok_bind]
  dsimp only
  rw [sizeAdd_of_le hh.stop_le, ok_bind, if_neg (by unfold headerSize at *; omega),
    Nat.add_sub_cancel]
  have hco := coalesce_spec hset.holds rfl
  rw [hset.buffer_eq] at hco
  refine hco.bind fun p hp => Sat.ok ((hset.mono ?_).trans hp ?_)
  · simp
  · simp [Block.width]

/-! ## Allocation -/

/-- What allocation does to the blocks: the first block that fits is cut and put
to use. -/
inductive Allocated (h : Heap) (bs : List Block) (n : ℕ) : ℕ → Heap → Prop
  /-- No block fits. -/
  | none : (∀ b ∈ bs, ¬ Block.Fits n b) → Allocated h bs n 0 h
  /-- `b` is the first block that fits. -/
  | some {pre b post p h'} : bs = pre ++ b :: post → (∀ c ∈ pre, ¬ Block.Fits n c) →
      Block.Fits n b → p = stop h.buffer pre + headerSize →
      Becomes h (starts h.buffer (pre ++ ({ b with isFree := false } : Block).cut n ++ post))
        (pre ++ ({ b with isFree := false } : Block).cut n ++ post) h' →
      Allocated h bs n p h'

/-- A free block is cut and put to use. -/
theorem split_and_use (hh : Holds h (pre ++ b :: post)) {n : ℕ} (hn : 0 < n)
    (hdvd : memoryAlign ∣ n) (hfit : Block.Fits n b) :
    Sat (splitBlock h (stop h.buffer pre) n) fun h₁ =>
      Becomes h (starts h.buffer (pre ++ ({ b with isFree := false } : Block).cut n ++ post))
        (pre ++ ({ b with isFree := false } : Block).cut n ++ post)
        { h₁ with mem := setIsFree h₁.mem (stop h.buffer pre) false } := by
  obtain ⟨c, rest, hcut, -, hflag⟩ := exists_cut b n
  refine (splitBlock_spec hh hn hdvd hfit.2).mono fun h₁ h1 => ?_
  rw [hcut] at h1
  have hh₁ : Holds h₁ (pre ++ c :: (rest ++ post)) := by simpa using h1.holds
  have h2 := setIsFree_spec hh₁ false
  rw [show stop h₁.buffer pre = stop h.buffer pre by rw [h1.buffer_eq]] at h2
  rw [hflag false]
  have h3 := h1.trans h2 (by simp)
  simpa [Block.width] using h3

theorem Holds.freeFits (hh : Holds h (pre ++ b :: post)) (n : ℕ) :
    (blockIsFree h.mem (stop h.buffer pre) ∧ blockSize h.mem (stop h.buffer pre) ≥ n) ↔
      Block.Fits n b := by
  have hheader := hh.headers _ _ (mem_placed_middle h.buffer)
  rw [hheader.isFree_eq, hheader.size_eq]
  exact Iff.rfl

/-- The first-fit loop, from any block on. -/
theorem loop_allocRound {n : ℕ} (hn : 0 < n) (hdvd : memoryAlign ∣ n) :
    ∀ (post pre : List Block) (fuel : ℕ), Holds h (pre ++ post) →
      (∀ c ∈ pre, ¬ Block.Fits n c) → post.length < fuel →
      Sat (loop (allocRound h n) fuel (firstAt (stop h.buffer pre) post)) fun p =>
        Allocated h (pre ++ post) n p.1 p.2 := by
  intro post
  induction post with
  | nil =>
    intro pre fuel _ hpre hfuel
    cases fuel with
    | zero => exact absurd hfuel (Nat.not_lt_zero _)
    | succ fuel =>
      rw [firstAt, loop_of_inr (r := (0, h)) (by simp [allocRound])]
      exact Sat.ok (.none (by simpa using hpre))
  | cons b post ih =>
    intro pre fuel hh hpre hfuel
    cases fuel with
    | zero => exact absurd hfuel (Nat.not_lt_zero _)
    | succ fuel =>
      have hstop : stop h.buffer pre ≠ 0 := hh.stop_ne_zero pre
      by_cases hfit : Block.Fits n b
      · obtain ⟨h₁, hsplit, h1⟩ := split_and_use hh hn hdvd hfit
        have hround : allocRound h n (stop h.buffer pre) =
            .ok (.inr (stop h.buffer pre + headerSize,
              { h₁ with mem := setIsFree h₁.mem (stop h.buffer pre) false })) := by
          rw [allocRound, if_neg hstop, if_pos ((hh.freeFits n).2 hfit), hsplit]
          rfl
        rw [firstAt, loop_of_inr hround]
        exact Sat.ok (.some rfl hpre hfit rfl h1)
      · have hround : allocRound h n (stop h.buffer pre) =
            .ok (.inl (firstAt (stop h.buffer (pre ++ [b])) post)) := by
          rw [allocRound, if_neg hstop, if_neg (fun hc => hfit ((hh.freeFits n).1 hc)), hh.next_eq]
          simp
        have hpre' : ∀ c ∈ pre ++ [b], ¬ Block.Fits n c := by
          intro c hc
          rcases List.mem_append.1 hc with hc | hc
          · exact hpre c hc
          · rwa [List.mem_singleton.1 hc]
        rw [firstAt, loop_of_inl hround, show pre ++ b :: post = pre ++ [b] ++ post by simp]
        exact ih (pre ++ [b]) fuel (by simpa using hh) hpre'
          (by rw [List.length_cons] at hfuel; omega)

/-- **Allocation takes the first block that fits**, and fails when there is none
or the size cannot be rounded up. -/
theorem vtableAlloc_spec (hh : Holds h bs) {size : ℕ} (hsize : 0 < size) :
    Sat (vtableAlloc h size) fun p =>
      (alignUpOverflow size memoryAlign = none ∧ p = (0, h)) ∨
      ∃ n, alignUpOverflow size memoryAlign = some n ∧ Allocated h bs n p.1 p.2 := by
  have hpos := hh.buffer_pos
  unfold vtableAlloc
  rw [check_of (by omega), ok_bind, check_of hsize, ok_bind]
  cases hround : alignUpOverflow size memoryAlign with
  | none => exact Sat.ok (Or.inl ⟨rfl, rfl⟩)
  | some n =>
    obtain ⟨hdvd, hle, -, -⟩ := alignUpOverflow_eq_some hround
    dsimp only
    rw [hh.size_eq, hh.head_eq]
    refine (loop_allocRound (by omega) hdvd bs [] (bs.length + 1) hh (by simp)
      (Nat.lt_succ_self _)).mono fun p hp => Or.inr ⟨n, rfl, hp⟩

/-! ## Resizing -/

/-- The block behind is free and makes the block large enough. -/
def Grows (n : ℕ) (b : Block) (post : List Block) : Prop :=
  ∃ c post', post = c :: post' ∧ c.isFree = true ∧ n ≤ (b.merge c).size

/-- What resizing the block `b` between `pre` and `post` to `n` bytes does. -/
inductive Reallocated (h : Heap) (pre : List Block) (b : Block) (post : List Block) (n : ℕ) :
    ℕ → Heap → Prop
  /-- The block is large enough and is cut. -/
  | shrunk {p h'} : n ≤ b.size → p = stop h.buffer pre + headerSize →
      Becomes h (starts h.buffer (pre ++ b.cut n ++ post)) (pre ++ b.cut n ++ post) h' →
      Reallocated h pre b post n p h'
  /-- The block takes in the free one behind it and is cut. -/
  | grown {c post' p h'} : b.size < n → post = c :: post' → c.isFree = true →
      n ≤ (b.merge c).size → p = stop h.buffer pre + headerSize →
      Becomes h (starts h.buffer (pre ++ b :: c :: post') ++
          starts h.buffer (pre ++ (b.merge c).cut n ++ post'))
        (pre ++ (b.merge c).cut n ++ post') h' →
      Reallocated h pre b post n p h'
  /-- No other block fits. -/
  | failed : b.size < n → ¬ Grows n b post → (∀ c ∈ pre ++ b :: post, ¬ Block.Fits n c) →
      Reallocated h pre b post n 0 h
  /-- The first block `d` that fits is cut and put to use, the payload is copied
  there and `b` is freed. -/
  | moved {pre₂ d post₂ pre₁ post₁ p h'} : b.size < n → ¬ Grows n b post →
      pre ++ b :: post = pre₂ ++ d :: post₂ → (∀ c ∈ pre₂, ¬ Block.Fits n c) → Block.Fits n d →
      pre₂ ++ ({ d with isFree := false } : Block).cut n ++ post₂ = pre₁ ++ b :: post₁ →
      stop h.buffer pre₁ = stop h.buffer pre → p = stop h.buffer pre₂ + headerSize →
      h'.buffer = h.buffer → h'.capacity = h.capacity → Holds h' (release pre₁ b post₁) →
      (∀ x, Outside (starts h.buffer (pre₁ ++ b :: post₁)) x →
        x < p ∨ p + b.size ≤ x → h'.mem x = h.mem x) →
      (∀ i < b.size, h'.mem (p + i) = h.mem (stop h.buffer pre + headerSize + i)) →
      Reallocated h pre b post n p h'

/-- The test for growth in place. -/
theorem growsInPlace_spec (hh : Holds h (pre ++ b :: post)) (n : ℕ) :
    Sat (growsInPlace h (stop h.buffer pre) n) fun g => g = true ↔ Grows n b post := by
  have hheader := hh.headers _ _ (mem_placed_middle h.buffer)
  unfold growsInPlace
  dsimp only
  rw [hh.next_eq, hheader.size_eq]
  cases post with
  | nil =>
    rw [if_neg (by simp [firstAt])]
    exact Sat.ok (by simp [Grows])
  | cons c post =>
    have hmem : (stop h.buffer pre + b.width, c) ∈ placed h.buffer (pre ++ b :: c :: post) := by
      simp
    have hc := hh.headers _ c hmem
    have hhigh := (mem_placed hmem).2.2
    rw [hh.stop_eq] at hhigh
    have hmax := hh.stop_le
    have hne : stop h.buffer pre + b.width ≠ 0 := by
      have := hh.stop_ne_zero pre
      omega
    have hgrows : Grows n b (c :: post) ↔ c.isFree = true ∧ n ≤ b.size + headerSize + c.size := by
      unfold Grows
      constructor
      · rintro ⟨c', post', heq, h1, h2⟩
        cases heq
        rw [Block.size_merge] at h2
        exact ⟨h1, by omega⟩
      · rintro ⟨h1, h2⟩
        exact ⟨c, post, rfl, h1, by rw [Block.size_merge]; omega⟩
    rw [firstAt, hc.isFree_eq, hc.size_eq]
    by_cases hfree : c.isFree = true
    · unfold Block.width at hhigh
      rw [if_pos ⟨hne, hfree⟩, sizeAdd_of_le (by omega), ok_bind, sizeAdd_of_le (by omega), ok_bind]
      apply Sat.ok
      rw [hgrows]
      simp [hfree]
    · rw [if_neg (fun h => hfree h.2)]
      apply Sat.ok
      rw [hgrows]
      simp [hfree]

/-- Allocation moves no block in use. -/
theorem mem_placed_of_allocated {d : Block} {a n : ℕ} {pre₂ post₂ : List Block} (hfit : n ≤ d.size)
    (hd : d.isFree = true) {q : ℕ} (hq : (q, b) ∈ placed a (pre₂ ++ d :: post₂))
    (hb : b.isFree = false) :
    (q, b) ∈ placed a (pre₂ ++ ({ d with isFree := false } : Block).cut n ++ post₂) := by
  have hstop : stop (stop a pre₂) (({ d with isFree := false } : Block).cut n) =
      stop a pre₂ + d.width := stop_cut (b := { d with isFree := false }) hfit _
  simp only [placed_append, placed_cons, List.mem_append, List.mem_cons, Prod.mk.injEq,
    stop_append, hstop] at hq ⊢
  rcases hq with hq | ⟨-, rfl⟩ | hq
  · exact Or.inl (Or.inl hq)
  · rw [hb] at hd
    exact absurd hd (by decide)
  · exact Or.inr hq

omit [Platform] in
/-- A block of a tiling splits it. -/
theorem exists_split {a q : ℕ} (h : (q, b) ∈ placed a bs) :
    ∃ pre post, bs = pre ++ b :: post ∧ q = stop a pre := Tiling.exists_split h

/-- Resizing by moving: allocate, copy the payload, free the old block. -/
theorem moveBlock_spec (hh : Holds h (pre ++ b :: post)) (hb : b.isFree = false) {n : ℕ}
    (hround : alignUpOverflow n memoryAlign = some n) (hlt : b.size < n)
    (hgrows : ¬ Grows n b post) :
    Sat (moveBlock h (stop h.buffer pre + headerSize) n)
      fun p => Reallocated h pre b post n p.1 p.2 := by
  unfold moveBlock
  refine (vtableAlloc_spec hh (by omega)).bind fun p hp => ?_
  obtain ⟨newPtr, h₁⟩ := p
  rcases hp with ⟨hnone, -⟩ | ⟨n', hn', halloc⟩
  · rw [hround] at hnone
    cases hnone
  rw [hround] at hn'
  cases hn'
  dsimp only at halloc ⊢
  cases halloc with
  | none hno => exact Sat.ok (.failed hlt hgrows hno)
  | @some pre₂ d post₂ _ _ heq hpre₂ hfit hp h1 =>
    subst hp
    -- the old block and the new one in the heap after the allocation
    obtain ⟨c, rest, hcut, hc, -⟩ := exists_cut ({ d with isFree := false } : Block) n
    have hold : (stop h.buffer pre, b) ∈ placed h.buffer
        (pre₂ ++ ({ d with isFree := false } : Block).cut n ++ post₂) :=
      mem_placed_of_allocated hfit.2 hfit.1 (heq ▸ mem_placed_middle h.buffer) hb
    have hnew : (stop h.buffer pre₂, c) ∈ placed h.buffer
        (pre₂ ++ ({ d with isFree := false } : Block).cut n ++ post₂) := by simp [hcut]
    have hcn : n ≤ c.size := hc hfit.2
    obtain ⟨pre₁, post₁, heq₁, hstop₁⟩ := exists_split hold
    rw [heq₁] at h1 hold hnew
    have hdisj : stop h.buffer pre₂ + headerSize + b.size ≤ stop h.buffer pre + headerSize ∨
        stop h.buffer pre + headerSize + b.size ≤ stop h.buffer pre₂ + headerSize := by
      rcases placed_separated hold hnew with ⟨-, rfl⟩ | hsep
      · omega
      · omega
    have hbuffer : h₁.buffer = h.buffer := h1.buffer_eq
    have hsize₁ : blockSize h₁.mem (stop h.buffer pre) = b.size :=
      (h1.holds.headers _ _ (hbuffer ▸ hold)).size_eq
    rw [if_neg (by have := h1.holds.buffer_pos; unfold headerSize; omega), Nat.add_sub_cancel,
      hsize₁, memcpy_of_disjoint hdisj, ok_bind]
    -- the copy stays inside the new payload
    set m₂ := copy h₁.mem (stop h.buffer pre₂ + headerSize) (stop h.buffer pre + headerSize) b.size
      with hm₂
    have hholds₂ : Holds { h₁ with mem := m₂ } (pre₁ ++ b :: post₁) := by
      refine h1.holds.of_headers_same fun x hx => copy_outside ?_
      rw [hbuffer] at hx
      by_contra hc
      exact hx (outside_payload hnew (by omega) (by omega))
    have hfree := vtableDealloc_spec hholds₂
    rw [show stop h₁.buffer pre₁ = stop h.buffer pre by rw [hbuffer, hstop₁]] at hfree
    refine hfree.bind fun h' h2 => Sat.ok ?_
    have hframe : ∀ x, Outside (starts h.buffer (pre₁ ++ b :: post₁)) x → h'.mem x = m₂ x :=
      fun x hx => h2.frame x (by rwa [hbuffer])
    refine .moved hlt hgrows heq hpre₂ hfit heq₁ hstop₁.symm rfl (h2.buffer_eq.trans hbuffer)
      (h2.capacity_eq.trans h1.capacity_eq) h2.holds ?_ ?_
    · intro x hx hfar
      rw [hframe x hx, hm₂, copy_outside hfar, h1.frame x hx]
    · intro i hi
      rw [hframe _ (outside_payload hnew (by omega) (by omega)), hm₂, copy_inside hi,
        h1.frame _ (outside_payload hold (by omega) (by omega))]

/-- **Resizing a block in use.** -/
theorem vtableRealloc_spec (hh : Holds h (pre ++ b :: post)) (hb : b.isFree = false) {size : ℕ}
    (hsize : 0 < size) :
    Sat (vtableRealloc h (stop h.buffer pre + headerSize) size) fun p =>
      (alignUpOverflow size memoryAlign = none ∧ p = (0, h)) ∨
      ∃ n, alignUpOverflow size memoryAlign = some n ∧ Reallocated h pre b post n p.1 p.2 := by
  have hpos := hh.buffer_pos
  have hheader := hh.headers _ _ (mem_placed_middle h.buffer)
  unfold vtableRealloc
  rw [check_of (by omega), ok_bind, if_neg (by unfold headerSize; omega), if_neg (by omega)]
  cases hround : alignUpOverflow size memoryAlign with
  | none => exact Sat.ok (Or.inl ⟨rfl, rfl⟩)
  | some n =>
    obtain ⟨hdvd, hle, -, -⟩ := alignUpOverflow_eq_some hround
    dsimp only
    rw [Nat.add_sub_cancel, hheader.size_eq]
    suffices hmain : ∀ {x : Result (ℕ × Heap)},
        Sat x (fun p => Reallocated h pre b post n p.1 p.2) →
        Sat x fun p => (some n = none ∧ p = (0, h)) ∨
          ∃ n', some n = some n' ∧ Reallocated h pre b post n' p.1 p.2 by
      apply hmain
      by_cases hfit : n ≤ b.size
      · rw [if_pos hfit]
        exact (splitBlock_spec hh (by omega) hdvd hfit).bind fun h₁ h1 =>
          Sat.ok (.shrunk hfit rfl h1)
      rw [if_neg hfit]
      refine (growsInPlace_spec hh n).bind fun g hg => ?_
      by_cases hgrows : Grows n b post
      · rw [if_pos (hg.2 hgrows)]
        obtain ⟨c, post', rfl, hc, hn⟩ := hgrows
        rw [hh.next_eq, firstAt]
        refine (absorb_spec hh).bind fun h₁ h1 => ?_
        have hsplit := splitBlock_spec h1.holds (by omega) hdvd hn
        rw [h1.buffer_eq] at hsplit
        refine hsplit.bind fun h₂ h2 => Sat.ok (.grown (by omega) rfl hc hn rfl ?_)
        exact (h1.mono (List.subset_append_left _ _)).trans h2 (List.subset_append_right _ _)
      · rw [if_neg (fun h => hgrows (hg.1 h))]
        exact moveBlock_spec hh hb (alignUpOverflow_idem hround) (by omega) hgrows
    exact fun hx => hx.mono fun p hp => Or.inr ⟨n, rfl, hp⟩

/-! ## The free bytes, and the first heap -/

/-- The loop of `available`, from any block on. -/
theorem loop_availableRound : ∀ (post pre : List Block) (fuel total : ℕ), Holds h (pre ++ post) →
    total + freeBytes post ≤ sizeMax → post.length < fuel →
    loop (availableRound h) fuel (total, firstAt (stop h.buffer pre) post) =
      .ok (total + freeBytes post) := by
  intro post
  induction post with
  | nil =>
    intro pre fuel total _ _ hfuel
    cases fuel with
    | zero => exact absurd hfuel (Nat.not_lt_zero _)
    | succ fuel =>
      rw [firstAt, loop_of_inr (r := total) (by simp [availableRound])]
      simp [freeBytes]
  | cons b post ih =>
    intro pre fuel total hh hsum hfuel
    cases fuel with
    | zero => exact absurd hfuel (Nat.not_lt_zero _)
    | succ fuel =>
      have hheader := hh.headers _ _ (mem_placed_middle h.buffer)
      have hfree : freeBytes (b :: post) = (if b.isFree then b.size else 0) + freeBytes post := rfl
      rw [hfree] at hsum ⊢
      have hround : availableRound h (total, stop h.buffer pre) =
          .ok (.inl (total + (if b.isFree then b.size else 0),
            firstAt (stop h.buffer (pre ++ [b])) post)) := by
        rw [availableRound, if_neg (hh.stop_ne_zero pre), hheader.isFree_eq, hheader.size_eq,
          hh.next_eq, stop_append]
        cases hb : b.isFree with
        | false => simp
        | true =>
          rw [hb] at hsum
          simp [sizeAdd_of_le (show total + b.size ≤ sizeMax by simp at hsum; omega)]
      rw [firstAt, loop_of_inl hround, ih (pre ++ [b]) fuel _ (by simpa using hh) (by omega)
        (by rw [List.length_cons] at hfuel; omega), Nat.add_assoc]

/-- **`available` is the number of free bytes.** -/
theorem available_spec (hh : Holds h bs) : available h = .ok (freeBytes bs) := by
  have hpos := hh.buffer_pos
  have hstop := hh.stop_eq
  have hmax := hh.stop_le
  rw [Heap.stop_eq] at hstop
  unfold available
  have hloop := loop_availableRound bs [] (bs.length + 1) 0 hh (by omega) (Nat.lt_succ_self _)
  rw [stop_nil, Nat.zero_add] at hloop
  rw [check_of (by omega), ok_bind, hh.size_eq, hh.head_eq, hloop]

/-- The buffer becomes one free block. -/
theorem init_spec (mem : Words.Memory) {buffer capacity : ℕ} (hpos : 0 < buffer)
    (hbuffer : memoryAlign ∣ buffer) (hdvd : memoryAlign ∣ capacity)
    (hlarge : headerSize < capacity) (hmax : buffer + capacity ≤ sizeMax) :
    Sat (init mem buffer capacity) fun h =>
      h.buffer = buffer ∧ h.capacity = capacity ∧ Holds h [⟨capacity - headerSize, true⟩] := by
  unfold init
  dsimp only
  rw [sizeSub_of_le (by omega), ok_bind]
  unfold headerSize at *
  obtain ⟨⟨blocks, m⟩, hpush, hblocks, hrel⟩ := push_spec (n := blockNode buffer)
    (holds_empty (setIsFree (setSize mem buffer (capacity - 32)) buffer true))
    (by simp [blockNode]) (by show buffer + 8 ≤ sizeMax; omega) (by simp) (by decide)
  rw [hpush, ok_bind]
  refine Sat.ok ⟨rfl, rfl, hpos, hbuffer, hmax, ?_, ?_, ?_, hblocks⟩
  · show buffer + (32 + (capacity - 32)) + 0 = buffer + capacity
    omega
  · intro b hb
    rw [List.mem_singleton.1 hb]
    exact ⟨by show 0 < capacity - 32; omega, Nat.dvd_sub hdvd memoryAlign_dvd_32⟩
  · intro q b hq
    simp only [placed_cons, placed_nil, List.mem_singleton, Prod.mk.injEq] at hq
    obtain ⟨hq, rfl⟩ := hq
    rw [hq]
    have hout : ∀ x, x < blockNode buffer ∨ blockNode buffer + 16 ≤ x → m x =
        setIsFree (setSize mem buffer (capacity - 32)) buffer true x :=
      fun x hx => hrel.outside (by simpa using hx)
    exact ((headerAt_self.setSize (by omega)).setIsFree true).congr
      (fun x h1 h2 => hout x (by unfold blockNode; omega))
      (hout _ (by unfold blockNode; omega))

/-- **A new heap is one free block.** -/
theorem create_spec {ν : Type} {libc : Libc ν} (hplaced : libc.Placed) {mem : Words.Memory}
    {w w' : ν} {capacity : ℕ} {st : Status}
    (hc : create libc mem w capacity = .ok ((st, some h), w')) :
    alignUpOverflow capacity memoryAlign = some h.capacity ∧
      headerSize + memoryAlign < h.capacity ∧ Holds h [⟨h.capacity - headerSize, true⟩] := by
  unfold create at hc
  obtain ⟨_, hcheck, hc⟩ := bind_eq_ok.1 hc
  rw [check_eq_ok] at hcheck
  cases hround : alignUpOverflow capacity memoryAlign with
  | none =>
    rw [hround] at hc
    cases hc
  | some c =>
    rw [hround] at hc
    obtain ⟨hdvd, hle, -, -⟩ := alignUpOverflow_eq_some hround
    obtain ⟨⟨⟨st₁, p₁⟩, w₁⟩, -, hc⟩ := bind_eq_ok.1 hc
    dsimp only at hc
    split at hc
    · cases hc
    obtain ⟨⟨⟨st₂, buffer⟩, w₂⟩, halloc, hc⟩ := bind_eq_ok.1 hc
    dsimp only at hc
    split at hc
    · obtain ⟨_, -, hc⟩ := bind_eq_ok.1 hc
      cases hc
    rename_i hst₂
    obtain ⟨⟨⟨st₃, p₃⟩, w₃⟩, -, hc⟩ := bind_eq_ok.1 hc
    dsimp only at hc
    split at hc
    · obtain ⟨_, -, hc⟩ := bind_eq_ok.1 hc
      obtain ⟨_, -, hc⟩ := bind_eq_ok.1 hc
      cases hc
    obtain ⟨h', hinit, hc⟩ := bind_eq_ok.1 hc
    cases hc
    obtain ⟨hmalloc, hne⟩ := Allocator.alloc_none_ok halloc (not_not.1 hst₂)
    obtain ⟨hbuffer, hmax⟩ := hplaced _ _ _ _ hmalloc hne
    obtain ⟨h'', hinit', -, hcap, hholds⟩ := init_spec mem (Nat.pos_of_ne_zero hne) hbuffer hdvd
      (by omega) hmax
    rw [hinit] at hinit'
    cases hinit'
    rw [hcap]
    exact ⟨rfl, by omega, hholds⟩

end Heap
end K4c
