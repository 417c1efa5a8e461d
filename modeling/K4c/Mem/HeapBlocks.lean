import Mathlib.Tactic
import K4c.Lib.Tiling
import K4c.Mem.GeneralHeap

/-!
# The general heap as a list of blocks

What a heap is for: a list of blocks, used or free, that tile the buffer.  The
operations split a block and merge neighbours.

* `cut`, `merge`, `release` — splitting a block off, joining a block with the one
  behind it, and freeing a block together with its free neighbours.
* `used` — the payloads in use, as address and size; each operation changes this
  list at one place, and `used_release` says that freeing takes out one payload.
* `Merged` — no two neighbours are both free.  Allocation, release and growth
  keep this (`Merged.allocate`, `Merged.release`, `Merged.grow`); cutting a used
  block keeps it if a used block follows (`Merged.cut`).
-/

namespace K4c
namespace Heap

open Tiling

/-- A block: its payload size, and whether it is free. -/
structure Block where
  size : ℕ
  isFree : Bool
  deriving DecidableEq, Repr

namespace Block

/-- Header and payload. -/
def width (b : Block) : ℕ := headerSize + b.size

/-- A block and the one behind it as one block. -/
def merge (b c : Block) : Block := { b with size := b.size + (headerSize + c.size) }

@[simp] theorem size_merge (b c : Block) : (b.merge c).size = b.size + (headerSize + c.size) := rfl

@[simp] theorem isFree_merge (b c : Block) : (b.merge c).isFree = b.isFree := rfl

/-- A block that can serve `n` bytes. -/
def Fits (n : ℕ) (b : Block) : Prop := b.isFree = true ∧ n ≤ b.size

variable [Platform]

/-- A block reduced to `n` bytes, with a free block behind it if there is room
for one. -/
def cut (b : Block) (n : ℕ) : List Block :=
  if b.size - n ≤ headerSize + memoryAlign then [b]
  else [{ b with size := n }, ⟨b.size - n - headerSize, true⟩]

end Block

open Block

/-- The blocks with their addresses, when the first one is at `a`. -/
def placed (a : ℕ) (bs : List Block) : List (ℕ × Block) := place width a bs

/-- Where the blocks end. -/
def stop (a : ℕ) (bs : List Block) : ℕ := finish width a bs

section Placing

variable {a q q' : ℕ} {b b' : Block} {bs cs : List Block}

@[simp] theorem placed_nil : placed a [] = [] := rfl

@[simp] theorem placed_cons : placed a (b :: bs) = (a, b) :: placed (a + b.width) bs := rfl

@[simp] theorem placed_append : placed a (bs ++ cs) = placed a bs ++ placed (stop a bs) cs :=
  place_append

@[simp] theorem stop_nil : stop a [] = a := rfl

@[simp] theorem stop_cons : stop a (b :: bs) = stop (a + b.width) bs := finish_cons b

@[simp] theorem stop_append : stop a (bs ++ cs) = stop (stop a bs) cs := finish_append

theorem le_stop : a ≤ stop a bs := le_finish

theorem mem_placed (h : (q, b) ∈ placed a bs) :
    b ∈ bs ∧ a ≤ q ∧ q + headerSize + b.size ≤ stop a bs := by
  rw [Nat.add_assoc]
  exact mem_place h

/-- Blocks do not overlap. -/
theorem placed_separated (h : (q, b) ∈ placed a bs) (h' : (q', b') ∈ placed a bs) :
    (q = q' ∧ b = b') ∨ q + headerSize + b.size ≤ q' ∨ q' + headerSize + b'.size ≤ q := by
  rw [Nat.add_assoc, Nat.add_assoc]
  exact (separated h h').imp Prod.mk.inj id

end Placing

/-! ## Payloads in use -/

/-- The payloads in use, as address and size. -/
def used (a : ℕ) (bs : List Block) : List (ℕ × ℕ) :=
  ((placed a bs).filter fun p => !p.2.isFree).map fun p => (p.1 + headerSize, p.2.size)

@[simp] theorem used_nil (a : ℕ) : used a [] = [] := rfl

theorem used_cons (a : ℕ) (b : Block) (bs : List Block) : used a (b :: bs) =
    (if b.isFree then [] else [(a + headerSize, b.size)]) ++ used (a + b.width) bs := by
  unfold used
  cases hb : b.isFree <;> simp [hb]

@[simp] theorem used_append (a : ℕ) (bs cs : List Block) :
    used a (bs ++ cs) = used a bs ++ used (stop a bs) cs := by
  simp [used]

theorem mem_used {a : ℕ} {bs : List Block} {p s : ℕ} : (p, s) ∈ used a bs ↔
    ∃ q, (q, (⟨s, false⟩ : Block)) ∈ placed a bs ∧ p = q + headerSize := by
  simp only [used, List.mem_map, List.mem_filter, Prod.exists, Prod.mk.injEq]
  constructor
  · rintro ⟨q, ⟨s', f⟩, ⟨hq, hf⟩, rfl, rfl⟩
    simp only [Bool.not_eq_true'] at hf
    exact ⟨q, hf ▸ hq, rfl⟩
  · rintro ⟨q, hq, rfl⟩
    exact ⟨q, ⟨s, false⟩, ⟨hq, rfl⟩, rfl, rfl⟩

/-- Payloads in use lie one behind the other, with a header between them. -/
theorem pairwise_used (a : ℕ) (bs : List Block) :
    (used a bs).Pairwise fun u v => u.1 + u.2 + headerSize ≤ v.1 := by
  refine List.Pairwise.map _ ?_ (Tiling.pairwise_place.filter _)
  intro p q hpq
  unfold width at hpq
  dsimp only
  omega

/-- Bytes that are free. -/
def freeBytes (bs : List Block) : ℕ := (bs.map fun b => if b.isFree then b.size else 0).sum

/-- Bytes in use. -/
def usedBytes (bs : List Block) : ℕ := (bs.map fun b => if b.isFree then 0 else b.size).sum

/-- **Free bytes, used bytes and headers fill the region.** -/
theorem stop_eq (a : ℕ) (bs : List Block) :
    stop a bs = a + (freeBytes bs + usedBytes bs + bs.length * headerSize) := by
  induction bs generalizing a with
  | nil => rfl
  | cons b bs ih =>
    rw [stop_cons, ih]
    simp only [freeBytes, usedBytes, List.map_cons, List.sum_cons, List.length_cons, width]
    cases b.isFree <;> simp <;> ring

/-! ## Freeing a block -/

/-- A block, joined with the next one if that is free. -/
def mergeNext (b : Block) : List Block → Block × List Block
  | [] => (b, [])
  | c :: post => if c.isFree then (b.merge c, post) else (b, c :: post)

/-- The blocks before a free block, joined with it if the last of them is free. -/
def mergePrev (pre : List Block) (b : Block) : List Block :=
  match pre.getLast? with
  | none => [b]
  | some c => if c.isFree then pre.dropLast ++ [c.merge b] else pre ++ [b]

/-- A block is freed: it is joined with its free neighbours. -/
def release (pre : List Block) (b : Block) (post : List Block) : List Block :=
  mergePrev pre (mergeNext { b with isFree := true } post).1 ++
    (mergeNext { b with isFree := true } post).2

@[simp] theorem mergePrev_nil (b : Block) : mergePrev [] b = [b] := rfl

theorem mergePrev_concat (pre : List Block) (c b : Block) : mergePrev (pre ++ [c]) b =
    if c.isFree then pre ++ [c.merge b] else pre ++ [c] ++ [b] := by
  simp [mergePrev]

theorem width_merge (b c : Block) : (b.merge c).width = b.width + c.width := by
  simp only [width, merge]
  ring

/-! ## What the operations do to the payloads in use -/

/-- The payload of a block in use. -/
theorem used_middle {b : Block} (hb : b.isFree = false) (a : ℕ) (pre post : List Block) :
    used a (pre ++ b :: post) =
      used a pre ++ (stop a pre + headerSize, b.size) :: used (stop a pre + b.width) post := by
  rw [used_append, used_cons, hb]
  rfl

/-- A free block has no payload in use. -/
theorem used_middle_of_free {b : Block} (hb : b.isFree = true) (a : ℕ) (pre post : List Block) :
    used a (pre ++ b :: post) = used a pre ++ used (stop a pre + b.width) post := by
  rw [used_append, used_cons, hb]
  rfl

/-- A free block counts for nothing, however it is divided. -/
theorem used_of_free {a : ℕ} (bs : List Block) (h : ∀ b ∈ bs, b.isFree = true) :
    used a bs = [] := by
  have hfilter : (placed a bs).filter (fun p => !p.2.isFree) = [] := by
    rw [List.filter_eq_nil_iff]
    intro p hp
    rw [h p.2 (mem_placed hp).1]
    simp
  rw [used, hfilter]
  rfl

theorem used_mergeNext (a : ℕ) (b : Block) (post : List Block) (hb : b.isFree = true) :
    stop (a + (mergeNext b post).1.width) (mergeNext b post).2 = stop (a + b.width) post ∧
      used (a + (mergeNext b post).1.width) (mergeNext b post).2 = used (a + b.width) post ∧
      (mergeNext b post).1.isFree = true := by
  cases post with
  | nil => exact ⟨rfl, rfl, hb⟩
  | cons c post =>
    rw [mergeNext]
    split
    · rename_i hc
      refine ⟨?_, ?_, hb⟩
      · show stop (a + (b.merge c).width) post = _
        rw [width_merge, stop_cons, Nat.add_assoc]
      · show used (a + (b.merge c).width) post = _
        rw [used_cons, if_pos hc, List.nil_append, width_merge, Nat.add_assoc]
    · exact ⟨rfl, rfl, hb⟩

theorem used_mergePrev (a : ℕ) (pre : List Block) (b : Block) (hb : b.isFree = true) :
    stop a (mergePrev pre b) = stop a pre + b.width ∧ used a (mergePrev pre b) = used a pre := by
  rcases List.eq_nil_or_concat pre with rfl | ⟨pre, c, rfl⟩
  · exact ⟨rfl, used_of_free _ (by simp [hb])⟩
  · rw [List.concat_eq_append, mergePrev_concat]
    split
    · rename_i hc
      refine ⟨?_, ?_⟩
      · simp only [stop_append, stop_cons, stop_nil, width_merge, Nat.add_assoc]
      · rw [used_append, used_append, used_of_free [c.merge b] (by simpa [merge] using hc),
          used_of_free [c] (by simpa using hc)]
    · refine ⟨?_, ?_⟩
      · simp only [stop_append, stop_cons, stop_nil]
      · rw [used_append, used_of_free [b] (by simpa using hb), List.append_nil]

/-- **Freeing takes out one payload** and leaves the end of the region alone. -/
theorem used_release (a : ℕ) (pre : List Block) (b : Block) (post : List Block) :
    stop a (release pre b post) = stop a (pre ++ b :: post) ∧
      used a (release pre b post) = used a pre ++ used (stop a pre + b.width) post := by
  obtain ⟨h1, h2, h3⟩ := used_mergeNext (stop a pre) { b with isFree := true } post rfl
  obtain ⟨h4, h5⟩ := used_mergePrev a pre _ h3
  refine ⟨?_, ?_⟩
  · rw [release, stop_append, h4, h1, stop_append, stop_cons]
    rfl
  · rw [release, used_append, h4, h5, h2]
    rfl

section Cutting

variable [Platform]

/-- What is left of a block is large enough, and its flag is that of the block. -/
theorem exists_cut (b : Block) (n : ℕ) : ∃ c rest, b.cut n = c :: rest ∧
    (n ≤ b.size → n ≤ c.size) ∧
    ∀ f, ({ b with isFree := f } : Block).cut n = { c with isFree := f } :: rest := by
  unfold cut
  by_cases h : b.size - n ≤ headerSize + memoryAlign
  · exact ⟨b, [], if_pos h, id, fun f => if_pos h⟩
  · exact ⟨_, _, if_neg h, fun _ => le_rfl, fun f => if_neg h⟩

/-- The first block of a cut block in use is in use. -/
theorem exists_cut_used (b : Block) (n : ℕ) : ∃ c rest,
    ({ b with isFree := false } : Block).cut n = c :: rest ∧ c.isFree = false := by
  unfold cut
  by_cases h : b.size - n ≤ headerSize + memoryAlign
  · exact ⟨_, [], if_pos h, rfl⟩
  · exact ⟨_, _, if_neg h, rfl⟩

theorem stop_cut {b : Block} {n : ℕ} (hn : n ≤ b.size) (a : ℕ) :
    stop a (b.cut n) = a + b.width := by
  unfold cut
  split
  · rfl
  · rename_i h
    simp only [stop_cons, stop_nil, width, headerSize] at *
    omega

/-- Cutting a block takes nothing but its own payload out of use. -/
theorem used_cut {b : Block} {n : ℕ} (hn : n ≤ b.size) (hb : b.isFree = false) (a : ℕ) :
    ∃ s, n ≤ s ∧ s ≤ b.size ∧ used a (b.cut n) = [(a + headerSize, s)] := by
  unfold cut
  split
  · exact ⟨b.size, hn, le_rfl, by simp [used_cons, hb]⟩
  · exact ⟨n, le_rfl, hn, by simp [used_cons, hb]⟩

/-- The payload of a block in use that is cut. -/
theorem used_cut_middle {b : Block} {n : ℕ} (hn : n ≤ b.size) (hb : b.isFree = false) (a : ℕ)
    (pre post : List Block) : ∃ s, n ≤ s ∧ s ≤ b.size ∧ used a (pre ++ b.cut n ++ post) =
      used a pre ++ (stop a pre + headerSize, s) :: used (stop a pre + b.width) post := by
  obtain ⟨s, h1, h2, h3⟩ := used_cut hn hb (stop a pre)
  refine ⟨s, h1, h2, ?_⟩
  rw [used_append, used_append, h3, stop_append, stop_cut hn, List.append_assoc]
  rfl

end Cutting

/-! ## Merged heaps -/

/-- No two neighbours are both free. -/
def Merged (bs : List Block) : Prop := bs.IsChain fun b c => ¬ (b.isFree = true ∧ c.isFree = true)

theorem merged_cons {b : Block} {bs : List Block} : Merged (b :: bs) ↔
    (∀ c ∈ bs.head?, ¬ (b.isFree = true ∧ c.isFree = true)) ∧ Merged bs :=
  List.isChain_cons

/-- A block in the middle matters to its two neighbours only. -/
theorem merged_middle {pre post : List Block} {b : Block} : Merged (pre ++ b :: post) ↔
    Merged pre ∧ Merged post ∧ (∀ c ∈ pre.getLast?, ¬ (c.isFree = true ∧ b.isFree = true)) ∧
      ∀ c ∈ post.head?, ¬ (b.isFree = true ∧ c.isFree = true) := by
  rw [Merged, List.isChain_append, ← Merged, ← Merged, merged_cons]
  simp only [List.head?_cons, Option.mem_def, Option.some.injEq, forall_eq']
  tauto

/-- A merged heap with nothing in use is one free block. -/
theorem Merged.eq_singleton {bs : List Block} (h : Merged bs) (hne : bs ≠ [])
    (hfree : ∀ b ∈ bs, b.isFree = true) : ∃ b, bs = [b] ∧ b.isFree = true := by
  cases bs with
  | nil => exact absurd rfl hne
  | cons b bs =>
    cases bs with
    | nil => exact ⟨b, rfl, hfree b (by simp)⟩
    | cons c bs =>
      exact absurd ⟨hfree b (by simp), hfree c (by simp)⟩ ((merged_cons.1 h).1 c rfl)

theorem Merged.mergeNext {b : Block} {post : List Block} (h : Merged post) :
    Merged (mergeNext b post).2 ∧ ∀ c ∈ (mergeNext b post).2.head?, c.isFree = false := by
  cases post with
  | nil => exact ⟨h, by simp [Heap.mergeNext]⟩
  | cons c post =>
    rw [Heap.mergeNext]
    split
    · rename_i hc
      refine ⟨(merged_cons.1 h).2, fun d hd => ?_⟩
      simpa [hc] using (merged_cons.1 h).1 d hd
    · rename_i hc
      refine ⟨h, ?_⟩
      simpa using hc

/-- **Freeing keeps a heap merged.** -/
theorem Merged.release {pre post : List Block} {b : Block} (h : Merged (pre ++ b :: post)) :
    Merged (release pre b post) := by
  obtain ⟨hpre, hpost, -, -⟩ := merged_middle.1 h
  obtain ⟨hrest, hhead⟩ := hpost.mergeNext (b := { b with isFree := true })
  rw [Heap.release]
  generalize Heap.mergeNext { b with isFree := true } post = next at hrest hhead ⊢
  obtain ⟨b', post'⟩ := next
  have hafter : ∀ d : Block, ∀ c ∈ post'.head?, ¬ (d.isFree = true ∧ c.isFree = true) :=
    fun d c hc => by simp [hhead c hc]
  rcases List.eq_nil_or_concat pre with rfl | ⟨pre, c, rfl⟩
  · exact merged_middle.2 ⟨.nil, hrest, by simp, hafter b'⟩
  · rw [List.concat_eq_append] at *
    obtain ⟨hpre', -, hlast, -⟩ := merged_middle.1 hpre
    rw [mergePrev_concat]
    split
    · rename_i hc
      rw [List.append_assoc]
      exact merged_middle.2 ⟨hpre', hrest, hlast, hafter _⟩
    · rename_i hc
      rw [List.append_assoc]
      refine merged_middle.2 ⟨hpre, hrest, ?_, hafter b'⟩
      simpa using fun h => absurd h hc

/-- **Cutting a used block keeps a heap merged** unless the part cut off is
followed by a free block. -/
theorem Merged.cut [Platform] {pre post : List Block} {b : Block} {n : ℕ}
    (h : Merged (pre ++ b :: post)) (hb : b.isFree = false)
    (hnext : headerSize + memoryAlign < b.size - n → ∀ c ∈ post.head?, c.isFree = false) :
    Merged (pre ++ b.cut n ++ post) := by
  obtain ⟨hpre, hpost, -, -⟩ := merged_middle.1 h
  rw [List.append_assoc]
  unfold Block.cut
  split
  · exact h
  · rename_i hcut
    refine merged_middle.2 ⟨hpre, merged_cons.2 ⟨fun c hc => ?_, hpost⟩, ?_, ?_⟩
    · simp [hnext (by omega) c hc]
    · simp [hb]
    · simp [hb]

/-- **Allocation keeps a heap merged.** -/
theorem Merged.allocate [Platform] {pre post : List Block} {b : Block} (n : ℕ)
    (h : Merged (pre ++ b :: post)) (hb : b.isFree = true) :
    Merged (pre ++ ({ b with isFree := false } : Block).cut n ++ post) := by
  obtain ⟨hpre, hpost, hlast, hhead⟩ := merged_middle.1 h
  refine Merged.cut (merged_middle.2 ⟨hpre, hpost, by simp, by simp⟩) rfl fun _ c hc => ?_
  simpa [hb] using hhead c hc

/-- **Growing into the free block behind keeps a heap merged.** -/
theorem Merged.grow [Platform] {pre post : List Block} {b c : Block} (n : ℕ)
    (h : Merged (pre ++ b :: c :: post)) (hb : b.isFree = false) (hc : c.isFree = true) :
    Merged (pre ++ (b.merge c).cut n ++ post) := by
  obtain ⟨hpre, hpost, -, -⟩ := merged_middle.1 h
  obtain ⟨hhead, hpost⟩ := merged_cons.1 hpost
  refine Merged.cut (merged_middle.2 ⟨hpre, hpost, by simp [hb], by simp [hb]⟩) hb
    fun _ d hd => ?_
  simpa [hc] using hhead d hd

end Heap
end K4c
