import Mathlib.Tactic
import K4c.Lib.Runs
import K4c.Mem.HeapCalls

/-!
# A client of the general heap

The client calls the heap through its allocator view and writes into the memory
it was given.  The requested size of each live allocation is kept beside the
heap; the heap does not see it.

* `Serves` — the live allocations are the payloads in use.
* `step_spec` — what one call does, for all results about runs: the invariant is
  kept, no other allocation is touched, and a heap without free neighbours stays
  one unless a block is cut in front of a free one (`KeepsMerged`).
-/

namespace K4c
namespace Heap

open Exec Words

/-- A heap in use. -/
structure Client where
  heap : Heap
  /-- The requested size of each live allocation. -/
  live : ℕ → Option ℕ

/-- What a client can do. -/
inductive Call where
  | alloc (size : ℕ)
  | resize (ptr size : ℕ)
  | dealloc (ptr : ℕ)
  | write (ptr offset : ℕ) (bytes : List UInt8)
  deriving DecidableEq, Repr

/-- The allocation a call is about. -/
def Call.target : Call → Option ℕ
  | .alloc _ => none
  | .resize ptr _ => some ptr
  | .dealloc ptr => some ptr
  | .write ptr _ _ => some ptr

namespace Client

/-- The client has nothing allocated. -/
def start (h : Heap) : Client := ⟨h, fun _ => none⟩

/-- What the client may call: sizes are positive, pointers are live, and it
writes inside of the size it requested. -/
def Valid (s : Client) : Call → Prop
  | .alloc size => 0 < size
  | .resize ptr _ => s.live ptr ≠ none
  | .dealloc ptr => s.live ptr ≠ none
  | .write ptr offset bytes => ∃ n ∈ s.live ptr, offset + bytes.length ≤ n

instance (s : Client) : (c : Call) → Decidable (s.Valid c)
  | .alloc size => inferInstanceAs (Decidable (0 < size))
  | .resize ptr _ => inferInstanceAs (Decidable (s.live ptr ≠ none))
  | .dealloc ptr => inferInstanceAs (Decidable (s.live ptr ≠ none))
  | .write ptr offset bytes =>
    inferInstanceAs (Decidable (∃ n ∈ s.live ptr, offset + bytes.length ≤ n))

variable [Platform]

/-- Make a call, over a libc that the allocator view never reaches: the status
and the pointer that came back. -/
def step (libc : Libc Heap) (s : Client) : Call → Result ((Status × ℕ) × Client)
  | .alloc size => do
    let ((st, p), heap) ← Allocator.alloc libc (some allocatorView) s.heap size
    return ((st, p), ⟨heap, if st = .ok then Function.update s.live p (some size) else s.live⟩)
  | .resize ptr size => do
    let ((st, p), heap) ← Allocator.resize libc (some allocatorView) s.heap ptr size
    if st ≠ .ok then return ((st, p), ⟨heap, s.live⟩)
    let live := Function.update s.live ptr none
    return ((st, p), ⟨heap, if size = 0 then live else Function.update live p (some size)⟩)
  | .dealloc ptr => do
    let heap ← Allocator.dealloc libc (some allocatorView) s.heap ptr
    return ((.ok, 0), ⟨heap, Function.update s.live ptr none⟩)
  | .write ptr offset bytes =>
    let mem := poke s.heap.mem (ptr + offset) bytes
    .ok ((.ok, 0), { s with heap := { s.heap with mem } })

/-- The call does not cut a block in front of a free one: a shrinking `resize`
that leaves room for a new block is made on a block that no free block follows. -/
def KeepsMerged (s : Client) : Call → Prop
  | .resize ptr size => 0 < size → ∀ n ∈ alignUpOverflow size memoryAlign,
    n ≤ blockSize s.heap.mem (ptr - headerSize) →
    headerSize + memoryAlign < blockSize s.heap.mem (ptr - headerSize) - n →
    next s.heap.mem (ptr - headerSize) ≠ 0 →
    blockIsFree s.heap.mem (next s.heap.mem (ptr - headerSize)) = false
  | _ => True

instance (s : Client) : (c : Call) → Decidable (s.KeepsMerged c)
  | .resize ptr size => inferInstanceAs (Decidable (0 < size →
    ∀ n ∈ alignUpOverflow size memoryAlign, n ≤ blockSize s.heap.mem (ptr - headerSize) →
      headerSize + memoryAlign < blockSize s.heap.mem (ptr - headerSize) - n →
      next s.heap.mem (ptr - headerSize) ≠ 0 →
      blockIsFree s.heap.mem (next s.heap.mem (ptr - headerSize)) = false))
  | .alloc _ => .isTrue trivial
  | .dealloc _ => .isTrue trivial
  | .write _ _ _ => .isTrue trivial

end Client

/-! ## Live allocations and payloads -/

/-- The live allocations are the payloads `us`, each large enough. -/
structure Serves (live : ℕ → Option ℕ) (us : List (ℕ × ℕ)) : Prop where
  granted : ∀ p n, live p = some n → ∃ s, (p, s) ∈ us ∧ n ≤ s
  owned : ∀ p s, (p, s) ∈ us → live p ≠ none

theorem Serves.insert {live : ℕ → Option ℕ} {us vs : List (ℕ × ℕ)} {p n s : ℕ}
    (h : Serves live (us ++ vs)) (hs : n ≤ s) :
    Serves (Function.update live p (some n)) (us ++ (p, s) :: vs) where
  granted q k hq := by
    by_cases hqp : q = p
    · rw [hqp, Function.update_self, Option.some.injEq] at hq
      exact ⟨s, by simp [hqp], hq ▸ hs⟩
    · rw [Function.update_of_ne hqp] at hq
      obtain ⟨t, ht, hle⟩ := h.granted q k hq
      refine ⟨t, ?_, hle⟩
      simp only [List.mem_append, List.mem_cons] at ht ⊢
      tauto
  owned q t hq := by
    by_cases hqp : q = p
    · rw [hqp, Function.update_self]
      simp
    · rw [Function.update_of_ne hqp]
      apply h.owned q t
      simp only [List.mem_append, List.mem_cons, Prod.mk.injEq] at hq ⊢
      tauto

theorem Serves.erase {live : ℕ → Option ℕ} {us vs : List (ℕ × ℕ)} {p s : ℕ}
    (h : Serves live (us ++ (p, s) :: vs)) (hp : ∀ t, (p, t) ∉ us ++ vs) :
    Serves (Function.update live p none) (us ++ vs) where
  granted q k hq := by
    have hqp : q ≠ p := by
      rintro rfl
      rw [Function.update_self] at hq
      cases hq
    rw [Function.update_of_ne hqp] at hq
    obtain ⟨t, ht, hle⟩ := h.granted q k hq
    refine ⟨t, ?_, hle⟩
    simp only [List.mem_append, List.mem_cons, Prod.mk.injEq] at ht ⊢
    tauto
  owned q t hq := by
    have hqp : q ≠ p := by
      rintro rfl
      exact hp t hq
    rw [Function.update_of_ne hqp]
    apply h.owned q t
    simp only [List.mem_append, List.mem_cons] at hq ⊢
    tauto

/-- A payload in use occurs once. -/
theorem used_once {a p s : ℕ} {bs : List Block} {us vs : List (ℕ × ℕ)}
    (h : used a bs = us ++ (p, s) :: vs) : ∀ t, (p, t) ∉ us ++ vs := by
  intro t ht
  have hpw := pairwise_used a bs
  rw [h, List.pairwise_append, List.pairwise_cons] at hpw
  obtain ⟨-, ⟨hafter, -⟩, hbefore⟩ := hpw
  rcases List.mem_append.1 ht with ht | ht
  · have := hbefore _ ht _ (List.mem_cons_self ..)
    unfold headerSize at this
    omega
  · have := hafter _ ht
    unfold headerSize at this
    dsimp only at this
    omega

/-- Payloads in use are disjoint. -/
theorem used_disjoint {a p s q t : ℕ} {bs : List Block} (h : (p, s) ∈ used a bs)
    (h' : (q, t) ∈ used a bs) (hne : p ≠ q) : p + s ≤ q ∨ q + t ≤ p := by
  obtain ⟨p, hp, rfl⟩ := mem_used.1 h
  obtain ⟨q, hq, rfl⟩ := mem_used.1 h'
  have := placed_separated hp hq
  dsimp only at this
  omega

/-- No header meets a payload in use. -/
theorem outside_used {a p s i : ℕ} {bs : List Block} (h : (p, s) ∈ used a bs) (hi : i < s) :
    Outside (starts a bs) (p + i) := by
  obtain ⟨q, hq, rfl⟩ := mem_used.1 h
  exact outside_payload hq (by omega) (by dsimp only; omega)

/-! ## What one call does -/

namespace Client

variable [Platform]

/-- The blocks tile the buffer, and those in use are the live allocations. -/
structure Inv (s : Client) (bs : List Block) : Prop where
  holds : Holds s.heap bs
  serves : Serves s.live (used s.heap.buffer bs)

/-- What a call leaves alone. -/
structure Preserves (s : Client) (c : Call) (ans : Status × ℕ) (s' : Client) : Prop where
  /-- Every other allocation, with its bytes. -/
  others : ∀ q n, s.live q = some n → c.target ≠ some q →
    s'.live q = some n ∧ ∀ i < n, s'.heap.mem (q + i) = s.heap.mem (q + i)
  /-- The bytes that fit into a resized block. -/
  resized : ∀ p n k, c = .resize p n → ans.1 = .ok → s.live p = some k →
    ∀ i < min k n, s'.heap.mem (ans.2 + i) = s.heap.mem (p + i)
  /-- Everything, if the call fails. -/
  failed : ans.1 ≠ .ok → s' = s

/-- What is known after a call in a heap of the blocks `bs`. -/
def Stepped (s : Client) (bs : List Block) (c : Call) (ans : Status × ℕ) (s' : Client) : Prop :=
  ∃ bs', Inv s' bs' ∧ s'.heap.buffer = s.heap.buffer ∧ s'.heap.capacity = s.heap.capacity ∧
    Preserves s c ans s' ∧ (KeepsMerged s c → Merged bs → Merged bs')

variable {s : Client} {bs : List Block} {libc : Libc Heap}

theorem Stepped.of_failed {c : Call} {st : Status} {p : ℕ} (hi : Inv s bs) (hst : st ≠ .ok) :
    Stepped s bs c (st, p) s :=
  ⟨bs, hi, rfl, rfl, ⟨fun _ _ hq _ => ⟨hq, fun _ _ => rfl⟩, fun _ _ _ _ h => absurd h hst,
    fun _ => rfl⟩, fun _ h => h⟩

/-- A live allocation is the payload of a block in use. -/
theorem Inv.block (hi : Inv s bs) {p n : ℕ} (hl : s.live p = some n) :
    ∃ pre b post, bs = pre ++ b :: post ∧ p = stop s.heap.buffer pre + headerSize ∧
      b.isFree = false ∧ n ≤ b.size := by
  obtain ⟨t, ht, hle⟩ := hi.serves.granted p n hl
  obtain ⟨q, hq, rfl⟩ := mem_used.1 ht
  obtain ⟨pre, post, hbs, rfl⟩ := exists_split hq
  exact ⟨pre, _, post, hbs, rfl, rfl, hle⟩

/-- The other allocations are untouched if their payloads are. -/
theorem Inv.others (hi : Inv s bs) {s' : Client} {p : ℕ}
    (hlive : ∀ q, q ≠ p → s'.live q = s.live q)
    (hbytes : ∀ q t i, (q, t) ∈ used s.heap.buffer bs → q ≠ p → i < t →
      s'.heap.mem (q + i) = s.heap.mem (q + i)) {q n : ℕ} (hq : s.live q = some n) (hqp : q ≠ p) :
    s'.live q = some n ∧ ∀ i < n, s'.heap.mem (q + i) = s.heap.mem (q + i) := by
  obtain ⟨t, ht, hle⟩ := hi.serves.granted q n hq
  exact ⟨(hlive q hqp).trans hq, fun i hin => hbytes q t i ht hqp (by omega)⟩

/-! ### Allocation -/

/-- What an allocation does to the blocks: nothing, or the first block that fits
is cut and put to use. -/
theorem alloc_blocks (hi : Inv s bs) {size : ℕ} (hsize : 0 < size) :
    Sat (step libc s (.alloc size)) fun p =>
      ((alignUpOverflow size memoryAlign = none ∨
        ∃ n, alignUpOverflow size memoryAlign = some n ∧ ∀ b ∈ bs, ¬ Block.Fits n b) ∧
        p = ((.noMemory, 0), s)) ∨
      ∃ n pre b post, alignUpOverflow size memoryAlign = some n ∧ bs = pre ++ b :: post ∧
        (∀ c ∈ pre, ¬ Block.Fits n c) ∧ Block.Fits n b ∧
        p.1 = (.ok, stop s.heap.buffer pre + headerSize) ∧
        p.2.live = Function.update s.live (stop s.heap.buffer pre + headerSize) (some size) ∧
        Inv p.2 (pre ++ ({ b with isFree := false } : Block).cut n ++ post) ∧
        Becomes s.heap
          (starts s.heap.buffer (pre ++ ({ b with isFree := false } : Block).cut n ++ post))
          (pre ++ ({ b with isFree := false } : Block).cut n ++ post) p.2.heap := by
  obtain ⟨⟨p, h'⟩, halloc, hp⟩ := vtableAlloc_spec hi.holds hsize
  change Sat (vtableAlloc s.heap size >>= (fun res => .ok (Allocator.answer res)) >>= _) _
  rw [halloc, ok_bind, ok_bind]
  rcases hp with ⟨hnone, heq⟩ | ⟨n, hround, hp⟩
  · cases heq
    exact Sat.ok (Or.inl ⟨Or.inl hnone, rfl⟩)
  cases hp with
  | none hno => exact Sat.ok (Or.inl ⟨Or.inr ⟨n, hround, hno⟩, rfl⟩)
  | @some pre b post _ _ hbs hpre hfit hp hb =>
    subst hbs hp
    obtain ⟨-, hle, -, -⟩ := alignUpOverflow_eq_some hround
    obtain ⟨t, hnt, -, hused⟩ := used_cut_middle (b := { b with isFree := false }) hfit.2 rfl
      s.heap.buffer pre post
    have hserves := hi.serves
    rw [used_middle_of_free hfit.1] at hserves
    rw [Allocator.answer, if_neg (by dsimp only; unfold headerSize; omega)]
    refine Sat.ok (Or.inr ⟨n, pre, b, post, hround, rfl, hpre, hfit, rfl, rfl, ⟨hb.holds, ?_⟩, hb⟩)
    dsimp only
    rw [hb.buffer_eq, hused]
    exact hserves.insert (by omega)

theorem step_alloc (hi : Inv s bs) {size : ℕ} (hsize : 0 < size) :
    Sat (step libc s (.alloc size)) fun p => Stepped s bs (.alloc size) p.1 p.2 := by
  apply (alloc_blocks hi hsize).mono
  rintro ⟨ans, s'⟩ (⟨-, heq⟩ | ⟨n, pre, b, post, hround, rfl, -, hfit, hans, hlive, hi', hb⟩)
  · cases heq
    exact .of_failed hi (by decide)
  dsimp only at hans hlive hi' hb
  subst hans
  obtain ⟨t, -, -, hused⟩ := used_cut_middle (b := { b with isFree := false }) hfit.2 rfl
    s.heap.buffer pre post
  have hbefore := used_middle_of_free hfit.1 s.heap.buffer pre post
  -- the payloads that were in use are in use afterwards, and the new one is not among them
  have hkept : ∀ q t', (q, t') ∈ used s.heap.buffer (pre ++ b :: post) →
      (q, t') ∈ used s.heap.buffer (pre ++ ({ b with isFree := false } : Block).cut n ++ post) ∧
        q ≠ stop s.heap.buffer pre + headerSize := by
    intro q t' hq
    rw [hbefore] at hq
    refine ⟨?_, ?_⟩
    · rw [hused]
      simp only [List.mem_append, List.mem_cons] at hq ⊢
      tauto
    · rintro rfl
      exact used_once hused t' hq
  refine ⟨_, hi', hb.buffer_eq, hb.capacity_eq, ⟨?_, ?_, ?_⟩, ?_⟩
  · intro q k hq _
    have hne : q ≠ stop s.heap.buffer pre + headerSize := by
      obtain ⟨t', ht', -⟩ := hi.serves.granted q k hq
      exact (hkept q t' ht').2
    refine hi.others (fun q' hq' => ?_) ?_ hq hne
    · rw [hlive, Function.update_of_ne hq']
    · exact fun q' t' i hq' _ hit => hb.frame _ (outside_used (hkept q' t' hq').1 hit)
  · intro p' n' k' hc
    cases hc
  · intro hc
    exact absurd rfl hc
  · exact fun _ hm => hm.allocate n hfit.1

/-! ### Release -/

/-- What the release of a live allocation does to the blocks. -/
theorem release_blocks (libc : Libc Heap) (hi : Inv s bs) {ptr : ℕ} (hl : s.live ptr ≠ none) :
    Sat (Allocator.dealloc libc (some allocatorView) s.heap ptr) fun h' =>
      ∃ pre b post, bs = pre ++ b :: post ∧ ptr = stop s.heap.buffer pre + headerSize ∧
        b.isFree = false ∧ Inv ⟨h', Function.update s.live ptr none⟩ (release pre b post) ∧
        Becomes s.heap (starts s.heap.buffer bs) (release pre b post) h' := by
  obtain ⟨k, hk⟩ := Option.ne_none_iff_exists'.1 hl
  obtain ⟨pre, b, post, rfl, rfl, hb, hkb⟩ := hi.block hk
  have hbefore := used_middle hb s.heap.buffer pre post
  have hserves := hi.serves
  rw [hbefore] at hserves
  change Sat (vtableDealloc s.heap (stop s.heap.buffer pre + headerSize)) _
  refine (vtableDealloc_spec hi.holds).mono fun h' hh' => ?_
  refine ⟨pre, b, post, rfl, rfl, hb, ⟨hh'.holds, ?_⟩, hh'⟩
  dsimp only
  rw [hh'.buffer_eq, (used_release _ pre b post).2]
  exact hserves.erase (used_once hbefore)

/-- Releasing a live allocation, by `dealloc` or by a `resize` to nothing. -/
theorem release_stepped (libc : Libc Heap) (hi : Inv s bs) {ptr : ℕ} (hl : s.live ptr ≠ none)
    {c : Call} (ans : Status × ℕ) (hc : c.target = some ptr)
    (hzero : ∀ p n, c = .resize p n → n = 0) (hans : ans.1 = .ok) :
    Sat (Allocator.dealloc libc (some allocatorView) s.heap ptr) fun h' =>
      Stepped s bs c ans ⟨h', Function.update s.live ptr none⟩ := by
  apply (release_blocks libc hi hl).mono
  rintro h' ⟨pre, b, post, rfl, rfl, -, hi', hh'⟩
  refine ⟨_, hi', hh'.buffer_eq, hh'.capacity_eq, ⟨?_, ?_, ?_⟩, ?_⟩
  · intro q n hq hqt
    rw [hc] at hqt
    refine hi.others (fun q' hq' => Function.update_of_ne hq' _ _) ?_ hq fun h => hqt (by rw [h])
    exact fun q' t' i hq' _ hit => hh'.frame _ (outside_used hq' hit)
  · intro p n k' hcr _ _ i hi'
    rw [hzero p n hcr] at hi'
    omega
  · exact fun h => absurd hans h
  · exact fun _ hm => hm.release

/-! ### Resizing -/

/-- A resize that leaves the allocation in its place. -/
theorem resized_in_place (hi : Inv s bs) {bs' : List Block} {h' : Heap} {us vs : List (ℕ × ℕ)}
    {ptr size t t' : ℕ} (hbefore : used s.heap.buffer bs = us ++ (ptr, t) :: vs)
    (hlive : ∀ k, s.live ptr = some k → k ≤ t)
    (hafter : used s.heap.buffer bs' = us ++ (ptr, t') :: vs) (hsize : size ≤ t')
    (hb : Becomes s.heap (starts s.heap.buffer bs ++ starts s.heap.buffer bs') bs' h')
    (hm : KeepsMerged s (.resize ptr size) → Merged bs → Merged bs') :
    Stepped s bs (.resize ptr size) (.ok, ptr)
      ⟨h', Function.update (Function.update s.live ptr none) ptr (some size)⟩ := by
  have hserves := hi.serves
  rw [hbefore] at hserves
  have hframe : ∀ q t₁ t₂ i, (q, t₁) ∈ used s.heap.buffer bs → (q, t₂) ∈ used s.heap.buffer bs' →
      i < t₁ → i < t₂ → h'.mem (q + i) = s.heap.mem (q + i) := by
    intro q t₁ t₂ i h1 h2 hi1 hi2
    refine hb.frame _ fun a ha => ?_
    rcases List.mem_append.1 ha with ha | ha
    · exact outside_used h1 hi1 a ha
    · exact outside_used h2 hi2 a ha
  refine ⟨bs', ⟨hb.holds, ?_⟩, hb.buffer_eq, hb.capacity_eq, ⟨?_, ?_, ?_⟩, hm⟩
  · rw [hb.buffer_eq, hafter]
    exact (hserves.erase (used_once hbefore)).insert hsize
  · intro q n hq hqt
    have hne : q ≠ ptr := fun h => hqt (by rw [h]; rfl)
    refine hi.others (fun q' hq' => ?_) ?_ hq hne
    · dsimp only
      rw [Function.update_of_ne hq', Function.update_of_ne hq']
    · intro q' t₁ i hq' hne' hit
      refine hframe q' t₁ t₁ i hq' ?_ hit hit
      rw [hafter]
      rw [hbefore] at hq'
      simp only [List.mem_append, List.mem_cons, Prod.mk.injEq] at hq' ⊢
      tauto
  · intro p n k hc _ hk i hik
    cases hc
    have := hlive k hk
    exact hframe ptr t t' i (by simp [hbefore]) (by simp [hafter]) (by omega) (by omega)
  · exact fun h => absurd rfl h

/-- In terms of blocks: no free block follows the one that is cut. -/
theorem KeepsMerged.follows {pre post : List Block} {b : Block} {size n : ℕ}
    (hh : Holds s.heap (pre ++ b :: post)) (hsize : 0 < size)
    (hround : alignUpOverflow size memoryAlign = some n) (hn : n ≤ b.size)
    (hk : KeepsMerged s (.resize (stop s.heap.buffer pre + headerSize) size))
    (hroom : headerSize + memoryAlign < b.size - n) : ∀ c ∈ post.head?, c.isFree = false := by
  intro c hc
  cases post with
  | nil => cases hc
  | cons d post =>
    cases hc
    have hheader := hh.headers _ _ (mem_placed_middle s.heap.buffer)
    have hd := hh.headers (stop s.heap.buffer pre + b.width) c (by simp)
    have hne : stop s.heap.buffer pre + b.width ≠ 0 := by
      have := hh.stop_ne_zero pre
      omega
    have hfree := hk hsize n hround
    rw [Nat.add_sub_cancel, hheader.size_eq, hh.next_eq, firstAt, hd.isFree_eq] at hfree
    exact hfree hn hroom hne

/-- A resize that moves the allocation. -/
theorem resized_by_moving (hi : Inv s bs) {bs₁ bs' : List Block} {h' : Heap}
    {us vs us₁ vs₁ : List (ℕ × ℕ)} {ptr p size n t t' : ℕ}
    (hbefore : used s.heap.buffer bs = us ++ vs) (hptr : (ptr, t) ∈ used s.heap.buffer bs)
    (hlive : ∀ k, s.live ptr = some k → k ≤ t)
    (hallocated : used s.heap.buffer bs₁ = us ++ (p, t') :: vs) (hsize : size ≤ n) (hn : n ≤ t')
    (hlt : t < n) (hboth : used s.heap.buffer bs₁ = us₁ ++ (ptr, t) :: vs₁)
    (hafter : used s.heap.buffer bs' = us₁ ++ vs₁) (hholds : Holds h' bs')
    (hbuffer : h'.buffer = s.heap.buffer) (hcapacity : h'.capacity = s.heap.capacity)
    (hframe : ∀ x, Outside (starts s.heap.buffer bs₁) x → x < p ∨ p + t ≤ x →
      h'.mem x = s.heap.mem x)
    (hcopied : ∀ i < t, h'.mem (p + i) = s.heap.mem (ptr + i))
    (hm : Merged bs → Merged bs') :
    Stepped s bs (.resize ptr size) (.ok, p)
      ⟨h', Function.update (Function.update s.live ptr none) p (some size)⟩ := by
  have hserves := hi.serves
  rw [hbefore] at hserves
  have hkept : ∀ q t₁, (q, t₁) ∈ used s.heap.buffer bs →
      (q, t₁) ∈ used s.heap.buffer bs₁ ∧ q ≠ p := by
    intro q t₁ hq
    rw [hbefore] at hq
    refine ⟨?_, ?_⟩
    · rw [hallocated]
      simp only [List.mem_append, List.mem_cons] at hq ⊢
      tauto
    · rintro rfl
      exact used_once hallocated t₁ hq
  have hne : ptr ≠ p := (hkept ptr t hptr).2
  have hnew : (p, t') ∈ used s.heap.buffer bs₁ := by simp [hallocated]
  refine ⟨bs', ⟨hholds, ?_⟩, hbuffer, hcapacity, ⟨?_, ?_, ?_⟩, fun _ => hm⟩
  · have hins := hserves.insert (p := p) (s := t') (show size ≤ t' by omega)
    rw [← hallocated, hboth] at hins
    rw [hbuffer, hafter, Function.update_comm hne]
    exact hins.erase (used_once hboth)
  · intro q k hq hqt
    have hqptr : q ≠ ptr := fun h => hqt (by rw [h]; rfl)
    obtain ⟨t₁, ht₁, hle⟩ := hi.serves.granted q k hq
    obtain ⟨h1, hqp⟩ := hkept q t₁ ht₁
    refine ⟨?_, fun i hik => hframe _ (outside_used h1 (by omega)) ?_⟩
    · dsimp only
      rw [Function.update_of_ne hqp, Function.update_of_ne hqptr, hq]
    · have := used_disjoint h1 hnew hqp
      omega
  · intro p' n' k hc _ hk i hik
    cases hc
    have := hlive k hk
    exact hcopied i (by omega)
  · exact fun h => absurd rfl h

theorem resize_answer (libc : Libc Heap) {h : Heap} {ptr size : ℕ} {r : ℕ × Heap} (hsize : size ≠ 0)
    (hrealloc : vtableRealloc h ptr size = .ok r) :
    Allocator.resize libc (some allocatorView) h ptr size = .ok (Allocator.answer r) := by
  rw [Allocator.resize, if_neg hsize]
  change (vtableRealloc h ptr size >>= _) = _
  rw [hrealloc]
  rfl

/-- A resize to zero is a release. -/
theorem step_resize_zero (hi : Inv s bs) {ptr : ℕ} (hl : s.live ptr ≠ none) :
    Sat (step libc s (.resize ptr 0)) fun p => Stepped s bs (.resize ptr 0) p.1 p.2 := by
  obtain ⟨h', hdealloc, hrel⟩ := release_stepped libc hi hl (c := .resize ptr 0)
    (.ok, 0) rfl (fun p n hc => by cases hc; rfl) rfl
  rw [step, Allocator.resize, if_pos rfl, hdealloc, ok_bind]
  exact Sat.ok hrel

theorem step_resize (hi : Inv s bs) {ptr size : ℕ} (hl : s.live ptr ≠ none) :
    Sat (step libc s (.resize ptr size)) fun p => Stepped s bs (.resize ptr size) p.1 p.2 := by
  by_cases hsize : size = 0
  · subst hsize
    exact step_resize_zero hi hl
  obtain ⟨k, hk⟩ := Option.ne_none_iff_exists'.1 hl
  obtain ⟨pre, b, post, rfl, rfl, hb, hkb⟩ := hi.block hk
  have hlive : ∀ k', s.live (stop s.heap.buffer pre + headerSize) = some k' → k' ≤ b.size := by
    intro k' hk'
    rw [hk] at hk'
    cases hk'
    exact hkb
  have hbefore := used_middle hb s.heap.buffer pre post
  obtain ⟨⟨p, h'⟩, hrealloc, hp⟩ := vtableRealloc_spec hi.holds hb (Nat.pos_of_ne_zero hsize)
  rw [step, resize_answer libc hsize hrealloc, ok_bind]
  rcases hp with ⟨-, heq⟩ | ⟨n, hround, hp⟩
  · cases heq
    exact Sat.ok (.of_failed hi (by decide))
  obtain ⟨-, hle, -, -⟩ := alignUpOverflow_eq_some hround
  have hsucc : p ≠ 0 → Allocator.answer (p, h') = ((.ok, p), h') := fun hp0 => if_neg hp0
  dsimp only at hp
  cases hp with
  | failed => exact Sat.ok (.of_failed hi (by decide))
  | shrunk hn hp hbec =>
    obtain ⟨t, hnt, -, hused⟩ := used_cut_middle hn hb s.heap.buffer pre post
    rw [hsucc (by rw [hp]; unfold headerSize; omega), hp]
    have hstep := resized_in_place hi hbefore hlive hused (show size ≤ t by omega)
      (hbec.mono (List.subset_append_right _ _))
      (fun hkm hm => hm.cut hb (hkm.follows hi.holds (Nat.pos_of_ne_zero hsize) hround hn))
    exact Sat.ok (by simpa [hsize] using hstep)
  | @grown c post' _ _ hlt hpost hc hn hp hbec =>
    subst hpost
    obtain ⟨t, hnt, -, hused⟩ := used_cut_middle hn hb s.heap.buffer pre post'
    rw [hsucc (by rw [hp]; unfold headerSize; omega), hp]
    rw [used_cons, if_pos hc, List.nil_append, Nat.add_assoc, ← width_merge] at hbefore
    have hstep := resized_in_place hi hbefore hlive hused (show size ≤ t by omega) hbec
      (fun _ hm => hm.grow n hb hc)
    exact Sat.ok (by simpa [hsize] using hstep)
  | @moved pre₂ d post₂ pre₁ post₁ _ _ hlt hgrows heq hpre₂ hfit heq₁ hstop hp hbuf hcap hholds
      hframe hcopied =>
    obtain ⟨t, hnt, -, hused⟩ := used_cut_middle (b := { d with isFree := false }) hfit.2 rfl
      s.heap.buffer pre₂ post₂
    have hbefore₂ : used s.heap.buffer (pre ++ b :: post) =
        used s.heap.buffer pre₂ ++ used (stop s.heap.buffer pre₂ + d.width) post₂ := by
      rw [heq]
      exact used_middle_of_free hfit.1 _ _ _
    have hboth := used_middle hb s.heap.buffer pre₁ post₁
    rw [hstop] at hboth
    rw [hsucc (by rw [hp]; unfold headerSize; omega)]
    have hstep := resized_by_moving hi hbefore₂ (by simp [hbefore]) hlive
      (hp ▸ hused) hle hnt hlt (heq₁ ▸ hboth) (by rw [(used_release _ _ _ _).2, hstop]) hholds hbuf
      hcap (heq₁ ▸ hframe) hcopied ?_
    · exact Sat.ok (by simpa [hsize] using hstep)
    · intro hm
      rw [heq] at hm
      have := hm.allocate n hfit.1
      rw [heq₁] at this
      exact this.release

/-! ### The other calls -/

theorem step_dealloc (hi : Inv s bs) {ptr : ℕ} (hl : s.live ptr ≠ none) :
    Sat (step libc s (.dealloc ptr)) fun p => Stepped s bs (.dealloc ptr) p.1 p.2 :=
  (release_stepped libc hi hl (.ok, 0) rfl (fun _ _ hc => by cases hc) rfl).bind
    fun _ h => Sat.ok h

theorem step_write (hi : Inv s bs) {ptr offset k : ℕ} {bytes : List UInt8}
    (hk : s.live ptr = some k) (hle : offset + bytes.length ≤ k) :
    Sat (step libc s (.write ptr offset bytes)) fun p =>
      Stepped s bs (.write ptr offset bytes) p.1 p.2 := by
  obtain ⟨t, ht, hkt⟩ := hi.serves.granted ptr k hk
  have hout : ∀ x, x < ptr ∨ ptr + t ≤ x →
      poke s.heap.mem (ptr + offset) bytes x = s.heap.mem x :=
    fun x hx => poke_outside (by omega)
  refine Sat.ok ⟨bs, ⟨hi.holds.of_headers_same fun x hx => hout x ?_, hi.serves⟩, rfl, rfl,
    ⟨?_, ?_, fun h => absurd rfl h⟩, fun _ hm => hm⟩
  · by_contra hc
    have hin := outside_used (i := x - ptr) ht (by omega)
    rw [show ptr + (x - ptr) = x by omega] at hin
    exact hx hin
  · intro q n hq hqt
    have hne : q ≠ ptr := fun h => hqt (by rw [h]; rfl)
    obtain ⟨t', ht', hle'⟩ := hi.serves.granted q n hq
    have := used_disjoint ht' ht hne
    exact ⟨hq, fun i hin => hout _ (by omega)⟩
  · intro p n k' hc
    cases hc

/-- **What one call does.** -/
theorem step_spec (hi : Inv s bs) {c : Call} (hv : s.Valid c) :
    Sat (step libc s c) fun p => Stepped s bs c p.1 p.2 := by
  cases c with
  | alloc size => exact step_alloc hi hv
  | resize ptr size => exact step_resize hi hv
  | dealloc ptr => exact step_dealloc hi hv
  | write ptr offset bytes =>
    obtain ⟨k, hk, hle⟩ := hv
    exact step_write hi hk hle

end Client

end Heap
end K4c
