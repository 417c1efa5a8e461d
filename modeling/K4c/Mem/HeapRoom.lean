import Mathlib.Tactic
import K4c.Mem.HeapFailure

/-!
# How much room a client of the general heap needs

What of the buffer a client can count on, said in the sizes it asks for.

* `Snug` — every block in use is at most `slack` bytes larger than the rounded
  request it serves.  All calls keep this (`step_snug`), because a block with more
  room is cut.
* `blocks_stay_snug` — after any run, all but the charged bytes and the headers of
  the free blocks is available.
* `growing_never_fragments` — a client that never shrinks an allocation never cuts
  in front of a free block, and gets the whole heap back.
* `budget_is_served` — such a client is never refused within its budget.
-/

namespace K4c
namespace Heap

open Exec Runs Words

section Rounding

variable [Platform]

theorem roundUp_mono {n m : ℕ} (h : n ≤ m) : roundUp n ≤ roundUp m :=
  Nat.mul_le_mul_right _ (Nat.div_le_div_right (Nat.add_le_add_right h _))

theorem roundUp_of_some {n m : ℕ} (h : alignUpOverflow n memoryAlign = some m) : roundUp n = m := by
  rw [alignUpOverflow_eq] at h
  split at h
  · exact Option.some.inj h
  · cases h

theorem alignUpOverflow_roundUp {n : ℕ} (h : roundUp n ≤ sizeMax) :
    alignUpOverflow n memoryAlign = some (roundUp n) := by
  rw [alignUpOverflow_eq, if_pos h]

/-- The rounded size is the least multiple of the alignment that is large enough. -/
theorem roundUp_le {n m : ℕ} (h : n ≤ m) (hdvd : memoryAlign ∣ m) : roundUp n ≤ m := by
  obtain ⟨k, rfl⟩ := hdvd
  have hpos := memoryAlign_pos
  have hk : (n + (memoryAlign - 1)) / memoryAlign < k + 1 := by
    rw [Nat.div_lt_iff_lt_mul hpos, Nat.succ_mul, Nat.mul_comm k]
    omega
  rw [roundUp, Nat.mul_comm]
  exact Nat.mul_le_mul_left _ (Nat.lt_succ_iff.1 hk)

/-- What a block may be larger than the rounded request: a rest that has no room
for a block of its own. -/
def slack : ℕ := headerSize + memoryAlign

/-- A block in use that is cut has at most `slack` bytes to spare. -/
theorem used_cut_snug {b : Block} {n : ℕ} (hn : n ≤ b.size) (hb : b.isFree = false) (a : ℕ)
    (pre post : List Block) : ∃ s, n ≤ s ∧ s ≤ n + slack ∧ used a (pre ++ b.cut n ++ post) =
      used a pre ++ (stop a pre + headerSize, s) :: used (stop a pre + b.width) post := by
  have hcut : ∃ s, n ≤ s ∧ s ≤ n + slack ∧
      used (stop a pre) (b.cut n) = [(stop a pre + headerSize, s)] := by
    unfold Block.cut slack
    split
    · exact ⟨b.size, hn, by omega, by simp [used_cons, hb]⟩
    · exact ⟨n, le_rfl, by omega, by simp [used_cons, hb]⟩
  obtain ⟨s, h1, h2, h3⟩ := hcut
  refine ⟨s, h1, h2, ?_⟩
  rw [used_append, used_append, h3, stop_append, stop_cut hn, List.append_assoc]
  rfl

end Rounding

namespace Client

/-! ## Blocks as large as their requests -/

section Snugness

variable [Platform] {s : Client} {bs : List Block} {libc : Libc Heap}

/-- Every block in use is about as large as the rounded request it serves. -/
def Snug (s : Client) : Prop :=
  ∀ p n, s.live p = some n → blockSize s.heap.mem (p - headerSize) ≤ roundUp n + slack

/-- The same of the payloads `us`. -/
def Tight (live : ℕ → Option ℕ) (us : List (ℕ × ℕ)) : Prop :=
  ∀ p n, live p = some n → ∃ t, (p, t) ∈ us ∧ t ≤ roundUp n + slack

theorem Tight.insert {live : ℕ → Option ℕ} {us vs : List (ℕ × ℕ)} {p n t : ℕ}
    (h : Tight live (us ++ vs)) (ht : t ≤ roundUp n + slack) :
    Tight (Function.update live p (some n)) (us ++ (p, t) :: vs) := by
  intro q k hq
  by_cases hqp : q = p
  · rw [hqp, Function.update_self, Option.some.injEq] at hq
    exact ⟨t, by simp [hqp], hq ▸ ht⟩
  · rw [Function.update_of_ne hqp] at hq
    obtain ⟨t', hmem, hle⟩ := h q k hq
    refine ⟨t', ?_, hle⟩
    simp only [List.mem_append, List.mem_cons] at hmem ⊢
    tauto

theorem Tight.erase {live : ℕ → Option ℕ} {us vs : List (ℕ × ℕ)} {p t : ℕ}
    (h : Tight live (us ++ (p, t) :: vs)) : Tight (Function.update live p none) (us ++ vs) := by
  intro q k hq
  have hqp : q ≠ p := by
    rintro rfl
    rw [Function.update_self] at hq
    cases hq
  rw [Function.update_of_ne hqp] at hq
  obtain ⟨t', hmem, hle⟩ := h q k hq
  refine ⟨t', ?_, hle⟩
  simp only [List.mem_append, List.mem_cons, Prod.mk.injEq] at hmem ⊢
  tauto

/-- The size of the payload at an address, as it stands in its header. -/
theorem blockSize_of_used {h : Heap} (hh : Holds h bs) {p t : ℕ} (hp : (p, t) ∈ used h.buffer bs) :
    blockSize h.mem (p - headerSize) = t := by
  obtain ⟨q, hq, rfl⟩ := mem_used.1 hp
  rw [Nat.add_sub_cancel, (hh.headers q _ hq).size_eq]

theorem Snug.tight (hs : Snug s) (hi : Inv s bs) : Tight s.live (used s.heap.buffer bs) := by
  intro p n hp
  obtain ⟨t, ht, -⟩ := hi.serves.granted p n hp
  have hle := hs p n hp
  rw [blockSize_of_used hi.holds ht] at hle
  exact ⟨t, ht, hle⟩

theorem Tight.snug (hh : Holds s.heap bs) (ht : Tight s.live (used s.heap.buffer bs)) :
    Snug s := by
  intro p n hp
  obtain ⟨t, hmem, hle⟩ := ht p n hp
  rwa [blockSize_of_used hh hmem]

/-! ### What one call does to the room in the blocks -/

theorem alloc_snug (hi : Inv s bs) (hs : Snug s) {size : ℕ} (hsize : 0 < size) :
    Sat (step libc s (.alloc size)) fun p => Snug p.2 := by
  apply (alloc_blocks hi hsize).mono
  rintro ⟨ans, s'⟩ (⟨-, heq⟩ | ⟨n, pre, b, post, hround, rfl, -, hfit, -, hlive, hi', hb⟩)
  · cases heq
    exact hs
  dsimp only at hlive hi' hb
  obtain ⟨t, -, ht, hused⟩ := used_cut_snug (b := { b with isFree := false }) hfit.2 rfl
    s.heap.buffer pre post
  have htight := hs.tight hi
  rw [used_middle_of_free hfit.1] at htight
  refine Tight.snug hi'.holds ?_
  rw [hb.buffer_eq, hused, hlive]
  exact htight.insert (by rwa [roundUp_of_some hround])

theorem release_snug (libc : Libc Heap) (hi : Inv s bs) (hs : Snug s) {ptr : ℕ}
    (hl : s.live ptr ≠ none) :
    Sat (Allocator.dealloc libc (some allocatorView) s.heap ptr) fun h' =>
      Snug ⟨h', Function.update s.live ptr none⟩ := by
  apply (release_blocks libc hi hl).mono
  rintro h' ⟨pre, b, post, rfl, rfl, hb, hi', hh'⟩
  have htight := hs.tight hi
  rw [used_middle hb] at htight
  refine Tight.snug hi'.holds ?_
  dsimp only
  rw [hh'.buffer_eq, (used_release _ pre b post).2]
  exact htight.erase

/-- A resize that leaves the allocation in its place. -/
theorem snug_in_place (hi : Inv s bs) (hs : Snug s) {bs' : List Block} {h' : Heap}
    {us vs : List (ℕ × ℕ)} {ptr size t t' : ℕ}
    (hbefore : used s.heap.buffer bs = us ++ (ptr, t) :: vs)
    (hafter : used s.heap.buffer bs' = us ++ (ptr, t') :: vs) (hh : Holds h' bs')
    (hbuffer : h'.buffer = s.heap.buffer) (ht : t' ≤ roundUp size + slack) :
    Snug ⟨h', Function.update (Function.update s.live ptr none) ptr (some size)⟩ := by
  have htight := hs.tight hi
  rw [hbefore] at htight
  refine Tight.snug hh ?_
  dsimp only
  rw [hbuffer, hafter]
  exact htight.erase.insert ht

theorem resize_snug (hi : Inv s bs) (hs : Snug s) {ptr size : ℕ} (hl : s.live ptr ≠ none) :
    Sat (step libc s (.resize ptr size)) fun p => Snug p.2 := by
  by_cases hsize : size = 0
  · subst hsize
    obtain ⟨h', hdealloc, hrel⟩ := release_snug libc hi hs hl
    rw [step, Allocator.resize, if_pos rfl, hdealloc, ok_bind]
    exact Sat.ok hrel
  obtain ⟨k, hk⟩ := Option.ne_none_iff_exists'.1 hl
  obtain ⟨pre, b, post, rfl, rfl, hb, -⟩ := hi.block hk
  have hbefore := used_middle hb s.heap.buffer pre post
  obtain ⟨⟨p, h'⟩, hrealloc, hp⟩ := vtableRealloc_spec hi.holds hb (Nat.pos_of_ne_zero hsize)
  rw [step, resize_answer libc hsize hrealloc, ok_bind]
  rcases hp with ⟨-, heq⟩ | ⟨n, hround, hp⟩
  · cases heq
    exact Sat.ok hs
  obtain rfl := roundUp_of_some hround
  have hsucc : p ≠ 0 → Allocator.answer (p, h') = ((.ok, p), h') := fun hp0 => if_neg hp0
  dsimp only at hp
  cases hp with
  | failed => exact Sat.ok hs
  | shrunk hle hp hbec =>
    obtain ⟨t, -, ht, hused⟩ := used_cut_snug hle hb s.heap.buffer pre post
    rw [hsucc (by rw [hp]; unfold headerSize; omega), hp]
    have hsnug := snug_in_place hi hs hbefore hused hbec.holds hbec.buffer_eq ht
    exact Sat.ok (by simpa [hsize] using hsnug)
  | @grown c post' _ _ hlt hpost hc hle hp hbec =>
    subst hpost
    obtain ⟨t, -, ht, hused⟩ := used_cut_snug hle hb s.heap.buffer pre post'
    rw [hsucc (by rw [hp]; unfold headerSize; omega), hp]
    rw [used_cons, if_pos hc, List.nil_append, Nat.add_assoc, ← width_merge] at hbefore
    have hsnug := snug_in_place hi hs hbefore hused hbec.holds hbec.buffer_eq ht
    exact Sat.ok (by simpa [hsize] using hsnug)
  | @moved pre₂ d post₂ pre₁ post₁ _ _ hlt hgrows heq hpre₂ hfit heq₁ hstop hp hbuf hcap hholds =>
    obtain ⟨t, -, ht, hused⟩ := used_cut_snug (b := { d with isFree := false }) hfit.2 rfl
      s.heap.buffer pre₂ post₂
    have hboth := used_middle hb s.heap.buffer pre₁ post₁
    rw [heq, used_middle_of_free hfit.1] at hbefore
    have hne : stop s.heap.buffer pre + headerSize ≠ p := by
      intro h
      refine used_once hused b.size ?_
      rw [← hp, ← h]
      exact hbefore ▸ List.mem_append_cons_self
    -- the new block is put to use before the old one is freed
    have htight := hs.tight hi
    rw [heq, used_middle_of_free hfit.1] at htight
    have hins := htight.insert (p := stop s.heap.buffer pre₂ + headerSize) ht
    have hwidth : d.width = ({ d with isFree := false } : Block).width := rfl
    rw [hwidth, ← hused, heq₁, hboth, hstop, ← hp] at hins
    rw [hsucc (by rw [hp]; unfold headerSize; omega)]
    have hsnug : Snug ⟨h', Function.update (Function.update s.live
        (stop s.heap.buffer pre + headerSize) none) p (some size)⟩ := by
      refine Tight.snug hholds ?_
      dsimp only
      rw [hbuf, (used_release _ _ _ _).2, hstop, Function.update_comm hne]
      exact hins.erase
    exact Sat.ok (by simpa [hsize] using hsnug)

theorem write_snug (hi : Inv s bs) (hs : Snug s) {ptr offset k : ℕ} {bytes : List UInt8}
    (hk : s.live ptr = some k) (hle : offset + bytes.length ≤ k) :
    Snug { s with heap := { s.heap with mem := poke s.heap.mem (ptr + offset) bytes } } := by
  obtain ⟨t, ht, hkt⟩ := hi.serves.granted ptr k hk
  refine Tight.snug (hi.holds.of_headers_same fun x hx => poke_outside ?_) (hs.tight hi)
  by_contra hin
  have hout := outside_used (i := x - ptr) ht (by omega)
  rw [show ptr + (x - ptr) = x by omega] at hout
  exact hx hout

/-- **No call leaves a block with more than `slack` bytes to spare.** -/
theorem step_snug (hi : Inv s bs) (hs : Snug s) {c : Call} (hv : s.Valid c) :
    Sat (step libc s c) fun p => Snug p.2 := by
  cases c with
  | alloc size => exact alloc_snug hi hs hv
  | resize ptr size => exact resize_snug hi hs hv
  | dealloc ptr => exact (release_snug libc hi hs hv).bind fun _ h => Sat.ok h
  | write ptr offset bytes =>
    obtain ⟨k, hk, hle⟩ := hv
    exact Sat.ok (write_snug hi hs hk hle)

end Snugness

/-! ## What the allocations are charged -/

section Charges

variable [Platform] {s : Client} {bs : List Block} {libc : Libc Heap} {h : Heap}

/-- What an allocation of `n` bytes takes from the heap at most. -/
def charge (n : ℕ) : ℕ := headerSize + (roundUp n + slack)

/-- The live allocations. -/
def pointers (s : Client) : Finset ℕ :=
  (Finset.range (s.heap.buffer + s.heap.capacity)).filter fun p => s.live p ≠ none

/-- What all live allocations are charged. -/
def charged (s : Client) : ℕ := ∑ p ∈ s.pointers, charge ((s.live p).getD 0)

/-- The number of free blocks. -/
def freeBlocks (h : Heap) : ℕ := ((walk h).filter (blockIsFree h.mem)).length

theorem mem_pointers (hi : Inv s bs) (p : ℕ) : p ∈ s.pointers ↔ s.live p ≠ none := by
  rw [pointers, Finset.mem_filter, Finset.mem_range, and_iff_right_iff_imp]
  intro hp
  obtain ⟨n, hn⟩ := Option.ne_none_iff_exists'.1 hp
  obtain ⟨t, ht, -⟩ := hi.serves.granted p n hn
  obtain ⟨q, hq, rfl⟩ := mem_used.1 ht
  have hsize := (hi.holds.sizes _ (mem_placed hq).1).1
  have hend := (mem_placed hq).2.2
  rw [hi.holds.stop_eq] at hend
  dsimp only at hsize hend
  omega

omit [Platform] in
theorem nodup_used (a : ℕ) (bs : List Block) : ((used a bs).map Prod.fst).Nodup := by
  rw [List.Nodup, List.pairwise_map]
  refine (pairwise_used a bs).imp fun huv heq => ?_
  unfold headerSize at huv
  omega

theorem pointers_eq (hi : Inv s bs) :
    s.pointers = ((used s.heap.buffer bs).map Prod.fst).toFinset := by
  ext p
  rw [mem_pointers hi, List.mem_toFinset, List.mem_map]
  constructor
  · intro hp
    obtain ⟨n, hn⟩ := Option.ne_none_iff_exists'.1 hp
    obtain ⟨t, ht, -⟩ := hi.serves.granted p n hn
    exact ⟨(p, t), ht, rfl⟩
  · rintro ⟨⟨q, t⟩, hq, rfl⟩
    exact hi.serves.owned q t hq

theorem card_pointers (hi : Inv s bs) : s.pointers.card = (used s.heap.buffer bs).length := by
  rw [pointers_eq hi, List.toFinset_card_of_nodup (nodup_used _ _), List.length_map]

/-- The blocks in use, with their headers, take no more than is charged. -/
theorem sum_used_le (hi : Inv s bs) (hs : Snug s) :
    ((used s.heap.buffer bs).map fun u => headerSize + u.2).sum ≤ s.charged := by
  rw [charged, pointers_eq hi, List.sum_toFinset _ (nodup_used _ _), List.map_map]
  refine List.sum_le_sum fun u hu => ?_
  obtain ⟨n, hn⟩ := Option.ne_none_iff_exists'.1 (hi.serves.owned u.1 u.2 hu)
  have hle := hs u.1 n hn
  rw [blockSize_of_used hi.holds hu] at hle
  rw [Function.comp_apply, hn]
  exact Nat.add_le_add_left hle _

omit [Platform] in
/-- The payloads in use, block by block. -/
theorem map_used {β : Type} (f : ℕ → β) (bs : List Block) : ∀ a, (used a bs).map (fun u => f u.2) =
    (bs.filter fun b => !b.isFree).map fun b => f b.size := by
  induction bs with
  | nil => exact fun _ => rfl
  | cons b bs ih =>
    intro a
    rw [used_cons, List.map_append, ih]
    cases hb : b.isFree <;> simp [hb]

theorem freeBlocks_eq (hh : Holds h bs) : freeBlocks h = (bs.filter Block.isFree).length := by
  rw [freeBlocks, hh.walk_eq]
  suffices hfree : ∀ (cs : List Block) (a : ℕ), (∀ q b, (q, b) ∈ placed a cs → HeaderAt h.mem q b) →
      ((starts a cs).filter (blockIsFree h.mem)).length = (cs.filter Block.isFree).length from
    hfree bs _ hh.headers
  intro cs
  induction cs with
  | nil => exact fun _ _ => rfl
  | cons c cs ih =>
    intro a hm
    have hrest := ih (a + c.width) fun q b hq => hm q b (by simp [hq])
    have hc := (hm a c (by simp)).isFree_eq
    rw [starts_cons]
    cases hfree : c.isFree <;> simp [hc, hfree, hrest]

/-- What is neither charged nor a header of a free block is available. -/
theorem capacity_le (hi : Inv s bs) (hs : Snug s) :
    s.heap.capacity ≤ freeBytes bs + s.charged + freeBlocks s.heap * headerSize := by
  have hstop := hi.holds.stop_eq
  have hused := sum_used_le hi hs
  rw [map_used (fun t => headerSize + t)] at hused
  rw [freeBlocks_eq hi.holds]
  suffices hsum : ∀ (cs : List Block) (a : ℕ), stop a cs = a + (freeBytes cs +
      ((cs.filter fun b => !b.isFree).map fun b => headerSize + b.size).sum +
        (cs.filter Block.isFree).length * headerSize) by
    rw [hsum] at hstop
    omega
  intro cs
  induction cs with
  | nil => exact fun _ => rfl
  | cons c cs ih =>
    intro a
    rw [stop_cons, ih]
    unfold freeBytes Block.width
    cases hc : c.isFree <;> simp [hc] <;> ring

/-- What of a heap is lost to the sizes of its blocks. -/
structure Economical (s : Client) : Prop where
  /-- A block has the room that was asked for, and at most `slack` bytes more. -/
  block : ∀ p n, s.live p = some n → roundUp n ≤ blockSize s.heap.mem (p - headerSize) ∧
    blockSize s.heap.mem (p - headerSize) ≤ roundUp n + slack
  /-- All but the charges and the headers of the free blocks is available. -/
  available : ∃ free, available s.heap = .ok free ∧
    s.heap.capacity ≤ free + s.charged + freeBlocks s.heap * headerSize

theorem Inv.economical (hi : Inv s bs) (hs : Snug s) : Economical s where
  block p n hp := by
    refine ⟨?_, hs p n hp⟩
    obtain ⟨t, ht, hle⟩ := hi.serves.granted p n hp
    rw [blockSize_of_used hi.holds ht]
    obtain ⟨q, hq, -⟩ := mem_used.1 ht
    exact roundUp_le hle (hi.holds.sizes _ (mem_placed hq).1).2
  available := ⟨freeBytes bs, available_spec hi.holds, capacity_le hi hs⟩

theorem snug_start (h : Heap) : Snug (start h) := by
  intro p n hp
  cases hp

/-- **Blocks stay as small as their requests allow.**  After any run of valid calls, growing,
shrinking and moving ones included, a live allocation of `n` bytes has a block of at
least `n` bytes rounded up and at most `slack` bytes more; so all of the buffer is
available but the charges of the live allocations and a header for each free block. -/
theorem blocks_stay_snug {ν : Type} (libc₀ : Libc ν) (hplaced : libc₀.Placed)
    (libc : Libc Heap) (mem : Words.Memory) (w w' : ν) (capacity : ℕ) (st : Status) (h : Heap)
    (hc : create libc₀ mem w capacity = .ok ((st, some h), w')) (calls : List Call)
    (hcalls : Along (step libc) Valid (start h) calls) :
    Sat (trace (step libc) (start h) calls) fun p => Economical p.2 := by
  refine (trace_inv (I := fun t => ∃ bs, Inv t bs ∧ Snug t) ?_ calls (start h)
    ⟨_, inv_start hplaced hc, snug_start h⟩ hcalls).mono ?_
  · rintro t c ⟨bs, hi, hs⟩ hv
    refine ((step_spec hi hv).and (step_snug hi hs hv)).mono ?_
    rintro p ⟨⟨bs', hi', -⟩, hs'⟩
    exact ⟨bs', hi', hs'⟩
  · rintro p ⟨bs, hi, hs⟩
    exact hi.economical hs

end Charges

section Lp64

local instance snugPlatform : Platform := lp64

/-- A block grows into the free one behind it, is cut, and another is moved. -/
theorem blocks_stay_snug_resized : ∃ st h w,
    create Libc.bump (fun _ => 0) 1 512 = .ok ((st, some h), w) ∧
      Sat (trace (step .exhausted) (start h)
        [.alloc 40, .resize 96 100, .resize 96 5, .alloc 8, .resize 96 120]) fun p =>
          Economical p.2 := by
  obtain ⟨st, h, w, hc, hcheck⟩ := exists_of_check (r := create Libc.bump (fun _ => 0) 1 512)
    (f := fun h => checkAlong (step .exhausted) Valid (start h)
      [.alloc 40, .resize 96 100, .resize 96 5, .alloc 8, .resize 96 120]) (by decide +kernel)
  exact ⟨st, h, w, hc, blocks_stay_snug Libc.bump Libc.bump_placed .exhausted (fun _ => 0) 1 w 512
    st h hc _ (along_of_check hcheck)⟩

end Lp64

/-! ## Clients that never shrink an allocation -/

section Growing

variable [Platform] {s : Client} {bs : List Block} {libc : Libc Heap} {h : Heap}

/-- A `resize` asks for no less than there is, or for nothing. -/
def Growing (s : Client) : Call → Prop
  | .resize ptr size => size = 0 ∨ ∀ n ∈ s.live ptr, n ≤ size
  | _ => True

instance (s : Client) : (c : Call) → Decidable (s.Growing c)
  | .resize ptr size => inferInstanceAs (Decidable (size = 0 ∨ ∀ n ∈ s.live ptr, n ≤ size))
  | .alloc _ => .isTrue trivial
  | .dealloc _ => .isTrue trivial
  | .write _ _ _ => .isTrue trivial

/-- There is enough for all live allocations, and for the request beside each free
block they leave. -/
def Budgeted (s : Client) : Call → Prop
  | .alloc size => s.charged + (s.pointers.card + 1) * (headerSize + roundUp size) ≤ s.heap.capacity
  | .resize _ size =>
    s.charged + (s.pointers.card + 1) * (headerSize + roundUp size) ≤ s.heap.capacity
  | _ => True

instance (s : Client) : (c : Call) → Decidable (s.Budgeted c)
  | .alloc size => inferInstanceAs (Decidable
      (s.charged + (s.pointers.card + 1) * (headerSize + roundUp size) ≤ s.heap.capacity))
  | .resize _ size => inferInstanceAs (Decidable
      (s.charged + (s.pointers.card + 1) * (headerSize + roundUp size) ≤ s.heap.capacity))
  | .dealloc _ => .isTrue trivial
  | .write _ _ _ => .isTrue trivial

/-- A block without room to spare is not cut when its allocation grows. -/
theorem Growing.keepsMerged (hs : Snug s) {c : Call} (hv : s.Valid c) (hg : s.Growing c) :
    s.KeepsMerged c := by
  cases c with
  | alloc size => trivial
  | dealloc ptr => trivial
  | write ptr offset bytes => trivial
  | resize ptr size =>
    intro hpos n hround _ hroom
    obtain ⟨k, hk⟩ := Option.ne_none_iff_exists'.1 hv
    rcases hg with hzero | hle
    · omega
    · have hsnug := hs ptr k hk
      have hmono := roundUp_mono (hle k hk)
      rw [roundUp_of_some hround] at hmono
      unfold slack at hsnug
      omega

/-- No free block follows a free one. -/
structure Unfragmented (s : Client) : Prop where
  apart : (walk s.heap).IsChain fun a b =>
    ¬ (blockIsFree s.heap.mem a = true ∧ blockIsFree s.heap.mem b = true)
  few : freeBlocks s.heap ≤ s.pointers.card + 1

/-- A merged block list, by its flags in memory. -/
theorem apart_of_merged (hh : Holds h bs) (hm : Merged bs) : (walk h).IsChain fun a b =>
    ¬ (blockIsFree h.mem a = true ∧ blockIsFree h.mem b = true) := by
  rw [hh.walk_eq]
  suffices hchain : ∀ (cs : List Block) (a : ℕ), Merged cs →
      (∀ q b, (q, b) ∈ placed a cs → HeaderAt h.mem q b) → (starts a cs).IsChain fun a b =>
        ¬ (blockIsFree h.mem a = true ∧ blockIsFree h.mem b = true) from
    hchain bs _ hm hh.headers
  intro cs
  induction cs with
  | nil => exact fun _ _ _ => .nil
  | cons c cs ih =>
    intro a hcs hheaders
    obtain ⟨hhead, htail⟩ := merged_cons.1 hcs
    rw [starts_cons, List.isChain_cons]
    refine ⟨fun q hq => ?_, ih _ htail fun q b hq => hheaders q b (by simp [hq])⟩
    cases cs with
    | nil => cases hq
    | cons d cs =>
      cases hq
      rw [(hheaders a c (by simp)).isFree_eq, (hheaders _ d (by simp)).isFree_eq]
      exact hhead d rfl

theorem Inv.unfragmented (hi : Inv s bs) (hm : Merged bs) : Unfragmented s where
  apart := apart_of_merged hi.holds hm
  few := by
    have hlength := congrArg List.length (map_used id bs s.heap.buffer)
    rw [List.length_map, List.length_map] at hlength
    rw [freeBlocks_eq hi.holds, card_pointers hi, hlength]
    exact Tiling.length_gaps_le Block.isFree hm

/-- **In a merged heap a block fits if the budget allows.** -/
theorem Inv.exists_fits (hi : Inv s bs) (hm : Merged bs) (hs : Snug s) {n : ℕ}
    (hbudget : s.charged + (s.pointers.card + 1) * (headerSize + n) ≤ s.heap.capacity) :
    ∃ b ∈ bs, Block.Fits n b := by
  by_contra hno
  have hwidth : ∀ b ∈ bs, b.isFree = true → b.width ≤ headerSize + n - 1 := by
    intro b hb hfree
    have hlt : ¬ n ≤ b.size := fun hle => hno ⟨b, hb, hfree, hle⟩
    unfold Block.width headerSize
    omega
  -- the blocks in use and the free ones between them do not fill the buffer
  have hsum := Tiling.sum_width_le Block.width Block.isFree hm hwidth
  have hused := sum_used_le hi hs
  rw [map_used (fun t => headerSize + t)] at hused
  have hlength := congrArg List.length (map_used id bs s.heap.buffer)
  rw [List.length_map, List.length_map] at hlength
  rw [card_pointers hi, hlength] at hbudget
  have hstop := hi.holds.stop_eq
  unfold stop Tiling.finish at hstop
  generalize hk : (bs.filter fun b => !b.isFree).length + 1 = k at hsum hbudget
  have hlt : k * (headerSize + n - 1) < k * (headerSize + n) :=
    Nat.mul_lt_mul_of_pos_left (by unfold headerSize; omega) (by omega)
  have hsame : ((bs.filter fun b => !b.isFree).map fun b => headerSize + b.size).sum =
      ((bs.filter fun b => !b.isFree).map Block.width).sum := rfl
  omega

/-- Neither way to refuse a request is left. -/
theorem Inv.not_refused (hi : Inv s bs) (hm : Merged bs) (hs : Snug s) {size : ℕ}
    (hbudget : s.charged + (s.pointers.card + 1) * (headerSize + roundUp size) ≤ s.heap.capacity) :
    ¬ (alignUpOverflow size memoryAlign = none ∨
      ∃ n, alignUpOverflow size memoryAlign = some n ∧ ∀ a, ¬ Room s.heap n a) := by
  obtain ⟨b, hb, hfit⟩ := hi.exists_fits hm hs hbudget
  obtain ⟨pre, post, rfl⟩ := List.append_of_mem hb
  have hround : alignUpOverflow size memoryAlign = some (roundUp size) := by
    have hmem : (stop s.heap.buffer pre, b) ∈ placed s.heap.buffer (pre ++ b :: post) :=
      mem_placed_middle _
    have hplaced := mem_placed hmem
    have hmax := hi.holds.stop_le
    rw [hi.holds.stop_eq] at hplaced
    exact alignUpOverflow_roundUp (by have := hfit.2; omega)
  rintro (hnone | ⟨n, hn, hno⟩)
  · rw [hround] at hnone
    cases hnone
  · rw [hround] at hn
    cases hn
    exact hno _ (hi.holds.room_middle hfit)

/-- **A call within the budget is served.** -/
theorem step_served (hi : Inv s bs) (hm : Merged bs) (hs : Snug s) {c : Call} (hv : s.Valid c)
    (hb : s.Budgeted c) : Sat (step libc s c) fun p => p.1.1 = .ok := by
  cases c with
  | alloc size =>
    refine (alloc_exact hi hv).mono fun p hp => ?_
    rw [hp.status, if_neg fun hzero => hi.not_refused hm hs hb (hp.null_iff.1 hzero)]
  | resize ptr size =>
    by_cases hsize : size = 0
    · subst hsize
      obtain ⟨h', hdealloc, -⟩ := release_blocks libc hi hv
      rw [step, Allocator.resize, if_pos rfl, hdealloc, ok_bind]
      exact Sat.ok rfl
    · refine (resize_exact hi hv (Nat.pos_of_ne_zero hsize)).mono fun p hp => ?_
      rw [hp.status, if_neg]
      intro hzero
      refine hi.not_refused hm hs hb ((hp.null_iff.1 hzero).imp id ?_)
      rintro ⟨n, hn, -, -, hno⟩
      exact ⟨n, hn, hno⟩
  | dealloc ptr => exact (release_blocks libc hi hv).bind fun _ _ => Sat.ok rfl
  | write ptr offset bytes => exact Sat.ok rfl

/-- A heap without fragments, as large as the heap `h` it came from. -/
def Orderly (h : Heap) (s : Client) : Prop :=
  ∃ bs, Inv s bs ∧ Merged bs ∧ Snug s ∧ s.heap.buffer = h.buffer ∧ s.heap.capacity = h.capacity

theorem orderly_start {ν : Type} {libc₀ : Libc ν} (hplaced : libc₀.Placed) {mem : Words.Memory}
    {w w' : ν} {capacity : ℕ} {st : Status}
    (hc : create libc₀ mem w capacity = .ok ((st, some h), w')) : Orderly h (start h) :=
  ⟨_, inv_start hplaced hc, List.isChain_singleton _, snug_start h, rfl, rfl⟩

/-- **A call that does not shrink an allocation fragments nothing.** -/
theorem Orderly.step (ho : Orderly h s) {c : Call} (hv : s.Valid c) (hg : s.Growing c) :
    Sat (step libc s c) fun p => Orderly h p.2 := by
  obtain ⟨bs, hi, hm, hs, hbuf, hcap⟩ := ho
  refine ((step_spec hi hv).and (step_snug hi hs hv)).mono ?_
  rintro p ⟨⟨bs', hi', hb, hc, -, hm'⟩, hs'⟩
  exact ⟨bs', hi', hm' (hg.keepsMerged hs hv) hm, hs', hb.trans hbuf, hc.trans hcap⟩

/-- **A client that never shrinks an allocation never fragments the heap.**  After any
run of such a client no two free blocks are neighbours, there is at most one more of
them than there are live allocations, and when nothing is live the heap is one free
block again, as large as after `create`. -/
theorem growing_never_fragments {ν : Type} (libc₀ : Libc ν) (hplaced : libc₀.Placed)
    (libc : Libc Heap) (mem : Words.Memory) (w w' : ν) (capacity : ℕ) (st : Status) (h : Heap)
    (hc : create libc₀ mem w capacity = .ok ((st, some h), w')) (calls : List Call)
    (hcalls : Along (step libc) (fun s c => s.Valid c ∧ s.Growing c) (start h) calls) :
    Sat (trace (step libc) (start h) calls) fun p =>
      Unfragmented p.2 ∧ ((∀ q, p.2.live q = none) → Recovered libc h p.2) := by
  obtain ⟨-, hlarge, hh⟩ := create_spec hplaced hc
  refine (trace_inv (I := Orderly h) (fun t c ho hv => ho.step hv.1 hv.2) calls (start h)
    (orderly_start hplaced hc) hcalls).mono ?_
  rintro p ⟨bs, hi, hm, -, hbuf, hcap⟩
  exact ⟨hi.unfragmented hm, fun hfree => hi.recovered hh hlarge hbuf hcap hm hfree⟩

end Growing

section Lp64

local instance growingPlatform : Platform := lp64

/-- Both allocations grow, one of them by moving. -/
theorem growing_never_fragments_moved : ∃ st h w,
    create Libc.bump (fun _ => 0) 1 512 = .ok ((st, some h), w) ∧
      Sat (trace (step .exhausted) (start h)
        [.alloc 40, .alloc 8, .resize 96 100, .resize 176 9, .dealloc 224, .dealloc 176])
        fun p => Unfragmented p.2 ∧
          ((∀ q, p.2.live q = none) → Recovered .exhausted h p.2) := by
  obtain ⟨st, h, w, hc, hcheck⟩ := exists_of_check (r := create Libc.bump (fun _ => 0) 1 512)
    (f := fun h => checkAlong (step .exhausted) (fun s c => s.Valid c ∧ s.Growing c) (start h)
      [.alloc 40, .alloc 8, .resize 96 100, .resize 176 9, .dealloc 224, .dealloc 176])
    (by decide +kernel)
  exact ⟨st, h, w, hc, growing_never_fragments Libc.bump Libc.bump_placed .exhausted (fun _ => 0)
    1 w 512 st h hc _ (along_of_check hcheck)⟩

end Lp64

section Budgets

variable [Platform]

/-- **A budget is kept.**  A client that never shrinks an allocation is never refused a
request, as long as what its live allocations are charged, and the request once more
than there are live allocations, fit into the heap. -/
theorem budget_is_served {ν : Type} (libc₀ : Libc ν) (hplaced : libc₀.Placed)
    (libc : Libc Heap) (mem : Words.Memory) (w w' : ν) (capacity : ℕ) (st : Status) (h : Heap)
    (hc : create libc₀ mem w capacity = .ok ((st, some h), w')) (calls : List Call)
    (hcalls : Along (step libc) (fun s c => s.Valid c ∧ s.Growing c ∧ s.Budgeted c)
      (start h) calls) :
    Sat (trace (step libc) (start h) calls) fun p => ∀ ans ∈ p.1, ans.1 = .ok := by
  refine (trace_inv_history (I := fun log t => Orderly h t ∧ ∀ x ∈ log, x.2.1 = .ok) ?_ calls []
    (start h) ⟨orderly_start hplaced hc, by simp⟩ hcalls).mono ?_
  · rintro log t c ⟨ho, hlog⟩ ⟨hv, hg, hb⟩
    have hserved : Sat (step libc t c) fun p => p.1.1 = .ok := by
      obtain ⟨bs, hi, hm, hs, -, -⟩ := ho
      exact step_served hi hm hs hv hb
    refine ((ho.step hv hg).and hserved).mono ?_
    rintro p ⟨ho', hok⟩
    refine ⟨ho', fun x hx => ?_⟩
    rcases List.mem_append.1 hx with hx | hx
    · exact hlog x hx
    · rw [List.mem_singleton.1 hx]
      exact hok
  · rintro p ⟨hlength, -, hall⟩ ans hans
    rw [List.nil_append] at hall
    have hzip : (calls.zip p.1).map Prod.snd = p.1 := List.map_snd_zip (by omega)
    rw [← hzip] at hans
    obtain ⟨x, hx, rfl⟩ := List.mem_map.1 hans
    exact hall x hx

end Budgets

section Lp64

local instance budgetPlatform : Platform := lp64

/-- Two allocations at a time in a heap of 512 bytes. -/
theorem budget_is_served_two : ∃ st h w,
    create Libc.bump (fun _ => 0) 1 512 = .ok ((st, some h), w) ∧
      Sat (trace (step .exhausted) (start h)
        [.alloc 40, .alloc 8, .resize 96 60, .dealloc 176, .alloc 30]) fun p =>
          ∀ ans ∈ p.1, ans.1 = .ok := by
  obtain ⟨st, h, w, hc, hcheck⟩ := exists_of_check (r := create Libc.bump (fun _ => 0) 1 512)
    (f := fun h => checkAlong (step .exhausted)
      (fun s c => s.Valid c ∧ s.Growing c ∧ s.Budgeted c) (start h)
      [.alloc 40, .alloc 8, .resize 96 60, .dealloc 176, .alloc 30]) (by decide +kernel)
  exact ⟨st, h, w, hc, budget_is_served Libc.bump Libc.bump_placed .exhausted (fun _ => 0) 1 w 512
    st h hc _ (along_of_check hcheck)⟩

end Lp64

end Client

end Heap
end K4c
