import Mathlib.Tactic
import K4c.Mem.HeapBlocks

/-!
# The bytes of a general heap

The connection between the bytes of a `Heap` and a list of blocks.

* `Holds h bs` — the headers of the blocks `bs`, one after another, are the
  headers in memory, and the block list of `h` links them in this order.
* `Holds.replace` — some neighbouring blocks are exchanged for others in the same
  place.
* `Becomes` — a heap turned into another one, and no byte outside of some headers
  changed.
* `setIsFree_spec`, `splitBlock_spec`, `absorb_spec` — the three ways in which
  the operations change blocks: the flag, `cut` and `merge`.
-/

namespace K4c
namespace Heap

open Exec Words DoublyLinkedList

/-! ## Blocks in memory -/

/-- The header at `a` describes the block `b`. -/
structure HeaderAt (m : Words.Memory) (a : ℕ) (b : Block) : Prop where
  size_eq : blockSize m a = b.size
  isFree_eq : blockIsFree m a = b.isFree

theorem HeaderAt.congr {m m' : Words.Memory} {a : ℕ} {b : Block} (h : HeaderAt m a b)
    (hsize : ∀ x, a ≤ x → x < a + 8 → m' x = m x) (hfree : m' (a + 24) = m (a + 24)) :
    HeaderAt m' a b := by
  refine ⟨?_, ?_⟩
  · rw [blockSize, loadWord_congr hsize]
    exact h.size_eq
  · rw [blockIsFree, hfree]
    exact h.isFree_eq

section Fields

variable {m : Words.Memory} {a q : ℕ} {b : Block}

theorem setSize_outside {v x : ℕ} (h : x < a ∨ a + 8 ≤ x) : setSize m a v x = m x :=
  storeWord_outside h

theorem setIsFree_outside {f : Bool} {x : ℕ} (h : x ≠ a + 24) : setIsFree m a f x = m x :=
  Function.update_of_ne h _ _

theorem headerAt_self : HeaderAt m a ⟨blockSize m a, blockIsFree m a⟩ := ⟨rfl, rfl⟩

theorem HeaderAt.setSize (h : HeaderAt m a b) {v : ℕ} (hv : v ≤ sizeMax) :
    HeaderAt (setSize m a v) a { b with size := v } := by
  refine ⟨loadWord_storeWord_same (by unfold sizeMax at hv; omega), ?_⟩
  rw [blockIsFree, setSize_outside (by omega)]
  exact h.isFree_eq

theorem HeaderAt.setIsFree (h : HeaderAt m a b) (f : Bool) :
    HeaderAt (setIsFree m a f) a { b with isFree := f } := by
  refine ⟨?_, ?_⟩
  · rw [blockSize, loadWord_congr fun x _ _ => setIsFree_outside (by omega)]
    exact h.size_eq
  · rw [blockIsFree, Heap.setIsFree, Function.update_self]
    cases f <;> rfl

theorem HeaderAt.setSize_of_apart (h : HeaderAt m q b) (v : ℕ) (hq : q + 32 ≤ a ∨ a + 32 ≤ q) :
    HeaderAt (Heap.setSize m a v) q b :=
  h.congr (fun _ _ _ => setSize_outside (by omega)) (setSize_outside (by omega))

theorem HeaderAt.setIsFree_of_apart (h : HeaderAt m q b) (f : Bool)
    (hq : q + 32 ≤ a ∨ a + 32 ≤ q) : HeaderAt (Heap.setIsFree m a f) q b :=
  h.congr (fun _ _ _ => setIsFree_outside (by omega)) (setIsFree_outside (by omega))

end Fields

/-- The list nodes of the blocks `bs`, the first of which is at `a`. -/
def nodes (a : ℕ) (bs : List Block) : List ℕ := (placed a bs).map fun p => blockNode p.1

/-- The addresses of the blocks `bs`, the first of which is at `a`. -/
def starts (a : ℕ) (bs : List Block) : List ℕ := (placed a bs).map Prod.fst

section Addresses

variable {a n : ℕ} {b : Block} {bs cs : List Block}

@[simp] theorem nodes_nil : nodes a [] = [] := rfl

@[simp] theorem nodes_cons : nodes a (b :: bs) = blockNode a :: nodes (a + b.width) bs := rfl

@[simp] theorem nodes_append : nodes a (bs ++ cs) = nodes a bs ++ nodes (stop a bs) cs := by
  simp [nodes]

theorem mem_nodes : n ∈ nodes a bs ↔ ∃ q c, (q, c) ∈ placed a bs ∧ n = blockNode q := by
  simp only [nodes, List.mem_map, Prod.exists, eq_comm]

@[simp] theorem starts_nil : starts a [] = [] := rfl

@[simp] theorem starts_cons : starts a (b :: bs) = a :: starts (a + b.width) bs := rfl

@[simp] theorem starts_append : starts a (bs ++ cs) = starts a bs ++ starts (stop a bs) cs := by
  simp [starts]

theorem mem_starts : n ∈ starts a bs ↔ ∃ c, (n, c) ∈ placed a bs := by
  simp [starts]

end Addresses

/-- A byte that belongs to none of the headers at these addresses. -/
def Outside (addrs : List ℕ) (x : ℕ) : Prop := ∀ a ∈ addrs, x < a ∨ a + headerSize ≤ x

/-- A payload meets no header. -/
theorem outside_payload {a q : ℕ} {b : Block} {bs : List Block} (h : (q, b) ∈ placed a bs)
    {x : ℕ} (h1 : q + headerSize ≤ x) (h2 : x < q + headerSize + b.size) :
    Outside (starts a bs) x := by
  intro s hs
  obtain ⟨c, hc⟩ := mem_starts.1 hs
  have := placed_separated h hc
  omega

/-- The size field and the flag of a block belong to no list node. -/
theorem header_outside_nodes {a q x : ℕ} {c : Block} {bs : List Block}
    (hq : (q, c) ∈ placed a bs) (hx : q ≤ x ∧ x < q + 8 ∨ x = q + 24) :
    ∀ n ∈ nodes a bs, x < n ∨ n + 16 ≤ x := by
  intro n hn
  obtain ⟨q', c', hq', rfl⟩ := mem_nodes.1 hn
  have := placed_separated hq hq'
  unfold blockNode headerSize at *
  omega

theorem mem_placed_middle (a : ℕ) {pre post : List Block} {b : Block} :
    (stop a pre, b) ∈ placed a (pre ++ b :: post) := by simp

variable [Platform]

/-- The buffer is tiled by the blocks `bs`, and the block list links them. -/
structure Holds (h : Heap) (bs : List Block) : Prop where
  buffer_pos : 0 < h.buffer
  buffer_dvd : memoryAlign ∣ h.buffer
  stop_le : h.buffer + h.capacity ≤ sizeMax
  stop_eq : stop h.buffer bs = h.buffer + h.capacity
  sizes : ∀ b ∈ bs, 0 < b.size ∧ memoryAlign ∣ b.size
  headers : ∀ q b, (q, b) ∈ placed h.buffer bs → HeaderAt h.mem q b
  list : h.blocks.Holds h.mem (nodes h.buffer bs)

section Middle

variable {h h' : Heap} {pre olds news post : List Block}

/-- The other blocks do not meet the ones in the middle. -/
theorem Holds.others (hh : Holds h (pre ++ olds ++ post)) {q : ℕ} {c : Block}
    (hq : (q, c) ∈ placed h.buffer pre ∨ (q, c) ∈ placed (stop h.buffer (pre ++ olds)) post) :
    (q, c) ∈ placed h.buffer (pre ++ olds ++ post) ∧ HeaderAt h.mem q c ∧
      (q + headerSize + c.size ≤ stop h.buffer pre ∨ stop h.buffer (pre ++ olds) ≤ q) := by
  have hmem : (q, c) ∈ placed h.buffer (pre ++ olds ++ post) := by
    rcases hq with hq | hq <;> simp_all
  exact ⟨hmem, hh.headers q c hmem, hq.imp (fun hq => (mem_placed hq).2.2)
    fun hq => (mem_placed hq).2.1⟩

/-- **Blocks are exchanged for others in their place.**  Outside of this place
only list nodes may change. -/
theorem Holds.replace (hh : Holds h (pre ++ olds ++ post)) (hbuffer : h'.buffer = h.buffer)
    (hcapacity : h'.capacity = h.capacity)
    (hstop : stop (stop h.buffer pre) news = stop (stop h.buffer pre) olds)
    (hsizes : ∀ b ∈ news, 0 < b.size ∧ memoryAlign ∣ b.size)
    (hmem : ∀ x, x < stop h.buffer pre ∨ stop h.buffer (pre ++ olds) ≤ x →
      (∀ q c, ((q, c) ∈ placed h.buffer pre ∨ (q, c) ∈ placed (stop h.buffer (pre ++ olds)) post) →
        x < q + 8 ∨ q + 24 ≤ x) → h'.mem x = h.mem x)
    (hnews : ∀ q c, (q, c) ∈ placed (stop h.buffer pre) news → HeaderAt h'.mem q c)
    (hlist : h'.blocks.Holds h'.mem (nodes h.buffer (pre ++ news ++ post))) :
    Holds h' (pre ++ news ++ post) where
  buffer_pos := hbuffer ▸ hh.buffer_pos
  buffer_dvd := hbuffer ▸ hh.buffer_dvd
  stop_le := by rw [hbuffer, hcapacity]; exact hh.stop_le
  stop_eq := by
    rw [hbuffer, hcapacity, ← hh.stop_eq]
    simp [hstop]
  sizes b hb := by
    simp only [List.mem_append] at hb
    rcases hb with (hb | hb) | hb
    · exact hh.sizes b (by simp [hb])
    · exact hsizes b hb
    · exact hh.sizes b (by simp [hb])
  headers q c hq := by
    rw [hbuffer] at hq
    simp only [placed_append, List.mem_append, stop_append, hstop] at hq
    rw [or_assoc, or_left_comm] at hq
    rcases hq with hq | hq
    · exact hnews q c hq
    · rw [← stop_append] at hq
      obtain ⟨hmem_q, hheader, hsep⟩ := hh.others hq
      -- the size and the flag lie outside of the place and of every other node
      refine hheader.congr (fun x h1 h2 => hmem x ?_ fun q' c' hq' => ?_)
        (hmem _ ?_ fun q' c' hq' => ?_)
      · unfold headerSize at hsep
        omega
      · have := placed_separated hmem_q (hh.others hq').1
        unfold headerSize at this
        omega
      · unfold headerSize at hsep
        omega
      · have := placed_separated hmem_q (hh.others hq').1
        unfold headerSize at this
        omega
  list := hbuffer ▸ hlist

end Middle

/-- Payloads may hold anything. -/
theorem Holds.of_headers_same {h : Heap} {bs : List Block} (hh : Holds h bs) {m : Words.Memory}
    (hsame : ∀ x, ¬ Outside (starts h.buffer bs) x → m x = h.mem x) :
    Holds { h with mem := m } bs where
  buffer_pos := hh.buffer_pos
  buffer_dvd := hh.buffer_dvd
  stop_le := hh.stop_le
  stop_eq := hh.stop_eq
  sizes := hh.sizes
  headers q b hq := by
    have hin : ∀ x, q ≤ x → x < q + headerSize → m x = h.mem x := by
      refine fun x h1 h2 => hsame x fun hout => ?_
      have := hout q (mem_starts.2 ⟨b, hq⟩)
      omega
    unfold headerSize at hin
    exact (hh.headers q b hq).congr (fun x h1 h2 => hin x h1 (by omega))
      (hin _ (by omega) (by omega))
  list := by
    refine hh.list.congr fun k hk x h1 h2 => hsame x fun hout => ?_
    obtain ⟨q, c, hq, rfl⟩ := mem_nodes.1 hk
    have := hout q (mem_starts.2 ⟨c, hq⟩)
    unfold blockNode headerSize at *
    omega

/-! ## Changes -/

/-- `h` turned into the heap `h'` of the blocks `bs`, and no byte outside of the
headers at `addrs` changed. -/
structure Becomes (h : Heap) (addrs : List ℕ) (bs : List Block) (h' : Heap) : Prop where
  buffer_eq : h'.buffer = h.buffer
  capacity_eq : h'.capacity = h.capacity
  holds : Holds h' bs
  frame : ∀ x, Outside addrs x → h'.mem x = h.mem x

theorem Becomes.trans {h h' h'' : Heap} {addrs addrs' : List ℕ} {bs cs : List Block}
    (h1 : Becomes h addrs bs h') (h2 : Becomes h' addrs' cs h'') (hsub : addrs' ⊆ addrs) :
    Becomes h addrs cs h'' where
  buffer_eq := h2.buffer_eq.trans h1.buffer_eq
  capacity_eq := h2.capacity_eq.trans h1.capacity_eq
  holds := h2.holds
  frame x hx := (h2.frame x fun a ha => hx a (hsub ha)).trans (h1.frame x hx)

theorem Becomes.mono {h h' : Heap} {addrs addrs' : List ℕ} {bs : List Block}
    (hb : Becomes h addrs bs h') (hsub : addrs ⊆ addrs') : Becomes h addrs' bs h' :=
  ⟨hb.buffer_eq, hb.capacity_eq, hb.holds, fun x hx => hb.frame x fun a ha => hx a (hsub ha)⟩

section OneBlock

variable {h : Heap} {bs pre post : List Block} {b : Block}

/-- The block lies inside the buffer. -/
theorem Holds.bounds (hh : Holds h (pre ++ b :: post)) :
    h.buffer ≤ stop h.buffer pre ∧
      stop h.buffer pre + headerSize + b.size ≤ h.buffer + h.capacity := by
  rw [← hh.stop_eq]
  exact (mem_placed (mem_placed_middle h.buffer)).2

/-- **The flag of a block is set.** -/
theorem setIsFree_spec (hh : Holds h (pre ++ b :: post)) (f : Bool) :
    Becomes h [stop h.buffer pre] (pre ++ { b with isFree := f } :: post)
      { h with mem := setIsFree h.mem (stop h.buffer pre) f } := by
  have hholds : Holds { h with mem := setIsFree h.mem (stop h.buffer pre) f }
      (pre ++ [{ b with isFree := f }] ++ post) := by
    have hheader := hh.headers _ _ (mem_placed_middle h.buffer)
    have hnodes : nodes h.buffer (pre ++ [{ b with isFree := f }] ++ post) =
        nodes h.buffer (pre ++ b :: post) := by
      simp [Block.width]
    have hh' : Holds h (pre ++ [b] ++ post) := by simpa using hh
    refine hh'.replace rfl rfl rfl ?_ ?_ ?_ ?_
    · intro c hc
      rw [List.mem_singleton.1 hc]
      exact hh.sizes b (by simp)
    · intro x hx _
      apply setIsFree_outside
      simp only [stop_append, stop_cons, stop_nil, Block.width] at hx
      unfold headerSize at hx
      omega
    · intro q c hq
      simp only [placed_cons, placed_nil, List.mem_singleton, Prod.mk.injEq] at hq
      obtain ⟨rfl, rfl⟩ := hq
      exact hheader.setIsFree f
    · rw [hnodes]
      refine hh.list.congr fun n hn x h1 h2 => setIsFree_outside ?_
      obtain ⟨q, c, hq, rfl⟩ := mem_nodes.1 hn
      have := placed_separated (mem_placed_middle h.buffer) hq
      unfold blockNode headerSize at *
      omega
  refine ⟨rfl, rfl, by simpa using hholds, fun x hx => setIsFree_outside ?_⟩
  have := hx _ (List.mem_singleton_self _)
  unfold headerSize at this
  omega

theorem Holds.size_eq (hh : Holds h bs) : h.blocks.size = bs.length := by
  rw [hh.list.size_eq, nodes, List.length_map, placed, Tiling.length_place]

theorem Holds.length_lt (hh : Holds h bs) : bs.length < sizeMax := by
  have h1 := hh.stop_eq
  have h2 := hh.stop_le
  rw [Heap.stop_eq] at h1
  unfold headerSize at h1
  unfold sizeMax at *
  omega

/-- The fields of the two headers that a cut writes before it changes the list. -/
def cutHeaders (m : Words.Memory) (A n rest : ℕ) : Words.Memory :=
  setSize (setIsFree (setSize m (A + headerSize + n) rest) (A + headerSize + n) true) A n

omit [Platform] in
theorem cutHeaders_outside {m : Words.Memory} {A n rest x : ℕ} (h1 : x < A ∨ A + 8 ≤ x)
    (h2 : x < A + headerSize + n ∨ A + headerSize + n + 8 ≤ x)
    (h3 : x ≠ A + headerSize + n + 24) : cutHeaders m A n rest x = m x := by
  rw [cutHeaders, setSize_outside h1, setIsFree_outside h3, setSize_outside h2]

/-- These writes make the two headers, and leave the list as it is. -/
theorem cutHeaders_spec (hh : Holds h (pre ++ b :: post)) {A n rest : ℕ}
    (hA : A = stop h.buffer pre) (hsplit : b.size = n + headerSize + rest) :
    HeaderAt (cutHeaders h.mem A n rest) A { b with size := n } ∧
      HeaderAt (cutHeaders h.mem A n rest) (A + headerSize + n) ⟨rest, true⟩ ∧
      h.blocks.Holds (cutHeaders h.mem A n rest) (nodes h.buffer (pre ++ b :: post)) := by
  have hmem : (A, b) ∈ placed h.buffer (pre ++ b :: post) := hA ▸ mem_placed_middle h.buffer
  have hheader := hh.headers _ _ hmem
  obtain ⟨-, hhigh⟩ := hh.bounds
  have hmax := hh.stop_le
  have hfit : A + 64 + n + rest ≤ sizeMax := by
    unfold headerSize at *
    omega
  have hS : A + headerSize + n = A + 32 + n := rfl
  refine ⟨?_, ?_, hh.list.congr fun k hk x h1 h2 => ?_⟩
  · exact ((hheader.setSize_of_apart rest (by omega)).setIsFree_of_apart true (by omega)).setSize
      (by omega)
  · exact ((headerAt_self.setSize (by omega)).setIsFree true).setSize_of_apart n (by omega)
  · obtain ⟨q, c, hq, rfl⟩ := mem_nodes.1 hk
    have := placed_separated hmem hq
    apply cutHeaders_outside <;> (unfold blockNode headerSize at *; omega)

omit [Platform] in
/-- The nodes of the blocks before and after a cut. -/
theorem nodes_cut (post : List Block) {A n rest : ℕ} (hA : A = stop h.buffer pre)
    (hsplit : b.size = n + headerSize + rest) :
    nodes h.buffer (pre ++ b :: post) =
        nodes h.buffer pre ++ blockNode A :: nodes (A + b.width) post ∧
      nodes h.buffer (pre ++ [{ b with size := n }, ⟨rest, true⟩] ++ post) =
        nodes h.buffer pre ++
          blockNode A :: blockNode (A + headerSize + n) :: nodes (A + b.width) post := by
  have h1 : A + (headerSize + n) = A + headerSize + n := (Nat.add_assoc _ _ _).symm
  have h2 : A + headerSize + n + (headerSize + rest) = A + (headerSize + b.size) := by
    unfold headerSize at *
    omega
  exact ⟨by rw [nodes_append, nodes_cons, hA], by simp [Block.width, ← hA, h1, h2]⟩

/-- The sizes of the two parts. -/
theorem cut_sizes (hh : Holds h (pre ++ b :: post)) {n rest : ℕ} (hn : 0 < n)
    (hdvd : memoryAlign ∣ n) (hpos : 0 < rest) (hsplit : b.size = n + headerSize + rest) :
    ∀ c ∈ [({ b with size := n } : Block), ⟨rest, true⟩], 0 < c.size ∧ memoryAlign ∣ c.size := by
  intro c hc
  have hb := hh.sizes b (by simp)
  have hrest : rest = b.size - n - 32 := by
    unfold headerSize at hsplit
    omega
  simp only [List.mem_cons, List.not_mem_nil, or_false] at hc
  rcases hc with rfl | rfl
  · exact ⟨hn, hdvd⟩
  · exact ⟨hpos, hrest ▸ Nat.dvd_sub (Nat.dvd_sub hb.2 hdvd) memoryAlign_dvd_32⟩

omit [Platform] in
/-- A byte outside of the block, and in no node of another one, is in no node after the cut. -/
theorem outside_cut_nodes (post : List Block) {A n rest x : ℕ} (hA : A = stop h.buffer pre)
    (hsplit : b.size = n + headerSize + rest) (hx : x < A ∨ A + b.width ≤ x)
    (hothers : ∀ q c, ((q, c) ∈ placed h.buffer pre ∨ (q, c) ∈ placed (A + b.width) post) →
      x < q + 8 ∨ q + 24 ≤ x) :
    ∀ k ∈ nodes h.buffer (pre ++ [{ b with size := n }, ⟨rest, true⟩] ++ post),
      x < k ∨ k + 16 ≤ x := by
  intro k hk
  rw [(nodes_cut post hA hsplit).2] at hk
  simp only [List.mem_append, List.mem_cons] at hk
  rcases hk with hk | rfl | rfl | hk
  · obtain ⟨q, c, hq, rfl⟩ := mem_nodes.1 hk
    exact hothers q c (Or.inl hq)
  · unfold blockNode Block.width headerSize at *
    omega
  · unfold blockNode Block.width headerSize at *
    omega
  · obtain ⟨q, c, hq, rfl⟩ := mem_nodes.1 hk
    exact hothers q c (Or.inr hq)

/-- **The two parts of a block**, once the second one is in the list. -/
theorem cut_holds (hh : Holds h (pre ++ b :: post)) {A n rest : ℕ} (hA : A = stop h.buffer pre)
    (hn : 0 < n) (hdvd : memoryAlign ∣ n) (hpos : 0 < rest)
    (hsplit : b.size = n + headerSize + rest) {blocks : DoublyLinkedList} {m : Words.Memory}
    (hblocks : blocks.Holds m
      (nodes h.buffer (pre ++ [{ b with size := n }, ⟨rest, true⟩] ++ post)))
    (hrel : Relinked (nodes h.buffer (pre ++ [{ b with size := n }, ⟨rest, true⟩] ++ post))
      (cutHeaders h.mem A n rest) m) :
    Becomes h (starts h.buffer (pre ++ [{ b with size := n }, ⟨rest, true⟩] ++ post))
      (pre ++ [{ b with size := n }, ⟨rest, true⟩] ++ post) { h with mem := m, blocks } := by
  obtain ⟨hheaderA, hheaderS, -⟩ := cutHeaders_spec hh hA hsplit
  have hS : A + headerSize + n = A + 32 + n := rfl
  have hmemA : (A, ({ b with size := n } : Block)) ∈
      placed h.buffer (pre ++ [{ b with size := n }, ⟨rest, true⟩] ++ post) := by simp [hA]
  have hmemS : (A + headerSize + n, (⟨rest, true⟩ : Block)) ∈
      placed h.buffer (pre ++ [{ b with size := n }, ⟨rest, true⟩] ++ post) := by
    simp [Block.width, ← hA, Nat.add_assoc]
  have hout : ∀ {q c x}, (q, c) ∈
        placed h.buffer (pre ++ [{ b with size := n }, ⟨rest, true⟩] ++ post) →
      q ≤ x ∧ x < q + 8 ∨ x = q + 24 → m x = cutHeaders h.mem A n rest x :=
    fun hq hx => hrel.outside (header_outside_nodes hq hx)
  have hh' : Holds h (pre ++ [b] ++ post) := by simpa using hh
  refine ⟨rfl, rfl, hh'.replace rfl rfl ?_ ?_ ?_ ?_ hblocks, fun x hx => ?_⟩
  · simp only [stop_cons, stop_nil, Block.width]
    unfold headerSize at *
    omega
  · exact cut_sizes hh hn hdvd hpos hsplit
  · -- a byte outside of the block that belongs to no node of the others
    intro x hx hothers
    simp only [stop_append, stop_cons, stop_nil, ← hA] at hx hothers
    show m x = h.mem x
    rw [hrel.outside (outside_cut_nodes post hA hsplit hx hothers), cutHeaders_outside] <;>
      (unfold Block.width headerSize at *; omega)
  · intro q c hq
    simp only [placed_cons, placed_nil, List.mem_cons, Prod.mk.injEq, List.not_mem_nil,
      or_false] at hq
    rcases hq with ⟨rfl, rfl⟩ | ⟨rfl, rfl⟩
    · rw [← hA]
      exact hheaderA.congr (fun x h1 h2 => hout hmemA (by omega)) (hout hmemA (by omega))
    · have hS' : stop h.buffer pre + Block.width { b with size := n } = A + headerSize + n := by
        rw [← hA, Block.width, Nat.add_assoc]
      rw [hS']
      exact hheaderS.congr (fun x h1 h2 => hout hmemS (by omega)) (hout hmemS (by omega))
  · have hfar : ∀ q c, (q, c) ∈ placed h.buffer
        (pre ++ [{ b with size := n }, ⟨rest, true⟩] ++ post) → x < q ∨ q + 32 ≤ x :=
      fun q c hq => hx q (mem_starts.2 ⟨c, hq⟩)
    have hxA := hfar A _ hmemA
    have hxS := hfar _ _ hmemS
    show m x = h.mem x
    rw [hrel.outside, cutHeaders_outside (by omega) (by omega) (by omega)]
    intro k hk
    obtain ⟨q, c, hq, rfl⟩ := mem_nodes.1 hk
    have := hfar q c hq
    unfold blockNode
    omega

/-- **A block is cut.** -/
theorem splitBlock_spec (hh : Holds h (pre ++ b :: post)) {n : ℕ} (hn : 0 < n)
    (hdvd : memoryAlign ∣ n) (hle : n ≤ b.size) :
    Sat (splitBlock h (stop h.buffer pre) n)
      (Becomes h (starts h.buffer (pre ++ b.cut n ++ post)) (pre ++ b.cut n ++ post)) := by
  have hheader := hh.headers _ _ (mem_placed_middle h.buffer)
  obtain ⟨hlow, hhigh⟩ := hh.bounds
  have hmax := hh.stop_le
  have halign := memoryAlign_pos
  unfold splitBlock
  rw [hheader.size_eq, sizeSub_of_le hle, ok_bind]
  by_cases hroom : b.size - n ≤ headerSize + memoryAlign
  · rw [if_pos hroom, Block.cut, if_pos hroom]
    exact Sat.ok ⟨rfl, rfl, by simpa using hh, fun _ _ => rfl⟩
  rw [if_neg hroom, Block.cut, if_neg hroom, sizeSub_of_le (by omega), ok_bind]
  set A := stop h.buffer pre with hA
  set rest := b.size - n - headerSize with hrest
  have hsplit : b.size = n + headerSize + rest := by omega
  obtain ⟨-, -, hlist⟩ := cutHeaders_spec hh hA hsplit
  obtain ⟨hold, hnew⟩ := nodes_cut post hA hsplit
  have hS : A + headerSize + n + 8 ≤ sizeMax := by
    unfold headerSize at *
    omega
  -- the node of the second part is apart from those in the list
  have hapart : ∀ k ∈ nodes h.buffer (pre ++ b :: post),
      A + headerSize + n + 8 + 16 ≤ k ∨ k + 16 ≤ A + headerSize + n + 8 := by
    intro k hk
    obtain ⟨q, c, hq, rfl⟩ := mem_nodes.1 hk
    have := placed_separated (mem_placed_middle h.buffer) hq
    unfold blockNode headerSize at *
    omega
  obtain ⟨⟨blocks, m⟩, hinsert, hblocks, hrel⟩ :=
    insertAfter_spec (n := blockNode (A + headerSize + n)) (hold ▸ hlist) (by simp [blockNode])
      hS (fun k hk => hapart k (hold ▸ hk)) (by rw [hh.size_eq]; exact hh.length_lt)
  rw [← hnew] at hblocks hrel
  change Sat (h.blocks.insertAfter (cutHeaders h.mem A n rest) (blockNode A)
    (blockNode (A + headerSize + n)) >>= _) _
  rw [hinsert, ok_bind]
  exact Sat.ok (cut_holds hh hA hn hdvd (by omega) hsplit hblocks hrel)

omit [Platform] in
/-- The list of the free blocks without the one that is taken in. -/
theorem nodes_merged (post : List Block) {c : Block} {A : ℕ} (hA : A = stop h.buffer pre) :
    nodes h.buffer (pre ++ b :: c :: post) =
        (nodes h.buffer pre ++ [blockNode A]) ++
          blockNode (A + b.width) :: nodes (A + b.width + c.width) post ∧
      nodes h.buffer (pre ++ [b.merge c] ++ post) =
        (nodes h.buffer pre ++ [blockNode A]) ++ nodes (A + b.width + c.width) post :=
  ⟨by simp [hA], by simp [hA, width_merge, Nat.add_assoc]⟩

/-- **The two blocks as one**, once the second one is out of the list. -/
theorem merged_holds {c : Block} (hh : Holds h (pre ++ b :: c :: post)) {A : ℕ}
    (hA : A = stop h.buffer pre) (hfit : b.size + (headerSize + c.size) ≤ sizeMax)
    {blocks : DoublyLinkedList} {m : Words.Memory}
    (hblocks : blocks.Holds m (nodes h.buffer (pre ++ [b.merge c] ++ post)))
    (hrel : Relinked (nodes h.buffer (pre ++ b :: c :: post))
      (setSize h.mem A (b.size + (headerSize + c.size))) m) :
    Becomes h (starts h.buffer (pre ++ b :: c :: post)) (pre ++ b.merge c :: post)
      { h with mem := m, blocks } := by
  have hmemA : (A, b) ∈ placed h.buffer (pre ++ b :: c :: post) := hA ▸ mem_placed_middle h.buffer
  have hheaderA := hh.headers _ _ hmemA
  have hh' : Holds h (pre ++ [b, c] ++ post) := by simpa using hh
  have hstop : stop h.buffer (pre ++ [b, c]) = A + b.width + c.width := by simp [hA]
  have hholds : Holds { h with mem := m, blocks } (pre ++ [b.merge c] ++ post) := by
    refine hh'.replace rfl rfl ?_ ?_ ?_ ?_ hblocks
    · simp [width_merge, Nat.add_assoc]
    · intro d hd
      have h1 := hh.sizes b (by simp)
      have h2 := hh.sizes c (by simp)
      rw [List.mem_singleton.1 hd]
      exact ⟨Nat.lt_of_lt_of_le h1.1 (Nat.le_add_right _ _),
        h1.2.add ((memoryAlign_dvd_32).add h2.2)⟩
    · -- the header and the node of the second block are now in the middle of the first
      intro x hx hothers
      rw [hstop, ← hA] at hx
      have hfar : ∀ k ∈ nodes h.buffer (pre ++ b :: c :: post), x < k ∨ k + 16 ≤ x := by
        intro k hk
        obtain ⟨q, d, hq, rfl⟩ := mem_nodes.1 hk
        rw [show pre ++ b :: c :: post = pre ++ [b, c] ++ post by simp, placed_append,
          List.mem_append, placed_append, List.mem_append] at hq
        rcases hq with (hq | hq) | hq
        · exact hothers q d (Or.inl hq)
        · rw [placed_cons, placed_cons, placed_nil] at hq
          simp only [List.mem_cons, Prod.mk.injEq, List.not_mem_nil, or_false] at hq
          unfold blockNode Block.width headerSize at *
          omega
        · exact hothers q d (Or.inr hq)
      show m x = h.mem x
      rw [hrel.outside hfar, setSize_outside]
      unfold Block.width headerSize at hx
      omega
    · intro q d hq
      simp only [placed_cons, placed_nil, List.mem_singleton, Prod.mk.injEq] at hq
      obtain ⟨rfl, rfl⟩ := hq
      rw [← hA]
      exact (hheaderA.setSize hfit).congr
        (fun x h1 h2 => hrel.outside (header_outside_nodes hmemA (by omega)))
        (hrel.outside (header_outside_nodes hmemA (by omega)))
  refine ⟨rfl, rfl, by simpa using hholds, fun x hx => ?_⟩
  have hfar : ∀ q d, (q, d) ∈ placed h.buffer (pre ++ b :: c :: post) → x < q ∨ q + 32 ≤ x :=
    fun q d hq => hx q (mem_starts.2 ⟨d, hq⟩)
  have hxA := hfar A _ hmemA
  show m x = h.mem x
  rw [hrel.outside, setSize_outside (by omega)]
  intro k hk
  obtain ⟨q, d, hq, rfl⟩ := mem_nodes.1 hk
  have := hfar q d hq
  unfold blockNode
  omega

/-- **A block takes in the one behind it.** -/
theorem absorb_spec {c : Block} (hh : Holds h (pre ++ b :: c :: post)) :
    Sat (absorb h (stop h.buffer pre) (stop h.buffer pre + b.width))
      (Becomes h (starts h.buffer (pre ++ b :: c :: post)) (pre ++ b.merge c :: post)) := by
  obtain ⟨A, hA⟩ : ∃ A, A = stop h.buffer pre := ⟨_, rfl⟩
  have hmemA : (A, b) ∈ placed h.buffer (pre ++ b :: c :: post) := hA ▸ mem_placed_middle h.buffer
  have hmemC : (A + b.width, c) ∈ placed h.buffer (pre ++ b :: c :: post) := by simp [hA]
  have hhigh := (mem_placed hmemC).2.2
  rw [hh.stop_eq] at hhigh
  have hmax := hh.stop_le
  have hfit : b.size + (headerSize + c.size) ≤ sizeMax := by
    unfold Block.width headerSize at *
    omega
  obtain ⟨hold, hnew⟩ := nodes_merged post hA
  have hlist : h.blocks.Holds (setSize h.mem A (b.size + (headerSize + c.size)))
      (nodes h.buffer (pre ++ b :: c :: post)) :=
    hh.list.congr fun k hk x h1 h2 => by
      obtain ⟨q, d, hq, rfl⟩ := mem_nodes.1 hk
      have := placed_separated hmemA hq
      unfold blockNode headerSize at *
      exact setSize_outside (by omega)
  obtain ⟨⟨blocks, m⟩, hremove, hblocks, hrel, -, -⟩ := remove_spec (hold ▸ hlist)
  rw [← hnew] at hblocks
  rw [← hold] at hrel
  unfold absorb
  rw [← hA, (hh.headers _ _ hmemA).size_eq, (hh.headers _ _ hmemC).size_eq,
    sizeAdd_of_le (by omega), ok_bind, sizeAdd_of_le hfit, ok_bind]
  change Sat (h.blocks.remove (setSize h.mem A _) (blockNode (A + b.width)) >>= _) _
  rw [hremove, ok_bind]
  exact Sat.ok (merged_holds hh hA hfit hblocks hrel)

end OneBlock

end Heap
end K4c
