import Mathlib.Tactic
import K4c.Hash.Common
import K4c.Lib.Rows

/-!
# What the bucket calls do

A bucket array in memory is a function from bucket numbers to lists of entries.
`Linked` says that entries are linked in a given order, up to a node that the last
one points to, and `Arrayed` that every bucket of an array is the head of such a
list, with no entry in two places.

* `capacityForSize_spec` — the loop over the capacities ends, with the smallest one that
  is large enough; `shouldGrow_eq_false` — what is large enough.
* `bucketPushfront_spec`, `bucketFind_spec`, `bucketRemove_spec` — the three calls
  on one bucket, on its list.
* `bucketsRehash_spec` — the entries are the same ones afterwards, each in the
  bucket of its hash, whatever order the walk relinks them in.
* `bucketsDestroy_spec` — every entry is released, and the array.
-/

namespace K4c

open Exec Bytes Blocks Rows
open scoped List

/-- An entry: its block, and its bytes behind the header. -/
structure Entry where
  block : ℕ
  data : List UInt8
  deriving DecidableEq, Repr

/-! ## Memory accesses -/

namespace Memory

variable {w : Memory} {p n next hash : ℕ} {data bs : List UInt8} {heads : List ℕ}

theorem entryNext_eq (h : w.cells p = some ⟨n, .entry next hash data⟩) :
    w.entryNext p = .ok next := by
  rw [entryNext, Mem.load_eq h]
  rfl

theorem entryHash_eq (h : w.cells p = some ⟨n, .entry next hash data⟩) :
    w.entryHash p = .ok hash := by
  rw [entryHash, Mem.load_eq h]
  rfl

theorem setEntryNext_eq (h : w.cells p = some ⟨n, .entry next hash data⟩) (q : ℕ) :
    ∃ w', w.setEntryNext p q = .ok w' ∧
      w'.cells = Function.update w.cells p (some ⟨n, .entry q hash data⟩) := by
  obtain ⟨w', hstore, hcells⟩ := Mem.store_eq h (.entry q hash data)
  refine ⟨w', ?_, hcells⟩
  rw [setEntryNext, Mem.load_eq h]
  exact hstore

theorem setEntryHash_eq [Platform] (h : w.cells p = some ⟨n, .bytes bs⟩)
    (hle : sizeofEntry ≤ bs.length) (hash : ℕ) :
    ∃ link w', w.setEntryHash p hash = .ok w' ∧ w'.cells =
      Function.update w.cells p (some ⟨n, .entry link hash (bs.drop sizeofEntry)⟩) := by
  set link := (bs.take 8).foldr (fun b n => b.toNat + 256 * n) 0 with hlink
  obtain ⟨w', hstore, hcells⟩ := Mem.store_eq h (.entry link hash (bs.drop sizeofEntry))
  refine ⟨link, w', ?_, hcells⟩
  rw [setEntryHash, Mem.load_eq h]
  change (if sizeofEntry ≤ bs.length then _ else _) = _
  rw [if_pos hle]
  exact hstore

theorem clearBuckets_eq {size : ℕ} (h : w.cells p = some ⟨n, .bytes bs⟩) (hle : size ≤ bs.length) :
    ∃ w', w.clearBuckets p size = .ok w' ∧ w'.cells =
      Function.update w.cells p (some ⟨n, .buckets (List.replicate (size / sizeofBucket) 0)⟩) := by
  obtain ⟨w', hstore, hcells⟩ :=
    Mem.store_eq h (.buckets (List.replicate (size / sizeofBucket) 0))
  refine ⟨w', ?_, hcells⟩
  rw [clearBuckets, Mem.load_eq h]
  change (if size ≤ bs.length then _ else _) = _
  rw [if_pos hle, hstore]

theorem bucketHead_eq {i head : ℕ} (h : w.cells p = some ⟨n, .buckets heads⟩)
    (hi : heads[i]? = some head) : w.bucketHead p i = .ok head := by
  rw [bucketHead, Mem.load_eq h, ok_bind]
  dsimp only
  rw [hi]

theorem setBucketHead_eq {i : ℕ} (h : w.cells p = some ⟨n, .buckets heads⟩)
    (hi : i < heads.length) (node : ℕ) : ∃ w', w.setBucketHead p i node = .ok w' ∧
      w'.cells = Function.update w.cells p (some ⟨n, .buckets (heads.set i node)⟩) := by
  obtain ⟨w', hstore, hcells⟩ := Mem.store_eq h (.buckets (heads.set i node))
  refine ⟨w', ?_, hcells⟩
  rw [setBucketHead, Mem.load_eq h]
  change (if i < heads.length then _ else _) = _
  rw [if_pos hi, hstore]

end Memory

namespace HashCommon

variable {size n b cap i stop : ℕ} {hash : Entry → ℕ} {w w' : Memory} {e : Entry}
  {es es' pre post row : List Entry} {rows : ℕ → List Entry}

/-! ## Lists of entries -/

/-- The node that a list starts with, before it comes to `stop`. -/
def first (es : List Entry) (stop : ℕ) : ℕ := (es.map Entry.block).headD stop

theorem first_append (es es' : List Entry) (stop : ℕ) :
    first (es ++ es') stop = first es (first es' stop) := by
  cases es <;> rfl

/-- The entries are linked in this order; the last one points to `stop`. -/
def Linked (size : ℕ) (hash : Entry → ℕ) (w : Memory) : List Entry → ℕ → Prop
  | [], _ => True
  | e :: es, stop => w.cells e.block = some ⟨size, .entry (first es stop) (hash e) e.data⟩ ∧
      Linked size hash w es stop

theorem linked_append : ∀ {es : List Entry}, Linked size hash w (es ++ es') stop ↔
    Linked size hash w es (first es' stop) ∧ Linked size hash w es' stop := by
  intro es
  induction es with
  | nil => simp [Linked]
  | cons e es ih => rw [List.cons_append, Linked, Linked, ih, first_append, and_assoc]

theorem Linked.cell (h : Linked size hash w es stop) (he : e ∈ es) :
    ∃ next, w.cells e.block = some ⟨size, .entry next (hash e) e.data⟩ := by
  induction es with
  | nil => cases he
  | cons d es ih =>
    rcases List.mem_cons.1 he with rfl | he
    · exact ⟨_, h.1⟩
    · exact ih h.2 he

theorem Linked.live (h : Linked size hash w es stop) : ∀ e ∈ es, w.Live e.block := by
  intro e he
  obtain ⟨next, hcell⟩ := h.cell he
  exact Mem.live_of hcell

/-- The cells of other blocks do not matter. -/
theorem Linked.frame (h : Linked size hash w es stop)
    (hsame : ∀ e ∈ es, w'.cells e.block = w.cells e.block) : Linked size hash w' es stop := by
  induction es with
  | nil => trivial
  | cons d es ih =>
    refine ⟨?_, ih h.2 fun e he => hsame e (List.mem_cons_of_mem d he)⟩
    rw [hsame d (List.mem_cons_self ..), h.1]

/-- The hashes that are stored are those of another function. -/
theorem Linked.congr {hash' : Entry → ℕ} (h : Linked size hash w es stop)
    (hhash : ∀ e ∈ es, hash' e = hash e) : Linked size hash' w es stop := by
  induction es with
  | nil => trivial
  | cons e es ih =>
    refine ⟨?_, ih h.2 fun d hd => hhash d (by simp [hd])⟩
    rw [hhash e (by simp)]
    exact h.1

/-- A list is shorter than the number of blocks that were ever handed out. -/
theorem Linked.length_lt (h : Linked size hash w es stop) (hn : (es.map Entry.block).Nodup) :
    es.length < w.next := by
  have hsub : (es.map Entry.block).toFinset ⊆ Finset.Ioo 0 w.next := by
    intro p hp
    rw [List.mem_toFinset, List.mem_map] at hp
    obtain ⟨e, he, rfl⟩ := hp
    have hlive := h.live e he
    exact Finset.mem_Ioo.2 ⟨Nat.pos_of_ne_zero (Mem.ne_zero_of_live hlive),
      Mem.lt_next_of_live hlive⟩
  have hcard := Finset.card_le_card hsub
  rw [List.toFinset_card_of_nodup hn, List.length_map, Nat.card_Ioo] at hcard
  have := w.next_pos
  omega

/-! ## Arrays of lists -/

/-- Every bucket of the array is the head of its list, and no entry is in two
places. -/
structure Arrayed (size : ℕ) (hash : Entry → ℕ) (w : Memory) (b cap : ℕ)
    (rows : ℕ → List Entry) : Prop where
  array : w.cells b =
    some ⟨sizeofBucket * cap, .buckets ((List.range cap).map fun i => first (rows i) 0)⟩
  linked : ∀ i < cap, Linked size hash w (rows i) 0
  nodup : ((flat rows cap).map Entry.block).Nodup

theorem getElem?_heads (hi : i < cap) :
    ((List.range cap).map fun i => first (rows i) 0)[i]? = some (first (rows i) 0) := by
  rw [List.getElem?_map, List.getElem?_range hi]
  rfl

theorem set_heads (hi : i < cap) (row : List Entry) :
    (((List.range cap).map fun i => first (rows i) 0).set i (first row 0)) =
      (List.range cap).map fun j => first (Function.update rows i row j) 0 := by
  apply List.ext_getElem?
  intro j
  rw [List.getElem?_set, List.getElem?_map, List.getElem?_map]
  by_cases hij : i = j
  · subst hij
    rw [if_pos rfl, if_pos (by simpa using hi), List.getElem?_range hi, Option.map_some,
      Function.update_self]
  · rw [if_neg hij]
    rcases (List.range cap)[j]?.eq_none_or_eq_some with hnone | ⟨k, hk⟩
    · rw [hnone]
      rfl
    · obtain ⟨hj, rfl⟩ := List.getElem?_eq_some_iff.1 hk
      rw [hk, Option.map_some, Option.map_some, List.getElem_range,
        Function.update_of_ne (Ne.symm hij)]

namespace Arrayed

theorem cell (h : Arrayed size hash w b cap rows) (he : e ∈ flat rows cap) :
    ∃ next, w.cells e.block = some ⟨size, .entry next (hash e) e.data⟩ := by
  obtain ⟨i, hi, hmem⟩ := mem_flat.1 he
  exact (h.linked i hi).cell hmem

theorem live (h : Arrayed size hash w b cap rows) : ∀ p ∈ (flat rows cap).map Entry.block,
    w.Live p := by
  intro p hp
  obtain ⟨e, he, rfl⟩ := List.mem_map.1 hp
  obtain ⟨next, hcell⟩ := h.cell he
  exact Mem.live_of hcell

/-- The array is not an entry. -/
theorem ne_array (h : Arrayed size hash w b cap rows) (he : e ∈ flat rows cap) :
    e.block ≠ b := by
  obtain ⟨next, hcell⟩ := h.cell he
  rintro heq
  rw [heq, h.array] at hcell
  cases hcell

theorem array_notMem (h : Arrayed size hash w b cap rows) :
    b ∉ (flat rows cap).map Entry.block := by
  intro hin
  obtain ⟨e, he, heq⟩ := List.mem_map.1 hin
  exact h.ne_array he heq

theorem head (h : Arrayed size hash w b cap rows) (hi : i < cap) :
    w.bucketHead b i = .ok (first (rows i) 0) :=
  Memory.bucketHead_eq h.array (getElem?_heads hi)

theorem nodup_row (h : Arrayed size hash w b cap rows) (hi : i < cap) :
    ((rows i).map Entry.block).Nodup := h.nodup.sublist ((sublist_flat hi).map _)

theorem length_lt (h : Arrayed size hash w b cap rows) (hi : i < cap) :
    (rows i).length < w.next := (h.linked i hi).length_lt (h.nodup_row hi)

/-- In a memory in which the array and the entries are as they were. -/
theorem frame (h : Arrayed size hash w b cap rows) (harray : w'.cells b = w.cells b)
    (hsame : ∀ e ∈ flat rows cap, w'.cells e.block = w.cells e.block) :
    Arrayed size hash w' b cap rows where
  array := by rw [harray, h.array]
  linked i hi := (h.linked i hi).frame fun e he => hsame e (mem_flat.2 ⟨i, hi, he⟩)
  nodup := h.nodup

theorem congr {hash' : Entry → ℕ} (h : Arrayed size hash w b cap rows)
    (hhash : ∀ e ∈ flat rows cap, hash' e = hash e) : Arrayed size hash' w b cap rows where
  array := h.array
  linked i hi := (h.linked i hi).congr fun e he => hhash e (mem_flat.2 ⟨i, hi, he⟩)
  nodup := h.nodup

/-- One list was replaced. -/
theorem update (h : Arrayed size hash w b cap rows)
    (harray : w'.cells b = some ⟨sizeofBucket * cap, .buckets
      ((List.range cap).map fun j => first (Function.update rows i row j) 0)⟩)
    (hrow : Linked size hash w' row 0)
    (hother : ∀ j < cap, j ≠ i → ∀ e ∈ rows j, w'.cells e.block = w.cells e.block)
    (hnodup : ((flat (Function.update rows i row) cap).map Entry.block).Nodup) :
    Arrayed size hash w' b cap (Function.update rows i row) where
  array := harray
  linked j hj := by
    by_cases hij : j = i
    · subst hij
      rw [Function.update_self]
      exact hrow
    · rw [Function.update_of_ne hij]
      exact (h.linked j hj).frame (hother j hj hij)
  nodup := hnodup

/-- The data of entries was written to. -/
theorem rewrite (h : Arrayed size hash w b cap rows) {f : Entry → Entry}
    (hblock : ∀ e, (f e).block = e.block) (hhash : ∀ e ∈ flat rows cap, hash (f e) = hash e)
    (harray : w'.cells b = w.cells b)
    (hcells : ∀ e ∈ flat rows cap, ∀ next,
      w.cells e.block = some ⟨size, .entry next (hash e) e.data⟩ →
        w'.cells e.block = some ⟨size, .entry next (hash e) (f e).data⟩) :
    Arrayed size hash w' b cap fun i => (rows i).map f := by
  have hblocks : ∀ es : List Entry, (es.map f).map Entry.block = es.map Entry.block := by
    intro es
    rw [List.map_map]
    exact List.map_congr_left fun e _ => hblock e
  have hfirst : ∀ es stop, first (es.map f) stop = first es stop := fun es stop => by
    rw [first, first, hblocks]
  have hlinked : ∀ {es}, (∀ e ∈ es, e ∈ flat rows cap) → Linked size hash w es 0 →
      Linked size hash w' (es.map f) 0 := by
    intro es
    induction es with
    | nil => intro _ _; trivial
    | cons e es ih =>
      rintro hmem ⟨hcell, htail⟩
      have he := hmem e (by simp)
      refine ⟨?_, ih (fun d hd => hmem d (by simp [hd])) htail⟩
      rw [hblock, hhash e he, hfirst, hcells e he _ hcell]
  have hflat : flat (fun i => (rows i).map f) cap = (flat rows cap).map f := by
    rw [flat, flat, List.map_flatMap]
  refine ⟨?_, fun i hi => hlinked (fun e he => mem_flat.2 ⟨i, hi, he⟩) (h.linked i hi), ?_⟩
  · rw [harray, h.array]
    simp only [hfirst]
  · rw [hflat, hblocks]
    exact h.nodup

end Arrayed

/-! ## One bucket -/

/-- **An entry at the front** of a bucket. -/
theorem bucketPushfront_spec (h : Arrayed size hash w b cap rows) (hi : i < cap) {next : ℕ}
    (hcell : w.cells e.block = some ⟨size, .entry next (hash e) e.data⟩)
    (hnew : e.block ∉ (flat rows cap).map Entry.block) :
    ∃ w', bucketPushfront b i e.block w = .ok w' ∧
      Arrayed size hash w' b cap (Function.update rows i (e :: rows i)) ∧
      ∀ p, p ≠ b → p ≠ e.block → w'.cells p = w.cells p := by
  have hne : e.block ≠ b := by
    rintro heq
    rw [heq, h.array] at hcell
    cases hcell
  have hnode : e.block ≠ 0 := Mem.ne_zero_of_live (Mem.live_of hcell)
  obtain ⟨w₁, hset₁, hcells₁⟩ := Memory.setEntryNext_eq hcell (first (rows i) 0)
  have harray₁ : w₁.cells b = some ⟨sizeofBucket * cap, .buckets
      ((List.range cap).map fun i => first (rows i) 0)⟩ := by
    rw [hcells₁, Function.update_of_ne hne.symm, h.array]
  obtain ⟨w₂, hset₂, hcells₂⟩ :=
    Memory.setBucketHead_eq harray₁ (i := i) (by simpa using hi) e.block
  have hsame : ∀ p, p ≠ b → p ≠ e.block → w₂.cells p = w.cells p := by
    intro p hpb hpe
    rw [hcells₂, Function.update_of_ne hpb, hcells₁, Function.update_of_ne hpe]
  have hkept : ∀ d ∈ flat rows cap, w₂.cells d.block = w.cells d.block := fun d hd =>
    hsame _ (h.ne_array hd) fun heq => hnew (heq ▸ List.mem_map_of_mem hd)
  refine ⟨w₂, ?_, h.update ?_ ⟨?_, ?_⟩ ?_ ?_, hsame⟩
  · rw [bucketPushfront, check_of hnode, ok_bind, h.head hi, ok_bind, hset₁, ok_bind, hset₂]
  · rw [hcells₂, Function.update_self, ← set_heads hi]
    rfl
  · rw [hcells₂, Function.update_of_ne hne, hcells₁, Function.update_self]
  · exact (h.linked i hi).frame fun d hd => hkept d (mem_flat.2 ⟨i, hi, hd⟩)
  · exact fun j hj _ d hd => hkept d (mem_flat.2 ⟨j, hj, hd⟩)
  · apply ((flat_push_perm rows hi e).map Entry.block).nodup_iff.2
    exact List.nodup_cons.2 ⟨hnew, h.nodup⟩

/-! ## Searching a bucket -/

/-- The accessors of a query are those of the two containers. -/
structure Query.Plain (q : Query) : Prop where
  value : ∀ node, q.entryValue node = ⟨node, 0⟩
  hash : ∀ w node, q.entryHash w node = w.entryHash node
  pos : 0 < q.value.length

/-- The entry is one that the query is for. -/
def Query.hits (q : Query) (hash : Entry → ℕ) (e : Entry) : Bool :=
  decide (hash e = q.hash) &&
    HashCommon.valueEq (slice e.data 0 q.value.length) q.value q.valueEq

variable {q : Query}

theorem Query.matches_eq (hq : q.Plain) {next : ℕ}
    (hcell : w.cells e.block = some ⟨size, .entry next (hash e) e.data⟩)
    (hlen : q.value.length ≤ e.data.length) : q.matches w e.block = .ok (q.hits hash e) := by
  rw [Query.matches, hq.hash, Memory.entryHash_eq hcell, ok_bind]
  by_cases heq : hash e = q.hash
  · rw [if_pos heq, hq.value]
    change (w.read e.block 0 q.value.length >>= _) = _
    rw [Memory.read_reach hcell rfl (by omega), Query.hits, heq]
    simp
  · rw [if_neg heq, Query.hits]
    simp [heq]

/-- **A search** returns the first entry of the list that it is for. -/
theorem bucketFind_spec (h : Arrayed size hash w b cap rows) (hi : i < cap) (hq : q.Plain)
    (hlen : ∀ e ∈ rows i, q.value.length ≤ e.data.length) :
    bucketFind b i q w = .ok (((rows i).find? (q.hits hash)).elim 0 Entry.block) := by
  have hwalk : ∀ (es : List Entry) (fuel : ℕ), Linked size hash w es 0 →
      (∀ e ∈ es, q.value.length ≤ e.data.length) → es.length < fuel →
      loop (bucketFindRound q w) fuel (first es 0) =
        .ok ((es.find? (q.hits hash)).elim 0 Entry.block) := by
    intro es
    induction es with
    | nil =>
      intro fuel _ _ hfuel
      obtain ⟨k, rfl⟩ : ∃ k, fuel = k + 1 := ⟨fuel - 1, by omega⟩
      exact loop_of_inr rfl k
    | cons d es ih =>
      intro fuel hlinked hlen hfuel
      obtain ⟨k, rfl⟩ : ∃ k, fuel = k + 1 := ⟨fuel - 1, by omega⟩
      obtain ⟨hcell, htail⟩ := hlinked
      have hnode : d.block ≠ 0 := Mem.ne_zero_of_live (Mem.live_of hcell)
      have hbody : bucketFindRound q w d.block = (q.matches w d.block >>= fun found =>
          if found then .ok (.inr d.block)
          else w.entryNext d.block >>= fun next => .ok (.inl next)) := by
        rw [bucketFindRound]
        exact if_pos hnode
      rw [q.matches_eq hq hcell (hlen d (by simp)), ok_bind] at hbody
      change loop (bucketFindRound q w) (k + 1) d.block = _
      cases hhit : q.hits hash d with
      | true =>
        rw [hhit, if_pos rfl] at hbody
        rw [loop_of_inr hbody, List.find?_cons, hhit]
        rfl
      | false =>
        rw [hhit, if_neg (by decide), Memory.entryNext_eq hcell, ok_bind] at hbody
        rw [loop_of_inl hbody, List.find?_cons, hhit]
        exact ih k htail (fun e he => hlen e (by simp [he])) (by simpa using hfuel)
  rw [bucketFind, check_of hq.pos, ok_bind, h.head hi, ok_bind]
  exact hwalk _ _ (h.linked i hi) hlen (h.length_lt hi)

/-! ## Taking an entry out of a bucket -/

/-- The walk of `bucket_remove` passes the entries that the query is not for. -/
theorem remove_walk (hq : q.Plain) : ∀ (pre post : List Entry) (prev fuel : ℕ),
    Linked size hash w (pre ++ post) 0 → (∀ e ∈ pre, q.value.length ≤ e.data.length) →
    (∀ e ∈ pre, q.hits hash e = false) →
    loop (bucketRemoveRound b i q w) (pre.length + fuel) (prev, first (pre ++ post) 0) =
      loop (bucketRemoveRound b i q w) fuel ((pre.map Entry.block).getLastD prev, first post 0)
    := by
  intro pre
  induction pre with
  | nil =>
    intro post prev fuel _ _ _
    rw [List.length_nil, Nat.zero_add]
    rfl
  | cons d pre ih =>
    intro post prev fuel hlinked hlen hmiss
    obtain ⟨hcell, htail⟩ := hlinked
    have hnode : d.block ≠ 0 := Mem.ne_zero_of_live (Mem.live_of hcell)
    have hbody : bucketRemoveRound b i q w (prev, d.block) =
        .ok (.inl (d.block, first (pre ++ post) 0)) := by
      rw [bucketRemoveRound]
      dsimp only
      rw [if_pos hnode, q.matches_eq hq hcell (hlen d (by simp)), ok_bind,
        Memory.entryNext_eq hcell, ok_bind, hmiss d (by simp), if_neg (by decide)]
      rfl
    rw [List.length_cons, Nat.add_right_comm]
    change loop _ _ (prev, d.block) = _
    rw [loop_of_inl hbody, ih post d.block fuel htail (fun e he => hlen e (by simp [he]))
      (fun e he => hmiss e (by simp [he]))]
    cases pre <;> rfl

/-- **A removal** that finds nothing changes nothing. -/
theorem bucketRemove_miss (h : Arrayed size hash w b cap rows) (hi : i < cap) (hq : q.Plain)
    (hlen : ∀ e ∈ rows i, q.value.length ≤ e.data.length)
    (hmiss : ∀ e ∈ rows i, q.hits hash e = false) : bucketRemove b i q w = .ok (0, w) := by
  have hlt := h.length_lt hi
  have hwalk := remove_walk (b := b) (i := i) hq (rows i) [] 0 (w.next - (rows i).length)
    (by simpa using h.linked i hi) hlen hmiss
  rw [List.append_nil, Nat.add_sub_cancel' hlt.le] at hwalk
  rw [bucketRemove, check_of hq.pos, ok_bind, h.head hi, ok_bind, hwalk]
  obtain ⟨k, hk⟩ : ∃ k, w.next - (rows i).length = k + 1 := ⟨w.next - (rows i).length - 1, by omega⟩
  rw [hk]
  exact loop_of_inr rfl k

/-- The last entry of a list is made to point elsewhere. -/
theorem Linked.retarget {d : Entry} {t : ℕ} (h : Linked size hash w (pre ++ [d]) stop)
    (hsame : ∀ e ∈ pre, w'.cells e.block = w.cells e.block)
    (hd : w'.cells d.block = some ⟨size, .entry t (hash d) d.data⟩) :
    Linked size hash w' (pre ++ [d]) t := by
  rw [linked_append] at h ⊢
  exact ⟨h.1.frame hsame, hd, trivial⟩

/-- Without one entry of a row no block is in two places, and its block in none. -/
theorem Arrayed.without (h : Arrayed size hash w b cap rows) (hi : i < cap)
    (hrow : rows i = pre ++ e :: post) :
    ((flat (Function.update rows i (pre ++ post)) cap).map Entry.block).Nodup ∧
      e.block ∉ (flat (Function.update rows i (pre ++ post)) cap).map Entry.block := by
  have hperm := flat_splice_perm hi [] (show rows i = pre ++ [e] ++ post by simp [hrow])
  rw [List.append_nil, List.append_nil] at hperm
  have hnodup := (hperm.map Entry.block).nodup_iff.2 h.nodup
  rw [List.map_append, List.nodup_append] at hnodup
  exact ⟨hnodup.1, fun hin => hnodup.2.2 _ hin e.block (by simp) rfl⟩

/-- **Unlinking an entry**: what pointed to it points behind it. -/
theorem unlink_spec (h : Arrayed size hash w b cap rows) (hi : i < cap)
    (hrow : rows i = pre ++ e :: post) :
    ∃ w', (if (pre.map Entry.block).getLastD 0 = 0 then w.setBucketHead b i (first post 0)
        else w.setEntryNext ((pre.map Entry.block).getLastD 0) (first post 0)) = .ok w' ∧
      Arrayed size hash w' b cap (Function.update rows i (pre ++ post)) ∧
      w'.cells e.block = w.cells e.block ∧
      ∀ p, p ≠ b → p ∉ (flat rows cap).map Entry.block → w'.cells p = w.cells p := by
  have hmem : ∀ {d}, d ∈ pre ++ e :: post → d ∈ flat rows cap := fun hd =>
    mem_flat.2 ⟨i, hi, hrow ▸ hd⟩
  have hlinked := h.linked i hi
  rw [hrow, linked_append] at hlinked
  obtain ⟨hpre, hcell, hpost⟩ := hlinked
  obtain ⟨hnodup, hout⟩ := h.without hi hrow
  rcases List.eq_nil_or_concat pre with rfl | ⟨pre', d, hd⟩
  · -- the entry is the head of its bucket
    obtain ⟨w', hset, hcells⟩ :=
      Memory.setBucketHead_eq h.array (i := i) (by simpa using hi) (first post 0)
    have hsame : ∀ p, p ≠ b → w'.cells p = w.cells p := by
      intro p hp
      rw [hcells, Function.update_of_ne hp]
    refine ⟨w', by rw [← hset]; rfl, h.update ?_ ?_ ?_ hnodup, ?_, fun p hp _ => hsame p hp⟩
    · rw [hcells, Function.update_self, ← set_heads hi]
      rfl
    · exact hpost.frame fun c hc => hsame _ (h.ne_array (hmem (by simp [hc])))
    · exact fun j hj _ c hc => hsame _ (h.ne_array (mem_flat.2 ⟨j, hj, hc⟩))
    · exact hsame _ (h.ne_array (hmem (by simp)))
  · -- the entry comes behind `d`
    rw [List.concat_eq_append] at hd
    subst hd
    have hlast : ((pre' ++ [d]).map Entry.block).getLastD 0 = d.block := by simp
    have hdflat : d ∈ flat rows cap := hmem (by simp)
    have hcelld : w.cells d.block = some ⟨size, .entry e.block (hash d) d.data⟩ :=
      (linked_append.1 hpre).2.1
    obtain ⟨w', hset, hcells⟩ := Memory.setEntryNext_eq hcelld (first post 0)
    have hsame : ∀ p, p ≠ d.block → w'.cells p = w.cells p := by
      intro p hp
      rw [hcells, Function.update_of_ne hp]
    have hdne : ∀ c ∈ pre' ++ e :: post, c.block ≠ d.block := by
      have hnodupRow := h.nodup_row hi
      rw [hrow, List.append_assoc, List.map_append, List.nodup_append] at hnodupRow
      obtain ⟨-, htail, hapart⟩ := hnodupRow
      intro c hc
      rcases List.mem_append.1 hc with hc | hc
      · exact hapart _ (List.mem_map_of_mem hc) _ (by simp)
      · rw [List.singleton_append, List.map_cons, List.nodup_cons] at htail
        exact fun heq => htail.1 (heq ▸ List.mem_map_of_mem hc)
    refine ⟨w', ?_, h.update ?_ ?_ ?_ hnodup, hsame _ (hdne e (by simp)), fun p _ hp =>
      hsame p fun heq => hp (heq ▸ List.mem_map_of_mem hdflat)⟩
    · rw [hlast, if_neg (Mem.ne_zero_of_live (Mem.live_of hcelld)), hset]
    · rw [hsame b (h.ne_array hdflat).symm, h.array]
      congr 4
      funext j
      by_cases hij : j = i
      · subst hij
        rw [Function.update_self, hrow, first_append, first_append, List.append_assoc]
        cases pre' <;> rfl
      · rw [Function.update_of_ne hij]
    · rw [linked_append]
      refine ⟨hpre.retarget (fun c hc => hsame _ (hdne c (by simp [hc]))) ?_,
        hpost.frame fun c hc => hsame _ (hdne c (by simp [hc]))⟩
      rw [hcells, Function.update_self]
    · exact fun j hj hij c hc => hsame _
        (ne_of_ne_row h.nodup hj hi hij hc (hrow ▸ (by simp : d ∈ pre' ++ [d] ++ e :: post)))

/-- **A removal** takes the first entry out that the query is for.  Its block is
live still, and belongs to no list. -/
theorem bucketRemove_hit (h : Arrayed size hash w b cap rows) (hi : i < cap) (hq : q.Plain)
    (hlen : ∀ e ∈ rows i, q.value.length ≤ e.data.length) (hrow : rows i = pre ++ e :: post)
    (hmiss : ∀ d ∈ pre, q.hits hash d = false) (hhit : q.hits hash e = true) :
    ∃ w', bucketRemove b i q w = .ok (e.block, w') ∧
      Arrayed size hash w' b cap (Function.update rows i (pre ++ post)) ∧ w'.Live e.block ∧
      e.block ∉ (flat (Function.update rows i (pre ++ post)) cap).map Entry.block ∧
      ∀ p, p ≠ b → p ∉ (flat rows cap).map Entry.block → w'.cells p = w.cells p := by
  have heflat : e ∈ flat rows cap := mem_flat.2 ⟨i, hi, by simp [hrow]⟩
  obtain ⟨-, hout⟩ := h.without hi hrow
  have hlinked := h.linked i hi
  rw [hrow] at hlinked
  have hcell := (linked_append.1 hlinked).2.1
  have hnode : e.block ≠ 0 := Mem.ne_zero_of_live (Mem.live_of hcell)
  obtain ⟨w₁, hunlink, h₁, hkept, hsame₁⟩ := unlink_spec h hi hrow
  obtain ⟨w₂, hset, hcells₂⟩ := Memory.setEntryNext_eq (hkept.trans hcell) 0
  have hsame₂ : ∀ p, p ≠ e.block → w₂.cells p = w₁.cells p := by
    intro p hp
    rw [hcells₂, Function.update_of_ne hp]
  refine ⟨w₂, ?_, h₁.frame (hsame₂ _ ?_) ?_, ?_, hout, fun p hpb hp => ?_⟩
  · have hlt := h.length_lt hi
    rw [hrow, List.length_append, List.length_cons] at hlt
    obtain ⟨k, hk⟩ : ∃ k, w.next = pre.length + (k + 1) := ⟨w.next - pre.length - 1, by omega⟩
    rw [bucketRemove, check_of hq.pos, ok_bind, h.head hi, ok_bind, hrow, hk,
      remove_walk hq pre (e :: post) 0 (k + 1) hlinked (fun d hd => hlen d (by simp [hrow, hd]))
        hmiss]
    refine loop_of_inr ?_ k
    rw [bucketRemoveRound]
    dsimp only
    change (if e.block ≠ 0 then _ else _) = _
    rw [if_pos hnode]
    change (q.matches w e.block >>= _) = _
    rw [q.matches_eq hq hcell (hlen e (by simp [hrow])), ok_bind]
    change (w.entryNext e.block >>= _) = _
    rw [Memory.entryNext_eq hcell, ok_bind, hhit, if_pos rfl]
    by_cases hprev : (pre.map Entry.block).getLastD 0 = 0
    · rw [if_pos hprev] at hunlink ⊢
      rw [hunlink, ok_bind]
      change (w₁.setEntryNext e.block 0 >>= _) = _
      rw [hset]
      rfl
    · rw [if_neg hprev] at hunlink ⊢
      rw [hunlink, ok_bind]
      change (w₁.setEntryNext e.block 0 >>= _) = _
      rw [hset]
      rfl
  · exact (h.ne_array heflat).symm
  · exact fun d hd => hsame₂ _ fun heq => hout (heq ▸ List.mem_map_of_mem hd)
  · exact Mem.live_of (by rw [hcells₂, Function.update_self])
  · rw [hsame₂ p fun heq => hp (heq ▸ List.mem_map_of_mem heflat), hsame₁ p hpb hp]

/-! ## Capacities -/

/-- The capacities are powers of two. -/
theorem log_capacity (k : ℕ) : Nat.log 2 (defaultCapacity * 2 ^ k) = k + 4 := by
  rw [show defaultCapacity * 2 ^ k = 2 ^ (k + 4) by rw [pow_add, defaultCapacity]; ring]
  exact Nat.log_pow (by decide) _

theorem capacity_le {j k : ℕ} (h : j ≤ k) : defaultCapacity * 2 ^ j ≤ defaultCapacity * 2 ^ k :=
  Nat.mul_le_mul_left _ (Nat.pow_le_pow_right (by decide) h)

/-- The first `k` capacities are too small for this number of entries. -/
def TooSmall (size k : ℕ) : Prop := ∀ j < k, 3 * (defaultCapacity * 2 ^ j) < 4 * size

theorem TooSmall.succ {size k : ℕ} (h : 3 * (defaultCapacity * 2 ^ k) < 4 * size) :
    TooSmall size (k + 1) := by
  intro j hj
  have := capacity_le (Nat.le_of_lt_succ hj)
  omega

/-- What follows on a capacity that is out of range is out of range too. -/
theorem TooSmall.all {size k : ℕ} (h : TooSmall size k)
    (hover : sizeMax < 3 * (defaultCapacity * 2 ^ k)) (j : ℕ)
    (hj : 3 * (defaultCapacity * 2 ^ j) ≤ sizeMax) : 3 * (defaultCapacity * 2 ^ j) < 4 * size := by
  apply h j
  by_contra hjk
  have := capacity_le (not_lt.1 hjk)
  omega

/-- The answer for a number of entries: the smallest capacity that they load by at most three
quarters, or that there is none. -/
def CapacityFor (size : ℕ) (r : Status × ℕ) : Prop :=
  (r.1 = .ok ∧ 4 * size ≤ 3 * r.2 ∧ ∃ k, r.2 = defaultCapacity * 2 ^ k ∧ TooSmall size k) ∨
    (r.1 = .overflow ∧ ∀ j, 3 * (defaultCapacity * 2 ^ j) ≤ sizeMax →
      3 * (defaultCapacity * 2 ^ j) < 4 * size)

/-- The loop comes to this capacity because the ones before are too small. -/
def Candidate (size c : ℕ) : Prop :=
  c ≤ sizeMax ∧ ∃ k, c = defaultCapacity * 2 ^ k ∧ TooSmall size k

/-- **One round** of the loop. -/
theorem capacityForSizeRound_spec {size c : ℕ} (hc : Candidate size c) :
    Sat (capacityForSizeRound (size * maxLoadDenominator) c)
      (Round (Candidate size) (fun c => 64 - Nat.log 2 c) (CapacityFor size) c) := by
  obtain ⟨-, k, rfl, h⟩ := hc
  unfold capacityForSizeRound
  cases hload : sizeMulOverflow (defaultCapacity * 2 ^ k) maxLoadNumerator with
  | none =>
    have hover := sizeMulOverflow_eq_none.1 hload
    unfold maxLoadNumerator at hover
    exact Sat.ok (.inr ⟨rfl, h.all (by omega)⟩)
  | some load =>
    obtain ⟨rfl, -⟩ := sizeMulOverflow_eq_some.1 hload
    unfold maxLoadDenominator maxLoadNumerator
    dsimp only
    split
    · rename_i hle
      exact Sat.ok (.inl ⟨rfl, by dsimp only; omega, k, rfl, h⟩)
    · rename_i hgt
      have hnext : defaultCapacity * 2 ^ k * 2 = defaultCapacity * 2 ^ (k + 1) := by
        rw [pow_succ, Nat.mul_assoc]
      have hsmall : TooSmall size (k + 1) := .succ (by omega)
      cases hdouble : sizeMulOverflow (defaultCapacity * 2 ^ k) 2 with
      | none =>
        have hover := sizeMulOverflow_eq_none.1 hdouble
        exact Sat.ok (.inr ⟨rfl, hsmall.all (by omega)⟩)
      | some doubled =>
        obtain ⟨rfl, hle⟩ := sizeMulOverflow_eq_some.1 hdouble
        have hlt : k + 1 + 4 < 64 := by
          rw [← log_capacity (k + 1), ← hnext]
          exact Nat.log_lt_of_lt_pow (by unfold defaultCapacity; positivity)
            (by unfold sizeMax at hle; omega)
        refine Sat.ok ⟨⟨hle, k + 1, hnext, hsmall⟩, ?_⟩
        dsimp only
        rw [hnext, log_capacity, log_capacity]
        omega

/-- **The capacity** for a number of entries. -/
theorem capacityForSize_spec (size : ℕ) : Sat (capacityForSize size) (CapacityFor size) := by
  unfold capacityForSize
  cases hscaled : sizeMulOverflow size maxLoadDenominator with
  | none =>
    refine Sat.ok (.inr ⟨rfl, fun j hj => hj.trans_lt ?_⟩)
    rw [Nat.mul_comm]
    exact sizeMulOverflow_eq_none.1 hscaled
  | some scaledSize =>
    obtain ⟨rfl, -⟩ := sizeMulOverflow_eq_some.1 hscaled
    exact loop_ok (fun _ => capacityForSizeRound_spec) 65 defaultCapacity
      ⟨by decide, 0, rfl, fun j hj => absurd hj j.not_lt_zero⟩ (by omega)

/-- **A table need not grow** for one more entry while they load it by at most three
quarters. -/
theorem shouldGrow_eq_false {size capacity : ℕ} (hfits : sizeofBucket * capacity ≤ sizeMax) :
    shouldGrow size capacity = false ↔ 4 * (size + 1) ≤ 3 * capacity := by
  unfold sizeofBucket at hfits
  have hload : sizeMulOverflow capacity maxLoadNumerator = some (capacity * maxLoadNumerator) :=
    sizeMulOverflow_eq_some.2 ⟨rfl, by unfold maxLoadNumerator; omega⟩
  unfold shouldGrow
  rw [hload]
  cases hscaled : (sizeAddOverflow size 1).bind fun nextSize =>
      sizeMulOverflow nextSize maxLoadDenominator with
  | none =>
    have hover : sizeMax < 4 * (size + 1) := by
      by_contra hle
      have hnext : sizeAddOverflow size 1 = some (size + 1) :=
        (sizeAddOverflow_eq_some (by decide)).2 ⟨rfl, by omega⟩
      have hmul : sizeMulOverflow (size + 1) maxLoadDenominator =
          some ((size + 1) * maxLoadDenominator) :=
        sizeMulOverflow_eq_some.2 ⟨rfl, by unfold maxLoadDenominator; omega⟩
      rw [hnext, Option.bind_some, hmul] at hscaled
      cases hscaled
    simp only [Bool.true_eq_false, false_iff]
    omega
  | some scaledSize =>
    obtain ⟨next, hnext, hmul⟩ := Option.bind_eq_some_iff.1 hscaled
    obtain ⟨rfl, -⟩ := (sizeAddOverflow_eq_some (by decide)).1 hnext
    obtain ⟨rfl, -⟩ := sizeMulOverflow_eq_some.1 hmul
    unfold maxLoadDenominator maxLoadNumerator
    simp only [gt_iff_lt, decide_eq_false_iff_not, not_lt]
    omega

/-! ## Whole arrays -/

variable {a : Allocator Memory}

/-- Why there is no new array: its size is not a `size_t`, and then nothing was asked of
the allocator, or it was refused. -/
def Refused (cap : ℕ) (st : Status) (w w' : Memory) : Prop :=
  (st = .overflow ∧ sizeMax < sizeofBucket * cap ∧ w' = w) ∨
    (st = .noMemory ∧ sizeofBucket * cap ≤ sizeMax ∧ w'.cells = w.cells)

theorem Refused.ne_ok {st : Status} (h : Refused cap st w w') : st ≠ .ok := by
  rcases h with ⟨rfl, -⟩ | ⟨rfl, -⟩
  · decide
  · decide

theorem Refused.cells {st : Status} (h : Refused cap st w w') : w'.cells = w.cells := by
  rcases h with ⟨-, -, rfl⟩ | ⟨-, -, hcells⟩
  · rfl
  · exact hcells

/-- **A new array** has empty buckets. -/
theorem bucketsCreate_spec (size : ℕ) (hash : Entry → ℕ) (ha : Backed a) (hcap : 0 < cap)
    (w : Memory) :
    ∃ st p w', bucketsCreate cap a w = .ok ((st, p), w') ∧
      (Refused cap st w w' ∨
        (st = .ok ∧ sizeofBucket * cap ≤ sizeMax ∧ Exchange (Reclaims a) [] [p] w w' ∧
          Arrayed size hash w' p cap fun _ => [])) := by
  unfold bucketsCreate
  rw [check_of hcap, ok_bind]
  cases hmul : sizeMulOverflow sizeofBucket cap with
  | none => exact ⟨_, _, w, rfl, .inl (.inl ⟨rfl, sizeMulOverflow_eq_none.1 hmul, rfl⟩)⟩
  | some allocSize =>
    obtain ⟨rfl, hfits⟩ := sizeMulOverflow_eq_some.1 hmul
    dsimp only
    rcases Allocator.alloc_spec ha w (sizeofBucket * cap) with
      ⟨w₁, halloc, hcells₁⟩ | ⟨bs, w₁, halloc, hlen, hcells₁⟩
    · exact ⟨.noMemory, 0, w₁, by rw [halloc]; rfl, .inl (.inr ⟨rfl, hfits, hcells₁⟩)⟩
    · have hcell₁ : w₁.cells w.next = some ⟨sizeofBucket * cap, .bytes bs⟩ := by
        rw [hcells₁, Function.update_self]
      obtain ⟨w₂, hclear, hcells₂⟩ := Memory.clearBuckets_eq hcell₁ hlen.ge
      have hgain : Exchange (Reclaims a) [] [w.next] w w₁ := .gain (by simp) hcells₁
      refine ⟨.ok, w.next, w₂, ?_, .inr ⟨rfl, hfits,
        hgain.trans (.write hgain.held (by simp) hcells₂), ?_, fun _ _ => trivial, ?_⟩⟩
      · rw [halloc, ok_bind]
        change (w₁.clearBuckets w.next (sizeofBucket * cap) >>= _) = _
        rw [hclear]
        rfl
      · rw [hcells₂, Function.update_self, Nat.mul_div_cancel_left cap (by decide)]
        simp [first]
      · rw [flat_empty]
        exact List.nodup_nil

variable {nb ncap : ℕ} {eh : Memory → ℕ → Result ℕ}

/-- **Moving one list** into another array: its entries are put in front, each in
the bucket of its hash. -/
theorem rehash_row (heh : ∀ w node, eh w node = w.entryHash node) (hncap : 0 < ncap) :
    ∀ (es : List Entry) (w : Memory) (rows : ℕ → List Entry) (fuel : ℕ),
    Arrayed size hash w nb ncap rows → Placed hash ncap rows → Linked size hash w es 0 →
    ((es ++ flat rows ncap).map Entry.block).Nodup → es.length < fuel →
    ∃ w' rows', loop (rehashNodeRound nb ncap eh) fuel (first es 0, w) = .ok w' ∧
      Arrayed size hash w' nb ncap rows' ∧ Placed hash ncap rows' ∧
      flat rows' ncap ~ es ++ flat rows ncap ∧
      ∀ p, p ≠ nb → p ∉ es.map Entry.block → w'.cells p = w.cells p := by
  intro es
  induction es with
  | nil =>
    intro w rows fuel h hplaced _ _ hfuel
    obtain ⟨k, rfl⟩ : ∃ k, fuel = k + 1 := ⟨fuel - 1, by omega⟩
    exact ⟨w, rows, loop_of_inr rfl k, h, hplaced, List.Perm.refl _, fun _ _ _ => rfl⟩
  | cons e es ih =>
    intro w rows fuel h hplaced hlinked hnodup hfuel
    obtain ⟨k, rfl⟩ : ∃ k, fuel = k + 1 := ⟨fuel - 1, by omega⟩
    obtain ⟨hcell, htail⟩ := hlinked
    rw [List.cons_append, List.map_cons, List.nodup_cons] at hnodup
    obtain ⟨hout, hnodup'⟩ := hnodup
    have hnew : e.block ∉ (flat rows ncap).map Entry.block := fun hin =>
      hout (by rw [List.map_append]; exact List.mem_append_right _ hin)
    have hi : hash e % ncap < ncap := Nat.mod_lt _ hncap
    obtain ⟨w₁, hpush, h₁, hsame₁⟩ := bucketPushfront_spec h hi hcell hnew
    have hnode : e.block ≠ 0 := Mem.ne_zero_of_live (Mem.live_of hcell)
    have hbody : rehashNodeRound nb ncap eh (e.block, w) = .ok (.inl (first es 0, w₁)) := by
      rw [rehashNodeRound]
      rw [if_pos hnode, Memory.entryNext_eq hcell, ok_bind, heh, Memory.entryHash_eq hcell,
        ok_bind, hpush]
      rfl
    have hkept : ∀ d ∈ es, w₁.cells d.block = w.cells d.block := by
      intro d hd
      obtain ⟨next, hcelld⟩ := htail.cell hd
      refine hsame₁ _ (fun heq => ?_) fun heq => hout ?_
      · rw [heq, h.array] at hcelld
        cases hcelld
      · rw [← heq]
        exact List.mem_map_of_mem (List.mem_append_left _ hd)
    have hperm₁ := flat_push_perm rows hi e
    have hnodup₁ : ((es ++ flat (Function.update rows (hash e % ncap)
        (e :: rows (hash e % ncap))) ncap).map Entry.block).Nodup := by
      apply (((hperm₁.append_left es).trans List.perm_middle).map Entry.block).nodup_iff.2
      exact List.nodup_cons.2 ⟨hout, hnodup'⟩
    obtain ⟨w', rows', hloop, h', hplaced', hperm', hsame'⟩ := ih w₁ _ k h₁ (hplaced.push e)
      (htail.frame hkept) hnodup₁ (by simpa using hfuel)
    refine ⟨w', rows', ?_, h', hplaced', ?_, fun p hpb hp => ?_⟩
    · change loop _ _ (e.block, w) = _
      rw [loop_of_inl hbody, hloop]
    · exact hperm'.trans ((hperm₁.append_left es).trans List.perm_middle)
    · rw [List.map_cons, List.mem_cons, not_or] at hp
      rw [hsame' p hpb hp.2, hsame₁ p hpb hp.1]

/-- **Moving all lists.**  After `i` rounds the entries of the first `i` buckets
are in the new array, and the others are where they were. -/
theorem rehash_rows (heh : ∀ w node, eh w node = w.entryHash node) (hncap : 0 < ncap)
    (h : Arrayed size hash w b cap rows) (hnew : Arrayed size hash w nb ncap fun _ => [])
    (hne : b ≠ nb) :
    ∃ w' rows', loop (rehashRound b cap nb ncap eh) (cap + 1) (0, w) = .ok w' ∧
      Arrayed size hash w' nb ncap rows' ∧ Placed hash ncap rows' ∧
      flat rows' ncap ~ flat rows cap ∧
      ∀ p, p ≠ nb → p ∉ (flat rows cap).map Entry.block → w'.cells p = w.cells p := by
  have hneNew : ∀ {e}, e ∈ flat rows cap → e.block ≠ nb := by
    intro e he heq
    obtain ⟨next, hcell⟩ := h.cell he
    rw [heq, hnew.array] at hcell
    cases hcell
  set I : ℕ × Memory → Prop := fun s => s.1 ≤ cap ∧ ∃ rows',
    Arrayed size hash s.2 nb ncap rows' ∧ Placed hash ncap rows' ∧
    flat rows' ncap ~ flat rows s.1 ∧
    ∀ p, p ≠ nb → p ∉ (flat rows s.1).map Entry.block → s.2.cells p = w.cells p with hI
  have hround : ∀ s, I s → Sat (rehashRound b cap nb ncap eh s) (Round I (fun s => cap - s.1)
      (fun w' => ∃ rows', Arrayed size hash w' nb ncap rows' ∧ Placed hash ncap rows' ∧
        flat rows' ncap ~ flat rows cap ∧
        ∀ p, p ≠ nb → p ∉ (flat rows cap).map Entry.block → w'.cells p = w.cells p) s) := by
    rintro ⟨i, w₁⟩ ⟨hi, rows₁, h₁, hplaced₁, hperm₁, hsame₁⟩
    dsimp only at hi h₁ hperm₁ hsame₁
    rw [rehashRound]
    by_cases hlt : i < cap
    · have harray₁ : w₁.cells b = w.cells b := hsame₁ b hne fun hin =>
        h.array_notMem (((flat_sublist hi).map Entry.block).subset hin)
      have hlinked₁ : Linked size hash w₁ (rows i) 0 := by
        refine (h.linked i hlt).frame fun e he => hsame₁ _ (hneNew (mem_flat.2 ⟨i, hlt, he⟩)) ?_
        intro hin
        obtain ⟨d, hd, heq⟩ := List.mem_map.1 hin
        obtain ⟨j, hj, hd⟩ := mem_flat.1 hd
        exact ne_of_ne_row h.nodup (hj.trans hlt) hlt hj.ne hd he heq
      have hstep : rows i ++ flat rows₁ ncap ~ flat rows (i + 1) := by
        rw [flat_succ]
        exact (hperm₁.append_left _).trans List.perm_append_comm
      have hnodup₁ : ((rows i ++ flat rows₁ ncap).map Entry.block).Nodup :=
        (hstep.map Entry.block).nodup_iff.2 (h.nodup.sublist ((flat_sublist hlt).map _))
      obtain ⟨w₂, rows₂, hloop, h₂, hplaced₂, hperm₂, hsame₂⟩ :=
        rehash_row heh hncap (rows i) w₁ rows₁ w₁.next h₁ hplaced₁ hlinked₁ hnodup₁
          (hlinked₁.length_lt (h.nodup_row hlt))
      refine ⟨.inl (i + 1, w₂), ?_, ⟨hlt, rows₂, h₂, hplaced₂, hperm₂.trans hstep, ?_⟩, ?_⟩
      · rw [if_pos hlt, Memory.bucketHead_eq (harray₁.trans h.array) (getElem?_heads hlt), ok_bind,
          hloop]
        rfl
      · intro p hpb hp
        rw [flat_succ, List.map_append, List.mem_append, not_or] at hp
        rw [hsame₂ p hpb hp.2, hsame₁ p hpb hp.1]
      · change cap - (i + 1) < cap - i
        omega
    · have hdone : i = cap := by omega
      subst hdone
      rw [if_neg hlt]
      exact Sat.ok ⟨rows₁, h₁, hplaced₁, hperm₁, hsame₁⟩
  have hstart : I (0, w) := by
    refine ⟨Nat.zero_le _, fun _ => [], hnew, fun _ _ _ he => ?_, ?_, fun _ _ _ => rfl⟩
    · cases he
    · rw [flat_empty]
      exact List.Perm.refl _
  obtain ⟨w', hloop, rows', hres⟩ := loop_ok hround (cap + 1) (0, w) hstart (Nat.lt_succ_self _)
  exact ⟨w', rows', hloop, hres⟩

/-- The blocks of an array: its own, and those of the entries. -/
def blocks (b cap : ℕ) (rows : ℕ → List Entry) : List ℕ := b :: (flat rows cap).map Entry.block

theorem Arrayed.blocks_live (h : Arrayed size hash w b cap rows) :
    ∀ p ∈ blocks b cap rows, w.Live p := by
  intro p hp
  rcases List.mem_cons.1 hp with rfl | hp
  · exact Mem.live_of h.array
  · exact h.live p hp

/-- **A rehash** fails and changes nothing, or moves every entry into a new array
and releases the old one. -/
theorem bucketsRehash_spec (ha : Backed a) (heh : ∀ w node, eh w node = w.entryHash node)
    (hcap : 0 < cap) (hncap : 0 < ncap) (h : Arrayed size hash w b cap rows) :
    ∃ st p w', bucketsRehash b cap ncap a eh w = .ok ((st, p), w') ∧
      (Refused ncap st w w' ∨
        (st = .ok ∧ sizeofBucket * ncap ≤ sizeMax ∧ ∃ rows',
          Arrayed size hash w' p ncap rows' ∧ Placed hash ncap rows' ∧
          flat rows' ncap ~ flat rows cap ∧
          Exchange (Reclaims a) (blocks b cap rows) (blocks p ncap rows') w w')) := by
  have hb : b ≠ 0 := Mem.ne_zero_of_live (Mem.live_of h.array)
  unfold bucketsRehash
  rw [check_of hb, ok_bind, check_of hcap, ok_bind, check_of hncap, ok_bind]
  obtain ⟨st, p, w₁, hcreate, hres⟩ := bucketsCreate_spec size hash ha hncap w
  rw [hcreate, ok_bind]
  rcases hres with hrefused | ⟨rfl, hfits, hgain, hnew⟩
  · exact ⟨st, 0, w₁, if_pos hrefused.ne_ok, .inl hrefused⟩
  have hold : ∀ q ∈ blocks b cap rows, w₁.cells q = w.cells q ∧ q ≠ p := by
    intro q hq
    obtain ⟨c, hc⟩ := Mem.live_iff.1 (h.blocks_live q hq)
    obtain ⟨hc', hne⟩ := hgain.others q c hc (by simp)
    exact ⟨hc'.trans hc.symm, by simpa using hne⟩
  have h₁ : Arrayed size hash w₁ b cap rows :=
    h.frame (hold b (by simp [blocks])).1 fun e he =>
      (hold e.block (List.mem_cons_of_mem _ (List.mem_map_of_mem he))).1
  obtain ⟨w₂, rows', hloop, h₂, hplaced, hperm, hsame⟩ :=
    rehash_rows heh hncap h₁ hnew (hold b (by simp [blocks])).2
  have hmem : ∀ q, q ∈ (flat rows' ncap).map Entry.block ↔ q ∈ (flat rows cap).map Entry.block :=
    fun q => (hperm.map Entry.block).mem_iff
  have hbnot : b ∉ (flat rows' ncap).map Entry.block := by
    rw [hmem]
    exact h.array_notMem
  have hbp : b ≠ p := (hold b (by simp [blocks])).2
  have hlive₂ : w₂.Live b := by
    rw [Mem.Live, hsame b hbp ((hmem b).not.1 hbnot)]
    exact Mem.live_of h₁.array
  obtain ⟨w₃, hdealloc, hcells₃⟩ := Allocator.dealloc_spec ha hlive₂
  have h₃ : Arrayed size hash w₃ p ncap rows' :=
    h₂.frame (Allocator.dealloc_kept hcells₃ hbp.symm) fun e he =>
      Allocator.dealloc_kept hcells₃ fun heq => hbnot (heq ▸ List.mem_map_of_mem he)
  refine ⟨.ok, p, w₃, ?_, .inr ⟨rfl, hfits, rows', h₃, hplaced, hperm, ?_⟩⟩
  · change (loop (rehashRound b cap p ncap eh) (cap + 1) (0, w₁) >>= _) = _
    rw [hloop, ok_bind, hdealloc]
    rfl
  · -- the new array comes, the entries are relinked, the old array goes
    have hcome : Exchange (Reclaims a) (blocks b cap rows) (b :: blocks p ncap rows') w w₁ := by
      refine (hgain.frame h.blocks_live (by simp)).congr (by simp) fun q => ?_
      simp only [blocks, List.mem_append, List.mem_cons, hmem]
      tauto
    have hlink : Exchange (Reclaims a) (b :: blocks p ncap rows') (b :: blocks p ncap rows') w₁ w₂
        := by
      refine .within (fun q hq => ?_) fun q hq => ?_
      · rcases List.mem_cons.1 hq with rfl | hq
        · exact hlive₂
        · exact h₂.blocks_live q hq
      · simp only [blocks, List.mem_cons, not_or] at hq
        exact hsame q hq.2.1 ((hmem q).not.1 hq.2.2)
    have hgo : Exchange (Reclaims a) (b :: blocks p ncap rows') (blocks p ncap rows') w₂ w₃ :=
      .drop h₂.blocks_live (by simp [blocks, hbp, hbnot]) hcells₃
    exact (hcome.trans hlink).trans hgo

/-! ## Destruction -/

variable {d : ℕ → Memory → Result Memory}

/-- **Releasing one list.** -/
theorem destroy_row (ha : Backed a)
    (hd : ∀ node w, d node w = Allocator.dealloc Memory.libc (some a) w node) :
    ∀ (es : List Entry) (w : Memory) (fuel : ℕ), Linked size hash w es 0 →
    (es.map Entry.block).Nodup → es.length < fuel →
    ∃ w', loop (destroyNodeRound d) fuel (first es 0, w) = .ok w' ∧
      Exchange (Reclaims a) (es.map Entry.block) [] w w' := by
  intro es
  induction es with
  | nil =>
    intro w fuel _ _ hfuel
    obtain ⟨k, rfl⟩ : ∃ k, fuel = k + 1 := ⟨fuel - 1, by omega⟩
    exact ⟨w, loop_of_inr rfl k, .refl (by simp)⟩
  | cons e es ih =>
    intro w fuel hlinked hnodup hfuel
    obtain ⟨k, rfl⟩ : ∃ k, fuel = k + 1 := ⟨fuel - 1, by omega⟩
    obtain ⟨hcell, htail⟩ := hlinked
    rw [List.map_cons, List.nodup_cons] at hnodup
    have hlive : w.Live e.block := Mem.live_of hcell
    obtain ⟨w₁, hdealloc, hcells₁⟩ := Allocator.dealloc_spec ha hlive
    have hrest : ∀ p ∈ es.map Entry.block, w.Live p := by
      intro p hp
      obtain ⟨c, hc, rfl⟩ := List.mem_map.1 hp
      exact htail.live c hc
    have hdrop : Exchange (Reclaims a) (e.block :: es.map Entry.block) (es.map Entry.block) w w₁ :=
      .drop hrest hnodup.1 hcells₁
    have htail₁ : Linked size hash w₁ es 0 := htail.frame fun c hc =>
      Allocator.dealloc_kept hcells₁ fun heq => hnodup.1 (heq ▸ List.mem_map_of_mem hc)
    have hbody : destroyNodeRound d (e.block, w) = .ok (.inl (first es 0, w₁)) := by
      rw [destroyNodeRound]
      rw [if_pos (Mem.ne_zero_of_live hlive), Memory.entryNext_eq hcell, ok_bind, hd, hdealloc]
      rfl
    obtain ⟨w', hloop, hx⟩ := ih w₁ k htail₁ hnodup.2 (by simpa using hfuel)
    refine ⟨w', ?_, hdrop.trans hx⟩
    change loop _ _ (e.block, w) = _
    rw [loop_of_inl hbody, hloop]

/-- **Releasing all** entries, and the array. -/
theorem bucketsDestroy_spec (ha : Backed a)
    (hd : ∀ node w, d node w = Allocator.dealloc Memory.libc (some a) w node)
    (h : Arrayed size hash w b cap rows) :
    ∃ w', bucketsDestroy b cap a d w = .ok w' ∧
      Exchange (Reclaims a) (blocks b cap rows) [] w w' := by
  set I : ℕ × Memory → Prop := fun s => s.1 ≤ cap ∧
    Exchange (Reclaims a) ((flat rows s.1).map Entry.block) [] w s.2 with hI
  have hround : ∀ s, I s → Sat (destroyRound b cap d s) (Round I (fun s => cap - s.1)
      (fun w' => Exchange (Reclaims a) ((flat rows cap).map Entry.block) [] w w') s) := by
    rintro ⟨i, w₁⟩ ⟨hi, hx⟩
    dsimp only at hi hx
    rw [destroyRound]
    by_cases hlt : i < cap
    · have hapart : ∀ p ∈ (rows i).map Entry.block, p ∉ (flat rows i).map Entry.block := by
        intro p hp hin
        obtain ⟨e, he, rfl⟩ := List.mem_map.1 hp
        obtain ⟨c, hc, heq⟩ := List.mem_map.1 hin
        obtain ⟨j, hj, hc⟩ := mem_flat.1 hc
        exact ne_of_ne_row h.nodup (hj.trans hlt) hlt hj.ne hc he heq
      have harray₁ : w₁.cells b = some ⟨sizeofBucket * cap, .buckets
          ((List.range cap).map fun i => first (rows i) 0)⟩ :=
        (hx.others b _ h.array fun hin =>
          h.array_notMem (((flat_sublist hi).map Entry.block).subset hin)).1
      have hlinked₁ : Linked size hash w₁ (rows i) 0 := by
        refine (h.linked i hlt).frame fun e he => ?_
        obtain ⟨next, hcell⟩ := (h.linked i hlt).cell he
        rw [(hx.others _ _ hcell (hapart _ (List.mem_map_of_mem he))).1, hcell]
      obtain ⟨w₂, hloop, hx₂⟩ := destroy_row ha hd (rows i) w₁ w₁.next hlinked₁ (h.nodup_row hlt)
        (hlinked₁.length_lt (h.nodup_row hlt))
      refine ⟨.inl (i + 1, w₂), ?_, ⟨hlt, ?_⟩, ?_⟩
      · rw [if_pos hlt, Memory.bucketHead_eq harray₁ (getElem?_heads hlt), ok_bind, hloop]
        rfl
      · have hlive : ∀ p ∈ (rows i).map Entry.block, w.Live p := fun p hp =>
          h.live p (((sublist_flat hlt).map Entry.block).subset hp)
        refine ((hx.frame hlive hapart).congr (fun p => Iff.rfl) (by simp)).trans hx₂ |>.congr ?_ ?_
        · intro p
          rw [flat_succ, List.map_append, List.mem_append, List.mem_append, or_comm]
        · simp
      · change cap - (i + 1) < cap - i
        omega
    · have hdone : i = cap := by omega
      subst hdone
      rw [if_neg hlt]
      exact Sat.ok hx
  have hstart : I (0, w) := ⟨Nat.zero_le _, .refl (by simp [flat])⟩
  obtain ⟨w₁, hloop, hx⟩ := loop_ok hround (cap + 1) (0, w) hstart (Nat.lt_succ_self _)
  have hlive₁ : w₁.Live b := Mem.live_of (hx.others b _ h.array h.array_notMem).1
  obtain ⟨w₂, hdealloc, hcells₂⟩ := Allocator.dealloc_spec ha hlive₁
  refine ⟨w₂, ?_, ?_⟩
  · have hb : b ≠ 0 := Mem.ne_zero_of_live (Mem.live_of h.array)
    rw [bucketsDestroy, check_of hb, ok_bind, hloop, ok_bind, hdealloc]
  · have hframe := hx.frame (r := [b]) (by simpa using Mem.live_of h.array)
      (by simpa using h.array_notMem)
    exact hframe.trans (.drop (by simp) (by simp) hcells₂)

end HashCommon

end K4c
