import Mathlib.Tactic
import K4c.Hash.HashmapCalls
import K4c.Hash.HashsetCalls

/-!
# What the iterators of the hash tables do

An iterator keeps the number of the bucket to look at next and a node, 0 when the
list it was in is at its end.  It yields the entries bucket by bucket, each list in
the order in which it is linked, whatever hashes are stored with them.

* `nextBucket_spec` — the loop over empty buckets stops at the next entry, or at the
  end of the table.
* `nextEntry_shows` — one call returns the next entry, and at the end nothing.
* `walk_yields`, `iterator_enumerates` — the walk yields the entries of the table,
  with the number of those to come as its size hint.
-/

namespace K4c.Table

open Exec Rows HashCommon

variable {t : Table} {n size : ℕ} {hash : Entry → ℕ} {w : Memory}
  {rows : ℕ → List Entry}

/-- **Skipping empty buckets** keeps what is to come, and stops at a node unless
nothing is to come. -/
theorem nextBucket_spec (hcap : t.capacity ≤ sizeMax)
    (h : Arrayed size hash w t.buckets t.capacity rows) :
    ∀ (d i fuel : ℕ) (es : List Entry), i + d = t.capacity → d < fuel →
      Linked size hash w es 0 →
      ∃ j es', loop (nextBucketRound t w) fuel ⟨i, first es 0⟩ = .ok ⟨j, first es' 0⟩ ∧
        j ≤ t.capacity ∧ Linked size hash w es' 0 ∧
        es' ++ flatFrom rows j t.capacity = es ++ flatFrom rows i t.capacity ∧
        (es' = [] → es ++ flatFrom rows i t.capacity = []) := by
  intro d
  induction d with
  | zero =>
    intro i fuel es hi hfuel hlinked
    obtain ⟨k, rfl⟩ : ∃ k, fuel = k + 1 := ⟨fuel - 1, by omega⟩
    refine ⟨i, es, loop_of_inr ?_ k, by omega, hlinked, rfl, fun hnil => ?_⟩
    · rw [nextBucketRound, if_neg fun hc => by have := hc.2; dsimp only at this; omega]
      rfl
    · rw [hnil, show i = t.capacity by omega, flatFrom_self]
      rfl
  | succ d ih =>
    intro i fuel es hi hfuel hlinked
    obtain ⟨k, rfl⟩ : ∃ k, fuel = k + 1 := ⟨fuel - 1, by omega⟩
    cases es with
    | cons e es =>
      have hnode : e.block ≠ 0 := Blocks.Mem.ne_zero_of_live (Blocks.Mem.live_of hlinked.1)
      refine ⟨i, e :: es, loop_of_inr ?_ k, by omega, hlinked, rfl, fun hnil => by cases hnil⟩
      rw [nextBucketRound, if_neg fun hc => hnode hc.1]
      rfl
    | nil =>
      have hlt : i < t.capacity := by omega
      have hround : nextBucketRound t w ⟨i, 0⟩ = .ok (.inl ⟨i + 1, first (rows i) 0⟩) := by
        rw [nextBucketRound, if_pos ⟨rfl, hlt⟩, h.head hlt, ok_bind,
          sizeAdd_of_le (show i + 1 ≤ sizeMax by omega), ok_bind]
        rfl
      obtain ⟨j, es', hloop, hj, hlinked', hrest, hnil⟩ :=
        ih (i + 1) k (rows i) (by omega) (by omega) (h.linked i hlt)
      rw [← flatFrom_of_lt rows hlt] at hrest hnil
      refine ⟨j, es', ?_, hj, hlinked', hrest, hnil⟩
      exact (loop_of_inl hround k).trans hloop

/-- In this state of the iterator the entries of the list are to come: the rest of a
bucket, and the buckets after it. -/
def Remains (t : Table) (size : ℕ) (hash : Entry → ℕ) (w : Memory) (rows : ℕ → List Entry)
    (state : IteratorState) (l : List Entry) : Prop :=
  ∃ i es, i ≤ t.capacity ∧ Linked size hash w es 0 ∧ state = ⟨i, first es 0⟩ ∧
    l = es ++ flatFrom rows i t.capacity

/-- Before the first call all entries are to come. -/
theorem remains_start : Remains t size hash w rows (getIterator t).state (t.entries rows) :=
  ⟨0, [], Nat.zero_le _, trivial, rfl, by rw [flatFrom_zero, List.nil_append]; rfl⟩

/-- **One call** returns the next entry that is to come, and nothing at the end. -/
theorem nextEntry_shows (hcap : t.capacity ≤ sizeMax)
    (h : Arrayed size hash w t.buckets t.capacity rows) :
    Iterator.Shows (nextEntry t w) fun state l =>
      ∃ l', Remains t size hash w rows state l' ∧ l = l'.map Entry.block := by
  rintro _ _ ⟨_, ⟨i, es, hi, hlinked, rfl, rfl⟩, rfl⟩
  obtain ⟨j, es', hloop, hj, hlinked', hrest, hnil⟩ :=
    nextBucket_spec hcap h (t.capacity - i) i (t.capacity + 1) es (by omega) (by omega) hlinked
  rw [← hrest] at hnil ⊢
  cases es' with
  | nil =>
    rw [hnil rfl]
    refine ⟨⟨j, 0⟩, ?_, [], ⟨j, [], hj, trivial, rfl, (hnil rfl).symm⟩, rfl⟩
    rw [nextEntry, hloop, ok_bind]
    rfl
  | cons e es' =>
    obtain ⟨hcell, htail⟩ := hlinked'
    have hnode : e.block ≠ 0 := Blocks.Mem.ne_zero_of_live (Blocks.Mem.live_of hcell)
    refine ⟨⟨j, first es' 0⟩, ?_, es' ++ flatFrom rows j t.capacity,
      ⟨j, es', hj, htail, rfl, rfl⟩, rfl⟩
    rw [nextEntry, hloop, ok_bind]
    change (if e.block = 0 then _ else w.entryNext e.block >>= _) = _
    rw [if_neg hnode, Memory.entryNext_eq hcell]
    rfl

/-- **The walk** yields what is in the buckets. -/
theorem walk_yields (hcap : t.capacity ≤ sizeMax)
    (h : Arrayed size hash w t.buckets t.capacity rows) :
    Iterator.Yields (nextEntry t w) (getIterator t).state ((t.entries rows).map Entry.block) :=
  (nextEntry_shows hcap h).yields _ _ ⟨_, remains_start, rfl⟩

variable [Platform]

theorem Lies.capacity_le (h : Lies t n w rows) : t.capacity ≤ sizeMax :=
  (Nat.le_mul_of_pos_left _ (by decide)).trans h.fits

theorem nextEntry_yields (h : Lies t n w rows) :
    Iterator.Yields (nextEntry t w) (getIterator t).state ((t.entries rows).map Entry.block) :=
  walk_yields h.capacity_le h.arrayed

/-- **The iterator** enumerates something about each entry of the table. -/
theorem iterator_enumerates {ι : Type} (h : Lies t n w rows) (f : ℕ → ι) :
    Iterator.Enumerates (fun state => nextEntry t w state >>= fun r => .ok (r.1.map f, r.2))
      (getIterator t) ((t.entries rows).map fun e => f e.block) := by
  have hshows := ((nextEntry_shows h.capacity_le h.arrayed).map f).enumerates
    (l := (t.entries rows).map fun e => f e.block) (s := (getIterator t).state)
    ⟨_, ⟨_, remains_start, rfl⟩, by rw [List.map_map]; rfl⟩
  rw [List.length_map, ← h.size] at hshows
  exact hshows

end K4c.Table
