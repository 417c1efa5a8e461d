import Mathlib.Tactic
import K4c.Hash.HashmapCalls
import K4c.Hash.HashsetCalls

/-!
# Why a call of a table fails

A table asks the allocator for its array of buckets and for each entry, and for nothing
else.  A call that returned `K4C_NO_MEMORY` was refused one of these, and one that returned
`K4C_OVERFLOW` was to hold `TooMany` entries for any array there is.

* `bucketPushfront_quiet`, `bucketRemove_quiet`, `rehash_quiet` — the walks ask for nothing.
* `Table.create_explains`, `Table.reserve_explains`, `Table.addEntry_explains` — what asks.
* `Hashmap.put_explains`, `Hashset.insert_explains` — the calls that add an entry.
-/

namespace K4c

open Exec Blocks HashCommon

/-! ## Changes in place -/

namespace Memory

variable {w w' : Memory} {p q i n : ℕ}

theorem setEntryNext_quiet (h : w.setEntryNext p q = .ok w') : w.Quiet w' := by
  obtain ⟨c, -, h⟩ := bind_eq_ok.1 h
  split at h
  · exact (Mem.store_rewritten h).toQuiet
  · cases h

theorem setEntryHash_quiet [Platform] (h : w.setEntryHash p n = .ok w') : w.Quiet w' := by
  obtain ⟨c, -, h⟩ := bind_eq_ok.1 h
  split at h
  · split at h
    · exact (Mem.store_rewritten h).toQuiet
    · cases h
  · cases h

theorem setBucketHead_quiet (h : w.setBucketHead p i q = .ok w') : w.Quiet w' := by
  obtain ⟨c, -, h⟩ := bind_eq_ok.1 h
  split at h
  · split at h
    · exact (Mem.store_rewritten h).toQuiet
    · cases h
  · cases h

theorem clearBuckets_quiet (h : w.clearBuckets p n = .ok w') : w.Quiet w' := by
  obtain ⟨c, -, h⟩ := bind_eq_ok.1 h
  split at h
  · split at h
    · exact (Mem.store_rewritten h).toQuiet
    · cases h
  · cases h

end Memory

namespace HashCommon

variable {b i node capacity newBuckets newCapacity fuel : ℕ} {q : Query} {w w' : Memory}
  {a : Allocator Memory} {hashOf : Memory → ℕ → Result ℕ}

theorem bucketPushfront_quiet (h : bucketPushfront b i node w = .ok w') : w.Quiet w' := by
  obtain ⟨_, -, h⟩ := bind_eq_ok.1 h
  obtain ⟨head, -, h⟩ := bind_eq_ok.1 h
  obtain ⟨w₁, hnext, h⟩ := bind_eq_ok.1 h
  exact (Memory.setEntryNext_quiet hnext).trans (Memory.setBucketHead_quiet h)

theorem bucketRemoveRound_quiet {s : ℕ × ℕ} {r : ℕ × Memory}
    (h : bucketRemoveRound b i q w s = .ok (.inr r)) : w.Quiet r.2 := by
  obtain ⟨prev, node⟩ := s
  rw [bucketRemoveRound] at h
  split at h
  · obtain ⟨found, -, h⟩ := bind_eq_ok.1 h
    obtain ⟨next, -, h⟩ := bind_eq_ok.1 h
    split at h
    · dsimp only at h
      split at h
      · obtain ⟨w₁, hunlink, h⟩ := bind_eq_ok.1 h
        obtain ⟨w₂, hnext, h⟩ := bind_eq_ok.1 h
        cases h
        exact (Memory.setBucketHead_quiet hunlink).trans (Memory.setEntryNext_quiet hnext)
      · obtain ⟨w₁, hunlink, h⟩ := bind_eq_ok.1 h
        obtain ⟨w₂, hnext, h⟩ := bind_eq_ok.1 h
        cases h
        exact (Memory.setEntryNext_quiet hunlink).trans (Memory.setEntryNext_quiet hnext)
    · cases h
  · cases h
    exact .refl w

theorem bucketRemove_quiet (h : bucketRemove b i q w = .ok (node, w')) : w.Quiet w' := by
  obtain ⟨_, -, h⟩ := bind_eq_ok.1 h
  obtain ⟨head, -, h⟩ := bind_eq_ok.1 h
  exact loop_result (Q := fun r => w.Quiet r.2) (fun _ _ => bucketRemoveRound_quiet) _ _ _ h

/-- Moving the entries of one bucket asks for nothing. -/
theorem rehashNode_quiet
    (h : loop (rehashNodeRound newBuckets newCapacity hashOf) fuel (node, w) = .ok w') :
    w.Quiet w' := by
  refine loop_keeps (I := fun s => w.Quiet s.2) (Q := w.Quiet) (fun s o hs hround => ?_) fuel
    (node, w) w' (.refl w) h
  obtain ⟨node, w₁⟩ := s
  rw [rehashNodeRound] at hround
  split at hround
  · obtain ⟨next, -, hround⟩ := bind_eq_ok.1 hround
    obtain ⟨hash, -, hround⟩ := bind_eq_ok.1 hround
    obtain ⟨w₂, hpush, hround⟩ := bind_eq_ok.1 hround
    cases hround
    exact hs.trans (bucketPushfront_quiet hpush)
  · cases hround
    exact hs

/-- Moving all entries asks for nothing. -/
theorem rehash_quiet
    (h : loop (rehashRound b capacity newBuckets newCapacity hashOf) fuel (i, w) = .ok w') :
    w.Quiet w' := by
  refine loop_keeps (I := fun s => w.Quiet s.2) (Q := w.Quiet) (fun s o hs hround => ?_) fuel
    (i, w) w' (.refl w) h
  obtain ⟨i, w₁⟩ := s
  rw [rehashRound] at hround
  split at hround
  · obtain ⟨node, -, hround⟩ := bind_eq_ok.1 hround
    obtain ⟨w₂, hmove, hround⟩ := bind_eq_ok.1 hround
    cases hround
    exact hs.trans (rehashNode_quiet hmove)
  · cases hround
    exact hs

/-! ## Bucket arrays -/

theorem bucketsCreate_explains (ha : Backed a) {x : (Status × ℕ) × Memory}
    (h : bucketsCreate capacity a w = .ok x) :
    w.Explains x.2 (sizeMax < sizeofBucket * capacity) x.1.1 := by
  obtain ⟨_, -, h⟩ := bind_eq_ok.1 h
  cases hmul : sizeMulOverflow sizeofBucket capacity with
  | none =>
    rw [hmul] at h
    cases h
    exact .overflow (sizeMulOverflow_eq_none.1 hmul)
  | some allocSize =>
    rw [hmul] at h
    obtain ⟨⟨⟨st, p⟩, w₁⟩, halloc, h⟩ := bind_eq_ok.1 h
    have hx := Allocator.alloc_explains ha halloc
    dsimp only at h hx
    split at h
    · cases h
      exact hx.mono False.elim
    · rename_i hok
      rw [not_not.1 hok] at hx
      obtain ⟨w₂, hclear, h⟩ := bind_eq_ok.1 h
      cases h
      exact .ok (hx.asked_of_ok.andThen ((Memory.clearBuckets_quiet hclear).asked id))

/-- **Rehashing** asks for the new array. -/
theorem bucketsRehash_explains (ha : Backed a) {x : (Status × ℕ) × Memory}
    (h : bucketsRehash b capacity newCapacity a hashOf w = .ok x) :
    w.Explains x.2 (sizeMax < sizeofBucket * newCapacity) x.1.1 := by
  obtain ⟨_, -, h⟩ := bind_eq_ok.1 h
  obtain ⟨_, -, h⟩ := bind_eq_ok.1 h
  obtain ⟨_, -, h⟩ := bind_eq_ok.1 h
  obtain ⟨⟨⟨st, p⟩, w₁⟩, hcreate, h⟩ := bind_eq_ok.1 h
  have hx := bucketsCreate_explains ha hcreate
  dsimp only at h hx
  split at h
  · cases h
    exact hx
  · rename_i hok
    rw [not_not.1 hok] at hx
    obtain ⟨w₂, hmove, h⟩ := bind_eq_ok.1 h
    obtain ⟨w₃, hdealloc, h⟩ := bind_eq_ok.1 h
    cases h
    exact .ok (hx.asked_of_ok.andThen (((rehash_quiet hmove).asked id).andThen
      (Allocator.dealloc_asked ha hdealloc)))

section Destroy

variable {destroyEntry : ℕ → Memory → Result Memory}
  (hdestroy : ∀ p w w', destroyEntry p w = .ok w' → w.Asked w' False)

include hdestroy

theorem destroyNode_asked (h : loop (destroyNodeRound destroyEntry) fuel (node, w) = .ok w') :
    w.Asked w' False := by
  refine loop_keeps (I := fun s => w.Asked s.2 False) (Q := fun w' => w.Asked w' False)
    (fun s o hs hround => ?_) fuel (node, w) w' (.refl w id) h
  obtain ⟨node, w₁⟩ := s
  rw [destroyNodeRound] at hround
  split at hround
  · obtain ⟨next, -, hround⟩ := bind_eq_ok.1 hround
    obtain ⟨w₂, hentry, hround⟩ := bind_eq_ok.1 hround
    cases hround
    exact hs.andThen (hdestroy _ _ _ hentry)
  · cases hround
    exact hs

/-- Destroying the entries asks for nothing where destroying one does not. -/
theorem destroyEntries_asked
    (h : loop (destroyRound b capacity destroyEntry) fuel (i, w) = .ok w') : w.Asked w' False := by
  refine loop_keeps (I := fun s => w.Asked s.2 False) (Q := fun w' => w.Asked w' False)
    (fun s o hs hround => ?_) fuel (i, w) w' (.refl w id) h
  obtain ⟨i, w₁⟩ := s
  rw [destroyRound] at hround
  split at hround
  · obtain ⟨node, -, hround⟩ := bind_eq_ok.1 hround
    obtain ⟨w₂, hrow, hround⟩ := bind_eq_ok.1 hround
    cases hround
    exact hs.andThen (destroyNode_asked hdestroy hrow)
  · cases hround
    exact hs

end Destroy

end HashCommon

/-! ## Tables -/

namespace Table

/-- There is no array for so many entries. -/
def TooMany (count : ℕ) : Prop := ∀ c, Capacity c → 3 * c < 4 * count

variable {t t' : Table} {n : ℕ} {w w' : Memory} {rows : ℕ → List Entry}

theorem create_explains {handleSize keySize : ℕ}
    {keyEq : Option (List UInt8 → List UInt8 → Bool)} {allocator : Option (Allocator Memory)}
    (hbacked : Backed (Allocator.copy allocator)) {x : (Status × Option Table) × Memory}
    (h : create handleSize keySize keyEq allocator w = .ok x) : w.Explains x.2 False x.1.1 := by
  obtain ⟨y, hcreate, h⟩ := bind_eq_ok.1 h
  cases h
  refine createOwner_explains (r := some (Allocator.copy allocator)) hbacked rfl
    (fun _ _ hbuckets => ?_) hcreate
  exact (bucketsCreate_explains hbacked hbuckets).mono (by decide)

theorem destroy_asked (ha : Backed t.allocator) (h : destroy t w = .ok w') :
    w.Asked w' False := by
  obtain ⟨w₁, hbuckets, hself⟩ := bind_eq_ok.1 h
  obtain ⟨_, -, hbuckets⟩ := bind_eq_ok.1 hbuckets
  obtain ⟨w₂, hentries, hbuckets⟩ := bind_eq_ok.1 hbuckets
  have hfirst := destroyEntries_asked (fun _ _ _ => Allocator.dealloc_asked ha) hentries
  exact (hfirst.andThen (Allocator.dealloc_asked ha hbuckets)).andThen
    (Allocator.dealloc_asked ha hself)

/-- Reserving overflows when there is no array for so many entries. -/
theorem reserve_overflow [Platform] (h : Lies t n w rows) {size : ℕ}
    {x : (Status × Table) × Memory} (hreserve : reserve t size w = .ok x)
    (hst : x.1.1 = .overflow) : TooMany size := by
  obtain ⟨st, t', w', rows', hreserve', -, -, -, -, -, hover, -⟩ := reserve_spec h size
  cases hreserve.symm.trans hreserve'
  exact hover.1 hst

/-- **Reserving** asks for the new array. -/
theorem reserve_explains [Platform] (h : Lies t n w rows) {size : ℕ}
    {x : (Status × Table) × Memory} (hreserve : reserve t size w = .ok x) :
    w.Explains x.2 (TooMany size) x.1.1 := by
  have hover := reserve_overflow h hreserve
  obtain ⟨⟨st, c⟩, hcapacity, hc⟩ := capacityForSize_spec size
  rw [reserve, hcapacity, ok_bind] at hreserve
  dsimp only at hreserve
  split at hreserve
  · rename_i hst
    cases hreserve
    rcases hc with ⟨rfl, -⟩ | ⟨rfl, -⟩
    · exact absurd rfl hst
    · exact .overflow (hover rfl)
  split at hreserve
  · cases hreserve
    exact .ok (.refl w id)
  obtain ⟨⟨⟨st', p⟩, w₁⟩, hrehash, hreserve⟩ := bind_eq_ok.1 hreserve
  have hx := bucketsRehash_explains h.backed hrehash
  dsimp only at hreserve hx
  split at hreserve
  · cases hreserve
    refine ⟨hx.asked, fun hst => (hx.fails hst).imp_right fun hfails => ?_⟩
    exact ⟨hfails.1, hover hfails.1⟩
  · rename_i hok
    cases hreserve
    rw [not_not.1 hok] at hx
    exact .ok hx.asked_of_ok

/-- Making room for one more entry asks for what reserving does. -/
theorem makeRoom_explains [Platform] (h : Lies t n w rows) {hash bucket : ℕ}
    {x : (Status × Table × ℕ) × Memory} (hroom : makeRoom t hash bucket w = .ok x) :
    w.Explains x.2 (TooMany (t.size + 1)) x.1.1 := by
  unfold makeRoom at hroom
  split at hroom
  · cases hadd : sizeAddOverflow t.size 1 with
    | none =>
      rw [hadd] at hroom
      cases hroom
      refine .overflow fun c hc => ?_
      have hsize := (sizeAddOverflow_eq_none (by decide)).1 hadd
      have hthree := hc.2.1
      omega
    | some reserveSize =>
      rw [hadd] at hroom
      obtain ⟨rfl, -⟩ := (sizeAddOverflow_eq_some (by decide)).1 hadd
      obtain ⟨y, hreserve, hroom⟩ := bind_eq_ok.1 hroom
      cases hroom
      exact reserve_explains h hreserve
  · cases hroom
    exact .ok (.refl w id)

/-- **A new entry** asks for its block, and for a larger array before that. -/
theorem addEntry_explains [Platform] (h : Lies t n w rows) {hash size : ℕ}
    {fill : ℕ → Memory → Result Memory}
    (hfill : ∀ p w₁ w₂, fill p w₁ = .ok w₂ → w₁.Quiet w₂) {x : (Status × Table) × Memory}
    (hadd : addEntry t hash (hash % t.capacity) (some size) fill w = .ok x) :
    w.Explains x.2 (TooMany (t.size + 1)) x.1.1 := by
  obtain ⟨st, t₁, bucket, w₁, rows₁, hroom, h₁, -⟩ := makeRoom_spec h hash
  have hx := makeRoom_explains h hroom
  rw [addEntry, hroom, ok_bind] at hadd
  dsimp only at hadd hx
  split at hadd
  · cases hadd
    exact hx
  · rename_i hok
    rw [not_not.1 hok] at hx
    obtain ⟨⟨⟨st', p⟩, w₂⟩, halloc, hadd⟩ := bind_eq_ok.1 hadd
    have hentry : w.Explains w₂ (TooMany (t.size + 1)) st' :=
      ((Allocator.alloc_explains h₁.backed halloc).mono False.elim).after hx.asked_of_ok
    dsimp only at hadd
    split at hadd
    · cases hadd
      exact hentry
    · rename_i hok'
      obtain ⟨w₃, hset, hadd⟩ := bind_eq_ok.1 hadd
      obtain ⟨w₄, hfilled, hadd⟩ := bind_eq_ok.1 hadd
      obtain ⟨w₅, hpush, hadd⟩ := bind_eq_ok.1 hadd
      obtain ⟨_, -, hadd⟩ := bind_eq_ok.1 hadd
      cases hadd
      rw [not_not.1 hok'] at hentry
      have hquiet := ((Memory.setEntryHash_quiet hset).trans (hfill _ _ _ hfilled)).trans
        (bucketPushfront_quiet hpush)
      exact hentry.keep (hquiet.asked id)

/-- **A removal** asks for nothing. -/
theorem remove_asked (ha : Backed t.allocator) {key : Arg} {x : Table × Memory}
    (h : remove t key w = .ok x) : w.Asked x.2 False := by
  obtain ⟨_, -, h⟩ := bind_eq_ok.1 h
  obtain ⟨⟨node, w₁⟩, hunlink, h⟩ := bind_eq_ok.1 h
  have hquiet := (bucketRemove_quiet hunlink).asked id
  dsimp only at h
  split at h
  · obtain ⟨w₂, hdealloc, h⟩ := bind_eq_ok.1 h
    obtain ⟨_, -, h⟩ := bind_eq_ok.1 h
    cases h
    exact hquiet.andThen (Allocator.dealloc_asked ha hdealloc)
  · cases h
    exact hquiet

end Table

/-! ## Maps -/

namespace Hashmap

variable [Platform] {m : Hashmap} {w : Memory} {rows : ℕ → List Entry}

theorem create_explains {keySize valueSize : ℕ}
    {keyEq : Option (List UInt8 → List UInt8 → Bool)} {allocator : Option (Allocator Memory)}
    (hbacked : Backed (Allocator.copy allocator)) {x : (Status × Option Hashmap) × Memory}
    (h : create keySize valueSize keyEq allocator w = .ok x) :
    w.Explains x.2 (entrySize keySize valueSize = none) x.1.1 := by
  obtain ⟨_, -, h⟩ := bind_eq_ok.1 h
  obtain ⟨_, -, h⟩ := bind_eq_ok.1 h
  split at h
  · rename_i hsize
    cases h
    exact .overflow hsize
  · obtain ⟨y, hcreate, h⟩ := bind_eq_ok.1 h
    cases h
    exact (Table.create_explains hbacked hcreate).mono False.elim

theorem reserve_explains (h : Lies m w rows) {size : ℕ} {x : (Status × Hashmap) × Memory}
    (hreserve : reserve m size w = .ok x) : w.Explains x.2 (Table.TooMany size) x.1.1 := by
  obtain ⟨y, htable, hout⟩ := bind_eq_ok.1 hreserve
  cases hout
  exact Table.reserve_explains h.table htable

/-- **A put** asks for what a new entry asks for. -/
theorem put_explains (h : Lies m w rows) {key value : Arg} {x : (Status × Hashmap) × Memory}
    (hput : put m key value w = .ok x) :
    w.Explains x.2 (Table.TooMany (m.size + 1)) x.1.1 := by
  obtain ⟨_, -, hput⟩ := bind_eq_ok.1 hput
  obtain ⟨_, -, hput⟩ := bind_eq_ok.1 hput
  obtain ⟨bytes, -, hput⟩ := bind_eq_ok.1 hput
  obtain ⟨node, -, hput⟩ := bind_eq_ok.1 hput
  split at hput
  · obtain ⟨w₁, hcopy, hput⟩ := bind_eq_ok.1 hput
    cases hput
    exact .ok ((Memory.memcpy_rewritten hcopy).toQuiet.asked id)
  · rw [h.entrySize] at hput
    obtain ⟨y, hadd, hput⟩ := bind_eq_ok.1 hput
    cases hput
    refine Table.addEntry_explains h.table (fun p w₁ w₂ hfill => ?_) hadd
    obtain ⟨w₃, hcopy, hfill⟩ := bind_eq_ok.1 hfill
    exact ((Memory.memcpy_rewritten hcopy).trans (Memory.memcpy_rewritten hfill)).toQuiet

end Hashmap

/-! ## Sets -/

namespace Hashset

variable [Platform] {s : Hashset} {w : Memory} {rows : ℕ → List Entry}

theorem create_explains {elemSize : ℕ} {elemEq : Option (List UInt8 → List UInt8 → Bool)}
    {allocator : Option (Allocator Memory)} (hbacked : Backed (Allocator.copy allocator))
    {x : (Status × Option Hashset) × Memory} (h : create elemSize elemEq allocator w = .ok x) :
    w.Explains x.2 (entrySize elemSize = none) x.1.1 := by
  obtain ⟨_, -, h⟩ := bind_eq_ok.1 h
  split at h
  · rename_i hsize
    cases h
    exact .overflow hsize
  · exact (Table.create_explains hbacked h).mono False.elim

/-- **An insertion** asks for what a new entry asks for. -/
theorem insert_explains (h : Lies s w rows) {elem : Arg} {x : (Status × Hashset) × Memory}
    (hinsert : insert s elem w = .ok x) :
    w.Explains x.2 (Table.TooMany (s.size + 1)) x.1.1 := by
  obtain ⟨_, -, hinsert⟩ := bind_eq_ok.1 hinsert
  obtain ⟨bytes, -, hinsert⟩ := bind_eq_ok.1 hinsert
  obtain ⟨node, -, hinsert⟩ := bind_eq_ok.1 hinsert
  split at hinsert
  · cases hinsert
    exact .ok (.refl w id)
  · rw [h.entrySize] at hinsert
    exact Table.addEntry_explains h.table (fun _ _ _ h => (Memory.memcpy_rewritten h).toQuiet)
      hinsert

end Hashset

end K4c
