import Mathlib
import K4c.Hash.HashmapCalls

/-!
# The layout of a map entry

`k4c_hashmap_create` checks the size of an entry, `k4c_hashmap_put` computes it
again, and the accessors round the size of a key without a check.

* `entrySize_eq` — the checks fail exactly where the size is no `size_t`.
* `create_overflow_iff` — creating a map reports an overflow exactly there.
* `put_overflow` — a put that reports one could not grow the table.
* `Laid` — header, key and value are apart and inside an entry of this size.
* `entry_layout` — **the layout of an entry** of a map that could be created.
-/

namespace K4c

open Exec HashCommon

/-! ## Statuses -/

namespace Allocator

variable {ν : Type} {libc : Libc ν} {a : Option (Allocator ν)} {w w' : ν} {size p : ℕ}
  {st : Status}

theorem answer_status {res : ℕ × ν} (h : answer res = ((st, p), w')) :
    st = .ok ∨ st = .noMemory := by
  rw [answer] at h
  split at h <;> cases h
  · exact .inr rfl
  · exact .inl rfl

/-- A request is granted, or there is no memory. -/
theorem alloc_status (h : alloc libc a w size = .ok ((st, p), w')) : st = .ok ∨ st = .noMemory := by
  rw [alloc] at h
  split at h
  · obtain ⟨res, -, hres⟩ := bind_eq_ok.1 h
    exact answer_status (Except.ok.inj hres)
  · obtain ⟨res, -, hres⟩ := bind_eq_ok.1 h
    exact answer_status (Except.ok.inj hres)

end Allocator

theorem HashCommon.bucketsCreate_status {allocator : Allocator Memory} {w w' : Memory}
    {st : Status} {buckets : ℕ}
    (h : bucketsCreate defaultCapacity allocator w = .ok ((st, buckets), w')) :
    st ≠ .overflow := by
  have hsize : sizeMulOverflow sizeofBucket defaultCapacity = some 128 := by decide
  rw [bucketsCreate, check_of (by decide), ok_bind, hsize] at h
  obtain ⟨⟨⟨st₁, p⟩, w₁⟩, halloc, h⟩ := bind_eq_ok.1 h
  rcases Allocator.alloc_status halloc with rfl | rfl
  · obtain ⟨w₂, -, h⟩ := bind_eq_ok.1 h
    cases h
    decide
  · cases h
    decide

/-- The allocations of a constructor do not compute a size that could overflow. -/
theorem Table.create_status {handleSize keySize : ℕ}
    {keyEq : Option (List UInt8 → List UInt8 → Bool)} {allocator : Option (Allocator Memory)}
    {w w' : Memory} {st : Status} {out : Option Table}
    (h : create handleSize keySize keyEq allocator w = .ok ((st, out), w')) :
    st ≠ .overflow := by
  obtain ⟨⟨⟨st₁, owner⟩, w₁⟩, hcreate, h⟩ := bind_eq_ok.1 h
  cases h
  obtain ⟨⟨⟨st₂, self⟩, w₂⟩, halloc, hrest⟩ := bind_eq_ok.1 hcreate
  rcases Allocator.alloc_status halloc with rfl | rfl
  · obtain ⟨⟨⟨st₃, buckets⟩, w₃⟩, hbuckets, hrest⟩ := bind_eq_ok.1 hrest
    have hne := bucketsCreate_status hbuckets
    by_cases hst : st₃ = .ok
    · subst hst
      cases hrest
      decide
    · dsimp only at hrest
      rw [if_pos hst] at hrest
      obtain ⟨w₄, -, hrest⟩ := bind_eq_ok.1 hrest
      cases hrest
      exact hne
  · cases hrest
    decide

namespace Hashmap

section Layout

variable [Platform] {keySize valueSize size : ℕ}

/-! ## The size of an entry -/

/-- The size of an entry, with nothing to wrap. -/
def fullSize (keySize valueSize : ℕ) : ℕ := sizeofEntry + (roundUp keySize + valueSize)

/-- **The checked sums** fail exactly where the size of an entry is no `size_t`. -/
theorem entrySize_eq (hvalue : valueSize ≤ sizeMax) :
    entrySize keySize valueSize =
      if fullSize keySize valueSize ≤ sizeMax then some (fullSize keySize valueSize) else none := by
  rw [entrySize, alignUpOverflow_eq, fullSize]
  by_cases hround : roundUp keySize ≤ sizeMax
  swap
  · rw [if_neg hround, if_neg (by omega)]
    rfl
  rw [if_pos hround, Option.bind_some]
  by_cases hpayload : roundUp keySize + valueSize ≤ sizeMax
  swap
  · have hadd : sizeAddOverflow (roundUp keySize) valueSize = none :=
      (sizeAddOverflow_eq_none hvalue).2 (by omega)
    rw [hadd, if_neg (by omega)]
    rfl
  have hadd : sizeAddOverflow (roundUp keySize) valueSize = some (roundUp keySize + valueSize) :=
    (sizeAddOverflow_eq_some hvalue).2 ⟨rfl, hpayload⟩
  rw [hadd, Option.bind_some]
  by_cases hfull : sizeofEntry + (roundUp keySize + valueSize) ≤ sizeMax
  · rw [if_pos hfull]
    exact (sizeAddOverflow_eq_some hpayload).2 ⟨rfl, hfull⟩
  · rw [if_neg hfull]
    exact (sizeAddOverflow_eq_none hpayload).2 (by omega)

/-- **Creating a map** reports an overflow exactly where the size of an entry is no
`size_t`. -/
theorem create_overflow_iff (hkey : 0 < keySize) (hvalue : 0 < valueSize)
    (hmax : valueSize ≤ sizeMax) (keyEq : Option (List UInt8 → List UInt8 → Bool))
    (allocator : Option (Allocator Memory)) (w : Memory) :
    (∃ out w', create keySize valueSize keyEq allocator w = .ok ((.overflow, out), w')) ↔
      sizeMax < fullSize keySize valueSize := by
  rw [create, check_of hkey, ok_bind, check_of hvalue, ok_bind, entrySize_eq hmax]
  by_cases hfull : fullSize keySize valueSize ≤ sizeMax
  · rw [if_pos hfull]
    refine iff_of_false ?_ (by omega)
    rintro ⟨out, w', hcreate⟩
    obtain ⟨⟨⟨st, table⟩, w₁⟩, htable, hcreate⟩ := bind_eq_ok.1 hcreate
    cases hcreate
    exact Table.create_status htable rfl
  · rw [if_neg hfull]
    exact iff_of_true ⟨none, w, rfl⟩ (by omega)

/-! ## Putting -/

/-- An addition with a size at hand overflows only where the table cannot grow. -/
theorem addEntry_overflow {t t' : Table} {hash bucket : ℕ} {fill : ℕ → Memory → Result Memory}
    {w w' : Memory}
    (h : t.addEntry hash bucket (some size) fill w = .ok ((.overflow, t'), w')) :
    ∃ bucket', t.makeRoom hash bucket w = .ok ((.overflow, t', bucket'), w') := by
  obtain ⟨⟨⟨st, t₁, bucket₁⟩, w₁⟩, hroom, h⟩ := bind_eq_ok.1 h
  by_cases hst : st = .ok
  swap
  · dsimp only at h
    rw [if_pos hst] at h
    cases h
    exact ⟨bucket₁, hroom⟩
  -- there is room, and what is left reports no overflow
  subst hst
  obtain ⟨⟨⟨st₂, entry⟩, w₂⟩, halloc, h⟩ := bind_eq_ok.1 h
  rcases Allocator.alloc_status halloc with rfl | rfl
  · obtain ⟨w₃, -, h⟩ := bind_eq_ok.1 h
    obtain ⟨w₄, -, h⟩ := bind_eq_ok.1 h
    obtain ⟨w₅, -, h⟩ := bind_eq_ok.1 h
    obtain ⟨n, -, h⟩ := bind_eq_ok.1 h
    cases h
  · cases h

/-- **A put** into a map with an entry size overflows only where the table cannot grow. -/
theorem put_overflow {m m' : Hashmap} {key value : Arg} {w w' : Memory}
    (hsize : entrySize m.keySize m.valueSize = some size)
    (h : put m key value w = .ok ((.overflow, m'), w')) :
    ∃ hash bucket bucket',
      m.toTable.makeRoom hash bucket w = .ok ((.overflow, m'.toTable, bucket'), w') := by
  obtain ⟨-, -, h⟩ := bind_eq_ok.1 h
  obtain ⟨-, -, h⟩ := bind_eq_ok.1 h
  obtain ⟨bytes, -, h⟩ := bind_eq_ok.1 h
  obtain ⟨node, -, h⟩ := bind_eq_ok.1 h
  split at h
  · obtain ⟨w₁, -, h⟩ := bind_eq_ok.1 h
    cases h
  · rw [hsize] at h
    obtain ⟨⟨⟨st, t⟩, w₁⟩, hadd, h⟩ := bind_eq_ok.1 h
    cases h
    obtain ⟨bucket', hroom⟩ := addEntry_overflow hadd
    exact ⟨_, _, bucket', hroom⟩

/-! ## Inside an entry -/

/-- The bytes of the node, the hash and the alignment, from the start of the block. -/
def headerBytes : Set ℕ := Set.Ico 0 sizeofEntry

/-- The bytes that a put copies the key to. -/
def keyBytes (m : Hashmap) (entry : ℕ) : Set ℕ :=
  Set.Ico (sizeofEntry + (Table.entryKey entry).offset)
    (sizeofEntry + (Table.entryKey entry).offset + m.keySize)

/-- The bytes that a put copies the value to, and that the accessors lead to. -/
def valueBytes (m : Hashmap) (entry : ℕ) : Set ℕ :=
  Set.Ico (sizeofEntry + (m.entryValue entry).offset)
    (sizeofEntry + (m.entryValue entry).offset + m.valueSize)

/-- An entry in a block of this size. -/
structure Laid (m : Hashmap) (entry size : ℕ) : Prop where
  header_key : Disjoint headerBytes (m.keyBytes entry)
  header_value : Disjoint headerBytes (m.valueBytes entry)
  key_value : Disjoint (m.keyBytes entry) (m.valueBytes entry)
  header_le : headerBytes ⊆ Set.Ico 0 size
  key_le : m.keyBytes entry ⊆ Set.Ico 0 size
  value_le : m.valueBytes entry ⊆ Set.Ico 0 size
  offset_dvd : memoryAlign ∣ (m.entryValue entry).offset
  aligned : memoryAlign ∣ sizeofEntry + (m.entryValue entry).offset

/-- The header leaves `data` aligned. -/
theorem memoryAlign_dvd_sizeofEntry : memoryAlign ∣ sizeofEntry := by
  have hle := memoryAlign_le
  cases hround : alignUpOverflow 16 memoryAlign with
  | none =>
    have hlarge := alignUpOverflow_eq_none.1 hround
    unfold sizeMax at hlarge
    omega
  | some offset =>
    rw [sizeofEntry, alignUp_eq hround]
    exact Nat.dvd_add (alignUpOverflow_eq_some hround).1 Platform.maxAlignSize_dvd

theorem laid (m : Hashmap) (hsize : entrySize m.keySize m.valueSize = some size) (entry : ℕ) :
    m.Laid entry size := by
  obtain ⟨rfl, hle⟩ := entrySize_eq_some hsize
  obtain ⟨offset, hround, -⟩ := Option.bind_eq_some_iff.1 hsize
  have hoffset : (m.entryValue entry).offset = valueOffset m.keySize := rfl
  have hkey : (Table.entryKey entry).offset = 0 := rfl
  have hdvd : memoryAlign ∣ valueOffset m.keySize := by
    rw [valueOffset, alignUp_eq hround]
    exact (alignUpOverflow_eq_some hround).1
  refine ⟨?_, ?_, ?_, ?_, ?_, ?_, hdvd, Nat.dvd_add memoryAlign_dvd_sizeofEntry hdvd⟩
  · exact Set.Ico_disjoint_Ico_same.mono_right (Set.Ico_subset_Ico_left (by omega))
  · exact Set.Ico_disjoint_Ico_same.mono_right (Set.Ico_subset_Ico_left (by omega))
  · rw [keyBytes, valueBytes, hoffset, hkey, Set.Ico_disjoint_Ico]
    omega
  · exact Set.Ico_subset_Ico_right (by omega)
  · rw [keyBytes, hkey]
    exact Set.Ico_subset_Ico (by omega) (by omega)
  · rw [valueBytes, hoffset]
    exact Set.Ico_subset_Ico (by omega) (by omega)

/-- **The layout of an entry.**  Creating a map reports an overflow exactly where the
header, the rounded key and the value are more than a `size_t`; where it does not, a
put finds the same size without an overflow, the accessors round as the checks do, and
the parts of an entry are apart, inside its block and aligned. -/
theorem entry_layout (hkey : 0 < keySize) (hvalue : 0 < valueSize) (hmax : valueSize ≤ sizeMax)
    (keyEq : Option (List UInt8 → List UInt8 → Bool)) (allocator : Option (Allocator Memory))
    (w : Memory) :
    ((∃ out w', create keySize valueSize keyEq allocator w = .ok ((.overflow, out), w')) ↔
      sizeMax < sizeofEntry + (roundUp keySize + valueSize)) ∧
    ((¬ ∃ out w', create keySize valueSize keyEq allocator w = .ok ((.overflow, out), w')) →
      alignUpOverflow keySize memoryAlign = some (alignUp keySize memoryAlign) ∧
      ∃ size, entrySize keySize valueSize = some size ∧
        ∀ m : Hashmap, m.keySize = keySize → m.valueSize = valueSize →
          (∀ entry, m.Laid entry size) ∧
          ∀ key value w₁ m' w₁', put m key value w₁ = .ok ((.overflow, m'), w₁') →
            ∃ hash bucket bucket',
              m.toTable.makeRoom hash bucket w₁ = .ok ((.overflow, m'.toTable, bucket'), w₁')) := by
  have hiff := create_overflow_iff hkey hvalue hmax keyEq allocator w
  refine ⟨hiff, fun hno => ?_⟩
  have hfull : fullSize keySize valueSize ≤ sizeMax := not_lt.1 fun hlt => hno (hiff.2 hlt)
  have hsize : entrySize keySize valueSize = some (fullSize keySize valueSize) := by
    rw [entrySize_eq hmax, if_pos hfull]
  obtain ⟨offset, hround, -⟩ := Option.bind_eq_some_iff.1 hsize
  refine ⟨by rw [alignUp_eq hround, hround], _, hsize, ?_⟩
  rintro m rfl rfl
  exact ⟨m.laid hsize, fun key value w₁ m' w₁' => put_overflow hsize⟩

end Layout

section Example

local instance layoutPlatform : Platform := lp64

/-- A key of 3 bytes and a value of 5: the value is 16 bytes behind the header of 48. -/
theorem entry_layout_small : ∃ size, entrySize 3 5 = some size ∧ size = 69 ∧
    ∀ m : Hashmap, m.keySize = 3 → m.valueSize = 5 → ∀ entry, m.Laid entry size := by
  obtain ⟨hiff, hlayout⟩ := entry_layout (show 0 < 3 by decide) (show 0 < 5 by decide)
    (by decide) none none (.empty fun _ => none)
  have hfits : ¬ sizeMax < sizeofEntry + (roundUp 3 + 5) := by decide
  obtain ⟨-, size, hsize, hmap⟩ := hlayout fun hover => hfits (hiff.1 hover)
  refine ⟨size, hsize, ?_, fun m hkey hvalue => (hmap m hkey hvalue).1⟩
  have h69 : entrySize 3 5 = some 69 := by decide
  exact Option.some.inj (hsize.symm.trans h69)

end Example

end Hashmap

end K4c
