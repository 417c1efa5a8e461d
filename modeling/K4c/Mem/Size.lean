import Mathlib.Tactic
import K4c.Lib.Exec

/-!
# Sizes

`size_t` values are natural numbers up to `sizeMax`.  Where the source computes
with them unguarded, `sizeAdd`, `sizeSub` and `sizeMul` report a wrap as a fault,
so that a call proved to return has computed every size exactly.  Where the
source guards a computation, the guard is modelled as it stands: the `Overflow`
functions of `mem/size.h` return `none` when the C function returns `true`.

`Platform` is what the target fixes beyond the width of a word: the alignment of
`max_align_t`, a power of two no larger than 32, and its size.
-/

namespace K4c

open Exec

/-- `SIZE_MAX` on an LP64 target. -/
def sizeMax : ℕ := 2 ^ 64 - 1

/-- The part of the target that the allocators depend on. -/
class Platform where
  /-- `_Alignof(max_align_t)` is `2 ^ alignBits`. -/
  alignBits : ℕ
  /-- No LP64 target aligns `max_align_t` to more than 32 bytes. -/
  alignBits_le : alignBits ≤ 5
  /-- `sizeof(max_align_t)`. -/
  maxAlignSize : ℕ
  /-- The size of a type is a multiple of its alignment. -/
  maxAlignSize_dvd : 2 ^ alignBits ∣ maxAlignSize

/-- x86-64 and AArch64: `max_align_t` is aligned to 16 bytes, and has 32. -/
@[reducible] def lp64 : Platform := ⟨4, by decide, 32, by decide⟩

/-- `K4C_MEMORY_ALIGN`. -/
def memoryAlign [P : Platform] : ℕ := 2 ^ P.alignBits

/-! ## Unguarded arithmetic -/

/-- `a + b` in `size_t`. -/
def sizeAdd (a b : ℕ) : Result ℕ := if a + b ≤ sizeMax then .ok (a + b) else .error .wrap

/-- `a - b` in `size_t`. -/
def sizeSub (a b : ℕ) : Result ℕ := if b ≤ a then .ok (a - b) else .error .wrap

/-- `a * b` in `size_t`. -/
def sizeMul (a b : ℕ) : Result ℕ := if a * b ≤ sizeMax then .ok (a * b) else .error .wrap

@[simp] theorem sizeAdd_of_le {a b : ℕ} (h : a + b ≤ sizeMax) : sizeAdd a b = .ok (a + b) :=
  if_pos h

@[simp] theorem sizeSub_of_le {a b : ℕ} (h : b ≤ a) : sizeSub a b = .ok (a - b) := if_pos h

@[simp] theorem sizeMul_of_le {a b : ℕ} (h : a * b ≤ sizeMax) : sizeMul a b = .ok (a * b) :=
  if_pos h

/-! ## `mem/size.h` -/

/-- `k4c_size_add_overflow`. -/
def sizeAddOverflow (lhs rhs : ℕ) : Option ℕ :=
  if lhs > sizeMax - rhs then none else some (lhs + rhs)

/-- `k4c_size_mul_overflow`. -/
def sizeMulOverflow (lhs rhs : ℕ) : Option ℕ :=
  if rhs ≠ 0 ∧ lhs > sizeMax / rhs then none else some (lhs * rhs)

/-- `~mask` on `size_t`. -/
def sizeNot (mask : ℕ) : ℕ := sizeMax - mask

/-- `k4c_align_up`; the sum wraps, as it does in C. -/
def alignUp (value alignment : ℕ) : ℕ :=
  (value + (alignment - 1)) % (sizeMax + 1) &&& sizeNot (alignment - 1)

/-- `k4c_align_up_overflow`. -/
def alignUpOverflow (value alignment : ℕ) : Option ℕ :=
  match sizeAddOverflow value (alignment - 1) with
  | none => none
  | some sum => some (sum &&& sizeNot (alignment - 1))

theorem sizeAddOverflow_eq_some {a b c : ℕ} (hb : b ≤ sizeMax) :
    sizeAddOverflow a b = some c ↔ a + b = c ∧ a + b ≤ sizeMax := by
  unfold sizeAddOverflow
  split
  · simp only [reduceCtorEq, false_iff]
    omega
  · simp only [Option.some.injEq]
    omega

theorem add_of_sizeAddOverflow {a b c : ℕ} (h : sizeAddOverflow a b = some c) : a + b = c := by
  unfold sizeAddOverflow at h
  split at h
  · cases h
  · exact Option.some.inj h

theorem sizeAddOverflow_eq_none {a b : ℕ} (hb : b ≤ sizeMax) :
    sizeAddOverflow a b = none ↔ sizeMax < a + b := by
  unfold sizeAddOverflow
  split
  · simp only [true_iff]
    omega
  · simp only [reduceCtorEq, false_iff]
    omega

theorem sizeMulOverflow_eq_some {a b c : ℕ} :
    sizeMulOverflow a b = some c ↔ a * b = c ∧ a * b ≤ sizeMax := by
  unfold sizeMulOverflow
  rcases Nat.eq_zero_or_pos b with rfl | hb
  · simp
  · have h : a ≤ sizeMax / b ↔ a * b ≤ sizeMax := Nat.le_div_iff_mul_le hb
    split
    · rename_i hgt
      have : ¬ a * b ≤ sizeMax := by rw [← h]; omega
      simp [this]
    · rename_i hle
      have : a * b ≤ sizeMax := by
        rw [← h]
        by_contra hc
        exact hle ⟨by omega, by omega⟩
      simp [this]

theorem sizeMulOverflow_eq_none {a b : ℕ} : sizeMulOverflow a b = none ↔ sizeMax < a * b := by
  rw [← not_le, Option.eq_none_iff_forall_ne_some]
  refine ⟨fun h hle => h _ (sizeMulOverflow_eq_some.2 ⟨rfl, hle⟩), fun h c hc => ?_⟩
  exact h (sizeMulOverflow_eq_some.1 hc).2

/-! ## Rounding up to the alignment -/

/-- Masking off the low `k` bits rounds down to a multiple of `2 ^ k`. -/
theorem and_sizeNot_two_pow {x k : ℕ} (hx : x ≤ sizeMax) (hk : k ≤ 64) :
    x &&& sizeNot (2 ^ k - 1) = x / 2 ^ k * 2 ^ k := by
  have hpow : 0 < 2 ^ k := Nat.two_pow_pos k
  have hle : 2 ^ k ≤ 2 ^ 64 := Nat.pow_le_pow_right (by decide) hk
  have hmask : sizeNot (2 ^ k - 1) = 2 ^ 64 - ((2 ^ k - 1) + 1) := by
    unfold sizeNot sizeMax
    omega
  apply Nat.eq_of_testBit_eq
  intro i
  rw [Nat.testBit_and, hmask, Nat.testBit_two_pow_sub_succ (by omega), Nat.testBit_two_pow_sub_one,
    Nat.testBit_mul_two_pow, Nat.testBit_div_two_pow]
  by_cases hik : i < k
  · have : ¬ k ≤ i := by omega
    simp [hik, this]
  · have hki : k ≤ i := by omega
    have hsub : i - k + k = i := by omega
    by_cases hi : i < 64
    · simp [hik, hki, hi, hsub]
    · have hlow : x.testBit i = false := by
        apply Nat.testBit_lt_two_pow
        calc x ≤ sizeMax := hx
          _ < 2 ^ 64 := by decide
          _ ≤ 2 ^ i := Nat.pow_le_pow_right (by decide) (by omega)
      simp [hik, hki, hi, hsub, hlow]

section Rounding

variable [Platform]

theorem memoryAlign_pos : 0 < memoryAlign := Nat.two_pow_pos _

theorem memoryAlign_dvd_32 : memoryAlign ∣ 32 :=
  (Nat.pow_dvd_pow 2 Platform.alignBits_le : 2 ^ Platform.alignBits ∣ 2 ^ 5)

theorem memoryAlign_le : memoryAlign ≤ 32 := Nat.le_of_dvd (by decide) memoryAlign_dvd_32

/-- **Rounding up.**  The rounded size is the least multiple of the alignment
that is not below the value. -/
theorem alignUpOverflow_eq_some {n m : ℕ} (h : alignUpOverflow n memoryAlign = some m) :
    memoryAlign ∣ m ∧ n ≤ m ∧ m < n + memoryAlign ∧ m ≤ sizeMax := by
  have hpos := memoryAlign_pos
  have hle := memoryAlign_le
  unfold alignUpOverflow at h
  split at h
  · cases h
  · rename_i sum hsum
    rw [sizeAddOverflow_eq_some (by unfold sizeMax; omega)] at hsum
    obtain ⟨rfl, hmax⟩ := hsum
    rw [Option.some.injEq, show memoryAlign = 2 ^ Platform.alignBits from rfl,
      and_sizeNot_two_pow (by exact hmax) (by have := Platform.alignBits_le; omega),
      ← show memoryAlign = 2 ^ Platform.alignBits from rfl] at h
    have hdm := Nat.div_add_mod (n + (memoryAlign - 1)) memoryAlign
    have hlt := Nat.mod_lt (n + (memoryAlign - 1)) hpos
    rw [Nat.mul_comm] at hdm
    refine ⟨⟨_, by rw [← h, Nat.mul_comm]⟩, ?_, ?_, ?_⟩ <;> omega

/-- Rounding keeps the order. -/
theorem alignUpOverflow_mono {a b m k : ℕ} (hle : a ≤ b)
    (ha : alignUpOverflow a memoryAlign = some m) (hb : alignUpOverflow b memoryAlign = some k) :
    m ≤ k := by
  obtain ⟨hdvd, -, hlt, -⟩ := alignUpOverflow_eq_some ha
  obtain ⟨hdvd', hge, -, -⟩ := alignUpOverflow_eq_some hb
  by_contra hgt
  have hsub : memoryAlign ≤ m - k := Nat.le_of_dvd (by omega) (Nat.dvd_sub hdvd hdvd')
  omega

/-- Where the checked rounding succeeds, the unchecked one gives the same. -/
theorem alignUp_eq {n m : ℕ} (h : alignUpOverflow n memoryAlign = some m) :
    alignUp n memoryAlign = m := by
  unfold alignUpOverflow at h
  split at h
  · cases h
  · rename_i sum hsum
    rw [sizeAddOverflow_eq_some (by have := memoryAlign_le; unfold sizeMax; omega)] at hsum
    obtain ⟨rfl, hmax⟩ := hsum
    rw [alignUp, Nat.mod_eq_of_lt (Nat.lt_succ_of_le hmax)]
    exact Option.some.inj h

theorem alignUpOverflow_eq_none {n : ℕ} :
    alignUpOverflow n memoryAlign = none ↔ sizeMax < n + (memoryAlign - 1) := by
  have hle := memoryAlign_le
  unfold alignUpOverflow
  rw [← sizeAddOverflow_eq_none (by unfold sizeMax; omega)]
  split <;> simp_all

/-- A multiple of the alignment is its own rounding. -/
theorem alignUpOverflow_of_dvd {n : ℕ} (hn : memoryAlign ∣ n)
    (h : n + (memoryAlign - 1) ≤ sizeMax) :
    alignUpOverflow n memoryAlign = some n := by
  cases hm : alignUpOverflow n memoryAlign with
  | none =>
    have := alignUpOverflow_eq_none.1 hm
    omega
  | some m =>
    obtain ⟨hd, hle, hlt, -⟩ := alignUpOverflow_eq_some hm
    have hdvd : memoryAlign ∣ m - n := Nat.dvd_sub hd hn
    have : m - n = 0 := Nat.eq_zero_of_dvd_of_lt hdvd (by omega)
    rw [show m = n by omega]

/-- Rounding a rounded size changes nothing. -/
theorem alignUpOverflow_idem {n m : ℕ} (h : alignUpOverflow n memoryAlign = some m) :
    alignUpOverflow m memoryAlign = some m := by
  obtain ⟨hdvd, -, -, hmax⟩ := alignUpOverflow_eq_some h
  apply alignUpOverflow_of_dvd hdvd
  have hpos := memoryAlign_pos
  have hword : memoryAlign ∣ sizeMax + 1 :=
    Nat.pow_dvd_pow 2 (n := 64) (by have := Platform.alignBits_le; omega)
  have hle : m + memoryAlign ≤ sizeMax + 1 := by
    have hsub : memoryAlign ∣ sizeMax + 1 - m := Nat.dvd_sub hword hdvd
    have := Nat.le_of_dvd (by omega) hsub
    omega
  omega

/-- A size rounded up to the alignment, with nothing to wrap. -/
def roundUp (n : ℕ) : ℕ := (n + (memoryAlign - 1)) / memoryAlign * memoryAlign

/-- **The checked rounding** fails exactly where the rounded size is no `size_t`. -/
theorem alignUpOverflow_eq (n : ℕ) :
    alignUpOverflow n memoryAlign = if roundUp n ≤ sizeMax then some (roundUp n) else none := by
  have hpos := memoryAlign_pos
  have hpow : memoryAlign = 2 ^ Platform.alignBits := rfl
  have hbits := Platform.alignBits_le
  by_cases hsum : n + (memoryAlign - 1) ≤ sizeMax
  · have hle : roundUp n ≤ sizeMax := (Nat.div_mul_le_self _ _).trans hsum
    have hadd : sizeAddOverflow n (memoryAlign - 1) = some (n + (memoryAlign - 1)) :=
      (sizeAddOverflow_eq_some (by omega)).2 ⟨rfl, hsum⟩
    rw [if_pos hle, alignUpOverflow, hadd]
    dsimp only
    rw [roundUp, hpow, and_sizeNot_two_pow (by rwa [← hpow]) (by omega)]
  · -- the last multiple of the alignment is the size of the address space
    have hword : memoryAlign ∣ sizeMax + 1 := Nat.pow_dvd_pow 2 (n := 64) (by omega)
    have hge : sizeMax + 1 ≤ roundUp n := by
      rw [roundUp, ← Nat.div_mul_cancel hword]
      exact Nat.mul_le_mul_right _ (Nat.div_le_div_right (by omega))
    rw [if_neg (by omega), alignUpOverflow_eq_none]
    omega

end Rounding

end K4c
