import Mathlib.Tactic
import K4c.Lib.Exec

/-!
# Arrays that are read and written by ranges

The contents of a C array as a list, with the two operations `memcpy` and its
relatives are made of: `slice` reads a range, `splice` overwrites one.

* `getElem?_slice`, `getElem?_splice` — what either leaves at an index.
* `slice_splice_same`, `slice_splice_of_disjoint` — a range reads back what was
  written over it, and is untouched by a write that does not meet it.
* `readAt`, `writeAt` — the same two with the bounds checked; an access outside
  the array is a fault.
-/

namespace Bytes

open Exec

variable {α : Type}

/-! ## Ranges -/

/-- The `n` entries of `l` from index `off` on. -/
def slice (l : List α) (off n : ℕ) : List α := (l.drop off).take n

/-- `l` with the entries from index `off` on overwritten by `bs`. -/
def splice (l : List α) (off : ℕ) (bs : List α) : List α :=
  l.take off ++ bs ++ l.drop (off + bs.length)

theorem length_slice {l : List α} {off n : ℕ} (h : off + n ≤ l.length) :
    (slice l off n).length = n := by
  simp only [slice, List.length_take, List.length_drop]
  omega

theorem slice_of_length {l : List α} {n : ℕ} (h : l.length = n) : slice l 0 n = l := by
  rw [slice, List.drop_zero, ← h, List.take_length]

theorem splice_of_length {l bs : List α} (h : bs.length = l.length) : splice l 0 bs = bs := by
  rw [splice, List.take_zero, List.nil_append, Nat.zero_add, h, List.drop_length, List.append_nil]

@[simp] theorem length_splice {l : List α} {off : ℕ} {bs : List α}
    (h : off + bs.length ≤ l.length) : (splice l off bs).length = l.length := by
  simp only [splice, List.length_append, List.length_take, List.length_drop]
  omega

theorem getElem?_slice (l : List α) (off n i : ℕ) :
    (slice l off n)[i]? = if i < n then l[off + i]? else none := by
  rw [slice, List.getElem?_take]
  split
  · rw [List.getElem?_drop]
  · rfl

theorem getElem?_splice {l : List α} {off : ℕ} {bs : List α} (h : off + bs.length ≤ l.length)
    (i : ℕ) : (splice l off bs)[i]? =
      if i < off then l[i]? else if i < off + bs.length then bs[i - off]? else l[i]? := by
  have htake : (l.take off).length = off := by
    rw [List.length_take]
    omega
  rw [splice, List.append_assoc]
  by_cases h1 : i < off
  · rw [if_pos h1, List.getElem?_append_left (by omega), List.getElem?_take, if_pos h1]
  · rw [if_neg h1, List.getElem?_append_right (by omega), htake]
    by_cases h2 : i < off + bs.length
    · rw [if_pos h2, List.getElem?_append_left (by omega)]
    · rw [if_neg h2, List.getElem?_append_right (by omega), List.getElem?_drop]
      congr 1
      omega

/-- Overwriting one entry. -/
theorem getElem?_splice_one {l v : List α} {off : ℕ} (hv : v.length = 1) (h : off < l.length)
    (i : ℕ) : (splice l off v)[i]? = if i = off then v[0]? else l[i]? := by
  rw [getElem?_splice (by omega), hv]
  by_cases hi : i = off
  · rw [if_neg (by omega), if_pos (by omega), if_pos hi, hi, Nat.sub_self]
  · rw [if_neg hi]
    split
    · rfl
    · rw [if_neg (by omega)]

@[simp] theorem splice_nil (l : List α) (off : ℕ) : splice l off [] = l := by
  simp [splice]

/-- A range reads back what was written over it. -/
theorem slice_splice_same {l : List α} {off : ℕ} {bs : List α} (h : off + bs.length ≤ l.length) :
    slice (splice l off bs) off bs.length = bs := by
  apply List.ext_getElem?
  intro i
  rw [getElem?_slice, getElem?_splice h]
  by_cases hi : i < bs.length
  · rw [if_pos hi, if_neg (by omega), if_pos (by omega)]
    congr 1
    omega
  · rw [if_neg hi, List.getElem?_eq_none (by omega)]

/-- A write leaves every range it does not meet alone. -/
theorem slice_splice_of_disjoint {l : List α} {off off' n : ℕ} {bs : List α}
    (h : off + bs.length ≤ l.length) (hd : off' + n ≤ off ∨ off + bs.length ≤ off') :
    slice (splice l off bs) off' n = slice l off' n := by
  apply List.ext_getElem?
  intro i
  rw [getElem?_slice, getElem?_slice, getElem?_splice h]
  by_cases hi : i < n
  · rw [if_pos hi, if_pos hi]
    by_cases h1 : off' + i < off
    · rw [if_pos h1]
    · rw [if_neg h1, if_neg (by omega)]
  · rw [if_neg hi, if_neg hi]

theorem slice_add (l : List α) (off m n : ℕ) :
    slice l off (m + n) = slice l off m ++ slice l (off + m) n := by
  rw [slice, slice, slice, List.take_add, List.drop_drop]

@[simp] theorem slice_zero (l : List α) (off : ℕ) : slice l off 0 = [] := by
  simp [slice]

/-- A range of a range is a range. -/
theorem slice_slice {l : List α} {off n off' n' : ℕ} (h : off' + n' ≤ n) :
    slice (slice l off n) off' n' = slice l (off + off') n' := by
  apply List.ext_getElem?
  intro i
  rw [getElem?_slice, getElem?_slice, getElem?_slice]
  by_cases hi : i < n'
  · rw [if_pos hi, if_pos hi, if_pos (by omega), Nat.add_assoc]
  · rw [if_neg hi, if_neg hi]

/-- The middle of three parts. -/
theorem slice_append {a b c : List α} {off n : ℕ} (ha : a.length = off) (hb : b.length = n) :
    slice (a ++ b ++ c) off n = b := by
  rw [slice, List.append_assoc, ← ha, List.drop_left, ← hb, List.take_left]

/-- Overwriting the middle of three parts. -/
theorem splice_append {a b c e : List α} {off : ℕ} (ha : a.length = off)
    (he : e.length = b.length) : splice (a ++ b ++ c) off e = a ++ e ++ c := by
  have hdrop : (a ++ b ++ c).drop (off + e.length) = c := by
    rw [he, ← ha, ← List.length_append, List.drop_left]
  rw [splice, hdrop, List.append_assoc a b c, ← ha, List.take_left]

/-! ## Strings of a fixed length -/

/-- The first `n` bytes of a string, filled up with zeros: a function on strings of
`n` bytes can so be asked about every string. -/
def fit (n : ℕ) (e : List UInt8) : List UInt8 := (e ++ List.replicate n 0).take n

theorem length_fit (n : ℕ) (e : List UInt8) : (fit n e).length = n := by
  simp [fit]

theorem fit_of_length {n : ℕ} {e : List UInt8} (h : e.length = n) : fit n e = e := by
  rw [fit, ← h, List.take_left]

/-! ## Checked access -/

/-- Read the `n` entries from index `off` on. -/
def readAt (l : List α) (off n : ℕ) : Result (List α) :=
  if off + n ≤ l.length then .ok (slice l off n) else .error .badAccess

/-- Overwrite the entries from index `off` on by `bs`. -/
def writeAt (l : List α) (off : ℕ) (bs : List α) : Result (List α) :=
  if off + bs.length ≤ l.length then .ok (splice l off bs) else .error .badAccess

@[simp] theorem readAt_of_le {l : List α} {off n : ℕ} (h : off + n ≤ l.length) :
    readAt l off n = .ok (slice l off n) := if_pos h

theorem length_of_readAt {l bs : List α} {off n : ℕ} (h : readAt l off n = .ok bs) :
    bs.length = n := by
  unfold readAt at h
  split at h
  · rename_i hle
    cases h
    exact length_slice hle
  · cases h

@[simp] theorem writeAt_of_le {l : List α} {off : ℕ} {bs : List α}
    (h : off + bs.length ≤ l.length) : writeAt l off bs = .ok (splice l off bs) := if_pos h

end Bytes
