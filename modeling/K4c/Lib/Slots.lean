import Mathlib.Tactic
import K4c.Lib.Bytes

/-!
# Arrays of fixed-size elements

A byte buffer used as an array: the element with index `i` is the range of `n`
bytes from `i * n` on.

* `slot`, `slots` — one element, and the first `k` of them.
* `slot_splice` — writing whole elements changes these and no others.
* `window` — `k` elements from an index on in a buffer that is used as a ring;
  `window_push`, `window_pushfront` — storing next to either end of a window that
  does not fill the ring makes it one element longer; `window_head`,
  `window_last` — taking an end off; `slot_unroll` — copying a ring in two parts
  puts its elements in order.
-/

namespace Slots

open Bytes

variable {α : Type} {bs new src : List α} {n i j k m cap head : ℕ} {e : List α}

/-! ## One element -/

/-- The element with index `i`. -/
def slot (bs : List α) (n i : ℕ) : List α := slice bs (i * n) n

/-- The end of an element in a buffer of `cap` elements. -/
theorem slot_end_le (h : i < cap) : i * n + n ≤ cap * n := by
  calc i * n + n = (i + 1) * n := by ring
    _ ≤ cap * n := Nat.mul_le_mul_right n h

theorem length_slot (h : i * n + n ≤ bs.length) : (slot bs n i).length = n := length_slice h

/-- Two elements with different indices have no byte in common. -/
theorem slots_disjoint (h : i ≠ j) : i * n + n ≤ j * n ∨ j * n + n ≤ i * n := by
  rcases Nat.lt_or_gt_of_ne h with h | h
  · exact .inl (slot_end_le h)
  · exact .inr (slot_end_le h)

/-- Writing an element. -/
theorem slot_splice (he : e.length = n) (hi : i * n + n ≤ bs.length) (j : ℕ) :
    slot (splice bs (i * n) e) n j = if j = i then e else slot bs n j := by
  split
  · rename_i h
    have hsame := slice_splice_same (show i * n + e.length ≤ bs.length by omega)
    rw [he] at hsame
    rw [h, slot, hsame]
  · rename_i h
    apply slice_splice_of_disjoint (by omega)
    rw [he]
    exact slots_disjoint h

/-- An element of a range that starts and ends at element borders. -/
theorem slot_slice (h : j < m) : slot (slice src (k * n) (m * n)) n j = slot src n (k + j) := by
  rw [slot, slot, slice_slice (slot_end_le h), Nat.add_mul]

/-- Writing a range of whole elements. -/
theorem slot_splice_range (hnew : new.length = m * n) (hi : i * n + m * n ≤ bs.length) (j : ℕ) :
    slot (splice bs (i * n) new) n j =
      if i ≤ j ∧ j < i + m then slot new n (j - i) else slot bs n j := by
  split
  · rename_i h
    obtain ⟨d, rfl⟩ := Nat.exists_eq_add_of_le h.1
    have hd : d < m := by omega
    have hfull : slice (splice bs (i * n) new) (i * n) (m * n) = new := by
      rw [← hnew]
      exact slice_splice_same (by omega)
    rw [Nat.add_sub_cancel_left, ← slot_slice hd, hfull]
  · rename_i h
    apply slice_splice_of_disjoint (by omega)
    rw [hnew]
    by_cases hlt : j < i
    · exact .inl (slot_end_le hlt)
    · right
      calc i * n + m * n = (i + m) * n := by ring
        _ ≤ j * n := Nat.mul_le_mul_right n (by omega)

/-- Bytes added at the end of a buffer change no element. -/
theorem slot_append (h : i * n + n ≤ bs.length) (tail : List α) :
    slot (bs ++ tail) n i = slot bs n i := by
  apply List.ext_getElem?
  intro d
  rw [slot, slot, getElem?_slice, getElem?_slice]
  split
  · rw [List.getElem?_append_left (by omega)]
  · rfl

/-! ## The first elements -/

/-- The first `k` elements. -/
def slots (bs : List α) (n k : ℕ) : List (List α) := (List.range k).map (slot bs n)

@[simp] theorem length_slots : (slots bs n k).length = k := by simp [slots]

@[simp] theorem slots_zero : slots bs n 0 = [] := rfl

theorem getElem?_slots : (slots bs n k)[i]? = if i < k then some (slot bs n i) else none := by
  rw [slots, List.getElem?_map]
  split
  · rw [List.getElem?_range (by assumption)]
    rfl
  · rw [List.getElem?_eq_none (by rw [List.length_range]; omega)]
    rfl

theorem slots_succ : slots bs n (k + 1) = slots bs n k ++ [slot bs n k] := by
  rw [slots, List.range_succ, List.map_append]
  rfl

/-- Buffers that agree on the first `k` elements. -/
theorem slots_congr {bs' : List α} (h : ∀ i < k, slot bs' n i = slot bs n i) :
    slots bs' n k = slots bs n k :=
  List.map_congr_left fun i hi => h i (List.mem_range.1 hi)

/-! ## Windows of a ring -/

/-- `k` elements from index `head` on, in a ring of `cap` elements. -/
def window (bs : List α) (n cap head k : ℕ) : List (List α) :=
  (List.range k).map fun i => slot bs n ((head + i) % cap)

@[simp] theorem length_window : (window bs n cap head k).length = k := by simp [window]

@[simp] theorem window_zero : window bs n cap head 0 = [] := rfl

theorem window_congr {bs' : List α} {cap' head' : ℕ}
    (h : ∀ i < k, slot bs' n ((head' + i) % cap') = slot bs n ((head + i) % cap)) :
    window bs' n cap' head' k = window bs n cap head k :=
  List.map_congr_left fun i hi => h i (List.mem_range.1 hi)

/-- Indices less than `cap` apart are different places of the ring. -/
theorem ring_injective (hi : i < cap) (hj : j < cap)
    (h : (head + i) % cap = (head + j) % cap) : i = j :=
  (Nat.ModEq.add_left_cancel' head h).eq_of_lt_of_lt hi hj

theorem window_last :
    window bs n cap head (k + 1) = window bs n cap head k ++ [slot bs n ((head + k) % cap)] := by
  rw [window, List.range_succ, List.map_append]
  rfl

theorem window_head (hhead : head < cap) :
    window bs n cap head (k + 1) = slot bs n head :: window bs n cap ((head + 1) % cap) k := by
  rw [window, List.range_succ_eq_map, List.map_cons, List.map_map, Nat.add_zero,
    Nat.mod_eq_of_lt hhead]
  congr 1
  apply List.map_congr_left
  intro i _
  change slot bs n ((head + (i + 1)) % cap) = slot bs n (((head + 1) % cap + i) % cap)
  rw [Nat.mod_add_mod]
  congr 2
  ring

/-- Storing an element after the last one. -/
theorem window_push (he : e.length = n) (hlen : cap * n ≤ bs.length) (hk : k < cap) :
    window (splice bs ((head + k) % cap * n) e) n cap head (k + 1) =
      window bs n cap head k ++ [e] := by
  have hlt : (head + k) % cap < cap := Nat.mod_lt _ (by omega)
  have hend := slot_end_le (n := n) hlt
  rw [window_last, slot_splice he (by omega), if_pos rfl]
  congr 1
  apply window_congr
  intro i hi
  rw [slot_splice he (by omega), if_neg]
  exact fun h => absurd (ring_injective (by omega) hk h) (by omega)

/-- The place before the head is followed by the head. -/
theorem succ_pred_mod (hhead : head < cap) : ((head + cap - 1) % cap + 1) % cap = head := by
  rw [Nat.mod_add_mod, Nat.sub_add_cancel (by omega), Nat.add_mod_right, Nat.mod_eq_of_lt hhead]

/-- Storing an element before the first one. -/
theorem window_pushfront (he : e.length = n) (hlen : cap * n ≤ bs.length) (hk : k < cap)
    (hhead : head < cap) :
    window (splice bs ((head + cap - 1) % cap * n) e) n cap ((head + cap - 1) % cap) (k + 1) =
      e :: window bs n cap head k := by
  have hlt : (head + cap - 1) % cap < cap := Nat.mod_lt _ (by omega)
  have hend := slot_end_le (n := n) hlt
  rw [window_head hlt, slot_splice he (by omega), if_pos rfl, succ_pred_mod hhead]
  congr 1
  apply window_congr
  intro i hi
  rw [slot_splice he (by omega), if_neg]
  intro h
  rw [show head + cap - 1 = head + (cap - 1) by omega] at h
  exact absurd (ring_injective (by omega) (by omega) h) (by omega)

/-- Copying a ring to the start of another buffer, the part up to its end first,
puts its elements in order. -/
theorem slot_unroll {fresh ring : List α} (hfresh : cap * n ≤ fresh.length)
    (hring : ring.length = cap * n) (hhead : head < cap) (hj : j < cap) :
    slot (splice (splice fresh 0 (slice ring (head * n) ((cap - head) * n))) ((cap - head) * n)
      (slice ring 0 (head * n))) n j = slot ring n ((head + j) % cap) := by
  have hsplit : (cap - head) * n + head * n = cap * n := by
    rw [← Nat.add_mul, Nat.sub_add_cancel hhead.le]
  have hfirst : (slice ring (head * n) ((cap - head) * n)).length = (cap - head) * n :=
    length_slice (by omega)
  have hsecond : (slice ring 0 (head * n)).length = head * n := length_slice (by omega)
  have hkeep : (splice fresh 0 (slice ring (head * n) ((cap - head) * n))).length =
      fresh.length := length_splice (by omega)
  have hfirst' : slot (splice fresh (0 * n) (slice ring (head * n) ((cap - head) * n))) n j = _ :=
    slot_splice_range hfirst (by omega) j
  rw [Nat.zero_mul] at hfirst'
  rw [slot_splice_range hsecond (by omega)]
  by_cases hlt : j < cap - head
  · rw [if_neg (by omega), hfirst', if_pos ⟨Nat.zero_le _, by omega⟩, Nat.sub_zero,
      slot_slice hlt, Nat.mod_eq_of_lt (by omega)]
  · have hwrap : (head + j) % cap = j - (cap - head) := by
      rw [Nat.mod_eq_sub_mod (by omega), Nat.mod_eq_of_lt (by omega)]
      omega
    have hzero : slot (slice ring (0 * n) (head * n)) n (j - (cap - head)) =
        slot ring n (0 + (j - (cap - head))) := slot_slice (by omega)
    rw [Nat.zero_mul, Nat.zero_add] at hzero
    rw [if_pos ⟨by omega, by omega⟩, hzero, hwrap]

end Slots
