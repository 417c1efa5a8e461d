import Mathlib.Tactic
import K4c.Lib.Slots
import K4c.Mem.Blocks
import K4c.Mem.Size

/-!
# Memory utilities

`k4c_memswap`, and the `memcmp` of the C library.

* `memswap_spec` — swapping two ranges of one block that do not meet, byte by
  byte, exchanges them and changes no other byte.
* `TotalPreorder` — the comparators that elements can be ordered by; `memcmp` is one,
  and `memcmp_eq_zero` says when it is 0.
-/

namespace K4c

open Exec Bytes Slots Blocks

/-! ## `memcmp` -/

/-- `memcmp` on byte strings of one length: the first difference decides. -/
def memcmp : List UInt8 → List UInt8 → ℤ
  | x :: xs, y :: ys => if x = y then memcmp xs ys else x.toNat - y.toNat
  | _, _ => 0

/-- Swapping the arguments changes the sign. -/
theorem memcmp_swap : ∀ xs ys : List UInt8, memcmp ys xs = -memcmp xs ys
  | [], [] => rfl
  | [], _ :: _ => rfl
  | _ :: _, [] => rfl
  | x :: xs, y :: ys => by
    rw [memcmp, memcmp]
    by_cases h : x = y
    · rw [if_pos h, if_pos h.symm, memcmp_swap xs ys]
    · rw [if_neg h, if_neg (Ne.symm h)]
      ring

theorem toNat_ne {x y : UInt8} (h : x ≠ y) : x.toNat ≠ y.toNat := fun h' => h (UInt8.toNat_inj.1 h')

/-- Only equal strings compare as equal. -/
theorem memcmp_eq_zero : ∀ {xs ys : List UInt8}, xs.length = ys.length →
    (memcmp xs ys = 0 ↔ xs = ys)
  | [], [], _ => by simp [memcmp]
  | [], _ :: _, h => by simp at h
  | _ :: _, [], h => by simp at h
  | x :: xs, y :: ys, h => by
    rw [memcmp]
    by_cases hxy : x = y
    · rw [if_pos hxy, memcmp_eq_zero (by simpa using h)]
      simp [hxy]
    · have := toNat_ne hxy
      rw [if_neg hxy]
      simp only [List.cons.injEq, hxy, false_and, iff_false]
      omega

/-- The order is transitive on strings of one length. -/
theorem memcmp_trans : ∀ {xs ys zs : List UInt8}, xs.length = ys.length → ys.length = zs.length →
    memcmp xs ys ≤ 0 → memcmp ys zs ≤ 0 → memcmp xs zs ≤ 0
  | [], _, _, _, _, _, _ => by simp [memcmp]
  | _ :: _, [], _, h, _, _, _ => by simp at h
  | _ :: _, _ :: _, [], _, h, _, _ => by simp at h
  | x :: xs, y :: ys, z :: zs, hxy, hyz, h₁, h₂ => by
    rw [memcmp] at h₁ h₂ ⊢
    by_cases exy : x = y
    · subst exy
      by_cases exz : x = z
      · rw [if_pos rfl] at h₁
        rw [if_pos exz] at h₂ ⊢
        exact memcmp_trans (by simpa using hxy) (by simpa using hyz) h₁ h₂
      · rw [if_neg exz] at h₂ ⊢
        exact h₂
    · have hxy' := toNat_ne exy
      rw [if_neg exy] at h₁
      by_cases eyz : y = z
      · subst eyz
        rw [if_neg exy]
        exact h₁
      · rw [if_neg eyz] at h₂
        have hxz : x ≠ z := by
          rintro rfl
          omega
        rw [if_neg hxz]
        omega

/-! ## Comparators -/

/-- The sign of `cmp` is a total preorder of the elements of `n` bytes. -/
structure TotalPreorder (n : ℕ) (cmp : List UInt8 → List UInt8 → ℤ) : Prop where
  sign : ∀ a b, a.length = n → b.length = n → (cmp a b < 0 ↔ 0 < cmp b a)
  trans : ∀ a b c, a.length = n → b.length = n → c.length = n →
    cmp a b ≤ 0 → cmp b c ≤ 0 → cmp a c ≤ 0

theorem memcmp_totalPreorder (n : ℕ) : TotalPreorder n memcmp where
  sign a b _ _ := by
    rw [memcmp_swap a b]
    omega
  trans _ _ _ ha hb hc := memcmp_trans (ha.trans hb.symm) (hb.trans hc.symm)

/-- What comes before or with an element that comes before the key does so too. -/
theorem TotalPreorder.lt_of_le_of_lt {n : ℕ} {cmp : List UInt8 → List UInt8 → ℤ}
    (h : TotalPreorder n cmp) {a b key : List UInt8} (ha : a.length = n) (hb : b.length = n)
    (hkey : key.length = n) (hle : cmp a b ≤ 0) (hlt : cmp b key < 0) : cmp a key < 0 := by
  by_contra hge
  have hback : cmp key a ≤ 0 := by
    by_contra hpos
    exact hge ((h.sign a key ha hkey).2 (by omega))
  have hkb := h.trans key a b hkey ha hb hback hle
  have hpos := (h.sign b key hb hkey).1 hlt
  omega

/-- `0 ≤ cmp key item` says that the item does not come after the key. -/
theorem TotalPreorder.nonneg_iff {n : ℕ} {cmp : List UInt8 → List UInt8 → ℤ}
    (h : TotalPreorder n cmp) {a key : List UInt8} (ha : a.length = n) (hkey : key.length = n) :
    0 ≤ cmp key a ↔ cmp a key ≤ 0 := by
  have := h.sign key a hkey ha
  omega

/-! ## `k4c_memswap` -/

namespace Memory

/-- One round of the loop of `k4c_memswap`, on the number of bytes done. -/
def memswapRound (a b : Ptr) (size : ℕ) (s : ℕ × Memory) : Result (ℕ × Memory ⊕ Memory) := do
  let (i, w) := s
  if i < size then
    let tmp ← w.read a.block (a.offset + i) 1
    let other ← w.read b.block (b.offset + i) 1
    let w ← w.write a.block (a.offset + i) other
    let w ← w.write b.block (b.offset + i) tmp
    return .inl (i + 1, w)
  return .inr w

/-- `k4c_memswap`. -/
def memswap (a b : Ptr) (size : ℕ) (w : Memory) : Result Memory :=
  loop (memswapRound a b size) (size + 1) (0, w)

theorem memswap_rewritten {a b : Ptr} {size : ℕ} {w w' : Memory}
    (h : memswap a b size w = .ok w') : w.Rewritten w' := by
  refine loop_keeps (I := fun s => w.Rewritten s.2) ?_ _ _ _ (.refl w) h
  rintro ⟨i, w₁⟩ o hkept hbody
  rw [memswapRound] at hbody
  split at hbody
  · obtain ⟨tmp, -, hbody⟩ := bind_eq_ok.1 hbody
    obtain ⟨other, -, hbody⟩ := bind_eq_ok.1 hbody
    obtain ⟨w₂, hwrite₂, hbody⟩ := bind_eq_ok.1 hbody
    obtain ⟨w₃, hwrite₃, hbody⟩ := bind_eq_ok.1 hbody
    cases hbody
    exact hkept.trans ((write_rewritten hwrite₂).trans (write_rewritten hwrite₃))
  · cases hbody
    exact hkept

/-- The first `k` bytes of two ranges of `bs` have changed places in `cur`. -/
def Exchanged (bs cur : List UInt8) (a b k : ℕ) : Prop :=
  cur.length = bs.length ∧ ∀ x, cur[x]? =
    if a ≤ x ∧ x < a + k then bs[b + (x - a)]?
    else if b ≤ x ∧ x < b + k then bs[a + (x - b)]? else bs[x]?

variable {bs cur : List UInt8} {a b k size n p : ℕ} {w : Memory}

/-- One more pair of bytes changes places. -/
theorem Exchanged.step (h : Exchanged bs cur a b k) (hk : k < size)
    (hapart : a + size ≤ b ∨ b + size ≤ a) (ha : a + size ≤ bs.length)
    (hb : b + size ≤ bs.length) :
    Exchanged bs (splice (splice cur (a + k) (slice cur (b + k) 1)) (b + k) (slice cur (a + k) 1))
      a b (k + 1) := by
  obtain ⟨hlen, hget⟩ := h
  have hla : (slice cur (a + k) 1).length = 1 := length_slice (by omega)
  have hlb : (slice cur (b + k) 1).length = 1 := length_slice (by omega)
  have hva : (slice cur (a + k) 1)[0]? = bs[a + k]? := by
    rw [getElem?_slice, if_pos Nat.one_pos, Nat.add_zero, hget, if_neg (by omega),
      if_neg (by omega)]
  have hvb : (slice cur (b + k) 1)[0]? = bs[b + k]? := by
    rw [getElem?_slice, if_pos Nat.one_pos, Nat.add_zero, hget, if_neg (by omega),
      if_neg (by omega)]
  have hlen₁ : (splice cur (a + k) (slice cur (b + k) 1)).length = cur.length :=
    length_splice (by omega)
  refine ⟨by rw [length_splice (by omega), hlen₁, hlen], fun x => ?_⟩
  rw [getElem?_splice_one hla (by omega), getElem?_splice_one hlb (by omega), hva, hvb]
  by_cases hxb : x = b + k
  · rw [if_pos hxb, if_neg (by omega), if_pos (by omega)]
    congr 1
    omega
  · by_cases hxa : x = a + k
    · rw [if_neg hxb, if_pos hxa, if_pos (by omega)]
      congr 1
      omega
    · rw [if_neg hxb, if_neg hxa, hget]
      split_ifs <;> first | rfl | omega

/-- **Swapping two ranges** of one block. -/
theorem memswap_spec (hcell : w.cells p = some ⟨n, .bytes bs⟩)
    (hapart : a + size ≤ b ∨ b + size ≤ a) (ha : a + size ≤ bs.length)
    (hb : b + size ≤ bs.length) :
    ∃ w' cur, memswap ⟨p, a⟩ ⟨p, b⟩ size w = .ok w' ∧ Exchanged bs cur a b size ∧
      w'.cells = Function.update w.cells p (some ⟨n, .bytes cur⟩) := by
  -- the bytes done so far are exchanged, and no other block has changed
  set I : ℕ × Memory → Prop := fun s => s.1 ≤ size ∧ ∃ cur, Exchanged bs cur a b s.1 ∧
    s.2.cells = Function.update w.cells p (some ⟨n, .bytes cur⟩) with hI
  have hround : ∀ s, I s → Sat (memswapRound ⟨p, a⟩ ⟨p, b⟩ size s)
      (Round I (fun s => size - s.1) (fun w' => ∃ cur, Exchanged bs cur a b size ∧
        w'.cells = Function.update w.cells p (some ⟨n, .bytes cur⟩)) s) := by
    rintro ⟨i, w₁⟩ ⟨hi, cur, hcur, hcells₁⟩
    dsimp only at hi hcur hcells₁
    rw [memswapRound]
    dsimp only
    by_cases hlt : i < size
    · have hlen := hcur.1
      have hcell₁ : w₁.cells p = some ⟨n, .bytes cur⟩ := by rw [hcells₁, Function.update_self]
      have hla : (slice cur (a + i) 1).length = 1 := length_slice (by omega)
      have hlb : (slice cur (b + i) 1).length = 1 := length_slice (by omega)
      obtain ⟨w₂, hwrite₂, hcells₂⟩ :=
        write_eq (k := a + i) (e := slice cur (b + i) 1) hcell₁ (by omega)
      have hcell₂ : w₂.cells p = some ⟨n, .bytes (splice cur (a + i) (slice cur (b + i) 1))⟩ := by
        rw [hcells₂, Function.update_self]
      obtain ⟨w₃, hwrite₃, hcells₃⟩ :=
        write_eq (k := b + i) (e := slice cur (a + i) 1) hcell₂
          (by rw [length_splice (by omega)]; omega)
      refine ⟨.inl (i + 1, w₃), ?_, ⟨hlt, _, hcur.step hlt hapart ha hb, ?_⟩, ?_⟩
      · rw [if_pos hlt, read_eq hcell₁ (by omega), ok_bind, read_eq hcell₁ (by omega), ok_bind,
          hwrite₂, ok_bind, hwrite₃, ok_bind, pure_eq_ok]
      · rw [hcells₃, hcells₂, hcells₁, Function.update_idem, Function.update_idem]
      · change size - (i + 1) < size - i
        omega
    · have hdone : i = size := by omega
      rw [if_neg hlt]
      exact Sat.ok ⟨cur, hdone ▸ hcur, hcells₁⟩
  have hstart : I (0, w) := by
    refine ⟨Nat.zero_le _, bs, ⟨rfl, fun x => ?_⟩, ?_⟩
    · rw [if_neg (by omega), if_neg (by omega)]
    · rw [← hcell, Function.update_eq_self]
  obtain ⟨w', hloop, cur, hres⟩ := loop_ok hround (size + 1) (0, w) hstart (Nat.lt_succ_self _)
  exact ⟨w', cur, hloop, hres⟩

/-- Swapping two elements of an array exchanges them and no others. -/
theorem Exchanged.slot {m i j : ℕ} (h : Exchanged bs cur (i * m) (j * m) m) (hne : i ≠ j)
    (x : ℕ) : slot cur m x = slot bs m (Equiv.swap i j x) := by
  apply List.ext_getElem?
  intro d
  rw [Slots.slot, Slots.slot, getElem?_slice, getElem?_slice]
  split
  · rename_i hd
    rw [h.2]
    by_cases hxi : x = i
    · rw [hxi, Equiv.swap_apply_left, if_pos (by omega)]
      congr 1
      omega
    · have hdi := slots_disjoint (n := m) hxi
      by_cases hxj : x = j
      · rw [hxj, Equiv.swap_apply_right, if_neg (by subst hxj; omega), if_pos (by omega)]
        congr 1
        omega
      · have hdj := slots_disjoint (n := m) hxj
        rw [Equiv.swap_apply_of_ne_of_ne hxi hxj, if_neg (by omega), if_neg (by omega)]
  · rfl

end Memory

end K4c
