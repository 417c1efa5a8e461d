import Mathlib.Tactic
import K4c.Lib.Exec

/-!
# Byte-addressed memory

A flat memory of bytes, with multi-byte words stored in it.  Words are little
endian; nothing that uses them depends on the byte order.

* `storeWord_outside` — a store changes only the bytes it covers.
* `loadWord_storeWord_same`, `loadWord_storeWord_of_disjoint` — the two laws of
  loading after storing.
* `copy` — a copied range; `memcpy` — the same for ranges that must not overlap;
  `poke` — a range of given bytes.
-/

namespace Words

open Exec

/-- A memory: a byte at every address. -/
abbrev Memory := ℕ → UInt8

/-! ## Little-endian numbers of `n` bytes -/

/-- Read `n` bytes from `a` on as a number. -/
def loadBytes (m : Memory) (a : ℕ) : ℕ → ℕ
  | 0 => 0
  | n + 1 => (m a).toNat + 256 * loadBytes m (a + 1) n

/-- Write the low `n` bytes of `v` from `a` on. -/
def storeBytes (m : Memory) (a v : ℕ) : ℕ → Memory
  | 0 => m
  | n + 1 => storeBytes (Function.update m a (UInt8.ofNat v)) (a + 1) (v / 256) n

theorem storeBytes_outside {n : ℕ} : ∀ {m : Memory} {a v x : ℕ},
    x < a ∨ a + n ≤ x → storeBytes m a v n x = m x := by
  induction n with
  | zero => intro m a v x _; rfl
  | succ n ih =>
    intro m a v x h
    rw [storeBytes, ih (by omega), Function.update_of_ne (by omega)]

theorem loadBytes_congr {n : ℕ} : ∀ {m m' : Memory} {a : ℕ},
    (∀ x, a ≤ x → x < a + n → m' x = m x) → loadBytes m' a n = loadBytes m a n := by
  induction n with
  | zero => intro m m' a _; rfl
  | succ n ih =>
    intro m m' a h
    rw [loadBytes, loadBytes, h a le_rfl (by omega), ih fun x h1 h2 => h x (by omega) (by omega)]

theorem loadBytes_storeBytes {n : ℕ} : ∀ {m : Memory} {a v : ℕ},
    v < 256 ^ n → loadBytes (storeBytes m a v n) a n = v := by
  induction n with
  | zero => intro m a v h; simp only [pow_zero] at h; rw [loadBytes]; omega
  | succ n ih =>
    intro m a v h
    have hlow : storeBytes m a v (n + 1) a = UInt8.ofNat v := by
      rw [storeBytes, storeBytes_outside (by omega), Function.update_self]
    have hhigh : v / 256 < 256 ^ n := by
      rw [pow_succ] at h
      omega
    rw [loadBytes, hlow, storeBytes, ih hhigh, UInt8.toNat_ofNat']
    omega

/-! ## Words of eight bytes -/

/-- The word at address `a`. -/
def loadWord (m : Memory) (a : ℕ) : ℕ := loadBytes m a 8

/-- Store the word `v` at address `a`. -/
def storeWord (m : Memory) (a v : ℕ) : Memory := storeBytes m a v 8

theorem storeWord_outside {m : Memory} {a v x : ℕ} (h : x < a ∨ a + 8 ≤ x) :
    storeWord m a v x = m x := storeBytes_outside h

theorem loadWord_congr {m m' : Memory} {a : ℕ} (h : ∀ x, a ≤ x → x < a + 8 → m' x = m x) :
    loadWord m' a = loadWord m a := loadBytes_congr h

@[simp] theorem loadWord_storeWord_same {m : Memory} {a v : ℕ} (h : v < 2 ^ 64) :
    loadWord (storeWord m a v) a = v :=
  loadBytes_storeBytes (by rwa [show 256 ^ 8 = 2 ^ 64 from rfl])

theorem loadWord_storeWord_of_disjoint {m : Memory} {a b v : ℕ} (h : b + 8 ≤ a ∨ a + 8 ≤ b) :
    loadWord (storeWord m a v) b = loadWord m b :=
  loadWord_congr fun _ _ _ => storeWord_outside (by omega)

/-! ## Copying and storing ranges -/

/-- The memory after `n` bytes were copied from `src` to `dst`. -/
def copy (m : Memory) (dst src n : ℕ) : Memory :=
  fun x => if dst ≤ x ∧ x < dst + n then m (src + (x - dst)) else m x

theorem copy_outside {m : Memory} {dst src n x : ℕ} (h : x < dst ∨ dst + n ≤ x) :
    copy m dst src n x = m x := if_neg (by omega)

theorem copy_inside {m : Memory} {dst src n i : ℕ} (h : i < n) :
    copy m dst src n (dst + i) = m (src + i) := by
  rw [copy, if_pos (by omega)]
  congr 1
  omega

/-- `memcpy(dst, src, n)`. -/
def memcpy (m : Memory) (dst src n : ℕ) : Result Memory :=
  if dst + n ≤ src ∨ src + n ≤ dst then .ok (copy m dst src n) else .error .badAccess

@[simp] theorem memcpy_of_disjoint {m : Memory} {dst src n : ℕ}
    (h : dst + n ≤ src ∨ src + n ≤ dst) : memcpy m dst src n = .ok (copy m dst src n) := if_pos h

/-- The memory after the bytes `bs` were stored from `a` on. -/
def poke (m : Memory) (a : ℕ) (bs : List UInt8) : Memory :=
  fun x => if a ≤ x then (bs[x - a]?).getD (m x) else m x

theorem poke_outside {m : Memory} {a x : ℕ} {bs : List UInt8} (h : x < a ∨ a + bs.length ≤ x) :
    poke m a bs x = m x := by
  unfold poke
  split
  · rw [List.getElem?_eq_none (by omega)]
    rfl
  · rfl

end Words
