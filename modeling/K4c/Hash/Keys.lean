import Mathlib.Tactic
import K4c.Hash.Common
import K4c.Lib.ClassMap

/-!
# Keys

A hash table compares its keys byte by byte, or by a function that its creator
passes.  What it needs of the function is that it is an equivalence, and that equal
keys have equal hashes, since an entry is only looked for in the bucket of a hash.

* `KeyEquivalence` — a comparison of keys of `n` bytes is of this kind; `Bytewise` — it
  is that of the bytes.
* `Comparison` — a comparison that is, as a table is created with it; `Key` are its
  keys, with equality as their `Setoid`.  What a table stands for is a finite map on
  the classes of its keys.
-/

namespace K4c

open Exec Bytes HashCommon

/-- An equivalence of the keys of `n` bytes, under which equal keys have equal
hashes. -/
structure KeyEquivalence (n : ℕ) (eq : List UInt8 → List UInt8 → Bool) : Prop where
  refl : ∀ x, x.length = n → eq x x = true
  symm : ∀ x y, x.length = n → y.length = n → eq x y = true → eq y x = true
  trans : ∀ x y z, x.length = n → y.length = n → z.length = n →
    eq x y = true → eq y z = true → eq x z = true
  hash : ∀ x y, x.length = n → y.length = n → eq x y = true → fnv1aHash x = fnv1aHash y

/-- Keys of `n` bytes are equal when their bytes are. -/
def Bytewise (n : ℕ) (eq : List UInt8 → List UInt8 → Bool) : Prop :=
  ∀ x y, x.length = n → y.length = n → (eq x y = true ↔ x = y)

/-- What `NULL` stands for. -/
theorem bytewise_none (n : ℕ) : Bytewise n fun x y => valueEq x y none := by
  intro x y hx hy
  dsimp only
  rw [valueEq, decide_eq_true_iff]
  exact memcmp_eq_zero (hx.trans hy.symm)

theorem Bytewise.equivalence {n : ℕ} {eq : List UInt8 → List UInt8 → Bool} (h : Bytewise n eq) :
    KeyEquivalence n eq := by
  refine ⟨fun x hx => (h x x hx hx).2 rfl, fun x y hx hy hxy => ?_, ?_, fun x y hx hy hxy => ?_⟩
  · exact (h y x hy hx).2 ((h x y hx hy).1 hxy).symm
  · intro x y z hx hy hz hxy hyz
    exact (h x z hx hz).2 (((h x y hx hy).1 hxy).trans ((h y z hy hz).1 hyz))
  · rw [(h x y hx hy).1 hxy]

/-- The comparison of the bytes. -/
theorem KeyEquivalence.bytes (n : ℕ) : KeyEquivalence n fun x y => valueEq x y none :=
  (bytewise_none n).equivalence

/-- A string of `n` bytes. -/
abbrev ByteString (n : ℕ) : Type := {bs : List UInt8 // bs.length = n}

/-- The comparison that a table is created with; `eq` is absent for `NULL`. -/
structure Comparison (n : ℕ) where
  eq : Option (List UInt8 → List UInt8 → Bool)
  equivalence : KeyEquivalence n fun x y => valueEq x y eq

/-- The comparison that `NULL` stands for. -/
def Comparison.bytewise (n : ℕ) : Comparison n := ⟨none, .bytes n⟩

variable {n : ℕ} {c : Comparison n}

/-- The keys that a comparison is about. -/
def Key (_ : Comparison n) : Type := ByteString n

instance keySetoid (c : Comparison n) : Setoid (Key c) where
  r x y := valueEq x.1 y.1 c.eq = true
  iseqv :=
    { refl := fun x => c.equivalence.refl x.1 x.2
      symm := fun {x y} h => c.equivalence.symm x.1 y.1 x.2 y.2 h
      trans := fun {x y z} h h' => c.equivalence.trans x.1 y.1 z.1 x.2 y.2 z.2 h h' }

instance : DecidableRel fun x y : Key c => x ≈ y := fun x y =>
  inferInstanceAs (Decidable (valueEq x.1 y.1 c.eq = true))

/-- A finite map on the classes of keys. -/
abbrev KeyMap (c : Comparison n) : Type := Finmap fun _ : Quotient (keySetoid c) => List UInt8

/-- The key with these bytes. -/
def Key.of (c : Comparison n) (bs : List UInt8) : Key c := ⟨fit n bs, length_fit n bs⟩

theorem Key.of_equiv {bs : List UInt8} (h : bs.length = n) (k : Key c) :
    Key.of c bs ≈ k ↔ valueEq bs k.1 c.eq = true := by
  change valueEq (fit n bs) k.1 c.eq = true ↔ _
  rw [fit_of_length h]

theorem Key.of_val (k : Key c) : Key.of c k.1 = k := Subtype.ext (fit_of_length k.2)

end K4c
