import Mathlib.Tactic
import K4c.Lib.Exec

/-!
# Strings that end in a NUL

The functions of `string.h` on the bytes that can be read from a pointer on.  A
function that runs past the end of them without meeting a NUL is a fault.

* `Starts` — the bytes begin with a given string and its terminator.
* `strlen_eq`, `strncmp_spec`, `strstr_spec` — on such bytes the functions return,
  and answer about the length, prefixes and infixes of the string.
* `memcmp_eq_zero` — `memcmp` compares ranges of a known length.
-/

namespace CString

open Exec

/-! ## The functions -/

/-- `strlen`. -/
def strlen : List UInt8 → Result ℕ
  | [] => .error .badAccess
  | c :: cs => if c = 0 then .ok 0 else strlen cs >>= fun n => .ok (n + 1)

/-- The difference of two characters. -/
def charDiff (c d : UInt8) : ℤ := (c.toNat : ℤ) - d.toNat

/-- `strncmp`. -/
def strncmp : List UInt8 → List UInt8 → ℕ → Result ℤ
  | _, _, 0 => .ok 0
  | c :: cs, d :: ds, n + 1 =>
    if c ≠ d then .ok (charDiff c d) else if c = 0 then .ok 0 else strncmp cs ds n
  | _, _, _ + 1 => .error .badAccess

/-- `memcmp`, on two ranges of the same length. -/
def memcmp : List UInt8 → List UInt8 → ℤ
  | c :: cs, d :: ds => if c ≠ d then charDiff c d else memcmp cs ds
  | _, _ => 0

/-- The search of `strstr` for `n` characters of `needle`, from an index on. -/
def strstrFrom (needle : List UInt8) (n index : ℕ) : List UInt8 → Result (Option ℕ)
  | [] => .error .badAccess
  | c :: cs => do
    if (← strncmp (c :: cs) needle n) = 0 then return some index
    if c = 0 then return none
    strstrFrom needle n (index + 1) cs

/-- `strstr`: the index of the first occurrence. -/
def strstr (hay needle : List UInt8) : Result (Option ℕ) := do
  let n ← strlen needle
  strstrFrom needle n 0 hay

/-! ## Terminated strings -/

/-- The bytes begin with the string `s` and its terminator. -/
def Starts (bs s : List UInt8) : Prop := 0 ∉ s ∧ ∃ rest, bs = s ++ 0 :: rest

variable {bs ps s p : List UInt8} {c : UInt8} {n : ℕ}

theorem Starts.cons (hc : c ≠ 0) (h : Starts bs s) : Starts (c :: bs) (c :: s) := by
  obtain ⟨hs, rest, rfl⟩ := h
  exact ⟨by simpa [hc.symm] using hs, rest, rfl⟩

/-- The bytes are the terminator, or a character and the rest of the string. -/
theorem Starts.cases (h : Starts bs s) :
    (s = [] ∧ ∃ rest, bs = 0 :: rest) ∨
      ∃ c s' bs', c ≠ 0 ∧ s = c :: s' ∧ bs = c :: bs' ∧ Starts bs' s' := by
  obtain ⟨hs, rest, rfl⟩ := h
  cases s with
  | nil => exact .inl ⟨rfl, rest, rfl⟩
  | cons c s =>
    rw [List.mem_cons, not_or] at hs
    exact .inr ⟨c, s, s ++ 0 :: rest, fun h => hs.1 h.symm, rfl, rfl, hs.2, rest, rfl⟩

theorem strlen_eq : ∀ {s bs : List UInt8}, Starts bs s → strlen bs = .ok s.length := by
  intro s
  induction s with
  | nil =>
    rintro bs ⟨-, rest, rfl⟩
    rfl
  | cons c s ih =>
    intro bs h
    rcases h.cases with ⟨hnil, -⟩ | ⟨d, s', bs', hd, hs, rfl, h'⟩
    · cases hnil
    · cases hs
      rw [strlen, if_neg hd, ih h', ok_bind, List.length_cons]

theorem charDiff_ne_zero {d : UInt8} (h : c ≠ d) : charDiff c d ≠ 0 := by
  intro heq
  apply h
  apply UInt8.toNat.inj
  unfold charDiff at heq
  omega

/-- **`strncmp`** with the length of a string asks whether it is a prefix. -/
theorem strncmp_spec : ∀ {p s bs ps : List UInt8}, Starts bs s → Starts ps p →
    ∃ r, strncmp bs ps p.length = .ok r ∧ (r = 0 ↔ p <+: s) := by
  intro p
  induction p with
  | nil =>
    intro s bs ps _ _
    exact ⟨0, by rw [List.length_nil, strncmp], by simp⟩
  | cons d p ih =>
    intro s bs ps hs hp
    rcases hp.cases with ⟨hnil, -⟩ | ⟨_, p', ps', hd, heq, rfl, hp'⟩
    · cases hnil
    cases heq
    rcases hs.cases with ⟨rfl, rest, rfl⟩ | ⟨c, s', bs', hc, rfl, rfl, hs'⟩
    · refine ⟨charDiff 0 d, ?_, iff_of_false (charDiff_ne_zero hd.symm) (by simp)⟩
      rw [List.length_cons, strncmp, if_pos hd.symm]
    · rw [List.length_cons, strncmp]
      by_cases hcd : c = d
      · obtain ⟨r, hr, hiff⟩ := ih hs' hp'
        refine ⟨r, by rw [if_neg (not_not.2 hcd), if_neg hc, hr], hiff.trans ?_⟩
        rw [List.cons_prefix_cons, and_iff_right hcd.symm]
      · refine ⟨charDiff c d, by rw [if_pos hcd], iff_of_false (charDiff_ne_zero hcd) fun h => ?_⟩
        exact hcd (List.cons_prefix_cons.1 h).1.symm

/-- The search from an index on finds the string in what is left. -/
theorem strstrFrom_spec (hp : Starts ps p) : ∀ {s bs : List UInt8}, Starts bs s → ∀ index,
    ∃ r, strstrFrom ps p.length index bs = .ok r ∧ (r.isSome ↔ p <:+: s) := by
  intro s
  induction s with
  | nil =>
    rintro bs hs index
    obtain ⟨r, hr, hiff⟩ := strncmp_spec hs hp
    rcases hs.cases with ⟨-, rest, rfl⟩ | ⟨_, _, _, -, hcons, -⟩
    · rw [strstrFrom, hr, ok_bind]
      by_cases hzero : r = 0
      · rw [if_pos hzero]
        exact ⟨some index, rfl, iff_of_true rfl (hiff.1 hzero).isInfix⟩
      · rw [if_neg hzero, if_pos rfl]
        refine ⟨none, rfl, iff_of_false (by simp) fun h => hzero (hiff.2 ?_)⟩
        rw [List.infix_nil.1 h]
    · cases hcons
  | cons c s ih =>
    intro bs hs index
    obtain ⟨r, hr, hiff⟩ := strncmp_spec hs hp
    rcases hs.cases with ⟨hnil, -⟩ | ⟨_, s', bs', hc, heq, rfl, hs'⟩
    · cases hnil
    cases heq
    rw [strstrFrom, hr, ok_bind]
    by_cases hzero : r = 0
    · rw [if_pos hzero]
      exact ⟨some index, rfl, iff_of_true rfl (hiff.1 hzero).isInfix⟩
    · rw [if_neg hzero, if_neg hc]
      obtain ⟨found, hfound, hinfix⟩ := ih hs' (index + 1)
      refine ⟨found, hfound, hinfix.trans ?_⟩
      rw [List.infix_cons_iff, or_iff_right fun h => hzero (hiff.2 h)]

/-- **`strstr`** asks whether a string is an infix. -/
theorem strstr_spec (hs : Starts bs s) (hp : Starts ps p) :
    ∃ r, strstr bs ps = .ok r ∧ (r.isSome ↔ p <:+: s) := by
  rw [strstr, strlen_eq hp, ok_bind]
  exact strstrFrom_spec hp hs 0

/-- **`memcmp`** asks whether two ranges are the same. -/
theorem memcmp_eq_zero : ∀ {s p : List UInt8}, s.length = p.length →
    (memcmp s p = 0 ↔ s = p) := by
  intro s
  induction s with
  | nil =>
    intro p h
    rw [List.length_eq_zero_iff.1 h.symm]
    exact iff_of_true rfl rfl
  | cons c s ih =>
    intro p h
    cases p with
    | nil => cases h
    | cons d p =>
      rw [memcmp]
      by_cases hcd : c = d
      · rw [if_neg (not_not.2 hcd), ih (Nat.succ.inj h), List.cons.injEq, and_iff_right hcd]
      · rw [if_pos hcd]
        exact iff_of_false (charDiff_ne_zero hcd) fun heq => hcd (List.cons.inj heq).1

end CString
