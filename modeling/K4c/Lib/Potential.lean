import Mathlib.Tactic
import K4c.Lib.Runs

/-!
# The cost of a run

A call costs something, and most calls of a run cost little.  A potential of the states is
what earlier calls have paid in advance.

* `total` — what the calls of a run cost together.
* `total_le` — **the potential rule**: when each call that is charged pays a constant, and no
  call costs more than it pays and takes from the potential, a run costs at most the constant
  for each charged call, and what was there at the start.
-/

namespace Potential

open Exec Runs

variable {S L O : Type} (step : S → L → Result (O × S)) (cost : S → L → S → ℕ)

/-- What the calls of a run cost, up to the first one that does not return. -/
def total (s : S) : List L → ℕ
  | [] => 0
  | l :: ls =>
    match step s l with
    | .ok (_, s') => cost s l s' + total s' ls
    | .error _ => 0

variable {step cost}

theorem total_cons {s s' : S} {l : L} {o : O} (h : step s l = .ok (o, s')) (ls : List L) :
    total step cost s (l :: ls) = cost s l s' + total step cost s' ls := by
  rw [total, h]

/-- **The potential rule.** -/
theorem total_le {I : S → Prop} {P : S → L → Prop} {Φ : S → ℕ} {charged : L → Bool} {k : ℕ}
    (hstep : ∀ s l, I s → P s l → Sat (step s l) fun p =>
      I p.2 ∧ cost s l p.2 + Φ p.2 ≤ Φ s + if charged l then k else 0) :
    ∀ (ls : List L) (s : S), I s → Along step P s ls →
      total step cost s ls ≤ Φ s + k * ls.countP charged := by
  intro ls
  induction ls with
  | nil => intro s _ _; exact Nat.zero_le _
  | cons l ls ih =>
    intro s hs hal
    obtain ⟨⟨o, s'⟩, hl, hs', hpay⟩ := hstep s l hs hal.1
    have hrest := ih s' hs' (hal.2 o s' hl)
    dsimp only at hs' hpay
    rw [total_cons hl, List.countP_cons, Nat.mul_add]
    split at hpay
    · rw [if_pos ‹_›]
      omega
    · rw [if_neg ‹_›]
      omega

end Potential
