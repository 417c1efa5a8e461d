import Mathlib.Tactic
import K4c.Lib.Blocks
import K4c.Lib.Runs

/-!
# Requests that are refused

A component that has no memory for a call says so in its answer.  It may only say so when
it has asked for memory in this call and was refused.

* `Mem.Asked` — requests were made between two memories, and one of them was refused if the
  call that made them has failed.
* `Justified` — in a run, each answer that blames the memory has a refused request of its
  own; `Justifies` — the requests between two memories are such ones.
* `trace_justified` — **the rule for runs**: what one call asks for, in every state that a
  relation to an abstract component allows.
-/

open Exec Blocks

namespace Blocks.Mem

variable {β : Type} {w w' w₁ w₂ : Mem β} {p size : ℕ} {failed failed' : Prop}

/-- Requests were made in between, and if `failed`, one of them was refused. -/
structure Asked (w w' : Mem β) (failed : Prop) : Prop where
  answers : w'.answers = w.answers
  requests : w.requests ≤ w'.requests
  refused : failed → ∃ i, w.requests ≤ i ∧ i < w'.requests ∧ w.answers i = none

theorem Asked.mono (h : w.Asked w' failed) (hf : failed' → failed) : w.Asked w' failed' :=
  { h with refused := fun hfailed => h.refused (hf hfailed) }

theorem Asked.trans (h : w.Asked w₁ failed) (h' : w₁.Asked w₂ failed') :
    w.Asked w₂ (failed ∨ failed') where
  answers := h'.answers.trans h.answers
  requests := h.requests.trans h'.requests
  refused := by
    rintro (hfailed | hfailed)
    · obtain ⟨i, hle, hlt, hi⟩ := h.refused hfailed
      exact ⟨i, hle, hlt.trans_le h'.requests, hi⟩
    · obtain ⟨i, hle, hlt, hi⟩ := h'.refused hfailed
      exact ⟨i, h.requests.trans hle, hlt, by rw [← h.answers, hi]⟩

theorem Quiet.asked (h : w.Quiet w') (hf : ¬ failed) : w.Asked w' failed :=
  ⟨h.answers, h.requests.ge, fun hfailed => absurd hfailed hf⟩

theorem Asked.refl (w : Mem β) (hf : ¬ failed) : w.Asked w failed := (Quiet.refl w).asked hf

/-- After calls that did not fail, the next one tells whether something was refused. -/
theorem Asked.andThen (h : w.Asked w₁ False) (h' : w₁.Asked w₂ failed) : w.Asked w₂ failed :=
  (h.trans h').mono .inr

/-- Before calls that cannot fail. -/
theorem Asked.keep (h : w.Asked w₁ failed) (h' : w₁.Asked w₂ False) : w.Asked w₂ failed :=
  (h.trans h').mono .inl

section Requests

variable {fresh : (ℕ → UInt8) → β} {grow : (ℕ → UInt8) → β → β}

theorem refuse_asked (h : w.answers w.requests = none) : w.Asked w.refuse failed :=
  ⟨rfl, Nat.le_succ _, fun _ => ⟨w.requests, le_rfl, Nat.lt_succ_self _, h⟩⟩

/-- **A request for a block** that gives none was refused. -/
theorem alloc_asked : w.Asked (w.alloc size fresh).2 ((w.alloc size fresh).1 = 0) := by
  cases hg : w.answers w.requests with
  | none =>
    rw [alloc_refused hg]
    exact refuse_asked hg
  | some g =>
    rw [alloc_granted hg]
    exact ⟨rfl, Nat.le_succ _, fun h => absurd h w.next_pos.ne'⟩

/-- **A resize** that gives no block was refused. -/
theorem resize_asked {r : ℕ × Mem β} (h : w.resize p size fresh grow = .ok r) :
    w.Asked r.2 (r.1 = 0) := by
  unfold resize at h
  split at h
  · cases h
    exact alloc_asked
  · rename_i hp
    split at h
    · cases h
    · split at h
      · rename_i hg
        cases h
        exact refuse_asked hg
      · split at h
        · cases h
          exact ⟨rfl, Nat.le_succ _, fun h => absurd h w.next_pos.ne'⟩
        · cases h
          exact ⟨rfl, Nat.le_succ _, fun h => absurd h hp⟩

/-- A release asks for nothing. -/
theorem free_asked (h : w.free p = .ok w') : w.Asked w' False := by
  unfold free at h
  split at h
  · cases h
    exact .refl w id
  · split at h
    · cases h
    · cases h
      exact ⟨rfl, le_rfl, False.elim⟩

end Requests

end Blocks.Mem

namespace Runs

variable {S A L O : Type} {step : S → L → Result (O × S)}

/-- The requests of a run are those from `i` on and below `j`.  Each answer that blames the
memory has one that was refused, among those that were made for it. -/
def Justified (refused : ℕ → Prop) (blames : O → Prop) : ℕ → List O → ℕ → Prop
  | i, [], j => j = i
  | i, o :: os, j => ∃ k, i ≤ k ∧ (blames o → ∃ n, i ≤ n ∧ n < k ∧ refused n) ∧
      Justified refused blames k os j

theorem Justified.le {refused : ℕ → Prop} {blames : O → Prop} {os : List O} :
    ∀ {i j : ℕ}, Justified refused blames i os j → i ≤ j := by
  induction os with
  | nil =>
    intro i j h
    exact Nat.le_of_eq h.symm
  | cons o os ih =>
    rintro i j ⟨k, hle, -, hrest⟩
    exact hle.trans (ih hrest)

/-- Only the requests of the run matter. -/
theorem Justified.congr {refused refused' : ℕ → Prop} {blames : O → Prop} {os : List O} :
    ∀ {i j : ℕ}, Justified refused blames i os j → (∀ n < j, refused n → refused' n) →
      Justified refused' blames i os j := by
  induction os with
  | nil => exact fun h _ => h
  | cons o os ih =>
    rintro i j ⟨k, hle, ho, hrest⟩ himp
    refine ⟨k, hle, fun hblames => ?_, ih hrest himp⟩
    obtain ⟨n, hin, hnk, hn⟩ := ho hblames
    exact ⟨n, hin, hnk, himp n (hnk.trans_le hrest.le) hn⟩

/-- The requests that a run has made from `w` to `w'` justify its answers. -/
def Justifies {β : Type} (w w' : Mem β) (blames : O → Prop) (os : List O) : Prop :=
  Justified (fun n => w.answers n = none) blames w.requests os w'.requests

variable {β : Type} {m : S → Mem β} {P : S → L → Prop} {T : A → L → O → A → Prop}
  {R : S → A → Prop} {B : O → Prop}

/-- **The rule for runs.**  A component over a memory follows an abstract one, and blames the
memory only when it was refused something; then so do its runs. -/
theorem trace_justified
    (hstep : ∀ s a l, R s a → P s l →
      Sat (step s l) fun p => ∃ a', T a l p.1 a' ∧ R p.2 a')
    (hasked : ∀ s a l r, R s a → P s l → step s l = .ok r →
      (m s).Asked (m r.2) (B r.1)) :
    ∀ (ls : List L) (s : S) (a : A), R s a → Along step P s ls →
      Sat (trace step s ls) fun p => ∃ a', Follows T a ls p.1 a' ∧ R p.2 a' ∧
        Justifies (m s) (m p.2) B p.1 := by
  intro ls
  induction ls with
  | nil => intro s a hR _; exact Sat.ok ⟨a, rfl, hR, rfl⟩
  | cons l ls ih =>
    intro s a hR hal
    obtain ⟨⟨o, s'⟩, hl, b, hspec, hR'⟩ := hstep s a l hR hal.1
    have ha := hasked s a l (o, s') hR hal.1 hl
    rw [trace_cons_of_ok hl]
    refine (ih s' b hR' (hal.2 o s' hl)).bind fun p hp => ?_
    obtain ⟨a', hfol, hRa, hjust⟩ := hp
    refine Sat.ok ⟨a', ⟨b, hspec, hfol⟩, hRa, _, ha.requests, ha.refused, ?_⟩
    unfold Justifies at hjust
    rwa [show (m s').answers = (m s).answers from ha.answers] at hjust

end Runs
