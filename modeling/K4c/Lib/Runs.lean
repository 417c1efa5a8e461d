import Mathlib.Tactic.Basic
import K4c.Lib.Exec

/-!
# Runs of a component

A component is driven by calls: `step s l` is what the call `l` does in the
state `s`, with an answer and a next state when it returns.

* `trace` — replay a list of calls and collect the answers.
* `Along` — a condition on every call of a run, in the state it is made in: what
  the client promises, or the absence of a case.
* `trace_inv` — **the invariant rule**: what one call preserves, a run preserves;
  `trace_inv_history` — the same for an invariant that also speaks about the calls
  made so far.
* `Throughout` — a property of every state of a run; `throughout_iff` — **the rule for an
  exact condition** on its calls.
* `Follows` — an abstract component, given as a relation, allows a list of calls
  with a list of answers; `trace_refines` — **the refinement rule**: a relation
  that one call maintains is maintained by runs, answers included.
-/

namespace Runs

open Exec

variable {S A L O : Type} (step : S → L → Result (O × S))

/-- Replay calls from a state: the answers in order, and the last state. -/
def trace (s : S) : List L → Result (List O × S)
  | [] => .ok ([], s)
  | l :: ls => do
    let (o, s') ← step s l
    let (os, s'') ← trace s' ls
    return (o :: os, s'')

/-- Every call of the run satisfies `P` in the state it is made in. -/
def Along (P : S → L → Prop) (s : S) : List L → Prop
  | [] => True
  | l :: ls => P s l ∧ ∀ o s', step s l = .ok (o, s') → Along P s' ls

variable {step}

@[simp] theorem trace_nil (s : S) : trace step s [] = .ok ([], s) := rfl

theorem trace_cons_of_ok {s s' : S} {l : L} {o : O} (h : step s l = .ok (o, s')) (ls : List L) :
    trace step s (l :: ls) = (trace step s' ls >>= fun p => .ok (o :: p.1, p.2)) := by
  rw [trace, h]
  rfl

/-- Components that correspond under a map of their states have the same runs; the calls
of the first one keep an invariant. -/
theorem trace_map_of {S' : Type} {step' : S' → L → Result (O × S')} {I : S → Prop} {f : S → S'}
    (h : ∀ s l, I s → step' (f s) l = (step s l).map (Prod.map id f))
    (hkeep : ∀ s l r, I s → step s l = .ok r → I r.2) :
    ∀ (ls : List L) (s : S), I s →
      trace step' (f s) ls = (trace step s ls).map (Prod.map id f) := by
  intro ls
  induction ls with
  | nil => intro s _; rfl
  | cons l ls ih =>
    intro s hs
    rw [trace, trace, h s l hs, bind_then_map]
    cases hstep : step s l with
    | error e => rfl
    | ok p =>
      show (trace step' (f p.2) ls >>= _) = Except.map _ (trace step p.2 ls >>= _)
      rw [ih p.2 (hkeep s l p hs hstep), bind_then_map]
      cases trace step p.2 ls with
      | error e => rfl
      | ok q => rfl

theorem trace_map {S' : Type} {step' : S' → L → Result (O × S')} {f : S → S'}
    (h : ∀ s l, step' (f s) l = (step s l).map (Prod.map id f)) (ls : List L) (s : S) :
    trace step' (f s) ls = (trace step s ls).map (Prod.map id f) :=
  trace_map_of (I := fun _ => True) (fun s l _ => h s l) (fun _ _ _ _ _ => trivial) ls s trivial

/-- A condition that always holds holds along every run. -/
theorem along_of_forall {P : S → L → Prop} (h : ∀ s l, P s l) :
    ∀ (ls : List L) (s : S), Along step P s ls := by
  intro ls
  induction ls with
  | nil => intro s; trivial
  | cons l ls ih => intro s; exact ⟨h s l, fun _ s' _ => ih s'⟩

theorem Along.and {P Q : S → L → Prop} : ∀ {ls : List L} {s : S}, Along step P s ls →
    Along step Q s ls → Along step (fun s l => P s l ∧ Q s l) s ls := by
  intro ls
  induction ls with
  | nil => intro s _ _; trivial
  | cons l ls ih =>
    intro s hp hq
    exact ⟨⟨hp.1, hq.1⟩, fun o s' hstep => ih (hp.2 o s' hstep) (hq.2 o s' hstep)⟩

theorem Along.mono {P Q : S → L → Prop} (h : ∀ s l, P s l → Q s l) : ∀ {ls : List L} {s : S},
    Along step P s ls → Along step Q s ls := by
  intro ls
  induction ls with
  | nil => intro s _; trivial
  | cons l ls ih => intro s hp; exact ⟨h s l hp.1, fun o s' hstep => ih (hp.2 o s' hstep)⟩

/-- The first part of a run. -/
theorem Along.left {P : S → L → Prop} {ls' : List L} : ∀ {ls : List L} {s : S},
    Along step P s (ls ++ ls') → Along step P s ls := by
  intro ls
  induction ls with
  | nil => intro s _; trivial
  | cons l ls ih => intro s h; exact ⟨h.1, fun o s' hstep => ih (h.2 o s' hstep)⟩

/-- The rest of a run, from the state that the first part has left. -/
theorem Along.right {P : S → L → Prop} {ls' : List L} : ∀ {ls : List L} {s : S}
    {r : List O × S}, Along step P s (ls ++ ls') → trace step s ls = .ok r →
      Along step P r.2 ls' := by
  intro ls
  induction ls with
  | nil =>
    intro s r h htrace
    cases htrace
    exact h
  | cons l ls ih =>
    intro s r h htrace
    obtain ⟨⟨o, s'⟩, hstep, hrest⟩ := bind_eq_ok.1 htrace
    obtain ⟨⟨os, s''⟩, htrace', hout⟩ := bind_eq_ok.1 hrest
    cases hout
    exact ih (r := (os, s'')) (h.2 o s' hstep) htrace'

/-- What a call that returns was made under holds along a run that returns. -/
theorem along_of_trace {P : S → L → Prop} (h : ∀ s l r, step s l = .ok r → P s l) :
    ∀ (ls : List L) (s : S) (r : List O × S), trace step s ls = .ok r → Along step P s ls := by
  intro ls
  induction ls with
  | nil => intro s r _; trivial
  | cons l ls ih =>
    intro s r hr
    obtain ⟨⟨o, s'⟩, hstep, hrest⟩ := bind_eq_ok.1 hr
    obtain ⟨r', htrace, -⟩ := bind_eq_ok.1 hrest
    refine ⟨h s l _ hstep, fun o₁ s₁ hstep₁ => ?_⟩
    rw [hstep] at hstep₁
    cases hstep₁
    exact ih s' r' htrace

/-- **The invariant rule.** -/
theorem trace_inv {P : S → L → Prop} {I : S → Prop}
    (hstep : ∀ s l, I s → P s l → Sat (step s l) fun p => I p.2) :
    ∀ (ls : List L) (s : S), I s → Along step P s ls →
      Sat (trace step s ls) fun p => I p.2 := by
  intro ls
  induction ls with
  | nil => intro s hs _; exact Sat.ok hs
  | cons l ls ih =>
    intro s hs hal
    obtain ⟨⟨o, s'⟩, hl, hs'⟩ := hstep s l hs hal.1
    rw [trace_cons_of_ok hl]
    exact (ih s' hs' (hal.2 o s' hl)).bind fun p hp => Sat.ok hp

/-- **The invariant rule with the history.**  The invariant may also speak about the calls
made so far and their answers. -/
theorem trace_inv_history {P : S → L → Prop} {I : List (L × O) → S → Prop}
    (hstep : ∀ h s l, I h s → P s l → Sat (step s l) fun p => I (h ++ [(l, p.1)]) p.2) :
    ∀ (ls : List L) (h : List (L × O)) (s : S), I h s → Along step P s ls →
      Sat (trace step s ls) fun p => p.1.length = ls.length ∧ I (h ++ ls.zip p.1) p.2 := by
  intro ls
  induction ls with
  | nil => intro h s hs _; exact Sat.ok ⟨rfl, by simpa using hs⟩
  | cons l ls ih =>
    intro h s hs hal
    obtain ⟨⟨o, s'⟩, hl, hs'⟩ := hstep h s l hs hal.1
    rw [trace_cons_of_ok hl]
    refine (ih (h ++ [(l, o)]) s' hs' (hal.2 o s' hl)).bind fun p hp => Sat.ok ⟨?_, ?_⟩
    · rw [List.length_cons, hp.1, List.length_cons]
    · rw [List.zip_cons_cons]
      simpa using hp.2

/-- A condition on the calls alone. -/
theorem along_of_mem {Q : L → Prop} : ∀ (ls : List L) (s : S), (∀ l ∈ ls, Q l) →
    Along step (fun _ l => Q l) s ls := by
  intro ls
  induction ls with
  | nil => intro s _; trivial
  | cons l ls ih =>
    intro s h
    exact ⟨h l (by simp), fun _ s' _ => ih s' fun l' hl' => h l' (by simp [hl'])⟩

/-- A condition that an invariant and another condition on the calls give. -/
theorem Along.of_inv {P Q : S → L → Prop} {I : S → Prop}
    (hstep : ∀ s l, I s → P s l → Q s l ∧ Sat (step s l) fun p => I p.2) :
    ∀ (ls : List L) (s : S), I s → Along step P s ls → Along step Q s ls := by
  intro ls
  induction ls with
  | nil => intro s _ _; trivial
  | cons l ls ih =>
    intro s hs hal
    obtain ⟨hQ, p, hp, hI⟩ := hstep s l hs hal.1
    refine ⟨hQ, fun o s' hl => ih s' ?_ (hal.2 o s' hl)⟩
    cases hl.symm.trans hp
    exact hI

/-- A condition that an invariant and a condition on the call alone give. -/
theorem along_of_inv {P : S → L → Prop} {I : S → Prop} {Q : L → Prop}
    (hP : ∀ s l, I s → Q l → P s l) (hstep : ∀ s l, I s → P s l → Sat (step s l) fun p => I p.2)
    (ls : List L) (s : S) (hs : I s) (hls : ∀ l ∈ ls, Q l) : Along step P s ls :=
  Along.of_inv (P := fun _ l => Q l)
    (fun s l hI hl => ⟨hP s l hI hl, hstep s l hI (hP s l hI hl)⟩) ls s hs (along_of_mem ls s hls)

section Checking

variable {P : S → L → Prop} [∀ s l, Decidable (P s l)]

/-- Replay calls and test a condition before each of them. -/
def checkAlong (step : S → L → Result (O × S)) (P : S → L → Prop) [∀ s l, Decidable (P s l)]
    (s : S) : List L → Bool
  | [] => true
  | l :: ls =>
    decide (P s l) &&
      match step s l with
      | .ok (_, s') => checkAlong step P s' ls
      | .error _ => true

/-- A condition tested along a given run holds along it. -/
theorem along_of_check : ∀ {ls : List L} {s : S}, checkAlong step P s ls = true →
    Along step P s ls := by
  intro ls
  induction ls with
  | nil => intro s _; trivial
  | cons l ls ih =>
    intro s h
    rw [checkAlong, Bool.and_eq_true, decide_eq_true_eq] at h
    refine ⟨h.1, fun o s' hstep => ih ?_⟩
    simpa [hstep] using h.2

theorem check_of_along : ∀ {ls : List L} {s : S}, Along step P s ls →
    checkAlong step P s ls = true := by
  intro ls
  induction ls with
  | nil => intro s _; rfl
  | cons l ls ih =>
    intro s h
    rw [checkAlong, Bool.and_eq_true, decide_eq_true_eq]
    refine ⟨h.1, ?_⟩
    split
    · exact ih (h.2 _ _ ‹_›)
    · rfl

instance {s : S} {ls : List L} : Decidable (Along step P s ls) :=
  decidable_of_iff (checkAlong step P s ls = true) ⟨along_of_check, check_of_along⟩

end Checking

/-! ## Every state of a run -/

/-- The run returns, and every state of it has the property, the first and the last one
too. -/
def Throughout (step : S → L → Result (O × S)) (G : S → Prop) (s : S) (ls : List L) : Prop :=
  Along step (fun s _ => G s) s ls ∧ Sat (trace step s ls) fun p => G p.2

theorem throughout_nil {G : S → Prop} {s : S} : Throughout step G s [] ↔ G s := by
  rw [Throughout, trace_nil, sat_ok_iff]
  exact ⟨fun h => h.2, fun h => ⟨trivial, h⟩⟩

theorem throughout_cons {G : S → Prop} {s s' : S} {l : L} {o : O} {ls : List L}
    (h : step s l = .ok (o, s')) :
    Throughout step G s (l :: ls) ↔ G s ∧ Throughout step G s' ls := by
  rw [Throughout, Throughout, trace_cons_of_ok h]
  constructor
  · rintro ⟨⟨hs, hal⟩, p, hp, hG⟩
    obtain ⟨q, hq, hpq⟩ := bind_eq_ok.1 hp
    cases hpq
    exact ⟨hs, hal o s' h, q, hq, hG⟩
  · rintro ⟨hs, hal, hsat⟩
    refine ⟨⟨hs, fun o' s'' h' => ?_⟩, hsat.bind fun p hp => Sat.ok hp⟩
    cases h.symm.trans h'
    exact hal

theorem Throughout.start {G : S → Prop} {s : S} {ls : List L} (h : Throughout step G s ls) :
    G s := by
  cases ls with
  | nil => exact throughout_nil.1 h
  | cons l ls => exact h.1.1

/-- **The rule for an exact condition.**  Under an invariant that gives the property, calls
with `Q` keep the invariant, and a call without it leaves a state without the property.
Then the property holds throughout a run if and only if `Q` holds along it. -/
theorem throughout_iff {P Q : S → L → Prop} {I G : S → Prop} (hG : ∀ s, I s → G s)
    (hstep : ∀ s l, I s → P s l → Q s l → Sat (step s l) fun p => I p.2)
    (hbad : ∀ s l, I s → P s l → ¬ Q s l → Sat (step s l) fun p => ¬ G p.2) :
    ∀ (ls : List L) (s : S), I s → Along step P s ls →
      (Throughout step G s ls ↔ Along step Q s ls) := by
  intro ls
  induction ls with
  | nil => intro s hs _; exact throughout_nil.trans ⟨fun _ => trivial, fun _ => hG s hs⟩
  | cons l ls ih =>
    intro s hs hal
    by_cases hQ : Q s l
    · obtain ⟨⟨o, s'⟩, hl, hs'⟩ := hstep s l hs hal.1 hQ
      rw [throughout_cons hl, ih s' hs' (hal.2 o s' hl)]
      refine ⟨fun h => ⟨hQ, fun o₁ s₁ hl₁ => ?_⟩, fun h => ⟨hG s hs, h.2 o s' hl⟩⟩
      cases hl.symm.trans hl₁
      exact h.2
    · obtain ⟨⟨o, s'⟩, hl, hs'⟩ := hbad s l hs hal.1 hQ
      rw [throughout_cons hl]
      exact ⟨fun h => absurd h.2.start hs', fun h => absurd h.1 hQ⟩

/-! ## Refinement -/

/-- The abstract component `spec` can answer the calls by the given answers. -/
def Follows (spec : A → L → O → A → Prop) : A → List L → List O → A → Prop
  | a, [], [], a' => a' = a
  | a, l :: ls, o :: os, a' => ∃ b, spec a l o b ∧ Follows spec b ls os a'
  | _, _, _, _ => False

/-- **The refinement rule.** -/
theorem trace_refines {P : S → L → Prop} {T : A → L → O → A → Prop} {R : S → A → Prop}
    (hstep : ∀ s a l, R s a → P s l →
      Sat (step s l) fun p => ∃ a', T a l p.1 a' ∧ R p.2 a') :
    ∀ (ls : List L) (s : S) (a : A), R s a → Along step P s ls →
      Sat (trace step s ls) fun p => ∃ a', Follows T a ls p.1 a' ∧ R p.2 a' := by
  intro ls
  induction ls with
  | nil => intro s a hR _; exact Sat.ok ⟨a, rfl, hR⟩
  | cons l ls ih =>
    intro s a hR hal
    obtain ⟨⟨o, s'⟩, hl, b, hspec, hR'⟩ := hstep s a l hR hal.1
    rw [trace_cons_of_ok hl]
    refine (ih s' b hR' (hal.2 o s' hl)).bind fun p hp => ?_
    obtain ⟨a', hfol, hRa⟩ := hp
    exact Sat.ok ⟨a', ⟨b, hspec, hfol⟩, hRa⟩

end Runs
