import Mathlib.Tactic.Basic
import Mathlib.Tactic.Linarith

/-!
# Executions that can fail

A C function either returns, or it never does: it stops at a failed assertion,
it touches memory it does not own, an unsigned computation leaves its type, or a
loop runs on.  `Result` is the outcome of such a function, written in `do`
notation, and a proof that a call is `.ok` says that none of these happened.

* `check` — a run-time assertion, carrying its message.
* `loop` — a C loop, given the fuel it may use; `loop_ok` is the rule for it:
  an invariant that every round keeps, and a measure that every round but the
  last one decreases, give a result within any fuel above the measure; `loop_keeps` is
  the one for a loop that is known to return.
* `loopStates` — the states that the rounds of a loop start from;
  `loop_ok_states` is the rule for an invariant and a result that speak about them.
* `Result.Sat` — the outcome is a return value with a given property;
  `Sat.bind` composes such facts along a `do` block.
-/

namespace Exec

/-- Why a function has not returned. -/
inductive Fault where
  /-- A run-time assertion failed, with this message. -/
  | panic (message : String)
  /-- Memory was accessed outside of every live object. -/
  | badAccess
  /-- An unsigned computation left the range of its type. -/
  | wrap
  /-- A loop was still running when its fuel was used up. -/
  | outOfFuel
  deriving DecidableEq, Repr

/-- The outcome of a function that may fail to return. -/
abbrev Result (α : Type) := Except Fault α

variable {α β σ ρ : Type}

@[simp] theorem ok_bind (a : α) (f : α → Result β) : (Except.ok a >>= f) = f a := rfl

@[simp] theorem error_bind (e : Fault) (f : α → Result β) :
    ((Except.error e : Result α) >>= f) = .error e := rfl

@[simp] theorem pure_eq_ok (a : α) : (pure a : Result α) = .ok a := rfl

/-- A `do` block that returned: its first step returned, and so did the rest. -/
theorem bind_eq_ok {x : Result α} {f : α → Result β} {b : β} :
    (x >>= f) = .ok b ↔ ∃ a, x = .ok a ∧ f a = .ok b := by
  cases x with
  | error e => simp
  | ok a => simp

theorem bind_then_map {γ : Type} (x : Result α) (f : α → Result β) (g : β → γ) :
    (x >>= f).map g = x >>= fun a => (f a).map g := by
  cases x with
  | error e => rfl
  | ok a => rfl

theorem map_then_bind {γ : Type} (x : Result α) (g : α → β) (f : β → Result γ) :
    x.map g >>= f = x >>= fun a => f (g a) := by
  cases x with
  | error e => rfl
  | ok a => rfl

/-! ## Assertions -/

/-- A run-time assertion: the message of a failed one is the fault. -/
def check (cond : Prop) [Decidable cond] (message : String) : Result Unit :=
  if cond then .ok () else .error (.panic message)

@[simp] theorem check_of {cond : Prop} [Decidable cond] {message : String} (h : cond) :
    check cond message = .ok () := if_pos h

theorem check_eq_ok {cond : Prop} [Decidable cond] {message : String} {u : Unit} :
    check cond message = .ok u ↔ cond := by
  unfold check
  split
  · simp [*]
  · simp [*]

/-! ## Outcomes that are returns -/

/-- The outcome is a return, of a value with the property `Q`. -/
def Sat (x : Result α) (Q : α → Prop) : Prop := ∃ a, x = .ok a ∧ Q a

theorem Sat.ok {a : α} {Q : α → Prop} (h : Q a) : Sat (.ok a) Q := ⟨a, rfl, h⟩

theorem Sat.bind {x : Result α} {f : α → Result β} {P : α → Prop} {Q : β → Prop}
    (hx : Sat x P) (hf : ∀ a, P a → Sat (f a) Q) : Sat (x >>= f) Q := by
  obtain ⟨a, rfl, ha⟩ := hx
  exact hf a ha

theorem Sat.mono {x : Result α} {P Q : α → Prop} (hx : Sat x P) (h : ∀ a, P a → Q a) :
    Sat x Q := by
  obtain ⟨a, rfl, ha⟩ := hx
  exact ⟨a, rfl, h a ha⟩

theorem Sat.and {x : Result α} {P Q : α → Prop} (hP : Sat x P) (hQ : Sat x Q) :
    Sat x fun a => P a ∧ Q a := by
  obtain ⟨a, rfl, ha⟩ := hP
  obtain ⟨b, hb, hQb⟩ := hQ
  cases hb
  exact ⟨a, rfl, ha, hQb⟩

theorem sat_ok_iff {a : α} {Q : α → Prop} : Sat (.ok a) Q ↔ Q a := by
  refine ⟨?_, Sat.ok⟩
  rintro ⟨_, h, ha⟩
  cases h
  exact ha

instance {x : Result α} {Q : α → Prop} [∀ a, Decidable (Q a)] : Decidable (Sat x Q) :=
  match x with
  | .ok a => decidable_of_iff (Q a) sat_ok_iff.symm
  | .error _ => isFalse nofun

instance {x : Result α} {Q : α → Prop} [∀ a, Decidable (Q a)] :
    Decidable (∀ a, x = .ok a → Q a) :=
  match x with
  | .ok a => decidable_of_iff (Q a) ⟨fun h _ heq => by cases heq; exact h, fun h => h a rfl⟩
  | .error _ => isTrue nofun

/-- Evaluating a function that may give an object gave one with a property that can
be tested. -/
theorem exists_of_check {S ν : Type} {r : Result ((S × Option α) × ν)} {f : α → Bool}
    (hf : (match r with | .ok ((_, some a), _) => f a | _ => false) = true) :
    ∃ st a w, r = .ok ((st, some a), w) ∧ f a = true := by
  split at hf
  · rename_i st a w
    exact ⟨st, a, w, rfl, hf⟩
  · cases hf

/-! ## Loops -/

/-- A loop whose `body` either goes on from a new state or leaves with a result.
The fuel bounds the number of rounds. -/
def loop (body : σ → Result (σ ⊕ ρ)) : ℕ → σ → Result ρ
  | 0, _ => .error .outOfFuel
  | fuel + 1, s =>
    match body s with
    | .error e => .error e
    | .ok (.inl s') => loop body fuel s'
    | .ok (.inr r) => .ok r

theorem loop_of_inl {body : σ → Result (σ ⊕ ρ)} {s s' : σ} (h : body s = .ok (.inl s'))
    (fuel : ℕ) : loop body (fuel + 1) s = loop body fuel s' := by
  rw [loop, h]

theorem loop_of_inr {body : σ → Result (σ ⊕ ρ)} {s : σ} {r : ρ} (h : body s = .ok (.inr r))
    (fuel : ℕ) : loop body (fuel + 1) s = .ok r := by
  rw [loop, h]

/-- What one round of a loop does, for an invariant and a measure: it goes on
with the invariant kept and a smaller measure, or it leaves with `Q`. -/
def Round (I : σ → Prop) (μ : σ → ℕ) (Q : ρ → Prop) (s : σ) : σ ⊕ ρ → Prop
  | .inl s' => I s' ∧ μ s' < μ s
  | .inr r => Q r

/-- The states that the rounds of a loop start from. -/
def loopStates (body : σ → Result (σ ⊕ ρ)) : ℕ → σ → List σ
  | 0, _ => []
  | fuel + 1, s =>
    match body s with
    | .error _ => [s]
    | .ok (.inl s') => s :: loopStates body fuel s'
    | .ok (.inr _) => [s]

/-- **The loop rule with its history.**  Invariant and result may also speak about the
states `ss` that earlier rounds started from; the loop returns with those of all its
rounds. -/
theorem loop_ok_states {body : σ → Result (σ ⊕ ρ)} {I : List σ → σ → Prop} {μ : σ → ℕ}
    {Q : List σ → ρ → Prop}
    (hround : ∀ ss s, I ss s → Sat (body s) (Round (I (ss ++ [s])) μ (Q (ss ++ [s])) s)) :
    ∀ (fuel : ℕ) (ss : List σ) (s : σ), I ss s → μ s < fuel →
      Sat (loop body fuel s) (Q (ss ++ loopStates body fuel s)) := by
  intro fuel
  induction fuel with
  | zero => intro ss s _ h; exact absurd h (Nat.not_lt_zero _)
  | succ n ih =>
    intro ss s hs hlt
    obtain ⟨o, hbody, ho⟩ := hround ss s hs
    rw [loop, loopStates, hbody]
    cases o with
    | inl s' =>
      have hrest := ih (ss ++ [s]) s' ho.1 (by have := ho.2; omega)
      rwa [List.append_assoc] at hrest
    | inr r => exact Sat.ok ho

/-- **The loop rule.**  A round that keeps the invariant and decreases the
measure until it leaves makes the loop return, in every fuel above the measure. -/
theorem loop_ok {body : σ → Result (σ ⊕ ρ)} {I : σ → Prop} {μ : σ → ℕ} {Q : ρ → Prop}
    (hround : ∀ s, I s → Sat (body s) (Round I μ Q s)) (fuel : ℕ) (s : σ) (hs : I s)
    (hμ : μ s < fuel) : Sat (loop body fuel s) Q :=
  loop_ok_states (I := fun _ => I) (Q := fun _ => Q) (fun _ s hs => hround s hs) fuel [] s hs hμ

/-- **The loop rule for loops that return.**  What every round keeps holds of the result of
a loop that has one. -/
theorem loop_keeps {body : σ → Result (σ ⊕ ρ)} {I : σ → Prop} {Q : ρ → Prop}
    (hround : ∀ s o, I s → body s = .ok o → Sum.elim I Q o) :
    ∀ (fuel : ℕ) (s : σ) (r : ρ), I s → loop body fuel s = .ok r → Q r := by
  intro fuel
  induction fuel with
  | zero => intro s r _ hr; cases hr
  | succ n ih =>
    intro s r hs hr
    rw [loop] at hr
    split at hr
    · cases hr
    · rename_i s' hbody
      exact ih s' r (hround s _ hs hbody) hr
    · rename_i r' hbody
      cases hr
      exact hround s _ hs hbody

/-- What holds of every result that a round leaves with holds of the result of the loop. -/
theorem loop_result {body : σ → Result (σ ⊕ ρ)} {Q : ρ → Prop}
    (h : ∀ s r, body s = .ok (.inr r) → Q r) (fuel : ℕ) (s : σ) (r : ρ)
    (hr : loop body fuel s = .ok r) : Q r := by
  refine loop_keeps (I := fun _ => True) (fun s o _ hbody => ?_) fuel s r trivial hr
  cases o with
  | inl s' => trivial
  | inr r => exact h s r hbody

/-- Two loops whose rounds correspond under a map of the states return corresponding
results; the rounds of the first one keep an invariant. -/
theorem loop_map_of {σ' ρ' : Type} {body : σ → Result (σ ⊕ ρ)} {body' : σ' → Result (σ' ⊕ ρ')}
    {I : σ → Prop} {f : σ → σ'} {g : ρ → ρ'}
    (h : ∀ s, I s → body' (f s) = (body s).map (Sum.map f g))
    (hkeep : ∀ s s', I s → body s = .ok (.inl s') → I s') :
    ∀ (fuel : ℕ) (s : σ), I s → loop body' fuel (f s) = (loop body fuel s).map g := by
  intro fuel
  induction fuel with
  | zero => intro s _; rfl
  | succ n ih =>
    intro s hs
    rw [loop, loop, h s hs]
    cases hbody : body s with
    | error e => rfl
    | ok o =>
      cases o with
      | inl s' => exact ih s' (hkeep s s' hs hbody)
      | inr r => rfl

theorem loop_map {σ' ρ' : Type} {body : σ → Result (σ ⊕ ρ)} {body' : σ' → Result (σ' ⊕ ρ')}
    {f : σ → σ'} {g : ρ → ρ'} (h : ∀ s, body' (f s) = (body s).map (Sum.map f g)) (fuel : ℕ)
    (s : σ) : loop body' fuel (f s) = (loop body fuel s).map g :=
  loop_map_of (I := fun _ => True) (fun s _ => h s) (fun _ _ _ _ => trivial) fuel s trivial

/-- Every round starts from a state with the invariant. -/
theorem loopStates_inv {body : σ → Result (σ ⊕ ρ)} {I : σ → Prop}
    (hround : ∀ s s', I s → body s = .ok (.inl s') → I s') :
    ∀ (fuel : ℕ) (s : σ), I s → ∀ s' ∈ loopStates body fuel s, I s' := by
  intro fuel
  induction fuel with
  | zero => intro s _ s' h; exact absurd h List.not_mem_nil
  | succ n ih =>
    intro s hs s' h
    rw [loopStates] at h
    split at h
    · rwa [List.mem_singleton.1 h]
    · rename_i s₁ hbody
      rcases List.mem_cons.1 h with rfl | h
      · exact hs
      · exact ih s₁ (hround s s₁ hs hbody) s' h
    · rwa [List.mem_singleton.1 h]

end Exec
