import Mathlib.Tactic
import K4c.Lib.Programs

/-!
# Functions that are programs

A function on the state of a machine may do nothing with it but make requests.  Then it is
the run of a program, and what is known of programs is known of it.

* `Programmed` — the function is the run of a program; `pack` says where in its result the
  state is, and `Q` what is known of the rest.
* `Calls`, `Writes`, `Reads`, `Answers` — functions that give a result and a state, only a
  state, only a result, or an answer, an object and a state.
* `Programmed.bind`, `Programmed.loop` and the other rules — one for each way of putting
  functions together.
-/

open Exec

namespace Programs

variable {Req Rep σ α β γ δ ι : Type} (step : σ → Req → Result (Rep × σ))

/-- The function is the run of a program, whose results have the property `Q`. -/
def Programmed (pack : α → σ → γ) (Q : α → Prop) (f : σ → Result γ) : Prop :=
  ∃ prog : Prog Req Rep α, ∀ s, f s = (prog.run step s).map (fun r => pack r.1 r.2) ∧
    ∀ r, prog.run step s = .ok r → Q r.1

/-- A function that gives a result and the new state. -/
abbrev Calls (Q : α → Prop) (f : σ → Result (α × σ)) : Prop := Programmed step Prod.mk Q f

/-- A function that gives the new state. -/
abbrev Writes (f : σ → Result σ) : Prop :=
  Programmed step (fun (_ : Unit) s => s) (fun _ => True) f

/-- A function that gives a result and leaves the state alone. -/
abbrev Reads (Q : α → Prop) (f : σ → Result α) : Prop :=
  Calls step Q fun s => f s >>= fun a => .ok (a, s)

/-- A function that answers and gives an object and the new state. -/
abbrev Answers (Q : β → Prop) (f : σ → Result (α × (β × σ))) : Prop :=
  Programmed step (fun (a : α × β) s => (a.1, (a.2, s))) (fun a => Q a.2) f

variable {step} {pack : α → σ → γ} {Q : α → Prop} {P : β → Prop}

namespace Programmed

/-- One request. -/
theorem ask {Q : Rep → Prop} {q : Req} (h : ∀ s r, step s q = .ok r → Q r.1) :
    Calls step Q fun s => step s q := by
  refine ⟨.ask q .done, fun s => ?_⟩
  dsimp only [Prog.run]
  cases hstep : step s q with
  | error e => exact ⟨rfl, fun _ hr => by cases hr⟩
  | ok r =>
    refine ⟨rfl, fun r' hr => ?_⟩
    cases hr
    exact h s r hstep

theorem done (pack : α → σ → γ) (a : α) (h : Q a) :
    Programmed step pack Q fun s => .ok (pack a s) := by
  refine ⟨.done a, fun s => ⟨rfl, fun r hr => ?_⟩⟩
  cases hr
  exact h

theorem fail (e : Fault) : Programmed step pack Q fun _ => .error e :=
  ⟨.fail e, fun _ => ⟨rfl, fun _ hr => by cases hr⟩⟩

theorem mono {R : α → Prop} {f : σ → Result γ} (hf : Programmed step pack Q f)
    (h : ∀ a, Q a → R a) : Programmed step pack R f := by
  obtain ⟨prog, hprog⟩ := hf
  exact ⟨prog, fun s => ⟨(hprog s).1, fun r hr => h _ ((hprog s).2 r hr)⟩⟩

/-- **One function after the other.** -/
theorem bind {pack' : β → σ → δ} {f : σ → Result δ} {k : δ → Result γ}
    (hf : Programmed step pack' P f)
    (hk : ∀ b, P b → Programmed step pack Q fun s => k (pack' b s)) :
    Programmed step pack Q fun s => f s >>= k := by
  classical
  obtain ⟨prog, hprog⟩ := hf
  choose rest hrest using hk
  -- after a result without the property, which there is none of, nothing follows
  set next : β → Prog Req Rep α := fun b => if h : P b then rest b h else .fail .badAccess
  have hrun : ∀ s r, prog.run step s = .ok r → k (pack' r.1 r.2) =
      ((next r.1).run step r.2).map (fun r => pack r.1 r.2) ∧
        ∀ r', (next r.1).run step r.2 = .ok r' → Q r'.1 := by
    intro s r hr
    have hP := (hprog s).2 r hr
    have hnext : next r.1 = rest r.1 hP := dif_pos hP
    rw [hnext]
    exact hrest r.1 hP r.2
  refine ⟨prog.bind next, fun s => ?_⟩
  rw [Prog.run_bind]
  dsimp only
  rw [(hprog s).1]
  cases hr : prog.run step s with
  | error e => exact ⟨rfl, fun _ h => by cases h⟩
  | ok r => exact hrun s r hr

/-- A result that does not depend on the state. -/
theorem lift {x : Result β} {k : β → σ → Result γ}
    (h : ∀ b, x = .ok b → Programmed step pack Q (k b)) :
    Programmed step pack Q fun s => x >>= fun b => k b s := by
  cases x with
  | error e => exact fail e
  | ok b => exact h b rfl

/-- A branch on what does not depend on the state. -/
theorem cond {c : Prop} {_ : Decidable c} {f g : σ → Result γ} (hf : c → Programmed step pack Q f)
    (hg : ¬ c → Programmed step pack Q g) :
    Programmed step pack Q fun s => if c then f s else g s := by
  by_cases hc : c
  · simp only [if_pos hc]
    exact hf hc
  · simp only [if_neg hc]
    exact hg hc

/-- A function that leaves the state alone, and then another one. -/
theorem read {f : σ → Result β} {k : β → σ → Result γ} (hf : Reads step P f)
    (hk : ∀ b, P b → Programmed step pack Q (k b)) :
    Programmed step pack Q fun s => f s >>= fun b => k b s := by
  have hbind : Programmed step pack Q fun s =>
      (f s >>= fun b => .ok (b, s)) >>= fun r => k r.1 r.2 := hf.bind hk
  simpa only [bind_assoc, ok_bind] using hbind

theorem loop_succ {body : ι → Result (ι ⊕ γ)} (fuel : ℕ) (i : ι) :
    Exec.loop body (fuel + 1) i = body i >>= Sum.elim (Exec.loop body fuel) .ok := by
  rw [Exec.loop]
  cases body i with
  | error e => rfl
  | ok a =>
    cases a with
    | inl t => rfl
    | inr c => rfl

/-- The states that the rounds of a loop go on from, or leave it with. -/
def turn (pack : α → σ → γ) (a : ι ⊕ α) (s : σ) : (ι × σ) ⊕ γ :=
  a.map (fun i => (i, s)) fun a => pack a s

/-- A round after which the loop goes on. -/
theorem again {i : ι} {J : ι → Prop} (h : J i) :
    Programmed step (turn pack) (Sum.elim J Q) fun s => .ok (.inl (i, s)) :=
  done (turn pack) (.inl i) h

/-- The last round. -/
theorem leave {a : α} {J : ι → Prop} (h : Q a) :
    Programmed step (turn pack) (Sum.elim J Q) fun s => .ok (.inr (pack a s)) :=
  done (turn pack) (.inr a) h

/-- **A loop** is a program if its rounds are. -/
theorem loop {body : ι × σ → Result (ι × σ ⊕ γ)} {J : ι → Prop}
    (hbody : ∀ i, J i → Programmed step (turn pack) (Sum.elim J Q) fun s => body (i, s))
    (fuel : ℕ) : ∀ i, J i → Programmed step pack Q fun s => Exec.loop body fuel (i, s) := by
  induction fuel with
  | zero => exact fun _ _ => fail .outOfFuel
  | succ fuel ih =>
    intro i hi
    simp only [loop_succ]
    refine (hbody i hi).bind fun a ha => ?_
    cases a with
    | inl j => exact ih j ha
    | inr a => exact done pack a ha

end Programmed

theorem Calls.done {a : α} (h : Q a) : Calls step Q fun s => .ok (a, s) :=
  Programmed.done _ a h

theorem Answers.done (a : α) {b : β} (h : P b) : Answers step P fun s => .ok (a, (b, s)) :=
  Programmed.done _ (a, b) h

theorem Writes.done : Writes step fun s => .ok s := Programmed.done _ () trivial

namespace Reads

theorem done {a : α} (h : Q a) : Reads step Q fun _ => .ok a := Calls.done h

theorem fail (e : Fault) : Reads step Q fun _ => .error e := Programmed.fail e

theorem lift {x : Result β} {k : β → σ → Result α} (h : ∀ b, x = .ok b → Reads step Q (k b)) :
    Reads step Q fun s => x >>= fun b => k b s := by
  cases x with
  | error e => exact fail e
  | ok b => exact h b rfl

theorem cond {c : Prop} {_ : Decidable c} {f g : σ → Result α} (hf : c → Reads step Q f)
    (hg : ¬ c → Reads step Q g) : Reads step Q fun s => if c then f s else g s := by
  by_cases hc : c
  · simp only [if_pos hc]
    exact hf hc
  · simp only [if_neg hc]
    exact hg hc

/-- One reading function after the other. -/
theorem read {f : σ → Result β} {k : β → σ → Result α} (hf : Reads step P f)
    (hk : ∀ b, P b → Reads step Q (k b)) : Reads step Q fun s => f s >>= fun b => k b s := by
  have hread := Programmed.read hf hk
  simpa only [Reads, bind_assoc] using hread

/-- A loop that leaves the state alone. -/
theorem loop {body : σ → ι → Result (ι ⊕ α)}
    (hbody : ∀ i, Reads step (fun _ => True) fun s => body s i) (fuel : ℕ) :
    ∀ i, Reads step (fun _ => True) fun s => Exec.loop (body s) fuel i := by
  induction fuel with
  | zero => exact fun _ => fail .outOfFuel
  | succ fuel ih =>
    intro i
    simp only [Programmed.loop_succ]
    refine read (hbody i) fun r _ => ?_
    cases r with
    | inl j => exact ih j
    | inr a => exact done trivial

end Reads

end Programs
