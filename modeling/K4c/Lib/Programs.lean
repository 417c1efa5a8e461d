import Mathlib.Tactic
import K4c.Lib.Blocks

/-!
# Programs over two machines

A program asks for one thing after the other and decides by the replies how to go on.  It
does not see which machine it runs over: a concrete one, or an abstract one that makes
choices and looks each of them up.

* `Prog`, `Prog.run` — a program and its runs; `Prog.bind` — one after the other.
* `Chooser` — a machine whose choices are listed beforehand: a step looks at the entries
  from `count` on that it uses up, and at no others.
* `Chooser.realizes` — **choices can be made one by one.**  When each step of a concrete
  machine is one of the steps that the other can choose, each of its runs is one of the runs.
* `Mem.answering` and the lemmas about it — the memory of blocks, with other answers.
-/

open Exec

namespace Programs

/-- A program: its result, a fault, or a request and what it does with the reply. -/
inductive Prog (Req Rep α : Type) where
  | done (result : α)
  | fail (fault : Fault)
  | ask (request : Req) (next : Rep → Prog Req Rep α)

variable {Req Rep α β σ τ ω : Type}

namespace Prog

/-- Run a program over a machine. -/
def run (step : σ → Req → Result (Rep × σ)) : Prog Req Rep α → σ → Result (α × σ)
  | .done a, s => .ok (a, s)
  | .fail e, _ => .error e
  | .ask q next, s => step s q >>= fun p => (next p.1).run step p.2

/-- One program after the other. -/
def bind (prog : Prog Req Rep α) (k : α → Prog Req Rep β) : Prog Req Rep β :=
  match prog with
  | .done a => k a
  | .fail e => .fail e
  | .ask q next => .ask q fun r => (next r).bind k

theorem run_bind (step : σ → Req → Result (Rep × σ)) (prog : Prog Req Rep α)
    (k : α → Prog Req Rep β) : ∀ s, (prog.bind k).run step s =
      prog.run step s >>= fun p => (k p.1).run step p.2 := by
  induction prog with
  | done a => intro s; rfl
  | fail e => intro s; rfl
  | ask q next ih =>
    intro s
    simp only [bind, run]
    cases step s q with
    | error e => rfl
    | ok p => exact ih p.1 p.2

end Prog

/-! ## Machines that choose -/

/-- A machine that looks its choices up. -/
structure Chooser (τ ω Req Rep : Type) where
  step : τ → Req → Result (Rep × τ)
  /-- How many choices were used up. -/
  count : τ → ℕ
  choices : τ → ℕ → ω
  /-- The same state, with these choices. -/
  choosing : (ℕ → ω) → τ → τ
  choosing_choices : ∀ t, choosing (choices t) t = t
  choices_choosing : ∀ o t, choices (choosing o t) = o
  count_choosing : ∀ o t, count (choosing o t) = count t
  choices_step : ∀ t q r, step t q = .ok r → choices r.2 = choices t
  count_le : ∀ t q r, step t q = .ok r → count t ≤ count r.2
  /-- A step that returns sees only the choices that it uses up. -/
  ok_congr : ∀ t q o o' r, step (choosing o t) q = .ok r →
    (∀ i, count t ≤ i → i < count r.2 → o' i = o i) →
    step (choosing o' t) q = .ok (r.1, choosing o' r.2)
  /-- A step that faults does so whatever is chosen. -/
  error_congr : ∀ t q o o' e, step (choosing o t) q = .error e →
    step (choosing o' t) q = .error e

namespace Chooser

variable (m : Chooser τ ω Req Rep) {step : σ → Req → Result (Rep × σ)} {R : σ → τ → Prop}

/-- The choices that were used up, and `c` from now on. -/
def fromNow (c : ω) (t : τ) : τ :=
  m.choosing (fun i => if i < m.count t then m.choices t i else c) t

/-- A program looks choices up, and does not change them. -/
theorem choices_run (prog : Prog Req Rep α) :
    ∀ t r, prog.run m.step t = .ok r → m.choices r.2 = m.choices t := by
  induction prog with
  | done a =>
    intro t r hr
    cases hr
    rfl
  | fail e =>
    intro t r hr
    cases hr
  | ask q next ih =>
    intro t r hr
    obtain ⟨r₁, hfirst, hrest⟩ := bind_eq_ok.1 hr
    exact (ih r₁.1 r₁.2 r hrest).trans (m.choices_step t q r₁ hfirst)

/-- What a program returns over the second machine, it returns over the first. -/
def Agrees (step : σ → Req → Result (Rep × σ)) (R : σ → τ → Prop) (prog : Prog Req Rep α)
    (s : σ) (t : τ) : Prop :=
  ∀ r, prog.run m.step t = .ok r → Sat (prog.run step s) fun p => p.1 = r.1 ∧ R p.2 r.2

/-- **Choices can be made one by one.**  Those that were used up are kept, for the relation
may speak of them; the others are made where the concrete machine stands by then. -/
theorem realizes (hstep : ∀ s t q, R s t → ∃ c, ∀ r, m.step (m.fromNow c t) q = .ok r →
      Sat (step s q) fun p => p.1 = r.1 ∧ R p.2 r.2) (prog : Prog Req Rep α) :
    ∀ s t, R s t → ∃ o : ℕ → ω, (∀ i < m.count t, o i = m.choices t i) ∧
      m.Agrees step R prog s (m.choosing o t) := by
  induction prog with
  | done a =>
    intro s t hR
    refine ⟨m.choices t, fun _ _ => rfl, fun r hr => ?_⟩
    rw [m.choosing_choices] at hr
    cases hr
    exact ⟨_, rfl, rfl, hR⟩
  | fail e =>
    intro s t _
    exact ⟨m.choices t, fun _ _ => rfl, fun r hr => by cases hr⟩
  | ask q next ih =>
    intro s t hR
    obtain ⟨c, hc⟩ := hstep s t q hR
    cases hfirst : m.step (m.fromNow c t) q with
    | error e =>
      refine ⟨m.choices t, fun _ _ => rfl, fun r hr => ?_⟩
      rw [Prog.run, m.error_congr t q _ _ e hfirst] at hr
      cases hr
    | ok r₁ =>
      obtain ⟨p₁, hp₁, hreply, hR₁⟩ := hc r₁ hfirst
      obtain ⟨o, hused, ho⟩ := ih r₁.1 p₁.2 r₁.2 hR₁
      have hle : m.count t ≤ m.count r₁.2 := by
        rw [← m.count_choosing (fun i => if i < m.count t then m.choices t i else c) t]
        exact m.count_le _ q r₁ hfirst
      -- up to the next step, the choices are those of this one
      have hfirst' : ∀ i < m.count r₁.2, o i = if i < m.count t then m.choices t i else c := by
        intro i hi
        rw [hused i hi, m.choices_step _ q r₁ hfirst, fromNow, m.choices_choosing]
      refine ⟨o, fun i hi => (hfirst' i (hi.trans_le hle)).trans (if_pos hi), fun r hr => ?_⟩
      have hstep' : m.step (m.choosing o t) q = .ok (r₁.1, m.choosing o r₁.2) :=
        m.ok_congr t q _ o r₁ hfirst fun i _ hlt => hfirst' i hlt
      rw [Prog.run, hstep', ok_bind] at hr
      obtain ⟨p, hp, hsame, hRp⟩ := ho r hr
      refine ⟨p, ?_, hsame, hRp⟩
      rw [Prog.run, hp₁, ok_bind, hreply, hp]

end Chooser

end Programs

/-! ## The memory of blocks -/

namespace Blocks.Mem

variable {β : Type} {w w' : Mem β} {p size : ℕ} {fresh : (ℕ → UInt8) → β}
  {grow : (ℕ → UInt8) → β → β} {o o' : ℕ → Option Grant}

/-- The memory, with these answers. -/
def answering (o : ℕ → Option Grant) (w : Mem β) : Mem β := { w with answers := o }

@[simp] theorem cells_answering (o : ℕ → Option Grant) (w : Mem β) :
    (w.answering o).cells = w.cells := rfl

@[simp] theorem next_answering (o : ℕ → Option Grant) (w : Mem β) :
    (w.answering o).next = w.next := rfl

@[simp] theorem requests_answering (o : ℕ → Option Grant) (w : Mem β) :
    (w.answering o).requests = w.requests := rfl

@[simp] theorem load_answering (o : ℕ → Option Grant) (w : Mem β) (p : ℕ) :
    (w.answering o).load p = w.load p := rfl

/-- The memory, with the answers that it has given, and `c` from now on. -/
def fromNow (c : Option Grant) (w : Mem β) : Mem β :=
  w.answering fun i => if i < w.requests then w.answers i else c

theorem fromNow_next (c : Option Grant) (w : Mem β) :
    (w.fromNow c).answers (w.fromNow c).requests = c := if_neg (lt_irrefl _)

theorem fromNow_given (c : Option Grant) (w : Mem β) {i : ℕ} (hi : i < w.requests) :
    (w.fromNow c).answers i = w.answers i := if_pos hi

/-- A request for a new block sees one answer. -/
theorem alloc_answering (h : o' w.requests = o w.requests) :
    (w.answering o').alloc size fresh =
      Prod.map id (answering o') ((w.answering o).alloc size fresh) := by
  have h' : (w.answering o').answers w.requests = (w.answering o).answers w.requests := h
  cases hg : (w.answering o).answers w.requests with
  | none => rw [alloc_refused hg, alloc_refused (h'.trans hg)]; rfl
  | some g => rw [alloc_granted hg, alloc_granted (h'.trans hg)]; rfl

theorem alloc_requests : (w.alloc size fresh).2.requests = w.requests + 1 := by
  cases hg : w.answers w.requests with
  | none => rw [alloc_refused hg]; rfl
  | some g => rw [alloc_granted hg]; rfl

/-- A resize of a block that is not live is a fault, whatever the answers are. -/
theorem resize_dead (hp : p ≠ 0) (hdead : w.cells p = none) :
    w.resize p size fresh grow = .error .badAccess := by
  rw [resize, if_neg hp]
  split
  · rfl
  · rename_i c hc
    rw [hdead] at hc
    cases hc

/-- A resize that is granted uses up one answer, and a name if the block moves. -/
theorem resize_moved {c : Cell β} {g : Grant} (hp : w.cells p = some c)
    (h : w.answers w.requests = some g) : w.resize p size fresh grow =
      if g.moves then .ok (w.next, w.resizeMoving p ⟨size, grow g.junk c.content⟩ (live_of hp))
      else .ok (p, w.resizeInPlace p ⟨size, grow g.junk c.content⟩ (live_of hp)) := by
  rw [resize, if_neg (ne_zero_of_live (live_of hp))]
  split
  · rename_i hn
    rw [hp] at hn
    cases hn
  · rename_i c' hc
    cases hp.symm.trans hc
    rw [h]

/-- A resize sees one answer. -/
theorem resize_answering (h : o' w.requests = o w.requests) :
    (w.answering o').resize p size fresh grow =
      ((w.answering o).resize p size fresh grow).map (Prod.map id (answering o')) := by
  by_cases hp : p = 0
  · rw [resize, resize, if_pos hp, if_pos hp, alloc_answering h]
    rfl
  cases hc : w.cells p with
  | none =>
    have hdead : ∀ o, (w.answering o).cells p = none := fun _ => hc
    rw [resize_dead hp (hdead o'), resize_dead hp (hdead o)]
    rfl
  | some c =>
    have hlive : ∀ o, (w.answering o).cells p = some c := fun _ => hc
    have h' : (w.answering o').answers (w.answering o').requests =
      (w.answering o).answers (w.answering o).requests := h
    cases hg : (w.answering o).answers (w.answering o).requests with
    | none => rw [resize_refused (hlive o) hg, resize_refused (hlive o') (h'.trans hg)]; rfl
    | some g =>
      rw [resize_moved (hlive o) hg, resize_moved (hlive o') (h'.trans hg)]
      split
      · rfl
      · rfl

theorem resize_requests {r : ℕ × Mem β} (h : w.resize p size fresh grow = .ok r) :
    r.2.requests = w.requests + 1 := by
  by_cases hp : p = 0
  · rw [resize, if_pos hp] at h
    cases h
    exact alloc_requests
  cases hc : w.cells p with
  | none =>
    rw [resize_dead hp hc] at h
    cases h
  | some c =>
    cases hg : w.answers w.requests with
    | none =>
      rw [resize_refused hc hg] at h
      cases h
      rfl
    | some g =>
      rw [resize_moved hc hg] at h
      split at h
      · cases h
        rfl
      · cases h
        rfl

theorem store_dead (hdead : w.cells p = none) (content : β) :
    w.store p content = .error .badAccess := by
  unfold store
  split
  · rfl
  · rename_i c hc
    rw [hdead] at hc
    cases hc

theorem store_live {c : Cell β} (hp : w.cells p = some c) (content : β) :
    w.store p content = .ok (w.set p ⟨c.size, content⟩ (live_of hp)) := by
  unfold store
  split
  · rename_i hn
    rw [hp] at hn
    cases hn
  · rename_i c' hc
    cases hp.symm.trans hc
    rfl

/-- A store sees none. -/
theorem store_answering (content : β) : (w.answering o).store p content =
    (w.store p content).map (answering o) := by
  cases hc : w.cells p with
  | none =>
    have hdead : (w.answering o).cells p = none := hc
    rw [store_dead hdead, store_dead hc]
    rfl
  | some c =>
    have hlive : (w.answering o).cells p = some c := hc
    rw [store_live hlive, store_live hc]
    rfl

theorem free_dead (hp : p ≠ 0) (hdead : w.cells p = none) : w.free p = .error .badAccess := by
  rw [free, if_neg hp]
  split
  · rfl
  · rename_i c hc
    rw [hdead] at hc
    cases hc

theorem free_live (hp : w.Live p) : w.free p = .ok (w.release p hp) := by
  rw [free, if_neg (ne_zero_of_live hp)]
  split
  · rename_i hn
    rw [Live, hn] at hp
    cases hp
  · rfl

/-- Neither does a release. -/
theorem free_answering : (w.answering o).free p = (w.free p).map (answering o) := by
  by_cases hp : p = 0
  · rw [free, free, if_pos hp, if_pos hp]
    rfl
  cases hc : w.cells p with
  | none =>
    have hdead : (w.answering o).cells p = none := hc
    rw [free_dead hp hdead, free_dead hp hc]
    rfl
  | some c =>
    have hlive : (w.answering o).Live p := live_of hc
    rw [free_live hlive, free_live (live_of hc)]
    rfl

end Blocks.Mem
