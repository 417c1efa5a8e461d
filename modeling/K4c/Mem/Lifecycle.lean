import Mathlib.Tactic
import K4c.Lib.Runs
import K4c.Mem.Owners

/-!
# The life of a container

A container is created over an allocator, called in any order, and destroyed.  What
becomes of the blocks meanwhile is the same question for all of them, and has one
answer: between any two calls the blocks that have come since the creation are the
ones the handle owns, and after the destructor there are none.

* `Container` — the operations of a container, and the blocks that its handle owns.
* `Outstanding` — the blocks that have come since some earlier memory.
* `NoLeak` — the answer, for every run of a container from a given memory.
* `Sound` — what each operation has to do for it: exchange the blocks that were owned
  for those that are; `Sound.noLeak` — that this is enough.
-/

namespace K4c

open Exec Blocks Runs

/-- A container with the parameters it is created with: its handles are `σ`, the calls
it takes are `C`. -/
structure Container (σ C : Type) where
  create : Memory → Result ((Status × Option σ) × Memory)
  call : σ × Memory → C → Result (σ × Memory)
  destroy : σ → Memory → Result Memory
  /-- The blocks that a handle owns. -/
  Owns : σ × Memory → List ℕ → Prop
  /-- What a caller promises of a call. -/
  Allowed : σ × Memory → C → Prop

namespace Container

variable {σ C : Type} {K : Container σ C}

/-- One call; what it answers is of no interest here. -/
def step (K : Container σ C) (s : σ × Memory) (c : C) : Result (Unit × (σ × Memory)) := do
  let s ← K.call s c
  return ((), s)

/-! ## What is outstanding -/

/-- The blocks that are live now and were not live in `w₀` are these, each named
once; every other block is live as it was. -/
structure Outstanding (w₀ w : Memory) (o : List ℕ) : Prop where
  nodup : o.Nodup
  new : ∀ p ∈ o, ¬ w₀.Live p
  live : ∀ p, w.Live p ↔ w₀.Live p ∨ p ∈ o

/-- Where releases are releases, an exchange accounts for every block. -/
theorem Outstanding.of_exchange {w₀ w : Memory} {o : List ℕ} {reclaims : Prop}
    (hreclaims : reclaims) (h : Exchange reclaims [] o w₀ w) (hnodup : o.Nodup) :
    Outstanding w₀ w o := by
  refine ⟨hnodup, fun p hp hlive => ?_, fun p => ⟨fun hp => ?_, ?_⟩⟩
  · obtain ⟨c, hc⟩ := Mem.live_iff.1 hlive
    exact (h.others p c hc (by simp)).2 hp
  · rcases h.exact hreclaims p hp with hmem | ⟨hlive, -⟩
    · exact .inr hmem
    · exact .inl hlive
  · rintro (hlive | hmem)
    · obtain ⟨c, hc⟩ := Mem.live_iff.1 hlive
      exact Mem.live_of (h.others p c hc (by simp)).1
    · exact h.held p hmem

/-- In this state the outstanding blocks are the ones the handle owns, and the
destructor returns with none of them outstanding.  So far, and when the destructor
has returned, no request has handed in a block after the end of its life: that is what
`Disciplined` says of the log. -/
def Accounted (K : Container σ C) (w₀ : Memory) (s : σ × Memory) : Prop :=
  (∃ o, K.Owns s o ∧ Outstanding w₀ s.2 o) ∧ Disciplined s.2.log ∧
    Sat (K.destroy s.1 s.2) fun w => Outstanding w₀ w [] ∧ Disciplined w.log

/-- **No leak and no double release.**  Creating the container fails with nothing in
`*out` and nothing outstanding, or gives a handle of which every run returns in a
state in which everything is accounted for.  That the log is disciplined needs no proof
here: every memory carries it as a field, for a release or a resize of a block that is not
live is a fault, and the run would not return. -/
def NoLeak (K : Container σ C) (w₀ : Memory) : Prop :=
  Sat (K.create w₀) fun r =>
    (r.1.1 ≠ .ok ∧ r.1.2 = none ∧ Outstanding w₀ r.2 [] ∧ Disciplined r.2.log) ∨
    (r.1.1 = .ok ∧ ∃ s, r.1.2 = some s ∧ ∀ calls, Along K.step K.Allowed (s, r.2) calls →
      Sat (trace K.step (s, r.2) calls) fun p => K.Accounted w₀ p.2)

/-! ## Soundness -/

/-- What a call has to do: exchange the blocks that are owned for those that the
invariant knows afterwards. -/
def Moves (reclaims : Prop) (Inv : σ × Memory → List ℕ → Prop) (s : σ × Memory) (o : List ℕ)
    (s' : σ × Memory) : Prop :=
  ∃ o', Inv s' o' ∧ Exchange reclaims o o' s.2 s'.2

/-- Each operation exchanges the blocks that are owned before it for those that are
owned after it, and keeps an invariant that knows them. -/
structure Sound (K : Container σ C) (reclaims : Prop) (w₀ : Memory)
    (Inv : σ × Memory → List ℕ → Prop) : Prop where
  owns : ∀ s o, Inv s o → K.Owns s o
  nodup : ∀ s o, Inv s o → o.Nodup
  create : ∃ st out w, K.create w₀ = .ok ((st, out), w) ∧
    ((st ≠ .ok ∧ out = none ∧ Exchange reclaims [] [] w₀ w) ∨
      (st = .ok ∧ ∃ s o, out = some s ∧ Inv (s, w) o ∧ Exchange reclaims [] o w₀ w))
  call : ∀ s o c, Inv s o → K.Allowed s c →
    Sat (K.call s c) (Moves reclaims Inv s o)
  destroy : ∀ s o, Inv s o → Sat (K.destroy s.1 s.2) fun w => Exchange reclaims o [] s.2 w

variable {reclaims : Prop} {w₀ : Memory} {Inv : σ × Memory → List ℕ → Prop}

/-- A state whose blocks were exchanged for nothing since `w₀` is accounted for. -/
theorem Sound.accounted (h : K.Sound reclaims w₀ Inv) (hreclaims : reclaims) {s : σ × Memory}
    {o : List ℕ} (hs : Inv s o) (hx : Exchange reclaims [] o w₀ s.2) : K.Accounted w₀ s := by
  refine ⟨⟨o, h.owns s o hs, .of_exchange hreclaims hx (h.nodup s o hs)⟩, s.2.disciplined, ?_⟩
  refine (h.destroy s o hs).mono fun w hw => ⟨?_, w.disciplined⟩
  exact .of_exchange hreclaims (hx.trans hw) List.nodup_nil

/-- **Exchanges are enough.**  The invariant of a run is that what is owned was
exchanged for nothing since the beginning. -/
theorem Sound.noLeak (h : K.Sound reclaims w₀ Inv) (hreclaims : reclaims) : K.NoLeak w₀ := by
  obtain ⟨st, out, w, hcreate, hres⟩ := h.create
  refine ⟨((st, out), w), hcreate, ?_⟩
  rcases hres with ⟨hst, rfl, hx⟩ | ⟨rfl, s, o, rfl, hs, hx⟩
  · exact .inl ⟨hst, rfl, .of_exchange hreclaims hx List.nodup_nil, w.disciplined⟩
  refine .inr ⟨rfl, s, rfl, fun calls halong => ?_⟩
  set I : σ × Memory → Prop := fun s => ∃ o, Inv s o ∧ Exchange reclaims [] o w₀ s.2 with hI
  have hstep : ∀ s c, I s → K.Allowed s c → Sat (K.step s c) fun p => I p.2 := by
    rintro s c ⟨o, hs, hx⟩ hc
    obtain ⟨s', hcall, o', hs', hx'⟩ := h.call s o c hs hc
    refine ⟨((), s'), ?_, o', hs', hx.trans hx'⟩
    rw [step, hcall]
    rfl
  refine (trace_inv hstep calls (s, w) ⟨o, hs, hx⟩ halong).mono ?_
  rintro ⟨_, s'⟩ ⟨o', hs', hx'⟩
  exact h.accounted hreclaims hs' hx'

end Container

end K4c
