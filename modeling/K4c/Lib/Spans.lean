import Mathlib.Tactic
import K4c.Lib.Runs

/-!
# Parts that share an addressed memory

A program has a number of parts, each with a handle of its own, that keep their data in
the cells of one memory.  A call may hand cells in, and the program writes into the cells
that no part uses.

* `Part` — the operations of one part, and the spans of cells it uses.
* `Part.Lawful` — what each operation has to do, for a part by itself: it changes no cell
  but those it uses and those it is given.
* `step` — one act of the program; `Spec` — the abstract program, in which an act changes
  the meaning of its own part only.
* `run_spec` — **parts compose**: whatever the order of the acts, a program of lawful parts
  follows the abstract program, and no two parts use the same cell.
* `run_untouched` — cells that are never handed in or written keep their contents.
-/

namespace Spans

open Exec Runs

variable {β : Type}

/-- The cells from `start` on. -/
structure Span where
  start : ℕ
  size : ℕ
  deriving DecidableEq, Repr

/-- No cell is in both spans. -/
def Apart (s t : Span) : Prop := s.start + s.size ≤ t.start ∨ t.start + t.size ≤ s.start

instance (s t : Span) : Decidable (Apart s t) := by
  unfold Apart
  exact inferInstance

theorem Apart.symm {s t : Span} (h : Apart s t) : Apart t s := Or.symm h

/-- The cell is in none of the spans. -/
def Outside (ss : List Span) (x : ℕ) : Prop := ∀ s ∈ ss, x < s.start ∨ s.start + s.size ≤ x

theorem outside_append {ss ts : List Span} {x : ℕ} :
    Outside (ss ++ ts) x ↔ Outside ss x ∧ Outside ts x := by
  simp only [Outside, List.forall_mem_append]

theorem Outside.subset {ss ts : List Span} {x : ℕ} (h : Outside ts x) (hsub : ss ⊆ ts) :
    Outside ss x :=
  fun s hs => h s (hsub hs)

/-- A cell of some spans is in none that are apart from them. -/
theorem Outside.of_apart {ss ts : List Span} (h : ∀ s ∈ ss, ∀ t ∈ ts, Apart s t) {x : ℕ}
    (hx : ¬ Outside ts x) : Outside ss x := by
  intro s hs
  simp only [Outside, not_forall] at hx
  obtain ⟨t, ht, hx⟩ := hx
  have hst := h s hs t ht
  unfold Apart at hst
  omega

/-- The cells from `a` on are written. -/
def write (m : ℕ → β) (a : ℕ) (cells : List β) : ℕ → β :=
  fun x => if a ≤ x then (cells[x - a]?).getD (m x) else m x

theorem write_outside {m : ℕ → β} {a : ℕ} {cells : List β} {x : ℕ}
    (hx : Outside [⟨a, cells.length⟩] x) : write m a cells x = m x := by
  have hlt := hx _ (List.mem_singleton_self _)
  dsimp only at hlt
  unfold write
  split
  · rw [List.getElem?_eq_none (by omega)]
    rfl
  · rfl

/-! ## Parts -/

/-- A part of a program that keeps its data in a memory of cells. -/
structure Part (β : Type) where
  Handle : Type
  Call : Type
  Answer : Type
  /-- What a handle means. -/
  Model : Type
  initial : Handle
  step : Handle × (ℕ → β) → Call → Result (Answer × (Handle × (ℕ → β)))
  /-- The cells that are used. -/
  spans : Handle × (ℕ → β) → List Span
  /-- The cells that a call hands in. -/
  given : Call → List Span
  /-- What a caller promises of a call. -/
  Allowed : Handle × (ℕ → β) → Call → Prop
  /-- What the initial handle means. -/
  first : Model
  /-- What a call may answer and make of the meaning. -/
  Spec : Model → Call → Answer → Model → Prop

/-- The operations of a part by itself. -/
structure Part.Lawful (P : Part β) (Inv : P.Handle × (ℕ → β) → P.Model → Prop) : Prop where
  initial : ∀ m, Inv (P.initial, m) P.first ∧ P.spans (P.initial, m) = []
  congr : ∀ h m m' a, Inv (h, m) a → (∀ x, ¬ Outside (P.spans (h, m)) x → m' x = m x) →
    Inv (h, m') a ∧ P.spans (h, m') = P.spans (h, m)
  step : ∀ s a c, Inv s a → P.Allowed s c → Sat (P.step s c) fun p =>
    (∃ a', P.Spec a c p.1 a' ∧ Inv p.2 a') ∧ P.spans p.2 ⊆ P.spans s ++ P.given c ∧
      ∀ x, Outside (P.spans s ++ P.given c) x → p.2.2 x = s.2 x

/-! ## Programs -/

variable {V : Type} {P : V → Part β}

/-- The parts of a program, and the memory they share. -/
structure World (P : V → Part β) where
  handles : ∀ i, (P i).Handle
  mem : ℕ → β

/-- Before the first act no part uses a cell. -/
def World.start (m : ℕ → β) : World P := ⟨fun i => (P i).initial, m⟩

/-- The cells that a part uses. -/
def World.spans (s : World P) (i : V) : List Span := (P i).spans (s.handles i, s.mem)

/-- What a program does. -/
inductive Act (P : V → Part β) where
  | call (i : V) (c : (P i).Call)
  | write (a : ℕ) (cells : List β)

/-- What it learns from that. -/
inductive Reply (P : V → Part β) where
  | answer (i : V) (o : (P i).Answer)
  | written

/-- The cells that an act brings in: they are handed to a part or written. -/
def Act.reach : Act P → List Span
  | .call i c => (P i).given c
  | .write a cells => [⟨a, cells.length⟩]

/-- What a program promises: what it hands to a part no other part uses, and it writes into
cells that no part uses. -/
def Ready (s : World P) : Act P → Prop
  | .call i c => (P i).Allowed (s.handles i, s.mem) c ∧
    ∀ j, j ≠ i → ∀ t ∈ (P i).given c, ∀ u ∈ s.spans j, Apart t u
  | .write a cells => ∀ i, ∀ u ∈ s.spans i, Apart ⟨a, cells.length⟩ u

instance [DecidableEq V] [Fintype V] [∀ i s c, Decidable ((P i).Allowed s c)] (s : World P) :
    (l : Act P) → Decidable (Ready s l)
  | .call i c => inferInstanceAs (Decidable ((P i).Allowed (s.handles i, s.mem) c ∧
      ∀ j, j ≠ i → ∀ t ∈ (P i).given c, ∀ u ∈ s.spans j, Apart t u))
  | .write a cells =>
    inferInstanceAs (Decidable (∀ i, ∀ u ∈ s.spans i, Apart ⟨a, cells.length⟩ u))

/-- The parts are what they mean, and no two use the same cell. -/
structure Joint (Inv : ∀ i, (P i).Handle × (ℕ → β) → (P i).Model → Prop) (s : World P)
    (a : ∀ i, (P i).Model) : Prop where
  holds : ∀ i, Inv i (s.handles i, s.mem) (a i)
  apart : ∀ i j, i ≠ j → ∀ t ∈ s.spans i, ∀ u ∈ s.spans j, Apart t u

section Joint

variable {Inv : ∀ i, (P i).Handle × (ℕ → β) → (P i).Model → Prop} {s : World P}
  {a : ∀ i, (P i).Model}

theorem joint_start (hlaws : ∀ i, (P i).Lawful (Inv i)) (m : ℕ → β) :
    Joint Inv (.start m) fun i => (P i).first where
  holds i := ((hlaws i).initial m).1
  apart i j _ t ht := by
    have hnone : (World.start m : World P).spans i = [] := ((hlaws i).initial m).2
    rw [hnone] at ht
    cases ht

/-- What is written outside of all spans no part notices. -/
theorem Joint.written (hj : Joint Inv s a) (hlaws : ∀ i, (P i).Lawful (Inv i)) {m' : ℕ → β}
    (hsame : ∀ i x, ¬ Outside (s.spans i) x → m' x = s.mem x) :
    Joint Inv ⟨s.handles, m'⟩ a := by
  have hcongr := fun i => (hlaws i).congr _ _ m' _ (hj.holds i) (hsame i)
  refine ⟨fun i => (hcongr i).1, fun i j hij => ?_⟩
  simp only [World.spans, (hcongr i).2, (hcongr j).2]
  exact hj.apart i j hij

/-- What the part `i` changes, the others do not notice. -/
theorem Joint.others (hj : Joint Inv s a) (hlaws : ∀ i, (P i).Lawful (Inv i)) {i : V}
    {given : List Span} {m' : ℕ → β}
    (hgiven : ∀ j, j ≠ i → ∀ t ∈ given, ∀ u ∈ s.spans j, Apart t u)
    (hsame : ∀ x, Outside (s.spans i ++ given) x → m' x = s.mem x) {j : V} (hne : j ≠ i) :
    (∀ t ∈ s.spans i ++ given, ∀ u ∈ s.spans j, Apart t u) ∧
      Inv j (s.handles j, m') (a j) ∧ (P j).spans (s.handles j, m') = s.spans j := by
  have hown : ∀ t ∈ s.spans i ++ given, ∀ u ∈ s.spans j, Apart t u := by
    intro t ht u hu
    rcases List.mem_append.1 ht with ht | ht
    · exact hj.apart i j hne.symm t ht u hu
    · exact hgiven j hne t ht u hu
  exact ⟨hown, (hlaws j).congr _ _ m' _ (hj.holds j) fun x hx => hsame x (.of_apart hown hx)⟩

end Joint

variable [DecidableEq V]

/-- One act. -/
def step (s : World P) : Act P → Result (Reply P × World P)
  | .call i c => do
    let (o, h, m) ← (P i).step (s.handles i, s.mem) c
    return (.answer i o, ⟨Function.update s.handles i h, m⟩)
  | .write a cells => .ok (.written, { s with mem := write s.mem a cells })

/-- The abstract program: a call is one on the meaning of its part. -/
inductive Spec (a : ∀ i, (P i).Model) : Act P → Reply P → (∀ i, (P i).Model) → Prop
  | call {i : V} {c : (P i).Call} {o : (P i).Answer} {m : (P i).Model}
      (h : (P i).Spec (a i) c o m) : Spec a (.call i c) (.answer i o) (Function.update a i m)
  | write {x : ℕ} {cells : List β} : Spec a (.write x cells) .written a

section Laws

variable {Inv : ∀ i, (P i).Handle × (ℕ → β) → (P i).Model → Prop} {s : World P}
  {a : ∀ i, (P i).Model}

/-- The part `i` has another handle, and the memory changed. -/
def World.set (s : World P) (i : V) (h : (P i).Handle) (m : ℕ → β) : World P :=
  ⟨Function.update s.handles i h, m⟩

theorem spans_set_self (i : V) (h : (P i).Handle) (m : ℕ → β) :
    (s.set i h m).spans i = (P i).spans (h, m) := by
  simp only [World.spans, World.set, Function.update_self]

theorem spans_set_of_ne {i j : V} (hj : j ≠ i) (h : (P i).Handle) (m : ℕ → β) :
    (s.set i h m).spans j = (P j).spans (s.handles j, m) := by
  simp only [World.spans, World.set, Function.update_of_ne hj]

section Changes

variable {i : V} {given : List Span} {h : (P i).Handle} {m' : ℕ → β} {b : (P i).Model}

/-- **The frame rule.**  A part that changes its own cells and those it is given leaves the
others what they are. -/
theorem Joint.changed (hj : Joint Inv s a) (hlaws : ∀ i, (P i).Lawful (Inv i))
    (hgiven : ∀ j, j ≠ i → ∀ t ∈ given, ∀ u ∈ s.spans j, Apart t u)
    (hb : Inv i (h, m') b) (hsub : (P i).spans (h, m') ⊆ s.spans i ++ given)
    (hsame : ∀ x, Outside (s.spans i ++ given) x → m' x = s.mem x) :
    Joint Inv (s.set i h m') (Function.update a i b) := by
  constructor
  case holds =>
    intro j
    by_cases hji : j = i
    · subst hji
      simpa [World.set] using hb
    · simp only [World.set, Function.update_of_ne hji]
      exact (hj.others hlaws hgiven hsame hji).2.1
  case apart =>
    intro j k hjk t ht u hu
    by_cases hji : j = i
    · subst hji
      obtain ⟨hown, -, hspans⟩ := hj.others hlaws hgiven hsame hjk.symm
      rw [spans_set_self] at ht
      rw [spans_set_of_ne hjk.symm, hspans] at hu
      exact hown t (hsub ht) u hu
    · obtain ⟨hown, -, hspans⟩ := hj.others hlaws hgiven hsame hji
      rw [spans_set_of_ne hji, hspans] at ht
      by_cases hki : k = i
      · subst hki
        rw [spans_set_self] at hu
        exact (hown u (hsub hu) t ht).symm
      · rw [spans_set_of_ne hki, (hj.others hlaws hgiven hsame hki).2.2] at hu
        exact hj.apart j k hjk t ht u hu

end Changes

/-- A cell that an act leaves alone: it is used by no part, before or afterwards. -/
structure Untouched (x : ℕ) (s s' : World P) : Prop where
  cell : s'.mem x = s.mem x
  unused : ∀ i, Outside (s'.spans i) x

/-- **One act** is one of the abstract program, and leaves the cells alone that no part uses
and that it does not bring in. -/
theorem step_spec (hlaws : ∀ i, (P i).Lawful (Inv i)) (hj : Joint Inv s a) {l : Act P}
    (hl : Ready s l) :
    Sat (step s l) fun p => (∃ a', Spec a l p.1 a' ∧ Joint Inv p.2 a') ∧
      ∀ x, (∀ i, Outside (s.spans i) x) → Outside l.reach x → Untouched x s p.2 := by
  cases l with
  | call i c =>
    obtain ⟨hallowed, hgiven⟩ := hl
    obtain ⟨⟨o, h, m'⟩, hstep, ⟨b, hspec, hb⟩, hsub, hsame⟩ :=
      (hlaws i).step _ _ c (hj.holds i) hallowed
    refine ⟨(.answer i o, s.set i h m'), by rw [step, hstep]; rfl, ?_⟩
    refine ⟨⟨_, .call hspec, hj.changed hlaws hgiven hb hsub hsame⟩, fun x hx hreach => ?_⟩
    have hout : Outside (s.spans i ++ (P i).given c) x := outside_append.2 ⟨hx i, hreach⟩
    refine ⟨hsame x hout, fun j => ?_⟩
    by_cases hji : j = i
    · subst hji
      rw [spans_set_self]
      exact hout.subset hsub
    · rw [spans_set_of_ne hji, (hj.others hlaws hgiven hsame hji).2.2]
      exact hx j
  | write y cells =>
    have hsame : ∀ i x, ¬ Outside (s.spans i) x → write s.mem y cells x = s.mem x := by
      intro i x hx
      refine write_outside (.of_apart (fun t ht u hu => ?_) hx)
      rw [List.mem_singleton.1 ht]
      exact hl i u hu
    refine Sat.ok ⟨⟨a, .write, hj.written hlaws hsame⟩, fun x hx hreach => ?_⟩
    refine ⟨write_outside hreach, fun i => ?_⟩
    have hspans := ((hlaws i).congr _ _ _ _ (hj.holds i) (hsame i)).2
    change Outside ((P i).spans (s.handles i, write s.mem y cells)) x
    rw [hspans]
    exact hx i

/-- **Parts compose.**  Whatever the order of the acts, a program whose parts are lawful
follows the abstract program. -/
theorem run_spec (hlaws : ∀ i, (P i).Lawful (Inv i)) (m : ℕ → β) (acts : List (Act P))
    (hready : Along step Ready (World.start m) acts) :
    Sat (trace step (World.start m) acts) fun p => ∃ a,
      Follows Spec (fun i => (P i).first) acts p.1 a ∧ Joint Inv p.2 a := by
  refine trace_refines (R := fun s a => Joint Inv s a) (fun s a l hj hl => ?_) acts (World.start m)
    (fun i => (P i).first) (joint_start hlaws m) hready
  exact (step_spec hlaws hj hl).mono fun p hp => hp.1

/-- **The frame of a run.**  A cell that is never brought in keeps its contents. -/
theorem run_untouched (hlaws : ∀ i, (P i).Lawful (Inv i)) (m : ℕ → β) (acts : List (Act P))
    (hready : Along step Ready (World.start m) acts) {x : ℕ}
    (hx : ∀ l ∈ acts, Outside l.reach x) :
    Sat (trace step (World.start m) acts) fun p => p.2.mem x = m x := by
  refine (trace_inv (I := fun s => (∃ a, Joint Inv s a) ∧ Untouched x (World.start m) s) ?_ acts
    (World.start m) ⟨⟨_, joint_start hlaws m⟩, rfl, fun i => ?_⟩
    (hready.and (along_of_mem acts _ hx))).mono fun p hp => hp.2.cell
  · rintro s l ⟨⟨a, hj⟩, hun⟩ ⟨hl, hreach⟩
    apply (step_spec hlaws hj hl).mono
    rintro p ⟨⟨a', -, hj'⟩, hframe⟩
    have hnext := hframe x hun.unused hreach
    exact ⟨⟨a', hj'⟩, hnext.cell.trans hun.cell, hnext.unused⟩
  · rw [World.spans, World.start, ((hlaws i).initial m).2]
    intro t ht
    cases ht

end Laws

end Spans
