import Mathlib.Tactic
import K4c.Lib.Refusals

/-!
# Objects that share a memory

A program has variables, each of them for objects of one kind, and it creates, calls and
destroys these objects in any order.  All of them take their blocks from one memory.

* `Kind` — the operations of one kind of objects, and what an object means.
* `Kind.Lawful` — what each operation has to do, for an object by itself: it follows the
  meaning, it exchanges the blocks that the object owns, and it blames the memory only when
  it was refused something.
* `step` — one act of a program; `Spec` — the abstract program, in which an act changes
  the meaning of its own variable only.
* `run_spec` — **objects compose**: whatever the order of the acts, a program of lawful
  kinds follows the abstract program, and `Joint` says whose each block is.
* `projected` — what an abstract program does with one variable is a life of an object of
  its kind.
-/

namespace Objects

open Exec Blocks Runs

variable {β : Type}

/-! ## Kinds -/

/-- A kind of objects that keep their data in a memory of blocks. -/
structure Kind (β : Type) where
  Handle : Type
  Call : Type
  Answer : Type
  /-- What an object means. -/
  Model : Type
  create : Mem β → Result (Option Handle × Mem β)
  step : Handle × Mem β → Call → Result (Answer × (Handle × Mem β))
  destroy : Handle → Mem β → Result (Mem β)
  /-- What a caller promises of a call. -/
  Allowed : Handle × Mem β → Call → Prop
  /-- What a new object means. -/
  Initial : Model → Prop
  /-- What a call may answer and make of the object. -/
  Spec : Model → Call → Answer → Model → Prop
  /-- The answer says that there was no memory. -/
  Blames : Answer → Prop
  /-- An object of this kind is larger than any memory. -/
  TooLarge : Prop

namespace Kind

variable (K : Kind β)

/-- What is done with a variable. -/
inductive Act where
  | create
  | call (c : K.Call)
  | destroy

/-- What the program learns from it. -/
inductive Reply where
  /-- Whether there is an object now. -/
  | created (b : Bool)
  | answer (o : K.Answer)
  | destroyed

/-- The reply says that there was no memory. -/
def Reply.Blames {K : Kind β} : K.Reply → Prop
  | .created b => b = false ∧ ¬ K.TooLarge
  | .answer o => K.Blames o
  | .destroyed => False

/-- One act on a variable.  Without an object there is nothing to call or destroy. -/
def perform (s : Option K.Handle × Mem β) : K.Act → Result (K.Reply × (Option K.Handle × Mem β))
  | .create => do
    let (out, w) ← K.create s.2
    return (.created out.isSome, (out, w))
  | .call c =>
    match s.1 with
    | none => .error .badAccess
    | some h => do
      let (o, h, w) ← K.step (h, s.2) c
      return (.answer o, (some h, w))
  | .destroy =>
    match s.1 with
    | none => .error .badAccess
    | some h => do
      let w ← K.destroy h s.2
      return (.destroyed, (none, w))

/-- What a program promises: it does not lose an object by creating another one in its
place, and it calls and destroys what is there. -/
def Ready (s : Option K.Handle × Mem β) : K.Act → Prop
  | .create => s.1 = none
  | .call c =>
    match s.1 with
    | none => False
    | some h => K.Allowed (h, s.2) c
  | .destroy => s.1 ≠ none

instance [∀ s c, Decidable (K.Allowed s c)] (s : Option K.Handle × Mem β) (l : K.Act) :
    Decidable (K.Ready s l) := by
  obtain ⟨out, w⟩ := s
  cases l <;> cases out <;> unfold Ready <;> exact inferInstance

/-- What an act may answer and make of a variable. -/
def Life : Option K.Model → K.Act → K.Reply → Option K.Model → Prop
  | none, .create, .created true, m' => ∃ m, m' = some m ∧ K.Initial m
  | none, .create, .created false, m' => m' = none
  | some m, .call c, .answer o, m' => ∃ n, m' = some n ∧ K.Spec m c o n
  | some _, .destroy, .destroyed, m' => m' = none
  | _, _, _, _ => False

variable {K}

/-- The operations of a kind, for an object by itself.  `Inv` knows what the object means
and which blocks it owns.  For want of memory an operation fails only when it has asked for
some and was refused. -/
structure Lawful (K : Kind β) (reclaims : Prop)
    (Inv : K.Handle × Mem β → K.Model → List ℕ → Prop) : Prop where
  live : ∀ s m o, Inv s m o → ∀ p ∈ o, s.2.Live p
  frame : ∀ h w w' m o, Inv (h, w) m o → (∀ p ∈ o, w'.cells p = w.cells p) → Inv (h, w') m o
  create : ∀ w, Sat (K.create w) fun r =>
    w.Asked r.2 (r.1 = none ∧ ¬ K.TooLarge) ∧
    ((r.1 = none ∧ Exchange reclaims [] [] w r.2) ∨
    ∃ h m o, r.1 = some h ∧ K.Initial m ∧ Inv (h, r.2) m o ∧ Exchange reclaims [] o w r.2)
  step : ∀ s m o c, Inv s m o → K.Allowed s c →
    Sat (K.step s c) fun p => s.2.Asked p.2.2 (K.Blames p.1) ∧
      ∃ m' o', K.Spec m c p.1 m' ∧ Inv p.2 m' o' ∧ Exchange reclaims o o' s.2 p.2.2
  destroy : ∀ s m o, Inv s m o → Sat (K.destroy s.1 s.2) fun w =>
    s.2.Asked w False ∧ Exchange reclaims o [] s.2 w

theorem Lawful.imp {reclaims reclaims' : Prop} {Inv : K.Handle × Mem β → K.Model → List ℕ → Prop}
    (hK : K.Lawful reclaims Inv) (h : reclaims' → reclaims) : K.Lawful reclaims' Inv where
  live := hK.live
  frame := hK.frame
  create w := (hK.create w).mono fun _ ⟨hasked, hr⟩ => ⟨hasked, hr.imp
    (fun ⟨hout, hx⟩ => ⟨hout, hx.imp h⟩)
    fun ⟨i, m, o, hout, hinit, hinv, hx⟩ => ⟨i, m, o, hout, hinit, hinv, hx.imp h⟩⟩
  step s m o c hs hc := (hK.step s m o c hs hc).mono
    fun _ ⟨hasked, m', o', hspec, hinv, hx⟩ => ⟨hasked, m', o', hspec, hinv, hx.imp h⟩
  destroy s m o hs := (hK.destroy s m o hs).mono fun _ ⟨hasked, hx⟩ => ⟨hasked, hx.imp h⟩

/-- The variable has no object and owns nothing, or it has one. -/
def Holds (Inv : K.Handle × Mem β → K.Model → List ℕ → Prop) :
    Option K.Handle × Mem β → Option K.Model → List ℕ → Prop
  | (none, _), m, o => m = none ∧ o = []
  | (some h, w), m, o => ∃ n, m = some n ∧ Inv (h, w) n o

variable {reclaims : Prop} {Inv : K.Handle × Mem β → K.Model → List ℕ → Prop}
  {s : Option K.Handle × Mem β} {m : Option K.Model} {o : List ℕ}

theorem Lawful.holds_live (hK : K.Lawful reclaims Inv) (h : Holds Inv s m o) :
    ∀ p ∈ o, s.2.Live p := by
  obtain ⟨out, w⟩ := s
  cases out with
  | none =>
    obtain ⟨-, rfl⟩ := h
    intro p hp
    cases hp
  | some handle =>
    obtain ⟨n, -, hn⟩ := h
    exact hK.live _ n o hn

theorem Lawful.holds_frame (hK : K.Lawful reclaims Inv) {out : Option K.Handle} {w w' : Mem β}
    (h : Holds Inv (out, w) m o) (hsame : ∀ p ∈ o, w'.cells p = w.cells p) :
    Holds Inv (out, w') m o := by
  cases out with
  | none => exact h
  | some handle =>
    obtain ⟨n, hm, hn⟩ := h
    exact ⟨n, hm, hK.frame handle w w' n o hn hsame⟩

/-- **One act on a variable** follows the life of its object. -/
theorem Lawful.perform_spec (hK : K.Lawful reclaims Inv) {l : K.Act} (h : Holds Inv s m o)
    (hl : K.Ready s l) :
    Sat (K.perform s l) fun p => s.2.Asked p.2.2 p.1.Blames ∧
      ∃ m' o', K.Life m l p.1 m' ∧ Holds Inv p.2 m' o' ∧ Exchange reclaims o o' s.2 p.2.2 := by
  obtain ⟨out, w⟩ := s
  cases l with
  | create =>
    cases out with
    | some handle => cases hl
    | none =>
      obtain ⟨rfl, rfl⟩ := h
      obtain ⟨⟨out', w'⟩, hcreate, hasked, hres⟩ := hK.create w
      refine ⟨(.created out'.isSome, (out', w')), by simp only [perform, hcreate]; rfl,
        hasked.mono (And.imp_left fun hout => by simpa using hout), ?_⟩
      rcases hres with ⟨hout, hx⟩ | ⟨handle, n, o', hout, hinit, hinv, hx⟩
      · cases hout
        exact ⟨none, [], rfl, ⟨rfl, rfl⟩, hx⟩
      · cases hout
        exact ⟨some n, o', ⟨n, rfl, hinit⟩, ⟨n, rfl, hinv⟩, hx⟩
  | call c =>
    cases out with
    | none => cases hl
    | some handle =>
      obtain ⟨n, rfl, hn⟩ := h
      obtain ⟨⟨ans, handle', w'⟩, hstep, hasked, n', o', hspec, hn', hx⟩ := hK.step _ n o c hn hl
      refine ⟨(.answer ans, (some handle', w')), by simp only [perform, hstep]; rfl, hasked, ?_⟩
      exact ⟨some n', o', ⟨n', rfl, hspec⟩, ⟨n', rfl, hn'⟩, hx⟩
  | destroy =>
    cases out with
    | none => exact absurd rfl hl
    | some handle =>
      obtain ⟨n, rfl, hn⟩ := h
      obtain ⟨w', hdestroy, hasked, hx⟩ := hK.destroy _ n o hn
      refine ⟨(.destroyed, (none, w')), by simp only [perform, hdestroy]; rfl, hasked, ?_⟩
      exact ⟨none, [], rfl, ⟨rfl, rfl⟩, hx⟩

end Kind

/-! ## Programs -/

variable {V : Type} {kind : V → Kind β}

/-- The objects of a program, and the memory they share. -/
structure World (kind : V → Kind β) where
  objects : ∀ x, Option (kind x).Handle
  mem : Mem β

/-- Before the first act there are no objects. -/
def World.start (w : Mem β) : World kind := ⟨fun _ => none, w⟩

/-- The objects are in the memory, each with blocks of its own.  What was in the memory
before is as it was; and if the memory reclaims what is released, nothing else is in it
than that and what the objects own. -/
structure Joint (reclaims : Prop) (Inv : ∀ x, (kind x).Handle × Mem β → (kind x).Model →
      List ℕ → Prop) (w₀ : Mem β) (s : World kind) (a : ∀ x, Option (kind x).Model)
    (o : V → List ℕ) : Prop where
  holds : ∀ x, Kind.Holds (Inv x) (s.objects x, s.mem) (a x) (o x)
  apart : ∀ x y, x ≠ y → ∀ p ∈ o x, p ∉ o y
  others : ∀ p c, w₀.cells p = some c → s.mem.cells p = some c ∧ ∀ x, p ∉ o x
  exact : reclaims → ∀ p, s.mem.Live p → w₀.Live p ∨ ∃ x, p ∈ o x

section Joint

variable {reclaims : Prop} {Inv : ∀ x, (kind x).Handle × Mem β → (kind x).Model → List ℕ → Prop}
  {w₀ w' : Mem β} {s : World kind} {a : ∀ x, Option (kind x).Model} {o : V → List ℕ}

theorem joint_start : Joint reclaims Inv w₀ (.start w₀) (fun _ => none) fun _ => [] where
  holds _ := ⟨rfl, rfl⟩
  apart _ _ _ p hp := by cases hp
  others p c hc := ⟨hc, fun _ => List.not_mem_nil⟩
  exact _ p hp := .inl hp

/-- Without objects, a memory that reclaims is what it was before. -/
theorem Joint.live_iff (hj : Joint reclaims Inv w₀ s a o) (hre : reclaims)
    (hnone : ∀ x, s.objects x = none) (p : ℕ) : s.mem.Live p ↔ w₀.Live p := by
  constructor
  · intro hp
    rcases hj.exact hre p hp with h₀ | ⟨x, hx⟩
    · exact h₀
    · have hholds := hj.holds x
      rw [hnone x] at hholds
      rw [hholds.2] at hx
      cases hx
  · intro hp
    obtain ⟨c, hc⟩ := Mem.live_iff.1 hp
    exact Mem.live_of (hj.others p c hc).1

/-- What one variable exchanges does not belong to the others, before or afterwards. -/
theorem Joint.kept (hj : Joint reclaims Inv w₀ s a o)
    (hlaws : ∀ x, (kind x).Lawful reclaims (Inv x)) {x : V} {r : List ℕ}
    (hx : Exchange reclaims (o x) r s.mem w') {y : V} (hy : y ≠ x) :
    ∀ p ∈ o y, w'.cells p = s.mem.cells p ∧ p ∉ r := by
  intro p hp
  obtain ⟨c, hc⟩ := Mem.live_iff.1 ((hlaws y).holds_live (hj.holds y) p hp)
  obtain ⟨hc', hr⟩ := hx.others p c hc (hj.apart y x hy p hp)
  exact ⟨hc'.trans hc.symm, hr⟩

end Joint

variable [DecidableEq V]

/-- One act, on one variable. -/
def step (s : World kind) (l : Σ x, (kind x).Act) :
    Result ((Σ x, (kind x).Reply) × World kind) := do
  let (r, out, w) ← (kind l.1).perform (s.objects l.1, s.mem) l.2
  return (⟨l.1, r⟩, ⟨Function.update s.objects l.1 out, w⟩)

/-- What a program promises of an act. -/
def Ready (s : World kind) (l : Σ x, (kind x).Act) : Prop :=
  (kind l.1).Ready (s.objects l.1, s.mem) l.2

instance [∀ x s c, Decidable ((kind x).Allowed s c)] (s : World kind) (l : Σ x, (kind x).Act) :
    Decidable (Ready s l) := by
  unfold Ready
  exact inferInstance

/-- The abstract program: an act is one on the meaning of its variable. -/
inductive Spec (a : ∀ x, Option (kind x).Model) :
    (Σ x, (kind x).Act) → (Σ x, (kind x).Reply) → (∀ x, Option (kind x).Model) → Prop
  | act {x : V} {l : (kind x).Act} {r : (kind x).Reply} {m : Option (kind x).Model}
      (h : (kind x).Life (a x) l r m) : Spec a ⟨x, l⟩ ⟨x, r⟩ (Function.update a x m)

section Laws

variable {reclaims : Prop} {Inv : ∀ x, (kind x).Handle × Mem β → (kind x).Model → List ℕ → Prop}
  {w₀ w' : Mem β} {s : World kind} {a : ∀ x, Option (kind x).Model} {o : V → List ℕ}

/-- **The frame rule.**  What one variable exchanges, the others do not notice. -/
theorem Joint.exchanged (hj : Joint reclaims Inv w₀ s a o)
    (hlaws : ∀ x, (kind x).Lawful reclaims (Inv x)) {x : V} {out : Option (kind x).Handle}
    {m : Option (kind x).Model} {r : List ℕ} (hholds : Kind.Holds (Inv x) (out, w') m r)
    (hx : Exchange reclaims (o x) r s.mem w') :
    Joint reclaims Inv w₀ ⟨Function.update s.objects x out, w'⟩ (Function.update a x m)
      (Function.update o x r) := by
  have hkept : ∀ y, y ≠ x → ∀ p ∈ o y, w'.cells p = s.mem.cells p ∧ p ∉ r :=
    fun y => hj.kept hlaws hx
  constructor
  case holds =>
    intro y
    by_cases hy : y = x
    · subst hy
      simpa using hholds
    · simp only [Function.update_of_ne hy]
      exact (hlaws y).holds_frame (hj.holds y) fun p hp => (hkept y hy p hp).1
  case apart =>
    intro y z hyz p hp
    by_cases hy : y = x
    · subst hy
      rw [Function.update_self] at hp
      rw [Function.update_of_ne hyz.symm]
      exact fun hz => (hkept z hyz.symm p hz).2 hp
    · rw [Function.update_of_ne hy] at hp
      by_cases hz : z = x
      · subst hz
        rw [Function.update_self]
        exact (hkept y hy p hp).2
      · rw [Function.update_of_ne hz]
        exact hj.apart y z hyz p hp
  case others =>
    intro p c hc
    obtain ⟨hmem, hnot⟩ := hj.others p c hc
    obtain ⟨hmem', hr⟩ := hx.others p c hmem (hnot x)
    refine ⟨hmem', fun y => ?_⟩
    by_cases hy : y = x
    · subst hy
      rwa [Function.update_self]
    · rw [Function.update_of_ne hy]
      exact hnot y
  case exact =>
    intro hre p hp
    rcases hx.exact hre p hp with hr | ⟨hlive, hnot⟩
    · exact .inr ⟨x, by rwa [Function.update_self]⟩
    rcases hj.exact hre p hlive with h₀ | ⟨y, hy⟩
    · exact .inl h₀
    · have hyx : y ≠ x := by
        rintro rfl
        exact hnot hy
      exact .inr ⟨y, by rwa [Function.update_of_ne hyx]⟩

/-- The object of the variable `y` is the same one, with the same blocks, and they are as
they were. -/
structure Untouched (y : V) (s s' : World kind) (a a' : ∀ x, Option (kind x).Model)
    (o o' : V → List ℕ) : Prop where
  object : s'.objects y = s.objects y
  model : a' y = a y
  owned : o' y = o y
  cells : ∀ p ∈ o y, s'.mem.cells p = s.mem.cells p

/-- **One act** is one of the abstract program, and leaves the other variables alone. -/
theorem step_spec (hlaws : ∀ x, (kind x).Lawful reclaims (Inv x))
    (hj : Joint reclaims Inv w₀ s a o) {l : Σ x, (kind x).Act} (hl : Ready s l) :
    Sat (step s l) fun p => s.mem.Asked p.2.mem p.1.2.Blames ∧
      ∃ a' o', Spec a l p.1 a' ∧ Joint reclaims Inv w₀ p.2 a' o' ∧
        ∀ y, y ≠ l.1 → Untouched y s p.2 a a' o o' := by
  obtain ⟨x, l⟩ := l
  obtain ⟨⟨r, out, w'⟩, hperform, hasked, m, r', hlife, hholds, hx⟩ :=
    (hlaws x).perform_spec (hj.holds x) hl
  refine ⟨(⟨x, r⟩, ⟨Function.update s.objects x out, w'⟩), by simp only [step, hperform]; rfl,
    hasked, ?_⟩
  refine ⟨_, _, .act hlife, hj.exchanged hlaws hholds hx, fun y hy => ?_⟩
  exact ⟨Function.update_of_ne hy .., Function.update_of_ne hy .., Function.update_of_ne hy ..,
    fun p hp => (hj.kept hlaws hx hy p hp).1⟩

/-- **Objects compose.**  Whatever the order of the acts, a program whose kinds are lawful
follows the abstract program, and what it was refused justifies its replies. -/
theorem run_spec (hlaws : ∀ x, (kind x).Lawful reclaims (Inv x)) (w₀ : Mem β)
    (acts : List (Σ x, (kind x).Act)) (hready : Along step Ready (World.start w₀) acts) :
    Sat (trace step (World.start w₀) acts) fun p => ∃ a, Follows Spec (fun _ => none) acts p.1 a ∧
      (∃ o, Joint reclaims Inv w₀ p.2 a o) ∧ Justifies w₀ p.2.mem (fun r => r.2.Blames) p.1 := by
  refine trace_justified (m := World.mem) (R := fun s a => ∃ o, Joint reclaims Inv w₀ s a o)
    (B := fun r => r.2.Blames) (fun s a l hR hl => ?_) (fun s a l r hR hl hstep => ?_)
    acts (World.start w₀) (fun _ => none) ⟨_, joint_start⟩ hready
  · obtain ⟨o, hj⟩ := hR
    exact (step_spec hlaws hj hl).mono fun _ ⟨_, a', o', hspec, hj', _⟩ => ⟨a', hspec, o', hj'⟩
  · obtain ⟨o, hj⟩ := hR
    obtain ⟨p, hp, hasked, -⟩ := step_spec hlaws hj hl
    cases hstep.symm.trans hp
    exact hasked

/-- **The frame of a run.**  Acts on other variables do not reach an object. -/
theorem run_untouched (hlaws : ∀ x, (kind x).Lawful reclaims (Inv x))
    (hj : Joint reclaims Inv w₀ s a o) {y : V} (acts : List (Σ x, (kind x).Act))
    (hready : Along step Ready s acts) (hacts : ∀ l ∈ acts, l.1 ≠ y) :
    Sat (trace step s acts) fun p => ∃ a' o', Joint reclaims Inv w₀ p.2 a' o' ∧
      Untouched y s p.2 a a' o o' := by
  refine trace_inv (I := fun s' => ∃ a' o', Joint reclaims Inv w₀ s' a' o' ∧
    Untouched y s s' a a' o o') ?_ acts s ⟨a, o, hj, rfl, rfl, rfl, fun _ _ => rfl⟩
    (hready.and (along_of_mem acts s hacts))
  rintro s₁ l ⟨a₁, o₁, hj₁, hy⟩ ⟨hl, hne⟩
  apply (step_spec hlaws hj₁ hl).mono
  rintro p ⟨-, a₂, o₂, -, hj₂, hrest⟩
  have hy₂ := hrest y (Ne.symm hne)
  refine ⟨a₂, o₂, hj₂, hy₂.object.trans hy.object, hy₂.model.trans hy.model,
    hy₂.owned.trans hy.owned, fun q hq => ?_⟩
  rw [hy₂.cells q (by rwa [hy.owned]), hy.cells q hq]

end Laws

/-! ## One variable of a program -/

/-- What is about the variable `x`, of a list of acts or of replies. -/
def about {F : V → Type} (x : V) (ls : List (Σ y, F y)) : List (F x) :=
  ls.filterMap fun l => if h : l.1 = x then some (h ▸ l.2) else none

section About

variable {F : V → Type} {x y : V}

@[simp] theorem about_nil : about x ([] : List (Σ y, F y)) = [] := rfl

@[simp] theorem about_cons_self (l : F x) (ls : List (Σ y, F y)) :
    about x (⟨x, l⟩ :: ls) = l :: about x ls := by
  simp [about]

theorem about_cons_of_ne (h : y ≠ x) (l : F y) (ls : List (Σ y, F y)) :
    about x (⟨y, l⟩ :: ls) = about x ls := by
  simp [about, h]

end About

/-- **One variable by itself.**  In an abstract program, the acts on a variable with their
replies are a life of an object of its kind. -/
theorem projected (x : V) :
    ∀ (acts : List (Σ x, (kind x).Act)) (replies : List (Σ x, (kind x).Reply))
      (a a' : ∀ x, Option (kind x).Model), Follows Spec a acts replies a' →
      Follows (kind x).Life (a x) (about x acts) (about x replies) (a' x) := by
  intro acts
  induction acts with
  | nil =>
    intro replies a a' h
    cases replies with
    | nil =>
      cases h
      rfl
    | cons r replies => cases h
  | cons l acts ih =>
    intro replies a a' h
    cases replies with
    | nil => cases h
    | cons r replies =>
      obtain ⟨b, hact, hrest⟩ := h
      have hrest' := ih replies b a' hrest
      cases hact with
      | @act y l r m hlife =>
        by_cases hy : y = x
        · subst hy
          rw [about_cons_self, about_cons_self]
          rw [Function.update_self] at hrest'
          exact ⟨m, hlife, hrest'⟩
        · rw [about_cons_of_ne hy, about_cons_of_ne hy]
          rwa [Function.update_of_ne (Ne.symm hy)] at hrest'

end Objects
