import Mathlib.Tactic
import K4c.Lib.Objects
import K4c.Lib.Programmed

/-!
# Objects that are programs

The operations of a kind of objects may reach the memory by requests only.  Then what is done
with many such objects, in any order, is a program of requests too, and runs wherever
requests are served.

* `Kind.ByRequests` — the operations of a kind are programs.
* `offer` — an act where it is allowed; any other is passed over.
* `offered_spec` — the acts follow the abstract program, and the blocks are those of the
  objects.
* `offers_programmed` — **what is done with the objects is a program.**
-/

namespace Objects

open Exec Blocks Runs Programs

variable {β Req Rep : Type} {serve : Mem β → Req → Result (Rep × Mem β)}

/-! ## Kinds -/

namespace Kind

variable (K : Kind β)

/-- The operations of the kind are programs, on handles with a property that they keep. -/
structure ByRequests (serve : Mem β → Req → Result (Rep × Mem β)) (Usable : K.Handle → Prop) :
    Prop where
  create : Calls serve (fun out => ∀ h, out = some h → Usable h) K.create
  step : ∀ h c, Usable h → Answers serve Usable fun w => K.step (h, w) c
  destroy : ∀ h, Usable h → Writes serve (K.destroy h)
  /-- What a caller promises does not depend on the memory. -/
  allowed : ∀ h w w' c, K.Allowed (h, w) c → K.Allowed (h, w') c

variable {K} {Usable : K.Handle → Prop} {out : Option K.Handle}

/-- The variable has no object, or one with the property. -/
def Within (Usable : K.Handle → Prop) (out : Option K.Handle) : Prop := ∀ h, out = some h → Usable h

theorem ByRequests.perform (hK : K.ByRequests serve Usable) (hout : Within Usable out)
    (l : K.Act) : Answers serve (Within Usable) fun w => K.perform (out, w) l := by
  cases l with
  | create =>
    refine hK.create.bind fun out' hout' => ?_
    exact Answers.done (Reply.created out'.isSome) hout'
  | call c =>
    cases out with
    | none => exact Programmed.fail _
    | some h =>
      refine (hK.step h c (hout h rfl)).bind fun a ha => ?_
      refine Answers.done (P := Within Usable) (Reply.answer a.1) fun h' hh' => ?_
      cases hh'
      exact ha
  | destroy =>
    cases out with
    | none => exact Programmed.fail _
    | some h =>
      refine (hK.destroy h (hout h rfl)).bind fun _ _ => ?_
      exact Answers.done (P := Within Usable) Reply.destroyed fun h' hh' => by cases hh'

theorem ByRequests.ready (hK : K.ByRequests serve Usable) {w : Mem β} (w' : Mem β) {l : K.Act}
    (h : K.Ready (out, w) l) : K.Ready (out, w') l := by
  cases l with
  | create => exact h
  | call c =>
    cases out with
    | none => exact h
    | some handle => exact hK.allowed handle w w' c h
  | destroy => exact h

end Kind

/-! ## Offered acts -/

variable {V : Type} [DecidableEq V] {kind : V → Kind β}
  [∀ x s c, Decidable ((kind x).Allowed s c)]

/-- An act, if it is one that a program may do; the others are passed over. -/
def offer (s : World kind) (l : Σ x, (kind x).Act) :
    Result (Option (Σ x, (kind x).Reply) × World kind) := do
  if Ready s l then
    let (r, s) ← step s l
    return (some r, s)
  return (none, s)

variable {reclaims : Prop} {Inv : ∀ x, (kind x).Handle × Mem β → (kind x).Model → List ℕ → Prop}
  {w₀ : Mem β} {s : World kind} {a : ∀ x, Option (kind x).Model} {o : V → List ℕ}

/-- The program may not do it: there is an object that would be lost, or none to call or to
destroy, or the call is one that is not allowed. -/
def Kind.Idle {K : Kind β} (Inv : K.Handle × Mem β → K.Model → List ℕ → Prop) :
    Option K.Model → K.Act → Prop
  | m, .create => m ≠ none
  | m, .destroy => m = none
  | none, .call _ => True
  | some m, .call c => ∃ s o, Inv s m o ∧ ¬ K.Allowed s c

/-- What an act that is offered may reply and make of the meanings. -/
def Offered (Inv : ∀ x, (kind x).Handle × Mem β → (kind x).Model → List ℕ → Prop)
    (a : ∀ x, Option (kind x).Model) (l : Σ x, (kind x).Act) :
    Option (Σ x, (kind x).Reply) → (∀ x, Option (kind x).Model) → Prop
  | some r, a' => Spec a l r a'
  | none, a' => a' = a ∧ Kind.Idle (Inv l.1) (a l.1) l.2

omit [DecidableEq V] [∀ x s c, Decidable ((kind x).Allowed s c)] in
theorem idle_of_not_ready {l : Σ x, (kind x).Act}
    (hholds : Kind.Holds (Inv l.1) (s.objects l.1, s.mem) (a l.1) (o l.1)) (h : ¬ Ready s l) :
    Kind.Idle (Inv l.1) (a l.1) l.2 := by
  obtain ⟨x, l⟩ := l
  dsimp only [Ready] at hholds h ⊢
  cases hout : s.objects x with
  | none =>
    rw [hout] at hholds h
    rw [hholds.1]
    cases l with
    | create => exact absurd rfl h
    | call c => trivial
    | destroy => rfl
  | some handle =>
    rw [hout] at hholds h
    obtain ⟨m, hm, hinv⟩ := hholds
    rw [hm]
    cases l with
    | create => exact Option.some_ne_none m
    | call c => exact ⟨_, _, hinv, h⟩
    | destroy => exact absurd (Option.some_ne_none handle) h

/-- The reply to an act that was not passed over says that there was no memory. -/
def Blames (r : Option (Σ x, (kind x).Reply)) : Prop := ∃ l ∈ r, l.2.Blames

/-- **One act that is offered** is one of the abstract program, or is passed over. -/
theorem offer_spec (hlaws : ∀ x, (kind x).Lawful reclaims (Inv x))
    (hj : Joint reclaims Inv w₀ s a o) (l : Σ x, (kind x).Act) :
    Sat (offer s l) fun p => s.mem.Asked p.2.mem (Blames p.1) ∧
      ∃ a' o', Offered Inv a l p.1 a' ∧ Joint reclaims Inv w₀ p.2 a' o' := by
  unfold offer
  by_cases hl : Ready s l
  · obtain ⟨p, hstep, hasked, a', o', hspec, hj', -⟩ := step_spec hlaws hj hl
    rw [if_pos hl, hstep]
    refine Sat.ok ⟨hasked.mono ?_, a', o', hspec, hj'⟩
    rintro ⟨_, ⟨⟩, hblames⟩
    exact hblames
  · rw [if_neg hl]
    refine Sat.ok ⟨.refl _ ?_, a, o, ⟨rfl, idle_of_not_ready (hj.holds l.1) hl⟩, hj⟩
    rintro ⟨_, ⟨⟩, -⟩

/-- **Acts that are offered** follow the abstract program, in whatever order they come, and
what the program was refused justifies the replies. -/
theorem offered_spec (hlaws : ∀ x, (kind x).Lawful reclaims (Inv x)) (w₀ : Mem β)
    (acts : List (Σ x, (kind x).Act)) :
    Sat (trace offer (World.start w₀) acts) fun p => ∃ a,
      Follows (Offered Inv) (fun _ => none) acts p.1 a ∧ (∃ o, Joint reclaims Inv w₀ p.2 a o) ∧
        Justifies w₀ p.2.mem Blames p.1 := by
  refine trace_justified (m := World.mem) (R := fun s a => ∃ o, Joint reclaims Inv w₀ s a o)
    (P := fun _ _ => True) (B := Blames) (fun s a l hR _ => ?_) (fun s a l r hR _ hoffer => ?_)
    acts (World.start w₀) (fun _ => none) ⟨_, joint_start⟩
    (along_of_forall (fun _ _ => trivial) acts _)
  · obtain ⟨o, hj⟩ := hR
    exact (offer_spec hlaws hj l).mono fun _ ⟨_, a', o', hspec, hj'⟩ => ⟨a', hspec, o', hj'⟩
  · obtain ⟨o, hj⟩ := hR
    obtain ⟨p, hp, hasked, -⟩ := offer_spec hlaws hj l
    cases hoffer.symm.trans hp
    exact hasked

/-! ## As programs -/

/-- Where the memory is in what acts return. -/
def packed {ρ : Type} (a : ρ × ∀ x, Option (kind x).Handle) (w : Mem β) : ρ × World kind :=
  (a.1, ⟨a.2, w⟩)

variable {Usable : ∀ x, (kind x).Handle → Prop}

theorem offer_programmed (hkinds : ∀ x, (kind x).ByRequests serve (Usable x))
    {objects : ∀ x, Option (kind x).Handle} (hobjects : ∀ x, Kind.Within (Usable x) (objects x))
    (l : Σ x, (kind x).Act) :
    Programmed serve packed (fun a => ∀ x, Kind.Within (Usable x) (a.2 x)) fun w =>
      offer ⟨objects, w⟩ l := by
  obtain ⟨x, l⟩ := l
  have hready : ∀ w w' : Mem β, Ready ⟨objects, w⟩ ⟨x, l⟩ → Ready ⟨objects, w'⟩ ⟨x, l⟩ :=
    fun w w' => (hkinds x).ready w'
  by_cases hl : Ready ⟨objects, .empty fun _ => none⟩ ⟨x, l⟩
  · have heq : ∀ w, offer ⟨objects, w⟩ ⟨x, l⟩ = (kind x).perform (objects x, w) l >>= fun p =>
        .ok (some ⟨x, p.1⟩, ⟨Function.update objects x p.2.1, p.2.2⟩) := by
      intro w
      rw [offer, if_pos (hready _ w hl), step]
      dsimp only
      cases (kind x).perform (objects x, w) l with
      | error e => rfl
      | ok p => rfl
    simp only [heq]
    refine ((hkinds x).perform (hobjects x) l).bind fun a ha => ?_
    refine Programmed.done packed
      ((some ⟨x, a.1⟩ : Option (Σ x, (kind x).Reply)), Function.update objects x a.2) fun y => ?_
    by_cases hy : y = x
    · subst hy
      simpa using ha
    · simpa [Function.update_of_ne hy] using hobjects y
  · have heq : ∀ w, offer ⟨objects, w⟩ ⟨x, l⟩ = .ok (none, ⟨objects, w⟩) := fun w =>
      if_neg fun hw => hl (hready w _ hw)
    simp only [heq]
    exact Programmed.done packed (none, objects) hobjects

/-- **What is done with the objects is a program.** -/
theorem offers_programmed (hkinds : ∀ x, (kind x).ByRequests serve (Usable x))
    (acts : List (Σ x, (kind x).Act)) :
    ∀ objects : ∀ x, Option (kind x).Handle, (∀ x, Kind.Within (Usable x) (objects x)) →
      Programmed serve packed (fun a => ∀ x, Kind.Within (Usable x) (a.2 x)) fun w =>
        trace offer ⟨objects, w⟩ acts := by
  induction acts with
  | nil => exact fun objects hobjects => Programmed.done packed ([], objects) hobjects
  | cons l acts ih =>
    intro objects hobjects
    refine (offer_programmed hkinds hobjects l).bind fun a ha => ?_
    refine (ih a.2 ha).bind fun b hb => ?_
    exact Programmed.done packed (a.1 :: b.1, b.2) hb

end Objects
