import Mathlib.Tactic
import K4c.Lib.Objects
import K4c.Datastruct.BinaryHeapRuns
import K4c.Datastruct.DequeRuns
import K4c.Datastruct.Lifetimes
import K4c.Datastruct.Reachable
import K4c.Datastruct.StringRuns
import K4c.Datastruct.VectorCollect
import K4c.Datastruct.VectorRuns

/-!
# Vectors, deques, strings and heaps as kinds of objects

What a container answers and means is known of its runs, and which blocks it owns of its
life.  Both are about the same calls; here they are put together.

* `Container.Typed` — a container whose calls come with their bytes, and what they mean.
* `Typed.Refines` — what is known of it, why a call fails included; `Refines.lawful` — with
  a sound life this makes it a lawful kind.
* `Vector.lawful`, `Deque.lawful`, `StringHeader.lawful`, `BinaryHeap.lawful` — the kinds.
-/

namespace K4c

open Exec Blocks Runs Objects HeapOrder Slots

/-! ## Containers with a meaning -/

/-- The calls of a container with the bytes that are passed, and what they mean. -/
structure Container.Typed {σ C : Type} (K : Container σ C) where
  Call : Type
  Answer : Type
  Model : Type
  step : σ × Memory → Call → Result (Answer × (σ × Memory))
  /-- The same call without its answer. -/
  op : Call → C
  Allowed : σ × Memory → Call → Prop
  Initial : Model → Prop
  Spec : Model → Call → Answer → Model → Prop
  /-- The answer is `K4C_NO_MEMORY`. -/
  Blames : Answer → Prop
  /-- The blocks of a new container are larger than any memory. -/
  TooLarge : Prop

namespace Container.Typed

variable {σ C : Type} {K : Container σ C}

/-- The container as a kind of objects. -/
def kind (T : K.Typed) : Kind Content where
  Handle := σ
  Call := T.Call
  Answer := T.Answer
  Model := T.Model
  create w := do
    let ((_, out), w) ← K.create w
    return (out, w)
  step := T.step
  destroy := K.destroy
  Allowed := T.Allowed
  Initial := T.Initial
  Spec := T.Spec
  Blames := T.Blames
  TooLarge := T.TooLarge

/-- The calls are those of the container, and they are steps of what it means. -/
structure Refines (T : K.Typed) (R : σ × Memory → T.Model → Prop)
    (Kept : σ × Memory → List ℕ → Prop) : Prop where
  agree : ∀ s c o s' s'', T.step s c = .ok (o, s') → K.call s (T.op c) = .ok s'' → s'' = s'
  allowed : ∀ s m c, R s m → T.Allowed s c → K.Allowed s (T.op c)
  step : ∀ s m c, R s m → T.Allowed s c →
    Sat (T.step s c) fun p => ∃ m', T.Spec m c p.1 m' ∧ R p.2 m'
  created : ∀ w h w', K.create w = .ok ((.ok, some h), w') → ∃ m, T.Initial m ∧ R (h, w') m
  explained : ∀ w r, K.create w = .ok r → w.Explains r.2 T.TooLarge r.1.1
  asked : ∀ s m c r, R s m → T.Allowed s c → T.step s c = .ok r →
    s.2.Asked r.2.2 (T.Blames r.1)
  destroyed : ∀ s o w, Kept s o → K.destroy s.1 s.2 = .ok w → s.2.Asked w False
  live : ∀ s o, Kept s o → ∀ p ∈ o, s.2.Live p
  frame : ∀ h w w' m o, R (h, w) m → Kept (h, w) o → (∀ p ∈ o, w'.cells p = w.cells p) →
    R (h, w') m ∧ Kept (h, w') o

/-- **A container is a lawful kind.** -/
theorem Refines.lawful {T : K.Typed} {R : σ × Memory → T.Model → Prop}
    {Kept : σ × Memory → List ℕ → Prop} {reclaims : Prop} (hT : T.Refines R Kept)
    (hsound : ∀ w₀, K.Sound reclaims w₀ Kept) :
    T.kind.Lawful reclaims fun s m o => R s m ∧ Kept s o where
  live s _ o h := hT.live s o h.2
  frame h w w' m o hs := hT.frame h w w' m o hs.1 hs.2
  create w := by
    obtain ⟨st, out, w', hcreate, hres⟩ := (hsound w).create
    have hexplained := hT.explained w _ hcreate
    refine ⟨(out, w'), by simp only [kind, hcreate]; rfl, ?_⟩
    rcases hres with ⟨hst, rfl, hx⟩ | ⟨rfl, h, o, rfl, hkept, hx⟩
    · refine ⟨hexplained.asked.mono fun hlarge => ?_, .inl ⟨rfl, hx⟩⟩
      exact (hexplained.fails hst).resolve_right fun hover => hlarge.2 hover.2
    · obtain ⟨m, hinit, hR⟩ := hT.created w h w' hcreate
      exact ⟨hexplained.asked_of_ok.mono nofun, .inr ⟨h, m, o, rfl, hinit, ⟨hR, hkept⟩, hx⟩⟩
  step s m o c hs hc := by
    obtain ⟨⟨ans, s'⟩, hstep, m', hspec, hR'⟩ := hT.step s m c hs.1 hc
    obtain ⟨s'', hcall, o', hkept', hx⟩ :=
      (hsound s.2).call s o (T.op c) hs.2 (hT.allowed s m c hs.1 hc)
    cases hT.agree s c ans s' s'' hstep hcall
    exact ⟨(ans, s'), hstep, hT.asked s m c _ hs.1 hc hstep, m', o', hspec, ⟨hR', hkept'⟩, hx⟩
  destroy s _ o hs := by
    obtain ⟨w, hdestroy, hx⟩ := (hsound s.2).destroy s o hs.2
    exact ⟨w, hdestroy, hT.destroyed s o w hs.2 hdestroy, hx⟩

end Container.Typed

/-! ## Vectors -/

namespace Vector

/-- A call without its answer. -/
def Call.op : Call → Op
  | .push e => .push (.outside e)
  | .pop => .pop
  | .swapRemove i => .swapRemove i
  | .get i => .get i
  | .reserve n => .reserve n

theorem agree {s s' s'' : Vector × Memory} {c : Call} {o : Answer} (h : step s c = .ok (o, s'))
    (h' : call s c.op = .ok s'') : s'' = s' := by
  cases c
  all_goals
    simp [step, call, Call.op, bind_eq_ok] at h h'
    grind

/-- Vectors as lists with a capacity. -/
def typed (elemSize capacity : ℕ) (allocator : Option (Allocator Memory)) :
    (container elemSize capacity allocator).Typed where
  Call := Call
  Answer := Answer
  Model := Abstract
  step := step
  op := Call.op
  Allowed _ c := c.Valid elemSize
  Initial a := a.elements = [] ∧ a.capacity = capacity ∧ a.reserved = 0
  Spec := Spec elemSize
  Blames := (· = .status .noMemory)
  TooLarge := sizeMax < elemSize * capacity

theorem refines {elemSize capacity : ℕ} {allocator : Option (Allocator Memory)}
    (hbacked : Backed (Allocator.copy allocator)) (helem : 0 < elemSize) (hcap : 0 < capacity) :
    (typed elemSize capacity allocator).Refines
      (fun s a => Represents elemSize s.1 s.2 a) (Kept (Allocator.copy allocator)) where
  agree _ _ _ _ _ := agree
  allowed s a c hR hc := by
    cases c with
    | push e => exact ⟨e, .inl (.outside (Eq.trans hc hR.elemSize.symm))⟩
    | _ => trivial
  step s a c := step_spec s a c
  created w h w' hcreate := by
    obtain ⟨_, htrace, a, hfollows, hR, -⟩ :=
      run_represents helem hcap hbacked hcreate [] (fun _ hc => by cases hc)
    cases htrace
    cases hfollows
    exact ⟨_, ⟨rfl, rfl, rfl⟩, hR⟩
  explained w r := createWithCapacity_explains hbacked
  asked s a c r hR _ := step_asked hR
  destroyed := by
    rintro s o w ⟨-, hallocator, -⟩ hdestroy
    exact destroy_asked (hallocator ▸ hbacked) hdestroy
  live := by
    rintro s o ⟨⟨bs, h⟩, -, rfl⟩
    exact h.live
  frame := by
    rintro h w w' m o hR ⟨⟨bs, hholds⟩, hallocator, rfl⟩ hsame
    obtain ⟨bs', hholds', helements⟩ := hR.holds
    exact ⟨{ hR with holds := ⟨bs', hholds'.frame hsame, helements⟩ },
      ⟨bs, hholds.frame hsame⟩, hallocator, rfl⟩

/-- **Vectors are a lawful kind.** -/
theorem lawful {elemSize capacity : ℕ} {allocator : Option (Allocator Memory)}
    (hbacked : Backed (Allocator.copy allocator)) (helem : 0 < elemSize) (hcap : 0 < capacity) :
    (typed elemSize capacity allocator).kind.Lawful (Reclaims (Allocator.copy allocator))
      fun s a o => Represents elemSize s.1 s.2 a ∧ Kept (Allocator.copy allocator) s o :=
  (refines hbacked helem hcap).lawful (sound hbacked helem hcap)

end Vector

/-! ## Deques -/

namespace Deque

/-- A call without its answer. -/
def Call.op : Call → Op
  | .push e => .push (.outside e)
  | .pushfront e => .pushfront (.outside e)
  | .popleft => .popleft
  | .popback => .popback
  | .peekleft => .peekleft
  | .peekback => .peekback
  | .size => .size
  | .iterate => .iterate

theorem Holds.frame {d : Deque} {w w' : Memory} {bs : List UInt8} (h : Holds d w bs)
    (hsame : ∀ p ∈ d.owned, w'.cells p = w.cells p) : Holds d w' bs :=
  { h with buffered := h.buffered.elsewhere hsame }

theorem agree {s s' s'' : Deque × Memory} {c : Call} {o : Answer} (h : step s c = .ok (o, s'))
    (h' : call s c.op = .ok s'') : s'' = s' := by
  cases c
  all_goals
    simp [step, call, Call.op, bind_eq_ok] at h h'
    grind

/-- Deques as lists with a capacity. -/
def typed (elemSize : ℕ) (allocator : Option (Allocator Memory)) :
    (container elemSize allocator).Typed where
  Call := Call
  Answer := Answer
  Model := Abstract
  step := step
  op := Call.op
  Allowed _ c := c.Valid elemSize
  Initial a := a = ⟨[], defaultCapacity⟩
  Spec := Spec elemSize
  Blames := (· = .status .noMemory)
  TooLarge := sizeMax < elemSize * defaultCapacity

theorem refines {elemSize : ℕ} {allocator : Option (Allocator Memory)}
    (hbacked : Backed (Allocator.copy allocator)) (helem : 0 < elemSize) :
    (typed elemSize allocator).Refines (Represents elemSize) (Kept (Allocator.copy allocator)) where
  agree _ _ _ _ _ := agree
  allowed := by
    rintro s a c ⟨hsize, -⟩ hc
    cases c with
    | push e => exact ⟨e, .inl (.outside (Eq.trans hc hsize.symm))⟩
    | pushfront e => exact ⟨e, .inl (.outside (Eq.trans hc hsize.symm))⟩
    | _ => trivial
  step s a c := step_spec s a c
  created w h w' hcreate := by
    obtain ⟨st, out, w₁, hcreate', hres⟩ := create_spec hbacked helem w
    cases hcreate.symm.trans hcreate'
    rcases hres with ⟨hst, -⟩ | ⟨-, _, hout, -, ⟨bs, hholds⟩, hzero, hsame, hcap, -⟩
    · exact absurd rfl hst
    · cases hout
      exact ⟨⟨[], defaultCapacity⟩, rfl, hsame, hcap, bs, hholds, elements_eq_nil hzero⟩
  explained w r := create_explains hbacked
  asked s a c r hR _ := step_asked hR
  destroyed := by
    rintro s o w ⟨-, hallocator, -⟩ hdestroy
    exact destroy_asked (hallocator ▸ hbacked) hdestroy
  live := by
    rintro s o ⟨⟨bs, h⟩, -, rfl⟩
    exact h.live
  frame := by
    rintro h w w' a o ⟨hsize, hcap, bs', hholds', helements⟩ ⟨⟨bs, hholds⟩, hallocator, rfl⟩ hsame
    exact ⟨⟨hsize, hcap, bs', hholds'.frame hsame, helements⟩, ⟨bs, hholds.frame hsame⟩,
      hallocator, rfl⟩

/-- **Deques are a lawful kind.** -/
theorem lawful {elemSize : ℕ} {allocator : Option (Allocator Memory)}
    (hbacked : Backed (Allocator.copy allocator)) (helem : 0 < elemSize) :
    (typed elemSize allocator).kind.Lawful (Reclaims (Allocator.copy allocator))
      fun s a o => Represents elemSize s a ∧ Kept (Allocator.copy allocator) s o :=
  (refines hbacked helem).lawful (sound hbacked helem)

end Deque

/-! ## Strings -/

namespace StringHeader

/-- A call without its answer. -/
def Call.op : Call → Op
  | .append bytes => .append (.outside bytes)
  | .prepend bytes => .prepend (.outside bytes)
  | .clear => .clear
  | .contains bytes => .contains (.outside bytes)
  | .startsWith bytes => .startsWith (.outside bytes)
  | .endsWith bytes => .endsWith (.outside bytes)
  | .len => .len
  | .iterate => .iterate

theorem Holds.frame {s : StringHeader} {w w' : Memory} {text : List UInt8} (h : Holds s w text)
    (hsame : ∀ p ∈ s.owned, w'.cells p = w.cells p) : Holds s w' text := by
  obtain ⟨head, room, hhead, hstored⟩ := h.stored
  have hcell : w'.cells s.block = w.cells s.block := hsame _ (List.mem_singleton_self _)
  exact { h with stored := ⟨head, room, hhead, { hstored with cell := hcell.trans hstored.cell }⟩ }

theorem agree {s s' s'' : StringHeader × Memory} {c : Call} {o : Answer}
    (h : step s c = .ok (o, s')) (h' : call s c.op = .ok s'') : s'' = s' := by
  cases c
  all_goals
    simp [step, call, Call.op, bind_eq_ok] at h h'
    grind

/-- Strings that start as a copy of these bytes, as lists of characters. -/
def typed (initial : List UInt8) (allocator : Option (Allocator Memory)) :
    (container (.outside initial) allocator).Typed where
  Call := Call
  Answer := Answer
  Model := Abstract
  step := step
  op := Call.op
  Allowed _ c := c.Valid
  Initial a := a.text = textOf initial ∧ a.text.length < a.capacity
  Spec := Spec
  Blames := (· = .status .noMemory)
  TooLarge := ¬ CanHold (textOf initial).length

theorem refines {initial : List UInt8} {allocator : Option (Allocator Memory)}
    (hbacked : Backed (Allocator.copy allocator)) (hinitial : 0 ∈ initial) :
    (typed initial allocator).Refines Represents (Kept (Allocator.copy allocator)) where
  agree _ _ _ _ _ := agree
  allowed s a c _ hc := by
    cases c with
    | append bytes => exact ⟨textOf bytes, starts_textOf hc⟩
    | prepend bytes => exact ⟨textOf bytes, starts_textOf hc⟩
    | contains bytes => exact .inr ⟨textOf bytes, starts_textOf hc⟩
    | startsWith bytes => exact .inr ⟨textOf bytes, starts_textOf hc⟩
    | endsWith bytes => exact .inr ⟨textOf bytes, starts_textOf hc⟩
    | _ => trivial
  step s a c := step_spec s a c
  created w h w' hcreate := by
    have hstarts : Initial w (.outside initial) (textOf initial) := .inr (starts_textOf hinitial)
    obtain ⟨st, out, w₁, hcreate', hres⟩ := create_spec hbacked hstarts
    cases hcreate.symm.trans hcreate'
    rcases hres with ⟨hst, -⟩ | ⟨-, _, hout, -, hholds, -⟩
    · exact absurd rfl hst
    · cases hout
      have hlt : (textOf initial).length < h.capacity := hholds.length_text ▸ hholds.len_lt
      exact ⟨⟨textOf initial, h.block, h.capacity⟩, ⟨rfl, hlt⟩, hholds, rfl, rfl⟩
  explained w r hcreate := by
    have hstarts : Initial w (.outside initial) (textOf initial) := .inr (starts_textOf hinitial)
    exact create_explains hbacked hstarts hcreate
  asked s a c r hR hc := step_asked hR hc
  destroyed := by
    rintro s o w ⟨-, hallocator, -⟩ hdestroy
    exact Allocator.dealloc_asked (hallocator ▸ hbacked) hdestroy
  live := by
    rintro s o ⟨⟨text, h⟩, -, rfl⟩
    exact h.live
  frame := by
    rintro h w w' a o ⟨hholds', hblock⟩ ⟨⟨text, hholds⟩, hallocator, rfl⟩ hsame
    exact ⟨⟨hholds'.frame hsame, hblock⟩, ⟨text, hholds.frame hsame⟩, hallocator, rfl⟩

/-- **Strings are a lawful kind.** -/
theorem lawful {initial : List UInt8} {allocator : Option (Allocator Memory)}
    (hbacked : Backed (Allocator.copy allocator)) (hinitial : 0 ∈ initial) :
    (typed initial allocator).kind.Lawful (Reclaims (Allocator.copy allocator))
      fun s a o => Represents s a ∧ Kept (Allocator.copy allocator) s o :=
  (refines hbacked hinitial).lawful fun _ => sound hbacked (.inr (starts_textOf hinitial))

end StringHeader

/-! ## Heaps -/

namespace BinaryHeap

/-- A call without its answer. -/
def Call.op : Call → Op
  | .push e => .push (.outside e)
  | .pop => .pop
  | .peek => .peek
  | .size => .size

theorem Lies.frame {h : BinaryHeap} {w w' : Memory} {bs : List UInt8} (hh : Lies h w bs)
    (hsame : ∀ p ∈ h.owned, w'.cells p = w.cells p) : Lies h w' bs :=
  { hh with
    root := hh.root.frame fun p hp => hsame p (List.mem_cons_of_mem _ hp)
    handle := by
      have hlive := hh.handle
      rwa [Mem.Live, hsame _ (List.mem_cons_self ..)] }

theorem agree {s s' s'' : BinaryHeap × Memory} {c : Call} {o : Answer}
    (h : step s c = .ok (o, s')) (h' : call s c.op = .ok s'') : s'' = s' := by
  cases c
  all_goals
    simp [step, call, Call.op, bind_eq_ok] at h h'
    grind

/-- Heaps as priority queues with a capacity. -/
def typed (elemSize : ℕ) (cmp : Option (List UInt8 → List UInt8 → ℤ))
    (allocator : Option (Allocator Memory)) : (container elemSize cmp allocator).Typed where
  Call := Call
  Answer := Answer
  Model := Abstract
  step := step
  op := Call.op
  Allowed := Allowed elemSize
  Initial a := a = ⟨0, Vector.defaultCapacity⟩
  Spec := Spec elemSize cmp
  Blames := (· = .status .noMemory)
  TooLarge := sizeMax < elemSize * Vector.defaultCapacity

variable {elemSize : ℕ} {cmp : Option (List UInt8 → List UInt8 → ℤ)}
  {allocator : Option (Allocator Memory)}

theorem refines (hbacked : Backed (Allocator.copy allocator)) (helem : 0 < elemSize)
    (hcmp : TotalPreorder elemSize (cmp.getD memcmp)) :
    (typed elemSize cmp allocator).Refines (Represents elemSize cmp)
      (Kept (Allocator.copy allocator)) where
  agree _ _ _ _ _ := agree
  allowed := by
    rintro s a c ⟨hsize, -⟩ ⟨hvalid, hsmall⟩
    cases c with
    | push e => exact ⟨e, .inl (.outside (Eq.trans hvalid hsize.symm))⟩
    | pop => exact hsmall
    | _ => trivial
  step s a c := step_spec s a c
  created w h w' hcreate := by
    refine ⟨_, rfl, represents_of_create helem (fun c hc => ?_) hbacked hcreate⟩
    rwa [hc] at hcmp
  explained w r := create_explains hbacked
  asked s a c r hR _ := step_asked hR
  destroyed := by
    rintro s o w ⟨⟨bs, hh⟩, hallocator, -⟩ hdestroy
    exact destroy_asked (hallocator ▸ hbacked) hh.root.buffered.backed hdestroy
  live := by
    rintro s o ⟨⟨bs, h⟩, -, rfl⟩
    exact h.live
  frame := by
    rintro h w w' a o ⟨hes, hsame, hcap, bs', hh', hrest⟩ ⟨⟨bs, hh⟩, hallocator, rfl⟩ hcells
    exact ⟨⟨hes, hsame, hcap, bs', (hh'.lies.frame hcells).holds hh'.order, hrest⟩,
      ⟨bs, hh.frame hcells⟩, hallocator, rfl⟩

/-- **Heaps are a lawful kind.** -/
theorem lawful (hbacked : Backed (Allocator.copy allocator)) (helem : 0 < elemSize)
    (hcmp : TotalPreorder elemSize (cmp.getD memcmp)) :
    (typed elemSize cmp allocator).kind.Lawful (Reclaims (Allocator.copy allocator))
      fun s a o => Represents elemSize cmp s a ∧ Kept (Allocator.copy allocator) s o :=
  (refines hbacked helem hcmp).lawful (sound hbacked helem)

end BinaryHeap

end K4c
