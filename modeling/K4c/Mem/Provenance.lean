import Mathlib.Tactic
import K4c.Lib.Runs
import K4c.Mem.Allocator

/-!
# Where a block comes from

`k4c_alloc`, `k4c_resize` and `k4c_dealloc` each choose between libc and the
operation table by a test of their own.  Here the operations on both sides keep a
log of the pointers they are handed and of those they hand out, and a client uses
one allocator value for all its blocks.

* `Kept` — every block went back to the side that it came from.
* `Shape.Agrees` — the three tests agree: `alloc` and `resize` are both present,
  or both absent and no `dealloc` is advertised beside them.
* `Shape.keeps_blocks_iff` — the blocks of every client stay on their side exactly
  for these shapes of an allocator value.
-/

namespace K4c
namespace Provenance

open Exec Runs

/-! ## The log -/

/-- The two sides that a call can reach. -/
inductive Source where
  | libc
  | table
  deriving DecidableEq, Repr

/-- What an operation was handed or has handed out. -/
inductive Event where
  | received (src : Source) (p : ℕ)
  | produced (src : Source) (p : ℕ)
  deriving DecidableEq, Repr

/-- The side that has handed out a pointer last; the newest event comes first. -/
def producer (p : ℕ) : List Event → Option Source
  | [] => none
  | .produced src q :: log => if q = p then some src else producer p log
  | .received _ _ :: log => producer p log

/-- Whatever a side was handed, it had handed out itself. -/
def Kept : List Event → Prop
  | [] => True
  | .produced _ _ :: log => Kept log
  | .received src p :: log => producer p log = some src ∧ Kept log

instance : DecidablePred Kept := by
  intro log
  induction log with
  | nil => exact .isTrue trivial
  | cons e log ih =>
    cases e with
    | produced src p => exact ih
    | received src p => exact inferInstanceAs (Decidable (_ ∧ _))

/-! ## Operations that keep the log -/

/-- A memory with the log of the operations on it.  It is absent once an operation
has failed an assertion: no later one does anything. -/
structure Traced (ν : Type) where
  memory : Option ν
  log : List Event

namespace Traced

variable {ν : Type}

/-- An allocating operation of one side. -/
def alloc (src : Source) (op : ν → ℕ → Result (ℕ × ν)) (t : Traced ν) (size : ℕ) :
    Result (ℕ × Traced ν) :=
  match t.memory with
  | none => .ok (0, t)
  | some w =>
    match op w size with
    | .ok (p, w') => .ok (p, ⟨some w', .produced src p :: t.log⟩)
    | .error _ => .ok (0, ⟨none, t.log⟩)

/-- A resizing operation. -/
def resize (src : Source) (op : ν → ℕ → ℕ → Result (ℕ × ν)) (t : Traced ν) (p size : ℕ) :
    Result (ℕ × Traced ν) :=
  match t.memory with
  | none => .ok (0, t)
  | some w =>
    match op w p size with
    | .ok (q, w') => .ok (q, ⟨some w', .produced src q :: .received src p :: t.log⟩)
    | .error _ => .ok (0, ⟨none, .received src p :: t.log⟩)

/-- A releasing operation. -/
def free (src : Source) (op : ν → ℕ → Result ν) (t : Traced ν) (p : ℕ) : Result (Traced ν) :=
  match t.memory with
  | none => .ok t
  | some w =>
    match op w p with
    | .ok w' => .ok ⟨some w', .received src p :: t.log⟩
    | .error _ => .ok ⟨none, .received src p :: t.log⟩

/-- libc, with the log. -/
def ofLibc (libc : Libc ν) : Libc (Traced ν) where
  malloc := alloc .libc libc.malloc
  realloc := resize .libc libc.realloc
  free := free .libc libc.free

/-- An operation table, with the log. -/
def ofTable (vt : AllocatorVtable ν) : AllocatorVtable (Traced ν) where
  alloc := vt.alloc.map (alloc .table)
  resize := vt.resize.map (resize .table)
  dealloc := vt.dealloc.map (free .table)

/-- An allocator value, with the log. -/
def ofAllocator (a : Allocator ν) : Allocator (Traced ν) := ⟨a.features, a.vtable.map ofTable⟩

end Traced

/-! ## The client -/

/-- A client with its blocks. -/
structure Client (ν : Type) where
  traced : Traced ν
  live : ℕ → Bool

/-- A generic call. -/
inductive Call where
  | alloc (size : ℕ)
  | resize (ptr size : ℕ)
  | dealloc (ptr : ℕ)
  deriving DecidableEq, Repr

namespace Client

variable {ν : Type}

/-- No call was made. -/
def start (w : ν) : Client ν := ⟨⟨some w, []⟩, fun _ => false⟩

/-- Only live blocks are handed in. -/
def Valid (s : Client ν) : Call → Prop
  | .alloc _ => True
  | .resize ptr _ => s.live ptr = true
  | .dealloc ptr => s.live ptr = true

instance (s : Client ν) : (c : Call) → Decidable (s.Valid c)
  | .alloc _ => .isTrue trivial
  | .resize ptr _ => inferInstanceAs (Decidable (s.live ptr = true))
  | .dealloc ptr => inferInstanceAs (Decidable (s.live ptr = true))

/-- Make a call through one allocator value. -/
def step (libc : Libc ν) (a : Option (Allocator ν)) (s : Client ν) :
    Call → Result ((Status × ℕ) × Client ν)
  | .alloc size => do
    let ((st, p), traced) ←
      Allocator.alloc (Traced.ofLibc libc) (a.map Traced.ofAllocator) s.traced size
    return ((st, p), ⟨traced, if st = .ok then Function.update s.live p true else s.live⟩)
  | .resize ptr size => do
    let ((st, p), traced) ←
      Allocator.resize (Traced.ofLibc libc) (a.map Traced.ofAllocator) s.traced ptr size
    if st ≠ .ok then return ((st, p), ⟨traced, s.live⟩)
    let live := Function.update s.live ptr false
    return ((st, p), ⟨traced, if size = 0 then live else Function.update live p true⟩)
  | .dealloc ptr => do
    let traced ← Allocator.dealloc (Traced.ofLibc libc) (a.map Traced.ofAllocator) s.traced ptr
    return ((.ok, 0), ⟨traced, Function.update s.live ptr false⟩)

end Client

/-! ## Shapes -/

/-- Which operations a table has. -/
structure Operations where
  alloc : Bool
  resize : Bool
  dealloc : Bool
  deriving DecidableEq, Repr

/-- What the three calls can see of an allocator value: its feature bits, and which
operations are present, if there is a table. -/
structure Shape where
  features : Features
  operations : Option Operations
  deriving DecidableEq, Repr

/-- The shape of an allocator value. -/
def shape {ν : Type} (a : Option (Allocator ν)) : Shape where
  features := (Allocator.copy a).features
  operations := (Allocator.table a).map fun vt =>
    ⟨vt.alloc.isSome, vt.resize.isSome, vt.dealloc.isSome⟩

/-- Blocks are allocated and resized on the same side, and a table that allocates
nothing is not asked to release anything. -/
def Shape.Agrees (S : Shape) : Prop :=
  ∀ ops ∈ S.operations, ops.alloc = ops.resize ∧
    (ops.alloc = false → ¬ (S.features.dealloc = true ∧ ops.dealloc = true))

instance : DecidablePred Shape.Agrees := by
  intro S
  unfold Shape.Agrees
  exact inferInstance

/-! ## Agreeing shapes -/

/-- All blocks of a client came from one side, and went back there. -/
structure Inv {ν : Type} (src : Source) (s : Client ν) : Prop where
  kept : Kept s.traced.log
  produced : ∀ p, s.live p = true → producer p s.traced.log = some src

variable {ν : Type} {libc : Libc ν} {a : Option (Allocator ν)} {src : Source} {s : Client ν}
  {t : Traced ν} {p size : ℕ}

/-- The side that an agreeing allocator value uses. -/
def side (a : Option (Allocator ν)) : Source :=
  if ((Allocator.table a).bind AllocatorVtable.alloc).isSome then .table else .libc

theorem table_map (a : Option (Allocator ν)) :
    Allocator.table (a.map Traced.ofAllocator) = (Allocator.table a).map Traced.ofTable := by
  cases a <;> rfl

/-- **`k4c_alloc`** reaches the side of the allocator value. -/
theorem alloc_side (libc : Libc ν) (a : Option (Allocator ν)) (t : Traced ν) (size : ℕ) :
    ∃ op, Allocator.alloc (Traced.ofLibc libc) (a.map Traced.ofAllocator) t size =
      (Traced.alloc (side a) op t size >>= fun r => .ok (Allocator.answer r)) := by
  unfold Allocator.alloc side
  rw [table_map]
  cases Allocator.table a with
  | none => exact ⟨libc.malloc, rfl⟩
  | some vt =>
    cases h : vt.alloc with
    | none => exact ⟨libc.malloc, by simp [Traced.ofTable, h]; rfl⟩
    | some op => exact ⟨op, by simp [Traced.ofTable, h]⟩

/-- **`k4c_resize`** reaches the same side. -/
theorem resize_side (libc : Libc ν) (hS : (shape a).Agrees) (t : Traced ν) (p : ℕ)
    (hsize : size ≠ 0) :
    ∃ op, Allocator.resize (Traced.ofLibc libc) (a.map Traced.ofAllocator) t p size =
      (Traced.resize (side a) op t p size >>= fun r => .ok (Allocator.answer r)) := by
  unfold Allocator.resize side
  rw [table_map, if_neg hsize]
  cases htable : Allocator.table a with
  | none => exact ⟨libc.realloc, rfl⟩
  | some vt =>
    have hagree : vt.alloc.isSome = vt.resize.isSome :=
      (hS ⟨vt.alloc.isSome, vt.resize.isSome, vt.dealloc.isSome⟩ (by simp [shape, htable])).1
    cases hresize : vt.resize with
    | none => exact ⟨libc.realloc, by simp [Traced.ofTable, hresize, hagree]; rfl⟩
    | some op => exact ⟨op, by simp [Traced.ofTable, hresize, hagree]⟩

/-- **`k4c_dealloc`** reaches the same side, or it does not reach any. -/
theorem dealloc_side (libc : Libc ν) (hS : (shape a).Agrees) (t : Traced ν) (p : ℕ) :
    (∃ op, Allocator.dealloc (Traced.ofLibc libc) (a.map Traced.ofAllocator) t p =
      Traced.free (side a) op t p) ∨
    Allocator.dealloc (Traced.ofLibc libc) (a.map Traced.ofAllocator) t p = .ok t ∨
    ∃ e, Allocator.dealloc (Traced.ofLibc libc) (a.map Traced.ofAllocator) t p = .error e := by
  cases a with
  | none => exact .inl ⟨libc.free, rfl⟩
  | some a =>
    cases htable : a.vtable with
    | none => exact .inl ⟨libc.free, by simp [Allocator.dealloc, Traced.ofAllocator, htable,
        side, Allocator.table, Traced.ofLibc]⟩
    | some vt =>
      have hagree := (hS ⟨vt.alloc.isSome, vt.resize.isSome, vt.dealloc.isSome⟩
        (by simp [shape, Allocator.table, htable])).2
      cases hbit : a.features.dealloc with
      | false => exact .inr (.inl (by simp [Allocator.dealloc, Traced.ofAllocator, htable, hbit]))
      | true =>
        cases hdealloc : vt.dealloc with
        | none =>
          refine .inr (.inr ⟨.panic "fatal: k4c_dealloc invalid arguments", ?_⟩)
          simp [Allocator.dealloc, Traced.ofAllocator, htable, hbit, Traced.ofTable, hdealloc]
        | some op =>
          -- a table with this operation also allocates
          have halloc : vt.alloc.isSome = true := by
            by_contra hnone
            exact hagree (by simpa using hnone) ⟨hbit, by simp [hdealloc]⟩
          refine .inl ⟨op, ?_⟩
          simp [Allocator.dealloc, Traced.ofAllocator, htable, hbit, Traced.ofTable, hdealloc,
            side, Allocator.table, halloc]

/-! ## One call -/

/-- An operation of one side extends the log as a client of this side expects. -/
structure Extends (src : Source) (t t' : Traced ν) (out : ℕ) : Prop where
  kept : Kept t'.log
  older : ∀ q, producer q t.log = some src → producer q t'.log = some src
  handed : out ≠ 0 → producer out t'.log = some src

theorem Extends.refl (h : Kept t.log) : Extends src t t 0 :=
  ⟨h, fun _ hq => hq, fun h => absurd rfl h⟩

theorem producer_produced_self (log : List Event) :
    producer p (.produced src p :: log) = some src := by
  simp [producer]

theorem producer_produced_of_some {q : ℕ} {log : List Event} (h : producer q log = some src) :
    producer q (.produced src p :: log) = some src := by
  rw [producer]
  split
  · rfl
  · exact h

namespace Traced

theorem alloc_extends (op : ν → ℕ → Result (ℕ × ν)) (h : Kept t.log) :
    Sat (alloc src op t size) fun r => Extends src t r.2 r.1 := by
  unfold alloc
  cases t.memory with
  | none => exact Sat.ok (Extends.refl h)
  | some w =>
    rcases hop : op w size with e | ⟨p, w'⟩
    · simp only [hop]
      exact Sat.ok ⟨h, fun _ hq => hq, fun h => absurd rfl h⟩
    · simp only [hop]
      exact Sat.ok ⟨h, fun _ => producer_produced_of_some, fun _ => producer_produced_self _⟩

theorem resize_extends (op : ν → ℕ → ℕ → Result (ℕ × ν)) (h : Kept t.log)
    (hp : producer p t.log = some src) :
    Sat (resize src op t p size) fun r => Extends src t r.2 r.1 := by
  unfold resize
  cases t.memory with
  | none => exact Sat.ok (Extends.refl h)
  | some w =>
    rcases hop : op w p size with e | ⟨q, w'⟩
    · simp only [hop]
      exact Sat.ok ⟨⟨hp, h⟩, fun _ hq => hq, fun h => absurd rfl h⟩
    · simp only [hop]
      exact Sat.ok ⟨⟨hp, h⟩, fun _ hq => producer_produced_of_some hq,
        fun _ => producer_produced_self _⟩

theorem free_extends (op : ν → ℕ → Result ν) (h : Kept t.log)
    (hp : producer p t.log = some src) :
    Sat (free src op t p) fun t' => Extends src t t' 0 := by
  unfold free
  cases t.memory with
  | none => exact Sat.ok (Extends.refl h)
  | some w =>
    rcases hop : op w p with e | w'
    · simp only [hop]
      exact Sat.ok ⟨⟨hp, h⟩, fun _ hq => hq, fun h => absurd rfl h⟩
    · simp only [hop]
      exact Sat.ok ⟨⟨hp, h⟩, fun _ hq => hq, fun h => absurd rfl h⟩

end Traced

/-! ## Runs -/

/-- What one operation did to the log carries over to the client. -/
theorem Inv.extend {t' : Traced ν} {out : ℕ} {live : ℕ → Bool} (hI : Inv src s)
    (hext : Extends src s.traced t' out)
    (hlive : ∀ q, live q = true → s.live q = true ∨ q = out ∧ out ≠ 0) :
    Inv src (⟨t', live⟩ : Client ν) where
  kept := hext.kept
  produced q hq := by
    rcases hlive q hq with hold | ⟨rfl, hne⟩
    · exact hext.older q (hI.produced q hold)
    · exact hext.handed hne

/-- A release through an agreeing allocator value, when it returns. -/
theorem dealloc_extends (hS : (shape a).Agrees) (hkept : Kept t.log)
    (hp : producer p t.log = some (side a)) {t' : Traced ν}
    (h : Allocator.dealloc (Traced.ofLibc libc) (a.map Traced.ofAllocator) t p = .ok t') :
    Extends (side a) t t' 0 := by
  rcases dealloc_side libc hS t p with ⟨op, hop⟩ | hnothing | ⟨e, herror⟩
  · obtain ⟨t₁, hr, hext⟩ := Traced.free_extends op hkept hp
    rw [hop, hr] at h
    cases h
    exact hext
  · rw [hnothing] at h
    cases h
    exact Extends.refl hkept
  · rw [herror] at h
    cases h

/-- A call through an agreeing allocator value, when it returns. -/
theorem step_inv (hS : (shape a).Agrees) {c : Call} (hI : Inv (side a) s) (hv : s.Valid c)
    {o : Status × ℕ} {s' : Client ν} (h : Client.step libc a s c = .ok (o, s')) :
    Inv (side a) s' := by
  cases c with
  | alloc size =>
    obtain ⟨op, hop⟩ := alloc_side libc a s.traced size
    obtain ⟨⟨p, t'⟩, hr, hext⟩ : Sat (Traced.alloc (side a) op s.traced size) _ :=
      Traced.alloc_extends op hI.kept
    rw [Client.step, hop, hr] at h
    by_cases hp : p = 0
    · subst hp
      cases h
      exact hI.extend hext fun q hq => .inl (by simpa [Allocator.answer] using hq)
    · simp only [ok_bind, Allocator.answer, hp, if_false, pure_eq_ok] at h
      cases h
      refine hI.extend hext fun q hq => ?_
      by_cases hqp : q = p
      · exact .inr ⟨hqp, hp⟩
      · exact .inl (by simpa [Function.update_of_ne hqp] using hq)
  | resize ptr size =>
    by_cases hsize : size = 0
    · subst hsize
      rw [Client.step, Allocator.resize, if_pos rfl] at h
      obtain ⟨⟨⟨st, p⟩, t'⟩, hres, hrest⟩ := bind_eq_ok.1 h
      obtain ⟨t₁, hdealloc, hpure⟩ := bind_eq_ok.1 hres
      cases hpure
      cases hrest
      refine hI.extend (dealloc_extends hS hI.kept (hI.produced ptr hv) hdealloc) fun q hq => ?_
      by_cases hqp : q = ptr
      · simp [hqp] at hq
      · exact .inl (by simpa [Function.update_of_ne hqp] using hq)
    · obtain ⟨op, hop⟩ := resize_side libc hS s.traced ptr hsize
      obtain ⟨⟨p, t'⟩, hr, hext⟩ : Sat (Traced.resize (side a) op s.traced ptr size) _ :=
        Traced.resize_extends op hI.kept (hI.produced ptr hv)
      rw [Client.step, hop, hr] at h
      by_cases hp : p = 0
      · subst hp
        cases h
        exact hI.extend hext fun q hq => .inl hq
      · simp only [ok_bind, Allocator.answer, hp, hsize, if_false, pure_eq_ok] at h
        cases h
        refine hI.extend hext fun q hq => ?_
        by_cases hqp : q = p
        · exact .inr ⟨hqp, hp⟩
        · refine .inl ?_
          by_cases hqq : q = ptr
          · subst hqq
            exact hv
          · simpa [Function.update_of_ne hqp, Function.update_of_ne hqq] using hq
  | dealloc ptr =>
    rw [Client.step] at h
    obtain ⟨t', hdealloc, hpure⟩ := bind_eq_ok.1 h
    cases hpure
    refine hI.extend (dealloc_extends hS hI.kept (hI.produced ptr hv) hdealloc) fun q hq => ?_
    by_cases hqp : q = ptr
    · simp [hqp] at hq
    · exact .inl (by simpa [Function.update_of_ne hqp] using hq)

/-- A run through an agreeing allocator value, when it returns. -/
theorem trace_inv (hS : (shape a).Agrees) : ∀ (calls : List Call) (s s' : Client ν)
    (answers : List (Status × ℕ)), Inv (side a) s →
    Along (Client.step libc a) Client.Valid s calls →
    trace (Client.step libc a) s calls = .ok (answers, s') → Inv (side a) s' := by
  intro calls
  induction calls with
  | nil =>
    intro s s' answers hI _ h
    cases h
    exact hI
  | cons c calls ih =>
    intro s s' answers hI hval h
    obtain ⟨⟨o, s₁⟩, hstep, hrest⟩ := bind_eq_ok.1 h
    obtain ⟨⟨os, _⟩, htrace, hpure⟩ := bind_eq_ok.1 hrest
    cases hpure
    exact ih s₁ _ os (step_inv hS hI hval.1 hstep) (hval.2 o s₁ hstep) htrace

/-! ## Other shapes -/

/-- An allocator value of a given shape, whose operations number their blocks. -/
def ofShape (S : Shape) : Allocator ℕ where
  features := S.features
  vtable := S.operations.map fun ops => {
    alloc := if ops.alloc then some fun w _ => .ok (w + 1, w + 1) else none
    resize := if ops.resize then some fun w _ _ => .ok (w + 1, w + 1) else none
    dealloc := if ops.dealloc then some fun w _ => .ok w else none }

/-- A libc that numbers its blocks. -/
def counting : Libc ℕ where
  malloc w _ := .ok (w + 1, w + 1)
  realloc w _ _ := .ok (w + 1, w + 1)
  free w _ := .ok w

theorem shape_ofShape (S : Shape) : shape (some (ofShape S)) = S := by
  obtain ⟨features, operations⟩ := S
  cases operations with
  | none => rfl
  | some ops =>
    obtain ⟨alloc, resize, dealloc⟩ := ops
    cases alloc <;> cases resize <;> cases dealloc <;> rfl

/-- A run in which a block changes sides. -/
def Strays (libc : Libc ν) (a : Option (Allocator ν)) (w : ν) (calls : List Call) : Prop :=
  Along (Client.step libc a) Client.Valid (Client.start w) calls ∧
    ∃ r, trace (Client.step libc a) (Client.start w) calls = .ok r ∧ ¬ Kept r.2.traced.log

/-- `k4c_alloc` and `k4c_resize` choose differently. -/
theorem strays_resize (features : Features) {ops : Operations} (h : ops.alloc ≠ ops.resize) :
    Strays counting (some (ofShape ⟨features, some ops⟩)) 0 [.alloc 8, .resize 1 8] := by
  obtain ⟨alloc, resize, dealloc⟩ := ops
  cases alloc with
  | false =>
    cases resize with
    | false => exact absurd rfl h
    | true => exact ⟨along_of_check rfl, _, rfl, by simp [Kept, producer]⟩
  | true =>
    cases resize with
    | false => exact ⟨along_of_check rfl, _, rfl, by simp [Kept, producer]⟩
    | true => exact absurd rfl h

/-- `k4c_alloc` goes to libc, but `k4c_dealloc` does not. -/
theorem strays_dealloc {features : Features} (hbit : features.dealloc = true) (resize : Bool) :
    Strays counting (some (ofShape ⟨features, some ⟨false, resize, true⟩⟩)) 0
      [.alloc 8, .dealloc 1] := by
  obtain ⟨dealloc, realloc, reset⟩ := features
  subst hbit
  exact ⟨along_of_check rfl, _, rfl, by simp [Kept, producer]⟩

/-- A shape that does not agree has a run in which a block changes sides. -/
theorem strays_of_not_agrees {S : Shape} (h : ¬ S.Agrees) :
    ∃ calls, Strays counting (some (ofShape S)) 0 calls := by
  obtain ⟨features, operations⟩ := S
  unfold Shape.Agrees at h
  push Not at h
  obtain ⟨ops, hops, hdiffer⟩ := h
  cases hops
  by_cases heq : ops.alloc = ops.resize
  · obtain ⟨hnone, hbit, hdealloc⟩ := hdiffer heq
    obtain ⟨alloc, resize, dealloc⟩ := ops
    subst hnone hdealloc
    exact ⟨_, strays_dealloc hbit resize⟩
  · exact ⟨_, strays_resize features heq⟩

/-- **Blocks stay with the side that produced them** in every run of every client,
whatever the operations do, exactly when the shape of the allocator value agrees. -/
theorem Shape.keeps_blocks_iff (S : Shape) :
    (∀ (ν : Type) (libc : Libc ν) (a : Option (Allocator ν)), shape a = S →
      ∀ (w : ν) (calls : List Call),
        Along (Client.step libc a) Client.Valid (Client.start w) calls →
        ∀ r, trace (Client.step libc a) (Client.start w) calls = .ok r →
          Kept r.2.traced.log) ↔ S.Agrees := by
  constructor
  · intro hkept
    by_contra hS
    obtain ⟨calls, hval, r, htrace, hstray⟩ := strays_of_not_agrees hS
    exact hstray (hkept ℕ counting _ (shape_ofShape S) 0 calls hval r htrace)
  · intro hS ν libc a ha w calls hval r htrace
    obtain ⟨answers, s'⟩ := r
    have hstart : Inv (side a) (Client.start w) := ⟨trivial, fun p hp => by cases hp⟩
    exact (trace_inv (ha ▸ hS) calls _ s' answers hstart hval htrace).kept

/-- A table that allocates and releases but does not resize: libc is handed one of
its blocks. -/
theorem resize_strays :
    ∃ (a : Option (Allocator ℕ)) (calls : List Call),
      shape a = ⟨⟨true, true, false⟩, some ⟨true, false, true⟩⟩ ∧
      Along (Client.step counting a) Client.Valid (Client.start 0) calls ∧
      ∃ r, trace (Client.step counting a) (Client.start 0) calls = .ok r ∧
        r.2.traced.log = [.produced .libc 2, .received .libc 1, .produced .table 1] ∧
        ¬ Kept r.2.traced.log :=
  ⟨some (ofShape ⟨⟨true, true, false⟩, some ⟨true, false, true⟩⟩), [.alloc 8, .resize 1 8],
    rfl, along_of_check rfl, _, rfl, rfl, by decide⟩

end Provenance
end K4c
