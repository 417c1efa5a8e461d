import Mathlib.Tactic
import K4c.Error
import K4c.Mem.Size

/-!
# The generic allocator interface

`k4c_alloc`, `k4c_resize` and `k4c_dealloc` reach a memory through a table of
operations, any of which may be absent, or through libc.  The memory and the
`ctx` of the table are the state `ν` that every operation passes on; pointers are
addresses, 0 is `NULL`.
-/

namespace K4c

open Exec

variable {ν : Type}

/-- `malloc`, `realloc` and `free`. -/
structure Libc (ν : Type) where
  malloc : ν → (size : ℕ) → Result (ℕ × ν)
  realloc : ν → (ptr size : ℕ) → Result (ℕ × ν)
  free : ν → (ptr : ℕ) → Result ν

/-- `k4c_allocator_vtable`, with an absent operation for each `NULL`. -/
structure AllocatorVtable (ν : Type) where
  alloc : Option (ν → (size : ℕ) → Result (ℕ × ν))
  resize : Option (ν → (ptr size : ℕ) → Result (ℕ × ν))
  dealloc : Option (ν → (ptr : ℕ) → Result ν)

/-- The `K4C_ALLOCATOR_FEATURE_*` bits. -/
structure Features where
  dealloc : Bool
  realloc : Bool
  reset : Bool
  deriving DecidableEq, Repr

/-- `k4c_allocator`. -/
structure Allocator (ν : Type) where
  features : Features
  vtable : Option (AllocatorVtable ν)

namespace Allocator

/-- `k4c_allocator_copy`: the default value is backed by libc. -/
def copy (a : Option (Allocator ν)) : Allocator ν := a.getD ⟨⟨false, false, false⟩, none⟩

/-- The table of an allocator pointer, when neither is `NULL`. -/
def table (a : Option (Allocator ν)) : Option (AllocatorVtable ν) := a.bind Allocator.vtable

/-- What `k4c_alloc` and `k4c_resize` make of a pointer. -/
def answer (res : ℕ × ν) : (Status × ℕ) × ν :=
  if res.1 = 0 then ((.noMemory, 0), res.2) else ((.ok, res.1), res.2)

/-- `k4c_alloc`: the status and `*out`. -/
def alloc (libc : Libc ν) (a : Option (Allocator ν)) (w : ν) (size : ℕ) :
    Result ((Status × ℕ) × ν) := do
  let res ← match (table a).bind AllocatorVtable.alloc with
    | none => libc.malloc w size
    | some op => op w size
  return answer res

/-- `k4c_dealloc`. -/
def dealloc (libc : Libc ν) (a : Option (Allocator ν)) (w : ν) (ptr : ℕ) : Result ν :=
  match a with
  | none => libc.free w ptr
  | some a =>
    match a.vtable with
    | none => libc.free w ptr
    | some vt =>
      if a.features.dealloc = false then .ok w
      else
        match vt.dealloc with
        | none => .error (.panic "fatal: k4c_dealloc invalid arguments")
        | some op => op w ptr

/-- `k4c_resize`: the status and `*out`. -/
def resize (libc : Libc ν) (a : Option (Allocator ν)) (w : ν) (ptr size : ℕ) :
    Result ((Status × ℕ) × ν) := do
  if size = 0 then return ((.ok, 0), ← dealloc libc a w ptr)
  let res ← match (table a).bind AllocatorVtable.resize with
    | none => libc.realloc w ptr size
    | some op => op w ptr size
  return answer res

/-- A request that was granted came back with a pointer. -/
theorem alloc_none_ok {libc : Libc ν} {w w' : ν} {size p : ℕ} {st : Status}
    (h : alloc libc none w size = .ok ((st, p), w')) (hst : st = .ok) :
    libc.malloc w size = .ok (p, w') ∧ p ≠ 0 := by
  obtain ⟨⟨q, w₁⟩, hmalloc, hres⟩ := bind_eq_ok.1 h
  have hmalloc' : libc.malloc w size = .ok (q, w₁) := hmalloc
  have hans : answer (q, w₁) = ((st, p), w') := Except.ok.inj hres
  by_cases hq : q = 0
  · rw [answer, if_pos hq] at hans
    cases hans
    cases hst
  · rw [answer, if_neg hq] at hans
    cases hans
    exact ⟨hmalloc', hq⟩

end Allocator

/-- Where `malloc` puts its blocks: aligned for every type, inside the address
space. -/
def Libc.Placed [Platform] (libc : Libc ν) : Prop :=
  ∀ w size p w', libc.malloc w size = .ok (p, w') → p ≠ 0 →
    memoryAlign ∣ p ∧ p + size ≤ sizeMax

/-- A libc that is out of memory. -/
def Libc.exhausted : Libc ν where
  malloc w _ := .ok (0, w)
  realloc w _ _ := .ok (0, w)
  free w _ := .ok w

/-- A libc that never hands out an address twice: the state counts the units of
32 bytes that are taken. -/
def Libc.bump : Libc ℕ where
  malloc w size :=
    if 32 * w + size ≤ sizeMax then .ok (32 * w, w + size / 32 + 1) else .ok (0, w)
  realloc w _ _ := .ok (0, w)
  free w _ := .ok w

theorem Libc.bump_placed [Platform] : Libc.bump.Placed := by
  intro w size p w' h hp
  rw [show Libc.bump.malloc w size =
    if 32 * w + size ≤ sizeMax then .ok (32 * w, w + size / 32 + 1) else .ok (0, w) from rfl] at h
  split at h
  · cases h
    exact ⟨memoryAlign_dvd_32.mul_right w, by assumption⟩
  · cases h
    exact absurd rfl hp

end K4c
