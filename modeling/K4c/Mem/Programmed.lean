import Mathlib.Tactic
import K4c.Lib.Programmed
import K4c.Mem.Programs

/-!
# The accesses of a container are requests

A container reaches its memory through `k4c_alloc`, `k4c_resize` and `k4c_dealloc`, and
through copies.  Each of them is the run of a program of requests: `alloc_calls`,
`resize_calls`, `dealloc_writes`, `read_reads`, `source_reads`, `bytesFrom_reads`,
`write_writes`, `memcpy_writes` and `memmove_writes`.
-/

namespace K4c
namespace Backend

open Exec Blocks Bytes Programs

/-! ## Replies -/

/-- The reply to a request for memory. -/
def Reply.asPointer : Reply → Result (Status × ℕ)
  | .pointer st p => .ok (st, p)
  | _ => .error .badAccess

/-- The reply to a read. -/
def Reply.asBytes : Reply → Result (List UInt8)
  | .bytes bs => .ok bs
  | _ => .error .badAccess

/-- A pointer comes with the status `.ok`. -/
def Reply.Pointed : Reply → Prop
  | .pointer st p => st = .ok → p ≠ 0
  | _ => True

/-- What comes with the status `.ok` is not `NULL`. -/
def Pointed (r : Status × ℕ) : Prop := r.1 = .ok → r.2 ≠ 0

theorem pointed_ofAnswer (r : ℕ × Memory) : (Reply.ofAnswer r).1.Pointed := by
  unfold Reply.ofAnswer Allocator.answer
  split
  · intro h
    cases h
  · intro _
    assumption

theorem asPointer_ofAnswer (r : ℕ × Memory) :
    (Reply.ofAnswer r).1.asPointer >>= (fun a => .ok (a, (Reply.ofAnswer r).2)) =
      .ok (Allocator.answer r) := rfl

theorem pointed_of_serve {w : Memory} {q : Request} {r : Reply × Memory}
    (h : serve w q = .ok r) (hq : q.asks = true) : r.1.Pointed := by
  cases q with
  | alloc size =>
    obtain ⟨_, hsize, -⟩ := bind_eq_ok.1 h
    rw [serve_alloc (check_eq_ok.1 hsize)] at h
    cases h
    exact pointed_ofAnswer _
  | resize p size =>
    obtain ⟨_, hsize, -⟩ := bind_eq_ok.1 h
    rw [serve_resize (check_eq_ok.1 hsize)] at h
    cases hresize : w.resize p size (Memory.fresh size) (Memory.grown size) with
    | error e =>
      rw [hresize] at h
      cases h
    | ok r₁ =>
      rw [hresize] at h
      cases h
      exact pointed_ofAnswer _
  | dealloc p => cases hq
  | read p count => cases hq
  | rest p => cases hq
  | write p new => cases hq

/-- The pointer that a request came back with, and the memory. -/
theorem pointer_calls {q : Request} (hq : q.asks = true) : Calls serve Pointed fun w =>
    serve w q >>= fun r => r.1.asPointer >>= fun a => .ok (a, r.2) := by
  refine (Programmed.ask fun w r h => pointed_of_serve h hq).bind fun reply hreply => ?_
  dsimp only
  refine Programmed.lift fun a ha => Calls.done ?_
  cases reply with
  | pointer st p =>
    cases ha
    exact hreply
  | bytes bs => cases ha
  | done => cases ha

/-- The bytes that a request came back with. -/
theorem bytes_reads (q : Request) : Calls serve (fun _ => True) fun w =>
    serve w q >>= fun r => r.1.asBytes >>= fun bs => .ok (bs, r.2) := by
  refine (Programmed.ask (Q := fun _ => True) fun _ _ _ => trivial).bind fun reply _ => ?_
  dsimp only
  exact Programmed.lift fun bs _ => Calls.done trivial

/-! ## The generic calls -/

section Calls

variable {p size off count : ℕ}

theorem alloc_calls (hsize : 0 < size) : Calls serve Pointed fun w =>
    Allocator.alloc Memory.libc (some blockAllocator) w size := by
  have heq : ∀ w, Allocator.alloc Memory.libc (some blockAllocator) w size =
      serve w (.alloc size) >>= fun r => r.1.asPointer >>= fun a => .ok (a, r.2) := by
    intro w
    rw [serve_alloc hsize, ok_bind, asPointer_ofAnswer, Allocator.alloc_eq backed_blockAllocator]
  simp only [heq]
  exact pointer_calls rfl

theorem resize_calls (p : ℕ) (hsize : 0 < size) : Calls serve Pointed fun w =>
    Allocator.resize Memory.libc (some blockAllocator) w p size := by
  have heq : ∀ w, Allocator.resize Memory.libc (some blockAllocator) w p size =
      serve w (.resize p size) >>= fun r => r.1.asPointer >>= fun a => .ok (a, r.2) := by
    intro w
    rw [serve_resize hsize, Allocator.resize_eq backed_blockAllocator w p hsize.ne']
    cases w.resize p size (Memory.fresh size) (Memory.grown size) with
    | error e => rfl
    | ok r => rfl
  simp only [heq]
  exact pointer_calls rfl

theorem dealloc_writes (hp : p ≠ 0) : Writes serve fun w =>
    Allocator.dealloc Memory.libc (some blockAllocator) w p := by
  have heq : ∀ w, Allocator.dealloc Memory.libc (some blockAllocator) w p =
      serve w (.dealloc p) >>= fun r => .ok r.2 := by
    intro w
    rw [serve_dealloc hp]
    change w.free p = _
    cases w.free p with
    | error e => rfl
    | ok w' => rfl
  simp only [heq]
  exact (Programmed.ask (Q := fun _ => True) fun _ _ _ => trivial).bind
    fun _ _ => Writes.done

/-! ## Bytes -/

theorem read_reads (p off count : ℕ) :
    Reads serve (fun _ => True) fun w => Memory.read w p off count := by
  have heq : ∀ w : Memory, (w.read p off count >>= fun bs => .ok (bs, w)) =
      serve w (.read ⟨p, off⟩ count) >>= fun r => r.1.asBytes >>= fun bs => .ok (bs, r.2) := by
    intro w
    rw [serve]
    cases w.read p off count with
    | error e => rfl
    | ok bs => rfl
  simp only [Reads, heq]
  exact bytes_reads _

theorem bytesFrom_reads (src : Arg) :
    Reads serve (fun _ => True) fun w => Memory.bytesFrom w src := by
  cases src with
  | null => exact Reads.fail _
  | outside bs => exact Reads.done trivial
  | inside p =>
    have heq : ∀ w : Memory, (w.bytesFrom (.inside p) >>= fun bs => .ok (bs, w)) =
        serve w (.rest p) >>= fun r => r.1.asBytes >>= fun bs => .ok (bs, r.2) := by
      intro w
      rw [serve]
      cases w.bytesFrom (.inside p) with
      | error e => rfl
      | ok bs => rfl
    simp only [Reads, heq]
    exact bytes_reads _

theorem source_reads (src : Arg) (count : ℕ) :
    Reads serve (fun _ => True) fun w => Memory.source w src count := by
  cases src with
  | null => exact Reads.fail _
  | outside bs =>
    cases h : readAt bs 0 count with
    | error e =>
      simp only [Memory.source, h]
      exact Reads.fail e
    | ok e =>
      simp only [Memory.source, h]
      exact Reads.done trivial
  | inside p => exact read_reads p.block p.offset count

theorem write_writes (p off : ℕ) (new : List UInt8) :
    Writes serve fun w => Memory.write w p off new := by
  have heq : ∀ w : Memory, w.write p off new =
      serve w (.write ⟨p, off⟩ new) >>= fun r => .ok r.2 := by
    intro w
    rw [serve]
    cases w.write p off new with
    | error e => rfl
    | ok w' => rfl
  simp only [heq]
  exact (Programmed.ask (Q := fun _ => True) fun _ _ _ => trivial).bind
    fun _ _ => Writes.done

theorem memcpy_writes (dst : Ptr) (src : Arg) (count : ℕ) :
    Writes serve fun w => Memory.memcpy w dst src count := by
  refine Programmed.read (source_reads src count) fun bs _ => ?_
  by_cases hclash : Memory.Clash dst src count
  · simp only [if_pos hclash]
    exact Programmed.fail _
  · simp only [if_neg hclash]
    exact write_writes dst.block dst.offset bs

theorem memmove_writes (dst : Ptr) (src : Arg) (count : ℕ) :
    Writes serve fun w => Memory.memmove w dst src count :=
  Programmed.read (source_reads src count) fun bs _ => write_writes dst.block dst.offset bs

end Calls

end Backend
end K4c
