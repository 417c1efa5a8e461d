import Mathlib.Tactic
import K4c.Lib.Programs
import K4c.Mem.Backend
import K4c.Mem.Blocks

/-!
# Requests to the memory of blocks

What a container does with its memory are requests: for memory, and to read and write bytes.

* `serve` — the requests over the memory of blocks.
* `serve_answering`, `serve_total` — whether a request returns does not depend on what the
  memory answers, and it sees only the answer that it uses up.
* `chooser` — so the memory is a machine that chooses.
-/

namespace K4c
namespace Backend

open Exec Bytes Blocks Programs

/-! ## Requests -/

/-- What a program asks for; blocks go by their names. -/
inductive Request where
  | alloc (size : ℕ)
  | resize (p size : ℕ)
  | dealloc (p : ℕ)
  | read (p : Ptr) (count : ℕ)
  /-- All bytes from a pointer to the end of the block. -/
  | rest (p : Ptr)
  | write (p : Ptr) (bytes : List UInt8)
  deriving DecidableEq, Repr

/-- What comes back. -/
inductive Reply where
  | pointer (st : Status) (p : ℕ)
  | bytes (bs : List UInt8)
  | done
  deriving DecidableEq, Repr

/-- The request is for memory. -/
def Request.asks : Request → Bool
  | .alloc _ => true
  | .resize _ _ => true
  | _ => false

/-! ## Over the memory of blocks -/

/-- The memory behind a view that advertises what a general heap does. -/
def blockAllocator : Allocator Memory := Memory.view ⟨true, true, false⟩

theorem backed_blockAllocator : Backed blockAllocator := .view _

/-- A request over the memory of blocks.  Sizes are positive, and `NULL` is not released. -/
def serve (w : Memory) : Request → Result (Reply × Memory)
  | .alloc size => do
    check (0 < size) "fatal: k4c_alloc invalid arguments"
    let ((st, p), w) ← Allocator.alloc Memory.libc (some blockAllocator) w size
    return (.pointer st p, w)
  | .resize p size => do
    check (0 < size) "fatal: k4c_resize invalid arguments"
    let ((st, p), w) ← Allocator.resize Memory.libc (some blockAllocator) w p size
    return (.pointer st p, w)
  | .dealloc p => do
    check (p ≠ 0) "fatal: k4c_dealloc invalid arguments"
    let w ← Allocator.dealloc Memory.libc (some blockAllocator) w p
    return (.done, w)
  | .read p count => do
    let bs ← w.read p.block p.offset count
    return (.bytes bs, w)
  | .rest p => do
    let bs ← w.bytesFrom (.inside p)
    return (.bytes bs, w)
  | .write p bytes => do
    let w ← w.write p.block p.offset bytes
    return (.done, w)

/-- What the calls make of a pointer. -/
def Reply.ofAnswer (r : ℕ × Memory) : Reply × Memory :=
  (.pointer (Allocator.answer r).1.1 (Allocator.answer r).1.2, (Allocator.answer r).2)

variable {w w' : Memory} {p size : ℕ} {q : Request} {o o' : ℕ → Option Grant}

theorem serve_alloc (hsize : 0 < size) : serve w (.alloc size) =
    .ok (Reply.ofAnswer (w.alloc size (Memory.fresh size))) := by
  rw [serve, check_of hsize, ok_bind, Allocator.alloc_eq backed_blockAllocator]
  rfl

theorem serve_resize (hsize : 0 < size) : serve w (.resize p size) =
    (w.resize p size (Memory.fresh size) (Memory.grown size)).map Reply.ofAnswer := by
  rw [serve, check_of hsize, ok_bind, Allocator.resize_eq backed_blockAllocator w p hsize.ne']
  cases w.resize p size (Memory.fresh size) (Memory.grown size) with
  | error e => rfl
  | ok r => rfl

theorem serve_dealloc (hp : p ≠ 0) : serve w (.dealloc p) =
    (w.free p).map fun w => (.done, w) := by
  rw [serve, check_of hp, ok_bind]
  change (w.free p >>= _) = _
  cases w.free p with
  | error e => rfl
  | ok w' => rfl

theorem write_answering (p off : ℕ) (new : List UInt8) :
    Memory.write (w.answering o) p off new = (w.write p off new).map (Mem.answering o) := by
  rw [Memory.write, Memory.write, Mem.load_answering]
  cases w.load p with
  | error e => rfl
  | ok content =>
    rw [ok_bind, ok_bind]
    cases content.reach with
    | none => rfl
    | some bs =>
      dsimp only
      cases writeAt bs off new with
      | error e => rfl
      | ok bs' => rw [ok_bind, ok_bind, Mem.store_answering]

theorem ofAnswer_answering (o : ℕ → Option Grant) (r : ℕ × Memory) :
    Reply.ofAnswer (Prod.map id (Mem.answering o) r) =
      Prod.map id (Mem.answering o) (Reply.ofAnswer r) := by
  unfold Reply.ofAnswer Allocator.answer
  by_cases h : r.1 = 0
  · simp [h]
  · simp [h]

/-- A request sees the answer that it uses up, and no other. -/
theorem serve_answering (h : q.asks = true → o' w.requests = o w.requests) :
    serve (w.answering o') q = (serve (w.answering o) q).map (Prod.map id (Mem.answering o')) := by
  cases q with
  | alloc size =>
    by_cases hsize : 0 < size
    · rw [serve_alloc hsize, serve_alloc hsize, Mem.alloc_answering (h rfl), ofAnswer_answering]
      rfl
    · simp only [serve, check, if_neg hsize, error_bind]
      rfl
  | resize p size =>
    by_cases hsize : 0 < size
    · rw [serve_resize hsize, serve_resize hsize, Mem.resize_answering (h rfl)]
      cases (w.answering o).resize p size (Memory.fresh size) (Memory.grown size) with
      | error e => rfl
      | ok r => exact congrArg Except.ok (ofAnswer_answering o' r)
    · simp only [serve, check, if_neg hsize, error_bind]
      rfl
  | dealloc p =>
    by_cases hp : p ≠ 0
    · rw [serve_dealloc hp, serve_dealloc hp, Mem.free_answering, Mem.free_answering]
      cases w.free p with
      | error e => rfl
      | ok w' => rfl
    · simp only [serve, check, if_neg hp, error_bind]
      rfl
  | read p count =>
    change (Memory.read w p.block p.offset count >>= _) =
      (Memory.read w p.block p.offset count >>= _).map _
    cases Memory.read w p.block p.offset count with
    | error e => rfl
    | ok bs => rfl
  | rest p =>
    change (Memory.bytesFrom w (.inside p) >>= _) = (Memory.bytesFrom w (.inside p) >>= _).map _
    cases Memory.bytesFrom w (.inside p) with
    | error e => rfl
    | ok bs => rfl
  | write p bytes =>
    rw [serve, serve, write_answering, write_answering]
    cases Memory.write w p.block p.offset bytes with
    | error e => rfl
    | ok w' => rfl

/-- Whether a request returns does not depend on the answers. -/
theorem serve_total (w : Memory) (q : Request) :
    (∀ o, ∃ r, serve (w.answering o) q = .ok r) ∨ ∃ e, ∀ o, serve (w.answering o) q = .error e := by
  have hplain : q.asks = false → ((∀ o, ∃ r, serve (w.answering o) q = .ok r) ∨
      ∃ e, ∀ o, serve (w.answering o) q = .error e) := by
    intro hq
    have hsame : ∀ o, serve (w.answering o) q =
        (serve (w.answering w.answers) q).map (Prod.map id (Mem.answering o)) := fun o =>
      serve_answering fun h => by rw [hq] at h; cases h
    cases hserve : serve (w.answering w.answers) q with
    | error e => exact .inr ⟨e, fun o => by rw [hsame, hserve]; rfl⟩
    | ok r => exact .inl fun o => ⟨_, by rw [hsame, hserve]; rfl⟩
  cases q with
  | alloc size =>
    by_cases hsize : 0 < size
    · exact .inl fun o => ⟨_, serve_alloc hsize⟩
    · exact .inr ⟨_, fun o => by rw [serve, check, if_neg hsize, error_bind]⟩
  | resize p size =>
    by_cases hsize : 0 < size
    · by_cases hp : p = 0
      · refine .inl fun o => ?_
        rw [serve_resize hsize, Mem.resize, if_pos hp]
        exact ⟨_, rfl⟩
      cases hc : w.cells p with
      | none =>
        refine .inr ⟨.badAccess, fun o => ?_⟩
        have hdead : (w.answering o).cells p = none := hc
        rw [serve_resize hsize, Mem.resize_dead hp hdead]
        rfl
      | some c =>
        refine .inl fun o => ?_
        have hlive : (w.answering o).cells p = some c := hc
        rw [serve_resize hsize]
        cases hg : (w.answering o).answers (w.answering o).requests with
        | none =>
          rw [Mem.resize_refused hlive hg]
          exact ⟨_, rfl⟩
        | some g =>
          rw [Mem.resize_moved hlive hg]
          split
          · exact ⟨_, rfl⟩
          · exact ⟨_, rfl⟩
    · exact .inr ⟨_, fun o => by rw [serve, check, if_neg hsize, error_bind]⟩
  | dealloc p => exact hplain rfl
  | read p count => exact hplain rfl
  | rest p => exact hplain rfl
  | write p bytes => exact hplain rfl

theorem ofAnswer_requests (r : ℕ × Memory) : (Reply.ofAnswer r).2.requests = r.2.requests := by
  unfold Reply.ofAnswer Allocator.answer
  split
  · rfl
  · rfl

/-- A request for memory uses up one answer, and any other none. -/
theorem serve_requests {r : Reply × Memory} (h : serve w q = .ok r) :
    r.2.requests = if q.asks then w.requests + 1 else w.requests := by
  cases q with
  | alloc size =>
    obtain ⟨_, hsize, -⟩ := bind_eq_ok.1 h
    rw [serve_alloc (check_eq_ok.1 hsize)] at h
    cases h
    rw [ofAnswer_requests]
    exact Mem.alloc_requests
  | resize p size =>
    obtain ⟨_, hsize, -⟩ := bind_eq_ok.1 h
    rw [serve_resize (check_eq_ok.1 hsize)] at h
    cases hresize : w.resize p size (Memory.fresh size) (Memory.grown size) with
    | error e =>
      rw [hresize] at h
      cases h
    | ok r₁ =>
      rw [hresize] at h
      cases h
      rw [ofAnswer_requests]
      exact Mem.resize_requests hresize
  | dealloc p =>
    obtain ⟨_, -, h⟩ := bind_eq_ok.1 h
    obtain ⟨w₁, hfree, hpure⟩ := bind_eq_ok.1 h
    cases hpure
    exact (Mem.free_log hfree).1
  | read p count =>
    obtain ⟨bs, -, hpure⟩ := bind_eq_ok.1 h
    cases hpure
    rfl
  | rest p =>
    obtain ⟨bs, -, hpure⟩ := bind_eq_ok.1 h
    cases hpure
    rfl
  | write p bytes =>
    obtain ⟨w₁, hwrite, hpure⟩ := bind_eq_ok.1 h
    cases hpure
    exact (Memory.write_rewritten hwrite).requests

/-- A request looks the answers up, and does not change them. -/
theorem serve_answers {r : Reply × Memory} (h : serve w q = .ok r) : r.2.answers = w.answers := by
  have hself : serve (w.answering w.answers) q =
      (serve (w.answering w.answers) q).map (Prod.map id (Mem.answering w.answers)) :=
    serve_answering fun _ => rfl
  rw [show w.answering w.answers = w from rfl, h] at hself
  exact congrArg (fun p : Reply × Memory => p.2.answers) (Except.ok.inj hself)

/-- The memory of blocks chooses its answers. -/
def chooser : Chooser Memory (Option Grant) Request Reply where
  step := serve
  count := Mem.requests
  choices := Mem.answers
  choosing := Mem.answering
  choosing_choices _ := rfl
  choices_choosing _ _ := rfl
  count_choosing _ _ := rfl
  choices_step _ _ _ := serve_answers
  count_le w q r h := by
    rw [serve_requests h]
    split
    · exact Nat.le_succ _
    · exact le_rfl
  ok_congr w q o o' r h hagree := by
    rw [serve_answering (o := o), h]
    · rfl
    · intro hasks
      have hcount := serve_requests h
      rw [if_pos hasks] at hcount
      refine hagree _ le_rfl ?_
      rw [hcount]
      exact Nat.lt_succ_self _
  error_congr w q o o' e h := by
    rcases serve_total w q with hok | ⟨e', he⟩
    · obtain ⟨r, hr⟩ := hok o
      rw [hr] at h
      cases h
    · rw [he] at h
      rw [he, h]

end Backend
end K4c
