import Mathlib.Tactic
import K4c.Lib.Words
import K4c.Mem.Backend

/-!
# A libc that conforms

`malloc`, `realloc` and `free` over a memory of units of 32 bytes, none of which is
handed out twice.  It keeps the contract that clients of any libc rely on
(`Ram.conforms`), and it can be run.
-/

namespace K4c
namespace Backend

open Exec

/-- A memory that is never used twice: `next` is the first unit of 32 bytes that was
not handed out. -/
structure Ram where
  bytes : Words.Memory
  live : Live
  next : ℕ

namespace Ram

/-- `malloc`. -/
def malloc (w : Ram) (size : ℕ) : Result (ℕ × Ram) :=
  if 32 * w.next + size ≤ sizeMax then
    .ok (32 * w.next, { w with
      live := Function.update w.live (32 * w.next) (some size), next := w.next + size / 32 + 1 })
  else .ok (0, w)

/-- `free`. -/
def free (w : Ram) (ptr : ℕ) : Result Ram :=
  if ptr = 0 then .ok w
  else
    match w.live ptr with
    | none => .error .badAccess
    | some _ => .ok { w with live := Function.update w.live ptr none }

/-- `realloc`: every block moves. -/
def realloc (w : Ram) (ptr size : ℕ) : Result (ℕ × Ram) :=
  if ptr = 0 then malloc w size
  else
    match w.live ptr with
    | none => .error .badAccess
    | some k =>
      if 32 * w.next + size ≤ sizeMax then
        .ok (32 * w.next, {
          bytes := Words.copy w.bytes (32 * w.next) ptr (min k size)
          live := Function.update (Function.update w.live ptr none) (32 * w.next) (some size)
          next := w.next + size / 32 + 1 })
      else .ok (0, w)

/-- The three functions. -/
def libc : Libc Ram := ⟨malloc, realloc, free⟩

/-- A client's view of the memory. -/
def window : Window Ram where
  read w addr := w.bytes addr
  write w addr bytes := { w with bytes := Words.poke w.bytes addr bytes }

/-- The live blocks lie apart, before the unit that is handed out next. -/
structure Serves (w : Ram) (live : Live) : Prop where
  live_eq : w.live = live
  next_pos : 0 < w.next
  inside : ∀ p n, live p = some n → 0 < p ∧ 0 < n ∧ p + n ≤ 32 * w.next
  apart : ∀ p n q m, live p = some n → live q = some m → p ≠ q → p + n ≤ q ∨ q + m ≤ p

variable {w : Ram} {live : Live} {p k size : ℕ}

theorem Serves.fresh (h : Serves w live) : live (32 * w.next) = none := by
  cases hlive : live (32 * w.next) with
  | none => rfl
  | some n =>
    have := h.inside _ n hlive
    omega

theorem Serves.erase (h : Serves w live) (p : ℕ) :
    Serves { w with live := Function.update w.live p none } (Function.update live p none) := by
  have hold : ∀ q m, Function.update live p none q = some m → live q = some m := by
    intro q m hq
    by_cases hqp : q = p
    · subst hqp
      simp at hq
    · rwa [Function.update_of_ne hqp] at hq
  refine ⟨by rw [h.live_eq], h.next_pos, fun q n hq => h.inside q n (hold q n hq), ?_⟩
  exact fun q n r m hq hr hne => h.apart q n r m (hold q n hq) (hold r m hr) hne

theorem Serves.insert (h : Serves w live) (hsize : 0 < size) (bytes : Words.Memory) :
    Serves ⟨bytes, Function.update w.live (32 * w.next) (some size), w.next + size / 32 + 1⟩
      (Function.update live (32 * w.next) (some size)) where
  live_eq := by rw [h.live_eq]
  next_pos := Nat.succ_pos _
  inside q n hq := by
    dsimp only
    by_cases hqp : q = 32 * w.next
    · rw [hqp, Function.update_self, Option.some.injEq] at hq
      have := h.next_pos
      omega
    · rw [Function.update_of_ne hqp] at hq
      have := h.inside q n hq
      omega
  apart q n r m hq hr hne := by
    by_cases hqp : q = 32 * w.next
    · subst hqp
      rw [Function.update_of_ne (Ne.symm hne)] at hr
      have := h.inside r m hr
      omega
    · rw [Function.update_of_ne hqp] at hq
      by_cases hrp : r = 32 * w.next
      · have := h.inside q n hq
        omega
      · rw [Function.update_of_ne hrp] at hr
        exact h.apart q n r m hq hr hne

theorem malloc_spec (h : Serves w live) (hsize : 0 < size) :
    Sat (malloc w size) (Handed window Serves w live size) := by
  unfold malloc
  split
  · exact Sat.ok (.granted (by have := h.next_pos; omega) h.fresh (h.insert hsize w.bytes)
      fun _ _ _ _ _ => rfl)
  · exact Sat.ok (.refused h fun _ _ _ _ _ => rfl)

theorem realloc_spec (h : Serves w live) (hp : live p = some k) (hsize : 0 < size) :
    Sat (realloc w p size) (Resized window Serves w live p k size) := by
  have hin := h.inside p k hp
  have hlive : w.live p = some k := by rw [h.live_eq, hp]
  unfold realloc
  rw [if_neg (by omega), hlive]
  dsimp only
  split
  · have hne : 32 * w.next ≠ p := by omega
    refine Sat.ok (.granted (by have := h.next_pos; omega) ?_ ((h.erase p).insert hsize _) ?_ ?_)
    · rw [Function.update_of_ne hne, h.fresh]
    · intro q m hq i hi
      have hq' := (h.erase p).inside q m hq
      dsimp only at hq'
      exact Words.copy_outside (by omega)
    · intro i hi
      exact Words.copy_inside hi
  · exact Sat.ok (.refused h fun _ _ _ _ _ => rfl)

theorem conforms : Conforms window Serves libc where
  null w live h := by
    cases hlive : live 0 with
    | none => rfl
    | some n => exact absurd (h.inside 0 n hlive).1 (lt_irrefl _)
  malloc w live size h hsize := malloc_spec h hsize
  realloc_null w live size h hsize := by
    change Sat (realloc w 0 size) _
    rw [realloc, if_pos rfl]
    exact malloc_spec h hsize
  realloc w live p k size h hp hsize := realloc_spec h hp hsize
  free w live p h hp := by
    obtain ⟨k, hk⟩ := Option.ne_none_iff_exists'.1 hp
    have hin := h.inside p k hk
    change Sat (free w p) _
    unfold free
    rw [if_neg (by omega), h.live_eq, hk]
    exact Sat.ok ⟨by rw [← h.live_eq]; exact h.live_eq ▸ h.erase p, fun _ _ _ _ _ => rfl⟩
  write w live p k offset bytes h hp hle := by
    refine ⟨⟨h.live_eq, h.next_pos, h.inside, h.apart⟩, fun q m hq i hi => ?_, fun i _ => ?_⟩
    · have hqp : q ≠ p := by
        rintro rfl
        simp at hq
      rw [Function.update_of_ne hqp] at hq
      have := h.apart q m p k hq hp hqp
      exact Words.poke_outside (by omega)
    · simp only [window, Words.poke, Nat.add_le_add_iff_left, Nat.add_sub_add_left]

theorem freesNull : FreesNull window Serves libc :=
  fun _ _ h => Sat.ok ⟨h, fun _ _ _ _ _ => rfl⟩

/-- A memory of which nothing was handed out. -/
def empty : Ram := ⟨fun _ => 0, fun _ => none, 1⟩

theorem serves_empty : Serves empty fun _ => none :=
  ⟨rfl, Nat.one_pos, nofun, nofun⟩

end Ram

end Backend
end K4c
