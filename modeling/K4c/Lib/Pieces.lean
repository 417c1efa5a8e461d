import Mathlib.Tactic
import Mathlib.Data.List.SplitBy

/-!
# The pieces of a list

A list is cut behind every delimiter.  Each piece ends with the delimiter, and has no other
one in it; only the last one may lack it.

* `pieces_cons`, `pieces_of_notMem` — **the first piece** goes up to the first delimiter, or
  is all there is.
* `pieces_lines` — **terminated lines** are their own pieces.
-/

namespace Pieces

variable {α : Type} [DecidableEq α]

/-- The pieces. -/
def pieces (d : α) (l : List α) : List (List α) := l.splitBy fun a _ => a != d

variable {d : α} {l p : List α} {i : ℕ}

@[simp] theorem pieces_nil (d : α) : pieces d [] = [] := rfl

/-- No cut is made before the delimiter. -/
theorem isChain_of_notMem (h : d ∉ l) : l.IsChain fun a _ => (a != d) = true := by
  refine List.Pairwise.isChain (List.pairwise_of_forall_mem_list fun a ha b _ => ?_)
  simpa using fun hd : a = d => h (hd ▸ ha)

/-- Without a delimiter there is one piece. -/
theorem pieces_of_notMem (hne : l ≠ []) (h : d ∉ l) : pieces d l = [l] :=
  List.splitBy_of_isChain hne (isChain_of_notMem h)

/-- What ends with its only delimiter is one piece. -/
theorem pieces_of_terminated (h : d ∉ p) : pieces d (p ++ [d]) = [p ++ [d]] := by
  refine List.splitBy_of_isChain (by simp) ?_
  rw [List.isChain_append]
  refine ⟨isChain_of_notMem h, .singleton d, fun a ha b _ => ?_⟩
  simpa using fun hd : a = d => h (hd ▸ List.mem_of_mem_getLast? ha)

/-- **The first piece** ends with the first delimiter. -/
theorem pieces_append (h : d ∉ p) (l : List α) :
    pieces d (p ++ [d] ++ l) = (p ++ [d]) :: pieces d l := by
  rw [pieces, List.splitBy_append, ← pieces, ← pieces, pieces_of_terminated h]
  · rfl
  · intro a ha b _
    rw [List.getLast?_concat, Option.mem_some_iff] at ha
    simp [ha]

/-- The first delimiter is where the first piece ends. -/
theorem pieces_cons (h : l.idxOf? d = some i) :
    pieces d l = l.take (i + 1) :: pieces d (l.drop (i + 1)) := by
  obtain ⟨hlt, hget, hfirst⟩ := List.idxOf?_eq_some_iff.1 h
  have hnot : d ∉ l.take i := by
    intro hmem
    obtain ⟨j, hj, hd⟩ := List.mem_take_iff_getElem.1 hmem
    exact hfirst j (by omega) hd
  have htake : l.take (i + 1) = l.take i ++ [d] := by
    rw [← hget, List.take_append_getElem]
  rw [htake, ← pieces_append hnot, ← htake, List.take_append_drop]

/-- **Terminated lines** are the pieces of what they make up. -/
theorem pieces_lines {lines : List (List α)} (h : ∀ l ∈ lines, d ∉ l) :
    pieces d (lines.flatMap (· ++ [d])) = lines.map (· ++ [d]) := by
  induction lines with
  | nil => rfl
  | cons l ls ih =>
    rw [List.flatMap_cons, pieces_append (h l (List.mem_cons_self ..)), List.map_cons,
      ih fun l' hl' => h l' (List.mem_cons_of_mem _ hl')]

end Pieces
