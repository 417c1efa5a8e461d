import Mathlib.Tactic
import K4c.Lib.Selection
import K4c.Datastruct.BinaryHeapRuns

/-!
# A binary heap sorts

Elements that are popped one after the other come out in order, whatever was done with the
heap before.

* `taken_of_follows` — pops of a priority queue are a selection.
* `pops_sort` — **draining a heap**: the first `k` elements in order, and then `NULL`.
-/

namespace K4c.BinaryHeap

open Exec Blocks Runs Selection

variable {cmp : Option (List UInt8 → List UInt8 → ℤ)} {elemSize : ℕ}

/-- The answers to `k` pops that took these elements. -/
def popped (k : ℕ) (items : List (List UInt8)) : List Answer :=
  items.map (fun x => .item (some x)) ++ List.replicate (k - items.length) (.item none)

/-- **Pops of a priority queue** take elements in order while there are any. -/
theorem taken_of_follows (k : ℕ) : ∀ {a a' : Abstract} {answers : List Answer},
    Follows (Spec elemSize cmp) a (List.replicate k .pop) answers a' →
      ∃ items, answers = popped k items ∧ items.length = min k a.elements.card ∧
        Taken (Before cmp) a.elements items a'.elements := by
  induction k with
  | zero =>
    intro a a' answers h
    cases answers with
    | nil =>
      rw [show a' = a from h]
      exact ⟨[], rfl, by simp, .none _⟩
    | cons o os => exact absurd h id
  | succ k ih =>
    intro a a' answers h
    cases answers with
    | nil => exact absurd h id
    | cons o os =>
      obtain ⟨a₁, hspec, hrest⟩ := h
      obtain ⟨items, rfl, hlen, htaken⟩ := ih hrest
      match o, hspec with
      | .item (some x), hspec =>
        obtain ⟨⟨-, hfirst⟩, hrest, -⟩ := hspec
        refine ⟨x :: items, ?_, ?_, .one hfirst hrest htaken⟩
        · rw [popped, popped, List.length_cons, Nat.add_sub_add_right]
          rfl
        · rw [List.length_cons, hlen, hrest, Multiset.card_cons, Nat.add_min_add_right]
      | .item none, hspec =>
        -- there is nothing to take
        obtain ⟨hnone, rfl⟩ := hspec
        obtain rfl : items = [] := by
          rw [hnone, Multiset.card_zero, Nat.min_zero] at hlen
          exact List.length_eq_zero_iff.1 hlen
        exact ⟨[], rfl, by simp [hnone], htaken⟩

/-- **Draining a heap sorts.**  Whatever calls were made of a heap whose comparator is a total
preorder, `k` pops then return the `k` first elements that it holds, or all of them, so that
none comes before one that was returned earlier, and `NULL` when there are no more; the
elements that stay come before none of those. -/
theorem pops_sort {elemSize : ℕ} (helem : 0 < elemSize)
    {cmp : Option (List UInt8 → List UInt8 → ℤ)}
    (hcmp : ∀ c, cmp = some c → TotalPreorder elemSize c)
    {allocator : Option (Allocator Memory)} (hbacked : Backed (Allocator.copy allocator))
    {w₀ w₁ : Memory} {h : BinaryHeap}
    (hcreate : create elemSize cmp allocator w₀ = .ok ((.ok, some h), w₁)) (calls : List Call)
    (k : ℕ) (hallowed : Along step (Allowed elemSize) (h, w₁) (calls ++ List.replicate k .pop)) :
    Sat (trace step (h, w₁) calls) fun p => ∃ a,
      Follows (Spec elemSize cmp) ⟨0, Vector.defaultCapacity⟩ calls p.1 a ∧
      Justifies w₁ p.2.2 (· = .status .noMemory) p.1 ∧
      Sat (trace step p.2 (List.replicate k .pop)) fun q => ∃ items rest,
        q.1 = popped k items ∧ items.length = min k a.elements.card ∧
        (items : Multiset (List UInt8)) + rest = a.elements ∧
        items.Pairwise (fun x y => ¬ Before cmp y x) ∧
        ∀ x ∈ items, ∀ y ∈ rest, ¬ Before cmp y x := by
  have hstart := represents_of_create helem hcmp hbacked hcreate
  obtain ⟨p, hp, a, hfollows, hR, hjust⟩ :=
    trace_justified (m := Prod.snd) (R := Represents elemSize cmp) (B := (· = .status .noMemory))
      step_spec (fun _ _ _ _ hR _ hstep => step_asked hR hstep) calls (h, w₁) _ hstart
      hallowed.left
  refine ⟨p, hp, a, hfollows, hjust, ?_⟩
  refine (trace_refines (R := Represents elemSize cmp) step_spec _ p.2 a hR
    (hallowed.right hp)).mono ?_
  rintro q ⟨rest, hpops, -⟩
  obtain ⟨items, hanswers, hlen, htaken⟩ := taken_of_follows k hpops
  exact ⟨items, rest.elements, hanswers, hlen, htaken.add_eq, htaken.sorted, htaken.first⟩

/-- Heapsort of four elements with a tie, in a heap that held others before. -/
theorem pops_sort_four : ∃ h w₁,
    create 1 none none (.empty fun _ => some ⟨true, fun _ => 0⟩) = .ok ((.ok, some h), w₁) ∧
    Sat (trace step (h, w₁) [.push [9], .pop, .push [3], .push [1], .push [2], .push [1]])
      fun p => ∃ a, Follows (Spec 1 none) ⟨0, Vector.defaultCapacity⟩
          [.push [9], .pop, .push [3], .push [1], .push [2], .push [1]] p.1 a ∧
        Justifies w₁ p.2.2 (· = .status .noMemory) p.1 ∧
        Sat (trace step p.2 (List.replicate 5 .pop)) fun q => ∃ items rest,
          q.1 = popped 5 items ∧ items.length = min 5 a.elements.card ∧
          (items : Multiset (List UInt8)) + rest = a.elements ∧
          items.Pairwise (fun x y => ¬ Before none y x) ∧
          ∀ x ∈ items, ∀ y ∈ rest, ¬ Before none y x := by
  have hpos : 0 < 1 := by decide
  have hbacked : Backed (Allocator.copy none) := .default _
  exact ⟨_, _, rfl, pops_sort hpos (fun c hc => by cases hc) hbacked
    (rfl : create 1 none none (.empty fun _ => some ⟨true, fun _ => 0⟩) = _)
    [.push [9], .pop, .push [3], .push [1], .push [2], .push [1]] 5
    (along_of_check (by decide +kernel))⟩

end K4c.BinaryHeap
