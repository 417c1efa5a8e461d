import Mathlib.Tactic.Basic
import K4c.Lib.Runs
import K4c.Mem.Blocks

/-!
# Iterators

`k4c_iterator`: a state with a `next` callback and a count of the items that are
expected to follow.  The state is of the type the container chooses; `item` is
what the returned `const void *` points at, absent at the end.
-/

namespace K4c

open Exec

/-- `k4c_iterator`, without the callback. -/
structure Iterator (σ : Type) where
  state : σ
  sizeHint : ℕ
  deriving DecidableEq, Repr

namespace Iterator

variable {σ ι : Type}

/-- `k4c_iterator_from_state` and the writes that fill in the state. -/
def fromState (state : σ) : Iterator σ := ⟨state, 0⟩

/-- `k4c_iterator_set_size_hint`. -/
def setSizeHint (iter : Iterator σ) (sizeHint : ℕ) : Iterator σ := { iter with sizeHint }

/-- `k4c_iterator_next`. -/
def next (callback : σ → Result (Option ι × σ)) (iter : Iterator σ) :
    Result (Option ι × Iterator σ) := do
  let (item, state) ← callback iter.state
  if item.isSome ∧ iter.sizeHint > 0 then
    return (item, ⟨state, iter.sizeHint - 1⟩)
  return (item, ⟨state, iter.sizeHint⟩)

/-! ## What an iterator yields -/

/-- From this state the callback returns the items of the list, and then nothing. -/
inductive Yields (callback : σ → Result (Option ι × σ)) : σ → List ι → Prop
  | done {s s' : σ} (h : callback s = .ok (none, s')) : Yields callback s []
  | item {s s' : σ} {x : ι} {xs : List ι} (h : callback s = .ok (some x, s'))
    (hrest : Yields callback s' xs) : Yields callback s (x :: xs)

/-- Items that are numbered, with numbered states. -/
theorem yields_range {callback : σ → Result (Option ι × σ)} {s : ℕ → σ} {f : ℕ → ι} {n : ℕ}
    (hitem : ∀ i < n, callback (s i) = .ok (some (f i), s (i + 1)))
    (hdone : callback (s n) = .ok (none, s n)) :
    Yields callback (s 0) ((List.range n).map f) := by
  induction n generalizing s f with
  | zero => exact .done hdone
  | succ n ih =>
    rw [List.range_succ_eq_map, List.map_cons, List.map_map]
    exact .item (hitem 0 (Nat.succ_pos n))
      (ih (s := fun i => s (i + 1)) (fun i hi => hitem (i + 1) (by omega)) hdone)

/-- What a callback yields that answers with something about each item of another. -/
theorem Yields.map {κ : Type} {callback : σ → Result (Option ι × σ)} {s : σ} {xs : List ι}
    (h : Yields callback s xs) (f : ι → κ) :
    Yields (fun s => callback s >>= fun r => .ok (r.1.map f, r.2)) s (xs.map f) := by
  induction h with
  | done h => exact .done (by rw [h]; rfl)
  | item h _ ih => exact .item (by rw [h]; rfl) ih

/-- Between related states and lists the callback returns the head of the list, absent
for none, and goes on with the tail. -/
def Shows (callback : σ → Result (Option ι × σ)) (R : σ → List ι → Prop) : Prop :=
  ∀ s l, R s l → ∃ s', callback s = .ok (l.head?, s') ∧ R s' l.tail

theorem Shows.yields {callback : σ → Result (Option ι × σ)} {R : σ → List ι → Prop}
    (h : Shows callback R) : ∀ (l : List ι) (s : σ), R s l → Yields callback s l := by
  intro l
  induction l with
  | nil =>
    intro s hs
    obtain ⟨s', hs', -⟩ := h s [] hs
    exact .done hs'
  | cons x l ih =>
    intro s hs
    obtain ⟨s', hs', hrest⟩ := h s (x :: l) hs
    exact .item hs' (ih s' hrest)

/-- What a callback shows that answers with something about each item of another. -/
theorem Shows.map {κ : Type} {callback : σ → Result (Option ι × σ)} {R : σ → List ι → Prop}
    (h : Shows callback R) (f : ι → κ) :
    Shows (fun s => callback s >>= fun r => .ok (r.1.map f, r.2))
      fun s l => ∃ l', R s l' ∧ l = l'.map f := by
  rintro s _ ⟨l, hs, rfl⟩
  obtain ⟨s', hs', hrest⟩ := h s l hs
  refine ⟨s', ?_, l.tail, hrest, List.map_tail.symm⟩
  dsimp only
  rw [hs', ok_bind, List.head?_map]

/-- A caller looks at the size hint and then calls `k4c_iterator_next`. -/
def ask (callback : σ → Result (Option ι × σ)) (iter : Iterator σ) (_ : Unit) :
    Result ((ℕ × Option ι) × Iterator σ) := do
  let (item, iter') ← iter.next callback
  return ((iter.sizeHint, item), iter')

/-- However often it is asked, the iterator returns the items of the list in order, each
with the number of those to come as the size hint before it, and then nothing. -/
def Enumerates (callback : σ → Result (Option ι × σ)) (iter : Iterator σ) (l : List ι) : Prop :=
  ∀ k, Sat (Runs.trace (ask callback) iter (List.replicate k ())) fun p =>
    p.1 = (List.range k).map fun i => (l.length - i, l[i]?)

theorem Shows.next {callback : σ → Result (Option ι × σ)} {R : σ → List ι → Prop}
    (h : Shows callback R) {s : σ} {l : List ι} (hs : R s l) :
    ∃ s', next callback ⟨s, l.length⟩ = .ok (l.head?, ⟨s', l.tail.length⟩) ∧ R s' l.tail := by
  obtain ⟨s', hs', hrest⟩ := h s l hs
  refine ⟨s', ?_, hrest⟩
  rw [Iterator.next, hs', ok_bind]
  cases l with
  | nil => rfl
  | cons x l => exact if_pos ⟨rfl, Nat.succ_pos _⟩

/-- **An iterator that shows a list** and starts with its length as the size hint
enumerates it. -/
theorem Shows.enumerates {callback : σ → Result (Option ι × σ)} {R : σ → List ι → Prop}
    (h : Shows callback R) {s : σ} {l : List ι} (hs : R s l) :
    Enumerates callback ⟨s, l.length⟩ l := by
  intro k
  induction k generalizing s l with
  | zero => exact Sat.ok rfl
  | succ k ih =>
    obtain ⟨s', hnext, hrest⟩ := h.next hs
    have hask : ask callback ⟨s, l.length⟩ () =
        .ok ((l.length, l.head?), ⟨s', l.tail.length⟩) := by
      rw [ask, hnext]
      rfl
    rw [List.replicate_succ, Runs.trace_cons_of_ok hask]
    refine (ih hrest).bind fun p hp => Sat.ok ?_
    dsimp only
    rw [hp, List.range_succ_eq_map, List.map_cons, List.map_map]
    congr 1
    · rw [Nat.sub_zero, List.head?_eq_getElem?]
    · refine List.map_congr_left fun i _ => ?_
      rw [Function.comp_apply, List.length_tail, List.getElem?_tail, Nat.sub_sub, Nat.add_comm 1 i]

/-- One round of a loop over `k4c_iterator_next` that keeps the items. -/
def itemsRound (callback : σ → Result (Option ι × σ)) (s : List ι × Iterator σ) :
    Result (List ι × Iterator σ ⊕ List ι) := do
  let (item, iter) ← s.2.next callback
  match item with
  | none => return .inr s.1
  | some x => return .inl (s.1 ++ [x], iter)

/-- The items of an iterator. -/
def items (callback : σ → Result (Option ι × σ)) (fuel : ℕ) (iter : Iterator σ) :
    Result (List ι) :=
  loop (itemsRound callback) fuel ([], iter)

/-- One round of `k4c_iterator_for_each`, with a body that reads `n` bytes. -/
def forEachRound (callback : σ → Result (Option Ptr × σ)) (w : Memory) (n : ℕ)
    (s : List (List UInt8) × Iterator σ) :
    Result (List (List UInt8) × Iterator σ ⊕ List (List UInt8)) := do
  let (item, iter) ← s.2.next callback
  match item with
  | none => return .inr s.1
  | some p =>
    let bytes ← w.read p.block p.offset n
    return .inl (s.1 ++ [bytes], iter)

/-- The items of an iterator, read one after the other. -/
def forEach (callback : σ → Result (Option Ptr × σ)) (w : Memory) (n fuel : ℕ)
    (iter : Iterator σ) : Result (List (List UInt8)) :=
  loop (forEachRound callback w n) fuel ([], iter)

theorem next_eq_ok {callback : σ → Result (Option ι × σ)} {item : Option ι} {s s' : σ}
    (h : callback s = .ok (item, s')) (hint : ℕ) :
    ∃ hint', next callback ⟨s, hint⟩ = .ok (item, ⟨s', hint'⟩) := by
  rw [next, h, ok_bind]
  dsimp only
  split
  · exact ⟨_, rfl⟩
  · exact ⟨_, rfl⟩

/-- **Running an iterator** that yields finitely many items gives these, whatever its
size hint is. -/
theorem items_eq {callback : σ → Result (Option ι × σ)} {s : σ} {xs : List ι}
    (h : Yields callback s xs) (hint : ℕ) {fuel : ℕ} (hfuel : xs.length < fuel) :
    items callback fuel ⟨s, hint⟩ = .ok xs := by
  suffices hloop : ∀ seen, loop (itemsRound callback) fuel (seen, ⟨s, hint⟩) = .ok (seen ++ xs) by
    rw [items, hloop, List.nil_append]
  induction h generalizing hint fuel with
  | done h =>
    intro seen
    obtain ⟨hint', hnext⟩ := next_eq_ok h hint
    obtain ⟨fuel, rfl⟩ := Nat.exists_eq_succ_of_ne_zero (Nat.ne_of_gt hfuel)
    rw [loop_of_inr, List.append_nil]
    rw [itemsRound, hnext]
    rfl
  | @item s s' x xs h _ ih =>
    intro seen
    obtain ⟨hint', hnext⟩ := next_eq_ok h hint
    obtain ⟨fuel, rfl⟩ := Nat.exists_eq_succ_of_ne_zero (Nat.ne_of_gt (Nat.zero_lt_of_lt hfuel))
    have hround : itemsRound callback (seen, ⟨s, hint⟩) =
        .ok (.inl (seen ++ [x], ⟨s', hint'⟩)) := by
      rw [itemsRound, hnext]
      rfl
    rw [loop_of_inl hround, ih hint' (Nat.lt_of_succ_lt_succ hfuel), List.append_assoc]
    rfl

/-- **Reading an iterator** that yields finitely many places gives what is stored
there, whatever its size hint is. -/
theorem forEach_eq {callback : σ → Result (Option Ptr × σ)} {w : Memory} {n : ℕ} {s : σ}
    {ps : List Ptr} {xs : List (List UInt8)} (h : Yields callback s ps)
    (hread : ps.Forall₂ (fun p e => w.read p.block p.offset n = .ok e) xs) (hint : ℕ) {fuel : ℕ}
    (hfuel : ps.length < fuel) : forEach callback w n fuel ⟨s, hint⟩ = .ok xs := by
  suffices hloop : ∀ seen, loop (forEachRound callback w n) fuel (seen, ⟨s, hint⟩) =
      .ok (seen ++ xs) by
    rw [forEach, hloop, List.nil_append]
  induction h generalizing xs hint fuel with
  | done h =>
    intro seen
    obtain ⟨hint', hnext⟩ := next_eq_ok h hint
    obtain ⟨fuel, rfl⟩ := Nat.exists_eq_succ_of_ne_zero (Nat.ne_of_gt hfuel)
    cases hread
    rw [loop_of_inr, List.append_nil]
    rw [forEachRound, hnext]
    rfl
  | @item s s' p ps h _ ih =>
    intro seen
    obtain ⟨hint', hnext⟩ := next_eq_ok h hint
    obtain ⟨fuel, rfl⟩ := Nat.exists_eq_succ_of_ne_zero (Nat.ne_of_gt (Nat.zero_lt_of_lt hfuel))
    cases hread with
    | cons hx hxs =>
      rename_i x xs
      have hround : forEachRound callback w n (seen, ⟨s, hint⟩) =
          .ok (.inl (seen ++ [x], ⟨s', hint'⟩)) := by
        rw [forEachRound, hnext]
        simp only [ok_bind, hx, pure_eq_ok]
      rw [loop_of_inl hround, ih hxs hint' (Nat.lt_of_succ_lt_succ hfuel), List.append_assoc]
      rfl

end Iterator

end K4c
