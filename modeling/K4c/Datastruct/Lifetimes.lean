import Mathlib.Tactic
import K4c.Datastruct.BinaryHeapCalls
import K4c.Datastruct.DequeCalls
import K4c.Datastruct.StringCalls
import K4c.Mem.Lifecycle

/-!
# The lives of vectors, deques, strings and heaps

Each container with all of its calls, and what a caller promises of them: an element
that is passed can be copied to where it goes, and a text lies outside of the block of
the string.  A comparator, a key, an index or a capacity can be anything.

* `Op`, `call` — the calls; what they answer is left out.
* `Kept` — the container lies in the memory, with this allocator.
* `sound` — every call exchanges the blocks that are owned.
-/

namespace K4c

open Exec Blocks

/-! ## Vectors -/

namespace Vector

/-- The calls of a vector. -/
inductive Op where
  | push (element : Arg)
  | pop
  | get (index : ℕ)
  | swapRemove (index : ℕ)
  | reserve (capacity : ℕ)
  /-- `size`, `capacity`, `elem_size` or `data`. -/
  | field
  | lowerBound (key : List UInt8) (cmp : List UInt8 → List UInt8 → ℤ)
  | upperBound (key : List UInt8) (cmp : List UInt8 → List UInt8 → ℤ)
  | binarySearch (key : List UInt8) (cmp : List UInt8 → List UInt8 → ℤ)
  | iterate

/-- One call. -/
def call (s : Vector × Memory) : Op → Result (Vector × Memory)
  | .push element => do
    let ((_, v), w) ← push s.1 element s.2
    return (v, w)
  | .pop => do
    let (_, v) ← pop s.1
    return (v, s.2)
  | .get index => do
    let _ ← get s.1 index
    return s
  | .swapRemove index => do
    let ((_, v), w) ← swapRemove s.1 index s.2
    return (v, w)
  | .reserve capacity => do
    let ((_, v), w) ← reserve s.1 capacity s.2
    return (v, w)
  | .field => return s
  | .lowerBound key cmp => do
    let _ ← lowerBound s.1 s.2 key cmp
    return s
  | .upperBound key cmp => do
    let _ ← upperBound s.1 s.2 key cmp
    return s
  | .binarySearch key cmp => do
    let _ ← binarySearch s.1 s.2 key cmp
    return s
  | .iterate => do
    let _ ← Iterator.items iteratorNext (s.1.size + 1) (getIterator s.1)
    return s

/-- A pushed element can be read, outside of the blocks of the vector or, where there
is a free slot, anywhere beside it. -/
def Op.Allowed (s : Vector × Memory) : Op → Prop
  | .push element => ∃ e, s.1.Takes s.2 element e
  | _ => True

/-- Vectors of this element size, created with this capacity. -/
def container (elemSize capacity : ℕ) (allocator : Option (Allocator Memory)) :
    Container Vector Op where
  create := createWithCapacity elemSize capacity allocator
  call := call
  destroy := destroy
  Owns s o := o = s.1.owned
  Allowed := Op.Allowed

/-- The vector lies in the memory and owns these blocks. -/
def Kept (a : Allocator Memory) (s : Vector × Memory) (o : List ℕ) : Prop :=
  (∃ bs, Holds s.1 s.2 bs) ∧ s.1.allocator = a ∧ o = s.1.owned

variable {v v' : Vector} {w w' : Memory} {bs bs' : List UInt8}

theorem Changed.moves (hc : Changed v v' w w') (h : Holds v' w' bs') :
    Container.Moves (Reclaims v.allocator) (Kept v.allocator) (v, w) v.owned (v', w') :=
  ⟨v'.owned, ⟨⟨bs', h⟩, hc.allocator, rfl⟩, hc.exchange⟩

/-- In a memory that did not change. -/
theorem Holds.unmoved (h : Holds v w bs) (hcells : w'.cells = w.cells) :
    Container.Moves (Reclaims v.allocator) (Kept v.allocator) (v, w) v.owned (v, w') :=
  (h.changed_same hcells : Changed v v w w').moves { h with buffered := h.buffered.same hcells }

/-- **Every call** of a vector exchanges the blocks that it owns. -/
theorem call_spec {a : Allocator Memory} {s : Vector × Memory} {o : List ℕ} {c : Op}
    (hs : Kept a s o) (hc : Op.Allowed s c) :
    Sat (call s c) (Container.Moves (Reclaims a) (Kept a) s o) := by
  obtain ⟨v, w⟩ := s
  obtain ⟨⟨bs, h⟩, rfl, rfl⟩ := hs
  dsimp only at h
  have hread : ∀ {α : Type} {x : Result α}, Sat x (fun _ => True) →
      Sat (x >>= fun _ => .ok (v, w))
        (Container.Moves (Reclaims v.allocator) (Kept v.allocator) (v, w) v.owned) := fun hx =>
    hx.bind fun _ _ => Sat.ok (h.unmoved rfl)
  cases c with
  | push element =>
    obtain ⟨e, he⟩ := hc
    obtain ⟨st, v', w', hpush, hres⟩ := push_spec h he
    refine ⟨(v', w'), by simp only [call, hpush]; rfl, ?_⟩
    rcases hres with ⟨-, rfl, hcells⟩ | ⟨-, bs', h', -, -, hchanged⟩
    · exact h.unmoved hcells
    · exact hchanged.moves h'
  | pop =>
    have hchanged : Changed v { v with size := v.size - 1 } w w := h.changed_same rfl
    by_cases hzero : v.size = 0
    · refine ⟨(v, w), by simp only [call, pop_of_empty hzero]; rfl, h.unmoved rfl⟩
    · refine ⟨_, by simp only [call, pop_of_pos h (Nat.pos_of_ne_zero hzero)]; rfl, ?_⟩
      exact hchanged.moves (h.resized ((Nat.sub_le _ _).trans h.size_le))
  | get index =>
    apply hread
    rcases Nat.lt_or_ge index v.size with hlt | hge
    · exact ⟨_, get_of_lt h hlt, trivial⟩
    · exact ⟨_, get_of_ge hge, trivial⟩
  | swapRemove index =>
    rcases Nat.lt_or_ge index v.size with hlt | hge
    · obtain ⟨w', bs', hremove, h', hchanged, -⟩ := swapRemove_of_lt h hlt
      exact ⟨_, by simp only [call, hremove]; rfl, hchanged.moves h'⟩
    · exact ⟨(v, w), by simp only [call, swapRemove_of_ge hge]; rfl, h.unmoved rfl⟩
  | reserve capacity =>
    obtain ⟨st, v', w', hreserve, hres⟩ := reserve_spec h capacity
    refine ⟨(v', w'), by simp only [call, hreserve]; rfl, ?_⟩
    rcases hres with ⟨-, rfl, hcells⟩ | ⟨-, tail, h', -, -, hchanged⟩
    · exact h.unmoved hcells
    · exact hchanged.moves h'
  | field => exact Sat.ok (h.unmoved rfl)
  | lowerBound key cmp => exact hread ((bound_spec h _).mono fun _ _ => trivial)
  | upperBound key cmp => exact hread ((bound_spec h _).mono fun _ _ => trivial)
  | binarySearch key cmp => exact hread ((binarySearch_spec h key cmp).mono fun _ _ => trivial)
  | iterate =>
    apply hread
    refine ⟨_, Iterator.items_eq (iterator_yields h) _ ?_, trivial⟩
    rw [places, List.length_map, List.length_range]
    exact Nat.lt_succ_self _

/-- **The life of a vector.** -/
theorem sound {elemSize capacity : ℕ} {allocator : Option (Allocator Memory)}
    (hbacked : Backed (Allocator.copy allocator)) (helem : 0 < elemSize) (hcap : 0 < capacity)
    (w₀ : Memory) : (container elemSize capacity allocator).Sound
      (Reclaims (Allocator.copy allocator)) w₀ (Kept (Allocator.copy allocator)) where
  owns _ _ hs := hs.2.2
  nodup := by
    rintro s o ⟨⟨bs, h⟩, -, rfl⟩
    have hapart := h.buffered.apart
    simpa [owned] using hapart
  create := by
    obtain ⟨st, out, w, hcreate, hres⟩ := createWithCapacity_spec hbacked helem hcap w₀
    refine ⟨st, out, w, hcreate, ?_⟩
    rcases hres with hfail | ⟨rfl, v, rfl, hx, h, -, -, -, hallocator⟩
    · exact .inl hfail
    · exact .inr ⟨rfl, v, v.owned, rfl, ⟨h, hallocator, rfl⟩, hx⟩
  call _ _ _ hs hc := call_spec hs hc
  destroy := by
    rintro s o ⟨⟨bs, h⟩, hallocator, rfl⟩
    obtain ⟨w', hdestroy, hx⟩ := destroy_spec h
    exact ⟨w', hdestroy, hallocator ▸ hx⟩

end Vector

/-! ## Deques -/

namespace Deque

/-- The calls of a deque. -/
inductive Op where
  | push (element : Arg)
  | pushfront (element : Arg)
  | popleft
  | popback
  | peekleft
  | peekback
  | size
  | iterate

/-- One call. -/
def call (s : Deque × Memory) : Op → Result (Deque × Memory)
  | .push element => do
    let ((_, d), w) ← push s.1 element s.2
    return (d, w)
  | .pushfront element => do
    let ((_, d), w) ← pushfront s.1 element s.2
    return (d, w)
  | .popleft => do
    let (_, d) ← popleft s.1
    return (d, s.2)
  | .popback => do
    let (_, d) ← popback s.1
    return (d, s.2)
  | .peekleft => do
    let _ ← peekleft s.1
    return s
  | .peekback => do
    let _ ← peekback s.1
    return s
  | .size => return s
  | .iterate => do
    let iter ← getIterator s.1
    let _ ← Iterator.items iteratorNext (s.1.size + 1) iter
    return s

/-- A pushed element can be read, outside of the blocks of the deque or, where there is
a free slot, anywhere beside the one it goes to. -/
def Op.Allowed (s : Deque × Memory) : Op → Prop
  | .push element => ∃ e, s.1.Takes s.2 s.1.tail element e
  | .pushfront element => ∃ e, s.1.Takes s.2 s.1.front element e
  | _ => True

/-- Deques of this element size. -/
def container (elemSize : ℕ) (allocator : Option (Allocator Memory)) : Container Deque Op where
  create := create elemSize allocator
  call := call
  destroy := destroy
  Owns s o := o = s.1.owned
  Allowed := Op.Allowed

/-- The deque lies in the memory and owns these blocks. -/
def Kept (a : Allocator Memory) (s : Deque × Memory) (o : List ℕ) : Prop :=
  (∃ bs, Holds s.1 s.2 bs) ∧ s.1.allocator = a ∧ o = s.1.owned

variable {d d' : Deque} {w w' : Memory} {bs bs' : List UInt8}

theorem Changed.moves (hc : Changed d d' w w') (h : Holds d' w' bs') :
    Container.Moves (Reclaims d.allocator) (Kept d.allocator) (d, w) d.owned (d', w') :=
  ⟨d'.owned, ⟨⟨bs', h⟩, hc.allocator, rfl⟩, hc.exchange⟩

/-- In a memory that did not change. -/
theorem Holds.unmoved (h : Holds d w bs) (hcells : w'.cells = w.cells) :
    Container.Moves (Reclaims d.allocator) (Kept d.allocator) (d, w) d.owned (d, w') :=
  Changed.moves ⟨rfl, rfl, rfl, .same h.live hcells⟩ { h with buffered := h.buffered.same hcells }

theorem Pushed.moves (h : Holds d w bs) {add : List (List UInt8) → List (List UInt8)}
    {st : Status} (hp : Pushed d w bs add st d' w') :
    Container.Moves (Reclaims d.allocator) (Kept d.allocator) (d, w) d.owned (d', w') := by
  rcases hp with ⟨-, rfl, hcells⟩ | ⟨-, bs', h', -, hchanged⟩
  · exact h.unmoved hcells
  · exact hchanged.moves h'

/-- **Every call** of a deque exchanges the blocks that it owns. -/
theorem call_spec {a : Allocator Memory} {s : Deque × Memory} {o : List ℕ} {c : Op}
    (hs : Kept a s o) (hc : Op.Allowed s c) :
    Sat (call s c) (Container.Moves (Reclaims a) (Kept a) s o) := by
  obtain ⟨d, w⟩ := s
  obtain ⟨⟨bs, h⟩, rfl, rfl⟩ := hs
  dsimp only at h
  have hread : ∀ {x : Result (Option Ptr)}, Sat x (fun _ => True) →
      Sat (x >>= fun _ => .ok (d, w))
        (Container.Moves (Reclaims d.allocator) (Kept d.allocator) (d, w) d.owned) := fun hx =>
    hx.bind fun _ _ => Sat.ok (h.unmoved rfl)
  cases c with
  | push element =>
    obtain ⟨e, he⟩ := hc
    obtain ⟨st, d', w', hpush, hres⟩ := push_spec h he
    exact ⟨(d', w'), by simp only [call, hpush]; rfl, hres.moves h⟩
  | pushfront element =>
    obtain ⟨e, he⟩ := hc
    obtain ⟨st, d', w', hpush, hres⟩ := pushfront_spec h he
    exact ⟨(d', w'), by simp only [call, hpush]; rfl, hres.moves h⟩
  | popleft =>
    by_cases hzero : d.size = 0
    · exact ⟨(d, w), by simp only [call, popleft_of_empty h hzero]; rfl, h.unmoved rfl⟩
    · have hpos : 0 < d.size := Nat.pos_of_ne_zero hzero
      have hchanged : Changed d d.dropFront w w := ⟨rfl, rfl, rfl, .same h.live rfl⟩
      exact ⟨_, by simp only [call, popleft_of_pos h hpos]; rfl, hchanged.moves (h.dropFront hpos)⟩
  | popback =>
    by_cases hzero : d.size = 0
    · exact ⟨(d, w), by simp only [call, popback_of_empty h hzero]; rfl, h.unmoved rfl⟩
    · have hpos : 0 < d.size := Nat.pos_of_ne_zero hzero
      have hchanged : Changed d d.dropBack w w := ⟨rfl, rfl, rfl, .same h.live rfl⟩
      exact ⟨_, by simp only [call, popback_of_pos h hpos]; rfl, hchanged.moves h.dropBack⟩
  | peekleft =>
    apply hread
    by_cases hzero : d.size = 0
    · exact ⟨_, peekleft_of_empty hzero, trivial⟩
    · exact ⟨_, peekleft_of_pos h (Nat.pos_of_ne_zero hzero), trivial⟩
  | peekback =>
    apply hread
    by_cases hzero : d.size = 0
    · exact ⟨_, peekback_of_empty h hzero, trivial⟩
    · exact ⟨_, peekback_of_pos h (Nat.pos_of_ne_zero hzero), trivial⟩
  | size => exact Sat.ok (h.unmoved rfl)
  | iterate =>
    obtain ⟨iter, hiter, hyields⟩ := iterator_yields h
    have hitems : Iterator.items iteratorNext (d.size + 1) iter = .ok d.places := by
      apply Iterator.items_eq hyields _
      rw [places, List.length_map, List.length_range]
      exact Nat.lt_succ_self _
    exact ⟨(d, w), by simp only [call, hiter, ok_bind, hitems]; rfl, h.unmoved rfl⟩

/-- **The life of a deque.** -/
theorem sound {elemSize : ℕ} {allocator : Option (Allocator Memory)}
    (hbacked : Backed (Allocator.copy allocator)) (helem : 0 < elemSize) (w₀ : Memory) :
    (container elemSize allocator).Sound
      (Reclaims (Allocator.copy allocator)) w₀ (Kept (Allocator.copy allocator)) where
  owns _ _ hs := hs.2.2
  nodup := by
    rintro s o ⟨⟨bs, h⟩, -, rfl⟩
    have hapart := h.buffered.apart
    simpa [owned] using hapart
  create := by
    obtain ⟨st, out, w, hcreate, hres⟩ := create_spec hbacked helem w₀
    refine ⟨st, out, w, hcreate, ?_⟩
    rcases hres with hfail | ⟨rfl, d, rfl, hx, h, -, -, -, hallocator⟩
    · exact .inl hfail
    · exact .inr ⟨rfl, d, d.owned, rfl, ⟨h, hallocator, rfl⟩, hx⟩
  call _ _ _ hs hc := call_spec hs hc
  destroy := by
    rintro s o ⟨⟨bs, h⟩, hallocator, rfl⟩
    obtain ⟨w', hdestroy, hx⟩ := destroy_spec h
    exact ⟨w', hdestroy, hallocator ▸ hx⟩

end Deque

/-! ## Strings -/

namespace StringHeader

/-- The calls of a string. -/
inductive Op where
  | append (suffix : Arg)
  | prepend (text : Arg)
  | clear
  | contains (needle : Arg)
  | startsWith (text : Arg)
  | endsWith (suffix : Arg)
  | len
  | iterate

/-- One call. -/
def call (s : StringHeader × Memory) : Op → Result (StringHeader × Memory)
  | .append suffix => do
    let ((_, header), w) ← append s.1 suffix s.2
    return (header, w)
  | .prepend text => do
    let ((_, header), w) ← prepend s.1 text s.2
    return (header, w)
  | .clear => clear s.1 s.2
  | .contains needle => do
    let _ ← contains s.1 s.2 needle
    return s
  | .startsWith text => do
    let _ ← startsWith s.1 s.2 text
    return s
  | .endsWith suffix => do
    let _ ← endsWith s.1 s.2 suffix
    return s
  | .len => return s
  | .iterate => do
    let _ ← Iterator.items iteratorNext (s.1.len + 1) (getIterator s.1)
    return s

/-- A text to look for: nothing, or a C string wherever it is. -/
def Needle (w : Memory) (needle : Arg) : Prop := needle = .null ∨ ∃ t, needle.IsString w [] t

/-- A text that is added is a C string outside of the block of the string. -/
def Op.Allowed (s : StringHeader × Memory) : Op → Prop
  | .append suffix => ∃ t, suffix.IsString s.2 s.1.owned t
  | .prepend text => ∃ t, text.IsString s.2 s.1.owned t
  | .contains needle => Needle s.2 needle
  | .startsWith text => Needle s.2 text
  | .endsWith suffix => Needle s.2 suffix
  | _ => True

/-- Strings that start as a copy of this one. -/
def container (initial : Arg) (allocator : Option (Allocator Memory)) :
    Container StringHeader Op where
  create := create initial allocator
  call := call
  destroy := destroy
  Owns s o := o = s.1.owned
  Allowed := Op.Allowed

/-- The string lies in the memory and owns this block. -/
def Kept (a : Allocator Memory) (s : StringHeader × Memory) (o : List ℕ) : Prop :=
  (∃ text, Holds s.1 s.2 text) ∧ s.1.allocator = a ∧ o = s.1.owned

variable {s s' : StringHeader} {w w' : Memory} {text text' : List UInt8} {needle : Arg}

theorem Changed.moves (hc : Changed s s' w w') (h : Holds s' w' text') :
    Container.Moves (Reclaims s.allocator) (Kept s.allocator) (s, w) s.owned (s', w') :=
  ⟨s'.owned, ⟨⟨text', h⟩, hc.allocator, rfl⟩, hc.exchange⟩

/-- In a memory that did not change. -/
theorem Holds.unmoved (h : Holds s w text) (hcells : w'.cells = w.cells) :
    Container.Moves (Reclaims s.allocator) (Kept s.allocator) (s, w) s.owned (s, w') :=
  Changed.moves ⟨rfl, .same h.live hcells⟩ (h.same hcells)

theorem Adds.moves (h : Holds s w text) {st : Status} (ha : Adds s w text' st s' w') :
    Container.Moves (Reclaims s.allocator) (Kept s.allocator) (s, w) s.owned (s', w') := by
  rcases ha with ⟨-, rfl, hcells⟩ | ⟨-, h', hchanged⟩
  · exact h.unmoved hcells
  · exact hchanged.moves h'

/-- The three questions have an answer, also about nothing. -/
theorem questions_spec (h : Holds s w text) (hneedle : Needle w needle) :
    Sat (contains s w needle) (fun _ => True) ∧ Sat (startsWith s w needle) (fun _ => True) ∧
      Sat (endsWith s w needle) (fun _ => True) := by
  rcases hneedle with rfl | ⟨t, ht⟩
  · exact ⟨Sat.ok (a := false) trivial, Sat.ok (a := false) trivial, Sat.ok (a := false) trivial⟩
  · obtain ⟨b, hcontains, -⟩ := contains_spec h ht
    obtain ⟨b', hstarts, -⟩ := startsWith_spec h ht
    obtain ⟨b'', hends, -⟩ := endsWith_spec h ht
    exact ⟨⟨b, hcontains, trivial⟩, ⟨b', hstarts, trivial⟩, ⟨b'', hends, trivial⟩⟩

/-- **Every call** of a string exchanges the block that it owns. -/
theorem call_spec {a : Allocator Memory} {s : StringHeader × Memory} {o : List ℕ} {c : Op}
    (hs : Kept a s o) (hc : Op.Allowed s c) :
    Sat (call s c) (Container.Moves (Reclaims a) (Kept a) s o) := by
  obtain ⟨s, w⟩ := s
  obtain ⟨⟨text, h⟩, rfl, rfl⟩ := hs
  dsimp only at h
  have hread : ∀ {α : Type} {x : Result α}, Sat x (fun _ => True) →
      Sat (x >>= fun _ => .ok (s, w))
        (Container.Moves (Reclaims s.allocator) (Kept s.allocator) (s, w) s.owned) := fun hx =>
    hx.bind fun _ _ => Sat.ok (h.unmoved rfl)
  cases c with
  | append suffix =>
    obtain ⟨t, ht⟩ := hc
    obtain ⟨st, s', w', happend, hres⟩ := append_spec h ht
    exact ⟨(s', w'), by simp only [call, happend]; rfl, hres.moves h⟩
  | prepend text =>
    obtain ⟨t, ht⟩ := hc
    obtain ⟨st, s', w', hprepend, hres⟩ := prepend_spec h ht
    exact ⟨(s', w'), by simp only [call, hprepend]; rfl, hres.moves h⟩
  | clear =>
    obtain ⟨w', hclear, h', hchanged⟩ := clear_spec h
    exact ⟨_, hclear, hchanged.moves h'⟩
  | contains needle => exact hread (questions_spec h hc).1
  | startsWith text => exact hread (questions_spec h hc).2.1
  | endsWith suffix => exact hread (questions_spec h hc).2.2
  | len => exact Sat.ok (h.unmoved rfl)
  | iterate =>
    apply hread
    refine ⟨_, Iterator.items_eq (iterator_yields s) _ ?_, trivial⟩
    rw [List.length_map, List.length_range]
    exact Nat.lt_succ_self _

/-- **The life of a string.** -/
theorem sound {initial : Arg} {t : List UInt8} {allocator : Option (Allocator Memory)}
    (hbacked : Backed (Allocator.copy allocator)) {w₀ : Memory} (hinitial : Initial w₀ initial t) :
    (container initial allocator).Sound
      (Reclaims (Allocator.copy allocator)) w₀ (Kept (Allocator.copy allocator)) where
  owns _ _ hs := hs.2.2
  nodup := by
    rintro s o ⟨-, -, rfl⟩
    exact List.nodup_singleton _
  create := by
    obtain ⟨st, out, w, hcreate, hres⟩ := create_spec hbacked hinitial
    refine ⟨st, out, w, hcreate, ?_⟩
    rcases hres with hfail | ⟨rfl, s, rfl, hx, h, hallocator⟩
    · exact .inl hfail
    · exact .inr ⟨rfl, s, s.owned, rfl, ⟨⟨t, h⟩, hallocator, rfl⟩, hx⟩
  call _ _ _ hs hc := call_spec hs hc
  destroy := by
    rintro s o ⟨⟨text, h⟩, hallocator, rfl⟩
    obtain ⟨w', hdestroy, hx⟩ := destroy_spec h
    exact ⟨w', hdestroy, hallocator ▸ hx⟩

end StringHeader

/-! ## Heaps -/

namespace BinaryHeap

/-- The calls of a heap. -/
inductive Op where
  | push (element : Arg)
  | pop
  | peek
  | size
  | iterate

/-- One call. -/
def call (s : BinaryHeap × Memory) : Op → Result (BinaryHeap × Memory)
  | .push element => do
    let ((_, h), w) ← push s.1 element s.2
    return (h, w)
  | .pop => do
    let ((_, h), w) ← pop s.1 s.2
    return (h, w)
  | .peek => do
    let _ ← peek s.1
    return s
  | .size => return s
  | .iterate => do
    let _ ← Iterator.items iteratorNext (s.1.root.size + 1) (getIterator s.1)
    return s

/-- A pushed element can be read, outside of the blocks of the vector or, where there
is a free slot, anywhere beside it, and no object is larger than half of the
addresses. -/
def Op.Allowed (s : BinaryHeap × Memory) : Op → Prop
  | .push element => ∃ e, s.1.root.Takes s.2 element e
  | .pop => s.1.root.size < 2 ^ 63
  | _ => True

/-- Heaps of this element size, with this comparator. -/
def container (elemSize : ℕ) (cmp : Option (List UInt8 → List UInt8 → ℤ))
    (allocator : Option (Allocator Memory)) : Container BinaryHeap Op where
  create := create elemSize cmp allocator
  call := call
  destroy := destroy
  Owns s o := o = s.1.owned
  Allowed := Op.Allowed

/-- The heap lies in the memory and owns these blocks. -/
def Kept (a : Allocator Memory) (s : BinaryHeap × Memory) (o : List ℕ) : Prop :=
  (∃ bs, Lies s.1 s.2 bs) ∧ s.1.allocator = a ∧ o = s.1.owned

variable {h h' : BinaryHeap} {w w' : Memory} {bs bs' : List UInt8}

theorem Changed.moves (hc : Changed h h' w w') (hh : Lies h' w' bs') :
    Container.Moves (Reclaims h.allocator) (Kept h.allocator) (h, w) h.owned (h', w') :=
  ⟨h'.owned, ⟨⟨bs', hh⟩, hc.allocator, rfl⟩, hc.exchange⟩

/-- In a memory that did not change. -/
theorem Lies.unmoved (hh : Lies h w bs) (hcells : w'.cells = w.cells) :
    Container.Moves (Reclaims h.allocator) (Kept h.allocator) (h, w) h.owned (h, w') :=
  Changed.moves ⟨rfl, rfl, rfl, .same hh.live hcells⟩ (hh.same hcells)

/-- **Every call** of a heap exchanges the blocks that it owns, for whatever
comparator. -/
theorem call_spec {a : Allocator Memory} {s : BinaryHeap × Memory} {o : List ℕ} {c : Op}
    (hs : Kept a s o) (hc : Op.Allowed s c) :
    Sat (call s c) (Container.Moves (Reclaims a) (Kept a) s o) := by
  obtain ⟨h, w⟩ := s
  obtain ⟨⟨bs, hh⟩, rfl, rfl⟩ := hs
  dsimp only at hh
  have hread : ∀ {α : Type} {x : Result α}, Sat x (fun _ => True) →
      Sat (x >>= fun _ => .ok (h, w))
        (Container.Moves (Reclaims h.allocator) (Kept h.allocator) (h, w) h.owned) := fun hx =>
    hx.bind fun _ _ => Sat.ok (hh.unmoved rfl)
  cases c with
  | push element =>
    obtain ⟨e, he⟩ := hc
    obtain ⟨st, h', w', hpush, hres⟩ := push_spec hh he
    refine ⟨(h', w'), by simp only [call, hpush]; rfl, ?_⟩
    rcases hres with ⟨-, rfl, hcells⟩ | ⟨-, bs', hh', -, -, hchanged⟩
    · exact hh.unmoved hcells
    · exact hchanged.moves hh'
  | pop =>
    by_cases hzero : h.root.size = 0
    · exact ⟨(h, w), by simp only [call, pop, if_pos hzero]; rfl, hh.unmoved rfl⟩
    · obtain ⟨w', bs', hpop, hh', -, -, -, hchanged⟩ :=
        pop_spec hh (Nat.pos_of_ne_zero hzero) hc
      exact ⟨(h.shortened, w'), by simp only [call, hpop]; rfl, hchanged.moves hh'⟩
  | peek =>
    apply hread
    by_cases hzero : h.root.size = 0
    · exact ⟨none, by rw [peek, if_pos hzero], trivial⟩
    · have hpeek : peek h = .ok (some ⟨h.root.buffer, 0 * h.root.elemSize⟩) := by
        rw [peek, if_neg hzero, Vector.get_of_lt hh.root (Nat.pos_of_ne_zero hzero)]
      exact ⟨_, hpeek, trivial⟩
  | size => exact Sat.ok (hh.unmoved rfl)
  | iterate =>
    apply hread
    refine ⟨_, Iterator.items_eq (Vector.iterator_yields hh.root) _ ?_, trivial⟩
    rw [Vector.places, List.length_map, List.length_range]
    exact Nat.lt_succ_self _

/-- **The life of a heap.** -/
theorem sound {elemSize : ℕ} {cmp : Option (List UInt8 → List UInt8 → ℤ)}
    {allocator : Option (Allocator Memory)} (hbacked : Backed (Allocator.copy allocator))
    (helem : 0 < elemSize) (w₀ : Memory) :
    (container elemSize cmp allocator).Sound
      (Reclaims (Allocator.copy allocator)) w₀ (Kept (Allocator.copy allocator)) where
  owns _ _ hs := hs.2.2
  nodup := by
    rintro s o ⟨⟨bs, hh⟩, -, rfl⟩
    have hapart := hh.root.buffered.apart
    exact List.nodup_cons.2 ⟨hh.apart, by simpa [Vector.owned] using hapart⟩
  create := by
    obtain ⟨st, out, w, hcreate, hres⟩ := create_spec cmp hbacked helem w₀
    refine ⟨st, out, w, hcreate, ?_⟩
    rcases hres with hfail | ⟨rfl, h, rfl, hx, hh, -, -, -, -, hallocator⟩
    · exact .inl hfail
    · exact .inr ⟨rfl, h, h.owned, rfl, ⟨hh, hallocator, rfl⟩, hx⟩
  call _ _ _ hs hc := call_spec hs hc
  destroy := by
    rintro s o ⟨⟨bs, hh⟩, hallocator, rfl⟩
    obtain ⟨w', hdestroy, hx⟩ := destroy_spec hh
    exact ⟨w', hdestroy, hallocator ▸ hx⟩

end BinaryHeap

end K4c
