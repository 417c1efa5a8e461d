import Mathlib.Tactic
import K4c.Datastruct.Reachable

/-!
# Pushing an element of the container itself

What `get` and `peek` return is a place in the buffer.  A push makes room before it reads
its argument, so a place in a buffer that has been replaced meanwhile is read too late.
The bytes of a block whose life has ended are taken to be anything.

* `pushLate` — a push that reads its argument when the room is made, with what the
  bytes of a block that has ended are.
* `Pushes`, `pushLate_iff` — a push takes the element at a place, whatever these bytes are,
  exactly when making room does not end the block of the place.
* `Vector.Moves`, `Deque.Releases` — when that is.
* `own_element` — the two together, for every container that can be reached.
-/

namespace K4c

open Exec Bytes Slots Blocks Runs

/-! ## Reading late -/

/-- What an argument reads as, `n` bytes long, when those of a block whose life has ended
are `junk`. -/
def Memory.readsAs (w : Memory) (junk : ℕ → ℕ → UInt8) (n : ℕ) : Arg → Arg
  | .inside p =>
    match w.cells p.block with
    | some _ => .inside p
    | none => .outside ((List.range n).map fun i => junk p.block (p.offset + i))
  | element => element

variable {ρ σ : Type}

/-- A push of elements of `n` bytes, which begins by making this room and reads its argument
after that. -/
def pushLate (room : Memory → Result ((Status × ρ) × Memory))
    (push : Arg → Memory → Result ((Status × σ) × Memory)) (junk : ℕ → ℕ → UInt8) (n : ℕ)
    (element : Arg) (w : Memory) : Result ((Status × σ) × Memory) := do
  let (_, w₁) ← room w
  push (w₁.readsAs junk n element) w

theorem Memory.readsAs_ne_null (w : Memory) (junk : ℕ → ℕ → UInt8) (n : ℕ) (p : Ptr) :
    w.readsAs junk n (.inside p) ≠ .null := by
  rw [readsAs]
  split
  · simp
  · simp

/-- Making room and pushing belong together: without room the push is refused, and with it
what the argument reads as goes to `dst`, after which `Ins` holds of it. -/
structure Pushes (room : Memory → Result ((Status × ρ) × Memory))
    (push : Arg → Memory → Result ((Status × σ) × Memory)) (n : ℕ) (dst : ρ → Ptr) (w : Memory)
    (Ins : List UInt8 → σ → Memory → Prop) : Prop where
  returns : Sat (room w) fun _ => True
  refused : ∀ st s w₁ element, room w = .ok ((st, s), w₁) → st ≠ .ok → element ≠ .null →
    Sat (push element w) fun out => out.1.1 ≠ .ok
  taken : ∀ s w₁ element e, room w = .ok ((.ok, s), w₁) → element.Copies w₁ (dst s) n e →
    Sat (push element w) fun out => out.1.1 = .ok ∧ Ins e out.1.2 out.2
  unique : ∀ e e' s w, Ins e s w → Ins e' s w → e = e'

/-- **The element at a place is taken**, whatever the bytes of an ended block are, exactly
when making room leaves the block of the place alone. -/
theorem pushLate_iff {room : Memory → Result ((Status × ρ) × Memory)}
    {push : Arg → Memory → Result ((Status × σ) × Memory)} {n : ℕ} {dst : ρ → Ptr} {w : Memory}
    {Ins : List UInt8 → σ → Memory → Prop} (h : Pushes room push n dst w Ins) (hn : 0 < n) {p : Ptr}
    {e : List UInt8} (hkept : ∀ s w₁, room w = .ok ((.ok, s), w₁) →
      w₁.cells p.block = none ∨ w₁.Live p.block ∧ (Arg.inside p).Copies w₁ (dst s) n e) :
    (∀ junk, Sat (pushLate room push junk n (.inside p) w) fun out =>
      out.1.1 = .ok → Ins e out.1.2 out.2) ↔
    ¬ ∃ s w₁, room w = .ok ((.ok, s), w₁) ∧ w₁.cells p.block = none := by
  constructor
  · rintro hall ⟨s, w₁, hroom, hdead⟩
    -- every byte that is read is another one than the first of the element
    set bytes := (List.range n).map fun _ => e.headD 0 + 1 with hbytes
    have hlen : bytes.length = n := by simp [hbytes]
    have hread' : w₁.readsAs (fun _ _ => e.headD 0 + 1) n (.inside p) = .outside bytes := by
      rw [Memory.readsAs, hdead]
    have hreads : (Arg.outside bytes).Reads w₁ [(dst s).block] n bytes := .outside hlen
    obtain ⟨out, hpush, hok, hins⟩ := h.taken s w₁ _ bytes hroom (hreads.copies (by simp))
    obtain ⟨out', hpush', hins'⟩ := hall fun _ _ => e.headD 0 + 1
    rw [pushLate, hroom, ok_bind] at hpush'
    dsimp only at hpush'
    rw [hread'] at hpush'
    cases hpush.symm.trans hpush'
    have heq := h.unique _ _ _ _ hins (hins' hok)
    obtain ⟨k, rfl⟩ : ∃ k, n = k + 1 := ⟨n - 1, by omega⟩
    rw [hbytes, List.range_succ_eq_map, List.map_cons] at heq
    have hhead := congrArg (·.headD 0) heq
    simp at hhead
  · intro hnot junk
    obtain ⟨⟨⟨st, s⟩, w₁⟩, hroom, -⟩ := h.returns
    rw [pushLate, hroom, ok_bind]
    dsimp only
    by_cases hst : st = .ok
    · subst hst
      rcases hkept s w₁ hroom with hdead | ⟨hlive, hcopies⟩
      · exact absurd ⟨s, w₁, hroom, hdead⟩ hnot
      · obtain ⟨c, hc⟩ := Mem.live_iff.1 hlive
        have hread' : w₁.readsAs junk n (.inside p) = .inside p := by
          rw [Memory.readsAs, hc]
        rw [hread']
        exact (h.taken s w₁ _ e hroom hcopies).mono fun out hout _ => hout.2
    · exact (h.refused st s w₁ _ hroom hst (w₁.readsAs_ne_null junk n p)).mono fun out hout hok =>
        absurd hok hout

section Room

variable {room : Result ((Status × ρ) × Memory)} {r : ρ} {w : Memory} {st : Status}
  {P : ρ → Memory → Prop}

/-- Making room that succeeded: what holds of every success holds of this one. -/
theorem granted_forall (h : room = .ok ((.ok, r), w)) :
    (∀ s w₁, room = .ok ((.ok, s), w₁) → P s w₁) ↔ P r w := by
  constructor
  · intro hall
    exact hall r w h
  · intro hp s w₁ hroom
    cases h.symm.trans hroom
    exact hp

theorem granted_exists (h : room = .ok ((.ok, r), w)) :
    (∃ s w₁, room = .ok ((.ok, s), w₁) ∧ P s w₁) ↔ P r w := by
  constructor
  · rintro ⟨s, w₁, hroom, hp⟩
    cases h.symm.trans hroom
    exact hp
  · intro hp
    exact ⟨r, w, h, hp⟩

theorem not_granted (h : room = .ok ((st, r), w)) (hst : st ≠ .ok) (s : ρ) (w₁ : Memory) :
    room ≠ .ok ((.ok, s), w₁) := by
  intro hroom
  cases h.symm.trans hroom
  exact hst rfl

end Room

/-! ## Vectors -/

namespace Vector

variable {v : Vector} {w : Memory} {bs : List UInt8} {i : ℕ}

/-- The next push grows the buffer by moving it. -/
def Moves (v : Vector) (w : Memory) : Prop :=
  ∃ next g, Grown capacityGrow v.size v.capacity v.elemSize w next g ∧ g.moves = true

/-- A push of the element at this place adds it at the end or fails, whatever the bytes of
an ended block are. -/
def TakesOwn (v : Vector) (w : Memory) (p : Ptr) : Prop :=
  ∀ xs e, Stored v w xs → w.read p.block p.offset v.elemSize = .ok e →
    ∀ junk, Sat (pushLate (makeRoom v) (push v) junk v.elemSize (.inside p) w) fun out =>
      out.1.1 = .ok → Stored out.1.2 out.2 (xs ++ [e])

theorem pushes (h : Holds v w bs) :
    Pushes (makeRoom v) (push v) v.elemSize (fun v' => ⟨v'.buffer, v'.size * v'.elemSize⟩) w
      fun e v' w' => Stored v' w' (v.elements bs ++ [e]) where
  returns := by
    obtain ⟨st, v', w', hroom, -⟩ := makeRoom_spec h
    exact ⟨_, hroom, trivial⟩
  refused st v' w' element hroom hst hne := ⟨_, push_of_refused hroom hst hne, hst⟩
  taken v' w' element e hroom he := by
    obtain ⟨st, v₁, w₁, hroom', hres⟩ := makeRoom_spec h
    cases hroom.symm.trans hroom'
    rcases hres with ⟨hst, -⟩ | ⟨-, -, tail, -, -, hchanged⟩
    · exact absurd rfl hst
    rw [← hchanged.elemSize] at he
    obtain ⟨bs', w'', hpush, h', -, helements, -⟩ := push_of_room h hroom he
    have hstored := h'.stored
    rw [helements] at hstored
    exact ⟨_, hpush, rfl, hstored⟩
  unique e e' v' w' he he' := by
    have heq := List.append_cancel_left (he.unique he')
    exact List.head_eq_of_cons_eq heq

/-- Making room ends the buffer when it moves, and else leaves the elements readable. -/
theorem makeRoom_ends (h : Holds v w bs) (hi : i < v.size) :
    (∀ v' w', makeRoom v w = .ok ((.ok, v'), w') → w'.cells v.buffer = none ∨
      w'.Live v.buffer ∧ (Arg.inside ⟨v.buffer, i * v.elemSize⟩).Copies w'
        ⟨v'.buffer, v'.size * v'.elemSize⟩ v.elemSize (slot bs v.elemSize i)) ∧
    ((∃ v' w', makeRoom v w = .ok ((.ok, v'), w') ∧ w'.cells v.buffer = none) ↔ Moves v w) := by
  have hsize := h.size_le
  have hlive : w.Live v.buffer := Mem.live_of h.buffered.cell
  by_cases hfull : v.size = v.capacity
  · rcases makeRoom_full h hfull with ⟨st, w', hroom, hst, -, hnot⟩ |
      ⟨next, g, tail, w', hgrown, hroom, hmore, h', -, hmoves⟩
    · have hfail := not_granted hroom hst
      refine ⟨fun v₁ w₁ hroom' => absurd hroom' (hfail v₁ w₁), ?_, ?_⟩
      · rintro ⟨v₁, w₁, hroom', -⟩
        exact absurd hroom' (hfail v₁ w₁)
      · rintro ⟨next, g, hgrown, -⟩
        exact absurd hgrown (hnot next g)
    · rw [granted_forall hroom, granted_exists hroom]
      cases hm : g.moves with
      | true => exact ⟨.inl (hmoves hm), iff_of_true (hmoves hm) ⟨next, g, hgrown, hm⟩⟩
      | false =>
        have hbuffer : (v.regrown w g next).buffer = v.buffer := by
          rw [regrown, hm]
          rfl
        have hcell := h'.buffered.cell
        rw [hbuffer] at hcell
        have hend := h.slot_end (hi.trans_le hsize)
        refine ⟨.inr ⟨Mem.live_of hcell, ?_, ?_⟩, iff_of_false (by simp [hcell]) ?_⟩
        · rw [← slot_append hend tail]
          exact Memory.read_eq hcell (by rw [List.length_append]; exact hend.trans (by omega))
        · rw [hbuffer]
          exact Memory.not_clash_slots v.buffer v.size i v.elemSize
        · rintro ⟨next', g', hgrown', hm'⟩
          have hsame : g = g' := Option.some.inj (hgrown.granted.symm.trans hgrown'.granted)
          rw [← hsame, hm] at hm'
          cases hm'
  · have hroom := makeRoom_of_lt (w := w) (by omega : v.size < v.capacity)
    rw [granted_forall hroom, granted_exists hroom]
    refine ⟨.inr ⟨hlive, deref_of_lt h (by omega), Memory.not_clash_slots v.buffer v.size i _⟩,
      iff_of_false (by simp [h.buffered.cell]) ?_⟩
    rintro ⟨next, g, hgrown, -⟩
    exact absurd hgrown.full hfull

theorem takesOwn_iff (h : Holds v w bs) (hi : i < v.size) :
    TakesOwn v w ⟨v.buffer, i * v.elemSize⟩ ↔ ¬ Moves v w := by
  obtain ⟨hkept, hmoves⟩ := makeRoom_ends h hi
  have hread : w.read v.buffer (i * v.elemSize) v.elemSize = .ok (slot bs v.elemSize i) :=
    deref_of_lt h (hi.trans_le h.size_le)
  rw [← hmoves]
  refine Iff.trans ?_ (pushLate_iff (p := ⟨v.buffer, i * v.elemSize⟩) (pushes h) h.elem_pos hkept)
  constructor
  · intro htakes
    exact htakes _ _ h.stored hread
  · intro hall xs e hxs he
    obtain rfl := hxs.unique h.stored
    cases hread.symm.trans he
    exact hall

end Vector

/-! ## Deques -/

namespace Deque

variable {d : Deque} {w : Memory} {bs : List UInt8}

/-- The next push grows the buffer and releases the old one. -/
def Releases (d : Deque) (w : Memory) : Prop :=
  (∃ next g, Grown capacityGrow d.size d.capacity d.elemSize w next g) ∧ Reclaims d.allocator

/-- A push of the element at this place adds it as `add` says or fails, whatever the bytes
of an ended block are. -/
def TakesOwn (push : Deque → Arg → Memory → Result ((Status × Deque) × Memory))
    (add : List UInt8 → List (List UInt8) → List (List UInt8)) (d : Deque) (w : Memory) (p : Ptr) :
    Prop :=
  ∀ xs e, items d w = .ok xs → w.read p.block p.offset d.elemSize = .ok e →
    ∀ junk, Sat (pushLate (makeRoom d) (push d) junk d.elemSize (.inside p) w) fun out =>
      out.1.1 = .ok → items out.1.2 out.2 = .ok (add e xs)

/-- The list with one more element at the end. -/
def behind (e : List UInt8) (xs : List (List UInt8)) : List (List UInt8) := xs ++ [e]

theorem makeRoom_returns (h : Holds d w bs) : Sat (makeRoom d w) fun _ => True := by
  obtain ⟨st, d', w', hroom, -⟩ := makeRoom_spec h
  exact ⟨_, hroom, trivial⟩

theorem makeRoom_elemSize (h : Holds d w bs) {d' : Deque} {w' : Memory}
    (hroom : makeRoom d w = .ok ((.ok, d'), w')) : d'.elemSize = d.elemSize := by
  obtain ⟨st, d₁, w₁, hroom', hres⟩ := makeRoom_spec h
  cases hroom.symm.trans hroom'
  rcases hres with ⟨hst, -⟩ | ⟨-, bs', -, -, -, -, hchanged⟩
  · exact absurd rfl hst
  · exact hchanged.elemSize

theorem push_pushes (h : Holds d w bs) :
    Pushes (makeRoom d) (push d) d.elemSize (fun d' => ⟨d'.buffer, d'.tail * d'.elemSize⟩) w
      fun e d' w' => items d' w' = .ok (behind e (d.elements bs)) where
  returns := makeRoom_returns h
  refused st d' w' element hroom hst hne := ⟨_, push_of_refused h hroom hst hne, hst⟩
  taken d' w' element e hroom he := by
    rw [← makeRoom_elemSize h hroom] at he
    obtain ⟨bs', w'', hpush, h', helements, -⟩ := push_of_room h hroom he
    exact ⟨_, hpush, rfl, by rw [(items_eq h').1, helements, behind]⟩
  unique e e' d' w' he he' := by
    have heq := Except.ok.inj (he.symm.trans he')
    exact List.head_eq_of_cons_eq (List.append_cancel_left heq)

theorem pushfront_pushes (h : Holds d w bs) :
    Pushes (makeRoom d) (pushfront d) d.elemSize (fun d' => ⟨d'.buffer, d'.front * d'.elemSize⟩) w
      fun e d' w' => items d' w' = .ok (e :: d.elements bs) where
  returns := makeRoom_returns h
  refused st d' w' element hroom hst hne := ⟨_, pushfront_of_refused h hroom hst hne, hst⟩
  taken d' w' element e hroom he := by
    rw [← makeRoom_elemSize h hroom] at he
    obtain ⟨bs', w'', hpush, h', helements, -⟩ := pushfront_of_room h hroom he
    exact ⟨_, hpush, rfl, by rw [(items_eq h').1, helements]⟩
  unique e e' d' w' he he' := by
    have heq := Except.ok.inj (he.symm.trans he')
    exact List.head_eq_of_cons_eq heq

/-- Making room ends the buffer when it is released, and else leaves the elements
readable. -/
theorem makeRoom_ends (h : Holds d w bs) (i : ℕ) (slot : Deque → ℕ) :
    (∀ d' w', makeRoom d w = .ok ((.ok, d'), w') → w'.cells d.buffer = none ∨
      w'.Live d.buffer ∧ (Arg.inside (d.place i)).Copies w'
        ⟨d'.buffer, slot d' * d'.elemSize⟩ d.elemSize (d.nth bs i)) ∧
    ((∃ d' w', makeRoom d w = .ok ((.ok, d'), w') ∧ w'.cells d.buffer = none) ↔
      Releases d w) := by
  have hsize := h.size_le
  have hlive : w.Live d.buffer := Mem.live_of h.buffered.cell
  by_cases hfull : d.size = d.capacity
  · rcases makeRoom_full h hfull with ⟨st, w', hroom, hst, -, hnot⟩ |
      ⟨next, g, w', bs', hgrown, hroom, h', -, -, -, hreleased, hkept⟩
    · have hfail := not_granted hroom hst
      refine ⟨fun d₁ w₁ hroom' => absurd hroom' (hfail d₁ w₁), ?_, ?_⟩
      · rintro ⟨d₁, w₁, hroom', -⟩
        exact absurd hroom' (hfail d₁ w₁)
      · rintro ⟨⟨next, g, hgrown⟩, -⟩
        exact absurd hgrown (hnot next g)
    · rw [granted_forall hroom, granted_exists hroom]
      by_cases hreclaims : Reclaims d.allocator
      · exact ⟨.inl (hreleased hreclaims),
          iff_of_true (hreleased hreclaims) ⟨⟨next, g, hgrown⟩, hreclaims⟩⟩
      · have hcell : w'.cells d.buffer = some ⟨d.capacity * d.elemSize, .bytes bs⟩ := by
          rw [hkept hreclaims, h.buffered.cell]
        have hne : d.buffer ≠ (d.unrolled w next).buffer := Mem.ne_next_of_live hlive
        refine ⟨.inr ⟨Mem.live_of hcell, ?_, fun hclash => hne hclash.1⟩,
          iff_of_false (by simp [hcell]) fun hreleases => hreclaims hreleases.2⟩
        exact Memory.read_eq hcell (h.slot_end (Nat.mod_lt _ h.cap_pos))
  · have hroom := makeRoom_of_lt (w := w) (by omega : d.size < d.capacity)
    rw [granted_forall hroom, granted_exists hroom]
    refine ⟨.inr ⟨hlive, read_place h i, Memory.not_clash_slots d.buffer (slot d) _ d.elemSize⟩,
      iff_of_false (by simp [h.buffered.cell]) ?_⟩
    rintro ⟨⟨next, g, hgrown⟩, -⟩
    exact absurd hgrown.full hfull

/-- Either push takes the element with any number, unless it releases the buffer. -/
theorem takesOwn_iff (h : Holds d w bs) (i : ℕ) {slot : Deque → ℕ}
    {push : Deque → Arg → Memory → Result ((Status × Deque) × Memory)}
    {add : List UInt8 → List (List UInt8) → List (List UInt8)}
    (hpushes : Pushes (makeRoom d) (push d) d.elemSize
      (fun d' => ⟨d'.buffer, slot d' * d'.elemSize⟩) w
      fun e d' w' => items d' w' = .ok (add e (d.elements bs))) :
    TakesOwn push add d w (d.place i) ↔ ¬ Releases d w := by
  obtain ⟨hkept, hreleases⟩ := makeRoom_ends h i slot
  rw [← hreleases]
  refine Iff.trans ?_ (pushLate_iff (p := d.place i) hpushes h.elem_pos hkept)
  constructor
  · intro htakes
    exact htakes _ _ (items_eq h).1 (read_place h i)
  · intro hall xs e hxs he
    cases hxs.symm.trans (items_eq h).1
    cases he.symm.trans (read_place h i)
    exact hall

/-- What `peekleft` or `peekback` returned is the place of an element. -/
theorem place_of_peek (h : Holds d w bs) {p : Ptr}
    (hp : peekleft d = .ok (some p) ∨ peekback d = .ok (some p)) : ∃ i, p = d.place i := by
  by_cases hzero : d.size = 0
  · rw [peekleft_of_empty hzero, peekback_of_empty h hzero] at hp
    simp at hp
  · have hpos : 0 < d.size := Nat.pos_of_ne_zero hzero
    rw [peekleft_of_pos h hpos, peekback_of_pos h hpos] at hp
    rcases hp with hp | hp
    · cases hp
      exact ⟨0, rfl⟩
    · cases hp
      exact ⟨d.size - 1, rfl⟩

end Deque

/-! ## Binary heaps -/

namespace BinaryHeap

variable {h : BinaryHeap} {w : Memory} {bs : List UInt8}

/-- A push of the element at this place adds it or fails, whatever the bytes of an ended
block are. -/
def TakesOwn (h : BinaryHeap) (w : Memory) (p : Ptr) : Prop :=
  ∀ xs e, Stored h w xs → w.read p.block p.offset h.root.elemSize = .ok e →
    ∀ junk, Sat (pushLate (Vector.makeRoom h.root) (push h) junk h.root.elemSize (.inside p) w)
      fun out => out.1.1 = .ok → ∃ ys, Stored out.1.2 out.2 ys ∧ ys.Perm (e :: xs)

theorem Stored.unique {xs ys : List (List UInt8)} (hx : Stored h w xs) (hy : Stored h w ys) :
    xs = ys := Vector.Stored.unique hx hy

theorem pushes (hh : Lies h w bs) :
    Pushes (Vector.makeRoom h.root) (push h) h.root.elemSize
      (fun v' => ⟨v'.buffer, v'.size * v'.elemSize⟩) w
      fun e h' w' => ∃ ys, Stored h' w' ys ∧ ys.Perm (e :: h.elements bs) where
  returns := (Vector.pushes hh.root).returns
  refused st v' w' element hroom hst hne := by
    obtain ⟨st', v₁, w₁, hroom', hres⟩ := Vector.makeRoom_spec hh.root
    cases hroom.symm.trans hroom'
    rcases hres with hfail | ⟨rfl, -⟩
    · obtain ⟨h', w'', hpush, -⟩ := push_of_root (e := []) hh hne
        (Vector.push_of_refused hroom hst hne) (.inl hfail)
      exact ⟨_, hpush, hst⟩
    · exact absurd rfl hst
  taken v' w' element e hroom he := by
    obtain ⟨st, v₁, w₁, hroom', hres⟩ := Vector.makeRoom_spec hh.root
    cases hroom.symm.trans hroom'
    rcases hres with ⟨hst, -⟩ | ⟨-, -, tail, -, -, hchanged⟩
    · exact absurd rfl hst
    rw [← hchanged.elemSize] at he
    obtain ⟨bs₁, w₂, hroot, hv, hsize, helements, hchanged₂, -⟩ :=
      Vector.push_of_room hh.root hroom he
    obtain ⟨h', w₃, hpush, hres⟩ := push_of_root hh he.ne_null hroot
      (.inr ⟨rfl, bs₁, hv, congrArg (· + 1) hsize, helements, hchanged₂⟩)
    rcases hres with ⟨hfail, -⟩ | ⟨-, -, -, bs', hh', -, hperm, -⟩
    · exact absurd rfl hfail
    · exact ⟨_, hpush, rfl, _, hh'.stored, hperm⟩
  unique e e' h' w' he he' := by
    obtain ⟨ys, hys, hperm⟩ := he
    obtain ⟨ys', hys', hperm'⟩ := he'
    obtain rfl := hys.unique hys'
    have heq : e ::ₘ (h.elements bs : Multiset (List UInt8)) = e' ::ₘ h.elements bs :=
      Multiset.coe_eq_coe.2 (hperm.symm.trans hperm')
    exact (Multiset.cons_inj_left _).1 heq

theorem takesOwn_iff (hh : Lies h w bs) {p : Ptr} (hp : peek h = .ok (some p)) :
    TakesOwn h w p ↔ ¬ Vector.Moves h.root w := by
  by_cases hzero : h.root.size = 0
  · rw [peek, if_pos hzero] at hp
    cases hp
  have hpos : 0 < h.root.size := Nat.pos_of_ne_zero hzero
  rw [peek, if_neg hzero, Vector.get_of_lt hh.root hpos] at hp
  cases hp
  obtain ⟨hkept, hmoves⟩ := Vector.makeRoom_ends hh.root hpos
  have hread : w.read h.root.buffer (0 * h.root.elemSize) h.root.elemSize =
      .ok (slot bs h.root.elemSize 0) :=
    Vector.deref_of_lt hh.root (hpos.trans_le hh.root.size_le)
  rw [← hmoves]
  refine Iff.trans ?_ (pushLate_iff (p := ⟨h.root.buffer, 0 * h.root.elemSize⟩) (pushes hh)
    hh.root.elem_pos hkept)
  constructor
  · intro htakes
    exact htakes _ _ hh.stored hread
  · intro hall xs e hxs he
    obtain rfl := hxs.unique hh.stored
    cases hread.symm.trans he
    exact hall

end BinaryHeap

/-! ## Every container -/

/-- **Pushing an element of the container itself.**  On every container that can be reached
and for every pointer that `get` or `peek` returns, a push adds a copy of the element that
was there or fails, whatever the bytes of an ended block are, exactly when it does not grow
a vector by moving its buffer, or a deque by releasing it. -/
theorem own_element {allocator : Option (Allocator Memory)}
    (hbacked : Backed (Allocator.copy allocator)) (w₀ : Memory) :
    (∀ elemSize capacity v w, Vector.Reachable elemSize capacity allocator w₀ (v, w) →
      ∀ i p, Vector.get v i = .ok (some p) → (Vector.TakesOwn v w p ↔ ¬ Vector.Moves v w)) ∧
    (∀ elemSize d w, Deque.Reachable elemSize allocator w₀ (d, w) →
      ∀ p, Deque.peekleft d = .ok (some p) ∨ Deque.peekback d = .ok (some p) →
        (Deque.TakesOwn Deque.push Deque.behind d w p ↔ ¬ Deque.Releases d w) ∧
        (Deque.TakesOwn Deque.pushfront List.cons d w p ↔ ¬ Deque.Releases d w)) ∧
    (∀ elemSize cmp h w, BinaryHeap.Reachable elemSize cmp allocator w₀ (h, w) →
      ∀ p, BinaryHeap.peek h = .ok (some p) →
        (BinaryHeap.TakesOwn h w p ↔ ¬ Vector.Moves h.root w)) := by
  refine ⟨fun elemSize capacity v w hreach i p hp => ?_, fun elemSize d w hreach p hp => ?_,
    fun elemSize cmp h w hreach p hp => ?_⟩
  · obtain ⟨bs, h⟩ := Vector.reachable_holds hbacked hreach
    dsimp only at h
    rcases Nat.lt_or_ge i v.size with hi | hi
    · rw [Vector.get_of_lt h hi] at hp
      cases hp
      exact Vector.takesOwn_iff h hi
    · cases hp.symm.trans (Vector.get_of_ge hi)
  · obtain ⟨bs, h⟩ := Deque.reachable_holds hbacked hreach
    obtain ⟨i, rfl⟩ := Deque.place_of_peek h hp
    exact ⟨Deque.takesOwn_iff h i (Deque.push_pushes h),
      Deque.takesOwn_iff h i (Deque.pushfront_pushes h)⟩
  · obtain ⟨bs, hh⟩ := BinaryHeap.reachable_lives hbacked hreach
    exact BinaryHeap.takesOwn_iff hh.lies hp

/-- A memory that grants every request and moves what it resizes. -/
def restless : Memory := .empty fun _ => some ⟨true, fun _ => 0⟩

/-- As many elements as a new deque has room for, with the first ones at the front. -/
def deepPushes : List Deque.Op :=
  (List.range 3).map (fun i => .pushfront (.outside [UInt8.ofNat i])) ++
    (List.range 13).map fun i => .push (.outside [UInt8.ofNat i])

/-- As many elements as a new heap has room for. -/
def heapPushes : List BinaryHeap.Op :=
  (List.range 16).map fun i => .push (.outside [UInt8.ofNat i])

/-- A full deque. -/
theorem deque_full : ∃ d w, Deque.Reachable 1 none restless (d, w) ∧ d.size = d.capacity ∧
    Sat (Deque.peekback d) fun p => p.isSome := by
  obtain ⟨d₀, w₀, hcreate⟩ : ∃ d w, Deque.create 1 none restless = .ok ((.ok, some d), w) :=
    ⟨_, _, rfl⟩
  have hrun : Sat (Deque.create 1 none restless) fun r => ∀ d, r.1.2 = some d →
      Sat (trace (Deque.container 1 none).step (d, r.2) deepPushes) fun p =>
        p.2.1.size = p.2.1.capacity ∧ Sat (Deque.peekback p.2.1) fun p => p.isSome := by
    refine ⟨_, rfl, ?_⟩
    rintro d hd
    cases hd
    decide +kernel
  obtain ⟨r, hr, hrun⟩ := hrun
  cases hcreate.symm.trans hr
  obtain ⟨⟨os, d, w⟩, htrace, hfull⟩ := hrun d₀ rfl
  exact ⟨d, w, .of_trace deepPushes (d₀, w₀) (d, w) os (.create hcreate)
    (along_of_forall (fun _ _ => trivial) _ _) htrace, hfull⟩

/-- A full heap. -/
theorem heap_full : ∃ h w, BinaryHeap.Reachable 1 none none restless (h, w) ∧
    h.root.size = h.root.capacity ∧ Sat (BinaryHeap.peek h) fun p => p.isSome := by
  obtain ⟨h₀, w₀, hcreate⟩ : ∃ h w,
      BinaryHeap.create 1 none none restless = .ok ((.ok, some h), w) := ⟨_, _, rfl⟩
  have hrun : Sat (BinaryHeap.create 1 none none restless) fun r => ∀ h, r.1.2 = some h →
      Sat (trace (BinaryHeap.container 1 none none).step (h, r.2) heapPushes) fun p =>
        p.2.1.root.size = p.2.1.root.capacity ∧ Sat (BinaryHeap.peek p.2.1) fun p => p.isSome := by
    refine ⟨_, rfl, ?_⟩
    rintro h hh
    cases hh
    decide +kernel
  obtain ⟨r, hr, hrun⟩ := hrun
  cases hcreate.symm.trans hr
  obtain ⟨⟨os, h, w⟩, htrace, hfull⟩ := hrun h₀ rfl
  have hpushes : Along (BinaryHeap.container 1 none none).step BinaryHeap.Op.Indexed (h₀, w₀)
      heapPushes := by
    refine (along_of_mem heapPushes _ fun c hc => List.mem_map.1 hc).mono ?_
    rintro s _ ⟨i, -, rfl⟩
    trivial
  exact ⟨h, w, .of_trace heapPushes (h₀, w₀) (h, w) os (.create hcreate) hpushes htrace, hfull⟩

/-- A vector with room for one element, which it has, a full deque and a full heap. -/
theorem own_element_full :
    (∃ v w p, Vector.Reachable 1 1 none restless (v, w) ∧ v.size = v.capacity ∧
      Vector.get v 0 = .ok (some p) ∧ (Vector.TakesOwn v w p ↔ ¬ Vector.Moves v w)) ∧
    (∃ d w p, Deque.Reachable 1 none restless (d, w) ∧ d.size = d.capacity ∧
      Deque.peekback d = .ok (some p) ∧
      (Deque.TakesOwn Deque.push Deque.behind d w p ↔ ¬ Deque.Releases d w) ∧
      (Deque.TakesOwn Deque.pushfront List.cons d w p ↔ ¬ Deque.Releases d w)) ∧
    (∃ h w p, BinaryHeap.Reachable 1 none none restless (h, w) ∧
      h.root.size = h.root.capacity ∧ BinaryHeap.peek h = .ok (some p) ∧
      (BinaryHeap.TakesOwn h w p ↔ ¬ Vector.Moves h.root w)) := by
  have hbacked : Backed (Allocator.copy none) := .default _
  refine ⟨?_, ?_, ?_⟩
  · have hfull : ∃ v w, Vector.Reachable 1 1 none restless (v, w) ∧ v.size = v.capacity ∧
        Sat (Vector.get v 0) fun p => p.isSome := by
      refine ⟨_, _, .call (c := .push (.outside [7])) (.create rfl) trivial rfl, ?_⟩
      decide
    obtain ⟨v, w, hreach, hsize, p, hget, hp⟩ := hfull
    obtain ⟨p, rfl⟩ := Option.isSome_iff_exists.1 hp
    exact ⟨v, w, p, hreach, hsize, hget,
      (own_element hbacked restless).1 1 1 v w hreach 0 p hget⟩
  · obtain ⟨d, w, hreach, hsize, p, hpeek, hp⟩ := deque_full
    obtain ⟨p, rfl⟩ := Option.isSome_iff_exists.1 hp
    exact ⟨d, w, p, hreach, hsize, hpeek,
      (own_element hbacked restless).2.1 1 d w hreach p (.inr hpeek)⟩
  · obtain ⟨h, w, hreach, hsize, p, hpeek, hp⟩ := heap_full
    obtain ⟨p, rfl⟩ := Option.isSome_iff_exists.1 hp
    exact ⟨h, w, p, hreach, hsize, hpeek,
      (own_element hbacked restless).2.2 1 none h w hreach p hpeek⟩

/-- The vector pushes its only element, and adds what is left of the old buffer. -/
theorem own_element_stale : ∃ v w p, Vector.Reachable 1 1 none restless (v, w) ∧
    Vector.get v 0 = .ok (some p) ∧ w.read p.block p.offset 1 = .ok [7] ∧
    Sat (pushLate (Vector.makeRoom v) (Vector.push v) (fun _ _ => 0) 1 (.inside p) w) (fun out =>
      out.1.1 = .ok ∧ out.1.2.elemSize = 1 ∧ out.2.read out.1.2.buffer 1 1 = .ok [0]) ∧
    ¬ Vector.TakesOwn v w p := by
  obtain ⟨v, w, hreach, hsize, hbuffer, helem, hread, hlate⟩ : ∃ v w,
      Vector.Reachable 1 1 none restless (v, w) ∧ v.size = 1 ∧ v.buffer = 2 ∧ v.elemSize = 1 ∧
      w.read 2 0 1 = .ok [7] ∧
      Sat (pushLate (Vector.makeRoom v) (Vector.push v) (fun _ _ => 0) 1 (.inside ⟨2, 0⟩) w)
        (fun out => out.1.1 = .ok ∧ out.1.2.elemSize = 1 ∧
          out.2.read out.1.2.buffer 1 1 = .ok [0]) :=
    ⟨_, _, .call (c := .push (.outside [7])) (.create rfl) trivial rfl, rfl, rfl, rfl, rfl,
      by decide⟩
  refine ⟨v, w, ⟨2, 0⟩, hreach, ?_, hread, hlate, fun htakes => ?_⟩
  · rw [Vector.get, hsize, if_neg (by decide), Vector.elementAt, helem, hbuffer]
    rfl
  · have hstored : Vector.Stored v w [[7]] := by
      refine ⟨hsize, fun i x hx => ?_⟩
      cases i with
      | zero =>
        cases hx
        rw [hbuffer, helem]
        exact hread
      | succ i => cases hx
    obtain ⟨out, hpush, hok, hone, hzero⟩ := hlate
    rw [← helem] at hpush hread
    obtain ⟨out', hpush', htaken⟩ := htakes [[7]] [7] hstored hread fun _ _ => 0
    cases hpush.symm.trans hpush'
    have hseven := (htaken hok).2 1 [7] rfl
    rw [hone, hzero] at hseven
    cases hseven

end K4c
