import Mathlib.Tactic
import K4c.Mem.HeapRuns
import K4c.Mem.Ram
import K4c.Mem.TestAllocator

/-!
# Allocators that can stand in for each other

The general heap and the test allocator advertise the same features, and the
default allocator does the same work through libc.

* `Heap.conforms` — the heap keeps the contract of every other allocator, but it
  does not take `NULL` back.
* `interchangeable` — a client that never releases `NULL` cannot tell which of them
  it runs over, as long as no request is refused; `null_release_panics` is the run
  that tells the heap from the others.
-/

namespace K4c

open Exec Runs

/-! ## The heap behind the contract -/

namespace Heap

open Backend Words

variable [Platform]

/-- The operations of the heap, by the names of libc. -/
def operations : Libc Heap := ⟨vtableAlloc, vtableRealloc, vtableDealloc⟩

/-- The memory that its buffer is part of. -/
def window : Window Heap where
  read h addr := h.mem addr
  write h addr bytes := { h with mem := poke h.mem addr bytes }

/-- A heap whose blocks in use are the live allocations. -/
def Serving (h : Heap) (live : Live) : Prop := ∃ bs, Client.Inv ⟨h, live⟩ bs

theorem reaches (libc : Libc Heap) : Reaches libc (some allocatorView) operations where
  alloc _ _ := rfl
  resize _ _ size hsize := by
    rw [Allocator.resize, if_neg hsize]
    rfl
  dealloc _ _ := rfl

variable {h h' : Heap} {live : Live} {bs : List Block} {p k size : ℕ}

/-- The payload of a free block is not live. -/
theorem not_live_of_free {pre post : List Block} {b : Block}
    (hi : Client.Inv ⟨h, live⟩ (pre ++ b :: post)) (hb : b.isFree = true) :
    live (stop h.buffer pre + headerSize) = none := by
  by_contra hlive
  obtain ⟨n, hn⟩ := Option.ne_none_iff_exists'.1 hlive
  obtain ⟨t, ht, -⟩ := hi.serves.granted _ n hn
  rw [used_middle_of_free hb] at ht
  -- in use, the block would be there twice
  have honce := used_middle (b := ⟨b.size, false⟩) rfl h.buffer pre post
  exact used_once honce t ht

theorem serving_null (hi : Client.Inv ⟨h, live⟩ bs) : live 0 = none := by
  by_contra hlive
  obtain ⟨n, hn⟩ := Option.ne_none_iff_exists'.1 hlive
  obtain ⟨t, ht, -⟩ := hi.serves.granted 0 n hn
  obtain ⟨q, -, hq⟩ := mem_used.1 ht
  unfold headerSize at hq
  omega

/-- The pointer that `k4c_heap_vtable_alloc` hands out was not live. -/
theorem fresh_of_allocated {n : ℕ} (hi : Client.Inv ⟨h, live⟩ bs)
    (ha : Allocated h bs n p h') : live p = none := by
  cases ha with
  | none _ => exact serving_null hi
  | some hbs _ hfit hp _ =>
    subst hbs hp
    exact not_live_of_free hi hfit.1

/-- The pointer that `k4c_heap_vtable_realloc` hands out was not live, if it is
another one. -/
theorem fresh_of_reallocated {pre post : List Block} {b : Block} {n : ℕ}
    (hi : Client.Inv ⟨h, live⟩ (pre ++ b :: post)) (hr : Reallocated h pre b post n p h')
    (hp : p ≠ stop h.buffer pre + headerSize) : live p = none := by
  cases hr with
  | shrunk _ heq _ => exact absurd heq hp
  | grown _ _ _ _ heq _ => exact absurd heq hp
  | failed _ _ _ => exact serving_null hi
  | moved _ _ hbs _ hfit _ _ heq _ _ _ _ _ =>
    rw [hbs] at hi
    rw [heq]
    exact not_live_of_free hi hfit.1

omit [Platform] in
/-- What a call of the heap's own client leaves alone is kept here. -/
theorem keeps_of_preserves {s s' : Client} {c : Call} {ans : Status × ℕ}
    (hp : Client.Preserves s c ans s') {live₁ : Live}
    (hlive : ∀ q m, live₁ q = some m → s.live q = some m ∧ c.target ≠ some q) :
    Keeps window live₁ s.heap s'.heap := by
  intro q m hq i hi
  obtain ⟨hs, ht⟩ := hlive q m hq
  exact (hp.others q m hs ht).2 i hi

/-- `k4c_heap_vtable_alloc`. -/
theorem handed_vtableAlloc (hi : Client.Inv ⟨h, live⟩ bs) (hsize : 0 < size) :
    Sat (vtableAlloc h size) (Handed window Serving h live size) := by
  obtain ⟨⟨p, h'⟩, halloc, hp⟩ := vtableAlloc_spec hi.holds hsize
  obtain ⟨r, hr, bs', hi', -, -, hpres, -⟩ :
      Sat (Client.step .exhausted ⟨h, live⟩ (.alloc size)) _ := Client.step_alloc hi hsize
  have hfresh : live p = none := by
    rcases hp with ⟨-, heq⟩ | ⟨n, -, hp⟩
    · cases heq
      exact serving_null hi
    · exact fresh_of_allocated hi hp
  -- the client's call is this one
  change (vtableAlloc h size >>= (fun res => .ok (Allocator.answer res)) >>= _) = _ at hr
  rw [halloc, ok_bind, ok_bind] at hr
  rw [halloc]
  by_cases hp0 : p = 0
  · subst hp0
    cases hr
    have hsame : h' = h := congrArg Client.heap (hpres.failed (by simp))
    subst hsame
    exact Sat.ok (.refused ⟨bs, hi⟩ fun _ _ _ _ _ => rfl)
  · rw [Allocator.answer, if_neg hp0] at hr
    cases hr
    exact Sat.ok (.granted hp0 hfresh ⟨bs', hi'⟩
      (keeps_of_preserves hpres fun q m hq => ⟨hq, by simp [Heap.Call.target]⟩))

omit [Platform] in
/-- The live blocks other than `p` are not the target of a call about `p`. -/
theorem other_of_update {c : Call} (hc : c.target = some p) {q m : ℕ}
    (hq : Function.update live p none q = some m) : live q = some m ∧ c.target ≠ some q := by
  have hqp : q ≠ p := by
    rintro rfl
    rw [Function.update_self] at hq
    cases hq
  rw [Function.update_of_ne hqp] at hq
  exact ⟨hq, fun h => hqp (Option.some.inj (h.symm.trans hc))⟩

/-- `k4c_heap_vtable_realloc` of a live block. -/
theorem resized_vtableRealloc (hi : Client.Inv ⟨h, live⟩ bs) (hlive : live p = some k)
    (hsize : 0 < size) :
    Sat (vtableRealloc h p size) (Resized window Serving h live p k size) := by
  have hne : live p ≠ none := by simp [hlive]
  obtain ⟨r, hr, bs', hi', -, -, hpres, -⟩ :
      Sat (Client.step .exhausted ⟨h, live⟩ (.resize p size)) _ := Client.step_resize hi hne
  obtain ⟨pre, b, post, rfl, rfl, hb, -⟩ := hi.block hlive
  obtain ⟨⟨q, h'⟩, hrealloc, hq⟩ := vtableRealloc_spec hi.holds hb hsize
  dsimp only at hrealloc hq hlive hne hpres hr
  have hfresh : Function.update live (stop h.buffer pre + headerSize) none q = none := by
    by_cases hqp : q = stop h.buffer pre + headerSize
    · rw [hqp, Function.update_self]
    rw [Function.update_of_ne hqp]
    rcases hq with ⟨-, heq⟩ | ⟨n, -, hq⟩
    · cases heq
      exact serving_null hi
    · exact fresh_of_reallocated hi hq hqp
  rw [Client.step, Client.resize_answer _ hsize.ne' hrealloc, ok_bind] at hr
  rw [hrealloc]
  by_cases hq0 : q = 0
  · subst hq0
    cases hr
    have hsame : h' = h := congrArg Client.heap (hpres.failed (by simp))
    subst hsame
    exact Sat.ok (.refused ⟨_, hi⟩ fun _ _ _ _ _ => rfl)
  · rw [Allocator.answer, if_neg hq0] at hr
    simp only [ne_eq, not_true_eq_false, if_false, hsize.ne', pure_eq_ok, Except.ok.injEq] at hr
    subst hr
    exact Sat.ok (.granted hq0 hfresh ⟨bs', hi'⟩
      (keeps_of_preserves hpres fun _ _ => other_of_update rfl)
      (hpres.resized _ size k rfl rfl hlive))

/-- **The heap conforms.** -/
theorem conforms : Conforms window Serving operations where
  null h live := by
    rintro ⟨bs, hi⟩
    exact serving_null hi
  malloc h live size := by
    rintro ⟨bs, hi⟩ hsize
    exact handed_vtableAlloc hi hsize
  realloc_null h live size := by
    rintro ⟨bs, hi⟩ hsize
    change Sat (vtableRealloc h 0 size) _
    rw [vtableRealloc, check_of (by have := hi.holds.buffer_pos; dsimp only at this; omega),
      ok_bind, if_pos rfl]
    exact handed_vtableAlloc hi hsize
  realloc h live p k size := by
    rintro ⟨bs, hi⟩ hlive hsize
    exact resized_vtableRealloc hi hlive hsize
  free h live p := by
    rintro ⟨bs, hi⟩ hlive
    obtain ⟨r, hr, bs', hi', -, -, hpres, -⟩ :
        Sat (Client.step .exhausted ⟨h, live⟩ (.dealloc p)) _ := Client.step_dealloc hi hlive
    obtain ⟨h', hdealloc, hpure⟩ := bind_eq_ok.1 hr
    cases hpure
    exact ⟨h', hdealloc, ⟨bs', hi'⟩, keeps_of_preserves hpres fun _ _ => other_of_update rfl⟩
  write h live p k offset bytes := by
    rintro ⟨bs, hi⟩ hlive hle
    obtain ⟨r, hr, bs', hi', -, -, hpres, -⟩ :
        Sat (Client.step .exhausted ⟨h, live⟩ (.write p offset bytes)) _ :=
      Client.step_write hi hlive hle
    cases hr
    refine ⟨⟨bs', hi'⟩, keeps_of_preserves hpres fun _ _ => other_of_update rfl, fun i _ => ?_⟩
    simp only [window, poke, Nat.add_le_add_iff_left, Nat.add_sub_add_left]

end Heap

/-! ## Interchange -/

namespace Backend

section Runs

variable {ν ν₁ ν₂ : Type}

/-- What a client may compare of an answer: the status, and whether it got `NULL`. -/
def seen (answers : List (Status × ℕ)) : List (Status × Bool) :=
  answers.map fun a => (a.1, decide (a.2 = 0))

/-- What the calls leave in the variables when none is refused. -/
def contents (calls : List Call) : Store := calls.foldl Call.effect fun _ => none

/-- Two runs of the same calls agree: on every answer, and on every byte that the
calls have written and preserved. -/
structure Agree (view₁ : Window ν₁) (view₂ : Window ν₂) (calls : List Call)
    (r₁ : List (Status × ℕ) × Client ν₁) (r₂ : List (Status × ℕ) × Client ν₂) : Prop where
  answers : seen r₁.1 = seen r₂.1
  left : Shows view₁ r₁.2 (contents calls)
  right : Shows view₂ r₂.2 (contents calls)

/-- No call of a run was refused. -/
def Granted (answers : List (Status × ℕ)) : Prop := ∀ a ∈ answers, a.1 ≠ .noMemory

/-- A run in which nothing is refused is determined by its calls. -/
theorem granted_run {view : Window ν} {calls : List Call}
    {r : List (Status × ℕ) × Client ν} (hgranted : Granted r.1)
    (h : ∃ store', Follows Call.Answers (fun _ => none) calls r.1 store' ∧ Shows view r.2 store') :
    seen r.1 = calls.map (fun c => (.ok, c.givesNull)) ∧ Shows view r.2 (contents calls) := by
  obtain ⟨store', hfollows, hshows⟩ := h
  obtain ⟨rfl, hanswers⟩ := follows_of_ok hfollows hgranted
  exact ⟨hanswers, hshows⟩

/-- A run over operations that take `NULL` back returns. -/
theorem run_of_freesNull {view : Window ν} {serves : ν → Live → Prop} {libc ops : Libc ν}
    {a : Option (Allocator ν)} (hreach : Reaches libc a ops) (hops : Conforms view serves ops)
    (hnull : FreesNull view serves ops) {w : ν} (hw : serves w fun _ => none)
    {calls : List Call} (hv : Along (Client.step libc a view) Client.Valid (.start w) calls) :
    Sat (trace (Client.step libc a view) (.start w) calls) fun r =>
      ∃ store', Follows Call.Answers (fun _ => none) calls r.1 store' ∧ Shows view r.2 store' :=
  run_spec hreach hops (inv_start hw) hv (along_of_forall (fun _ _ => .inr hnull) calls _)

end Runs

/-- The default allocator is libc. -/
theorem reaches_default {ν : Type} (libc : Libc ν) : Reaches libc none libc where
  alloc _ _ := rfl
  resize _ _ size hsize := by
    rw [Allocator.resize, if_neg hsize]
    rfl
  dealloc _ _ := rfl

/-! ### The three allocators -/

/-- The client over libc. -/
abbrev defaultStep {ν : Type} (libc : Libc ν) (view : Window ν) := Client.step libc none view

/-- The client over the test allocator. -/
abbrev testStep {ν : Type} (unused : Libc (TestAllocator ν)) (libc : Libc ν) (view : Window ν) :=
  Client.step unused (some (TestAllocator.allocatorView libc)) (TestAllocator.window view)

section HeapRuns

variable [Platform]

/-- The client over a general heap. -/
abbrev heapStep (unused : Libc Heap) :=
  Client.step unused (some Heap.allocatorView) Heap.window

variable {unused : Libc Heap} {h : Heap} {calls : List Call}

/-- A call that releases `NULL` stops the client of a heap. -/
theorem nonNull_of_step {s : Client Heap} {c : Call} {r : (Status × ℕ) × Client Heap}
    (h : heapStep unused s c = .ok r) : s.NonNull c := by
  cases c with
  | alloc x size => trivial
  | write x offset bytes => trivial
  | dealloc x =>
    intro hx
    rw [heapStep, Client.step, Client.pointer, hx] at h
    cases h
  | resize x size =>
    intro hsize hx
    subst hsize
    rw [heapStep, Client.step, Client.pointer, hx] at h
    cases h

/-- A run over a heap that releases no `NULL` returns. -/
theorem run_of_nonNull (hserving : Heap.Serving h fun _ => none)
    (hv : Along (heapStep unused) Client.Valid (.start h) calls)
    (hnon : Along (heapStep unused) Client.NonNull (.start h) calls) :
    Sat (trace (heapStep unused) (.start h) calls) fun r =>
      ∃ store', Follows Call.Answers (fun _ => none) calls r.1 store' ∧
        Shows Heap.window r.2 store' :=
  run_spec (Heap.reaches unused) Heap.conforms (inv_start hserving) hv (hnon.mono fun _ _ => .inl)

/-- A run over a heap returns exactly when it releases no `NULL`. -/
theorem heap_returns_iff (hserving : Heap.Serving h fun _ => none)
    (hv : Along (heapStep unused) Client.Valid (.start h) calls) :
    (∃ r, trace (heapStep unused) (.start h) calls = .ok r) ↔
      Along (heapStep unused) Client.NonNull (.start h) calls := by
  constructor
  · rintro ⟨r, hr⟩
    exact along_of_trace (fun _ _ _ hstep => nonNull_of_step hstep) calls _ r hr
  · intro hnon
    obtain ⟨r, hr, -⟩ := run_of_nonNull hserving hv hnon
    exact ⟨r, hr⟩

/-- A run over a heap and a run of the same calls that follows what the client sees
agree as long as no request is refused. -/
theorem agree_of_runs {ν : Type} {view : Window ν} (hserving : Heap.Serving h fun _ => none)
    (hv : Along (heapStep unused) Client.Valid (.start h) calls)
    {x : Result (List (Status × ℕ) × Client ν)}
    (hx : Sat x fun r => ∃ store', Follows Call.Answers (fun _ => none) calls r.1 store' ∧
      Shows view r.2 store') :
    Sat x fun r₂ => ∀ r₁, trace (heapStep unused) (.start h) calls = .ok r₁ →
      Granted r₁.1 → Granted r₂.1 → Agree Heap.window view calls r₁ r₂ := by
  refine hx.mono fun r₂ hr₂ r₁ hr₁ hg₁ hg₂ => ?_
  obtain ⟨r, hr, hfollows⟩ :=
    run_of_nonNull hserving hv ((heap_returns_iff hserving hv).1 ⟨r₁, hr₁⟩)
  rw [hr₁] at hr
  cases hr
  obtain ⟨hans₁, hshows₁⟩ := granted_run hg₁ hfollows
  obtain ⟨hans₂, hshows₂⟩ := granted_run hg₂ hr₂
  exact ⟨hans₁.trans hans₂.symm, hshows₁, hshows₂⟩

/-- **Allocators can stand in for each other.**  A client runs over a general heap,
over a test allocator, or over libc.  The run over the heap returns exactly when it
releases no `NULL`, and those over the other two always return; as long as no
request is refused, the answers and the preserved bytes are the same. -/
theorem interchangeable {ν ω : Type} (libc₀ : Libc ν) (hplaced : libc₀.Placed) (mem : Words.Memory)
    (w₀ w₀' : ν) (capacity : ℕ) (st : Status) (h : Heap)
    (hc : Heap.create libc₀ mem w₀ capacity = .ok ((st, some h), w₀'))
    (libc : Libc ω) (view : Window ω) (serves : ω → Live → Prop)
    (hlibc : Conforms view serves libc) (hnull : FreesNull view serves libc)
    (w : ω) (hw : serves w fun _ => none)
    (t : TestAllocator ω) (ht : serves t.memory fun _ => none)
    (unused : Libc Heap) (unused' : Libc (TestAllocator ω)) (calls : List Call)
    (hv : Along (heapStep unused) Client.Valid (.start h) calls) :
    ((∃ r, trace (heapStep unused) (.start h) calls = .ok r) ↔
      Along (heapStep unused) Client.NonNull (.start h) calls) ∧
    (Along (testStep unused' libc view) Client.Valid (.start t) calls →
      Sat (trace (testStep unused' libc view) (.start t) calls) fun r₂ =>
        ∀ r₁, trace (heapStep unused) (.start h) calls = .ok r₁ → Granted r₁.1 → Granted r₂.1 →
          Agree Heap.window (TestAllocator.window view) calls r₁ r₂) ∧
    (Along (defaultStep libc view) Client.Valid (.start w) calls →
      Sat (trace (defaultStep libc view) (.start w) calls) fun r₂ =>
        ∀ r₁, trace (heapStep unused) (.start h) calls = .ok r₁ → Granted r₁.1 → Granted r₂.1 →
          Agree Heap.window view calls r₁ r₂) := by
  have hserving : Heap.Serving h fun _ => none := ⟨_, Heap.Client.inv_start hplaced hc⟩
  refine ⟨heap_returns_iff hserving hv, fun hvt => ?_, fun hvd => ?_⟩
  · exact agree_of_runs hserving hv (run_of_freesNull (TestAllocator.reaches libc unused')
      (TestAllocator.conforms hlibc) (TestAllocator.freesNull libc) ht hvt)
  · exact agree_of_runs hserving hv
      (run_of_freesNull (reaches_default libc) hlibc hnull hw hvd)

end HeapRuns

section Lp64

local instance : Platform := lp64

/-- What a client does that never releases `NULL`. -/
def roundTrip : List Call :=
  [.alloc 0 16, .write 0 3 [7, 8], .resize 1 40, .resize 0 64, .dealloc 1, .resize 0 0]

theorem interchangeable_roundTrip : ∃ st h w,
    Heap.create Libc.bump (fun _ => 0) 1 256 = .ok ((st, some h), w) ∧
    ((∃ r, trace (heapStep .exhausted) (.start h) roundTrip = .ok r) ↔
      Along (heapStep .exhausted) Client.NonNull (.start h) roundTrip) ∧
    (Along (testStep .exhausted Ram.libc Ram.window) Client.Valid (.start (.init Ram.empty))
        roundTrip →
      Sat (trace (testStep .exhausted Ram.libc Ram.window) (.start (.init Ram.empty)) roundTrip)
        fun r₂ => ∀ r₁, trace (heapStep .exhausted) (.start h) roundTrip = .ok r₁ →
          Granted r₁.1 → Granted r₂.1 →
          Agree Heap.window (TestAllocator.window Ram.window) roundTrip r₁ r₂) ∧
    (Along (defaultStep Ram.libc Ram.window) Client.Valid (.start Ram.empty) roundTrip →
      Sat (trace (defaultStep Ram.libc Ram.window) (.start Ram.empty) roundTrip) fun r₂ =>
        ∀ r₁, trace (heapStep .exhausted) (.start h) roundTrip = .ok r₁ → Granted r₁.1 →
          Granted r₂.1 → Agree Heap.window Ram.window roundTrip r₁ r₂) := by
  obtain ⟨st, h, w, hc, hcheck⟩ :=
    exists_of_check (r := Heap.create Libc.bump (fun _ => 0) 1 256)
      (f := fun h => checkAlong (heapStep .exhausted) Client.Valid (.start h) roundTrip)
      (by decide +kernel)
  exact ⟨st, h, w, hc, interchangeable Libc.bump Libc.bump_placed (fun _ => 0) 1 w 256 st h hc
    Ram.libc Ram.window Ram.Serves Ram.conforms Ram.freesNull Ram.empty Ram.serves_empty
    (.init Ram.empty) Ram.serves_empty .exhausted .exhausted roundTrip (along_of_check hcheck)⟩

/-- A client that releases `NULL`: a heap stops it, the test allocator and libc go on. -/
theorem null_release_panics : ∃ st h w,
    Heap.create Libc.bump (fun _ => 0) 1 256 = .ok ((st, some h), w) ∧
    Along (heapStep .exhausted) Client.Valid (.start h) [.dealloc 0] ∧
    trace (heapStep .exhausted) (.start h) [.dealloc 0] =
      .error (.panic "fatal: k4c_heap_dealloc invalid arguments") ∧
    (∃ r, trace (testStep .exhausted Ram.libc Ram.window) (.start (.init Ram.empty))
      [.dealloc 0] = .ok r ∧ r.1 = [(.ok, 0)]) ∧
    ∃ r, trace (defaultStep Ram.libc Ram.window) (.start Ram.empty) [.dealloc 0] = .ok r ∧
      r.1 = [(.ok, 0)] := by
  obtain ⟨st, h, w, hc, -⟩ :=
    exists_of_check (r := Heap.create Libc.bump (fun _ => 0) 1 256)
      (f := fun _ => true) (by decide +kernel)
  exact ⟨st, h, w, hc, ⟨trivial, fun _ _ h => by cases h⟩, rfl, ⟨_, rfl, rfl⟩, ⟨_, rfl, rfl⟩⟩

end Lp64

end Backend
end K4c
