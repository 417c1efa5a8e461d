import Mathlib.Tactic
import K4c.Datastruct.Kinds
import K4c.Lib.ObjectPrograms
import K4c.Mem.Programmed

/-!
# The containers are programs of requests

Vectors, deques, strings and binary heaps do nothing with their memory but allocate,
resize, release, read and write.  Each of their calls is the run of a program of requests,
whatever the state of the memory is.

* `Usable` — what a handle needs for that: the blocks it names are not `NULL`, and its
  allocator is the one that the requests go to.
* `createOwner_calls`, `destroyBuffered_writes` — the shape of the constructors and of the
  destructors.
* `Container.Typed.byRequests` — a container whose operations are programs is a kind of
  objects that are programs.
* `Vector.byRequests`, `Deque.byRequests`, `StringHeader.byRequests`,
  `BinaryHeap.byRequests` — the kinds.
-/

namespace K4c

open Exec Blocks Programs Backend Objects

/-! ## Constructors and destructors -/

section Owners

variable {ρ : Type} {P : ρ → Prop} {n self buffer : ℕ}

/-- A constructor whose second part is a program is one. -/
theorem createOwner_calls (hsize : 0 < n)
    {payload : Allocator Memory → Memory → Result ((Status × ρ) × Memory)}
    (hpayload : Calls serve (fun r => r.1 = .ok → P r.2) (payload blockAllocator)) :
    Calls serve (fun r => ∀ x, r.2 = some x → x.1 ≠ 0 ∧ P x.2)
      (createOwner n payload (some blockAllocator) (some blockAllocator)) := by
  unfold createOwner
  refine (alloc_calls hsize).bind fun r hself => ?_
  obtain ⟨st, self⟩ := r
  refine Programmed.cond (fun _ => Calls.done fun _ h => by cases h) fun hst => ?_
  replace hself : self ≠ 0 := hself (not_not.1 hst)
  refine hpayload.bind fun r howned => ?_
  obtain ⟨st', owned⟩ := r
  refine Programmed.cond (fun _ => ?_) fun hst' => ?_
  · exact (dealloc_writes hself).bind fun _ _ => Calls.done fun _ h => by cases h
  · refine Calls.done fun x hx => ?_
    cases hx
    exact ⟨hself, howned (not_not.1 hst')⟩

theorem destroyBuffered_writes (hself : self ≠ 0) (hbuffer : buffer ≠ 0) :
    Writes serve (destroyBuffered blockAllocator self buffer) :=
  (dealloc_writes hbuffer).bind fun _ _ => dealloc_writes hself

end Owners

/-- The kind of a container, by what its operations do. -/
theorem Container.Typed.byRequests {σ C : Type} {K : Container σ C} (T : K.Typed)
    {Usable : σ → Prop}
    (hcreate : Calls serve (fun r : Status × Option σ => ∀ h, r.2 = some h → Usable h) K.create)
    (hstep : ∀ h c, Usable h → Answers serve Usable fun w => T.step (h, w) c)
    (hdestroy : ∀ h, Usable h → Writes serve (K.destroy h))
    (hallowed : ∀ h w w' c, T.Allowed (h, w) c → T.Allowed (h, w') c) :
    T.kind.ByRequests serve Usable where
  create := hcreate.bind fun _ hr => Calls.done hr
  step := hstep
  destroy := hdestroy
  allowed := hallowed

/-- The items of an iterator that are read one after the other. -/
theorem Iterator.forEach_reads {σ : Type} (callback : σ → Result (Option Ptr × σ)) (n fuel : ℕ)
    (iter : Iterator σ) :
    Reads serve (fun _ => True) fun w => Iterator.forEach callback w n fuel iter := by
  refine Reads.loop (fun s => ?_) fuel ([], iter)
  refine Reads.lift fun r _ => ?_
  obtain ⟨item, iter⟩ := r
  cases item with
  | none => exact Reads.done trivial
  | some p => exact Reads.read (read_reads ..) fun _ _ => Reads.done trivial

/-! ## Vectors -/

namespace Vector

/-- The blocks of the handle are there to be released, and its elements have a size. -/
structure Usable (v : Vector) : Prop where
  allocator : v.allocator = blockAllocator
  self : v.self ≠ 0
  buffer : v.buffer ≠ 0
  elemSize : 0 < v.elemSize

variable {v : Vector} {elemSize capacity : ℕ}

theorem createWithCapacity_calls (elemSize capacity : ℕ) :
    Calls serve (fun r => ∀ v, r.2 = some v → Usable v)
      (createWithCapacity elemSize capacity (some blockAllocator)) := by
  unfold createWithCapacity
  refine Programmed.lift fun _ helem => Programmed.lift fun _ hcap => ?_
  replace helem := check_eq_ok.1 helem
  replace hcap := check_eq_ok.1 hcap
  cases hmul : sizeMulOverflow elemSize capacity with
  | none => exact Calls.done fun _ h => by cases h
  | some allocSize =>
    have hsize : 0 < allocSize := by
      rw [← (sizeMulOverflow_eq_some.1 hmul).1]
      positivity
    refine (createOwner_calls (P := (· ≠ 0)) (by decide) (alloc_calls hsize)).bind fun r hr => ?_
    obtain ⟨st, out⟩ := r
    refine Calls.done fun v hv => ?_
    obtain ⟨x, rfl, rfl⟩ := Option.map_eq_some_iff.1 hv
    obtain ⟨hself, hbuffer⟩ := hr x rfl
    exact ⟨rfl, hself, hbuffer, helem⟩

theorem destroy_writes (hv : Usable v) : Writes serve (destroy v) := by
  unfold destroy
  rw [hv.allocator]
  exact destroyBuffered_writes hv.self hv.buffer

theorem reserve_calls (hv : Usable v) (capacity : ℕ) :
    Calls serve (fun r => Usable r.2) (reserve v capacity) := by
  unfold reserve
  refine Programmed.cond (fun _ => Calls.done hv) fun hlt => ?_
  cases hmul : sizeMulOverflow capacity v.elemSize with
  | none => exact Calls.done hv
  | some allocSize =>
    have hsize : 0 < allocSize := by
      rw [← (sizeMulOverflow_eq_some.1 hmul).1]
      exact Nat.mul_pos (by omega) hv.elemSize
    rw [hv.allocator]
    refine (resize_calls v.buffer hsize).bind fun r hbuffer => ?_
    obtain ⟨st, buffer⟩ := r
    refine Programmed.cond (fun _ => Calls.done hv) fun hst => Calls.done ?_
    exact ⟨rfl, hv.self, hbuffer (not_not.1 hst), hv.elemSize⟩

theorem makeRoom_calls (hv : Usable v) : Calls serve (fun r => Usable r.2) (makeRoom v) := by
  unfold makeRoom
  refine Programmed.cond (fun _ => ?_) fun _ => Calls.done hv
  cases sizeAddOverflow v.size 1 with
  | none => exact Calls.done hv
  | some minCapacity =>
    refine Programmed.lift fun r _ => ?_
    obtain ⟨st, newCapacity⟩ := r
    exact Programmed.cond (fun _ => Calls.done hv) fun _ => reserve_calls hv newCapacity

theorem push_calls (hv : Usable v) (element : Arg) :
    Calls serve (fun r => Usable r.2) (push v element) := by
  unfold push
  refine Programmed.lift fun _ _ => (makeRoom_calls hv).bind fun r hv => ?_
  obtain ⟨st, v⟩ := r
  replace hv : Usable v := hv
  refine Programmed.cond (fun _ => Calls.done hv) fun _ => Programmed.lift fun dst _ => ?_
  refine (memcpy_writes dst element v.elemSize).bind fun _ _ => Programmed.lift fun size _ => ?_
  exact Calls.done ⟨hv.allocator, hv.self, hv.buffer, hv.elemSize⟩

theorem usable_of_pop {p : Option Ptr} {v' : Vector} (hv : Usable v)
    (h : pop v = .ok (p, v')) : Usable v' := by
  unfold pop at h
  split at h
  · cases h
    exact hv
  · obtain ⟨size, -, h⟩ := bind_eq_ok.1 h
    obtain ⟨slot, -, h⟩ := bind_eq_ok.1 h
    cases h
    exact ⟨hv.allocator, hv.self, hv.buffer, hv.elemSize⟩

theorem swapRemove_calls (hv : Usable v) (index : ℕ) :
    Calls serve (fun r => Usable r.2) (swapRemove v index) := by
  have hsmaller : ∀ size, Usable { v with size } := fun _ =>
    ⟨hv.allocator, hv.self, hv.buffer, hv.elemSize⟩
  unfold swapRemove
  refine Programmed.cond (fun _ => Calls.done hv) fun _ => ?_
  refine Programmed.lift fun slot _ => Programmed.lift fun last _ => ?_
  refine Programmed.cond (fun _ => ?_) fun _ => Calls.done (hsmaller last)
  refine Programmed.lift fun lastSlot _ => ?_
  exact (memcpy_writes slot (.inside lastSlot) v.elemSize).bind fun _ _ =>
    Calls.done (hsmaller last)

theorem readItem_reads (v : Vector) (p : Option Ptr) :
    Reads serve (fun _ => True) fun w => readItem v w p := by
  cases p with
  | none => exact Reads.done trivial
  | some p => exact Reads.read (read_reads ..) fun _ _ => Reads.done trivial

theorem step_answers (hv : Usable v) (c : Call) : Answers serve Usable fun w => step (v, w) c := by
  cases c with
  | push e =>
    refine (push_calls hv (.outside e)).bind fun r hr => ?_
    obtain ⟨st, v⟩ := r
    exact Answers.done (Answer.status st) hr
  | pop =>
    simp only [step]
    refine Programmed.lift fun r hr => ?_
    obtain ⟨p, v⟩ := r
    refine Programmed.read (readItem_reads v p) fun bytes _ => ?_
    exact Answers.done (Answer.item bytes) (usable_of_pop hv hr)
  | swapRemove i =>
    refine (swapRemove_calls hv i).bind fun r hr => ?_
    obtain ⟨p, v⟩ := r
    refine Programmed.read (readItem_reads v p) fun bytes _ => ?_
    exact Answers.done (Answer.item bytes) hr
  | get i =>
    simp only [step]
    refine Programmed.lift fun p _ => ?_
    refine Programmed.read (readItem_reads v p) fun bytes _ => ?_
    exact Answers.done (Answer.item bytes) hv
  | reserve n =>
    refine (reserve_calls hv n).bind fun r hr => ?_
    obtain ⟨st, v⟩ := r
    exact Answers.done (Answer.status st) hr

/-- **Vectors** make requests only. -/
theorem byRequests (elemSize capacity : ℕ) :
    (typed elemSize capacity (some blockAllocator)).kind.ByRequests serve Usable :=
  Container.Typed.byRequests _ (createWithCapacity_calls elemSize capacity)
    (fun _ c hv => step_answers hv c) (fun _ => destroy_writes) fun _ _ _ _ h => h

end Vector

/-! ## Deques -/

namespace Deque

/-- The blocks of the handle are there to be released, and its elements have a size. -/
structure Usable (d : Deque) : Prop where
  allocator : d.allocator = blockAllocator
  self : d.self ≠ 0
  buffer : d.buffer ≠ 0
  elemSize : 0 < d.elemSize

variable {d : Deque}

theorem create_calls (elemSize : ℕ) : Calls serve (fun r => ∀ d, r.2 = some d → Usable d)
    (create elemSize (some blockAllocator)) := by
  unfold create
  refine Programmed.lift fun _ helem => ?_
  replace helem := check_eq_ok.1 helem
  cases hmul : sizeMulOverflow elemSize defaultCapacity with
  | none => exact Calls.done fun _ h => by cases h
  | some allocSize =>
    have hsize : 0 < allocSize := by
      rw [← (sizeMulOverflow_eq_some.1 hmul).1]
      exact Nat.mul_pos helem (by decide)
    refine (createOwner_calls (P := (· ≠ 0)) (by decide) (alloc_calls hsize)).bind fun r hr => ?_
    obtain ⟨st, out⟩ := r
    refine Calls.done fun d hd => ?_
    obtain ⟨x, rfl, rfl⟩ := Option.map_eq_some_iff.1 hd
    obtain ⟨hself, hbuffer⟩ := hr x rfl
    exact ⟨rfl, hself, hbuffer, helem⟩

theorem destroy_writes (hd : Usable d) : Writes serve (destroy d) := by
  unfold destroy
  rw [hd.allocator]
  exact destroyBuffered_writes hd.self hd.buffer

theorem unroll_writes (d : Deque) (newBuffer : ℕ) : Writes serve (unroll d newBuffer) := by
  unfold unroll
  refine Programmed.cond (fun _ => ?_) fun _ => Writes.done
  refine Programmed.cond (fun _ => ?_) fun _ => ?_
  · exact Programmed.lift fun src _ => Programmed.lift fun count _ => memcpy_writes ..
  · refine Programmed.lift fun firstCount _ => Programmed.lift fun src _ => ?_
    refine Programmed.lift fun first _ => (memcpy_writes ..).bind fun _ _ => ?_
    refine Programmed.cond (fun _ => ?_) fun _ => Writes.done
    exact Programmed.lift fun second _ => memcpy_writes ..

/-- Whatever it starts from, a deque does not grow to less than it has to. -/
theorem capacityGrow_reaches {capacity minCapacity out : ℕ}
    (h : capacityGrow capacity minCapacity = .ok (.ok, out)) : minCapacity ≤ out := by
  obtain ⟨_, -, h⟩ := bind_eq_ok.1 h
  split at h
  · cases h
    assumption
  · refine loop_result (Q := fun r : Status × ℕ => r.1 = .ok → minCapacity ≤ r.2)
      (fun c r hr => ?_) _ _ _ h rfl
    unfold capacityGrowRound at hr
    split at hr
    · split at hr
      · cases hr
        intro hst
        cases hst
      · cases hr
    · cases hr
      intro _
      dsimp only
      omega

theorem grow_calls (hd : Usable d) : Calls serve (fun r => Usable r.2) (grow d) := by
  unfold grow
  cases hadd : sizeAddOverflow d.size 1 with
  | none => exact Calls.done hd
  | some minCapacity =>
    refine Programmed.lift fun r hgrow => ?_
    obtain ⟨st, newCapacity⟩ := r
    refine Programmed.cond (fun _ => Calls.done hd) fun hst => ?_
    cases hmul : sizeMulOverflow newCapacity d.elemSize with
    | none => exact Calls.done hd
    | some allocSize =>
      have hsize : 0 < allocSize := by
        rw [not_not.1 hst] at hgrow
        have hreaches := capacityGrow_reaches hgrow
        have hmin := (sizeAddOverflow_eq_some (by decide)).1 hadd
        rw [← (sizeMulOverflow_eq_some.1 hmul).1]
        exact Nat.mul_pos (by omega) hd.elemSize
      rw [hd.allocator]
      refine (alloc_calls hsize).bind fun r hbuffer => ?_
      obtain ⟨st, newBuffer⟩ := r
      refine Programmed.cond (fun _ => Calls.done hd) fun hst => ?_
      refine (unroll_writes d newBuffer).bind fun _ _ => ?_
      refine (dealloc_writes hd.buffer).bind fun _ _ => Calls.done ?_
      exact ⟨rfl, hd.self, hbuffer (not_not.1 hst), hd.elemSize⟩

theorem makeRoom_calls (hd : Usable d) : Calls serve (fun r => Usable r.2) (makeRoom d) := by
  unfold makeRoom
  exact Programmed.cond (fun _ => grow_calls hd) fun _ => Calls.done hd

theorem push_calls (hd : Usable d) (element : Arg) :
    Calls serve (fun r => Usable r.2) (push d element) := by
  unfold push
  refine Programmed.lift fun _ _ => Programmed.lift fun _ _ => ?_
  refine (makeRoom_calls hd).bind fun r hd => ?_
  obtain ⟨st, d⟩ := r
  replace hd : Usable d := hd
  refine Programmed.cond (fun _ => Calls.done hd) fun _ => Programmed.lift fun dst _ => ?_
  refine (memcpy_writes ..).bind fun _ _ => ?_
  refine Programmed.lift fun size _ => Programmed.lift fun tail _ => ?_
  exact Calls.done ⟨hd.allocator, hd.self, hd.buffer, hd.elemSize⟩

theorem pushfront_calls (hd : Usable d) (element : Arg) :
    Calls serve (fun r => Usable r.2) (pushfront d element) := by
  unfold pushfront
  refine Programmed.lift fun _ _ => Programmed.lift fun _ _ => ?_
  refine (makeRoom_calls hd).bind fun r hd => ?_
  obtain ⟨st, d⟩ := r
  replace hd : Usable d := hd
  refine Programmed.cond (fun _ => Calls.done hd) fun _ => ?_
  refine Programmed.lift fun head _ => Programmed.lift fun dst _ => ?_
  refine (memcpy_writes ..).bind fun _ _ => Programmed.lift fun size _ => ?_
  exact Calls.done ⟨hd.allocator, hd.self, hd.buffer, hd.elemSize⟩

theorem usable_of_popleft {p : Option Ptr} {d' : Deque} (hd : Usable d)
    (h : popleft d = .ok (p, d')) : Usable d' := by
  obtain ⟨_, -, h⟩ := bind_eq_ok.1 h
  split at h
  · cases h
    exact hd
  · obtain ⟨src, -, h⟩ := bind_eq_ok.1 h
    obtain ⟨head, -, h⟩ := bind_eq_ok.1 h
    obtain ⟨size, -, h⟩ := bind_eq_ok.1 h
    cases h
    exact ⟨hd.allocator, hd.self, hd.buffer, hd.elemSize⟩

theorem usable_of_popback {p : Option Ptr} {d' : Deque} (hd : Usable d)
    (h : popback d = .ok (p, d')) : Usable d' := by
  obtain ⟨_, -, h⟩ := bind_eq_ok.1 h
  split at h
  · cases h
    exact hd
  · obtain ⟨tail, -, h⟩ := bind_eq_ok.1 h
    obtain ⟨src, -, h⟩ := bind_eq_ok.1 h
    obtain ⟨size, -, h⟩ := bind_eq_ok.1 h
    cases h
    exact ⟨hd.allocator, hd.self, hd.buffer, hd.elemSize⟩

theorem readItem_reads (d : Deque) (p : Option Ptr) :
    Reads serve (fun _ => True) fun w => readItem d w p := by
  cases p with
  | none => exact Reads.done trivial
  | some p => exact Reads.read (read_reads ..) fun _ _ => Reads.done trivial

theorem items_reads (d : Deque) : Reads serve (fun _ => True) (items d) := by
  unfold items
  exact Reads.lift fun iter _ => Iterator.forEach_reads ..

theorem step_answers (hd : Usable d) (c : Call) : Answers serve Usable fun w => step (d, w) c := by
  cases c with
  | push e =>
    refine (push_calls hd (.outside e)).bind fun r hr => ?_
    obtain ⟨st, d⟩ := r
    exact Answers.done (Answer.status st) hr
  | pushfront e =>
    refine (pushfront_calls hd (.outside e)).bind fun r hr => ?_
    obtain ⟨st, d⟩ := r
    exact Answers.done (Answer.status st) hr
  | popleft =>
    simp only [step]
    refine Programmed.lift fun r hr => ?_
    obtain ⟨p, d⟩ := r
    refine Programmed.read (readItem_reads d p) fun bytes _ => ?_
    exact Answers.done (Answer.item bytes) (usable_of_popleft hd hr)
  | popback =>
    simp only [step]
    refine Programmed.lift fun r hr => ?_
    obtain ⟨p, d⟩ := r
    refine Programmed.read (readItem_reads d p) fun bytes _ => ?_
    exact Answers.done (Answer.item bytes) (usable_of_popback hd hr)
  | peekleft =>
    simp only [step]
    refine Programmed.lift fun p _ => Programmed.read (readItem_reads d p) fun bytes _ => ?_
    exact Answers.done (Answer.item bytes) hd
  | peekback =>
    simp only [step]
    refine Programmed.lift fun p _ => Programmed.read (readItem_reads d p) fun bytes _ => ?_
    exact Answers.done (Answer.item bytes) hd
  | size => exact Answers.done (Answer.size d.size) hd
  | iterate =>
    refine Programmed.read (items_reads d) fun xs _ => ?_
    exact Answers.done (Answer.items xs) hd

/-- **Deques** make requests only. -/
theorem byRequests (elemSize : ℕ) :
    (typed elemSize (some blockAllocator)).kind.ByRequests serve Usable :=
  Container.Typed.byRequests _ (create_calls elemSize) (fun _ c hd => step_answers hd c)
    (fun _ => destroy_writes) fun _ _ _ _ h => h

end Deque

/-! ## Strings -/

namespace StringHeader

/-- The block is there to be released. -/
structure Usable (s : StringHeader) : Prop where
  allocator : s.allocator = blockAllocator
  block : s.block ≠ 0

variable {s : StringHeader}

theorem pos_of_headerSize {capacity allocSize : ℕ}
    (h : sizeAddOverflow headerSize capacity = some allocSize) : 0 < allocSize := by
  unfold sizeAddOverflow at h
  split at h
  · cases h
  · cases h
    exact Nat.add_pos_left (by decide) _

theorem strlen_reads (src : Arg) : Reads serve (fun _ => True) fun w => strlen w src :=
  Reads.read (bytesFrom_reads src) fun bs _ => by
    cases h : CString.strlen bs with
    | error e => exact Reads.fail e
    | ok n => exact Reads.done trivial

theorem setChar_writes (s : StringHeader) (index : ℕ) (c : List UInt8) :
    Writes serve fun w => s.setChar w index c := write_writes ..

theorem initialLen_reads (initial : Arg) :
    Reads serve (fun _ => True) fun w => initialLen w initial :=
  Reads.cond (fun _ => Reads.done trivial) fun _ => strlen_reads initial

theorem copyInitial_writes (s : StringHeader) (initial : Arg) (len : ℕ) :
    Writes serve fun w => s.copyInitial w initial len :=
  Programmed.cond (fun _ => memcpy_writes ..) fun _ => Writes.done

theorem create_calls (initial : Arg) : Calls serve (fun r => ∀ s, r.2 = some s → Usable s)
    (create initial (some blockAllocator)) := by
  unfold create
  refine Programmed.read (initialLen_reads initial) fun len _ => Programmed.lift fun r _ => ?_
  obtain ⟨st, capacity⟩ := r
  refine Programmed.cond (fun _ => Calls.done fun _ h => by cases h) fun _ => ?_
  cases hadd : sizeAddOverflow headerSize capacity with
  | none => exact Calls.done fun _ h => by cases h
  | some allocSize =>
    refine (alloc_calls (pos_of_headerSize hadd)).bind fun r hblock => ?_
    obtain ⟨st, block⟩ := r
    refine Programmed.cond (fun _ => Calls.done fun _ h => by cases h) fun hst => ?_
    refine (copyInitial_writes ..).bind fun _ _ => (setChar_writes ..).bind fun _ _ => ?_
    refine Calls.done fun s hs => ?_
    cases hs
    exact ⟨rfl, hblock (not_not.1 hst)⟩

theorem destroy_writes (hs : Usable s) : Writes serve (destroy s) := by
  unfold destroy
  rw [hs.allocator]
  exact dealloc_writes hs.block

theorem ensureCapacity_calls (hs : Usable s) (len : ℕ) :
    Calls serve (fun r => Usable r.2) (ensureCapacity s len) := by
  unfold ensureCapacity
  refine Programmed.cond (fun _ => Calls.done hs) fun _ => Programmed.lift fun r _ => ?_
  obtain ⟨st, newCapacity⟩ := r
  refine Programmed.cond (fun _ => Calls.done hs) fun _ => ?_
  cases hadd : sizeAddOverflow headerSize newCapacity with
  | none => exact Calls.done hs
  | some allocSize =>
    rw [hs.allocator]
    refine (resize_calls s.block (pos_of_headerSize hadd)).bind fun r hblock => ?_
    obtain ⟨st, tmp⟩ := r
    refine Programmed.cond (fun _ => Calls.done hs) fun hst => Calls.done ?_
    exact ⟨rfl, hblock (not_not.1 hst)⟩

theorem append_calls (hs : Usable s) (suffix : Arg) :
    Calls serve (fun r => Usable r.2) (append s suffix) := by
  unfold append
  refine Programmed.lift fun _ _ => Programmed.read (strlen_reads suffix) fun suffixLen _ => ?_
  refine Programmed.cond (fun _ => Calls.done hs) fun _ => ?_
  cases sizeAddOverflow s.len suffixLen with
  | none => exact Calls.done hs
  | some newLen =>
    refine (ensureCapacity_calls hs newLen).bind fun r hr => ?_
    obtain ⟨st, header⟩ := r
    replace hr : Usable header := hr
    refine Programmed.cond (fun _ => Calls.done hr) fun _ => ?_
    refine (memcpy_writes ..).bind fun _ _ => (setChar_writes ..).bind fun _ _ => ?_
    exact Calls.done ⟨hr.allocator, hr.block⟩

theorem prepend_calls (hs : Usable s) (text : Arg) :
    Calls serve (fun r => Usable r.2) (prepend s text) := by
  unfold prepend
  refine Programmed.lift fun _ _ => Programmed.read (strlen_reads text) fun prefixLen _ => ?_
  refine Programmed.cond (fun _ => Calls.done hs) fun _ => ?_
  cases sizeAddOverflow s.len prefixLen with
  | none => exact Calls.done hs
  | some newLen =>
    refine (ensureCapacity_calls hs newLen).bind fun r hr => ?_
    obtain ⟨st, header⟩ := r
    replace hr : Usable header := hr
    refine Programmed.cond (fun _ => Calls.done hr) fun _ => Programmed.lift fun count _ => ?_
    refine (memmove_writes ..).bind fun _ _ => ?_
    refine Programmed.read (read_reads ..) fun oldFirst _ => Programmed.lift fun count _ => ?_
    refine (memmove_writes ..).bind fun _ _ => (setChar_writes ..).bind fun _ _ => ?_
    exact Calls.done ⟨hr.allocator, hr.block⟩

theorem clear_calls (hs : Usable s) : Calls serve Usable (clear s) :=
  (setChar_writes ..).bind fun _ _ => Calls.done ⟨hs.allocator, hs.block⟩

theorem contains_reads (s : StringHeader) (needle : Arg) :
    Reads serve (fun _ => True) fun w => contains s w needle := by
  unfold contains
  refine Reads.cond (fun _ => Reads.done trivial) fun _ => ?_
  refine Reads.read (bytesFrom_reads _) fun hay _ => Reads.read (bytesFrom_reads _) fun bs _ => ?_
  exact Reads.lift fun found _ => Reads.done trivial

theorem startsWith_reads (s : StringHeader) (text : Arg) :
    Reads serve (fun _ => True) fun w => startsWith s w text := by
  unfold startsWith
  refine Reads.cond (fun _ => Reads.done trivial) fun _ => ?_
  refine Reads.read (strlen_reads text) fun prefixLen _ => ?_
  refine Reads.read (bytesFrom_reads _) fun hay _ => Reads.read (bytesFrom_reads _) fun bs _ => ?_
  exact Reads.lift fun order _ => Reads.done trivial

theorem endsWith_reads (s : StringHeader) (suffix : Arg) :
    Reads serve (fun _ => True) fun w => endsWith s w suffix := by
  unfold endsWith
  refine Reads.cond (fun _ => Reads.done trivial) fun _ => ?_
  refine Reads.read (strlen_reads suffix) fun suffixLen _ => ?_
  refine Reads.cond (fun _ => Reads.done trivial) fun _ => Reads.lift fun start _ => ?_
  refine Reads.read (source_reads ..) fun last _ => Reads.read (source_reads ..) fun bs _ => ?_
  exact Reads.done trivial

theorem chars_reads (s : StringHeader) : Reads serve (fun _ => True) (chars s) := by
  unfold chars
  exact Reads.read (Iterator.forEach_reads ..) fun _ _ => Reads.done trivial

theorem step_answers (hs : Usable s) (c : Call) : Answers serve Usable fun w => step (s, w) c := by
  cases c with
  | append bytes =>
    refine (append_calls hs (.outside bytes)).bind fun r hr => ?_
    obtain ⟨st, header⟩ := r
    exact Answers.done (Answer.status st) hr
  | prepend bytes =>
    refine (prepend_calls hs (.outside bytes)).bind fun r hr => ?_
    obtain ⟨st, header⟩ := r
    exact Answers.done (Answer.status st) hr
  | clear => exact (clear_calls hs).bind fun s hs => Answers.done Answer.done hs
  | contains bytes =>
    refine Programmed.read (contains_reads s (.outside bytes)) fun b _ => ?_
    exact Answers.done (Answer.holds b) hs
  | startsWith bytes =>
    refine Programmed.read (startsWith_reads s (.outside bytes)) fun b _ => ?_
    exact Answers.done (Answer.holds b) hs
  | endsWith bytes =>
    refine Programmed.read (endsWith_reads s (.outside bytes)) fun b _ => ?_
    exact Answers.done (Answer.holds b) hs
  | len => exact Answers.done (Answer.len s.len) hs
  | iterate =>
    refine Programmed.read (chars_reads s) fun cs _ => ?_
    exact Answers.done (Answer.chars cs) hs

/-- **Strings** make requests only. -/
theorem byRequests (initial : List UInt8) :
    (typed initial (some blockAllocator)).kind.ByRequests serve Usable :=
  Container.Typed.byRequests _ (create_calls (.outside initial)) (fun _ c hs => step_answers hs c)
    (fun _ => destroy_writes) fun _ _ _ _ h => h

end StringHeader

/-! ## Heaps -/

theorem memswap_writes (a b : Ptr) (size : ℕ) : Writes serve (Memory.memswap a b size) := by
  refine Programmed.loop (J := fun _ => True) (fun i _ => ?_) (size + 1) 0 trivial
  unfold Memory.memswapRound
  refine Programmed.cond (fun _ => ?_) fun _ => Programmed.leave (a := ()) trivial
  refine Programmed.read (read_reads ..) fun tmp _ => Programmed.read (read_reads ..) fun c _ => ?_
  refine (write_writes ..).bind fun _ _ => (write_writes ..).bind fun _ _ => ?_
  exact Programmed.again trivial

namespace BinaryHeap

/-- The blocks of the handle are there to be released. -/
structure Usable (h : BinaryHeap) : Prop where
  allocator : h.allocator = blockAllocator
  self : h.self ≠ 0
  root : h.root.Usable

variable {h : BinaryHeap}

theorem create_calls (elemSize : ℕ) (cmp : Option (List UInt8 → List UInt8 → ℤ)) :
    Calls serve (fun r => ∀ h, r.2 = some h → Usable h)
      (create elemSize cmp (some blockAllocator)) := by
  have hroot : Calls serve (fun r : Status × Option Vector =>
      r.1 = .ok → ∀ v, r.2 = some v → v.Usable) fun w =>
        Vector.create elemSize (some blockAllocator) w :=
    (Vector.createWithCapacity_calls elemSize Vector.defaultCapacity).mono fun _ hr _ => hr
  unfold create
  refine Programmed.lift fun _ _ => ?_
  refine (createOwner_calls (P := fun out => ∀ v, out = some v → v.Usable) (by decide)
    hroot).bind fun r hr => ?_
  obtain ⟨st, out⟩ := r
  refine Calls.done fun h hh => ?_
  obtain ⟨⟨self, root⟩, rfl, hroot⟩ := Option.bind_eq_some_iff.1 hh
  obtain ⟨v, rfl, rfl⟩ := Option.map_eq_some_iff.1 hroot
  obtain ⟨hself, hv⟩ := hr _ rfl
  exact ⟨rfl, hself, hv v rfl⟩

theorem destroy_writes (hh : Usable h) : Writes serve (destroy h) := by
  unfold destroy
  rw [hh.allocator]
  exact (Vector.destroy_writes hh.root).bind fun _ _ => dealloc_writes hh.self

theorem compareIdx_reads (h : BinaryHeap) (i j : ℕ) :
    Reads serve (fun _ => True) (compareIdx h i j) := by
  have hderef : ∀ p, Reads serve (fun _ => True) fun w => Vector.deref h.root w p := by
    intro p
    cases p with
    | none => exact Reads.fail _
    | some p => exact read_reads ..
  unfold compareIdx
  refine Reads.lift fun a _ => Reads.lift fun b _ => ?_
  exact Reads.read (hderef a) fun x _ => Reads.read (hderef b) fun y _ => Reads.done trivial

theorem swapAt_writes (h : BinaryHeap) (i j : ℕ) : Writes serve (swapAt h i j) := by
  unfold swapAt
  refine Programmed.lift fun a _ => Programmed.lift fun b _ => ?_
  cases a with
  | none => exact Programmed.fail _
  | some a =>
    cases b with
    | none => exact Programmed.fail _
    | some b => exact memswap_writes ..

theorem siftUp_writes (h : BinaryHeap) (idx : ℕ) : Writes serve (siftUp h idx) := by
  refine Programmed.loop (J := fun _ => True) (fun idx _ => ?_) (idx + 1) idx trivial
  unfold siftUpRound
  refine Programmed.cond (fun _ => ?_) fun _ => Programmed.leave (a := ()) trivial
  refine Programmed.read (compareIdx_reads ..) fun order _ => ?_
  refine Programmed.cond (fun _ => Programmed.leave (a := ()) trivial) fun _ => ?_
  exact (swapAt_writes ..).bind fun _ _ => Programmed.again trivial

theorem better_reads (h : BinaryHeap) (n candidate best : ℕ) :
    Reads serve (fun _ => True) (better h n candidate best) := by
  unfold better
  refine Reads.cond (fun _ => ?_) fun _ => Reads.done trivial
  refine Reads.read (compareIdx_reads ..) fun order _ => ?_
  exact Reads.cond (fun _ => Reads.done trivial) fun _ => Reads.done trivial

theorem siftDown_writes (h : BinaryHeap) (idx : ℕ) : Writes serve (siftDown h idx) := by
  refine Programmed.loop (J := fun _ => True) (fun idx _ => ?_) (h.root.size + 1) idx trivial
  unfold siftDownRound
  refine Programmed.lift fun twice _ => Programmed.lift fun left _ => ?_
  refine Programmed.lift fun right _ => Programmed.read (better_reads ..) fun best _ => ?_
  refine Programmed.read (better_reads ..) fun best _ => ?_
  refine Programmed.cond (fun _ => Programmed.leave (a := ()) trivial) fun _ => ?_
  exact (swapAt_writes ..).bind fun _ _ => Programmed.again trivial

theorem push_calls (hh : Usable h) (element : Arg) :
    Calls serve (fun r => Usable r.2) (push h element) := by
  unfold push
  refine Programmed.lift fun _ _ => (Vector.push_calls hh.root element).bind fun r hr => ?_
  obtain ⟨st, root⟩ := r
  have hh' : Usable { h with root } := ⟨hh.allocator, hh.self, hr⟩
  refine Programmed.cond (fun _ => Calls.done hh') fun _ => Programmed.lift fun last _ => ?_
  exact (siftUp_writes ..).bind fun _ _ => Calls.done hh'

theorem pop_calls (hh : Usable h) : Calls serve (fun r => Usable r.2) (pop h) := by
  unfold pop
  refine Programmed.cond (fun _ => Calls.done hh) fun _ => ?_
  refine Programmed.cond (fun _ => ?_) fun _ => ?_
  · refine Programmed.lift fun r hpop => ?_
    obtain ⟨out, root⟩ := r
    exact Calls.done ⟨hh.allocator, hh.self, Vector.usable_of_pop hh.root hpop⟩
  · refine Programmed.lift fun last _ => (swapAt_writes ..).bind fun _ _ => ?_
    refine Programmed.lift fun r hpop => ?_
    obtain ⟨out, root⟩ := r
    refine (siftDown_writes ..).bind fun _ _ => Calls.done ?_
    exact ⟨hh.allocator, hh.self, Vector.usable_of_pop hh.root hpop⟩

theorem readItem_reads (h : BinaryHeap) (p : Option Ptr) :
    Reads serve (fun _ => True) fun w => readItem h w p := by
  cases p with
  | none => exact Reads.done trivial
  | some p => exact Reads.read (read_reads ..) fun _ _ => Reads.done trivial

theorem step_answers (hh : Usable h) (c : Call) : Answers serve Usable fun w => step (h, w) c := by
  cases c with
  | push e =>
    refine (push_calls hh (.outside e)).bind fun r hr => ?_
    obtain ⟨st, h⟩ := r
    exact Answers.done (Answer.status st) hr
  | pop =>
    refine (pop_calls hh).bind fun r hr => ?_
    obtain ⟨p, h⟩ := r
    refine Programmed.read (readItem_reads h p) fun bytes _ => ?_
    exact Answers.done (Answer.item bytes) hr
  | peek =>
    simp only [step]
    refine Programmed.lift fun p _ => Programmed.read (readItem_reads h p) fun bytes _ => ?_
    exact Answers.done (Answer.item bytes) hh
  | size => exact Answers.done (Answer.size h.size) hh

/-- **Heaps** make requests only. -/
theorem byRequests (elemSize : ℕ) (cmp : Option (List UInt8 → List UInt8 → ℤ)) :
    (typed elemSize cmp (some blockAllocator)).kind.ByRequests serve Usable :=
  Container.Typed.byRequests _ (create_calls elemSize cmp) (fun _ c hh => step_answers hh c)
    (fun _ => destroy_writes) fun _ _ _ _ h => h

end BinaryHeap

end K4c
