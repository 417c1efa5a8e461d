import Mathlib.Tactic
import K4c.Mem.Blocks

/-!
# Handles and what they own

The constructors of the containers have one shape: allocate the handle, copy the
allocator into it, make what the handle is to own, and release the handle when
that fails.  `createOwner` is that shape, for any second part.  A vector and a
deque own one byte buffer beside their handle; `Buffered` says so, `Grown` when a full one
is replaced by a larger one, `CanGrow` when there is a larger one, and `destroyBuffered` is
their destructor.

* `createOwner_spec` — a constructor whose second part cleans up after itself
  cleans up after itself.
* `destroyBuffered_spec` — both blocks are released.
-/

namespace K4c

open Exec Bytes Blocks

variable {ρ : Type}

/-! ## Constructors -/

/-- Allocate a handle and make what it owns through the allocator it keeps; when
that fails, release the handle through `release`. -/
def createOwner (handleSize : ℕ)
    (payload : Allocator Memory → Memory → Result ((Status × ρ) × Memory))
    (release allocator : Option (Allocator Memory)) (w : Memory) :
    Result ((Status × Option (ℕ × ρ)) × Memory) := do
  let ((st, self), w) ← Allocator.alloc Memory.libc allocator w handleSize
  if st ≠ .ok then return ((st, none), w)
  let ((st, owned), w) ← payload (Allocator.copy allocator) w
  if st ≠ .ok then
    let w ← Allocator.dealloc Memory.libc release w self
    return ((st, none), w)
  return ((.ok, some (self, owned)), w)

/-- What a constructor does to the blocks: it fails and owns nothing, or its
result owns the blocks that `owned` lists and satisfies `Q`. -/
def Creates (reclaims : Prop) (w : Memory) (owned : ρ → List ℕ) (Q : ρ → Memory → Prop)
    (st : Status) (out : Option ρ) (w' : Memory) : Prop :=
  (st ≠ .ok ∧ out = none ∧ Exchange reclaims [] [] w w') ∨
  (st = .ok ∧ ∃ r, out = some r ∧ Exchange reclaims [] (owned r) w w' ∧ Q r w')

/-- **The frame of the constructors.** -/
theorem createOwner_spec {n : ℕ}
    {f : Allocator Memory → Memory → Result ((Status × ρ) × Memory)}
    {r a : Option (Allocator Memory)} {o : ρ → List ℕ} {Q : ρ → Memory → Prop}
    (hbacked : Backed (Allocator.copy a)) (hrelease : Allocator.copy r = Allocator.copy a)
    (hpayload : ∀ w, ∃ st x w', f (Allocator.copy a) w = .ok ((st, x), w') ∧
      ((st ≠ .ok ∧ Exchange (Reclaims (Allocator.copy a)) [] [] w w') ∨
        (st = .ok ∧ Exchange (Reclaims (Allocator.copy a)) [] (o x) w w' ∧ Q x w')))
    (w : Memory) :
    ∃ st out w', createOwner n f r a w = .ok ((st, out), w') ∧
      Creates (Reclaims (Allocator.copy a)) w (fun x => x.1 :: o x.2)
        (fun x w' => Q x.2 w' ∧ x.1 ∉ o x.2) st out w' := by
  rw [createOwner, Allocator.alloc_copy]
  set copy := Allocator.copy a with hcopy
  rcases Allocator.alloc_spec hbacked w n with
    ⟨w₁, halloc, hcells₁⟩ | ⟨_, w₁, halloc, -, hcells₁⟩
  · refine ⟨.noMemory, none, w₁, ?_, .inl ⟨by decide, rfl, .same (by simp) hcells₁⟩⟩
    rw [halloc]
    rfl
  have hgain : Exchange (Reclaims copy) [] [w.next] w w₁ := .gain (by simp) hcells₁
  have hself : w₁.Live w.next := hgain.held _ (by simp)
  obtain ⟨st, x, w₂, hpay, hres⟩ := hpayload w₁
  rcases hres with ⟨hst, hx⟩ | ⟨rfl, hx, hQ⟩
  · -- the second part failed: only the handle is left to release
    obtain ⟨c, hc⟩ := Mem.live_iff.1 hself
    have hself₂ : w₂.Live w.next := Mem.live_of (hx.others _ c hc (by simp)).1
    obtain ⟨w₃, hdealloc, hcells₃⟩ := Allocator.dealloc_spec hbacked hself₂
    refine ⟨st, none, w₃, ?_, .inl ⟨hst, rfl, ?_⟩⟩
    · rw [← hrelease, ← Allocator.dealloc_copy] at hdealloc
      simp only [halloc, ok_bind, ne_eq, not_true_eq_false, if_false, hpay, hst,
        not_false_eq_true, if_true, hdealloc, pure_eq_ok]
    · exact (hgain.trans (hx.frame hgain.held (by simp))).trans (.drop (by simp) (by simp) hcells₃)
  · refine ⟨.ok, some (w.next, x), w₂, ?_, .inr ⟨rfl, _, rfl, ?_, hQ, ?_⟩⟩
    · simp only [halloc, ok_bind, ne_eq, not_true_eq_false, if_false, hpay, pure_eq_ok]
    · exact hgain.trans (hx.frame hgain.held (by simp))
    · obtain ⟨c, hc⟩ := Mem.live_iff.1 hself
      exact (hx.others _ c hc (by simp)).2

/-- A constructor fails for the reasons of its second part, or because it was refused its
handle. -/
theorem createOwner_explains {n : ℕ}
    {f : Allocator Memory → Memory → Result ((Status × ρ) × Memory)}
    {r a : Option (Allocator Memory)} {tooLarge : Prop} (hbacked : Backed (Allocator.copy a))
    (hrelease : Allocator.copy r = Allocator.copy a)
    (hpayload : ∀ w x, f (Allocator.copy a) w = .ok x → w.Explains x.2 tooLarge x.1.1)
    {w : Memory} {x : (Status × Option (ℕ × ρ)) × Memory}
    (h : createOwner n f r a w = .ok x) : w.Explains x.2 tooLarge x.1.1 := by
  rw [createOwner, Allocator.alloc_copy] at h
  obtain ⟨⟨⟨st, self⟩, w₁⟩, halloc, h⟩ := bind_eq_ok.1 h
  have hself : w.Explains w₁ tooLarge st :=
    (Allocator.alloc_explains hbacked halloc).mono False.elim
  dsimp only at h hself
  split at h
  · cases h
    exact hself
  · rename_i hok
    rw [not_not.1 hok] at hself
    obtain ⟨⟨⟨st₂, owned⟩, w₂⟩, hpay, h⟩ := bind_eq_ok.1 h
    have hsecond := (hpayload w₁ _ hpay).after hself.asked_of_ok
    dsimp only at h hsecond
    split at h
    · obtain ⟨w₃, hdealloc, h⟩ := bind_eq_ok.1 h
      cases h
      rw [Allocator.dealloc_copy, hrelease] at hdealloc
      exact hsecond.keep (Allocator.dealloc_asked hbacked hdealloc)
    · rename_i hok₂
      cases h
      rwa [not_not.1 hok₂] at hsecond

/-! ## One buffer -/

/-- The handle `owner` and a byte buffer of the given size are live, and the
buffer holds these bytes. -/
structure Buffered (a : Allocator Memory) (owner buffer size : ℕ) (w : Memory) (bs : List UInt8) :
    Prop where
  backed : Backed a
  handle : w.Live owner
  cell : w.cells buffer = some ⟨size, .bytes bs⟩
  apart : owner ≠ buffer
  length : bs.length = size
  fits : size ≤ sizeMax

/-- A full buffer grows: the next capacity in elements is one that fits, and the request for
it is granted. -/
structure Grown (grow : ℕ → ℕ → Result (Status × ℕ)) (size capacity elemSize : ℕ) (w : Memory)
    (next : ℕ) (g : Grant) : Prop where
  full : size = capacity
  countable : size < sizeMax
  capacity : grow capacity (size + 1) = .ok (.ok, next)
  fits : next * elemSize ≤ sizeMax
  granted : w.answers w.requests = some g

/-- A full buffer of this capacity can grow: the next capacity is one that fits. -/
def CanGrow (grow : ℕ → ℕ → Result (Status × ℕ)) (capacity elemSize : ℕ) : Prop :=
  capacity < sizeMax ∧
    ∃ next, grow capacity (capacity + 1) = .ok (.ok, next) ∧ next * elemSize ≤ sizeMax

/-- Release a buffer and its handle. -/
def destroyBuffered (a : Allocator Memory) (owner buffer : ℕ) (w : Memory) : Result Memory := do
  let w ← Allocator.dealloc Memory.libc (some a) w buffer
  Allocator.dealloc Memory.libc (some a) w owner

namespace Buffered

variable {a : Allocator Memory} {owner buffer size : ℕ} {w w' : Memory} {bs bs' : List UInt8}

theorem live (h : Buffered a owner buffer size w bs) : ∀ p ∈ [owner, buffer], w.Live p := by
  intro p hp
  rcases List.mem_cons.1 hp with rfl | hp
  · exact h.handle
  · rw [List.mem_singleton.1 hp]
    exact Mem.live_of h.cell

/-- In a memory that did not change. -/
theorem same (h : Buffered a owner buffer size w bs) (hcells : w'.cells = w.cells) :
    Buffered a owner buffer size w' bs :=
  { h with
    handle := by
      have := h.handle
      rwa [Mem.Live, hcells]
    cell := by rw [hcells, h.cell] }

/-- After a write to the buffer. -/
theorem written (h : Buffered a owner buffer size w bs) (hlen : bs'.length = bs.length)
    (hcells : w'.cells = Function.update w.cells buffer (some ⟨size, .bytes bs'⟩)) :
    Buffered a owner buffer size w' bs' :=
  { h with
    handle := by
      have := h.handle
      rwa [Mem.Live, hcells, Function.update_of_ne h.apart]
    cell := by rw [hcells, Function.update_self]
    length := by rw [hlen, h.length] }

/-- **The destructor** releases both blocks. -/
theorem destroyBuffered_spec (h : Buffered a owner buffer size w bs) :
    ∃ w', destroyBuffered a owner buffer w = .ok w' ∧
      Exchange (Reclaims a) [owner, buffer] [] w w' := by
  obtain ⟨w₁, hdealloc, hcells⟩ := Allocator.dealloc_spec h.backed (Mem.live_of h.cell)
  have hdrop : Exchange (Reclaims a) [buffer, owner] [owner] w w₁ :=
    .drop (by simpa using h.handle) (by simpa using h.apart.symm) hcells
  obtain ⟨w₂, hdealloc₂, hcells₂⟩ := Allocator.dealloc_spec h.backed (hdrop.held owner (by simp))
  refine ⟨w₂, by rw [destroyBuffered, hdealloc, ok_bind, hdealloc₂], ?_⟩
  exact (hdrop.trans (.drop (by simp) (by simp) hcells₂)).congr (by simp [or_comm]) (by simp)

/-- **Another buffer.**  A new block that was filled takes the place of the buffer, which
is released. -/
theorem replaced (h : Buffered a owner buffer size w bs) {n : ℕ} (hlen : bs'.length = n)
    (hfits : n ≤ sizeMax) {w₁ w₂ : Memory} {c : Cell Content}
    (hnew : w₁.cells = Function.update w.cells w.next (some c))
    (hfilled : w₂.cells = Function.update w₁.cells w.next (some ⟨n, .bytes bs'⟩)) :
    ∃ w₃, Allocator.dealloc Memory.libc (some a) w₂ buffer = .ok w₃ ∧
      Buffered a owner w.next n w₃ bs' ∧
      Exchange (Reclaims a) [owner, buffer] [owner, w.next] w w₃ ∧
      (Reclaims a → w₃.cells buffer = none) ∧
      (¬ Reclaims a → w₃.cells buffer = w.cells buffer) := by
  have hbuffer : buffer ≠ w.next := Mem.ne_next_of_live (Mem.live_of h.cell)
  have hgain : Exchange (Reclaims a) [owner, buffer] [w.next, owner, buffer] w w₁ :=
    .gain h.live hnew
  have hwrite : Exchange (Reclaims a) [w.next, owner, buffer] [w.next, owner, buffer] w₁ w₂ :=
    .write hgain.held (by simp) hfilled
  obtain ⟨w₃, hdealloc, hcells⟩ :=
    Allocator.dealloc_spec h.backed (hwrite.held buffer (by simp))
  have hdrop : Exchange (Reclaims a) [buffer, owner, w.next] [owner, w.next] w₂ w₃ := by
    refine .drop (fun p hp => hwrite.held p ?_) ?_ hcells
    · simp only [List.mem_cons, List.not_mem_nil, or_false] at hp ⊢
      tauto
    · simp [h.apart.symm, hbuffer]
  refine ⟨w₃, hdealloc, ⟨h.backed, hdrop.held _ (by simp), ?_, Mem.ne_next_of_live h.handle, hlen,
    hfits⟩, (hgain.trans hwrite).trans (hdrop.congr ?_ ?_),
    fun hreclaims => ?_, fun hkept => ?_⟩
  · rw [Allocator.dealloc_kept hcells hbuffer.symm, hfilled, Function.update_self]
  · simp only [List.mem_cons, List.not_mem_nil, or_false]
    tauto
  · simp only [List.mem_cons, List.not_mem_nil, or_false]
    tauto
  · rcases hcells with hcells | ⟨hkept, -⟩
    · rw [hcells, Function.update_self]
    · exact absurd hreclaims hkept
  · cases hdealloc.symm.trans (Allocator.dealloc_of_not_reclaims h.backed hkept w₂ buffer)
    rw [hfilled, Function.update_of_ne hbuffer, hnew, Function.update_of_ne hbuffer]

end Buffered

/-- The destructor asks for nothing. -/
theorem destroyBuffered_asked {a : Allocator Memory} {owner buffer : ℕ} {w w' : Memory}
    (ha : Backed a) (h : destroyBuffered a owner buffer w = .ok w') : w.Asked w' False := by
  obtain ⟨w₁, hfirst, hsecond⟩ := bind_eq_ok.1 h
  exact (Allocator.dealloc_asked ha hfirst).andThen (Allocator.dealloc_asked ha hsecond)

/-- A second part that is one buffer. -/
theorem bufferPayload_spec {a : Allocator Memory} (ha : Backed a) (size : ℕ) (w : Memory) :
    ∃ st p w', Allocator.alloc Memory.libc (some a) w size = .ok ((st, p), w') ∧
      ((st ≠ .ok ∧ Exchange (Reclaims a) [] [] w w') ∨
        (st = .ok ∧ Exchange (Reclaims a) [] [p] w w' ∧
          ∃ bs, bs.length = size ∧ w'.cells p = some ⟨size, .bytes bs⟩)) := by
  rcases Allocator.alloc_spec ha w size with ⟨w', halloc, hcells⟩ | ⟨bs, w', halloc, hlen, hcells⟩
  · exact ⟨_, _, w', halloc, .inl ⟨by decide, .same (by simp) hcells⟩⟩
  · refine ⟨_, _, w', halloc, .inr ⟨rfl, .gain (by simp) hcells, bs, hlen, ?_⟩⟩
    rw [hcells, Function.update_self]

end K4c
