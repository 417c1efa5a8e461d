import Mathlib.Tactic
import K4c.Datastruct.MonitoredCollect

/-!
# Containers over an arena

A container over the view of an arena asks it for blocks and resizes its own, while other
code uses the same arena.  The monitored view is put in its place, which stops where an
arena would.

* `Container.Served` — the container does not notice: every run is the same.
* `Container.served_of` — an invariant under which one call is the same is enough.
* `arena_never_stops` — vectors, those that were collected, heaps and strings are served.
-/

namespace K4c

open Exec Blocks Runs Arena

/-! ## One container -/

section Generic

variable {σ C : Type} {K K' : Container σ C} {under : Allocator Memory → σ → σ} {w₀ : Memory}

/-- A property of handles and memories that the constructor establishes, that calls keep,
and that others do not break. -/
structure Container.Keeps (K : Container σ C) (w₀ : Memory) (I : σ → Memory → Prop) : Prop where
  create : ∀ h st w, K.create w₀ = .ok ((st, some h), w) → I h w
  call : ∀ s c s', I s.1 s.2 → K.call s c = .ok s' → I s'.1 s'.2
  elsewhere : ∀ h w w' o, I h w → K.Owns (h, w) o → (∀ p ∈ o, w'.cells p = w.cells p) → I h w'

theorem Container.Keeps.reachable {I : σ → Memory → Prop} (h : K.Keeps w₀ I) {s : σ × Memory}
    (hreach : K.Reachable (fun _ _ => True) w₀ s) : I s.1 s.2 := by
  induction hreach with
  | create hcreate => exact h.create _ _ _ hcreate
  | call _ _ hcall ih => exact h.call _ _ _ ih hcall
  | elsewhere _ howns hsame ih => exact h.elsewhere _ _ _ _ ih howns hsame

variable [Platform]

/-- `K` is a container over the view of an arena, `K'` the same one where every request is
looked at.  They are created the same; from every state that can be reached, with whatever
arguments and with other code at work meanwhile, all calls that follow return the same or
fail the same, also where a release is a failed assertion; and they are destroyed the
same. -/
structure Container.Served {σ C : Type} (K K' : Container σ C)
    (under : Allocator Memory → σ → σ) (w₀ : Memory) : Prop where
  create : K'.create w₀ =
    (K.create w₀).map fun r => ((r.1.1, r.1.2.map (under (monitored false))), r.2)
  runs : ∀ s, K.Reachable (fun _ _ => True) w₀ s → ∀ releases calls,
    trace K'.step (under (monitored releases) s.1, s.2) calls =
      (trace K.step s calls).map (Prod.map id (Prod.map (under (monitored releases)) id))
  destroy : ∀ s, K.Reachable (fun _ _ => True) w₀ s →
    K'.destroy (under (monitored false) s.1) s.2 = K.destroy s.1 s.2

/-- **One call is enough.** -/
theorem Container.served_of {I : σ → Memory → Prop} (hkept : K.Keeps w₀ I)
    (hcreate : K'.create w₀ =
      (K.create w₀).map fun r => ((r.1.1, r.1.2.map (under (monitored false))), r.2))
    (hcall : ∀ h w c releases, I h w → K'.call (under (monitored releases) h, w) c =
      (K.call (h, w) c).map (Prod.map (under (monitored releases)) id))
    (hdestroy : ∀ h w, I h w → K'.destroy (under (monitored false) h) w = K.destroy h w) :
    K.Served K' under w₀ where
  create := hcreate
  runs s hs releases calls := by
    refine trace_map_of (I := fun s => I s.1 s.2) (f := Prod.map (under (monitored releases)) id)
      ?_ ?_ calls s (hkept.reachable hs)
    · rintro ⟨h, w⟩ c hi
      change (K'.call (under (monitored releases) h, w) c >>= _) = _
      rw [hcall h w c releases hi, map_then_bind, step, bind_then_map]
      rfl
    · rintro ⟨h, w⟩ c r hi hstep
      obtain ⟨s', hcall', hout⟩ := bind_eq_ok.1 hstep
      cases hout
      exact hkept.call _ _ _ hi hcall'
  destroy s hs := hdestroy _ _ (hkept.reachable hs)

end Generic

section Served

variable [Platform]

/-! ## Vectors -/

namespace Vector

variable {ι : Type}

/-- Vectors that are made of what an iterator yields. -/
def collected (callback : Memory → ι → Result (Option Arg × ι)) (fuel : ℕ) (source : Iterator ι)
    (elemSize : ℕ) (allocator : Option (Allocator Memory)) : Container Vector Op where
  create w := do
    let (out, _, w) ← collect callback fuel source elemSize allocator w
    return (out, w)
  call := call
  destroy := destroy
  Owns s o := o = s.1.owned
  Allowed := Op.Allowed

/-- Vectors that are made of what becomes of the items of an iterator. -/
def collectedMap (callback : Memory → ι → Result (Option Arg × ι))
    (map : List UInt8 → List UInt8) (itemSize fuel : ℕ) (source : Iterator ι) (dstElemSize : ℕ)
    (allocator : Option (Allocator Memory)) : Container Vector Op where
  create w := do
    let (out, _, w) ← collectMap callback map itemSize fuel source dstElemSize allocator w
    return (out, w)
  call := call
  destroy := destroy
  Owns s o := o = s.1.owned
  Allowed := Op.Allowed

/-- The calls are the same, whatever the constructor is. -/
theorem served {create create' : Memory → Result ((Status × Option Vector) × Memory)}
    {w₀ : Memory}
    (hcreate : create' w₀ = (create w₀).map fun r =>
      ((r.1.1, r.1.2.map (under (monitored false))), r.2))
    (hsized : ∀ v st w, create w₀ = .ok ((st, some v), w) → Sized v w) :
    Container.Served ⟨create, call, destroy, fun s o => o = s.1.owned, Op.Allowed⟩
      ⟨create', call, destroy, fun s o => o = s.1.owned, Op.Allowed⟩ under w₀ := by
  refine Container.served_of (I := Sized) ⟨hsized, fun s c s' hs hcall => call_sized hs hcall, ?_⟩
    hcreate (fun v w c releases hs => call_monitored releases hs c)
    fun v w hs => destroy_monitored hs.allocator w
  rintro v w w' o hs rfl hsame
  exact { hs with buffer := (Mem.sizeOf_congr (hsame _ (by simp [owned]))).trans hs.buffer }

end Vector

/-! ## Heaps and strings -/

theorem BinaryHeap.served (elemSize : ℕ) (cmp : Option (List UInt8 → List UInt8 → ℤ))
    (w₀ : Memory) :
    (container elemSize cmp (some blockView)).Served
      (container elemSize cmp (some (monitored false))) BinaryHeap.under w₀ := by
  refine Container.served_of (I := Sized)
    ⟨fun h st w => create_sized, fun s c s' hs hcall => call_sized hs hcall, ?_⟩
    (create_monitored elemSize cmp w₀)
    (fun h w c releases hs => call_monitored releases hs.root c)
    fun h w hs => destroy_monitored hs
  rintro h w w' o hs rfl hsame
  have hbuffer := Mem.sizeOf_congr (hsame h.root.buffer (by simp [owned, Vector.owned]))
  exact ⟨hs.allocator, { hs.root with buffer := hbuffer.trans hs.root.buffer }⟩

theorem StringHeader.served (initial : Arg) (w₀ : Memory) :
    (container initial (some blockView)).Served (container initial (some (monitored false)))
      StringHeader.under w₀ := by
  refine Container.served_of (I := Sized)
    ⟨fun s st w => create_sized, fun s c s' hs hcall => call_sized hs hcall, ?_⟩
    (create_monitored initial w₀) (fun s w c releases hs => call_monitored releases hs c)
    fun s w hs => destroy_monitored hs
  rintro s w w' o hs rfl hsame
  exact { hs with block := (Mem.sizeOf_congr (hsame _ (by simp [owned]))).trans hs.block }

/-! ## All of them -/

/-- **No container stops an arena.**  Vectors, created or collected, binary heaps and
strings over the view of an arena do not notice when every request is looked at, in any
run: no request for a block and no resize, none of which is to zero or to less than the
size in the header, fails an assertion of an arena that still has the block.  And what is
assumed of the memory behind the view leaves out no answer of an arena. -/
theorem arena_never_stops :
    (∀ (elemSize capacity : ℕ) (w₀ : Memory),
      (Vector.container elemSize capacity (some blockView)).Served
        (Vector.container elemSize capacity (some (monitored false))) Vector.under w₀) ∧
    (∀ (ι : Type) (callback : Memory → ι → Result (Option Arg × ι)) (fuel : ℕ)
      (source : Iterator ι) (elemSize : ℕ) (w₀ : Memory),
      (Vector.collected callback fuel source elemSize (some blockView)).Served
        (Vector.collected callback fuel source elemSize (some (monitored false)))
        Vector.under w₀) ∧
    (∀ (ι : Type) (callback : Memory → ι → Result (Option Arg × ι))
      (map : List UInt8 → List UInt8) (itemSize fuel : ℕ) (source : Iterator ι)
      (dstElemSize : ℕ) (w₀ : Memory),
      (Vector.collectedMap callback map itemSize fuel source dstElemSize (some blockView)).Served
        (Vector.collectedMap callback map itemSize fuel source dstElemSize
          (some (monitored false))) Vector.under w₀) ∧
    (∀ (elemSize : ℕ) (cmp : Option (List UInt8 → List UInt8 → ℤ)) (w₀ : Memory),
      (BinaryHeap.container elemSize cmp (some blockView)).Served
        (BinaryHeap.container elemSize cmp (some (monitored false))) BinaryHeap.under w₀) ∧
    (∀ (initial : Arg) (w₀ : Memory),
      (StringHeader.container initial (some blockView)).Served
        (StringHeader.container initial (some (monitored false))) StringHeader.under w₀) ∧
    ∀ (libc : Libc Arena) (s : Client) (addr : ℕ → ℕ) (o : Set ℕ) (w : Memory),
      Mirrors libc s addr o w → Follows libc s addr o w := by
  refine ⟨fun elemSize capacity w₀ => ?_, fun ι callback fuel source elemSize w₀ => ?_,
    fun ι callback map itemSize fuel source dstElemSize w₀ => ?_, BinaryHeap.served,
    StringHeader.served, fun libc s addr o w h => h.follows⟩
  · exact Vector.served (Vector.createWithCapacity_monitored elemSize capacity w₀)
      fun v st w => Vector.createWithCapacity_sized
  · refine Vector.served ?_ fun v st w hcreate => ?_
    · rw [Vector.collect_monitored, map_then_bind, bind_then_map]
      rfl
    · obtain ⟨⟨⟨st', out⟩, s⟩, hcollect, hout⟩ := bind_eq_ok.1 hcreate
      cases hout
      exact Vector.collect_sized hcollect
  · refine Vector.served ?_ fun v st w hcreate => ?_
    · rw [Vector.collectMap_monitored, map_then_bind, bind_then_map]
      rfl
    · obtain ⟨⟨⟨st', out⟩, s⟩, hcollect, hout⟩ := bind_eq_ok.1 hcreate
      cases hout
      exact Vector.collectMap_sized hcollect

end Served

section Lp64

local instance : Platform := lp64

/-- A string beside a block of 64 bytes that a small arena has handed out. -/
theorem arena_never_stops_beside_block : ∃ (s : Client) (w : Memory),
    s.live 80 = some 64 ∧ Mirrors .exhausted s (fun _ => 80) {1} w ∧
      (StringHeader.container (.outside [104, 105, 0]) (some blockView)).Served
        (StringHeader.container (.outside [104, 105, 0]) (some (monitored false)))
        StringHeader.under w ∧
      Follows .exhausted s (fun _ => 80) {1} w := by
  obtain ⟨st, a, _, hcreate, hcheck⟩ := exists_of_check
    (r := create Libc.bump (fun _ => 0) 1 250)
    (f := fun a => decide (Sat (Client.step .exhausted (Client.start a) (.alloc 64)) fun t =>
      t.2.live 80 = some 64)) (by decide +kernel)
  obtain ⟨t, hstep, hlive⟩ := of_decide_eq_true hcheck
  obtain ⟨bs, w, -, -, hcells⟩ := Allocator.alloc_granted
    (w := (Mem.empty fun _ => some ⟨false, 0⟩ : Memory)) backed_blockView 64 rfl
  have hsize : w.sizeOf 1 = some 64 :=
    Mem.sizeOf_eq (by rw [hcells]; exact Function.update_self ..)
  have hmirrors : Mirrors .exhausted t.2 (fun _ => 80) {1} w := by
    have hreached : t.2.Reached .exhausted :=
      .call (c := .alloc 64) (.create Libc.bump_placed hcreate) (Nat.succ_pos 63) hstep
    refine ⟨hreached, ?_, ?_⟩
    · rintro p rfl
      exact ⟨64, hsize, hlive⟩
    · rintro p rfl q rfl -
      rfl
  exact ⟨t.2, w, hlive, hmirrors, arena_never_stops.2.2.2.2.1 _ _,
    arena_never_stops.2.2.2.2.2 _ _ _ _ _ hmirrors⟩

end Lp64

end K4c
