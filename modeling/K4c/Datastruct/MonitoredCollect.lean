import Mathlib.Tactic
import K4c.Datastruct.MonitoredCalls

/-!
# Collecting over a monitored arena

`k4c_vector_collect` and `k4c_vector_collect_map` create a vector, reserve what the
iterator announces and push what it yields, whatever it yields: over the view of an arena
as over the one that looks at every request.
-/

namespace K4c.Vector

open Exec Blocks Arena

variable [Platform] {σ : Type} {v : Vector} {w : Memory}

/-- What a round does with an item writes to blocks, and nothing else. -/
def Prepares (prepare : Arg → Memory → Result (Arg × Memory)) : Prop :=
  ∀ item w x w', prepare item w = .ok (x, w') → ∀ p, w'.sizeOf p = w.sizeOf p

theorem collectCreate_monitored (sizeHint elemSize : ℕ) (w : Memory) :
    collectCreate sizeHint elemSize (some (monitored false)) w =
      (collectCreate sizeHint elemSize (some blockView) w).map fun r =>
        ((r.1.1, r.1.2.map (under (monitored false))), r.2) := by
  rw [collectCreate, collectCreate, create, create, createWithCapacity_monitored, map_then_bind,
    bind_then_map]
  cases hcreate : createWithCapacity elemSize defaultCapacity (some blockView) w with
  | error e => rfl
  | ok r =>
    obtain ⟨⟨st, out⟩, w₁⟩ := r
    cases out with
    | none => rfl
    | some v =>
      have hs := createWithCapacity_sized hcreate
      simp only [ok_bind, Option.map_some]
      split
      · rw [reserve_monitored false hs, map_then_bind, bind_then_map]
        cases hreserve : reserve v sizeHint w₁ with
        | error e => rfl
        | ok r =>
          obtain ⟨⟨st, v'⟩, w₂⟩ := r
          simp only [ok_bind]
          split
          · rw [destroy_monitored (reserve_sized hs hreserve).allocator, bind_then_map]
            rfl
          · rfl
      · rfl

theorem collectCreate_sized {sizeHint elemSize : ℕ} {st : Status} {w' : Memory}
    (h : collectCreate sizeHint elemSize (some blockView) w = .ok ((st, some v), w')) :
    Sized v w' := by
  obtain ⟨⟨⟨st₁, out⟩, w₁⟩, hcreate, h⟩ := bind_eq_ok.1 h
  cases out with
  | none => cases h
  | some v₁ =>
    have hs := createWithCapacity_sized hcreate
    dsimp only at h
    split at h
    · obtain ⟨⟨⟨st₂, v₂⟩, w₂⟩, hreserve, h⟩ := bind_eq_ok.1 h
      dsimp only at h
      split at h
      · obtain ⟨w₃, -, h⟩ := bind_eq_ok.1 h
        cases h
      · cases h
        exact reserve_sized hs hreserve
    · cases h
      exact hs

variable {callback : Memory → σ → Result (Option Arg × σ)}
  {prepare : Arg → Memory → Result (Arg × Memory)} {cleanup : Memory → Result Memory}

theorem collectRound_monitored (hprepare : Prepares prepare) (hs : Sized v w)
    (source : Iterator σ) :
    collectRound callback prepare cleanup (source, v.under (monitored false), w) =
      (collectRound callback prepare cleanup (source, v, w)).map
        (Sum.map (fun s => (s.1, s.2.1.under (monitored false), s.2.2))
          fun r => ((r.1.1, r.1.2.map (under (monitored false))), r.2)) := by
  rw [collectRound, collectRound, bind_then_map]
  refine bind_congr fun r => ?_
  obtain ⟨item, source'⟩ := r
  cases item with
  | none =>
    dsimp only
    rw [bind_then_map]
    rfl
  | some item =>
    dsimp only
    rw [bind_then_map]
    cases hitem : prepare item w with
    | error e => rfl
    | ok r =>
      obtain ⟨element, w₁⟩ := r
      have hs₁ := hs.keep (hprepare _ _ _ _ hitem)
      simp only [ok_bind]
      rw [push_monitored false hs₁, map_then_bind, bind_then_map]
      cases hpush : push v element w₁ with
      | error e => rfl
      | ok r =>
        obtain ⟨⟨st, v'⟩, w₂⟩ := r
        simp only [ok_bind]
        split
        · rw [bind_then_map]
          refine bind_congr fun w₃ => ?_
          rw [destroy_monitored (push_sized hs₁ hpush).allocator, bind_then_map]
          rfl
        · rfl

/-- A round that goes on has pushed an item. -/
theorem collectRound_sized (hprepare : Prepares prepare) (hs : Sized v w) {source : Iterator σ}
    {s : Iterator σ × Vector × Memory}
    (h : collectRound callback prepare cleanup (source, v, w) = .ok (.inl s)) :
    Sized s.2.1 s.2.2 := by
  obtain ⟨⟨item, source'⟩, -, h⟩ := bind_eq_ok.1 h
  cases item with
  | none =>
    obtain ⟨w₁, -, h⟩ := bind_eq_ok.1 h
    cases h
  | some item =>
    obtain ⟨⟨element, w₁⟩, hitem, h⟩ := bind_eq_ok.1 h
    obtain ⟨⟨⟨st, v'⟩, w₂⟩, hpush, h⟩ := bind_eq_ok.1 h
    dsimp only at h
    split at h
    · obtain ⟨w₃, -, h⟩ := bind_eq_ok.1 h
      obtain ⟨w₄, -, h⟩ := bind_eq_ok.1 h
      cases h
    · cases h
      exact push_sized (hs.keep (hprepare _ _ _ _ hitem)) hpush

/-- The vector of a loop that gave one is that of its last round. -/
theorem collectRound_last (hcleanup : ∀ w w', cleanup w = .ok w' → ∀ p, w'.sizeOf p = w.sizeOf p)
    (hs : Sized v w) {source : Iterator σ} {st : Status} {s : Iterator σ × Memory}
    {v' : Vector}
    (h : collectRound callback prepare cleanup (source, v, w) = .ok (.inr ((st, some v'), s))) :
    Sized v' s.2 := by
  obtain ⟨⟨item, source'⟩, -, h⟩ := bind_eq_ok.1 h
  cases item with
  | none =>
    obtain ⟨w₁, hclean, h⟩ := bind_eq_ok.1 h
    cases h
    exact hs.keep (hcleanup _ _ hclean)
  | some item =>
    obtain ⟨⟨element, w₁⟩, hitem, h⟩ := bind_eq_ok.1 h
    obtain ⟨⟨⟨st, v'⟩, w₂⟩, hpush, h⟩ := bind_eq_ok.1 h
    dsimp only at h
    split at h
    · obtain ⟨w₃, -, h⟩ := bind_eq_ok.1 h
      obtain ⟨w₄, -, h⟩ := bind_eq_ok.1 h
      cases h
    · cases h

theorem collectLoop_monitored (hprepare : Prepares prepare) (hs : Sized v w)
    (source : Iterator σ) (fuel : ℕ) :
    loop (collectRound callback prepare cleanup) fuel (source, v.under (monitored false), w) =
      (loop (collectRound callback prepare cleanup) fuel (source, v, w)).map fun r =>
        ((r.1.1, r.1.2.map (under (monitored false))), r.2) :=
  loop_map_of (I := fun s => Sized s.2.1 s.2.2)
    (f := fun s : Iterator σ × Vector × Memory => (s.1, s.2.1.under (monitored false), s.2.2))
    (fun s hs => collectRound_monitored hprepare hs s.1)
    (fun _ _ hs hbody => collectRound_sized hprepare hs hbody) fuel (source, v, w) hs

theorem collectLoop_sized (hprepare : Prepares prepare)
    (hcleanup : ∀ w w', cleanup w = .ok w' → ∀ p, w'.sizeOf p = w.sizeOf p) (hs : Sized v w)
    {source : Iterator σ} {fuel : ℕ} {st : Status} {v' : Vector} {s : Iterator σ × Memory}
    (h : loop (collectRound callback prepare cleanup) fuel (source, v, w) =
      .ok ((st, some v'), s)) : Sized v' s.2 := by
  refine loop_keeps (I := fun s => Sized s.2.1 s.2.2)
    (Q := fun r => ∀ v', r.1.2 = some v' → Sized v' r.2.2) ?_ fuel _ _ hs h v' rfl
  rintro ⟨source, v, w⟩ o hs hbody
  rcases o with s | ⟨⟨st, out⟩, s⟩
  · exact collectRound_sized hprepare hs hbody
  · rintro v' rfl
    exact collectRound_last hcleanup hs hbody

/-! ## The two constructors -/

omit [Platform] in
theorem prepares_same : Prepares fun item w => .ok (item, w) := by
  intro item w x w' h p
  cases h
  rfl

omit [Platform] in
theorem prepares_applyMap (map : List UInt8 → List UInt8) (itemSize dst : ℕ) :
    Prepares (applyMap map itemSize dst) := by
  intro item w x w' h p
  obtain ⟨bytes, -, h⟩ := bind_eq_ok.1 h
  obtain ⟨w₁, hwrite, h⟩ := bind_eq_ok.1 h
  cases h
  exact (Memory.write_rewritten hwrite).sizes p

theorem collect_monitored (fuel : ℕ) (source : Iterator σ) (elemSize : ℕ) (w : Memory) :
    collect callback fuel source elemSize (some (monitored false)) w =
      (collect callback fuel source elemSize (some blockView) w).map fun r =>
        ((r.1.1, r.1.2.map (under (monitored false))), r.2) := by
  rw [collect, collect, bind_then_map]
  refine bind_congr fun _ => ?_
  rw [collectCreate_monitored, map_then_bind, bind_then_map]
  cases hcreate : collectCreate source.sizeHint elemSize (some blockView) w with
  | error e => rfl
  | ok r =>
    obtain ⟨⟨st, out⟩, w₁⟩ := r
    cases out with
    | none => rfl
    | some v => exact collectLoop_monitored prepares_same (collectCreate_sized hcreate) source fuel

theorem collect_sized {fuel : ℕ} {source : Iterator σ} {elemSize : ℕ} {st : Status}
    {s : Iterator σ × Memory}
    (h : collect callback fuel source elemSize (some blockView) w = .ok ((st, some v), s)) :
    Sized v s.2 := by
  obtain ⟨_, -, h⟩ := bind_eq_ok.1 h
  obtain ⟨⟨⟨st₁, out⟩, w₁⟩, hcreate, h⟩ := bind_eq_ok.1 h
  cases out with
  | none => cases h
  | some v₁ =>
    refine collectLoop_sized prepares_same (fun w w' hw p => ?_) (collectCreate_sized hcreate) h
    cases hw
    rfl

theorem collectMap_monitored (map : List UInt8 → List UInt8) (itemSize fuel : ℕ)
    (source : Iterator σ) (dstElemSize : ℕ) (w : Memory) :
    collectMap callback map itemSize fuel source dstElemSize (some (monitored false)) w =
      (collectMap callback map itemSize fuel source dstElemSize (some blockView) w).map fun r =>
        ((r.1.1, r.1.2.map (under (monitored false))), r.2) := by
  rw [collectMap, collectMap, bind_then_map]
  by_cases helem : dstElemSize > 0
  swap
  · rw [check, if_neg helem]
    rfl
  rw [check_of helem, ok_bind, ok_bind, collectCreate_monitored, map_then_bind, bind_then_map]
  cases hcreate : collectCreate source.sizeHint dstElemSize (some blockView) w with
  | error e => rfl
  | ok r =>
    obtain ⟨⟨st, out⟩, w₁⟩ := r
    cases out with
    | none => rfl
    | some v =>
      have hs := collectCreate_sized hcreate
      simp only [ok_bind, Option.map_some]
      rw [alloc_monitored false w₁ helem, bind_then_map]
      cases halloc : Allocator.alloc Memory.libc (some blockView) w₁ dstElemSize with
      | error e => rfl
      | ok r =>
        obtain ⟨⟨st, dst⟩, w₂⟩ := r
        have hs₂ := hs.beside halloc
        simp only [ok_bind]
        split
        · rw [destroy_monitored hs.allocator, bind_then_map]
          rfl
        · exact collectLoop_monitored (prepares_applyMap map itemSize dst) hs₂ source fuel

theorem collectMap_sized {map : List UInt8 → List UInt8} {itemSize fuel : ℕ}
    {source : Iterator σ} {dstElemSize : ℕ} {st : Status} {s : Iterator σ × Memory}
    (h : collectMap callback map itemSize fuel source dstElemSize (some blockView) w =
      .ok ((st, some v), s)) : Sized v s.2 := by
  obtain ⟨_, -, h⟩ := bind_eq_ok.1 h
  obtain ⟨⟨⟨st₁, out⟩, w₁⟩, hcreate, h⟩ := bind_eq_ok.1 h
  cases out with
  | none => cases h
  | some v₁ =>
    obtain ⟨⟨⟨st₂, dst⟩, w₂⟩, halloc, h⟩ := bind_eq_ok.1 h
    have hs₂ := (collectCreate_sized hcreate).beside halloc
    dsimp only at h
    split at h
    · obtain ⟨w₃, -, h⟩ := bind_eq_ok.1 h
      cases h
    · refine collectLoop_sized (prepares_applyMap map itemSize dst) (fun w w' hw p => ?_) hs₂ h
      cases hw
      rfl

end K4c.Vector
