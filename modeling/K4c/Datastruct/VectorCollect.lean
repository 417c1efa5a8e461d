import Mathlib.Tactic
import K4c.Datastruct.Refusals
import K4c.Datastruct.VectorRuns
import K4c.Mem.Lifecycle

/-!
# Collecting an iterator into a vector

`collect` and `collect_map` allocate a handle, a buffer, room for as many elements as the
iterator announces and, for the second, a block for the mapped element; then they push
what the iterator yields.  Any of these requests may be refused, after any number of
items.

* `Remaining` — the items that an iterator still has, given by their bytes.
* `Workspace` — what the two loops keep beside the vector, and how they turn an item
  into the element that is pushed.
* `collect_loop` — the loop, for any workspace.
* `TooLarge` — a size that is asked for on the way is no `size_t`.
* `collect_exact` — **all or nothing**: the items in order, whatever the size hint, or
  nothing left allocated and a status that says why.
-/

namespace K4c.Vector

open Exec Bytes Slots Blocks

variable {σ : Type}

/-! ## The items of an iterator -/

/-- Every block is still there as it was. -/
def Keeps (w₀ w : Memory) : Prop := ∀ p c, w₀.cells p = some c → w.cells p = some c

/-- From the state `s` the iterator yields items that read as these, and then nothing, in
every memory in which the blocks of `w₀` are as they were. -/
inductive Remaining (callback : Memory → σ → Result (Option Arg × σ)) (w₀ : Memory) (n : ℕ) :
    σ → List (List UInt8) → Prop
  | done {s : σ} (h : ∀ w, Keeps w₀ w → ∃ s', callback w s = .ok (none, s')) :
      Remaining callback w₀ n s []
  | item {s s' : σ} {x : Arg} {e : List UInt8} {es : List (List UInt8)}
      (h : ∀ w, Keeps w₀ w → callback w s = .ok (some x, s')) (hx : x.Reads w₀ [] n e)
      (hrest : Remaining callback w₀ n s' es) : Remaining callback w₀ n s (e :: es)

/-- An iterator that does not look at the memory. -/
theorem remaining_of_yields {callback : σ → Result (Option Arg × σ)} {w₀ : Memory} {n : ℕ}
    {s : σ} {xs : List Arg} (h : Iterator.Yields callback s xs) {es : List (List UInt8)}
    (hes : List.Forall₂ (fun x e => x.Reads w₀ [] n e) xs es) :
    Remaining (fun _ => callback) w₀ n s es := by
  induction h generalizing es with
  | @done s s' h =>
    cases hes
    exact .done fun _ _ => ⟨s', h⟩
  | item h _ ih =>
    cases hes with
    | cons hx hxs => exact .item (fun _ _ => h) hx (ih hxs)

theorem keeps_of_exchange {reclaims : Prop} {o : List ℕ} {w₀ w : Memory}
    (h : Exchange reclaims [] o w₀ w) : Keeps w₀ w :=
  fun p c hc => (h.others p c hc List.not_mem_nil).1

/-! ## What a loop keeps beside the vector -/

/-- The blocks `r` are ready between two rounds; an item of `n` bytes is turned into an
element of `m` bytes, its image under `f`; and at the end the blocks are released. -/
structure Workspace (reclaims : Prop) (r : List ℕ) (Ready : Memory → Prop) (n m : ℕ)
    (f : List UInt8 → List UInt8) (prepare : Arg → Memory → Result (Arg × Memory))
    (cleanup : Memory → Result Memory) : Prop where
  live : ∀ w, Ready w → ∀ p ∈ r, w.Live p
  kept : ∀ w w', Ready w → (∀ p ∈ r, w'.cells p = w.cells p) → Ready w'
  prepare : ∀ w o item e, Ready w → item.Reads w (r ++ o) n e → (∀ p ∈ r, p ∉ o) →
    ∃ element w', prepare item w = .ok (element, w') ∧ Ready w' ∧
      (∀ p, p ∉ r → w'.cells p = w.cells p) ∧ element.Reads w' o m (f e) ∧ w.Asked w' False
  cleanup : ∀ w, Ready w → ∃ w', cleanup w = .ok w' ∧ Exchange reclaims r [] w w' ∧
    w.Asked w' False

/-- `collect` keeps nothing and pushes the item itself. -/
theorem workspace_item {reclaims : Prop} (n : ℕ) :
    Workspace reclaims [] (fun _ => True) n n id (fun item w => .ok (item, w)) .ok where
  live _ _ _ hp := absurd hp List.not_mem_nil
  kept _ _ _ _ := trivial
  prepare w _ item _ _ hread _ := ⟨item, w, rfl, trivial, fun _ _ => rfl, hread, .refl w id⟩
  cleanup w _ := ⟨w, rfl, .refl fun _ hp => absurd hp List.not_mem_nil, .refl w id⟩

/-- `collect_map` keeps one block, which the callback fills. -/
theorem workspace_map {allocator : Option (Allocator Memory)}
    (hbacked : Backed (Allocator.copy allocator)) {map : List UInt8 → List UInt8} {n m : ℕ}
    (hmap : ∀ e, e.length = n → (map e).length = m) (dst : ℕ) :
    Workspace (Reclaims (Allocator.copy allocator)) [dst]
      (fun w => ∃ bs, bs.length = m ∧ w.cells dst = some ⟨m, .bytes bs⟩) n m map
      (applyMap map n dst) fun w => Allocator.dealloc Memory.libc allocator w dst where
  live := by
    rintro w ⟨bs, -, hcell⟩ p hp
    rw [List.mem_singleton.1 hp]
    exact Mem.live_of hcell
  kept := by
    rintro w w' ⟨bs, hlen, hcell⟩ hsame
    exact ⟨bs, hlen, by rw [hsame dst (List.mem_singleton_self _), hcell]⟩
  prepare := by
    rintro w o item e ⟨bs, hlen, hcell⟩ hread hapart
    have hm := hmap e hread.length
    obtain ⟨w', hwrite, hcells⟩ :=
      Memory.write_eq (k := 0) (e := map e) hcell (by rw [hm, hlen, Nat.zero_add])
    have hnew : splice bs 0 (map e) = map e := by
      rw [splice, List.take_zero, List.nil_append, List.drop_eq_nil_of_le (by omega),
        List.append_nil]
    rw [hnew] at hcells
    have hcell' : w'.cells dst = some ⟨m, .bytes (map e)⟩ := by
      rw [hcells, Function.update_self]
    refine ⟨.inside ⟨dst, 0⟩, w', ?_, ⟨map e, hm, hcell'⟩, fun p hp => ?_, ?_,
      (Memory.write_rewritten hwrite).toQuiet.asked id⟩
    · rw [applyMap, hread.source, ok_bind, hwrite, ok_bind, pure_eq_ok]
    · rw [hcells, Function.update_of_ne (by simpa using hp)]
    · refine ⟨hapart dst (List.mem_singleton_self _), m, _, map e, hcell', rfl, ?_, ?_⟩
      · rw [hm, Nat.zero_add]
      · rw [slice, List.drop_zero, ← hm, List.take_length]
  cleanup := by
    rintro w ⟨bs, -, hcell⟩
    obtain ⟨w', hdealloc, hcells⟩ := Allocator.dealloc_spec hbacked (Mem.live_of hcell)
    exact ⟨w', by rw [Allocator.dealloc_copy, hdealloc], .drop (by simp) (by simp) hcells,
      Allocator.dealloc_asked hbacked hdealloc⟩

/-! ## The loop -/

variable {v v' : Vector} {w w' w₀ : Memory} {bs : List UInt8}

/-- A vector whose blocks are as they were. -/
theorem Holds.frame (h : Holds v w bs) (hsame : ∀ p ∈ v.owned, w'.cells p = w.cells p) :
    Holds v w' bs := by
  have hself := h.buffered.handle
  refine { h with buffered := { h.buffered with handle := ?_, cell := ?_ } }
  · rwa [Mem.Live, hsame v.self (by simp [owned])]
  · rw [hsame v.buffer (by simp [owned]), h.buffered.cell]

/-- What the vector of a finished loop holds. -/
def Filled (a : Allocator Memory) (m : ℕ) (es : List (List UInt8)) (v : Vector) (w : Memory) :
    Prop :=
  ∃ bs, Holds v w bs ∧ v.elements bs = es ∧ v.elemSize = m ∧ v.allocator = a

variable {a : Allocator Memory} {r : List ℕ} {Ready : Memory → Prop} {n m : ℕ}
  {f : List UInt8 → List UInt8} {prepare : Arg → Memory → Result (Arg × Memory)}
  {cleanup : Memory → Result Memory} {callback : Memory → σ → Result (Option Arg × σ)}

/-- The state between two rounds: the vector and the workspace have come since `w₀`, and
nothing has failed. -/
structure Collecting (a : Allocator Memory) (r : List ℕ) (Ready : Memory → Prop) (m : ℕ)
    (w₀ : Memory) (es : List (List UInt8)) (v : Vector) (w : Memory) : Prop where
  gained : Exchange (Reclaims a) [] (r ++ v.owned) w₀ w
  asked : w₀.Asked w False
  room : defaultCapacity ≤ v.capacity
  ready : Ready w
  apart : ∀ p ∈ r, p ∉ v.owned
  filled : Filled a m es v w

namespace Collecting

variable {es : List (List UInt8)} {e : List UInt8}

/-- The blocks of the workspace are released, and the vector remains. -/
theorem finish (hws : Workspace (Reclaims a) r Ready n m f prepare cleanup)
    (h : Collecting a r Ready m w₀ es v w) :
    ∃ w', cleanup w = .ok w' ∧ Exchange (Reclaims a) [] v.owned w₀ w' ∧ Filled a m es v w' ∧
      w.Asked w' False := by
  obtain ⟨bs, hholds, hrest⟩ := h.filled
  obtain ⟨w', hcleanup, hx, hasked⟩ := hws.cleanup w h.ready
  have happart : ∀ p ∈ v.owned, p ∉ r := fun p hp hr => h.apart p hr hp
  refine ⟨w', hcleanup, h.gained.trans ?_, ⟨bs, hholds.frame fun p hp => ?_, hrest⟩, hasked⟩
  · exact (hx.frame hholds.live happart).congr (by simp [or_comm]) (by simp)
  · obtain ⟨c, hc⟩ := Mem.live_iff.1 (hholds.live p hp)
    rw [hc, (hx.others p c hc (happart p hp)).1]

/-- One item is prepared and pushed: the push fails and changes nothing, because the buffer
is full and there is no larger one, or there is one element more. -/
theorem push_item (hws : Workspace (Reclaims a) r Ready n m f prepare cleanup)
    (h : Collecting a r Ready m w₀ es v w) {item : Arg} (hitem : item.Reads w₀ [] n e) :
    ∃ element w₁ st v' w₂, prepare item w = .ok (element, w₁) ∧
      push v element w₁ = .ok ((st, v'), w₂) ∧
      w₀.Explains w₂ (defaultCapacity ≤ es.length ∧ ¬ CanGrow capacityGrow es.length m) st ∧
      ((st ≠ .ok ∧ Collecting a r Ready m w₀ es v' w₂) ∨
        (st = .ok ∧ Collecting a r Ready m w₀ (es ++ [f e]) v' w₂)) := by
  obtain ⟨bs, hholds, helements, hsize, hallocator⟩ := h.filled
  obtain ⟨element, w₁, hprepare, hready₁, hsame, hread, hasked₁⟩ :=
    hws.prepare w v.owned item e h.ready (hitem.exchange h.gained) h.apart
  have hwithin : Exchange (Reclaims a) (r ++ v.owned) (r ++ v.owned) w w₁ := by
    refine .within (fun p hp => ?_) fun p hp => hsame p fun hr => hp (List.mem_append_left _ hr)
    by_cases hr : p ∈ r
    · exact hws.live w₁ hready₁ p hr
    · have hlive := h.gained.held p hp
      rwa [Mem.Live, hsame p hr]
  have hholds₁ : Holds v w₁ bs :=
    hholds.frame fun p hp => hsame p fun hr => h.apart p hr hp
  have hgained₁ := h.gained.trans hwithin
  obtain ⟨st, v', w₂, hpush, hres⟩ := push_spec hholds₁ (.inl (hsize ▸ hread))
  have hexplains := (push_explains hholds₁ hpush).after (h.asked.andThen hasked₁)
  refine ⟨element, w₁, st, v', w₂, hprepare, hpush, ⟨hexplains.asked, fun hst => ?_⟩, ?_⟩
  · have hsize_le := hholds.size_le
    have hfull : es.length = v.capacity := by
      by_contra hne
      rw [← helements, length_elements] at hne
      exact hst (push_fits (by omega) hpush).1
    rw [hfull, ← hsize]
    exact (hexplains.fails hst).mono fun hcannot => ⟨h.room, hcannot⟩
  rcases hres with ⟨hst, rfl, hcells⟩ | ⟨rfl, bs', hholds₂, -, helements₂, hchanged⟩
  · refine .inl ⟨hst, ?_, hexplains.asked.mono False.elim, h.room,
      hws.kept w₁ w₂ hready₁ fun p _ => by rw [hcells], h.apart, bs,
      hholds₁.frame fun p _ => by rw [hcells], helements, hsize, hallocator⟩
    exact hgained₁.trans (.same hgained₁.held hcells)
  · have hx : Exchange (Reclaims a) v.owned v'.owned w₁ w₂ := hallocator ▸ hchanged.exchange
    have hapart : ∀ p ∈ r, w₂.cells p = w₁.cells p ∧ p ∉ v'.owned := by
      intro p hp
      obtain ⟨c, hc⟩ := Mem.live_iff.1 (hws.live w₁ hready₁ p hp)
      rw [hc]
      exact hx.others p c hc (h.apart p hp)
    refine .inr ⟨rfl, ?_, hexplains.asked_of_ok, h.room.trans hchanged.capacity_le,
      hws.kept w₁ w₂ hready₁ fun p hp => (hapart p hp).1, fun p hp => (hapart p hp).2, bs',
      hholds₂, by rw [helements₂, helements],
      hchanged.elemSize.trans hsize, hchanged.allocator.trans hallocator⟩
    exact hgained₁.trans (hx.frame (hws.live w₁ hready₁) h.apart)

end Collecting

/-- A vector that is filled by some, but not all, of so many elements cannot grow. -/
def CannotPush (m count : ℕ) : Prop :=
  ∃ c < count, defaultCapacity ≤ c ∧ ¬ CanGrow capacityGrow c m

/-- **The loop** pushes what is left in the iterator, or releases everything. -/
theorem collect_loop (hws : Workspace (Reclaims a) r Ready n m f prepare cleanup) {s : σ}
    {es : List (List UInt8)} (hrem : Remaining callback w₀ n s es) :
    ∀ (hint fuel : ℕ) (seen : List (List UInt8)) (v : Vector) (w : Memory), es.length < fuel →
      Collecting a r Ready m w₀ seen v w →
        Sat (loop (collectRound callback prepare cleanup) fuel (⟨s, hint⟩, v, w)) fun x =>
          Creates (Reclaims a) w₀ owned (Filled a m (seen ++ es.map f)) x.1.1 x.1.2 x.2.2 ∧
            w₀.Explains x.2.2 (CannotPush m (seen.length + es.length)) x.1.1 := by
  induction hrem with
  | @done s h =>
    intro hint fuel seen v w hfuel hc
    obtain ⟨s', hnone⟩ := h w (keeps_of_exchange hc.gained)
    obtain ⟨hint', hnext⟩ := Iterator.next_eq_ok hnone hint
    obtain ⟨w', hcleanup, hx, hfilled, hasked⟩ := hc.finish hws
    obtain ⟨fuel, rfl⟩ := Nat.exists_eq_succ_of_ne_zero (Nat.ne_of_gt hfuel)
    have hround : collectRound callback prepare cleanup (⟨s, hint⟩, v, w) =
        .ok (.inr ((.ok, some v), ⟨s', hint'⟩, w')) := by
      simp only [collectRound, hnext, ok_bind, hcleanup, pure_eq_ok]
    rw [loop_of_inr hround]
    refine Sat.ok ⟨.inr ⟨rfl, v, rfl, hx, ?_⟩, .ok (hc.asked.andThen hasked)⟩
    rwa [List.map_nil, List.append_nil]
  | @item s s' x e es h hx _ ih =>
    intro hint fuel seen v w hfuel hc
    obtain ⟨hint', hnext⟩ := Iterator.next_eq_ok (h w (keeps_of_exchange hc.gained)) hint
    obtain ⟨element, w₁, st, v', w₂, hprepare, hpush, hexplains, hres⟩ := hc.push_item hws hx
    obtain ⟨fuel, rfl⟩ := Nat.exists_eq_succ_of_ne_zero (Nat.ne_of_gt (Nat.zero_lt_of_lt hfuel))
    rcases hres with ⟨hst, hc'⟩ | ⟨rfl, hc'⟩
    · obtain ⟨w₃, hcleanup, hx₃, ⟨bs, hholds, -, -, hallocator⟩, hasked₃⟩ := hc'.finish hws
      obtain ⟨w₄, hdestroy, hx₄⟩ := destroy_spec hholds
      have hasked₄ := hasked₃.andThen (destroy_asked hholds.buffered.backed hdestroy)
      have hround : collectRound callback prepare cleanup (⟨s, hint⟩, v, w) =
          .ok (.inr ((st, none), ⟨s', hint'⟩, w₄)) := by
        simp only [collectRound, hnext, ok_bind, hprepare, hpush, ne_eq, hst, not_false_eq_true,
          if_true, hcleanup, hdestroy, pure_eq_ok]
      rw [loop_of_inr hround]
      refine Sat.ok ⟨.inl ⟨hst, rfl, hx₃.trans (hallocator ▸ hx₄)⟩,
        (hexplains.keep hasked₄).mono fun hcannot => ⟨seen.length, ?_, hcannot⟩⟩
      rw [List.length_cons]
      omega
    · have hround : collectRound callback prepare cleanup (⟨s, hint⟩, v, w) =
          .ok (.inl (⟨s', hint'⟩, v', w₂)) := by
        simp only [collectRound, hnext, ok_bind, hprepare, hpush, ne_eq, not_true_eq_false,
          if_false, pure_eq_ok]
      rw [loop_of_inl hround]
      have hcount : (seen ++ [f e]).length + es.length = seen.length + (e :: es).length := by
        simp only [List.length_append, List.length_cons, List.length_nil]
        omega
      have hrun := ih hint' fuel (seen ++ [f e]) v' w₂ (Nat.lt_of_succ_lt_succ hfuel) hc'
      rwa [List.append_assoc, hcount] at hrun

/-! ## The two functions -/

variable {allocator : Option (Allocator Memory)}

/-- A buffer that is asked for is no `size_t`: the first one, the one for what the iterator
announces, or the next one when some of so many elements have filled theirs. -/
def TooLarge (sizeHint m count : ℕ) : Prop :=
  sizeMax < m * defaultCapacity ∨ sizeMax < sizeHint * m ∨ CannotPush m count

/-- The vector that is pushed to: making room for what the iterator announces may be refused
too. -/
theorem collectCreate_spec (hbacked : Backed (Allocator.copy allocator)) (sizeHint : ℕ)
    (hm : 0 < m) (count : ℕ) (w : Memory) :
    ∃ st out w', collectCreate sizeHint m allocator w = .ok ((st, out), w') ∧
      Creates (Reclaims (Allocator.copy allocator)) w owned
        (fun v w' => Filled (Allocator.copy allocator) m [] v w' ∧ defaultCapacity ≤ v.capacity)
        st out w' ∧
      w.Explains w' (TooLarge sizeHint m count) st := by
  have hdefault : 0 < defaultCapacity := by decide
  obtain ⟨st, out, w₁, hcreate, hres⟩ := createWithCapacity_spec hbacked hm hdefault w
  have hexplains : w.Explains w₁ (TooLarge sizeHint m count) st :=
    (createWithCapacity_explains hbacked hcreate).mono .inl
  rw [collectCreate, create, hcreate, ok_bind]
  rcases hres with ⟨hst, rfl, hx⟩ | ⟨rfl, v, rfl, hx, ⟨bs, hholds⟩, hsize, helem, hcap, hallocator⟩
  · exact ⟨st, none, w₁, rfl, .inl ⟨hst, rfl, hx⟩, hexplains⟩
  have helements : v.elements bs = [] := by rw [elements, hsize, slots_zero]
  have hasked₁ := hexplains.asked_of_ok
  dsimp only
  by_cases hpos : sizeHint > 0
  · obtain ⟨st, v', w₂, hreserve, hres⟩ := reserve_spec hholds sizeHint
    have hexplains₂ : w.Explains w₂ (TooLarge sizeHint m count) st :=
      ((reserve_explains hholds hreserve).after hasked₁).mono
        fun hover => .inr (.inl (helem ▸ hover))
    rw [if_pos hpos, hreserve, ok_bind]
    rcases hres with ⟨hst, rfl, hcells⟩ | ⟨rfl, tail, hholds₂, hsize₂, -, hchanged⟩
    · have hsame : Holds v' w₂ bs := hholds.frame fun p _ => by rw [hcells]
      obtain ⟨w₃, hdestroy, hx₃⟩ := destroy_spec hsame
      refine ⟨st, none, w₃, ?_, .inl ⟨hst, rfl, ?_⟩,
        hexplains₂.keep (destroy_asked hsame.buffered.backed hdestroy)⟩
      · simp only [ne_eq, hst, not_false_eq_true, if_true, hdestroy, ok_bind, pure_eq_ok]
      · exact (hx.trans (.same hx.held hcells)).trans (hallocator ▸ hx₃)
    · refine ⟨.ok, some v', w₂, rfl, .inr ⟨rfl, v', rfl, ?_, ⟨bs ++ tail, hholds₂, ?_,
        hchanged.elemSize.trans helem, hchanged.allocator.trans hallocator⟩,
        hcap ▸ hchanged.capacity_le⟩, hexplains₂⟩
      · exact hx.trans (hallocator ▸ hchanged.exchange)
      · rw [elements_append hholds tail hsize₂ hchanged.elemSize, helements]
  · rw [if_neg hpos]
    exact ⟨.ok, some v, w₁, rfl,
      .inr ⟨rfl, v, rfl, hx, ⟨bs, hholds, helements, helem, hallocator⟩, hcap.ge⟩, hexplains⟩

theorem collect_spec (hbacked : Backed (Allocator.copy allocator)) {s : σ}
    {es : List (List UInt8)} (hrem : Remaining callback w₀ n s es) (hint : ℕ) (hn : 0 < n)
    {fuel : ℕ} (hfuel : es.length < fuel) :
    Sat (collect callback fuel ⟨s, hint⟩ n allocator w₀) fun x =>
      Creates (Reclaims (Allocator.copy allocator)) w₀ owned
        (Filled (Allocator.copy allocator) n es) x.1.1 x.1.2 x.2.2 ∧
      w₀.Explains x.2.2 (TooLarge hint n es.length) x.1.1 := by
  obtain ⟨st, out, w, hcreate, hres, hexplains⟩ :=
    collectCreate_spec hbacked hint hn es.length w₀
  rw [collect, check_of hn, ok_bind, hcreate, ok_bind]
  rcases hres with ⟨hst, rfl, hx⟩ | ⟨rfl, v, rfl, hx, hfilled, hroom⟩
  · exact Sat.ok ⟨.inl ⟨hst, rfl, hx⟩, hexplains⟩
  · have hrun := collect_loop (workspace_item n) hrem hint fuel [] v w hfuel
      ⟨hx, hexplains.asked_of_ok, hroom, trivial, fun p hp => absurd hp List.not_mem_nil, hfilled⟩
    rw [List.map_id, List.nil_append, List.length_nil, Nat.zero_add] at hrun
    exact hrun.mono fun x hx => ⟨hx.1, hx.2.mono fun hcannot => .inr (.inr hcannot)⟩

theorem collectMap_spec (hbacked : Backed (Allocator.copy allocator)) {s : σ}
    {es : List (List UInt8)} (hrem : Remaining callback w₀ n s es) (hint : ℕ) (hm : 0 < m)
    {map : List UInt8 → List UInt8} (hmap : ∀ e, e.length = n → (map e).length = m)
    {fuel : ℕ} (hfuel : es.length < fuel) :
    Sat (collectMap callback map n fuel ⟨s, hint⟩ m allocator w₀) fun x =>
      Creates (Reclaims (Allocator.copy allocator)) w₀ owned
        (Filled (Allocator.copy allocator) m (es.map map)) x.1.1 x.1.2 x.2.2 ∧
      w₀.Explains x.2.2 (TooLarge hint m es.length) x.1.1 := by
  obtain ⟨st, out, w, hcreate, hres, hexplains⟩ :=
    collectCreate_spec hbacked hint hm es.length w₀
  rw [collectMap, check_of hm, ok_bind, hcreate, ok_bind]
  rcases hres with ⟨hst, rfl, hx⟩ | ⟨rfl, v, rfl, hx, hfilled, hroom⟩
  · exact Sat.ok ⟨.inl ⟨hst, rfl, hx⟩, hexplains⟩
  dsimp only
  have hasked := hexplains.asked_of_ok
  obtain ⟨bs, hholds, helements, helem, hallocator⟩ := hfilled
  rw [Allocator.alloc_copy]
  rcases Allocator.alloc_spec hbacked w m with
    ⟨w₁, halloc, hcells⟩ | ⟨junk, w₁, halloc, hlen, hcells⟩
  · -- no block for the element: the vector is released again
    have hsame : Holds v w₁ bs := hholds.frame fun p _ => by rw [hcells]
    obtain ⟨w₂, hdestroy, hx₂⟩ := destroy_spec hsame
    have hrefused : w₀.Explains w₁ (TooLarge hint m es.length) .noMemory :=
      ((Allocator.alloc_explains hbacked halloc).mono False.elim).after hasked
    refine ⟨((.noMemory, none), ⟨s, hint⟩, w₂), ?_, .inl ⟨by simp, rfl, ?_⟩,
      hrefused.keep (destroy_asked hsame.buffered.backed hdestroy)⟩
    · simp only [halloc, ok_bind, ne_eq, reduceCtorEq, not_false_eq_true, if_true, hdestroy,
        pure_eq_ok]
    · exact (hx.trans (.same hx.held hcells)).trans (hallocator ▸ hx₂)
  · have hnew : w.next ∉ v.owned := fun hp => Mem.ne_next_of_live (hx.held _ hp) rfl
    have hasked₁ : w₀.Asked w₁ False :=
      hasked.andThen (Allocator.alloc_explains hbacked halloc).asked_of_ok
    rw [halloc, ok_bind, if_neg (not_not.2 rfl)]
    have hrun := collect_loop (workspace_map hbacked hmap w.next) hrem hint fuel [] v w₁ hfuel
      ⟨hx.trans (.gain hx.held hcells), hasked₁, hroom,
        ⟨junk, hlen, by rw [hcells, Function.update_self]⟩,
        fun p hp => by rwa [List.mem_singleton.1 hp], bs, hholds.frame fun p hp => by
          have hne : p ≠ w.next := fun heq => hnew (by rwa [heq] at hp)
          rw [hcells, Function.update_of_ne hne], helements, helem, hallocator⟩
    rw [List.nil_append, List.length_nil, Nat.zero_add] at hrun
    exact hrun.mono fun x hx => ⟨hx.1, hx.2.mono fun hcannot => .inr (.inr hcannot)⟩

/-! ## All or nothing -/

/-- The outcome of collecting `es`: with a status that is not OK, `*out` is `NULL` and every
block that was allocated was released; with OK there is a vector of exactly `es`, and its
two blocks are the only ones that were not released.  No other block was touched.  The status
is explained by what was asked for: a request of this call was refused, or a size that it
needs, `tooLarge`, is no `size_t`.  That no block was released twice is kept by the memory,
whose releases fail otherwise; the log of what was done says it once more. -/
def AllOrNothing (a : Allocator Memory) (tooLarge : Prop) (w₀ : Memory) (es : List (List UInt8))
    (st : Status) (out : Option Vector) (w : Memory) : Prop :=
  Keeps w₀ w ∧ Disciplined w.log ∧ w₀.Explains w tooLarge st ∧
    ((st ≠ .ok ∧ out = none ∧ (Reclaims a → Container.Outstanding w₀ w [])) ∨
      (st = .ok ∧ ∃ v bs, out = some v ∧ Holds v w bs ∧ v.elements bs = es ∧
        (Reclaims a → Container.Outstanding w₀ w v.owned)))

theorem allOrNothing_of_creates {es : List (List UInt8)} {st : Status} {out : Option Vector}
    {tooLarge : Prop} (h : Creates (Reclaims a) w₀ owned (Filled a m es) st out w)
    (hexplains : w₀.Explains w tooLarge st) : AllOrNothing a tooLarge w₀ es st out w := by
  rcases h with ⟨hst, rfl, hx⟩ | ⟨rfl, v, rfl, hx, bs, hholds, helements, -⟩
  · exact ⟨keeps_of_exchange hx, w.disciplined, hexplains, .inl ⟨hst, rfl, fun hr =>
      .of_exchange hr hx List.nodup_nil⟩⟩
  · have hnodup : v.owned.Nodup := by
      rw [owned, List.nodup_cons, List.mem_singleton]
      exact ⟨hholds.buffered.apart, List.nodup_singleton _⟩
    exact ⟨keeps_of_exchange hx, w.disciplined, hexplains, .inr ⟨rfl, v, bs, rfl, hholds,
      helements, fun hr => .of_exchange hr hx hnodup⟩⟩

/-- **Collecting is exact and all or nothing.**  For every iterator whose remaining items are
finitely many, whatever its size hint, and whatever requests the allocator refuses:
`collect` gives the items in order and `collect_map` their images in order, or a status
that is not OK and nothing is left allocated; the block for the mapped element is released
in either case.  Neither fails unless a request was refused or a size is no `size_t`. -/
theorem collect_exact (hbacked : Backed (Allocator.copy allocator)) {s : σ}
    {es : List (List UInt8)} (hrem : Remaining callback w₀ n s es) (hint fuel : ℕ)
    (hfuel : es.length < fuel) (hn : 0 < n) (hm : 0 < m) (map : List UInt8 → List UInt8)
    (hmap : ∀ e, e.length = n → (map e).length = m) :
    Sat (collect callback fuel ⟨s, hint⟩ n allocator w₀) (fun x =>
      AllOrNothing (Allocator.copy allocator) (TooLarge hint n es.length) w₀ es x.1.1 x.1.2
        x.2.2) ∧
    Sat (collectMap callback map n fuel ⟨s, hint⟩ m allocator w₀) fun x =>
      AllOrNothing (Allocator.copy allocator) (TooLarge hint m es.length) w₀ (es.map map) x.1.1
        x.1.2 x.2.2 :=
  ⟨(collect_spec hbacked hrem hint hn hfuel).mono fun _ hx => allOrNothing_of_creates hx.1 hx.2,
    (collectMap_spec hbacked hrem hint hm hmap hfuel).mono fun _ hx =>
      allOrNothing_of_creates hx.1 hx.2⟩

/-- An iterator over strings of the caller. -/
def strings : List (List UInt8) → Result (Option Arg × List (List UInt8))
  | [] => .ok (none, [])
  | e :: es => .ok (some (.outside e), es)

/-- A memory that refuses the request with this number. -/
def refusing (n : ℕ) : Memory :=
  .empty fun i => if i = n then none else some ⟨true, fun i => UInt8.ofNat i⟩

/-- Seventeen items behind a hint of one, of which the last one needs a larger buffer.  After
the handle and the buffer this is the third request of `collect`, which is granted; after the
block for the mapped element it is the fourth one of `collect_map`, which is refused. -/
theorem collect_exact_refused :
    ((collect (fun _ => strings) 18 ⟨List.replicate 17 [5], 1⟩ 1 none (refusing 3)).map
        (fun x => x.1.1) = .ok .ok ∧
      (collectMap (fun _ => strings) (fun e => e ++ e) 1 18 ⟨List.replicate 17 [5], 1⟩ 2 none
        (refusing 3)).map (fun x => x.1.1) = .ok .noMemory ∧
      (collectMap (fun _ => strings) (fun e => e ++ e) 1 18 ⟨List.replicate 17 [5], 1⟩ 2 none
        (refusing 4)).map (fun x => x.1.1) = .ok .ok) ∧
    Sat (collect (fun _ => strings) 18 ⟨List.replicate 17 [5], 1⟩ 1 none (refusing 3)) (fun x =>
      AllOrNothing (Allocator.copy none) (TooLarge 1 1 (List.replicate 17 [(5 : UInt8)]).length)
        (refusing 3) (List.replicate 17 [5]) x.1.1 x.1.2 x.2.2) ∧
    Sat (collectMap (fun _ => strings) (fun e => e ++ e) 1 18 ⟨List.replicate 17 [5], 1⟩ 2 none
        (refusing 3)) fun x =>
      AllOrNothing (Allocator.copy none) (TooLarge 1 2 (List.replicate 17 [(5 : UInt8)]).length)
        (refusing 3) ((List.replicate 17 [5]).map fun e => e ++ e) x.1.1 x.1.2 x.2.2 := by
  have hyields : ∀ k, Iterator.Yields strings (List.replicate k [5])
      (List.replicate k (.outside [5])) := by
    intro k
    induction k with
    | zero => exact .done rfl
    | succ k ih => exact .item rfl ih
  have hreads : ∀ k, List.Forall₂ (fun x e => Arg.Reads (refusing 3) [] 1 x e)
      (List.replicate k (.outside [5])) (List.replicate k [5]) := by
    intro k
    induction k with
    | zero => exact .nil
    | succ k ih => exact .cons (Arg.Reads.outside rfl) ih
  refine ⟨by decide +kernel, ?_⟩
  exact collect_exact (Backed.default _) (remaining_of_yields (hyields 17) (hreads 17)) 1 18
    (by decide) (by decide) (by decide) (fun e => e ++ e) (fun e he => by simp [he])

end K4c.Vector
