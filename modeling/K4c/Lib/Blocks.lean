import Mathlib.Tactic
import K4c.Lib.Exec

/-!
# A memory of blocks

What a program that only allocates, resizes and releases blocks can see of a
heap.  A block has a name that is never given out twice, so that a name that is
not live is one that was released, and every access through it is a fault.  The
memory decides for itself which requests it grants and what the bytes are that
nothing was written to: `answers` is that decision, for every request to come.

* `Mem` — the live blocks, the answers, and a log of the traffic.  Its fields
  say that the log is the log of this memory: a block whose life an event ended
  is not live, and no later event hands it in again (`Disciplined`).
* `alloc_granted`, `resize_granted`, `free_eq`, `store_eq` — what one request does to
  the live blocks.
* `Exchange` — from one memory to another the blocks a component owns have
  become other ones and no other block was touched; `Exchange.trans` composes.
-/

namespace Blocks

open Exec

variable {β : Type}

/-! ## The log -/

/-- One request that was granted. -/
inductive Event where
  /-- A block was handed out. -/
  | alloc (p : ℕ)
  /-- The first block was handed in, and the second one back. -/
  | resize (p q : ℕ)
  /-- A block was released. -/
  | release (p : ℕ)
  deriving DecidableEq, Repr

/-- The block that a request hands in. -/
def Event.argument : Event → Option ℕ
  | .alloc _ => none
  | .resize p _ => some p
  | .release p => some p

/-- The block whose life ends with a request: a resize ends it by moving. -/
def Event.ends : Event → Option ℕ
  | .alloc _ => none
  | .resize p q => if p = q then none else some p
  | .release p => some p

/-- No event of the log, oldest first, hands in a block whose life an earlier
event has ended. -/
def Disciplined (log : List Event) : Prop :=
  log.Pairwise fun e e' => ∀ p, e.ends = some p → e'.argument ≠ some p

theorem Disciplined.append {log : List Event} {e : Event} (h : Disciplined log)
    (he : ∀ e₀ ∈ log, ∀ p, e₀.ends = some p → e.argument ≠ some p) :
    Disciplined (log ++ [e]) := by
  refine List.pairwise_append.2 ⟨h, List.pairwise_singleton _ _, ?_⟩
  intro e₀ h₀ e₁ h₁
  rw [List.mem_singleton.1 h₁]
  exact he e₀ h₀

/-! ## Memories -/

/-- A request that is granted: whether a resized block moves, and the bytes that
a block starts with. -/
structure Grant where
  moves : Bool
  junk : ℕ → UInt8

/-- One block. -/
structure Cell (β : Type) where
  size : ℕ
  content : β

/-- A memory. -/
structure Mem (β : Type) where
  /-- The live blocks. -/
  cells : ℕ → Option (Cell β)
  /-- The name of the next block. -/
  next : ℕ
  /-- What becomes of each request; `none` is a refusal. -/
  answers : ℕ → Option Grant
  /-- How many requests were made. -/
  requests : ℕ
  /-- The requests that were granted, oldest first. -/
  log : List Event
  next_pos : 0 < next
  null_dead : cells 0 = none
  unborn : ∀ p, next ≤ p → cells p = none
  ended : ∀ e ∈ log, ∀ p, e.ends = some p → cells p = none ∧ p < next
  disciplined : Disciplined log

namespace Mem

/-- The memory before the first request. -/
def empty (answers : ℕ → Option Grant) : Mem β where
  cells _ := none
  next := 1
  answers := answers
  requests := 0
  log := []
  next_pos := Nat.one_pos
  null_dead := rfl
  unborn _ _ := rfl
  ended e he := by cases he
  disciplined := List.Pairwise.nil

variable {w w' : Mem β} {p q size : ℕ}

/-- `p` names a block that was handed out and not released since. -/
def Live (w : Mem β) (p : ℕ) : Prop := (w.cells p).isSome

theorem live_iff : w.Live p ↔ ∃ c, w.cells p = some c := Option.isSome_iff_exists

theorem live_of {c : Cell β} (h : w.cells p = some c) : w.Live p := live_iff.2 ⟨c, h⟩

theorem ne_zero_of_live (h : w.Live p) : p ≠ 0 := by
  rintro rfl
  rw [Live, w.null_dead] at h
  cases h

theorem lt_next_of_live (h : w.Live p) : p < w.next := by
  by_contra hc
  rw [Live, w.unborn p (by omega)] at h
  cases h

theorem ne_next_of_live (h : w.Live p) : p ≠ w.next := (lt_next_of_live h).ne

theorem argument_ne_of_live (h : w.Live p) (e : Event) (he : e ∈ w.log) (q : ℕ)
    (hq : e.ends = some q) : q ≠ p := by
  rintro rfl
  rw [Live, (w.ended e he q hq).1] at h
  cases h

/-! ## Requests -/

/-- A request that is refused leaves nothing behind but its number. -/
def refuse (w : Mem β) : Mem β := { w with requests := w.requests + 1 }

/-- A new block is handed out. -/
def grant (w : Mem β) (cell : Cell β) : Mem β where
  cells := Function.update w.cells w.next (some cell)
  next := w.next + 1
  answers := w.answers
  requests := w.requests + 1
  log := w.log ++ [.alloc w.next]
  next_pos := Nat.succ_pos _
  null_dead := by
    rw [Function.update_of_ne w.next_pos.ne, w.null_dead]
  unborn q hq := by
    rw [Function.update_of_ne (by omega), w.unborn q (by omega)]
  ended e he q hq := by
    rcases List.mem_append.1 he with he | he
    · obtain ⟨h, hlt⟩ := w.ended e he q hq
      rw [Function.update_of_ne hlt.ne]
      exact ⟨h, by omega⟩
    · rw [List.mem_singleton.1 he] at hq
      cases hq
  disciplined := w.disciplined.append fun _ _ _ _ h => by cases h

/-- `alloc`: the name of a new block of `size` bytes, or 0. -/
def alloc (w : Mem β) (size : ℕ) (fresh : (ℕ → UInt8) → β) : ℕ × Mem β :=
  match w.answers w.requests with
  | none => (0, w.refuse)
  | some g => (w.next, w.grant ⟨size, fresh g.junk⟩)

/-- The content of a live block. -/
def load (w : Mem β) (p : ℕ) : Result β :=
  match w.cells p with
  | none => .error .badAccess
  | some cell => .ok cell.content

/-- The memory with the cell of a live block replaced. -/
def set (w : Mem β) (p : ℕ) (cell : Cell β) (h : w.Live p) : Mem β where
  cells := Function.update w.cells p (some cell)
  next := w.next
  answers := w.answers
  requests := w.requests
  log := w.log
  next_pos := w.next_pos
  null_dead := by rw [Function.update_of_ne (ne_zero_of_live h).symm, w.null_dead]
  unborn q hq := by
    have := lt_next_of_live h
    rw [Function.update_of_ne (by omega), w.unborn q hq]
  ended e he q hq := by
    rw [Function.update_of_ne (argument_ne_of_live h e he q hq)]
    exact w.ended e he q hq
  disciplined := w.disciplined

/-- Write the content of a live block. -/
def store (w : Mem β) (p : ℕ) (content : β) : Result (Mem β) :=
  match h : w.cells p with
  | none => .error .badAccess
  | some cell => .ok (w.set p ⟨cell.size, content⟩ (live_of h))

/-- Release a live block. -/
def release (w : Mem β) (p : ℕ) (h : w.Live p) : Mem β where
  cells := Function.update w.cells p none
  next := w.next
  answers := w.answers
  requests := w.requests
  log := w.log ++ [.release p]
  next_pos := w.next_pos
  null_dead := by rw [Function.update_of_ne (ne_zero_of_live h).symm, w.null_dead]
  unborn q hq := by
    have := lt_next_of_live h
    rw [Function.update_of_ne (by omega), w.unborn q hq]
  ended e he q hq := by
    rcases List.mem_append.1 he with he | he
    · rw [Function.update_of_ne (argument_ne_of_live h e he q hq)]
      exact w.ended e he q hq
    · rw [List.mem_singleton.1 he] at hq
      cases hq
      exact ⟨Function.update_self p none w.cells, lt_next_of_live h⟩
  disciplined := by
    refine w.disciplined.append fun e he q hq harg => ?_
    exact argument_ne_of_live h e he q hq (Option.some.inj harg).symm

/-- `free`: releasing nothing is allowed. -/
def free (w : Mem β) (p : ℕ) : Result (Mem β) :=
  if p = 0 then .ok w
  else
    match h : w.cells p with
    | none => .error .badAccess
    | some _ => .ok (w.release p (live_of h))

/-- A block is resized where it lies. -/
def resizeInPlace (w : Mem β) (p : ℕ) (cell : Cell β) (h : w.Live p) : Mem β :=
  let w' := w.set p cell h
  { w' with
    requests := w.requests + 1
    log := w.log ++ [.resize p p]
    ended := fun e he q hq => by
      rcases List.mem_append.1 he with he | he
      · exact w'.ended e he q hq
      · rw [List.mem_singleton.1 he, Event.ends, if_pos rfl] at hq
        cases hq
    disciplined := by
      refine w.disciplined.append fun e he q hq harg => ?_
      exact argument_ne_of_live h e he q hq (Option.some.inj harg).symm }

/-- A block is resized by moving it. -/
def resizeMoving (w : Mem β) (p : ℕ) (cell : Cell β) (h : w.Live p) : Mem β where
  cells := Function.update (Function.update w.cells p none) w.next (some cell)
  next := w.next + 1
  answers := w.answers
  requests := w.requests + 1
  log := w.log ++ [.resize p w.next]
  next_pos := Nat.succ_pos _
  null_dead := by
    rw [Function.update_of_ne w.next_pos.ne, Function.update_of_ne (ne_zero_of_live h).symm,
      w.null_dead]
  unborn q hq := by
    have := lt_next_of_live h
    rw [Function.update_of_ne (by omega), Function.update_of_ne (by omega),
      w.unborn q (by omega)]
  ended e he q hq := by
    rcases List.mem_append.1 he with he | he
    · obtain ⟨hdead, hlt⟩ := w.ended e he q hq
      rw [Function.update_of_ne hlt.ne, Function.update_of_ne (argument_ne_of_live h e he q hq)]
      exact ⟨hdead, by omega⟩
    · have hlt := lt_next_of_live h
      rw [List.mem_singleton.1 he, Event.ends, if_neg hlt.ne] at hq
      cases hq
      rw [Function.update_of_ne hlt.ne]
      exact ⟨Function.update_self p none w.cells, by omega⟩
  disciplined := by
    refine w.disciplined.append fun e he q hq harg => ?_
    exact argument_ne_of_live h e he q hq (Option.some.inj harg).symm

/-- `resize`: the name the block now has, or 0.  Resizing nothing allocates. -/
def resize (w : Mem β) (p size : ℕ) (fresh : (ℕ → UInt8) → β) (grow : (ℕ → UInt8) → β → β) :
    Result (ℕ × Mem β) :=
  if p = 0 then .ok (w.alloc size fresh)
  else
    match h : w.cells p with
    | none => .error .badAccess
    | some cell =>
      match w.answers w.requests with
      | none => .ok (0, w.refuse)
      | some g =>
        if g.moves then .ok (w.next, w.resizeMoving p ⟨size, grow g.junk cell.content⟩ (live_of h))
        else .ok (p, w.resizeInPlace p ⟨size, grow g.junk cell.content⟩ (live_of h))

/-! ## What one request does -/

section Answers

variable {g : Grant} {fresh : (ℕ → UInt8) → β} {grow : (ℕ → UInt8) → β → β}

theorem alloc_refused (h : w.answers w.requests = none) : w.alloc size fresh = (0, w.refuse) := by
  rw [alloc, h]

theorem alloc_granted (h : w.answers w.requests = some g) :
    w.alloc size fresh = (w.next, w.grant ⟨size, fresh g.junk⟩) := by
  rw [alloc, h]

theorem resize_refused {c : Cell β} (hp : w.cells p = some c) (h : w.answers w.requests = none) :
    w.resize p size fresh grow = .ok (0, w.refuse) := by
  rw [resize, if_neg (ne_zero_of_live (live_of hp))]
  split
  · rename_i hn
    rw [hp] at hn
    cases hn
  · rw [h]

/-- A resize that is granted moves the block or leaves it where it is. -/
theorem resize_granted (size : ℕ) (fresh : (ℕ → UInt8) → β) (grow : (ℕ → UInt8) → β → β)
    {c : Cell β} (hp : w.cells p = some c) (h : w.answers w.requests = some g) :
    ∃ w', w.resize p size fresh grow = .ok (if g.moves then w.next else p, w') ∧
      w'.cells = Function.update (Function.update w.cells p none)
        (if g.moves then w.next else p) (some ⟨size, grow g.junk c.content⟩) := by
  rw [resize, if_neg (ne_zero_of_live (live_of hp))]
  split
  · rename_i hn
    rw [hp] at hn
    cases hn
  · rename_i c' hc
    rw [hp] at hc
    cases hc
    rw [h]
    dsimp only
    cases hm : g.moves with
    | true => exact ⟨_, rfl, rfl⟩
    | false =>
      refine ⟨_, rfl, ?_⟩
      rw [if_neg (by decide), Function.update_idem]
      rfl

end Answers

theorem load_eq {c : Cell β} (h : w.cells p = some c) : w.load p = .ok c.content := by
  rw [load, h]

/-- **A store** to a live block changes its content. -/
theorem store_eq {c : Cell β} (h : w.cells p = some c) (content : β) :
    ∃ w', w.store p content = .ok w' ∧
      w'.cells = Function.update w.cells p (some ⟨c.size, content⟩) := by
  unfold store
  split
  · rename_i hn
    rw [h] at hn
    cases hn
  · rename_i c' hc
    rw [h] at hc
    cases hc
    exact ⟨_, rfl, rfl⟩

/-- **A release** of a live block removes it. -/
theorem free_eq (h : w.Live p) :
    ∃ w', w.free p = .ok w' ∧ w'.cells = Function.update w.cells p none := by
  unfold free
  rw [if_neg (ne_zero_of_live h)]
  split
  · rename_i hn
    rw [Live, hn] at h
    cases h
  · exact ⟨_, rfl, rfl⟩

/-! ## The traffic -/

/-- Nothing was asked of the memory in between. -/
structure Quiet (w w' : Mem β) : Prop where
  log : w'.log = w.log
  requests : w'.requests = w.requests
  answers : w'.answers = w.answers

theorem Quiet.refl (w : Mem β) : Quiet w w := ⟨rfl, rfl, rfl⟩

theorem Quiet.trans {w₁ w₂ w₃ : Mem β} (h : Quiet w₁ w₂) (h' : Quiet w₂ w₃) : Quiet w₁ w₃ :=
  ⟨h'.log.trans h.log, h'.requests.trans h.requests, h'.answers.trans h.answers⟩

/-- The size of a live block. -/
def sizeOf (w : Mem β) (p : ℕ) : Option ℕ := (w.cells p).map Cell.size

theorem sizeOf_eq {c : Cell β} (h : w.cells p = some c) : w.sizeOf p = some c.size := by
  rw [sizeOf, h, Option.map_some]

theorem sizeOf_congr (h : w'.cells p = w.cells p) : w'.sizeOf p = w.sizeOf p := by
  rw [sizeOf, sizeOf, h]

theorem exists_cell {n : ℕ} (h : w.sizeOf p = some n) :
    ∃ c, w.cells p = some c ∧ c.size = n := Option.map_eq_some_iff.1 h

/-- Nothing happened in between but that live blocks were written to. -/
structure Rewritten (w w' : Mem β) : Prop extends Quiet w w' where
  sizes : ∀ p, w'.sizeOf p = w.sizeOf p

theorem Rewritten.refl (w : Mem β) : Rewritten w w := ⟨.refl w, fun _ => rfl⟩

theorem Rewritten.trans {w₁ w₂ w₃ : Mem β} (h : Rewritten w₁ w₂) (h' : Rewritten w₂ w₃) :
    Rewritten w₁ w₃ :=
  ⟨h.toQuiet.trans h'.toQuiet, fun p => (h'.sizes p).trans (h.sizes p)⟩

theorem store_rewritten {content : β} (h : w.store p content = .ok w') : Rewritten w w' := by
  unfold store at h
  split at h
  · cases h
  · rename_i cell hcell
    cases h
    refine ⟨⟨rfl, rfl, rfl⟩, fun q => ?_⟩
    by_cases hq : q = p
    · have hnew : (w.set p ⟨cell.size, content⟩ (live_of hcell)).cells p =
          some ⟨cell.size, content⟩ := Function.update_self ..
      rw [hq, sizeOf_eq hcell, sizeOf_eq hnew]
    · exact sizeOf_congr (Function.update_of_ne hq ..)

/-- **A release** is in the log, unless it was of nothing. -/
theorem free_log (h : w.free p = .ok w') :
    w'.requests = w.requests ∧ (w'.log = w.log ∨ w'.log = w.log ++ [.release p]) := by
  unfold free at h
  split at h
  · cases h
    exact ⟨rfl, .inl rfl⟩
  · split at h
    · cases h
    · cases h
      exact ⟨rfl, .inr rfl⟩

end Mem

/-! ## Ownership -/

/-- Between two memories a component that owned the blocks `o` has come to own
`o'` instead.  When the memory reclaims what is released, every block that is
live afterwards is one of these or was live before without being one of `o`. -/
structure Exchange (reclaims : Prop) (o o' : List ℕ) (w w' : Mem β) : Prop where
  others : ∀ p c, w.cells p = some c → p ∉ o → w'.cells p = some c ∧ p ∉ o'
  held : ∀ p ∈ o', w'.Live p
  exact : reclaims → ∀ p, w'.Live p → p ∈ o' ∨ w.Live p ∧ p ∉ o

namespace Exchange

variable {reclaims : Prop} {o o' o'' : List ℕ} {w w' w'' : Mem β}

/-- **Exchanges compose.** -/
theorem trans (h : Exchange reclaims o o' w w') (h' : Exchange reclaims o' o'' w' w'') :
    Exchange reclaims o o'' w w'' where
  others p c hc hp := by
    obtain ⟨hc', hp'⟩ := h.others p c hc hp
    exact h'.others p c hc' hp'
  held := h'.held
  exact hr p hp := by
    rcases h'.exact hr p hp with hmem | ⟨hlive, hnot⟩
    · exact .inl hmem
    · rcases h.exact hr p hlive with hmem | hrest
      · exact absurd hmem hnot
      · exact .inr hrest

/-- Less is known of a memory that reclaims under fewer conditions. -/
theorem imp {reclaims' : Prop} (h : Exchange reclaims o o' w w') (hr : reclaims' → reclaims) :
    Exchange reclaims' o o' w w' where
  others := h.others
  held := h.held
  exact hre := h.exact (hr hre)

/-- Ownership does not depend on the order the blocks are listed in. -/
theorem congr (h : Exchange reclaims o o' w w') {r r' : List ℕ} (hr : ∀ p, p ∈ r ↔ p ∈ o)
    (hr' : ∀ p, p ∈ r' ↔ p ∈ o') : Exchange reclaims r r' w w' where
  others p c hc hp := by
    rw [hr'] at *
    rw [hr] at hp
    exact h.others p c hc hp
  held p hp := h.held p ((hr' p).1 hp)
  exact hre p hp := by
    rw [hr, hr']
    exact h.exact hre p hp

/-- Only owned blocks were touched, and they stay live. -/
theorem within (hlive : ∀ p ∈ o, w'.Live p) (hrest : ∀ p, p ∉ o → w'.cells p = w.cells p) :
    Exchange reclaims o o w w' where
  others p c hc hp := ⟨by rw [hrest p hp, hc], hp⟩
  held := hlive
  exact _ p hp := by
    by_cases ho : p ∈ o
    · exact .inl ho
    · rw [Mem.Live, hrest p ho] at hp
      exact .inr ⟨hp, ho⟩

/-- Nothing happened to the live blocks. -/
theorem same (hlive : ∀ p ∈ o, w.Live p) (hcells : w'.cells = w.cells) :
    Exchange reclaims o o w w' := by
  refine within (fun p hp => ?_) fun p _ => by rw [hcells]
  have := hlive p hp
  rwa [Mem.Live, hcells]

theorem refl (h : ∀ p ∈ o, w.Live p) : Exchange reclaims o o w w := same h rfl

/-- **The frame rule.**  Blocks that a component does not own may be owned by
someone else meanwhile. -/
theorem frame {r : List ℕ} (h : Exchange reclaims o o' w w') (hlive : ∀ p ∈ r, w.Live p)
    (hapart : ∀ p ∈ r, p ∉ o) : Exchange reclaims (r ++ o) (r ++ o') w w' where
  others p c hc hp := by
    rw [List.mem_append, not_or] at hp
    obtain ⟨hc', hp'⟩ := h.others p c hc hp.2
    exact ⟨hc', by simp [hp.1, hp']⟩
  held p hp := by
    rcases List.mem_append.1 hp with hp | hp
    · obtain ⟨c, hc⟩ := Mem.live_iff.1 (hlive p hp)
      exact Mem.live_of (h.others p c hc (hapart p hp)).1
    · exact h.held p hp
  exact hre p hp := by
    rcases h.exact hre p hp with hmem | ⟨hlive', hnot⟩
    · exact .inl (List.mem_append_right r hmem)
    · by_cases hr : p ∈ r
      · exact .inl (List.mem_append_left o' hr)
      · exact .inr ⟨hlive', by simp [hr, hnot]⟩

/-- A new block came out. -/
theorem gain {c : Cell β} (hlive : ∀ p ∈ o, w.Live p)
    (hcells : w'.cells = Function.update w.cells w.next (some c)) :
    Exchange reclaims o (w.next :: o) w w' where
  others p c hc hp := by
    have hne := Mem.ne_next_of_live (Mem.live_of hc)
    refine ⟨by rw [hcells, Function.update_of_ne hne, hc], ?_⟩
    simp [hne, hp]
  held p hp := by
    rw [Mem.Live, hcells]
    by_cases hne : p = w.next
    · rw [hne, Function.update_self]
      rfl
    · rw [Function.update_of_ne hne]
      exact hlive p (by simpa [hne] using hp)
  exact _ p hp := by
    rw [Mem.Live, hcells] at hp
    by_cases hne : p = w.next
    · simp [hne]
    · rw [Function.update_of_ne hne] at hp
      by_cases ho : p ∈ o
      · simp [ho]
      · exact .inr ⟨hp, ho⟩

/-- An owned block was written to. -/
theorem write {c : Cell β} {p : ℕ} (hlive : ∀ p ∈ o, w.Live p) (hp : p ∈ o)
    (hcells : w'.cells = Function.update w.cells p (some c)) : Exchange reclaims o o w w' := by
  refine within (fun q hq => ?_) fun q hq => ?_
  · rw [Mem.Live, hcells]
    by_cases hne : q = p
    · rw [hne, Function.update_self]
      rfl
    · rw [Function.update_of_ne hne]
      exact hlive q hq
  · have hne : q ≠ p := fun h => hq (h ▸ hp)
    rw [hcells, Function.update_of_ne hne]

/-- An owned block was released, or abandoned where nothing is reclaimed. -/
theorem drop {p : ℕ} (hlive : ∀ p ∈ o, w.Live p) (hp : p ∉ o)
    (hcells : w'.cells = Function.update w.cells p none ∨ ¬ reclaims ∧ w'.cells = w.cells) :
    Exchange reclaims (p :: o) o w w' := by
  have hkeep : ∀ q, q ≠ p → w'.cells q = w.cells q := by
    intro q hq
    rcases hcells with h | ⟨-, h⟩
    · rw [h, Function.update_of_ne hq]
    · rw [h]
  refine ⟨fun q c hc hq => ?_, fun q hq => ?_, fun hre q hq => ?_⟩
  · rw [List.mem_cons, not_or] at hq
    exact ⟨by rw [hkeep q hq.1, hc], hq.2⟩
  · have hne : q ≠ p := fun h => hp (h ▸ hq)
    rw [Mem.Live, hkeep q hne]
    exact hlive q hq
  · rcases hcells with h | ⟨hnot, -⟩
    · have hne : q ≠ p := by
        rintro rfl
        rw [Mem.Live, h, Function.update_self] at hq
        cases hq
      rw [Mem.Live, hkeep q hne] at hq
      by_cases ho : q ∈ o
      · exact .inl ho
      · exact .inr ⟨hq, by simp [hne, ho]⟩
    · exact absurd hre hnot

/-- An owned block was resized. -/
theorem rename {c : Cell β} {p q : ℕ} (hlive : ∀ p ∈ o, w.Live p) (hp : p ∉ o)
    (hq : q = p ∨ q = w.next)
    (hcells : w'.cells = Function.update (Function.update w.cells p none) q (some c)) :
    Exchange reclaims (p :: o) (q :: o) w w' := by
  have hkeep : ∀ r, r ≠ p → r ≠ q → w'.cells r = w.cells r := by
    intro r hrp hrq
    rw [hcells, Function.update_of_ne hrq, Function.update_of_ne hrp]
  have hself : w'.Live q := by
    rw [Mem.Live, hcells, Function.update_self]
    rfl
  have hfresh : ∀ r, w.Live r → r ≠ p → r ≠ q := by
    rintro r hr hrp rfl
    rcases hq with rfl | rfl
    · exact hrp rfl
    · exact Mem.ne_next_of_live hr rfl
  refine ⟨fun r c hc hr => ?_, fun r hr => ?_, fun _ r hr => ?_⟩
  · rw [List.mem_cons, not_or] at hr
    have hrq := hfresh r (Mem.live_of hc) hr.1
    exact ⟨by rw [hkeep r hr.1 hrq, hc], by simp [hrq, hr.2]⟩
  · rcases List.mem_cons.1 hr with rfl | hr
    · exact hself
    · have hrp : r ≠ p := fun h => hp (h ▸ hr)
      rw [Mem.Live, hkeep r hrp (hfresh r (hlive r hr) hrp)]
      exact hlive r hr
  · by_cases hrq : r = q
    · exact .inl (by simp [hrq])
    · have hrp : r ≠ p := by
        rintro rfl
        rw [Mem.Live, hcells, Function.update_of_ne hrq, Function.update_self] at hr
        cases hr
      rw [Mem.Live, hkeep r hrp hrq] at hr
      by_cases ho : r ∈ o
      · exact .inl (by simp [ho])
      · exact .inr ⟨hr, by simp [hrp, ho]⟩

end Exchange

end Blocks
