import Mathlib.Tactic
import K4c.Lib.Runs
import K4c.Mem.Allocator

/-!
# One client for every allocator

Code that allocates through `k4c_alloc`, `k4c_resize` and `k4c_dealloc` is written
once and runs over any allocator value.  Here such a client keeps its blocks in
variables; a variable without a block holds `NULL`.

* `Conforms` — what the operations behind an allocator value promise to each other
  and to the client, in terms of the blocks that are live.
* `Call.effect` — what the client sees: the bytes it has written and still owns.
* `run_spec` — over operations that conform, every run follows what the client
  sees, but for requests that are refused.
-/

namespace K4c
namespace Backend

open Exec Runs

/-! ## Operations that conform -/

/-- How a client reads and writes the memory behind an allocator. -/
structure Window (ν : Type) where
  read : ν → (addr : ℕ) → UInt8
  write : ν → (addr : ℕ) → List UInt8 → ν

/-- The live blocks, with the sizes that were requested. -/
abbrev Live := ℕ → Option ℕ

variable {ν : Type}

/-- The bytes of the given blocks are the same in both memories. -/
def Keeps (view : Window ν) (live : Live) (w w' : ν) : Prop :=
  ∀ q m, live q = some m → ∀ i < m, view.read w' (q + i) = view.read w (q + i)

section Contract

variable (view : Window ν) (serves : ν → Live → Prop)

/-- What a request for a new block gives. -/
inductive Handed (w : ν) (live : Live) (size : ℕ) : ℕ × ν → Prop
  | refused {w'} : serves w' live → Keeps view live w w' → Handed w live size (0, w')
  | granted {p w'} : p ≠ 0 → live p = none → serves w' (Function.update live p (some size)) →
      Keeps view live w w' → Handed w live size (p, w')

/-- What a request to resize the block `p` of `k` bytes gives. -/
inductive Resized (w : ν) (live : Live) (p k size : ℕ) : ℕ × ν → Prop
  | refused {w'} : serves w' live → Keeps view live w w' → Resized w live p k size (0, w')
  | granted {q w'} : q ≠ 0 → Function.update live p none q = none →
      serves w' (Function.update (Function.update live p none) q (some size)) →
      Keeps view (Function.update live p none) w w' →
      (∀ i < min k size, view.read w' (q + i) = view.read w (p + i)) →
      Resized w live p k size (q, w')

/-- **The contract** of `malloc`, `realloc` and `free`, and of the operations of a
table.  `serves w live` says that `w` is a memory whose live blocks are `live`. -/
structure Conforms (ops : Libc ν) : Prop where
  /-- `NULL` is not a block. -/
  null : ∀ w live, serves w live → live 0 = none
  malloc : ∀ w live size, serves w live → 0 < size →
    Sat (ops.malloc w size) (Handed view serves w live size)
  /-- `realloc(NULL, size)` allocates. -/
  realloc_null : ∀ w live size, serves w live → 0 < size →
    Sat (ops.realloc w 0 size) (Handed view serves w live size)
  realloc : ∀ w live p k size, serves w live → live p = some k → 0 < size →
    Sat (ops.realloc w p size) (Resized view serves w live p k size)
  free : ∀ w live p, serves w live → live p ≠ none →
    Sat (ops.free w p) fun w' => serves w' (Function.update live p none) ∧
      Keeps view (Function.update live p none) w w'
  /-- A client that writes inside of a block changes the bytes it writes. -/
  write : ∀ w live p k offset bytes, serves w live → live p = some k →
    offset + bytes.length ≤ k →
    serves (view.write w (p + offset) bytes) live ∧
      Keeps view (Function.update live p none) w (view.write w (p + offset) bytes) ∧
      ∀ i < k, view.read (view.write w (p + offset) bytes) (p + i) =
        if offset ≤ i then (bytes[i - offset]?).getD (view.read w (p + i))
        else view.read w (p + i)

/-- `free(NULL)` does nothing. -/
def FreesNull (ops : Libc ν) : Prop :=
  ∀ w live, serves w live → Sat (ops.free w 0) fun w' => serves w' live ∧ Keeps view live w w'

end Contract

/-- The calls through an allocator value reach these operations. -/
structure Reaches (libc : Libc ν) (a : Option (Allocator ν)) (ops : Libc ν) : Prop where
  alloc : ∀ w size, Allocator.alloc libc a w size =
    (ops.malloc w size >>= fun r => .ok (Allocator.answer r))
  resize : ∀ w p size, size ≠ 0 → Allocator.resize libc a w p size =
    (ops.realloc w p size >>= fun r => .ok (Allocator.answer r))
  dealloc : ∀ w p, Allocator.dealloc libc a w p = ops.free w p

/-! ## The client -/

/-- A client: the memory, and the block in each variable with its size. -/
structure Client (ν : Type) where
  memory : ν
  held : ℕ → Option (ℕ × ℕ)

/-- What a client can do; `x` is a variable. -/
inductive Call where
  | alloc (x size : ℕ)
  | resize (x size : ℕ)
  | dealloc (x : ℕ)
  | write (x offset : ℕ) (bytes : List UInt8)
  deriving DecidableEq, Repr

namespace Client

/-- All variables are `NULL`. -/
def start (w : ν) : Client ν := ⟨w, fun _ => none⟩

/-- The pointer in a variable. -/
def pointer (s : Client ν) (x : ℕ) : ℕ := (s.held x).elim 0 Prod.fst

/-- Requests for a new block are positive, and writes stay inside of a block. -/
def Valid (s : Client ν) : Call → Prop
  | .alloc _ size => 0 < size
  | .write x offset bytes => ∃ b ∈ s.held x, offset + bytes.length ≤ b.2
  | .resize _ _ => True
  | .dealloc _ => True

/-- The call does not release `NULL`. -/
def NonNull (s : Client ν) : Call → Prop
  | .resize x size => size = 0 → s.held x ≠ none
  | .dealloc x => s.held x ≠ none
  | .alloc _ _ => True
  | .write _ _ _ => True

instance (s : Client ν) : (c : Call) → Decidable (s.Valid c)
  | .alloc _ size => inferInstanceAs (Decidable (0 < size))
  | .write x offset bytes =>
    inferInstanceAs (Decidable (∃ b ∈ s.held x, offset + bytes.length ≤ b.2))
  | .resize _ _ => .isTrue trivial
  | .dealloc _ => .isTrue trivial

instance (s : Client ν) : (c : Call) → Decidable (s.NonNull c)
  | .resize x size => inferInstanceAs (Decidable (size = 0 → s.held x ≠ none))
  | .dealloc x => inferInstanceAs (Decidable (s.held x ≠ none))
  | .alloc _ _ => .isTrue trivial
  | .write _ _ _ => .isTrue trivial

/-- Make a call through an allocator value: the status and the pointer. -/
def step (libc : Libc ν) (a : Option (Allocator ν)) (view : Window ν) (s : Client ν) :
    Call → Result ((Status × ℕ) × Client ν)
  | .alloc x size => do
    let ((st, p), memory) ← Allocator.alloc libc a s.memory size
    return ((st, p), ⟨memory, if st = .ok then Function.update s.held x (some (p, size))
      else s.held⟩)
  | .resize x size => do
    let ((st, p), memory) ← Allocator.resize libc a s.memory (s.pointer x) size
    if st ≠ .ok then return ((st, p), ⟨memory, s.held⟩)
    return ((st, p), ⟨memory, Function.update s.held x (if size = 0 then none
      else some (p, size))⟩)
  | .dealloc x => do
    let memory ← Allocator.dealloc libc a s.memory (s.pointer x)
    return ((.ok, 0), ⟨memory, Function.update s.held x none⟩)
  | .write x offset bytes =>
    .ok ((.ok, 0), { s with memory := view.write s.memory (s.pointer x + offset) bytes })

end Client

/-! ## What the client sees -/

/-- The bytes that the client has written into a block and that are still there. -/
structure Contents where
  size : ℕ
  byte : ℕ → Option UInt8

/-- The contents of the block in each variable. -/
abbrev Store := ℕ → Option Contents

/-- Nothing was written into a new block. -/
def Contents.fresh (size : ℕ) : Contents := ⟨size, fun _ => none⟩

/-- A resized block keeps the bytes that fit. -/
def Contents.fit (c : Contents) (size : ℕ) : Contents :=
  ⟨size, fun i => if i < min c.size size then c.byte i else none⟩

/-- Bytes are written over the old ones. -/
def Contents.overlay (c : Contents) (offset : ℕ) (bytes : List UInt8) : Contents :=
  ⟨c.size, fun i => if offset ≤ i then (bytes[i - offset]?).or (c.byte i) else c.byte i⟩

namespace Call

/-- What a call that is not refused does. -/
def effect (store : Store) : Call → Store
  | .alloc x size => Function.update store x (some (.fresh size))
  | .resize x size => Function.update store x
      (if size = 0 then none else some (((store x).getD (.fresh 0)).fit size))
  | .dealloc x => Function.update store x none
  | .write x offset bytes => Function.update store x
      ((store x).map fun c => c.overlay offset bytes)

/-- The call gives `NULL` when it is not refused. -/
def givesNull : Call → Bool
  | .alloc _ _ => false
  | .resize _ size => size = 0
  | .dealloc _ => true
  | .write _ _ _ => true

/-- A call and an answer to it: it is refused, or it has its effect. -/
def Answers (store : Store) (c : Call) (ans : Status × ℕ) (store' : Store) : Prop :=
  ans = (.noMemory, 0) ∧ store' = store ∨
  ans.1 = .ok ∧ decide (ans.2 = 0) = c.givesNull ∧ store' = c.effect store

end Call

/-- A run in which nothing is refused is determined by its calls. -/
theorem follows_of_ok : ∀ {calls : List Call} {answers : List (Status × ℕ)} {store store' : Store},
    Follows Call.Answers store calls answers store' → (∀ a ∈ answers, a.1 ≠ .noMemory) →
    store' = calls.foldl Call.effect store ∧
      answers.map (fun a => (a.1, decide (a.2 = 0))) = calls.map fun c => (.ok, c.givesNull) := by
  intro calls
  induction calls with
  | nil =>
    intro answers store store' h _
    cases answers with
    | nil => exact ⟨h, rfl⟩
    | cons a answers => exact h.elim
  | cons c calls ih =>
    intro answers store store' h hok
    cases answers with
    | nil => exact h.elim
    | cons a answers =>
      obtain ⟨b, hans, hrest⟩ := h
      rcases hans with ⟨rfl, -⟩ | ⟨hst, hnull, rfl⟩
      · exact absurd rfl (hok _ (List.mem_cons_self ..))
      · obtain ⟨hstore, hanswers⟩ := ih hrest fun a ha => hok a (List.mem_cons_of_mem _ ha)
        refine ⟨hstore, ?_⟩
        rw [List.map_cons, List.map_cons, hanswers, hst, hnull]

/-! ## The memory holds what the client sees -/

/-- The blocks of the client have the sizes and the bytes of the store. -/
def Shows (view : Window ν) (s : Client ν) (store : Store) : Prop :=
  ∀ x, (s.held x).map Prod.snd = (store x).map Contents.size ∧
    ∀ p n c, s.held x = some (p, n) → store x = some c → ∀ i < n, ∀ b, c.byte i = some b →
      view.read s.memory (p + i) = b

/-- The variables hold different live blocks, which hold what the client sees. -/
structure Inv (view : Window ν) (serves : ν → Live → Prop) (live : Live) (s : Client ν)
    (store : Store) : Prop where
  serves : serves s.memory live
  held : ∀ x p n, s.held x = some (p, n) → live p = some n
  apart : ∀ x y p n m, s.held x = some (p, n) → s.held y = some (p, m) → x = y
  shows : Shows view s store

variable {view : Window ν} {serves : ν → Live → Prop} {live : Live} {s : Client ν} {store : Store}
  {w : ν} {x : ℕ}

theorem inv_start (h : serves w fun _ => none) :
    Inv view serves (fun _ => none) (Client.start w) fun _ => none where
  serves := h
  held _ _ _ hx := by cases hx
  apart _ _ _ _ _ hx := by cases hx
  shows _ := ⟨rfl, fun _ _ _ hx => by cases hx⟩

/-- **The frame rule.**  A call about the variable `x` changes what it holds, and
keeps the blocks of all others. -/
theorem Inv.update (hI : Inv view serves live s store) {live' : Live} (hserves : serves w live')
    {block : Option (ℕ × ℕ)} {contents : Option Contents}
    (hothers : ∀ y, y ≠ x → ∀ p n, s.held y = some (p, n) → live' p = some n ∧
      (∀ m, block ≠ some (p, m)) ∧
      ∀ i < n, view.read w (p + i) = view.read s.memory (p + i))
    (hsize : block.map Prod.snd = contents.map Contents.size)
    (hlive : ∀ p n, block = some (p, n) → live' p = some n)
    (hbytes : ∀ p n c, block = some (p, n) → contents = some c → ∀ i < n, ∀ b,
      c.byte i = some b → view.read w (p + i) = b) :
    Inv view serves live' ⟨w, Function.update s.held x block⟩
      (Function.update store x contents) where
  serves := hserves
  held y p n hy := by
    dsimp only at hy
    by_cases hyx : y = x
    · subst hyx
      rw [Function.update_self] at hy
      exact hlive p n hy
    · rw [Function.update_of_ne hyx] at hy
      exact (hothers y hyx p n hy).1
  apart y z p n m hy hz := by
    dsimp only at hy hz
    by_cases hyx : y = x
    · by_cases hzx : z = x
      · rw [hyx, hzx]
      · subst hyx
        rw [Function.update_self] at hy
        rw [Function.update_of_ne hzx] at hz
        exact absurd hy ((hothers z hzx p m hz).2.1 n)
    · rw [Function.update_of_ne hyx] at hy
      by_cases hzx : z = x
      · subst hzx
        rw [Function.update_self] at hz
        exact absurd hz ((hothers y hyx p n hy).2.1 m)
      · rw [Function.update_of_ne hzx] at hz
        exact hI.apart y z p n m hy hz
  shows y := by
    dsimp only
    by_cases hyx : y = x
    · subst hyx
      rw [Function.update_self, Function.update_self]
      exact ⟨hsize, hbytes⟩
    · rw [Function.update_of_ne hyx, Function.update_of_ne hyx]
      refine ⟨(hI.shows y).1, fun p n c hy hc i hi b hb => ?_⟩
      rw [(hothers y hyx p n hy).2.2 i hi]
      exact (hI.shows y).2 p n c hy hc i hi b hb

/-- A refused request changes nothing that the client sees. -/
theorem Inv.keep (hI : Inv view serves live s store) (hserves : serves w live)
    (hkeeps : Keeps view live s.memory w) : Inv view serves live ⟨w, s.held⟩ store where
  serves := hserves
  held := hI.held
  apart := hI.apart
  shows y := by
    refine ⟨(hI.shows y).1, fun p n c hy hc i hi b hb => ?_⟩
    dsimp only at hy ⊢
    rw [hkeeps p n (hI.held y p n hy) i hi]
    exact (hI.shows y).2 p n c hy hc i hi b hb

/-! ## One call -/

section Calls

variable {libc ops : Libc ν} {a : Option (Allocator ν)}

/-- What is known after a call. -/
def Stepped (view : Window ν) (serves : ν → Live → Prop) (store : Store) (c : Call)
    (r : (Status × ℕ) × Client ν) : Prop :=
  ∃ store', c.Answers store r.1 store' ∧ ∃ live', Inv view serves live' r.2 store'

/-- A new block for the variable `x`, from `k4c_alloc` or from a `k4c_resize` of `NULL`. -/
theorem Handed.stepped (hI : Inv view serves live s store) {size : ℕ} {r : ℕ × ν}
    (h : Handed view serves s.memory live size r) {c : Call} (hc : c.givesNull = false)
    (contents : Contents) (hcontents : contents.size = size) (hfresh : ∀ i, contents.byte i = none)
    (heffect : c.effect store = Function.update store x (some contents)) :
    Stepped view serves store c ((Allocator.answer r).1, ⟨(Allocator.answer r).2,
      if (Allocator.answer r).1.1 = .ok then
        Function.update s.held x (some ((Allocator.answer r).1.2, size)) else s.held⟩) := by
  cases h with
  | refused hserves hkeeps =>
    exact ⟨store, .inl ⟨rfl, rfl⟩, live, hI.keep hserves hkeeps⟩
  | @granted p w' hp hnew hserves hkeeps =>
    rw [Allocator.answer, if_neg hp]
    refine ⟨_, .inr ⟨rfl, by simp [hp, hc], rfl⟩, Function.update live p (some size), ?_⟩
    rw [heffect]
    refine hI.update hserves (fun y hy q n hq => ?_) (by simp [hcontents]) ?_ ?_
    · have hlive := hI.held y q n hq
      have hqp : q ≠ p := by
        rintro rfl
        rw [hnew] at hlive
        cases hlive
      exact ⟨by rw [Function.update_of_ne hqp, hlive], fun m h => hqp (by cases h; rfl),
        hkeeps q n hlive⟩
    · rintro q n hq
      cases hq
      exact Function.update_self ..
    · intro q n c _ hc' i _ b hb
      cases hc'
      rw [hfresh] at hb
      cases hb

/-- A resized block. -/
theorem Resized.stepped (hI : Inv view serves live s store) {p k size : ℕ} {r : ℕ × ν}
    (hx : s.held x = some (p, k)) (hsize : size ≠ 0)
    (h : Resized view serves s.memory live p k size r) :
    Stepped view serves store (.resize x size) ((Allocator.answer r).1,
      ⟨(Allocator.answer r).2, if (Allocator.answer r).1.1 = .ok then
        Function.update s.held x (some ((Allocator.answer r).1.2, size)) else s.held⟩) := by
  cases h with
  | refused hserves hkeeps =>
    exact ⟨store, .inl ⟨rfl, rfl⟩, live, hI.keep hserves hkeeps⟩
  | @granted q w' hq hnew hserves hkeeps hcopied =>
    rw [Allocator.answer, if_neg hq]
    refine ⟨_, .inr ⟨rfl, by simp [hq, Call.givesNull, hsize], rfl⟩,
      Function.update (Function.update live p none) q (some size), ?_⟩
    have hcontents := hI.shows x
    rw [hx] at hcontents
    obtain ⟨c, hc, hck⟩ : ∃ c, store x = some c ∧ c.size = k := by
      cases hstore : store x with
      | none => simp [hstore] at hcontents
      | some c => exact ⟨c, rfl, by simpa [hstore, eq_comm] using hcontents.1⟩
    rw [Call.effect, if_neg hsize, hc, Option.getD_some]
    refine hI.update hserves (fun y hy p' n hp' => ?_) (by simp [Contents.fit]) ?_ ?_
    · have hpp : p' ≠ p := by
        rintro rfl
        exact hy (hI.apart y x p' n k hp' hx)
      have hlive : Function.update live p none p' = some n := by
        rw [Function.update_of_ne hpp, hI.held y p' n hp']
      have hpq : p' ≠ q := by
        rintro rfl
        rw [hnew] at hlive
        cases hlive
      exact ⟨by rw [Function.update_of_ne hpq, hlive], fun m h => hpq (by cases h; rfl),
        hkeeps p' n hlive⟩
    · rintro p' n hp'
      cases hp'
      exact Function.update_self ..
    · intro p' n c' hp' hc' i _ b hb
      cases hp'
      cases hc'
      simp only [Contents.fit, hck] at hb
      split at hb
      next hi =>
        rw [hcopied i hi]
        exact hcontents.2 p k c rfl hc i (by omega) b hb
      next => cases hb

variable {libc ops : Libc ν} {a : Option (Allocator ν)}

theorem step_alloc (hreach : Reaches libc a ops) (hops : Conforms view serves ops)
    (hI : Inv view serves live s store) {size : ℕ} (hsize : 0 < size) :
    Sat (s.step libc a view (.alloc x size)) (Stepped view serves store (.alloc x size)) := by
  obtain ⟨r, hr, hhanded⟩ := hops.malloc s.memory live size hI.serves hsize
  rw [Client.step, hreach.alloc, hr]
  exact Sat.ok (hhanded.stepped hI rfl (.fresh size) rfl (fun _ => rfl) rfl)

/-- A release, by `k4c_dealloc` or by a `k4c_resize` to nothing. -/
theorem release_stepped (hreach : Reaches libc a ops) (hops : Conforms view serves ops)
    (hI : Inv view serves live s store) {c : Call}
    (hnull : s.held x = none → FreesNull view serves ops)
    (hgives : c.givesNull = true) (heffect : c.effect store = Function.update store x none) :
    Sat (Allocator.dealloc libc a s.memory (s.pointer x)) fun w =>
      Stepped view serves store c ((.ok, 0), ⟨w, Function.update s.held x none⟩) := by
  rw [hreach.dealloc]
  cases hx : s.held x with
  | none =>
    obtain ⟨w, hw, hserves, hkeeps⟩ := hnull hx s.memory live hI.serves
    rw [Client.pointer, hx, Option.elim_none, hw]
    refine Sat.ok ⟨_, .inr ⟨rfl, by simp [hgives], rfl⟩, live, ?_⟩
    rw [heffect]
    refine hI.update hserves (fun y _ p n hp => ?_) rfl nofun nofun
    exact ⟨hI.held y p n hp, nofun, hkeeps p n (hI.held y p n hp)⟩
  | some b =>
    obtain ⟨p, k⟩ := b
    obtain ⟨w, hw, hserves, hkeeps⟩ :=
      hops.free s.memory live p hI.serves (by simp [hI.held x p k hx])
    rw [Client.pointer, hx, Option.elim_some, hw]
    refine Sat.ok ⟨_, .inr ⟨rfl, by simp [hgives], rfl⟩, Function.update live p none, ?_⟩
    rw [heffect]
    refine hI.update hserves (fun y hy q n hq => ?_) rfl nofun nofun
    have hqp : q ≠ p := by
      rintro rfl
      exact hy (hI.apart y x q n k hq hx)
    have hlive : Function.update live p none q = some n := by
      rw [Function.update_of_ne hqp, hI.held y q n hq]
    exact ⟨hlive, nofun, hkeeps q n hlive⟩

/-- A `k4c_resize` to a positive size, once its operation has answered. -/
theorem step_resize_eq (hreach : Reaches libc a ops) {size : ℕ} (hsize : size ≠ 0) {r : ℕ × ν}
    (hr : ops.realloc s.memory (s.pointer x) size = .ok r) :
    s.step libc a view (.resize x size) = .ok ((Allocator.answer r).1,
      ⟨(Allocator.answer r).2, if (Allocator.answer r).1.1 = .ok then
        Function.update s.held x (some ((Allocator.answer r).1.2, size)) else s.held⟩) := by
  rw [Client.step, hreach.resize _ _ _ hsize, hr]
  by_cases hp : r.1 = 0
  · simp [Allocator.answer, hp]
  · simp [Allocator.answer, hp, hsize]

theorem step_resize (hreach : Reaches libc a ops) (hops : Conforms view serves ops)
    (hI : Inv view serves live s store) {size : ℕ}
    (hnull : s.NonNull (.resize x size) ∨ FreesNull view serves ops) :
    Sat (s.step libc a view (.resize x size)) (Stepped view serves store (.resize x size)) := by
  by_cases hsize : size = 0
  · subst hsize
    obtain ⟨w, hw, hstep⟩ := release_stepped hreach hops hI (x := x) (c := .resize x 0)
      (fun hx => hnull.resolve_left fun h => h rfl hx) rfl rfl
    rw [Client.step, Allocator.resize, if_pos rfl, hw]
    exact Sat.ok hstep
  have hpos := Nat.pos_of_ne_zero hsize
  cases hx : s.held x with
  | none =>
    obtain ⟨r, hr, hhanded⟩ := hops.realloc_null s.memory live size hI.serves hpos
    have hstore : store x = none := by
      have hcontents := (hI.shows x).1
      rw [hx] at hcontents
      simpa using hcontents.symm
    rw [step_resize_eq hreach hsize (by rwa [Client.pointer, hx])]
    refine Sat.ok (hhanded.stepped hI (by simp [Call.givesNull, hsize])
      ((Contents.fresh 0).fit size) rfl (fun i => ?_) ?_)
    · simp [Contents.fit, Contents.fresh]
    · simp [Call.effect, hsize, hstore]
  | some b =>
    obtain ⟨p, k⟩ := b
    obtain ⟨r, hr, hresized⟩ :=
      hops.realloc s.memory live p k size hI.serves (hI.held x p k hx) hpos
    rw [step_resize_eq hreach hsize (by rwa [Client.pointer, hx])]
    exact Sat.ok (hresized.stepped hI hx hsize)

theorem step_dealloc (hreach : Reaches libc a ops) (hops : Conforms view serves ops)
    (hI : Inv view serves live s store)
    (hnull : s.NonNull (.dealloc x) ∨ FreesNull view serves ops) :
    Sat (s.step libc a view (.dealloc x)) (Stepped view serves store (.dealloc x)) := by
  obtain ⟨w, hw, hstep⟩ := release_stepped hreach hops hI (x := x) (c := .dealloc x)
    (fun hx => hnull.resolve_left fun h => h hx) rfl rfl
  rw [Client.step, hw]
  exact Sat.ok hstep

theorem step_write (hops : Conforms view serves ops) (hI : Inv view serves live s store)
    {offset : ℕ} {bytes : List UInt8} (hv : s.Valid (.write x offset bytes)) :
    Sat (s.step libc a view (.write x offset bytes))
      (Stepped view serves store (.write x offset bytes)) := by
  obtain ⟨⟨p, k⟩, hx, hle⟩ := hv
  have hx' : s.held x = some (p, k) := hx
  obtain ⟨hserves, hkeeps, hread⟩ := hops.write s.memory live p k offset bytes hI.serves
    (hI.held x p k hx') hle
  have hcontents := hI.shows x
  refine Sat.ok ⟨_, .inr ⟨rfl, rfl, rfl⟩, live, ?_⟩
  -- the variable keeps its block
  have hheld : s.held = Function.update s.held x (some (p, k)) := by
    rw [← hx', Function.update_eq_self]
  rw [Call.effect, Client.pointer, hx', Option.elim_some]
  dsimp only
  rw [show (⟨view.write s.memory (p + offset) bytes, s.held⟩ : Client ν) =
    ⟨view.write s.memory (p + offset) bytes, Function.update s.held x (some (p, k))⟩ by
      rw [← hheld]]
  refine hI.update hserves (fun y hy q n hq => ?_) ?_ ?_ ?_
  · have hqp : q ≠ p := by
      rintro rfl
      exact hy (hI.apart y x q n k hq hx')
    have hlive := hI.held y q n hq
    exact ⟨hlive, fun m h => hqp (by cases h; rfl),
      hkeeps q n (by rw [Function.update_of_ne hqp, hlive])⟩
  · have hsize := hcontents.1
    rw [hx'] at hsize
    rw [Option.map_map]
    exact hsize
  · rintro q n hq
    cases hq
    exact hI.held x p k hx'
  · intro q n c hq hc i hi b hb
    cases hq
    obtain ⟨c₀, hc₀, rfl⟩ := Option.map_eq_some_iff.1 hc
    rw [hread i hi]
    have hold : c₀.byte i = some b → view.read s.memory (p + i) = b :=
      hcontents.2 p k c₀ hx' hc₀ i hi b
    simp only [Contents.overlay] at hb
    split at hb
    next hoff =>
      rw [if_pos hoff]
      cases hbyte : bytes[i - offset]? with
      | none => exact hold (by simpa [hbyte] using hb)
      | some v => simpa [hbyte] using hb
    next hoff =>
      rw [if_neg hoff]
      exact hold hb

/-- **What one call does**, over operations that conform. -/
theorem step_spec (hreach : Reaches libc a ops) (hops : Conforms view serves ops)
    (hI : Inv view serves live s store) {c : Call} (hv : s.Valid c)
    (hnull : s.NonNull c ∨ FreesNull view serves ops) :
    Sat (s.step libc a view c) (Stepped view serves store c) := by
  cases c with
  | alloc x size => exact step_alloc hreach hops hI hv
  | resize x size => exact step_resize hreach hops hI hnull
  | dealloc x => exact step_dealloc hreach hops hI hnull
  | write x offset bytes => exact step_write hops hI hv

/-- **Runs follow what the client sees**, over operations that conform. -/
theorem run_spec (hreach : Reaches libc a ops) (hops : Conforms view serves ops)
    (hI : Inv view serves live s store) {calls : List Call}
    (hv : Along (Client.step libc a view) Client.Valid s calls)
    (hnull : Along (Client.step libc a view)
      (fun t c => t.NonNull c ∨ FreesNull view serves ops) s calls) :
    Sat (trace (Client.step libc a view) s calls) fun r =>
      ∃ store', Follows Call.Answers store calls r.1 store' ∧ Shows view r.2 store' := by
  refine (trace_refines (R := fun t store => ∃ live, Inv view serves live t store)
    (T := Call.Answers) ?_ calls s store ⟨live, hI⟩ (hv.and hnull)).mono ?_
  · rintro t st c ⟨live', hI'⟩ ⟨hvalid, hnon⟩
    exact step_spec hreach hops hI' hvalid hnon
  · rintro r ⟨store', hfollows, live', hI'⟩
    exact ⟨store', hfollows, hI'.shows⟩

end Calls

end Backend
end K4c
