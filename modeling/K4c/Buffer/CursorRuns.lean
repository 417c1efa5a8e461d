import Mathlib.Tactic
import K4c.Buffer.Cursor
import K4c.Lib.Runs

/-!
# A cursor reads its bytes

A client makes a cursor over any bytes and calls it in any order.  The cursor
behaves as the list of its bytes from the position on: `Spec` is that list, and
`BufCursor.faithful` the refinement.

* `Lies` — the cursor covers bytes of the memory and has not run past them; `rest` —
  the bytes that are left.
* `peekAt_eq`, `startsWith_eq`, `next_eq`, `skip_eq`, `nextIf_eq` — the calls, on what is
  left.
* `Longest` — how far a predicate with a context of its own goes; `skipWhile_spec` — the
  loop goes as far, and asks about no byte behind the one it stops at.
-/

namespace K4c.BufCursor

open Exec Bytes Runs

/-! ## What is left -/

/-- The cursor covers bytes of the memory, and its position is one of them or their end. -/
structure Lies (memory : List UInt8) (c : BufCursor) : Prop where
  inside : c.data + c.len ≤ memory.length
  fits : c.len ≤ sizeMax
  pos_le : c.pos ≤ c.len

/-- The bytes from the position on. -/
def rest (memory : List UInt8) (c : BufCursor) : List UInt8 := (c.bytes memory).drop c.pos

/-- The cursor `n` bytes further on. -/
def advance (c : BufCursor) (n : ℕ) : BufCursor := { c with pos := c.pos + n }

/-- The status and the byte for an index of a list. -/
def byteAt (bs : List UInt8) (k : ℕ) : Status × Option UInt8 :=
  match bs[k]? with
  | none => (.eof, none)
  | some b => (.ok, some b)

theorem byteAt_of_lt {bs : List UInt8} {k : ℕ} (h : k < bs.length) :
    byteAt bs k = (.ok, some bs[k]) := by
  rw [byteAt, List.getElem?_eq_getElem h]

theorem byteAt_of_ge {bs : List UInt8} {k : ℕ} (h : bs.length ≤ k) :
    byteAt bs k = (.eof, none) := by
  rw [byteAt, List.getElem?_eq_none h]

variable {memory : List UInt8} {c : BufCursor} {n k : ℕ}

namespace Lies

theorem length_bytes (h : Lies memory c) : (c.bytes memory).length = c.len :=
  length_slice h.inside

theorem length_rest (h : Lies memory c) : (c.rest memory).length = c.len - c.pos := by
  rw [rest, List.length_drop, h.length_bytes]

theorem advance (h : Lies memory c) (hn : n ≤ (c.rest memory).length) :
    Lies memory (c.advance n) := by
  rw [h.length_rest] at hn
  have hpos := h.pos_le
  refine ⟨h.inside, h.fits, ?_⟩
  change c.pos + n ≤ c.len
  omega

/-- A range of what is left lies at its place in the memory. -/
theorem slice_rest (h : Lies memory c) (hn : k + n ≤ (c.rest memory).length) :
    slice memory (c.data + (c.pos + k)) n = slice (c.rest memory) k n := by
  rw [h.length_rest] at hn
  have hpos := h.pos_le
  have hrest : slice (c.rest memory) k n = slice (c.bytes memory) (c.pos + k) n := by
    rw [rest, slice, slice, List.drop_drop]
  rw [hrest, bytes, slice_slice (by omega)]

end Lies

theorem rest_advance : (c.advance n).rest memory = (c.rest memory).drop n := by
  rw [rest, rest, List.drop_drop]
  rfl

/-! ## The calls that look -/

theorem remaining_eq (h : Lies memory c) : remaining c = .ok (c.rest memory).length := by
  rw [remaining, h.length_rest]
  split
  · rw [Nat.sub_eq_zero_of_le (by assumption)]
  · rw [sizeSub_of_le h.pos_le]

theorem atEnd_iff (h : Lies memory c) : c.atEnd = true ↔ c.rest memory = [] := by
  rw [atEnd, decide_eq_true_iff, ← List.length_eq_zero_iff, h.length_rest]
  omega

/-- **Peeking** gives the byte with that index of what is left. -/
theorem peekAt_eq (h : Lies memory c) (k : ℕ) :
    peekAt memory c k = .ok (byteAt (c.rest memory) k) := by
  rw [peekAt, remaining_eq h, ok_bind]
  by_cases hk : k ≥ (c.rest memory).length
  · rw [if_pos hk, byteAt_of_ge hk, pure_eq_ok]
  have hlt : k < (c.rest memory).length := by omega
  have hlen := h.length_rest
  have hinside := h.inside
  have hfits := h.fits
  rw [if_neg hk, sizeAdd_of_le (by omega), ok_bind, readAt_of_le (by omega), ok_bind,
    h.slice_rest (n := 1) hlt, byteAt_of_lt hlt, slice, List.drop_eq_getElem_cons hlt]
  rfl

/-- **`starts_with`** asks for a prefix of what is left. -/
theorem startsWith_eq (h : Lies memory c) {bytes : Option (List UInt8)} {len : ℕ}
    (hlen : len ≤ (bytes.getD []).length) :
    startsWith memory c bytes len =
      .ok (decide ((bytes.getD []).take len <+: c.rest memory)) := by
  have hbytes : bytes ≠ none ∨ len = 0 := by
    cases bytes with
    | none => exact .inr (Nat.le_zero.1 hlen)
    | some bs => exact .inl (by simp)
  rw [startsWith, check_of hbytes, ok_bind, remaining_eq h, ok_bind]
  have htake : ((bytes.getD []).take len).length = len := by
    rw [List.length_take, min_eq_left hlen]
  by_cases hlong : len > (c.rest memory).length
  · rw [if_pos hlong, pure_eq_ok, decide_eq_false]
    intro hprefix
    have := hprefix.length_le
    omega
  have hrest := h.length_rest
  have hpos := h.pos_le
  have hinside := h.inside
  rw [if_neg hlong, readAt_of_le (by omega), ok_bind, readAt_of_le (by omega), ok_bind, pure_eq_ok]
  have hslice := h.slice_rest (k := 0) (n := len) (by omega)
  rw [Nat.add_zero] at hslice
  rw [hslice, slice, slice, List.drop_zero, List.drop_zero]
  congr 1
  rw [decide_eq_decide, CString.memcmp_eq_zero (by rw [htake, List.length_take]; omega),
    List.prefix_iff_eq_take, htake, eq_comm]

/-! ## The calls that move on -/

/-- **`next`** gives the first byte of what is left and goes behind it. -/
theorem next_eq (h : Lies memory c) :
    next memory c =
      .ok (byteAt (c.rest memory) 0, if c.rest memory = [] then c else c.advance 1) := by
  rw [next, peek, peekAt_eq h, ok_bind]
  by_cases hnil : c.rest memory = []
  · rw [hnil, byteAt_of_ge (Nat.le_refl 0)]
    rfl
  have hlt : 0 < (c.rest memory).length := List.length_pos_iff.2 hnil
  have hrest := h.length_rest
  have hfits := h.fits
  rw [byteAt_of_lt hlt, if_neg hnil]
  dsimp only
  rw [if_neg (not_not.2 rfl), sizeAdd_of_le (by omega), ok_bind]
  rfl

/-- **`skip`** goes `count` bytes further, if there are as many. -/
theorem skip_eq (h : Lies memory c) (count : ℕ) :
    skip c count = .ok (if count ≤ (c.rest memory).length then (.ok, c.advance count)
      else (.eof, c)) := by
  rw [skip, remaining_eq h, ok_bind]
  by_cases hle : count ≤ (c.rest memory).length
  · have hrest := h.length_rest
    have hpos := h.pos_le
    have hfits := h.fits
    rw [if_neg (by omega), if_pos hle, sizeAdd_of_le (by omega), ok_bind]
    rfl
  · rw [if_pos (by omega), if_neg hle, pure_eq_ok]

/-- **`next_if`** goes behind the first byte of what is left, if it is the expected one. -/
theorem nextIf_eq (h : Lies memory c) (expected : UInt8) :
    nextIf memory c expected = .ok (if (c.rest memory).head? = some expected
      then (true, c.advance 1) else (false, c)) := by
  rw [nextIf, peek, peekAt_eq h, ok_bind]
  cases hrest : c.rest memory with
  | nil => rw [byteAt_of_ge (Nat.le_refl 0), List.head?_nil, if_neg nofun]; rfl
  | cons b bs =>
    have hlen := h.length_rest
    have hfits := h.fits
    rw [hrest, List.length_cons] at hlen
    rw [byteAt_of_lt (Nat.succ_pos _), List.head?_cons]
    dsimp only [List.getElem_cons_zero, Option.getD_some]
    by_cases hb : b = expected
    · rw [if_neg (by simp [hb]), if_pos (by rw [hb]), sizeAdd_of_le (by omega), ok_bind]
      rfl
    · rw [if_pos (.inr hb), if_neg (by simpa using hb), pure_eq_ok]

/-! ## The loop with a predicate -/

section Predicates

variable {κ : Type} {p : κ → UInt8 → Bool × κ} {context : κ} {bs : List UInt8}

/-- The context after the predicate was asked about these bytes in order. -/
def contextAfter (p : κ → UInt8 → Bool × κ) (context : κ) (bs : List UInt8) : κ :=
  bs.foldl (fun context b => (p context b).2) context

/-- The predicate lets the first `n` bytes pass, each in the context that those before it
left. -/
structure Passes (p : κ → UInt8 → Bool × κ) (context : κ) (bs : List UInt8) (n : ℕ) : Prop where
  le : n ≤ bs.length
  passed : ∀ i b, i < n → bs[i]? = some b → (p (contextAfter p context (bs.take i)) b).1 = true

/-- It stops at the byte behind them, if there is one. -/
structure Longest (p : κ → UInt8 → Bool × κ) (context : κ) (bs : List UInt8) (n : ℕ) : Prop
    extends Passes p context bs n where
  stopped : ∀ b, bs[n]? = some b → (p (contextAfter p context (bs.take n)) b).1 = false

theorem contextAfter_take_succ (h : k < bs.length) :
    contextAfter p context (bs.take (k + 1)) =
      (p (contextAfter p context (bs.take k)) bs[k]).2 := by
  rw [contextAfter, contextAfter, List.take_succ_eq_append_getElem h, List.foldl_append]
  rfl

/-- A predicate without a context goes as far as `takeWhile`. -/
theorem Longest.eq_takeWhile {q : UInt8 → Bool} (h : Longest (fun _ b => (q b, ())) () bs n) :
    n = (bs.takeWhile q).length := by
  have hpassed : ∀ b ∈ bs.take n, q b = true := by
    intro b hb
    obtain ⟨i, hi, rfl⟩ := List.mem_take_iff_getElem.1 hb
    exact h.passed i _ (by omega) (List.getElem?_eq_getElem (by omega))
  have hstopped : (bs.drop n).takeWhile q = [] := by
    by_cases hn : n < bs.length
    · rw [List.drop_eq_getElem_cons hn, List.takeWhile_cons_of_neg]
      exact Bool.not_eq_true _ ▸ h.stopped _ (List.getElem?_eq_getElem hn)
    · rw [List.drop_eq_nil_of_le (by omega), List.takeWhile_nil]
  have hsplit : (bs.take n ++ bs.drop n).takeWhile q = bs.take n ++ (bs.drop n).takeWhile q :=
    List.takeWhile_append_of_pos hpassed
  rw [List.take_append_drop, hstopped, List.append_nil] at hsplit
  rw [hsplit, List.length_take, min_eq_left h.le]

theorem Passes.zero : Passes p context bs 0 :=
  ⟨Nat.zero_le _, fun i _ hi => absurd hi (Nat.not_lt_zero i)⟩

theorem Passes.succ (h : Passes p context bs k) (hk : k < bs.length)
    (hgo : (p (contextAfter p context (bs.take k)) bs[k]).1 = true) :
    Passes p context bs (k + 1) := by
  refine ⟨hk, fun i b hi hb => ?_⟩
  by_cases hik : i = k
  · subst hik
    rw [List.getElem?_eq_getElem hk] at hb
    cases hb
    exact hgo
  · exact h.passed i b (by omega) hb

/-- The states of the loop: the cursor has gone past `n` bytes, about each of which the
predicate was asked once. -/
def Skipped (p : κ → UInt8 → Bool × κ) (context : κ) (memory : List UInt8) (c : BufCursor)
    (s : BufCursor × κ) : Prop :=
  ∃ n, Passes p context (c.rest memory) n ∧
    s = (c.advance n, contextAfter p context ((c.rest memory).take n))

/-- What the loop leaves with. -/
def Stopped (p : κ → UInt8 → Bool × κ) (context : κ) (memory : List UInt8) (c : BufCursor)
    (s : BufCursor × κ) : Prop :=
  ∃ n, Longest p context (c.rest memory) n ∧
    s = (c.advance n, contextAfter p context ((c.rest memory).take (n + 1)))

theorem skipWhileRound_spec (h : Lies memory c) {s : BufCursor × κ}
    (hs : Skipped p context memory c s) :
    Sat (skipWhileRound memory p s)
      (Round (Skipped p context memory c) (fun s => c.len - s.1.pos)
        (Stopped p context memory c) s) := by
  obtain ⟨n, hpasses, rfl⟩ := hs
  have hlen := h.length_rest
  have hfits := h.fits
  have hlies := h.advance hpasses.le
  have hrest : (c.advance n).rest memory = (c.rest memory).drop n := rest_advance
  rw [skipWhileRound]
  dsimp only
  by_cases hend : (c.advance n).atEnd = true
  · -- nothing is left, and nothing was asked
    have hall : (c.rest memory).length ≤ n := by
      rw [atEnd_iff hlies, hrest] at hend
      exact List.drop_eq_nil_iff.1 hend
    rw [if_pos hend]
    refine Sat.ok ⟨n, ⟨hpasses, fun b hb => ?_⟩, ?_⟩
    · rw [List.getElem?_eq_none hall] at hb
      cases hb
    · rw [List.take_of_length_le hall, List.take_of_length_le (by omega)]
  have hlt : n < (c.rest memory).length := by
    rw [atEnd_iff hlies, hrest, List.drop_eq_nil_iff] at hend
    omega
  have hnext : contextAfter p context ((c.rest memory).take (n + 1)) = _ :=
    contextAfter_take_succ hlt
  rw [if_neg hend, peek, peekAt_eq hlies, hrest, ok_bind, byteAt_of_lt (by simpa using hlt),
    if_neg (not_not.2 rfl)]
  simp only [List.getElem_drop, Nat.add_zero, Option.getD_some]
  cases hgo : (p (contextAfter p context ((c.rest memory).take n)) (c.rest memory)[n]).1 with
  | false =>
    refine Sat.ok (α := _ ⊕ _) ⟨n, ⟨hpasses, fun b hb => ?_⟩, by rw [hnext]⟩
    rw [List.getElem?_eq_getElem hlt] at hb
    cases hb
    exact hgo
  | true =>
    have hpos : (c.advance n).pos = c.pos + n := rfl
    rw [Bool.not_true, if_neg Bool.false_ne_true, sizeAdd_of_le (by omega), ok_bind]
    refine Sat.ok (α := _ ⊕ _) ⟨⟨n + 1, hpasses.succ hlt hgo, by rw [hnext]; rfl⟩, ?_⟩
    change c.len - (c.pos + n + 1) < c.len - (c.pos + n)
    omega

/-- **`skip_while`** goes behind the longest run of bytes that the predicate lets pass.  It
asks about these, and about the byte behind them if there is one. -/
theorem skipWhile_spec (h : Lies memory c) (p : κ → UInt8 → Bool × κ) (context : κ) :
    ∃ n, Longest p context (c.rest memory) n ∧
      skipWhile memory c p context =
        .ok (n, c.advance n, contextAfter p context ((c.rest memory).take (n + 1))) := by
  obtain ⟨r, hloop, n, hlongest, rfl⟩ := loop_ok (fun s hs => skipWhileRound_spec h hs) (c.len + 1)
    (c, context) ⟨0, .zero, rfl⟩ (by dsimp only; omega)
  have hle : c.pos ≤ (c.advance n).pos := Nat.le_add_right ..
  have hcount : (c.advance n).pos - c.pos = n := Nat.add_sub_cancel_left ..
  refine ⟨n, hlongest, ?_⟩
  rw [skipWhile, hloop, ok_bind]
  dsimp only
  rw [sizeSub_of_le hle, hcount, ok_bind, pure_eq_ok]

/-- The predicate with a record of the bytes it was asked about. -/
def asking (p : κ → UInt8 → Bool × κ) (s : κ × List UInt8) (b : UInt8) :
    Bool × κ × List UInt8 :=
  ((p s.1 b).1, (p s.1 b).2, s.2 ++ [b])

theorem contextAfter_asking : ∀ (bs : List UInt8) (s : κ × List UInt8),
    contextAfter (asking p) s bs = (contextAfter p s.1 bs, s.2 ++ bs) := by
  intro bs
  induction bs with
  | nil => intro s; rw [List.append_nil]; rfl
  | cons b bs ih =>
    intro s
    change contextAfter (asking p) (asking p s b).2 bs = _
    rw [ih]
    simp [asking, contextAfter]

/-- The record changes no answer. -/
theorem Longest.of_asking (h : Longest (asking p) (context, []) bs n) :
    Longest p context bs n := by
  have hasking : ∀ i b, (asking p (contextAfter (asking p) (context, []) (bs.take i)) b).1 =
      (p (contextAfter p context (bs.take i)) b).1 := by
    intro i b
    rw [contextAfter_asking]
    rfl
  refine ⟨⟨h.le, fun i b hi hb => ?_⟩, fun b hb => ?_⟩
  · rw [← hasking]
    exact h.passed i b hi hb
  · rw [← hasking]
    exact h.stopped b hb

end Predicates

/-! ## The client -/

variable {κ : Type}

/-- A call.  An argument of `starts_with` is given by the bytes that can be read from it on;
`κ` is what the predicates of the client work on. -/
inductive Call (κ : Type) where
  | position
  | remaining
  | atEnd
  | peek
  | peekAt (offset : ℕ)
  | startsWith (bytes : Option (List UInt8)) (len : ℕ)
  | next
  | skip (count : ℕ)
  | nextIf (expected : UInt8)
  | skipWhile (predicate : κ → UInt8 → Bool × κ)
  | skipAsciiWhitespace

/-- What the client learns from a call; of `skip_while`, also which bytes the predicate was
asked about. -/
inductive Answer where
  | size (n : ℕ)
  | holds (b : Bool)
  | status (st : Status)
  | byte (out : Status × Option UInt8)
  | skipped (n : ℕ) (asked : List UInt8)
  | done
  deriving DecidableEq, Repr

/-- The bytes that `starts_with` compares can be read. -/
def Call.Valid : Call κ → Prop
  | .startsWith bytes len => len ≤ (bytes.getD []).length
  | _ => True

instance : DecidablePred (Call.Valid (κ := κ)) := by
  intro c
  cases c <;> unfold Call.Valid <;> exact inferInstance

/-- One call, on the cursor and what the predicates work on. -/
def step (memory : List UInt8) (s : BufCursor × κ) (c : Call κ) :
    Result (Answer × (BufCursor × κ)) :=
  match c with
  | .position => return (.size s.1.position, s)
  | .remaining => do return (.size (← remaining s.1), s)
  | .atEnd => return (.holds s.1.atEnd, s)
  | .peek => do return (.byte (← peek memory s.1), s)
  | .peekAt offset => do return (.byte (← peekAt memory s.1 offset), s)
  | .startsWith bytes len => do return (.holds (← startsWith memory s.1 bytes len), s)
  | .next => do
    let (out, cursor) ← next memory s.1
    return (.byte out, (cursor, s.2))
  | .skip count => do
    let (st, cursor) ← skip s.1 count
    return (.status st, (cursor, s.2))
  | .nextIf expected => do
    let (b, cursor) ← nextIf memory s.1 expected
    return (.holds b, (cursor, s.2))
  | .skipWhile predicate => do
    let (n, cursor, context, asked) ← skipWhile memory s.1 (asking predicate) (s.2, [])
    return (.skipped n asked, (cursor, context))
  | .skipAsciiWhitespace => do
    let cursor ← skipAsciiWhitespace memory s.1
    return (.done, (cursor, s.2))

/-! ## The list -/

/-- The bytes, how many of them are behind the cursor, and what the predicates work on. -/
structure Abstract (κ : Type) where
  data : List UInt8
  pos : ℕ
  context : κ

namespace Abstract

/-- The bytes that are left. -/
def rest (a : Abstract κ) : List UInt8 := a.data.drop a.pos

/-- `n` bytes further on. -/
def advance (a : Abstract κ) (n : ℕ) : Abstract κ := { a with pos := a.pos + n }

end Abstract

/-- What a call answers and does, about the bytes that are left. -/
def Spec (a : Abstract κ) : Call κ → Answer → Abstract κ → Prop
  | .position, .size n, a' => n = a.pos ∧ a' = a
  | .remaining, .size n, a' => n = a.rest.length ∧ a' = a
  | .atEnd, .holds b, a' => (b = true ↔ a.rest = []) ∧ a' = a
  | .peek, .byte out, a' => out = byteAt a.rest 0 ∧ a' = a
  | .peekAt k, .byte out, a' => out = byteAt a.rest k ∧ a' = a
  | .startsWith bytes len, .holds b, a' =>
    (b = true ↔ (bytes.getD []).take len <+: a.rest) ∧ a' = a
  | .next, .byte out, a' =>
    out = byteAt a.rest 0 ∧ a' = if a.rest = [] then a else a.advance 1
  | .skip n, .status st, a' =>
    (n ≤ a.rest.length ∧ st = .ok ∧ a' = a.advance n) ∨ (a.rest.length < n ∧ st = .eof ∧ a' = a)
  | .nextIf e, .holds b, a' =>
    (b = true ↔ a.rest.head? = some e) ∧ a' = if b then a.advance 1 else a
  | .skipWhile p, .skipped n asked, a' =>
    Longest p a.context a.rest n ∧ asked = a.rest.take (n + 1) ∧
      a' = { a.advance n with context := contextAfter p a.context asked }
  | .skipAsciiWhitespace, .done, a' =>
    a' = a.advance (a.rest.takeWhile isAsciiWhitespace).length
  | _, _, _ => False

/-- A call never goes back, and never past the end. -/
def Forward (a : Abstract κ) (c : Call κ) (o : Answer) (a' : Abstract κ) : Prop :=
  Spec a c o a' ∧ a'.data = a.data ∧ a.pos ≤ a'.pos ∧ a'.pos ≤ a.data.length

/-- The cursor is the one that was made, at the position of the list. -/
structure Represents (memory : List UInt8) (c₀ : BufCursor) (s : BufCursor × κ)
    (a : Abstract κ) : Prop where
  lies : Lies memory s.1
  cursor : s.1 = { c₀ with pos := a.pos }
  data : a.data = c₀.bytes memory
  context : s.2 = a.context

namespace Represents

variable {c₀ : BufCursor} {s : BufCursor × κ} {a : Abstract κ} {call : Call κ} {o : Answer}

theorem rest_eq (h : Represents memory c₀ s a) : s.1.rest memory = a.rest := by
  rw [rest, Abstract.rest, h.data, h.cursor]
  rfl

theorem pos_le (h : Represents memory c₀ s a) : a.pos ≤ a.data.length := by
  have hlies := h.lies
  rw [h.cursor] at hlies
  rw [h.data]
  exact hlies.pos_le.trans_eq hlies.length_bytes.symm

/-- A call that stays. -/
theorem stay (h : Represents memory c₀ s a) (hspec : Spec a call o a) :
    ∃ a', Forward a call o a' ∧ Represents memory c₀ s a' :=
  ⟨a, ⟨hspec, rfl, le_rfl, h.pos_le⟩, h⟩

/-- A call that goes `n` bytes further. -/
theorem go (h : Represents memory c₀ s a) (hn : n ≤ a.rest.length) {context : κ}
    (hspec : Spec a call o { a.advance n with context }) :
    ∃ a', Forward a call o a' ∧ Represents memory c₀ (s.1.advance n, context) a' := by
  have hpos := h.pos_le
  have hle : a.pos + n ≤ a.data.length := by
    rw [Abstract.rest, List.length_drop] at hn
    omega
  refine ⟨_, ⟨hspec, rfl, Nat.le_add_right .., hle⟩, ?_, ?_, h.data, rfl⟩
  · apply h.lies.advance
    rwa [h.rest_eq]
  · rw [h.cursor]
    rfl

end Represents

variable {c₀ : BufCursor}

/-- **One call** is a step of the list. -/
theorem step_spec (s : BufCursor × κ) (a : Abstract κ) (call : Call κ)
    (h : Represents memory c₀ s a) (hvalid : call.Valid) :
    Sat (step memory s call) fun p =>
      ∃ a', Forward a call p.1 a' ∧ Represents memory c₀ p.2 a' := by
  have hrest := h.rest_eq
  cases call with
  | position =>
    refine Sat.ok (h.stay ⟨?_, rfl⟩)
    rw [h.cursor]
    rfl
  | remaining =>
    rw [step, remaining_eq h.lies, hrest]
    exact Sat.ok (h.stay ⟨rfl, rfl⟩)
  | atEnd =>
    refine Sat.ok (h.stay ⟨?_, rfl⟩)
    rw [atEnd_iff h.lies, hrest]
  | peek =>
    rw [step, peek, peekAt_eq h.lies, hrest]
    exact Sat.ok (h.stay ⟨rfl, rfl⟩)
  | peekAt offset =>
    rw [step, peekAt_eq h.lies, hrest]
    exact Sat.ok (h.stay ⟨rfl, rfl⟩)
  | startsWith bytes len =>
    rw [step, startsWith_eq h.lies hvalid, hrest]
    exact Sat.ok (h.stay ⟨decide_eq_true_iff, rfl⟩)
  | next =>
    rw [step, next_eq h.lies, hrest]
    by_cases hnil : a.rest = []
    · rw [if_pos hnil]
      exact Sat.ok (h.stay ⟨rfl, (if_pos hnil).symm⟩)
    · rw [if_neg hnil, h.context]
      exact Sat.ok (h.go (List.length_pos_iff.2 hnil) ⟨rfl, (if_neg hnil).symm⟩)
  | skip count =>
    rw [step, skip_eq h.lies, hrest]
    by_cases hle : count ≤ a.rest.length
    · rw [if_pos hle, h.context]
      exact Sat.ok (h.go hle (.inl ⟨hle, rfl, rfl⟩))
    · rw [if_neg hle]
      exact Sat.ok (h.stay (.inr ⟨Nat.lt_of_not_le hle, rfl, rfl⟩))
  | nextIf expected =>
    rw [step, nextIf_eq h.lies, hrest]
    by_cases hhead : a.rest.head? = some expected
    · have hpos : 1 ≤ a.rest.length := by
        rw [Nat.succ_le_iff, List.length_pos_iff]
        rintro hnil
        rw [hnil] at hhead
        cases hhead
      rw [if_pos hhead, h.context]
      exact Sat.ok (h.go hpos ⟨iff_of_true rfl hhead, rfl⟩)
    · rw [if_neg hhead]
      exact Sat.ok (h.stay ⟨iff_of_false Bool.false_ne_true hhead, rfl⟩)
  | skipWhile predicate =>
    obtain ⟨n, hlongest, hskip⟩ := skipWhile_spec h.lies (asking predicate) (s.2, [])
    rw [step, hskip, contextAfter_asking, h.context, hrest]
    rw [h.context, hrest] at hlongest
    exact Sat.ok (h.go hlongest.le ⟨hlongest.of_asking, rfl, rfl⟩)
  | skipAsciiWhitespace =>
    obtain ⟨n, hlongest, hskip⟩ :=
      skipWhile_spec h.lies (fun _ byte => (isAsciiWhitespace byte, ())) ()
    rw [step, skipAsciiWhitespace, hskip, h.context]
    rw [hrest] at hlongest
    refine Sat.ok (h.go hlongest.le ?_)
    exact congrArg a.advance hlongest.eq_takeWhile

/-! ## The refinement -/

/-- The range that a cursor is made of: nothing at `NULL`, or bytes of the memory, as many
as a `size_t` counts. -/
def Spans (memory : List UInt8) (data : Option ℕ) (len : ℕ) : Prop :=
  len ≤ sizeMax ∧
    match data with
    | none => len = 0
    | some start => start + len ≤ memory.length

/-- **A cursor is a reader of its bytes.**  In every run of a cursor that was made over any
bytes, no computation with its position wraps and no access leaves the bytes; the answers
are those of the list of bytes that are left, of which no call goes back; and the cursor
changes in its position alone. -/
theorem faithful {data : Option ℕ} {len : ℕ} (hspans : Spans memory data len) (context : κ)
    (calls : List (Call κ)) (hvalid : ∀ call ∈ calls, call.Valid) :
    Sat (createChecked data len) fun c => c.pos = 0 ∧
      Sat (trace (step memory) (c, context) calls) fun p => ∃ a,
        Follows Forward ⟨slice memory (data.getD 0) len, 0, context⟩ calls p.1 a ∧
          p.2 = ({ c with pos := a.pos }, a.context) ∧ a.pos ≤ len := by
  obtain ⟨hfits, hrange⟩ := hspans
  have hlies : Lies memory (create (data.getD 0) len) := by
    cases data with
    | none => exact ⟨by rw [show len = 0 from hrange]; exact Nat.zero_le _, hfits, Nat.zero_le _⟩
    | some start => exact ⟨hrange, hfits, Nat.zero_le _⟩
  have hnull : data ≠ none ∨ len = 0 := by
    cases data with
    | none => exact .inr hrange
    | some start => exact .inl (by simp)
  rw [createChecked, check_of hnull]
  refine Sat.ok ⟨rfl, ?_⟩
  set c₀ := create (data.getD 0) len with hc₀
  refine (trace_refines (R := Represents memory c₀) step_spec calls (c₀, context)
    ⟨slice memory (data.getD 0) len, 0, context⟩ ⟨hlies, rfl, rfl, rfl⟩
    (along_of_mem calls _ hvalid)).mono ?_
  rintro ⟨answers, s⟩ ⟨a, hfollows, hR⟩
  refine ⟨a, hfollows, Prod.ext hR.cursor hR.context, ?_⟩
  have hlen := hR.pos_le
  rw [hR.data, hlies.length_bytes] at hlen
  exact hlen

/-- Two words in the middle of a memory, read with a predicate that lets three bytes pass. -/
def scanned : List (Call ℕ) :=
  [.peekAt sizeMax, .skip sizeMax, .skipAsciiWhitespace, .startsWith (some [97, 98, 99]) 2,
    .startsWith none 0, .skipWhile fun k b => (k < 3 && b != 32, k + 1), .nextIf 98, .nextIf 32,
    .skipWhile fun k b => (b != 0, k), .next, .atEnd]

theorem faithful_scanned :
    Sat (createChecked (some 1) 7) fun c => c.pos = 0 ∧
      Sat (trace (step [0, 32, 9, 97, 98, 32, 99, 100, 0]) (c, 0) scanned) fun p => ∃ a,
        Follows Forward
          ⟨slice [0, 32, 9, 97, 98, 32, 99, 100, 0] ((some 1).getD 0) 7, 0, 0⟩ scanned p.1 a ∧
          p.2 = ({ c with pos := a.pos }, a.context) ∧ a.pos ≤ 7 := by
  have hspans : Spans [0, 32, 9, 97, 98, 32, 99, 100, 0] (some 1) 7 := ⟨by decide, by decide⟩
  exact faithful hspans 0 scanned (by decide)

/-- A cursor over a C string is one over its characters. -/
theorem createFromCstr_eq {start : ℕ} {text : List UInt8}
    (h : CString.Starts (memory.drop start) text) :
    createFromCstr memory (some start) = createChecked (some start) text.length ∧
      (create start text.length).bytes memory = text := by
  refine ⟨?_, ?_⟩
  · rw [createFromCstr, check_of (by simp), ok_bind, Option.getD_some, CString.strlen_eq h,
      ok_bind]
  · obtain ⟨-, rest, hdrop⟩ := h
    rw [bytes_create, slice, hdrop, List.take_left]

end K4c.BufCursor
