import Mathlib.Tactic
import K4c.Datastruct.StringRuns

/-!
# Arguments inside the string itself

`append` and `prepend` may be given a pointer into the text they change, when the
capacity suffices and nothing is reallocated.

* `append_own` — `append` writes behind the text and reads before it, so the argument
  counts as it was.
* `prepend_own` — `prepend` shifts the text first and reads the argument at its old
  place: it finds `shifted`, whose bytes are those of the argument only as far as the
  text repeats itself (`Repeats`).
* `own_argument` — both, for every reachable string.
-/

namespace K4c.StringHeader

open Exec Bytes Blocks CString Runs

variable {s s' : StringHeader} {w w' : Memory} {text text' : List UInt8} {k n : ℕ}

/-! ## What the argument reads as -/

/-- What `prepend` finds at offset `k` once it has moved the text behind the place for
the argument. -/
def shifted (text : List UInt8) (k : ℕ) : List UInt8 :=
  ((text.take (text.length - k) ++ text).drop k).take (text.length - k)

/-- From offset `k` on, the text repeats what stands `text.length - k` characters before. -/
def Repeats (text : List UInt8) (k : ℕ) : Prop :=
  ∀ i < text.length, k ≤ i → text.length - k ≤ i → text[i]? = text[i - (text.length - k)]?

theorem length_shifted (hk : k ≤ text.length) : (shifted text k).length = text.length - k := by
  simp only [shifted, List.length_take, List.length_drop, List.length_append]
  omega

/-- A character of the argument is still there when it lies in front of the moved text;
otherwise it is the one that was moved onto it. -/
theorem getElem?_shifted {j : ℕ} (hj : j < text.length - k) :
    (shifted text k)[j]? =
      if k + j < text.length - k then text[k + j]? else text[k + j - (text.length - k)]? := by
  rw [shifted, List.getElem?_take_of_lt hj, List.getElem?_drop, List.getElem?_append,
    List.length_take, min_eq_left (Nat.sub_le _ _)]
  split
  · rename_i hlt
    rw [List.getElem?_take_of_lt hlt]
  · rfl

theorem shifted_eq_iff (hk : k ≤ text.length) : shifted text k = text.drop k ↔ Repeats text k := by
  constructor
  · intro heq i hi hki hni
    have hget := congrArg (fun l => l[i - k]?) heq
    simp only [List.getElem?_drop] at hget
    rw [getElem?_shifted (by omega), Nat.add_sub_cancel' hki, if_neg (by omega)] at hget
    exact hget.symm
  · intro hrep
    refine List.ext_getElem? fun j => ?_
    by_cases hj : j < text.length - k
    · rw [getElem?_shifted hj, List.getElem?_drop]
      split
      · rfl
      · exact (hrep (k + j) (by omega) (by omega) (by omega)).symm
    · rw [List.getElem?_eq_none (by rw [length_shifted hk]; omega),
        List.getElem?_eq_none (by rw [List.length_drop]; omega)]

/-! ## The two calls -/

/-- A pointer into the text is a C string, the rest of the text. -/
theorem Holds.strlen_own (h : Holds s w text) (hk : k ≤ text.length) :
    strlen w (.inside (s.buf k)) = .ok (text.length - k) := by
  obtain ⟨head, room, hhead, hstored⟩ := h.stored
  have hstarts : Starts ((head ++ text ++ 0 :: room).drop (headerSize + k)) (text.drop k) := by
    refine ⟨fun hmem => h.nul_free (List.mem_of_mem_drop hmem), room, ?_⟩
    rw [← hhead, List.append_assoc, ← List.drop_drop, List.drop_left,
      List.drop_append_of_le_length hk]
  rw [strlen, buf, Memory.bytesFrom_eq hstored.cell, ok_bind, strlen_eq hstarts, List.length_drop]

/-- With room for them, `n` more characters need no reallocation. -/
theorem ensureCapacity_room (hroom : s.len + n < s.capacity) :
    ensureCapacity s (s.len + n) w = .ok ((.ok, s), w) := by
  rw [ensureCapacity, if_pos hroom]
  rfl

/-- The memory after an addition in place. -/
theorem Stored.added {head v new : List UInt8} (h : Stored s w (head ++ new ++ 0 :: v))
    (hhead : head.length = headerSize) (hnul : 0 ∉ new) (hlen : new.length = n) :
    Holds { s with len := n } w new := h.holds hhead hnul hlen

/-- **Appending the end of the string to itself.** -/
theorem append_own (h : Holds s w text) (hk : k ≤ text.length)
    (hroom : s.len + (s.len - k) < s.capacity) :
    ∃ w', append s (.inside (s.buf k)) w =
        .ok ((.ok, { s with len := s.len + (s.len - k) }), w') ∧
      Holds { s with len := s.len + (s.len - k) } w' (text ++ text.drop k) := by
  have htext := h.length_text
  have hne : Arg.inside (s.buf k) ≠ .null := by simp
  rw [append, check_of hne, ok_bind, h.strlen_own hk, ok_bind, htext]
  obtain ⟨head, room, hhead, hstored⟩ := h.stored
  have hfits := hstored.fits
  have hlength := hstored.length
  simp only [List.length_append, List.length_cons, hhead] at hlength
  by_cases hzero : s.len - k = 0
  · rw [if_pos hzero, List.drop_eq_nil_of_le (by omega), List.append_nil, hzero, Nat.add_zero]
    exact ⟨w, rfl, h⟩
  have hdrop : (text.drop k).length = s.len - k := by rw [List.length_drop, htext]
  have hsource : Memory.source w (.inside (s.buf k)) (s.len - k) = .ok (text.drop k) := by
    rw [show head ++ text ++ 0 :: room = head ++ text.take k ++ text.drop k ++ 0 :: room by
      rw [List.append_assoc head (text.take k), List.take_append_drop]] at hstored
    refine hstored.read (i := k) ?_ hdrop
    rw [List.length_append, hhead, List.length_take, min_eq_left hk]
  have hcopies : (Arg.inside (s.buf k)).Copies w (s.buf text.length) (text.drop k).length
      (text.drop k) := by
    refine ⟨by rw [hdrop]; exact hsource, fun hclash => ?_⟩
    have hlt := hclash.2.2.2
    simp only [buf, hdrop, htext] at hlt
    omega
  obtain ⟨w₁, w₂, v, hcopy, hset, hstored₂, -⟩ :=
    attach_spec hstored hhead (by rw [hdrop]; omega) hcopies
  rw [htext, hdrop] at hcopy hset
  rw [if_neg hzero, (sizeAddOverflow_eq_some (by unfold headerSize at hfits; omega)).2
    ⟨rfl, by unfold headerSize at hfits; omega⟩]
  refine ⟨w₂, ?_, hstored₂.added hhead ?_ ?_⟩
  · dsimp only
    rw [ensureCapacity_room hroom, ok_bind, if_neg (not_not.2 rfl)]
    dsimp only
    rw [hcopy, ok_bind, show setChar { s with len := s.len + (s.len - k) } w₁ _ [0] = _ from hset]
    rfl
  · rw [List.mem_append, not_or]
    exact ⟨h.nul_free, fun hmem => h.nul_free (List.mem_of_mem_drop hmem)⟩
  · rw [List.length_append, hdrop, htext]

/-- With the text moved behind the place for the argument, the argument reads as `shifted`
and one character more. -/
theorem Stored.read_shifted {head y : List UInt8} (hhead : head.length = headerSize)
    (hk : k < text.length) (hy : y = text.take (text.length - k)) :
    ∃ x, ∀ w v, Stored s w (head ++ y ++ (text ++ [0]) ++ v) →
      Memory.source w (.inside (s.buf k)) (text.length - k + 1) = .ok (shifted text k ++ [x]) := by
  set l := text.take (text.length - k) ++ text with hl
  have hlen : l.length = text.length - k + text.length := by
    rw [hl, List.length_append, List.length_take, min_eq_left (Nat.sub_le _ _)]
  have hlt : text.length - k < (l.drop k).length := by
    rw [List.length_drop]
    omega
  have htake : (l.drop k).take (text.length - k + 1) =
      shifted text k ++ [(l.drop k)[text.length - k]] := List.take_succ_eq_append_getElem hlt
  refine ⟨(l.drop k)[text.length - k], fun w v h => ?_⟩
  have hcut : head ++ y ++ (text ++ [0]) ++ v = head ++ l.take k ++
      (shifted text k ++ [(l.drop k)[text.length - k]]) ++
        ((l.drop k).drop (text.length - k + 1) ++ [0] ++ v) := by
    rw [← htake]
    calc head ++ y ++ (text ++ [0]) ++ v = head ++ l ++ [0] ++ v := by rw [hy, hl]; simp
      _ = head ++ (l.take k ++ ((l.drop k).take (text.length - k + 1) ++
            (l.drop k).drop (text.length - k + 1))) ++ [0] ++ v := by
          rw [List.take_append_drop, List.take_append_drop]
      _ = _ := by simp only [List.append_assoc]
  rw [hcut] at h
  refine h.read (i := k) ?_ ?_
  · rw [List.length_append, hhead, List.length_take, min_eq_left (by omega)]
  · rw [List.length_append, length_shifted hk.le]
    rfl

/-- **Prepending the end of the string to itself** puts in front what the argument reads as
after the shift. -/
theorem prepend_own (h : Holds s w text) (hk : k ≤ text.length)
    (hroom : s.len + (s.len - k) < s.capacity) :
    ∃ w', prepend s (.inside (s.buf k)) w =
        .ok ((.ok, { s with len := s.len + (s.len - k) }), w') ∧
      Holds { s with len := s.len + (s.len - k) } w' (shifted text k ++ text) := by
  have htext := h.length_text
  have hne : Arg.inside (s.buf k) ≠ .null := by simp
  rw [prepend, check_of hne, ok_bind, h.strlen_own hk, ok_bind, htext]
  obtain ⟨head, room, hhead, hstored⟩ := h.stored
  have hfits := hstored.fits
  have hlength := hstored.length
  simp only [List.length_append, List.length_cons, hhead] at hlength
  have hshifted := length_shifted hk
  by_cases hzero : s.len - k = 0
  · have hnil : shifted text k = [] := List.length_eq_zero_iff.1 (by omega)
    rw [if_pos hzero, hnil, List.nil_append, hzero, Nat.add_zero]
    exact ⟨w, rfl, h⟩
  rw [if_neg hzero, (sizeAddOverflow_eq_some (by unfold headerSize at hfits; omega)).2
    ⟨rfl, by unfold headerSize at hfits; omega⟩]
  have hfront : (text ++ 0 :: room).take (s.len - k) = text.take (text.length - k) := by
    rw [htext, List.take_append_of_le_length (by omega)]
  obtain ⟨x, hx⟩ := Stored.read_shifted (s := s) hhead (by omega) hfront
  rw [htext] at hx hshifted
  obtain ⟨w₁, first, w₂, w₃, v, hmove, hread, hmove₂, hset, hstored₂, -⟩ :=
    shift_spec hstored hhead (by omega) hshifted fun w₁ v hw₁ _ => hx w₁ v hw₁
  rw [htext] at hmove
  refine ⟨w₃, ?_, hstored₂.added hhead ?_ ?_⟩
  · dsimp only
    rw [ensureCapacity_room hroom, ok_bind, if_neg (not_not.2 rfl)]
    dsimp only
    rw [sizeAdd_of_le (by unfold headerSize at hfits; omega), ok_bind, hmove, ok_bind, hread,
      ok_bind, sizeAdd_of_le (by unfold headerSize at hfits; omega), ok_bind, hmove₂, ok_bind,
      hset]
    rfl
  · rw [List.mem_append, not_or]
    refine ⟨fun hmem => ?_, h.nul_free⟩
    rcases List.mem_append.1 (List.mem_of_mem_drop (List.mem_of_mem_take hmem)) with hmem | hmem
    · exact h.nul_free (List.mem_of_mem_take hmem)
    · exact h.nul_free hmem
  · rw [List.length_append, hshifted, htext]
    exact Nat.add_comm _ _

/-! ## Every reachable string -/

/-- A call, also with an argument that is the end of the string itself. -/
inductive OwnCall where
  | ordinary (c : Call)
  | append (k : ℕ)
  | prepend (k : ℕ)
  deriving DecidableEq, Repr

/-- The offset lies in the text, and there is room for the argument. -/
def OwnRoom (s : StringHeader) (k : ℕ) : Prop :=
  k ≤ s.len ∧ s.len + (s.len - k) < s.capacity

instance (s : StringHeader) (k : ℕ) : Decidable (OwnRoom s k) :=
  inferInstanceAs (Decidable (_ ∧ _))

/-- An argument outside is a C string; one inside needs no reallocation. -/
def OwnCall.Allowed (s : StringHeader × Memory) : OwnCall → Prop
  | .ordinary c => c.Valid
  | .append k => OwnRoom s.1 k
  | .prepend k => OwnRoom s.1 k

instance (s : StringHeader × Memory) : DecidablePred (OwnCall.Allowed s) := by
  intro c
  cases c <;> unfold OwnCall.Allowed <;> exact inferInstance

/-- One call. -/
def ownStep (s : StringHeader × Memory) (c : OwnCall) :
    Result (Answer × (StringHeader × Memory)) :=
  match c with
  | .ordinary c => step s c
  | .append k => do
    let ((st, header), w) ← append s.1 (.inside (s.1.buf k)) s.2
    return (.status st, (header, w))
  | .prepend k => do
    let ((st, header), w) ← prepend s.1 (.inside (s.1.buf k)) s.2
    return (.status st, (header, w))

/-- Whatever the argument, the string holds a text. -/
theorem ownStep_holds {s : StringHeader × Memory} (h : ∃ text, Holds s.1 s.2 text) {c : OwnCall}
    (hc : c.Allowed s) : Sat (ownStep s c) fun p => ∃ text, Holds p.2.1 p.2.2 text := by
  obtain ⟨s, w⟩ := s
  obtain ⟨text, h⟩ := h
  have hlen := h.length_text
  cases c with
  | ordinary c =>
    refine (step_spec (s, w) ⟨text, s.block, s.capacity⟩ c ⟨h, rfl, rfl⟩ hc).mono fun p hp => ?_
    obtain ⟨a, -, hR⟩ := hp
    exact ⟨a.text, hR.1⟩
  | append k =>
    obtain ⟨w', happend, hholds⟩ := append_own h (hc.1.trans_eq hlen.symm) hc.2
    exact ⟨_, by rw [ownStep, happend]; rfl, _, hholds⟩
  | prepend k =>
    obtain ⟨w', hprepend, hholds⟩ := prepend_own h (hc.1.trans_eq hlen.symm) hc.2
    exact ⟨_, by rw [ownStep, hprepend]; rfl, _, hholds⟩

/-- The buffer tells the text. -/
theorem Terminated.unique (h : Terminated s w text) (h' : Terminated s w text') : text = text' := by
  refine List.ext_getElem? fun i => ?_
  by_cases hi : i < s.len
  · obtain ⟨c, hc, hget, -⟩ := h.chars i hi
    obtain ⟨c', hc', hget', -⟩ := h'.chars i hi
    have heq : [c] = [c'] := Except.ok.inj (hc.symm.trans hc')
    rw [hget, hget', List.head_eq_of_cons_eq heq]
  · rw [List.getElem?_eq_none (by have := h.len; omega),
      List.getElem?_eq_none (by have := h'.len; omega)]

/-- `append` and `prepend` take the end of the text from offset `k` on like any argument. -/
structure TakesOwn (s : StringHeader) (w : Memory) (text : List UInt8) (k : ℕ) : Prop where
  append : ∃ s' w', append s (.inside (s.buf k)) w = .ok ((.ok, s'), w') ∧
    Terminated s' w' (text ++ text.drop k)
  prepend : ∃ s' w', prepend s (.inside (s.buf k)) w = .ok ((.ok, s'), w') ∧
    Terminated s' w' (text.drop k ++ text)

theorem takesOwn_iff (h : Holds s w text) (hk : k ≤ text.length)
    (hroom : s.len + (s.len - k) < s.capacity) : TakesOwn s w text k ↔ Repeats text k := by
  obtain ⟨w₁, happend, hholds₁⟩ := append_own h hk hroom
  obtain ⟨w₂, hprepend, hholds₂⟩ := prepend_own h hk hroom
  constructor
  · rintro ⟨-, s', w', hprepend', hterminated⟩
    cases hprepend.symm.trans hprepend'
    exact (shifted_eq_iff hk).1 (List.append_cancel_right (hholds₂.terminated.unique hterminated))
  · intro hrep
    rw [(shifted_eq_iff hk).2 hrep] at hholds₂
    exact ⟨⟨_, w₁, happend, hholds₁.terminated⟩, ⟨_, w₂, hprepend, hholds₂.terminated⟩⟩

/-- **Arguments inside the string itself.**  For every reachable string and every offset with
room for the argument, appending the rest of the text always puts it behind the text, and
prepending it also puts it in front exactly when the text repeats itself. -/
theorem own_argument {initial : Arg} {t : List UInt8} {allocator : Option (Allocator Memory)}
    (hbacked : Backed (Allocator.copy allocator)) {w₀ w₁ : Memory} {s : StringHeader}
    (hinitial : Initial w₀ initial t)
    (hcreate : create initial allocator w₀ = .ok ((.ok, some s), w₁)) (calls : List OwnCall)
    (hcalls : Along ownStep OwnCall.Allowed (s, w₁) calls) :
    Sat (trace ownStep (s, w₁) calls) fun p => ∃ text, Terminated p.2.1 p.2.2 text ∧
      ∀ k, OwnRoom p.2.1 k →
        (TakesOwn p.2.1 p.2.2 text k ↔ Repeats text k) ∧
        ∃ s' w', append p.2.1 (.inside (p.2.1.buf k)) p.2.2 = .ok ((.ok, s'), w') ∧
          Terminated s' w' (text ++ text.drop k) := by
  obtain ⟨st, out, w', hcreate', hres⟩ := create_spec hbacked hinitial
  cases hcreate.symm.trans hcreate'
  rcases hres with ⟨hst, -⟩ | ⟨-, _, hout, -, hholds, -⟩
  · exact absurd rfl hst
  cases hout
  refine (trace_inv (I := fun s => ∃ text, Holds s.1 s.2 text) (fun s c hs hc =>
    ownStep_holds hs hc) calls (s, w₁) ⟨t, hholds⟩ hcalls).mono ?_
  rintro ⟨answers, s', w'⟩ ⟨text, htext⟩
  refine ⟨text, htext.terminated, fun k hroom => ?_⟩
  obtain ⟨hk, hroom⟩ := hroom
  rw [← htext.length_text] at hk
  refine ⟨takesOwn_iff htext hk hroom, ?_⟩
  obtain ⟨w₁, happend, hholds₁⟩ := append_own htext hk hroom
  exact ⟨_, w₁, happend, hholds₁.terminated⟩

/-- "aa" in front of a string that was made of it. -/
theorem own_argument_repeated : ∃ s w₁,
    create (.outside [97, 0]) none stingy = .ok ((.ok, some s), w₁) ∧
      Sat (trace ownStep (s, w₁) [.append 0, .prepend 1, .ordinary (.append [98, 0])]) fun p =>
        ∃ text, Terminated p.2.1 p.2.2 text ∧
          ∀ k, OwnRoom p.2.1 k →
            (TakesOwn p.2.1 p.2.2 text k ↔ Repeats text k) ∧
            ∃ s' w', append p.2.1 (.inside (p.2.1.buf k)) p.2.2 = .ok ((.ok, s'), w') ∧
              Terminated s' w' (text ++ text.drop k) := by
  have hstarts : Starts [97, 0] [97] := ⟨by decide, [], rfl⟩
  have hinitial : Initial stingy (.outside [97, 0]) [97] := .inr hstarts
  exact ⟨_, _, rfl, own_argument (Backed.default _) hinitial
    (rfl : create (.outside [97, 0]) none stingy = _) _ (along_of_check (by decide))⟩

/-- Prepending the second character of "ab" puts the first one in front. -/
theorem prepend_own_stale : ∃ s w s' w',
    create (.outside [97, 98, 0]) none stingy = .ok ((.ok, some s), w) ∧ OwnRoom s 1 ∧
      chars s w = .ok [97, 98] ∧
      prepend s (.inside (s.buf 1)) w = .ok ((.ok, s'), w') ∧
      chars s' w' = .ok [97, 97, 98] ∧ ¬ Terminated s' w' ([98] ++ [97, 98]) := by
  refine ⟨_, _, _, _, rfl, by decide, rfl, rfl, rfl, fun h => ?_⟩
  obtain ⟨c, hc, hget, -⟩ := h.chars 0 (by decide)
  cases hget
  exact absurd hc (by decide)

end K4c.StringHeader
