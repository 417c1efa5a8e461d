import Mathlib.Tactic
import K4c.Datastruct.Refusals
import K4c.Datastruct.StringCalls
import K4c.Lib.Runs

/-!
# A string is a list of characters

A client creates a string, adds to it on either side, clears it and asks about
it, with C strings that lie elsewhere.  Whatever the allocator does with the
requests, the string behaves as the list of its characters: `Spec` is that list,
and `StringHeader.refines_text` the refinement.

* `Abstract` — the characters, the handle they are reached by, and the room for them.
* `step_spec` — one call is a step of the list; `step_asked` — what it asks for.
* `Terminated` — the stored length and the terminator agree.
-/

namespace K4c.StringHeader

open Exec Bytes Blocks CString Runs

/-! ## The client -/

/-- A call.  An argument is given by the bytes that can be read from it on. -/
inductive Call where
  | append (suffix : List UInt8)
  | prepend (text : List UInt8)
  | clear
  | contains (needle : List UInt8)
  | startsWith (text : List UInt8)
  | endsWith (suffix : List UInt8)
  | len
  | iterate
  deriving DecidableEq, Repr

/-- What the client learns from a call. -/
inductive Answer where
  | status (st : Status)
  | holds (b : Bool)
  | len (n : ℕ)
  | chars (cs : List UInt8)
  | done
  deriving DecidableEq, Repr

/-- An argument is a C string: there is a NUL among its bytes. -/
def Call.Valid : Call → Prop
  | .append bytes => 0 ∈ bytes
  | .prepend bytes => 0 ∈ bytes
  | .contains bytes => 0 ∈ bytes
  | .startsWith bytes => 0 ∈ bytes
  | .endsWith bytes => 0 ∈ bytes
  | _ => True

instance : DecidablePred Call.Valid := by
  intro c
  cases c <;> unfold Call.Valid <;> exact inferInstance

/-- All characters, by the iterator. -/
def chars (s : StringHeader) (w : Memory) : Result (List UInt8) := do
  let items ← Iterator.forEach iteratorNext w 1 (s.len + 1) (getIterator s)
  return items.flatten

/-- One call. -/
def step (s : StringHeader × Memory) (c : Call) : Result (Answer × (StringHeader × Memory)) :=
  match c with
  | .append bytes => do
    let ((st, header), w) ← append s.1 (.outside bytes) s.2
    return (.status st, (header, w))
  | .prepend bytes => do
    let ((st, header), w) ← prepend s.1 (.outside bytes) s.2
    return (.status st, (header, w))
  | .clear => do
    let s ← clear s.1 s.2
    return (.done, s)
  | .contains bytes => do
    let b ← contains s.1 s.2 (.outside bytes)
    return (.holds b, s)
  | .startsWith bytes => do
    let b ← startsWith s.1 s.2 (.outside bytes)
    return (.holds b, s)
  | .endsWith bytes => do
    let b ← endsWith s.1 s.2 (.outside bytes)
    return (.holds b, s)
  | .len => return (.len s.1.len, s)
  | .iterate => do
    let cs ← chars s.1 s.2
    return (.chars cs, s)

/-! ## The list -/

/-- The string that the bytes begin with. -/
def textOf (bytes : List UInt8) : List UInt8 := bytes.takeWhile (· ≠ 0)

/-- A text, the block that the handle points into, and how many characters there is room
for, with the terminator. -/
structure Abstract where
  text : List UInt8
  handle : ℕ
  capacity : ℕ

/-- What a call that adds to the text may answer, and make of it.  A text that fits is always
taken; for another one a larger block is needed, and without it nothing changes. -/
def Grows (a : Abstract) (text : List UInt8) (st : Status) (a' : Abstract) : Prop :=
  (st = .ok ∧ a'.text = text ∧ text.length < a'.capacity ∧ a.capacity ≤ a'.capacity ∧
    (text.length < a.capacity → a'.handle = a.handle ∧ a'.capacity = a.capacity)) ∨
  (st.Fails (¬ CanHold text.length) ∧ a.capacity ≤ text.length ∧ a' = a)

/-- What a call may answer and make of the text and the handle. -/
def Spec (a : Abstract) : Call → Answer → Abstract → Prop
  | .append bytes, .status st, a' => Grows a (a.text ++ textOf bytes) st a'
  | .prepend bytes, .status st, a' => Grows a (textOf bytes ++ a.text) st a'
  | .clear, .done, a' => a' = { a with text := [] }
  | .contains bytes, .holds b, a' => (b = true ↔ textOf bytes <:+: a.text) ∧ a' = a
  | .startsWith bytes, .holds b, a' => (b = true ↔ textOf bytes <+: a.text) ∧ a' = a
  | .endsWith bytes, .holds b, a' => (b = true ↔ textOf bytes <:+ a.text) ∧ a' = a
  | .len, .len n, a' => n = a.text.length ∧ a' = a
  | .iterate, .chars cs, a' => cs = a.text ∧ a' = a
  | _, _, _ => False

/-- The string lies in the memory and holds the text. -/
def Represents (s : StringHeader × Memory) (a : Abstract) : Prop :=
  Holds s.1 s.2 a.text ∧ s.1.block = a.handle ∧ s.1.capacity = a.capacity

variable {s s' : StringHeader} {w w' : Memory} {text bytes : List UInt8} {a : Abstract}

/-- Bytes with a NUL among them are a C string. -/
theorem starts_textOf (h : 0 ∈ bytes) : Starts bytes (textOf bytes) := by
  induction bytes with
  | nil => cases h
  | cons c bytes ih =>
    by_cases hc : c = 0
    · rw [textOf, List.takeWhile_cons_of_neg (by simpa using hc)]
      exact ⟨by simp, bytes, by rw [hc]; rfl⟩
    · have hrest : 0 ∈ bytes := by
        rcases List.mem_cons.1 h with h | h
        · exact absurd h.symm hc
        · exact h
      rw [textOf, List.takeWhile_cons_of_pos (by simpa using hc)]
      exact (ih hrest).cons hc

theorem chars_eq (h : Holds s w text) : chars s w = .ok text := by
  have hfuel : ((List.range s.len).map s.buf).length < s.len + 1 := by simp
  have hitems :=
    Iterator.forEach_eq (iterator_yields s) (read_chars h) (getIterator s).sizeHint hfuel
  have hflat : (text.map fun c => [c]).flatten = text := by
    rw [← List.flatMap_def]
    exact List.flatMap_singleton' text
  rw [chars, show getIterator s = ⟨(getIterator s).state, (getIterator s).sizeHint⟩ from rfl,
    hitems, ok_bind, hflat, pure_eq_ok]

/-- The outcome of an addition is a step of the list. -/
theorem Adds.represents {st : Status} {new : List UInt8} (hR : Represents (s, w) a)
    (h : Adds s w new st s' w') (hfails : st ≠ .ok → st.Fails (¬ CanHold new.length))
    (hfits : new.length < s.capacity → st = .ok ∧ s'.block = s.block ∧ s'.capacity = s.capacity) :
    ∃ a', Grows a new st a' ∧ Represents (s', w') a' := by
  obtain ⟨hholds, hblock, hcapacity⟩ := hR
  dsimp only at hblock hcapacity
  rw [hblock, hcapacity] at hfits
  rcases h with ⟨hst, rfl, hcells⟩ | ⟨rfl, hholds', -⟩
  · have hfull : a.capacity ≤ new.length := by
      by_contra hlt
      exact hst (hfits (not_le.1 hlt)).1
    exact ⟨a, .inr ⟨hfails hst, hfull, rfl⟩, hholds.same hcells, hblock, hcapacity⟩
  · have hlt : new.length < s'.capacity := hholds'.length_text ▸ hholds'.len_lt
    refine ⟨⟨new, s'.block, s'.capacity⟩, .inl ⟨rfl, rfl, hlt, ?_, fun hless => (hfits hless).2⟩,
      hholds', rfl, rfl⟩
    by_cases hless : new.length < a.capacity
    · exact (hfits hless).2.2.ge
    · dsimp only
      omega

/-- **One call** is a step of the list. -/
theorem step_spec (s : StringHeader × Memory) (a : Abstract) (c : Call)
    (hR : Represents s a) (hc : c.Valid) :
    Sat (step s c) fun p => ∃ a', Spec a c p.1 a' ∧ Represents p.2 a' := by
  obtain ⟨s, w⟩ := s
  have harg : ∀ {bytes : List UInt8}, 0 ∈ bytes →
      (Arg.outside bytes).IsString w s.owned (textOf bytes) := fun h => starts_textOf h
  have hlen : a.text.length = s.len := hR.1.length_text
  cases c with
  | append bytes =>
    have hsum : (a.text ++ textOf bytes).length = s.len + (textOf bytes).length := by
      rw [List.length_append, hlen]
    obtain ⟨st, s', w', happend, hadds⟩ := append_spec hR.1 (harg hc)
    refine ⟨(.status st, (s', w')), by rw [step, happend]; rfl, hadds.represents hR ?_ ?_⟩
    · rw [hsum]
      exact (append_explains hR.1 (harg hc) happend).fails
    · rw [hsum]
      exact fun hlt => append_fits hR.1 (harg hc) hlt happend
  | prepend bytes =>
    have hsum : (textOf bytes ++ a.text).length = s.len + (textOf bytes).length := by
      rw [List.length_append, hlen, Nat.add_comm]
    obtain ⟨st, s', w', hprepend, hadds⟩ := prepend_spec hR.1 (harg hc)
    refine ⟨(.status st, (s', w')), by rw [step, hprepend]; rfl, hadds.represents hR ?_ ?_⟩
    · rw [hsum]
      exact (prepend_explains hR.1 (harg hc) hprepend).fails
    · rw [hsum]
      exact fun hlt => prepend_fits hR.1 (harg hc) hlt hprepend
  | clear =>
    obtain ⟨w', hclear, hholds, -⟩ := clear_spec hR.1
    exact ⟨(.done, ({ s with len := 0 }, w')), by rw [step, hclear]; rfl, _, rfl, hholds, hR.2⟩
  | contains bytes =>
    obtain ⟨b, hb, hiff⟩ := contains_spec hR.1 (harg hc)
    exact ⟨(.holds b, (s, w)), by rw [step, hb]; rfl, a, ⟨hiff, rfl⟩, hR⟩
  | startsWith bytes =>
    obtain ⟨b, hb, hiff⟩ := startsWith_spec hR.1 (harg hc)
    exact ⟨(.holds b, (s, w)), by rw [step, hb]; rfl, a, ⟨hiff, rfl⟩, hR⟩
  | endsWith bytes =>
    obtain ⟨b, hb, hiff⟩ := endsWith_spec hR.1 (harg hc)
    exact ⟨(.holds b, (s, w)), by rw [step, hb]; rfl, a, ⟨hiff, rfl⟩, hR⟩
  | len => exact ⟨_, rfl, a, ⟨hlen.symm, rfl⟩, hR⟩
  | iterate =>
    refine ⟨(.chars a.text, (s, w)), ?_, a, ⟨rfl, rfl⟩, hR⟩
    rw [step, chars_eq hR.1]
    rfl

/-- A call that finds no memory was refused a request. -/
theorem step_asked {s : StringHeader × Memory} {c : Call} {r : Answer × (StringHeader × Memory)}
    (hR : Represents s a) (hc : c.Valid) (hstep : step s c = .ok r) :
    s.2.Asked r.2.2 (r.1 = .status .noMemory) := by
  obtain ⟨s, w⟩ := s
  have harg : ∀ {bytes : List UInt8}, 0 ∈ bytes →
      (Arg.outside bytes).IsString w s.owned (textOf bytes) := fun h => starts_textOf h
  cases c with
  | append bytes =>
    obtain ⟨x, happend, hout⟩ := bind_eq_ok.1 hstep
    cases hout
    exact (append_explains hR.1 (harg hc) happend).asked.mono fun hst => Answer.status.inj hst
  | prepend bytes =>
    obtain ⟨x, hprepend, hout⟩ := bind_eq_ok.1 hstep
    cases hout
    exact (prepend_explains hR.1 (harg hc) hprepend).asked.mono fun hst => Answer.status.inj hst
  | clear =>
    obtain ⟨x, hclear, hout⟩ := bind_eq_ok.1 hstep
    obtain ⟨w', hset, hclear⟩ := bind_eq_ok.1 hclear
    cases hclear
    cases hout
    exact (Memory.write_rewritten hset).toQuiet.asked nofun
  | contains bytes | startsWith bytes | endsWith bytes =>
    obtain ⟨b, -, hout⟩ := bind_eq_ok.1 hstep
    cases hout
    exact .refl w nofun
  | len =>
    cases hstep
    exact .refl w nofun
  | iterate =>
    obtain ⟨cs, -, hout⟩ := bind_eq_ok.1 hstep
    cases hout
    exact .refl w nofun

/-! ## The refinement -/

/-- Character `index` of the buffer. -/
def charAt (s : StringHeader) (w : Memory) (index : ℕ) : Result (List UInt8) :=
  w.read s.block (headerSize + index) 1

/-- The two lengths agree: the stored one leaves room for the terminator, and the
first NUL of the buffer is where it says. -/
structure Terminated (s : StringHeader) (w : Memory) (text : List UInt8) : Prop where
  len : s.len = text.length
  len_lt : s.len < s.capacity
  nul : charAt s w s.len = .ok [0]
  chars : ∀ i < s.len, ∃ c, charAt s w i = .ok [c] ∧ text[i]? = some c ∧ c ≠ 0

theorem Holds.terminated (h : Holds s w text) : Terminated s w text := by
  refine ⟨h.length_text.symm, h.len_lt, ?_, fun i hi => ?_⟩
  · obtain ⟨head, room, hhead, hstored⟩ := h.stored
    rw [show head ++ text ++ 0 :: room = head ++ text ++ [0] ++ room by simp] at hstored
    exact hstored.read (by rw [List.length_append, hhead, h.length_text]) rfl
  · have hlt : i < text.length := hi.trans_eq h.length_text.symm
    have hget :=
      (List.forall₂_iff_get.1 (read_chars h)).2 i (by simpa using hi) (by simpa using hlt)
    refine ⟨text[i], ?_, List.getElem?_eq_getElem hlt, fun hzero => ?_⟩
    · rw [charAt]
      simpa [buf] using hget
    · exact h.nul_free (hzero ▸ List.getElem_mem hlt)

/-- **A string is a list of characters.**  In every run of a string that was
created, whatever the allocator grants, no assertion fails and no access leaves
the block; the answers are those of the list of its characters, which a refused
call does not change; what fits is always taken, and a longer text is refused only when no
block is large enough or the request for it was refused; and in the state the run ends in the
first NUL stands where the stored length says. -/
theorem refines_text {initial : Arg} {t : List UInt8} {allocator : Option (Allocator Memory)}
    (hbacked : Backed (Allocator.copy allocator)) {w₀ w₁ : Memory} {s : StringHeader}
    (hinitial : Initial w₀ initial t)
    (hcreate : create initial allocator w₀ = .ok ((.ok, some s), w₁)) (calls : List Call)
    (hvalid : ∀ c ∈ calls, c.Valid) :
    Sat (trace step (s, w₁) calls) fun p => ∃ a,
      Follows Spec ⟨t, s.block, s.capacity⟩ calls p.1 a ∧
        Justifies w₁ p.2.2 (· = .status .noMemory) p.1 ∧ Terminated p.2.1 p.2.2 a.text ∧
        p.2.1.block = a.handle ∧ p.2.1.capacity = a.capacity := by
  obtain ⟨st, out, w', hcreate', hres⟩ := create_spec hbacked hinitial
  cases hcreate.symm.trans hcreate'
  rcases hres with ⟨hst, -⟩ | ⟨-, _, hout, -, hholds, -⟩
  · exact absurd rfl hst
  cases hout
  have hrun := trace_justified (m := Prod.snd) (R := Represents) (B := (· = .status .noMemory))
    step_spec (fun _ _ _ _ hR hc hstep => step_asked hR hc hstep) calls (s, w₁)
    ⟨t, s.block, s.capacity⟩ ⟨hholds, rfl, rfl⟩ (along_of_mem calls _ hvalid)
  refine hrun.mono ?_
  rintro ⟨answers, s', w'⟩ ⟨a, hfollows, hR, hjust⟩
  exact ⟨a, hfollows, hjust, hR.1.terminated, hR.2⟩

/-- A memory that refuses every third request. -/
def stingy : Memory :=
  .empty fun n => if n % 3 = 2 then none else some ⟨false, fun i => UInt8.ofNat i⟩

/-- Sixteen characters need a larger block; the second growth is refused, and the
text starts over after it was cleared. -/
def rewritten : List Call :=
  [.prepend [98, 97, 0, 7], .append (List.replicate 14 99 ++ [0]), .endsWith [99, 99, 0],
    .append (List.replicate 40 100 ++ [0]), .contains [97, 99, 0], .iterate, .clear,
    .startsWith [0], .prepend [120, 0], .len]

theorem refines_text_rewritten : ∃ s w₁,
    create (.outside [97, 0]) none stingy = .ok ((.ok, some s), w₁) ∧
      (Sat (trace step (s, w₁) rewritten) fun p => ∃ a,
        Follows Spec ⟨[97], s.block, s.capacity⟩ rewritten p.1 a ∧
          Justifies w₁ p.2.2 (· = .status .noMemory) p.1 ∧ Terminated p.2.1 p.2.2 a.text ∧
          p.2.1.block = a.handle ∧ p.2.1.capacity = a.capacity) ∧
      (trace step (s, w₁) rewritten).map Prod.fst =
        .ok [.status .ok, .status .ok, .holds true, .status .noMemory, .holds true,
          .chars ([98, 97, 97] ++ List.replicate 14 99), .done, .holds true, .status .ok,
          .len 1] := by
  have hbacked : Backed (Allocator.copy none) := .default _
  have hstarts : Starts [97, 0] [97] := ⟨by decide, [], rfl⟩
  have hinitial : Initial stingy (.outside [97, 0]) [97] := .inr hstarts
  exact ⟨_, _, rfl, refines_text hbacked hinitial
    (rfl : create (.outside [97, 0]) none stingy = _) rewritten (by decide), by decide +kernel⟩

end K4c.StringHeader
