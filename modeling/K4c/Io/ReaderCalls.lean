import Mathlib.Tactic
import K4c.Io.Reader

/-!
# What one call of the buffered reader does

Everything the later results need to know about a call, for an arbitrary source
that returns no more than it is asked for.

* `Wf` — `0 ≤ pos ≤ len ≤ capacity`, inside a buffer of at least `capacity`
  bytes; `window` — the buffered bytes nobody has been given yet.
* `Progress` — a reader after some reads: still well formed, and its window is
  the old window followed by exactly the bytes the source handed over.
* `fillMore_spec` — a refill is one read, and its status is that read's
  (`Refill.Served`); the `OVERFLOW` exits of `rebase` and `fillMore` are not taken,
  and unless it compacts the window it writes behind the buffered bytes only.
* `refills` — the calls of `fillMore` that a public call makes; `Refilled` — the
  reader after some of them were served.
* `takeByte_spec`, `takeArray_spec`, `takeDelimiter_spec` — an operation has its
  refills served and then either delivers a prefix of the window or delivers
  nothing; `step_spec` — what they have in common.
-/

namespace K4c

open Exec Bytes Runs

/-- A source returns at most the requested number of bytes. -/
def ReaderVtable.Bounded {σ : Type} (vt : ReaderVtable σ) : Prop :=
  ∀ s data capacity, 0 < capacity → (vt.read s data capacity).1.bytes.length ≤ capacity

/-- One read of the source, with what it was asked for and what it answered. -/
structure ReadEvent where
  offset : ℕ
  capacity : ℕ
  result : ReadResult

namespace ReadEvent

/-- What `fillMore` makes of a read: any byte is a success, and no byte with
status OK is the end of the stream. -/
def status (e : ReadEvent) : Status :=
  if e.result.bytes.length > 0 then .ok
  else if e.result.status = .ok then .eof
  else e.result.status

theorem status_eq_ok_iff {e : ReadEvent} : e.status = .ok ↔ e.result.bytes ≠ [] := by
  unfold status
  rw [← List.length_pos_iff]
  split
  · simp [*]
  · split <;> simp_all

end ReadEvent

namespace Reader

variable {σ : Type}

/-! ## The window -/

/-- The state every operation expects and leaves. -/
structure Wf (r : Reader σ) : Prop where
  pos_le : r.pos ≤ r.len
  len_le : r.len ≤ r.capacity
  capacity_le : r.capacity ≤ r.data.length
  capacity_pos : 0 < r.capacity

/-- The number of buffered bytes. -/
def available (r : Reader σ) : ℕ := r.len - r.pos

/-- The bytes `data[pos..len)`: handed over by the source and not yet delivered. -/
def window (r : Reader σ) : List UInt8 := slice r.data r.pos r.available

/-- Consume `n` bytes of the window. -/
def advance (r : Reader σ) (n : ℕ) : Reader σ := { r with pos := r.pos + n }

theorem Wf.length_window {r : Reader σ} (h : Wf r) : r.window.length = r.available := by
  obtain ⟨h1, h2, h3, -⟩ := h
  exact length_slice (by unfold available; omega)

theorem Wf.available_le {r : Reader σ} (h : Wf r) : r.available ≤ r.capacity := by
  obtain ⟨h1, h2, -, -⟩ := h
  unfold available
  omega

theorem Wf.advance {r : Reader σ} (h : Wf r) {n : ℕ} (hn : n ≤ r.available) :
    Wf (r.advance n) := by
  obtain ⟨h1, h2, h3, h4⟩ := h
  unfold available at hn
  exact ⟨by simp only [Reader.advance]; omega, h2, h3, h4⟩

theorem window_advance (r : Reader σ) (n : ℕ) :
    (r.advance n).window = r.window.drop n := by
  have hav : (r.advance n).available = r.available - n := by
    simp only [available, Reader.advance]
    omega
  rw [window, hav, window, slice, slice, List.drop_take, List.drop_drop]
  rfl

/-- A cursor over the first bytes of the window covers just these. -/
theorem slice_data_eq_take {r : Reader σ} {n : ℕ} (hn : n ≤ r.available) :
    slice r.data r.pos n = r.window.take n := by
  rw [window, slice, slice, List.take_take, min_eq_left hn]

/-! ## Reads -/

/-- The source went from one state to another by these reads. -/
def Reads (vt : ReaderVtable σ) : σ → List ReadEvent → σ → Prop
  | s, [], s' => s' = s
  | s, e :: es, s' =>
    (vt.read s e.offset e.capacity).1 = e.result ∧
      Reads vt (vt.read s e.offset e.capacity).2 es s'

theorem Reads.append {vt : ReaderVtable σ} {s t u : σ} {es fs : List ReadEvent}
    (h : Reads vt s es t) (h' : Reads vt t fs u) : Reads vt s (es ++ fs) u := by
  induction es generalizing s with
  | nil => cases h; exact h'
  | cons e es ih => exact ⟨h.1, ih h.2⟩

/-- The bytes handed over by some reads, in order. -/
def handed (es : List ReadEvent) : List UInt8 := es.flatMap (·.result.bytes)

@[simp] theorem handed_nil : handed [] = [] := rfl

@[simp] theorem handed_append (es fs : List ReadEvent) :
    handed (es ++ fs) = handed es ++ handed fs := List.flatMap_append

@[simp] theorem handed_singleton (e : ReadEvent) : handed [e] = e.result.bytes := by
  simp [handed]

/-- `r'` is `r` after some reads, all of them inside the buffer. -/
structure Progress (vt : ReaderVtable σ) (r r' : Reader σ) (es : List ReadEvent) : Prop where
  wf : Wf r'
  capacity_eq : r'.capacity = r.capacity
  reads : Reads vt r.ctx es r'.ctx
  window_eq : r'.window = r.window ++ handed es
  inside : ∀ e ∈ es, 0 < e.capacity ∧ e.offset + e.capacity ≤ r.capacity

theorem Progress.refl {vt : ReaderVtable σ} {r : Reader σ} (h : Wf r) : Progress vt r r [] :=
  ⟨h, rfl, rfl, by simp, by simp⟩

theorem Progress.trans {vt : ReaderVtable σ} {r s t : Reader σ} {es fs : List ReadEvent}
    (h : Progress vt r s es) (h' : Progress vt s t fs) : Progress vt r t (es ++ fs) where
  wf := h'.wf
  capacity_eq := h'.capacity_eq.trans h.capacity_eq
  reads := h.reads.append h'.reads
  window_eq := by rw [h'.window_eq, h.window_eq, handed_append, List.append_assoc]
  inside := by
    intro e he
    rcases List.mem_append.1 he with he | he
    · exact h.inside e he
    · rw [← h.capacity_eq]
      exact h'.inside e he

theorem Progress.available_eq {vt : ReaderVtable σ} {r r' : Reader σ} {es : List ReadEvent}
    (h : Progress vt r r' es) (hr : Wf r) :
    r'.available = r.available + (handed es).length := by
  rw [← h.wf.length_window, h.window_eq, List.length_append, hr.length_window]

/-! ## Refilling -/

/-- The compaction branch of `rebase`: the window that is asked for fits in the buffer,
but not behind the position, so the buffered bytes are dropped or moved to the front. -/
def Compacts (r : Reader σ) (capacity : ℕ) : Prop :=
  capacity ≤ r.capacity ∧ r.capacity - r.pos < capacity ∧ r.len - r.pos ≤ capacity

instance (r : Reader σ) (capacity : ℕ) : Decidable (r.Compacts capacity) :=
  inferInstanceAs (Decidable (_ ∧ _ ∧ _))

/-- A rebase to a window that the buffer can hold and that is not smaller than
what is buffered keeps the window and makes room behind it. -/
theorem rebase_spec {r : Reader σ} (h : Wf r) {c : ℕ} (hav : r.available ≤ c)
    (hc : c ≤ r.capacity) :
    ∃ r', rebase r c = .ok (.ok, r') ∧ Wf r' ∧ r'.ctx = r.ctx ∧ r'.capacity = r.capacity ∧
      r'.window = r.window ∧ r'.pos + c ≤ r'.capacity ∧
      if r.Compacts c then r'.pos = 0 ∧ r'.len = r.available else r' = r := by
  obtain ⟨h1, h2, h3, h4⟩ := h
  have hav' : r.len - r.pos ≤ c := hav
  unfold rebase
  rw [if_neg (by omega), sizeSub_of_le (by omega)]
  by_cases hroom : r.capacity - r.pos ≥ c
  · refine ⟨r, by simp [hroom], ⟨h1, h2, h3, h4⟩, rfl, rfl, rfl, by omega, ?_⟩
    rw [if_neg fun hcomp : r.Compacts c => Nat.not_le_of_lt hcomp.2.1 hroom]
  · have hcomp : r.Compacts c := ⟨hc, Nat.lt_of_not_le hroom, hav'⟩
    simp only [if_pos hcomp]
    rw [sizeSub_of_le h1]
    by_cases hz : r.len - r.pos = 0
    · refine ⟨{ r with pos := 0, len := 0 }, ?_, ⟨by simp, by simp, h3, h4⟩, rfl, rfl, ?_, ?_,
        rfl, hz.symm⟩
      · simp [hroom, hz]
      · simp [window, available, hz]
      · simpa using hc
    · have hlen : (slice r.data r.pos (r.len - r.pos)).length = r.len - r.pos :=
        length_slice (by omega)
      have hfit : 0 + (slice r.data r.pos (r.len - r.pos)).length ≤ r.data.length := by omega
      set data := splice r.data 0 (slice r.data r.pos (r.len - r.pos)) with hdata
      refine ⟨{ r with data := data, pos := 0, len := r.len - r.pos }, ?_,
        ⟨by simp, ?_, ?_, h4⟩, rfl, rfl, ?_, ?_, rfl, rfl⟩
      · have hmove :
            readAt r.data r.pos (r.len - r.pos) = .ok (slice r.data r.pos (r.len - r.pos)) :=
          readAt_of_le (by omega)
        simp [hroom, hz, hmove, writeAt_of_le hfit, hdata, show ¬ r.len - r.pos > c by omega]
      · show r.len - r.pos ≤ r.capacity
        omega
      · show r.capacity ≤ data.length
        rwa [hdata, length_splice hfit]
      · have hread := slice_splice_same hfit
        rw [hlen, ← hdata] at hread
        simpa [window, available] using hread
      · simpa using hc

/-- One call of `fillMore`. -/
structure Refill (σ : Type) where
  reader : Reader σ
  requiredCapacity : ℕ
  maxReadLen : ℕ

/-- The refill takes the compaction branch of `rebase`. -/
def Refill.Compacts (f : Refill σ) : Prop := f.reader.Compacts f.requiredCapacity

/-- The bytes up to `len` are where they were, and position and `len` went forward. -/
structure Kept (r r' : Reader σ) : Prop where
  pos_le : r.pos ≤ r'.pos
  len_le : r.len ≤ r'.len
  data_eq : r'.data.take r.len = r.data.take r.len

theorem Kept.refl (r : Reader σ) : Kept r r := ⟨le_rfl, le_rfl, rfl⟩

theorem Kept.trans {r s t : Reader σ} (h : Kept r s) (h' : Kept s t) : Kept r t where
  pos_le := h.pos_le.trans h'.pos_le
  len_le := h.len_le.trans h'.len_le
  data_eq := by
    have := congrArg (List.take r.len) h'.data_eq
    rwa [List.take_take, List.take_take, min_eq_left h.len_le, h.data_eq] at this

theorem Kept.advance {r s : Reader σ} (h : Kept r s) (n : ℕ) : Kept r (s.advance n) :=
  ⟨h.pos_le.trans (Nat.le_add_right _ _), h.len_le, h.data_eq⟩

/-- What lies below `len` reads the same. -/
theorem Kept.slice_eq {r s : Reader σ} (h : Kept r s) {i n : ℕ} (hin : i + n ≤ r.len) :
    slice s.data i n = slice r.data i n := by
  have hcut : ∀ xs : List UInt8, slice xs i n = slice (xs.take r.len) i n := by
    intro xs
    rw [slice, slice, List.drop_take, List.take_take, min_eq_left (by omega)]
  rw [hcut, h.data_eq, ← hcut]

/-- Bytes stored behind the buffered ones by a source that is now in state `ctx`. -/
def extend (r : Reader σ) (ctx : σ) (bs : List UInt8) : Reader σ :=
  { r with ctx, data := splice r.data r.len bs, len := r.len + bs.length }

section Extend

variable {r : Reader σ} {bs : List UInt8}

theorem Wf.extend (h : Wf r) (hfit : r.len + bs.length ≤ r.capacity) (ctx : σ) :
    Wf (r.extend ctx bs) := by
  obtain ⟨h1, h2, h3, h4⟩ := h
  refine ⟨?_, hfit, ?_, h4⟩
  · show r.pos ≤ r.len + bs.length
    omega
  · show r.capacity ≤ (splice r.data r.len bs).length
    rwa [length_splice (by omega)]

theorem Wf.window_extend (h : Wf r) (hfit : r.len + bs.length ≤ r.capacity) (ctx : σ) :
    (r.extend ctx bs).window = r.window ++ bs := by
  have hfit' : r.len + bs.length ≤ r.data.length := hfit.trans h.capacity_le
  have hend : r.pos + r.available = r.len := Nat.add_sub_cancel' h.pos_le
  have hav : (r.extend ctx bs).available = r.available + bs.length := by
    show r.len + bs.length - r.pos = r.available + bs.length
    omega
  have hold : slice (splice r.data r.len bs) r.pos r.available = r.window :=
    slice_splice_of_disjoint hfit' (Or.inl hend.le)
  have hnew : slice (splice r.data r.len bs) r.len bs.length = bs := slice_splice_same hfit'
  rw [window, hav, slice_add]
  show slice (splice r.data r.len bs) r.pos r.available ++
    slice (splice r.data r.len bs) (r.pos + r.available) bs.length = _
  rw [hend, hold, hnew]

theorem Wf.kept_extend (h : Wf r) (ctx : σ) : Kept r (r.extend ctx bs) where
  pos_le := le_rfl
  len_le := Nat.le_add_right _ _
  data_eq := by
    have hlen : (r.data.take r.len).length = r.len := by
      rw [List.length_take, min_eq_left (h.len_le.trans h.capacity_le)]
    show (splice r.data r.len bs).take r.len = _
    rw [splice, List.append_assoc, List.take_left' hlen]

end Extend

/-- The refill `f` was served by the read `e` and left the reader `r'`: `rebase` returned
OK and left room, the read was asked for at most that room at the end of the buffered
bytes, and its status is what the refill returned. -/
structure Refill.Served (vt : ReaderVtable σ) (f : Refill σ) (r' : Reader σ) (e : ReadEvent) :
    Prop where
  rebased : ∃ r₀, rebase f.reader f.requiredCapacity = .ok (.ok, r₀) ∧ e.offset = r₀.len ∧
    r₀.len + e.capacity ≤ r₀.capacity
  filled : fillMore vt f.reader f.requiredCapacity f.maxReadLen = .ok (e.status, r')
  progress : Progress vt f.reader r' [e]
  capacity_le : e.capacity ≤ f.maxReadLen
  length_le : e.result.bytes.length ≤ e.capacity
  kept : ¬ f.Compacts → Kept f.reader r'

/-- **A refill is one read.**  Asked for more than is buffered, `fillMore` makes
room, reads once inside the buffer and passes on the status of that read. -/
theorem fillMore_spec {vt : ReaderVtable σ} (hb : vt.Bounded) {r : Reader σ} (h : Wf r) {c m : ℕ}
    (hav : r.available < c) (hc : c ≤ r.capacity) (hm : 0 < m) :
    ∃ r' e, (Refill.mk r c m).Served vt r' e := by
  obtain ⟨r₁, hreb, hwf, hctx, hcap, hwin, hroom, hcomp⟩ := rebase_spec h (Nat.le_of_lt hav) hc
  have hav₁ : r₁.available = r.available := by
    rw [← hwf.length_window, hwin, h.length_window]
  have hend : r₁.pos + r₁.available = r₁.len := Nat.add_sub_cancel' hwf.pos_le
  have hlen₁ := hwf.len_le
  set n := if m < r₁.capacity - r₁.len then m else r₁.capacity - r₁.len with hn
  have hnm : n ≤ m ∧ r₁.len + n ≤ r₁.capacity ∧ 0 < n := by
    rw [hn]
    split <;> omega
  set bs := (vt.read r₁.ctx r₁.len n).1.bytes with hbs
  have hlen : bs.length ≤ n := hb r₁.ctx r₁.len n hnm.2.2
  have hfit : r₁.len + bs.length ≤ r₁.capacity := by omega
  set r₂ := r₁.extend (vt.read r₁.ctx r₁.len n).2 bs with hr₂
  set e : ReadEvent := ⟨r₁.len, n, (vt.read r₁.ctx r₁.len n).1⟩ with he
  have hrun : fillMore vt r c m = .ok (e.status, r₂) := by
    have hwrite : writeAt r₁.data r₁.len bs = .ok (splice r₁.data r₁.len bs) :=
      writeAt_of_le (hfit.trans hwf.capacity_le)
    unfold fillMore
    rw [hreb]
    simp only [ok_bind, ne_eq, not_true_eq_false, if_false, sizeSub_of_le hlen₁, ← hn,
      Nat.ne_of_gt hnm.2.2, ← hbs, check_of hlen, hwrite, pure_eq_ok]
    unfold ReadEvent.status
    split <;> [rfl; split <;> rfl]
  have hprogress : Progress vt r r₂ [e] := by
    refine ⟨hwf.extend hfit _, hcap, ⟨by rw [← hctx], by rw [← hctx]; rfl⟩, ?_, ?_⟩
    · rw [hr₂, hwf.window_extend hfit, hwin, handed_singleton]
    · intro e' he'
      rw [List.mem_singleton.1 he', ← hcap]
      exact ⟨hnm.2.2, hnm.2.1⟩
  refine ⟨r₂, e, ⟨r₁, hreb, rfl, hnm.2.1⟩, hrun, hprogress, hnm.1, hlen, ?_⟩
  intro (hnot : ¬ r.Compacts c)
  rw [if_neg hnot] at hcomp
  rw [hr₂, hcomp]
  exact h.kept_extend _

/-! ## The operations -/

/-- Every one of these reads handed over at least one byte. -/
def Productive (es : List ReadEvent) : Prop := ∀ e ∈ es, e.result.bytes ≠ []

theorem productive_nil : Productive [] := fun _ h => absurd h List.not_mem_nil

theorem Productive.snoc {es : List ReadEvent} {e : ReadEvent} (h : Productive es)
    (he : e.status = .ok) : Productive (es ++ [e]) := by
  intro e' he'
  rcases List.mem_append.1 he' with he' | he'
  · exact h e' he'
  · rw [List.mem_singleton.1 he']
    exact ReadEvent.status_eq_ok_iff.1 he

/-- A read whose status is not OK handed over nothing. -/
theorem handed_snoc_of_failed (es : List ReadEvent) {e : ReadEvent} (he : e.status ≠ .ok) :
    handed (es ++ [e]) = handed es := by
  have : e.result.bytes = [] := by
    by_contra hc
    exact he (ReadEvent.status_eq_ok_iff.2 hc)
  simp [this]

variable {vt : ReaderVtable σ}

/-- A read that brings bytes makes the window larger. -/
theorem Progress.available_lt {r r₁ : Reader σ} {e : ReadEvent} (hpr : Progress vt r r₁ [e])
    (h : Wf r) (hst : e.status = .ok) : r.available < r₁.available := by
  have hne := List.length_pos_of_ne_nil (ReadEvent.status_eq_ok_iff.1 hst)
  have hav := hpr.available_eq h
  rw [handed_singleton] at hav
  omega

/-- A read that brings nothing leaves the window as it was. -/
theorem Progress.window_of_failed {r r₁ : Reader σ} {e : ReadEvent} (hpr : Progress vt r r₁ [e])
    (h : Wf r) (hst : e.status ≠ .ok) : r₁.window = r.window ∧ r₁.available = r.available := by
  have hnil : handed [e] = [] := by simpa using handed_snoc_of_failed [] hst
  have hwin := hpr.window_eq
  have hav := hpr.available_eq h
  rw [hnil] at hwin hav
  exact ⟨by simpa using hwin, by simpa using hav⟩

/-- What is read from the position on is the window. -/
theorem Wf.readAt_window {r : Reader σ} (h : Wf r) :
    readAt r.data r.pos (r.len - r.pos) = .ok r.window := by
  obtain ⟨p1, p2, p3, -⟩ := h
  rw [readAt_of_le (by omega)]
  rfl

/-- With a byte in the window, reading at the position gives the first one. -/
theorem Wf.readAt_head {r : Reader σ} (h : Wf r) (hav : 0 < r.available) :
    ∃ b, r.window.head? = some b ∧ readAt r.data r.pos 1 = .ok [b] := by
  have hw : slice r.data r.pos 1 = r.window.take 1 := slice_data_eq_take hav
  have hlen := h.length_window
  obtain ⟨p1, p2, p3, -⟩ := h
  cases hwin : r.window with
  | nil => rw [hwin] at hlen; simp at hlen; omega
  | cons b w =>
    refine ⟨b, rfl, ?_⟩
    rw [readAt_of_le (by unfold available at hav; omega), hw, hwin]
    rfl

/-! ## The refills of a call -/

/-- The refill that `takeByte` makes. -/
def byteRefill (r : Reader σ) : Option (Refill σ) :=
  if r.pos ≥ r.len then some ⟨r, 1, r.capacity⟩ else none

/-- The refill that a round of `takeArray` makes. -/
def arrayRefill (count : ℕ) (r : Reader σ) : Option (Refill σ) :=
  if r.available < count then some ⟨r, count, count - r.available⟩ else none

/-- The refill that a round of `takeDelimiter` makes. -/
def delimiterRefill (delimiter : UInt8) (r : Reader σ) : Option (Refill σ) :=
  if r.available = 0 then some ⟨r, 1, r.capacity⟩
  else if delimiter ∈ r.window ∨ r.available = r.capacity then none
  else some ⟨r, r.available + 1, r.capacity⟩

/-- The calls of `fillMore` that a public call makes, in order. -/
def refills (vt : ReaderVtable σ) (r : Reader σ) : Call → List (Refill σ)
  | .takeByte => (byteRefill r).toList
  | .takeArray count =>
    if count > r.capacity then []
    else (loopStates (takeArrayRound vt count) (r.capacity + 2) r).filterMap (arrayRefill count)
  | .takeDelimiter delimiter =>
    (loopStates (takeDelimiterRound vt delimiter) (r.capacity + 2) r).filterMap
      (delimiterRefill delimiter)

/-- The reader `r'` is `r` after the refills `fs` were served by the reads `es`. -/
inductive Refilled (vt : ReaderVtable σ) (r : Reader σ) :
    List (Refill σ) → List ReadEvent → Reader σ → Prop
  | refl : Refilled vt r [] [] r
  | snoc {fs : List (Refill σ)} {es : List ReadEvent} {f : Refill σ} {e : ReadEvent}
      {r' : Reader σ} : Refilled vt r fs es f.reader → f.Served vt r' e →
      Refilled vt r (fs ++ [f]) (es ++ [e]) r'

namespace Refilled

variable {r r' : Reader σ} {fs : List (Refill σ)} {es : List ReadEvent}

theorem progress (h : Wf r) (hr : Refilled vt r fs es r') : Progress vt r r' es := by
  induction hr with
  | refl => exact Progress.refl h
  | snoc _ hf ih => exact ih.trans hf.progress

/-- Each refill was served, by the read at its place. -/
theorem served (hr : Refilled vt r fs es r') :
    List.Forall₂ (fun f e => ∃ s, f.Served vt s e) fs es := by
  induction hr with
  | refl => exact .nil
  | snoc _ hf ih => exact List.rel_append ih (.cons ⟨_, hf⟩ .nil)

/-- Refills that do not compact leave the bytes below `len` alone. -/
theorem kept (hr : Refilled vt r fs es r') (hfs : ∀ f ∈ fs, ¬ f.Compacts) : Kept r r' := by
  induction hr with
  | refl => exact Kept.refl r
  | snoc _ hf ih =>
    exact (ih fun f hmem => hfs f (List.mem_append_left _ hmem)).trans (hf.kept (hfs _ (by simp)))

end Refilled

/-! ## The operations -/

/-- `takeByte` delivers the first byte of the window, reading only when the
window is empty, or reports why that read brought nothing. -/
theorem takeByte_spec (hb : vt.Bounded) {r : Reader σ} (h : Wf r) :
    Sat (takeByte vt r) fun p =>
      (∃ r₁ es b, Refilled vt r (refills vt r .takeByte) es r₁ ∧ Productive es ∧
        r₁.window.head? = some b ∧ p = ((.ok, some b), r₁.advance 1)) ∨
      (∃ r₁ e, Refilled vt r (refills vt r .takeByte) [e] r₁ ∧ r.window = [] ∧ e.status ≠ .ok ∧
        p = ((e.status, none), r₁)) := by
  unfold takeByte
  rw [check_of h.capacity_pos, ok_bind, refills, byteRefill]
  by_cases hemp : r.pos ≥ r.len
  · have hav : r.available = 0 := by
      unfold available
      omega
    rw [if_pos hemp, if_pos hemp]
    obtain ⟨r₁, e, hf⟩ := fillMore_spec hb h (by omega : r.available < 1) h.capacity_pos
      h.capacity_pos
    have hpr : Progress vt r r₁ [e] := hf.progress
    have hrf : Refilled vt r [⟨r, 1, r.capacity⟩] [e] r₁ := Refilled.refl.snoc hf
    have hfill : fillMore vt r 1 r.capacity = .ok (e.status, r₁) := hf.filled
    rw [hfill, ok_bind]
    by_cases hst : e.status = .ok
    · have hav₁ := hpr.available_lt h hst
      obtain ⟨b, hhead, hread⟩ := hpr.wf.readAt_head (by omega)
      refine ⟨((.ok, some b), r₁.advance 1), ?_, Or.inl ⟨r₁, [e], b, hrf, ?_, hhead, rfl⟩⟩
      · simp [hst, hread, Reader.advance]
      · simpa using productive_nil.snoc hst
    · refine ⟨((e.status, none), r₁), by simp [hst], Or.inr ⟨r₁, e, hrf, ?_, hst, rfl⟩⟩
      exact List.length_eq_zero_iff.1 (by rw [h.length_window, hav])
  · obtain ⟨b, hhead, hread⟩ := h.readAt_head (by unfold available; omega)
    rw [if_neg hemp, if_neg hemp]
    refine ⟨((.ok, some b), r.advance 1), ?_,
      Or.inl ⟨r, [], b, Refilled.refl, productive_nil, hhead, rfl⟩⟩
    simp [hread, Reader.advance]

/-- A round of `takeArray` refills while bytes are missing, and goes on when the read
brought some; otherwise it leaves with a cursor over the first `count` bytes. -/
theorem takeArrayRound_spec (hb : vt.Bounded) {s : Reader σ} (h : Wf s) {count : ℕ}
    (hle : count ≤ s.capacity) :
    (arrayRefill count s = none ∧ count ≤ s.available ∧ takeArrayRound vt count s =
        .ok (.inr ((.ok, some (.create s.pos count)), s.advance count))) ∨
      ∃ f s₁ e, arrayRefill count s = some f ∧ f.reader = s ∧ f.Served vt s₁ e ∧
        s.available < count ∧ e.capacity ≤ count - s.available ∧ takeArrayRound vt count s =
          .ok (if e.status = .ok then .inl s₁ else .inr ((e.status, none), s₁)) := by
  have hround : takeArrayRound vt count s =
      if s.available < count then
        fillMore vt s count (count - s.available) >>= fun p =>
          if p.1 ≠ .ok then pure (.inr ((p.1, none), p.2)) else pure (.inl p.2)
      else .ok (.inr ((.ok, some (.create s.pos count)), s.advance count)) := by
    unfold takeArrayRound
    rw [sizeSub_of_le h.pos_le]
    rfl
  rw [hround, arrayRefill]
  by_cases hlt : s.available < count
  · rw [if_pos hlt, if_pos hlt]
    obtain ⟨s₁, e, hf⟩ := fillMore_spec hb h hlt hle (Nat.sub_pos_of_lt hlt)
    have hfill : fillMore vt s count (count - s.available) = .ok (e.status, s₁) := hf.filled
    refine Or.inr ⟨_, s₁, e, rfl, rfl, hf, hlt, hf.capacity_le, ?_⟩
    rw [hfill, ok_bind]
    by_cases hst : e.status = .ok <;> simp [hst]
  · rw [if_neg hlt, if_neg hlt]
    exact Or.inl ⟨rfl, by omega, rfl⟩

/-- `takeArray` either refuses a count larger than the buffer, or reads no more
than it lacks until the window holds `count` bytes and delivers them, or stops
at the first read that brings nothing and delivers nothing. -/
theorem takeArray_spec (hb : vt.Bounded) {r : Reader σ} (h : Wf r) (count : ℕ) :
    Sat (takeArray vt count r) fun p =>
      (r.capacity < count ∧ refills vt r (.takeArray count) = [] ∧ p = ((.overflow, none), r)) ∨
      (∃ r₁ es, count ≤ r.capacity ∧ Refilled vt r (refills vt r (.takeArray count)) es r₁ ∧
        Productive es ∧ (handed es).length = count - r.available ∧ count ≤ r₁.available ∧
        p = ((.ok, some (.create r₁.pos count)), r₁.advance count)) ∨
      (∃ r₁ es e, count ≤ r.capacity ∧
        Refilled vt r (refills vt r (.takeArray count)) (es ++ [e]) r₁ ∧ Productive es ∧
        e.status ≠ .ok ∧ r₁.available < count ∧ p = ((e.status, none), r₁)) := by
  unfold takeArray
  rw [check_of h.capacity_pos, ok_bind, refills]
  by_cases hbig : count > r.capacity
  · rw [if_pos hbig, if_pos hbig]
    exact Sat.ok (Or.inl ⟨hbig, rfl, rfl⟩)
  rw [if_neg hbig, if_neg hbig]
  have hle : count ≤ r.capacity := by omega
  -- the refills so far brought a byte each and together no more than was missing
  refine (loop_ok_states (I := fun ss s => ∃ es,
      Refilled vt r (ss.filterMap (arrayRefill count)) es s ∧ Productive es ∧
        (handed es).length ≤ count - r.available)
    (μ := fun s => count - s.available)
    (Q := fun ss p =>
      (∃ r₁ es, Refilled vt r (ss.filterMap (arrayRefill count)) es r₁ ∧ Productive es ∧
        (handed es).length = count - r.available ∧ count ≤ r₁.available ∧
        p = ((.ok, some (.create r₁.pos count)), r₁.advance count)) ∨
      (∃ r₁ es e, Refilled vt r (ss.filterMap (arrayRefill count)) (es ++ [e]) r₁ ∧
        Productive es ∧ e.status ≠ .ok ∧ r₁.available < count ∧ p = ((e.status, none), r₁)))
    ?_ _ [] r ⟨[], Refilled.refl, productive_nil, by simp⟩ (by omega)).mono ?_
  · rintro ss s ⟨es, hrf, hprod, hmost⟩
    have hpr := hrf.progress h
    have hav := hpr.available_eq h
    rw [List.filterMap_append]
    rcases takeArrayRound_spec hb hpr.wf (hle.trans_eq hpr.capacity_eq.symm) with
      ⟨hnone, hn, hround⟩ | ⟨f, s₁, e, hsome, rfl, hf, hlt, hm, hround⟩
    · rw [hround]
      refine Sat.ok (Or.inl ⟨s, es, ?_, hprod, by omega, hn, rfl⟩)
      simpa [hnone] using hrf
    · have hrf₁ : Refilled vt r (ss.filterMap (arrayRefill count) ++ [f]) (es ++ [e]) s₁ :=
        hrf.snoc hf
      have hlast : [f.reader].filterMap (arrayRefill count) = [f] := by simp [hsome]
      have hav₁ := hf.progress.available_eq hpr.wf
      have hlen := hf.length_le
      rw [hround, hlast]
      by_cases hst : e.status = .ok
      · have hne := List.length_pos_of_ne_nil (ReadEvent.status_eq_ok_iff.1 hst)
        rw [handed_singleton] at hav₁
        rw [if_pos hst]
        refine Sat.ok ⟨⟨es ++ [e], hrf₁, hprod.snoc hst, ?_⟩, ?_⟩
        · rw [handed_append, handed_singleton, List.length_append]
          omega
        · show count - s₁.available < count - f.reader.available
          omega
      · obtain ⟨-, hsame⟩ := hf.progress.window_of_failed hpr.wf hst
        rw [if_neg hst]
        exact Sat.ok (Or.inr ⟨s₁, es, e, hrf₁, hprod, hst, by omega, rfl⟩)
  · rintro p (⟨r₁, es, hrf, hrest⟩ | ⟨r₁, es, e, hrf, hrest⟩)
    · exact Or.inr (Or.inl ⟨r₁, es, hle, hrf, hrest⟩)
    · exact Or.inr (Or.inr ⟨r₁, es, e, hle, hrf, hrest⟩)

/-- How `takeDelimiter` ends when a read brought nothing: the end of the stream turns a
non-empty window into the last segment. -/
def DelimiterEnd (r : Reader σ) (e : ReadEvent) (p : (Status × Option BufCursor) × Reader σ) :
    Prop :=
  e.status ≠ .ok ∧
    ((e.status = .eof ∧ 0 < r.available ∧
        p = ((.ok, some (.create r.pos r.available)), r.advance r.available)) ∨
      ((e.status = .eof → r.available = 0) ∧ p = ((e.status, none), r)))

/-- The delimiter is in the window. -/
theorem takeDelimiterRound_hit {s : Reader σ} (h : Wf s) (hz : s.available ≠ 0) {d : UInt8}
    {i : ℕ} (hidx : s.window.idxOf? d = some i) : takeDelimiterRound vt d s =
      .ok (.inr ((.ok, some (.create s.pos (i + 1))), s.advance (i + 1))) := by
  unfold takeDelimiterRound
  rw [sizeSub_of_le h.pos_le, ok_bind]
  change (if s.available = 0 then _ else _) = _
  rw [if_neg hz, h.readAt_window, ok_bind]
  simp only [hidx]
  rfl

/-- The delimiter is not in the window. -/
theorem takeDelimiterRound_miss {s : Reader σ} (h : Wf s) (hz : s.available ≠ 0) {d : UInt8}
    (hidx : s.window.idxOf? d = none) : takeDelimiterRound vt d s =
      if s.available = s.capacity then .ok (.inr ((.overflow, none), s))
      else fillMore vt s (s.available + 1) s.capacity >>= fun p =>
        if p.1 = .eof then do
          let available ← sizeSub p.2.len p.2.pos
          if available = 0 then return .inr ((.eof, none), p.2)
          return .inr ((.ok, some (.create p.2.pos available)), { p.2 with pos := p.2.len })
        else if p.1 ≠ .ok then pure (.inr ((p.1, none), p.2)) else pure (.inl p.2) := by
  unfold takeDelimiterRound
  rw [sizeSub_of_le h.pos_le, ok_bind]
  change (if s.available = 0 then _ else _) = _
  rw [if_neg hz, h.readAt_window, ok_bind]
  simp only [hidx]
  rfl

/-- A round of `takeDelimiter` leaves when the delimiter is in the window or the window
fills the buffer; otherwise it refills, and goes on when the read brought some bytes. -/
theorem takeDelimiterRound_spec (hb : vt.Bounded) {s : Reader σ} (h : Wf s) (d : UInt8) :
    (delimiterRefill d s = none ∧
        ((∃ i, s.window.idxOf? d = some i ∧ takeDelimiterRound vt d s =
            .ok (.inr ((.ok, some (.create s.pos (i + 1))), s.advance (i + 1)))) ∨
          (d ∉ s.window ∧ s.available = s.capacity ∧ takeDelimiterRound vt d s =
            .ok (.inr ((.overflow, none), s))))) ∨
      ∃ f s₁ e, delimiterRefill d s = some f ∧ f.reader = s ∧ f.Served vt s₁ e ∧
        d ∉ s.window ∧ s.available < s.capacity ∧
        ((e.status = .ok ∧ takeDelimiterRound vt d s = .ok (.inl s₁)) ∨
          ∃ p, DelimiterEnd s₁ e p ∧ takeDelimiterRound vt d s = .ok (.inr p)) := by
  have hcap := h.capacity_pos
  have hle := h.available_le
  by_cases hz : s.available = 0
  · have hwnil : s.window = [] := List.length_eq_zero_iff.1 (by rw [h.length_window, hz])
    obtain ⟨s₁, e, hf⟩ := fillMore_spec hb h (by omega : s.available < 1) hcap hcap
    have hfill : fillMore vt s 1 s.capacity = .ok (e.status, s₁) := hf.filled
    have hround : takeDelimiterRound vt d s =
        .ok (if e.status = .ok then .inl s₁ else .inr ((e.status, none), s₁)) := by
      unfold takeDelimiterRound
      rw [sizeSub_of_le h.pos_le, ok_bind]
      change (if s.available = 0 then _ else _) = _
      rw [if_pos hz, hfill, ok_bind]
      by_cases hst : e.status = .ok <;> simp [hst]
    refine Or.inr ⟨_, s₁, e, by rw [delimiterRefill, if_pos hz], rfl, hf, by simp [hwnil],
      by omega, ?_⟩
    by_cases hst : e.status = .ok
    · exact Or.inl ⟨hst, by rw [hround, if_pos hst]⟩
    · have hsame : s₁.available = s.available := (hf.progress.window_of_failed h hst).2
      exact Or.inr ⟨_, ⟨hst, Or.inr ⟨fun _ => by omega, rfl⟩⟩, by rw [hround, if_neg hst]⟩
  cases hidx : s.window.idxOf? d with
  | some i =>
    have hmem : d ∈ s.window := List.isSome_idxOf?.1 (by rw [hidx]; rfl)
    refine Or.inl ⟨by rw [delimiterRefill, if_neg hz, if_pos (Or.inl hmem)], Or.inl ⟨i, rfl, ?_⟩⟩
    exact takeDelimiterRound_hit h hz hidx
  | none =>
    have hnot : d ∉ s.window := List.idxOf?_eq_none_iff.1 hidx
    have hround : takeDelimiterRound vt d s = _ := takeDelimiterRound_miss h hz hidx
    by_cases hfull : s.available = s.capacity
    · refine Or.inl ⟨by rw [delimiterRefill, if_neg hz, if_pos (Or.inr hfull)],
        Or.inr ⟨hnot, hfull, ?_⟩⟩
      rw [hround, if_pos hfull]
    · obtain ⟨s₁, e, hf⟩ := fillMore_spec hb h (Nat.lt_succ_self s.available) (by omega) hcap
      have hfill : fillMore vt s (s.available + 1) s.capacity = .ok (e.status, s₁) := hf.filled
      rw [if_neg hfull, hfill, ok_bind] at hround
      refine Or.inr ⟨_, s₁, e, by rw [delimiterRefill, if_neg hz, if_neg (by tauto)], rfl, hf,
        hnot, by omega, ?_⟩
      by_cases hst : e.status = .ok
      · exact Or.inl ⟨hst, by simp [hround, hst]⟩
      · have hsame : s₁.available = s.available := (hf.progress.window_of_failed h hst).2
        by_cases heof : e.status = .eof
        · have hsub : sizeSub s₁.len s₁.pos = .ok s₁.available :=
            sizeSub_of_le hf.progress.wf.pos_le
          have hend : s₁.pos + s₁.available = s₁.len :=
            Nat.add_sub_cancel' hf.progress.wf.pos_le
          have hne : s₁.available ≠ 0 := by omega
          exact Or.inr ⟨_, ⟨hst, Or.inl ⟨heof, by omega, rfl⟩⟩,
            by simp [hround, heof, hsub, hne, Reader.advance, hend]⟩
        · exact Or.inr ⟨_, ⟨hst, Or.inr ⟨fun hc => absurd hc heof, rfl⟩⟩,
            by simp [hround, heof, hst]⟩

/-- `takeDelimiter` reads until the delimiter shows up in the window, the window
fills the buffer without one, or a read brings nothing. -/
theorem takeDelimiter_spec (hb : vt.Bounded) {r : Reader σ} (h : Wf r) (d : UInt8) :
    Sat (takeDelimiter vt d r) fun p =>
      (∃ r₁ es i, Refilled vt r (refills vt r (.takeDelimiter d)) es r₁ ∧ Productive es ∧
        r₁.window.idxOf? d = some i ∧
        p = ((.ok, some (.create r₁.pos (i + 1))), r₁.advance (i + 1))) ∨
      (∃ r₁ es, Refilled vt r (refills vt r (.takeDelimiter d)) es r₁ ∧ Productive es ∧
        d ∉ r₁.window ∧ r₁.available = r.capacity ∧ p = ((.overflow, none), r₁)) ∨
      (∃ r₁ es e, Refilled vt r (refills vt r (.takeDelimiter d)) (es ++ [e]) r₁ ∧
        Productive es ∧ d ∉ r₁.window ∧ r₁.available < r.capacity ∧ DelimiterEnd r₁ e p) := by
  unfold takeDelimiter
  rw [check_of h.capacity_pos, ok_bind, refills]
  refine loop_ok_states (I := fun ss s => ∃ es,
      Refilled vt r (ss.filterMap (delimiterRefill d)) es s ∧ Productive es)
    (μ := fun s => r.capacity - s.available)
    (Q := fun ss p =>
      (∃ r₁ es i, Refilled vt r (ss.filterMap (delimiterRefill d)) es r₁ ∧ Productive es ∧
        r₁.window.idxOf? d = some i ∧
        p = ((.ok, some (.create r₁.pos (i + 1))), r₁.advance (i + 1))) ∨
      (∃ r₁ es, Refilled vt r (ss.filterMap (delimiterRefill d)) es r₁ ∧ Productive es ∧
        d ∉ r₁.window ∧ r₁.available = r.capacity ∧ p = ((.overflow, none), r₁)) ∨
      (∃ r₁ es e, Refilled vt r (ss.filterMap (delimiterRefill d)) (es ++ [e]) r₁ ∧
        Productive es ∧ d ∉ r₁.window ∧ r₁.available < r.capacity ∧ DelimiterEnd r₁ e p))
    ?_ (r.capacity + 2) [] r ⟨[], Refilled.refl, productive_nil⟩ (by omega)
  rintro ss s ⟨es, hrf, hprod⟩
  have hpr := hrf.progress h
  have hcap := hpr.capacity_eq
  rw [List.filterMap_append]
  rcases takeDelimiterRound_spec hb hpr.wf d with
    ⟨hnone, ⟨i, hi, hround⟩ | ⟨hnot, hfull, hround⟩⟩ | ⟨f, s₁, e, hsome, rfl, hf, hnot, hlt, hround⟩
  · rw [hround]
    refine Sat.ok (Or.inl ⟨s, es, i, ?_, hprod, hi, rfl⟩)
    simpa [hnone] using hrf
  · rw [hround]
    refine Sat.ok (Or.inr (Or.inl ⟨s, es, ?_, hprod, hnot, by omega, rfl⟩))
    simpa [hnone] using hrf
  · have hrf₁ : Refilled vt r (ss.filterMap (delimiterRefill d) ++ [f]) (es ++ [e]) s₁ :=
      hrf.snoc hf
    have hlast : [f.reader].filterMap (delimiterRefill d) = [f] := by simp [hsome]
    rw [hlast]
    rcases hround with ⟨hst, hround⟩ | ⟨p, hend, hround⟩
    · have hgrow := hf.progress.available_lt hpr.wf hst
      rw [hround]
      refine Sat.ok ⟨⟨es ++ [e], hrf₁, hprod.snoc hst⟩, ?_⟩
      show r.capacity - s₁.available < r.capacity - f.reader.available
      omega
    · obtain ⟨hwin, hsame⟩ := hf.progress.window_of_failed hpr.wf hend.1
      rw [hround]
      exact Sat.ok (Or.inr (Or.inr ⟨s₁, es, e, hrf₁, hprod, by rwa [hwin], by omega, hend⟩))

/-! ## Any call -/

/-- Productive reads are no more than the bytes they brought. -/
theorem Productive.length_le {es : List ReadEvent} (h : Productive es) :
    es.length ≤ (handed es).length := by
  induction es with
  | nil => exact Nat.zero_le _
  | cons e es ih =>
    have he := List.length_pos_of_ne_nil (h e List.mem_cons_self)
    have hes := ih fun e' he' => h e' (List.mem_cons_of_mem e he')
    have hcons : handed (e :: es) = e.result.bytes ++ handed es := List.flatMap_cons
    rw [hcons, List.length_append, List.length_cons]
    omega

/-- Productive reads fit in the buffer. -/
theorem Progress.length_le {r r₁ : Reader σ} {es fs : List ReadEvent}
    (h : Progress vt r r₁ (es ++ fs)) (hr : Wf r) (hes : Productive es) :
    es.length ≤ r.capacity := by
  have hle := h.wf.available_le
  have hav := h.available_eq hr
  have hprod := hes.length_le
  rw [handed_append, List.length_append] at hav
  rw [h.capacity_eq] at hle
  omega

/-- What a call comes to: its refills were served, by at most `capacity + 1` reads, and
then it delivered the first `n` bytes of the window or nothing. -/
def Outcome (vt : ReaderVtable σ) (r : Reader σ) (c : Call) (p : Answer × Reader σ) : Prop :=
  ∃ r₁ es, Refilled vt r (refills vt r c) es r₁ ∧ es.length ≤ r.capacity + 1 ∧
    ((∃ n ≤ r₁.available, p = (⟨.ok, some (r₁.window.take n)⟩, r₁.advance n)) ∨
      ∃ st, st ≠ .ok ∧ p = (⟨st, none⟩, r₁))

/-- **Every call returns**, whatever the source answers. -/
theorem step_spec (hb : vt.Bounded) {r : Reader σ} (h : Wf r) (c : Call) :
    Sat (step vt r c) (Outcome vt r c) := by
  cases c with
  | takeByte =>
    refine (takeByte_spec hb h).bind fun p hp => Sat.ok ?_
    rcases hp with ⟨r₁, es, b, hrf, hprod, hb, rfl⟩ | ⟨r₁, e, hrf, -, hst, rfl⟩
    · have hpr := hrf.progress h
      have hlen := hpr.wf.length_window
      rw [← List.append_nil es] at hpr
      refine ⟨r₁, es, hrf, Nat.le_succ_of_le (hpr.length_le h hprod), Or.inl ⟨1, ?_, ?_⟩⟩
      · rw [← hlen]
        exact List.length_pos_of_mem (List.mem_of_head? hb)
      · rw [List.take_one, hb]
        rfl
    · exact ⟨r₁, [e], hrf, Nat.le_add_left 1 _, Or.inr ⟨e.status, hst, rfl⟩⟩
  | takeArray count =>
    refine (takeArray_spec hb h count).bind fun p hp => Sat.ok ?_
    rcases hp with ⟨-, hnil, rfl⟩ | ⟨r₁, es, -, hrf, hprod, -, hn, rfl⟩ |
      ⟨r₁, es, e, -, hrf, hprod, hst, -, rfl⟩
    · exact ⟨r, [], by rw [hnil]; exact .refl, Nat.zero_le _,
        Or.inr ⟨.overflow, by decide, rfl⟩⟩
    · have hpr := hrf.progress h
      rw [← List.append_nil es] at hpr
      refine ⟨r₁, es, hrf, Nat.le_succ_of_le (hpr.length_le h hprod), Or.inl ⟨count, hn, ?_⟩⟩
      rw [← slice_data_eq_take hn]
      rfl
    · refine ⟨r₁, es ++ [e], hrf, ?_, Or.inr ⟨e.status, hst, rfl⟩⟩
      rw [List.length_append, List.length_singleton]
      exact Nat.succ_le_succ ((hrf.progress h).length_le h hprod)
  | takeDelimiter d =>
    refine (takeDelimiter_spec hb h d).bind fun p hp => Sat.ok ?_
    rcases hp with ⟨r₁, es, i, hrf, hprod, hi, rfl⟩ | ⟨r₁, es, hrf, hprod, -, -, rfl⟩ |
      ⟨r₁, es, e, hrf, hprod, -, -, hst, hend⟩
    · have hpr := hrf.progress h
      have hn : i + 1 ≤ r₁.available := by
        rw [← hpr.wf.length_window]
        exact (List.idxOf?_eq_some_iff.1 hi).1
      rw [← List.append_nil es] at hpr
      refine ⟨r₁, es, hrf, Nat.le_succ_of_le (hpr.length_le h hprod), Or.inl ⟨i + 1, hn, ?_⟩⟩
      rw [← slice_data_eq_take hn]
      rfl
    · have hpr := hrf.progress h
      rw [← List.append_nil es] at hpr
      exact ⟨r₁, es, hrf, Nat.le_succ_of_le (hpr.length_le h hprod),
        Or.inr ⟨.overflow, by decide, rfl⟩⟩
    · have hlen : (es ++ [e]).length ≤ r.capacity + 1 := by
        rw [List.length_append, List.length_singleton]
        exact Nat.succ_le_succ ((hrf.progress h).length_le h hprod)
      rcases hend with ⟨-, -, rfl⟩ | ⟨-, rfl⟩
      · refine ⟨r₁, es ++ [e], hrf, hlen, Or.inl ⟨r₁.available, le_rfl, ?_⟩⟩
        rw [← slice_data_eq_take le_rfl]
        rfl
      · exact ⟨r₁, es ++ [e], hrf, hlen, Or.inr ⟨e.status, hst, rfl⟩⟩

/-! ## Runs -/

theorem create_ok (ctx : σ) (data : List UInt8) {capacity : ℕ} (h : 0 < capacity) :
    create ctx data capacity = .ok { ctx, data, pos := 0, len := 0, capacity } := by
  simp [create, check_of h]

theorem wf_create (ctx : σ) {data : List UInt8} {capacity : ℕ} (h : 0 < capacity)
    (hd : capacity ≤ data.length) : Wf { ctx, data, pos := 0, len := 0, capacity } :=
  ⟨le_rfl, Nat.zero_le _, hd, h⟩

@[simp] theorem window_create (ctx : σ) (data : List UInt8) (capacity : ℕ) :
    window { ctx, data, pos := 0, len := 0, capacity } = [] := by
  simp [window, available]

theorem step_wf (hb : vt.Bounded) {r : Reader σ} (h : Wf r) (c : Call) :
    Sat (step vt r c) fun p => Wf p.2 ∧ p.2.capacity = r.capacity := by
  apply (step_spec hb h c).mono
  rintro p ⟨r₁, es, hrf, -, ⟨n, hn, rfl⟩ | ⟨st, -, rfl⟩⟩
  · exact ⟨(hrf.progress h).wf.advance hn, (hrf.progress h).capacity_eq⟩
  · exact ⟨(hrf.progress h).wf, (hrf.progress h).capacity_eq⟩

/-- Every reachable reader is well formed. -/
theorem run_wf (hb : vt.Bounded) (ctx : σ) {data : List UInt8} {capacity : ℕ}
    (hcap : 0 < capacity) (hdata : capacity ≤ data.length) (calls : List Call) :
    Sat (create ctx data capacity >>= fun r => trace (step vt) r calls) fun p =>
      Wf p.2 ∧ p.2.capacity = capacity := by
  rw [create_ok ctx data hcap, ok_bind]
  refine trace_inv (I := fun r => Wf r ∧ r.capacity = capacity) (P := fun _ _ => True) ?_ calls _
    ⟨wf_create ctx hcap hdata, rfl⟩ (along_of_forall (fun _ _ => trivial) calls _)
  rintro r c ⟨hwf, hc⟩ -
  exact (step_wf hb hwf c).mono fun p hp => ⟨hp.1, hp.2.trans hc⟩

end Reader
end K4c
