import Mathlib.Tactic
import Mathlib.Data.Seq.Basic
import K4c.Io.ReaderCalls

/-!
# The buffered reader over a byte stream

A source hands over a stream piece by piece.  Two kinds of sources matter:

* a `StreamSource` is only honest — what it hands over are the next bytes of its
  stream, finite or endless, as many or as few as it likes, with any status.
  `no_byte_lost` says that whatever it answers, the bytes delivered, the bytes in
  the window and the bytes still with the source make up the stream;
* a `ChunkedSource` also makes progress: at least one byte and status OK while
  there is one, then no byte and EOF.  `exact_answers` says that its chunk sizes
  are invisible: the answers are those of `exact`, a reader that has the whole
  stream at hand.
-/

namespace K4c

open Exec Bytes Runs
open Stream' (Seq)

namespace Reader

variable {σ τ : Type}

/-! ## What the source still has -/

/-- When each read takes its bytes off the front of what the source still has,
a sequence of reads takes off the concatenation. -/
theorem Reads.handed_act {vt : ReaderVtable σ} {T : Type} (rest : σ → T)
    (act : List UInt8 → T → T) (hnil : ∀ t, act [] t = t)
    (happ : ∀ a b t, act (a ++ b) t = act a (act b t))
    (hread : ∀ s data capacity, 0 < capacity → rest s =
      act (vt.read s data capacity).1.bytes (rest (vt.read s data capacity).2)) :
    ∀ {es : List ReadEvent} {s s' : σ}, Reads vt s es s' → (∀ e ∈ es, 0 < e.capacity) →
      rest s = act (handed es) (rest s') := by
  intro es
  induction es with
  | nil => intro s s' h _; rw [show s' = s from h, handed_nil, hnil]
  | cons e es ih =>
    intro s s' h hpos
    have hcons : handed (e :: es) = e.result.bytes ++ handed es := List.flatMap_cons
    rw [hread s e.offset e.capacity (hpos e (List.mem_cons_self ..)), h.1, hcons, happ,
      ih h.2 fun e' he' => hpos e' (List.mem_cons_of_mem _ he')]

/-! ## Honest sources -/

/-- A source over a byte stream that may be endless.  A read hands over any
number of the next bytes up to the requested one, and may return any status. -/
structure StreamSource (σ : Type) extends ReaderVtable σ where
  /-- What the source has not handed over yet. -/
  rest : σ → Seq UInt8
  /-- No more bytes than requested. -/
  bounded : toReaderVtable.Bounded
  /-- The bytes handed over are the next ones of the stream. -/
  next : ∀ s data capacity, 0 < capacity → rest s =
    (Seq.ofList (read s data capacity).1.bytes).append (rest (read s data capacity).2)

/-- A finite stream behind a schedule of reads: each one hands over up to the
scheduled number of bytes with the scheduled status, and once the schedule is
used up every read is an IO error. -/
def StreamSource.ofSchedule : StreamSource (List (ℕ × Status) × List UInt8) where
  read s _ capacity :=
    match s with
    | ([], bytes) => (⟨[], .io⟩, ([], bytes))
    | ((n, st) :: plan, bytes) =>
      (⟨bytes.take (min n capacity), st⟩, (plan, bytes.drop (min n capacity)))
  rest s := Seq.ofList s.2
  bounded := by
    rintro ⟨plan, bytes⟩ data capacity _
    cases plan with
    | nil => exact Nat.zero_le _
    | cons e plan => exact (List.length_take_le _ _).trans (min_le_right _ _)
  next := by
    rintro ⟨plan, bytes⟩ data capacity _
    cases plan with
    | nil => simp
    | cons e plan => rw [← Seq.ofList_append, List.take_append_drop]

/-- The stream as the client of the reader sees it: the window, then what the
source still has. -/
def unread (src : StreamSource σ) (r : Reader σ) : Seq UInt8 :=
  (Seq.ofList r.window).append (src.rest r.ctx)

variable {src : StreamSource σ}

/-- Reading moves bytes from the source to the window and changes nothing else. -/
theorem Progress.unread_eq {r r' : Reader σ} {es : List ReadEvent}
    (h : Progress src.toReaderVtable r r' es) : unread src r' = unread src r := by
  have hrest := h.reads.handed_act src.rest
    (fun bs t => (Seq.ofList bs).append t) (fun t => by simp)
    (fun a b t => by rw [Seq.ofList_append, Seq.append_assoc]) src.next
    (fun e he => (h.inside e he).1)
  rw [unread, unread, hrest, h.window_eq, Seq.ofList_append, Seq.append_assoc]

theorem unread_advance {r : Reader σ} {n : ℕ} (w : List UInt8) (hw : r.window.take n = w) :
    unread src r = (Seq.ofList w).append (unread src (r.advance n)) := by
  rw [unread, unread, window_advance, ← Seq.append_assoc, ← Seq.ofList_append, ← hw,
    List.take_append_drop]
  rfl

/-- What a call does to the unread stream: a call that succeeds takes what it
delivers off the front, any other call delivers nothing and leaves it alone. -/
def Accounts (a : Answer) (before after : Seq UInt8) : Prop :=
  (a.status = .ok ∧ ∃ bs, a.out = some bs ∧ before = (Seq.ofList bs).append after) ∨
    (a.status ≠ .ok ∧ a.out = none ∧ after = before)

/-- **Every call accounts for every byte.** -/
theorem step_accounts {r : Reader σ} (h : Wf r) (c : Call) :
    Sat (step src.toReaderVtable r c) fun p =>
      Wf p.2 ∧ p.2.capacity = r.capacity ∧ Accounts p.1 (unread src r) (unread src p.2) := by
  apply (step_spec src.bounded h c).mono
  rintro p ⟨r₁, es, hrf, -, ⟨n, hn, rfl⟩ | ⟨st, hst, rfl⟩⟩
  · have hpr := hrf.progress h
    refine ⟨hpr.wf.advance hn, hpr.capacity_eq, Or.inl ⟨rfl, r₁.window.take n, rfl, ?_⟩⟩
    rw [← hpr.unread_eq, unread_advance _ rfl]
  · have hpr := hrf.progress h
    exact ⟨hpr.wf, hpr.capacity_eq, Or.inr ⟨hst, rfl, hpr.unread_eq⟩⟩

/-- In a run of accounting calls the delivered bytes are what the stream lost. -/
theorem follows_accounts {calls : List Call} : ∀ {answers : List Answer} {t t' : Seq UInt8},
    Follows (fun a (_ : Call) o b => Accounts o a b) t calls answers t' →
      t = (Seq.ofList (answers.flatMap Answer.delivered)).append t' ∧
        ∀ a ∈ answers, a.status ≠ .ok → a.out = none := by
  induction calls with
  | nil =>
    intro answers t t' h
    cases answers with
    | nil => exact ⟨by rw [show t' = t from h]; simp, by simp⟩
    | cons a as => exact absurd h id
  | cons c cs ih =>
    intro answers t t' h
    cases answers with
    | nil => exact absurd h id
    | cons a as =>
      obtain ⟨b, hacc, hrest⟩ := h
      obtain ⟨hb, has⟩ := ih hrest
      rw [List.flatMap_cons, Seq.ofList_append, Seq.append_assoc, ← hb]
      rcases hacc with ⟨hst, bs, hout, rfl⟩ | ⟨hst, hout, rfl⟩
      · refine ⟨by rw [Answer.delivered, hout]; rfl, ?_⟩
        intro a' ha' hne
        rcases List.mem_cons.1 ha' with rfl | ha'
        · exact absurd hst hne
        · exact has a' ha' hne
      · refine ⟨by rw [Answer.delivered, hout]; simp, ?_⟩
        intro a' ha' hne
        rcases List.mem_cons.1 ha' with rfl | ha'
        · exact hout
        · exact has a' ha' hne

/-- **No byte is lost, duplicated or reordered.**  Over an honest source that may
fail at any read and recover later, after any sequence of calls the bytes
delivered so far, the window and what the source has not handed over make up the
original stream; only calls with status OK delivered anything; and the next call
again either takes what it delivers off the front of the unread stream, or
delivers nothing and leaves the unread stream as it was. -/
theorem no_byte_lost (src : StreamSource σ) (ctx : σ) (data : List UInt8) (capacity : ℕ)
    (hcap : 0 < capacity) (hdata : capacity ≤ data.length) (calls : List Call) :
    Sat (create ctx data capacity >>= fun r => trace (step src.toReaderVtable) r calls) fun p =>
      (Seq.ofList (p.1.flatMap Answer.delivered)).append
          ((Seq.ofList (slice p.2.data p.2.pos (p.2.len - p.2.pos))).append (src.rest p.2.ctx))
        = src.rest ctx ∧
      (∀ a ∈ p.1, a.status ≠ .ok → a.out = none) ∧
      p.2.pos ≤ p.2.len ∧ p.2.len ≤ p.2.capacity ∧ p.2.capacity = capacity ∧
      ∀ c, Sat (step src.toReaderVtable p.2 c) fun q =>
        Accounts q.1 (unread src p.2) (unread src q.2) := by
  rw [create_ok ctx data hcap, ok_bind]
  have hstart : unread src { ctx, data, pos := 0, len := 0, capacity } = src.rest ctx := by
    simp [unread]
  refine (trace_refines (P := fun _ _ => True)
    (T := fun a (_ : Call) o b => Accounts o a b)
    (R := fun r t => Wf r ∧ r.capacity = capacity ∧ t = unread src r) ?_ calls _ _
    ⟨wf_create ctx hcap hdata, rfl, rfl⟩ (along_of_forall (fun _ _ => trivial) calls _)).mono ?_
  · rintro r t c ⟨hwf, hc, rfl⟩ -
    exact (step_accounts hwf c).mono fun p hp =>
      ⟨unread src p.2, hp.2.2, hp.1, hp.2.1.trans hc, rfl⟩
  · rintro p ⟨t, hfol, hwf, hc, rfl⟩
    obtain ⟨hall, hnone⟩ := follows_accounts hfol
    refine ⟨by rw [← hstart, hall]; rfl, hnone, hwf.pos_le, hwf.len_le, hc, fun c => ?_⟩
    exact (step_accounts hwf c).mono fun q hq => hq.2.2

/-- An IO error after the first byte, then the rest. -/
theorem no_byte_lost_io_error :
    Sat (create ([(1, .io), (0, .io), (2, .ok)], [97, 10, 98]) [0, 0] 2 >>= fun r =>
        trace (step StreamSource.ofSchedule.toReaderVtable) r
          [.takeDelimiter 10, .takeDelimiter 10, .takeByte]) fun p =>
      (Seq.ofList (p.1.flatMap Answer.delivered)).append
          ((Seq.ofList (slice p.2.data p.2.pos (p.2.len - p.2.pos))).append
            (StreamSource.ofSchedule.rest p.2.ctx)) = Seq.ofList [97, 10, 98] ∧
      (∀ a ∈ p.1, a.status ≠ .ok → a.out = none) ∧
      p.2.pos ≤ p.2.len ∧ p.2.len ≤ p.2.capacity ∧ p.2.capacity = 2 ∧
      ∀ c, Sat (step StreamSource.ofSchedule.toReaderVtable p.2 c) fun q =>
        Accounts q.1 (unread StreamSource.ofSchedule p.2) (unread StreamSource.ofSchedule q.2) :=
  no_byte_lost StreamSource.ofSchedule ([(1, .io), (0, .io), (2, .ok)], [97, 10, 98]) [0, 0] 2
    (by decide) (by decide) [.takeDelimiter 10, .takeDelimiter 10, .takeByte]

/-! ## Sources that make progress -/

/-- A source over a finite stream: while bytes remain, a read hands over between
one and the requested number of them with status OK, and after that no byte with
status EOF. -/
structure ChunkedSource (σ : Type) extends ReaderVtable σ where
  /-- What the source has not handed over yet. -/
  rest : σ → List UInt8
  /-- While bytes remain, some of them come. -/
  more : ∀ s data capacity, 0 < capacity → rest s ≠ [] → ∃ k, 1 ≤ k ∧ k ≤ capacity ∧
    k ≤ (rest s).length ∧ (read s data capacity).1 = ⟨(rest s).take k, .ok⟩ ∧
    rest (read s data capacity).2 = (rest s).drop k
  /-- After that, none. -/
  ended : ∀ s data capacity, rest s = [] →
    (read s data capacity).1 = ⟨[], .eof⟩ ∧ rest (read s data capacity).2 = []

/-- The source that hands over `k + 1` bytes at a time, while it can. -/
def ChunkedSource.ofChunk (k : ℕ) : ChunkedSource (List UInt8) where
  read s _ capacity :=
    if s = [] then (⟨[], .eof⟩, [])
    else (⟨s.take (min (k + 1) capacity), .ok⟩, s.drop (min (k + 1) capacity))
  rest s := s
  more s data capacity hc hs := by
    have hlen := List.length_pos_of_ne_nil hs
    refine ⟨min (min (k + 1) capacity) s.length, by omega, by omega, by omega, ?_⟩
    rw [if_neg hs]
    rcases le_total (min (k + 1) capacity) s.length with h | h
    · rw [min_eq_left h]
      exact ⟨rfl, rfl⟩
    · rw [min_eq_right h, List.take_of_length_le h, List.drop_eq_nil_of_le h]
      simp
  ended s data capacity hs := by
    rw [if_pos hs]
    exact ⟨rfl, rfl⟩

/-- A source that makes progress hands over the next bytes. -/
theorem ChunkedSource.next (src : ChunkedSource σ) (s : σ) (data capacity : ℕ)
    (hc : 0 < capacity) : src.rest s =
      (src.read s data capacity).1.bytes ++ src.rest (src.read s data capacity).2 := by
  by_cases hs : src.rest s = []
  · obtain ⟨h1, h2⟩ := src.ended s data capacity hs
    rw [h1, h2, hs]
    rfl
  · obtain ⟨k, -, -, -, h1, h2⟩ := src.more s data capacity hc hs
    rw [h1, h2]
    exact (List.take_append_drop k _).symm

theorem ChunkedSource.bounded (src : ChunkedSource σ) : src.toReaderVtable.Bounded := by
  intro s data capacity hc
  by_cases hs : src.rest s = []
  · rw [(src.ended s data capacity hs).1]
    exact Nat.zero_le _
  · obtain ⟨k, -, hk, -, h1, -⟩ := src.more s data capacity hc hs
    rw [h1]
    exact (List.length_take_le _ _).trans hk

/-- A source that makes progress is honest. -/
def ChunkedSource.toStreamSource (src : ChunkedSource σ) : StreamSource σ where
  toReaderVtable := src.toReaderVtable
  rest s := Seq.ofList (src.rest s)
  bounded := src.bounded
  next s data capacity hc := by rw [← Seq.ofList_append, ← src.next s data capacity hc]

/-- A read that brings nothing means that the stream has ended. -/
theorem ChunkedSource.status_of_failed (src : ChunkedSource σ) {e : ReadEvent}
    (he : e.status ≠ .ok) : ∀ {es : List ReadEvent} {s s' : σ},
      Reads src.toReaderVtable s (es ++ [e]) s' → (∀ e' ∈ es ++ [e], 0 < e'.capacity) →
        e.status = .eof ∧ src.rest s' = [] := by
  intro es
  induction es with
  | nil =>
    rintro s s' ⟨h1, rfl⟩ hpos
    by_cases hs : src.rest s = []
    · obtain ⟨h2, h3⟩ := src.ended s e.offset e.capacity hs
      refine ⟨?_, h3⟩
      rw [ReadEvent.status, ← h1, h2]
      rfl
    · obtain ⟨k, hk, -, hle, h2, -⟩ := src.more s e.offset e.capacity (hpos e (by simp)) hs
      refine absurd (ReadEvent.status_eq_ok_iff.2 ?_) he
      rw [← h1, h2]
      apply List.ne_nil_of_length_pos
      rw [List.length_take]
      omega
  | cons e' es ih =>
    rintro s s' ⟨-, h⟩ hpos
    exact ih h fun x hx => hpos x (List.mem_cons_of_mem _ hx)

/-! ## The reader with the whole stream at hand -/

/-- What a call answers when `rest` is all that has not been delivered, and what
is left of it: no buffer, no source, no chunks. -/
def exact (capacity : ℕ) (rest : List UInt8) : Call → Answer × List UInt8
  | .takeByte =>
    match rest with
    | [] => (⟨.eof, none⟩, [])
    | b :: rest => (⟨.ok, some [b]⟩, rest)
  | .takeArray count =>
    if capacity < count then (⟨.overflow, none⟩, rest)
    else if count ≤ rest.length then (⟨.ok, some (rest.take count)⟩, rest.drop count)
    else (⟨.eof, none⟩, rest)
  | .takeDelimiter d =>
    match (rest.take capacity).idxOf? d with
    | some i => (⟨.ok, some (rest.take (i + 1))⟩, rest.drop (i + 1))
    | none =>
      if capacity ≤ rest.length then (⟨.overflow, none⟩, rest)
      else if rest = [] then (⟨.eof, none⟩, [])
      else (⟨.ok, some rest⟩, [])

/-- The answers of `exact` to a sequence of calls. -/
def exactRun (capacity : ℕ) (rest : List UInt8) : List Call → List Answer
  | [] => []
  | c :: cs => (exact capacity rest c).1 :: exactRun capacity (exact capacity rest c).2 cs

/-- A delimiter in the front part of the first `n` bytes is found there. -/
theorem idxOf?_take_append {w v : List UInt8} {n : ℕ} (hn : w.length ≤ n) {d : UInt8} {i : ℕ}
    (h : w.idxOf? d = some i) : ((w ++ v).take n).idxOf? d = some i := by
  rw [List.take_append, List.take_of_length_le hn, List.idxOf?, List.findIdx?_append,
    ← List.idxOf?, h]
  rfl

/-- The undelivered bytes of a finite stream. -/
def remaining (src : ChunkedSource σ) (r : Reader σ) : List UInt8 := r.window ++ src.rest r.ctx

theorem Progress.remaining_eq {src : ChunkedSource σ} {r r' : Reader σ} {es : List ReadEvent}
    (h : Progress src.toReaderVtable r r' es) : remaining src r' = remaining src r := by
  have hrest := h.reads.handed_act src.rest (fun bs t => bs ++ t)
    (fun t => rfl) (fun a b t => List.append_assoc a b t) src.next (fun e he => (h.inside e he).1)
  rw [remaining, remaining, hrest, h.window_eq, List.append_assoc]

theorem remaining_advance {src : ChunkedSource σ} {r : Reader σ} {n : ℕ}
    (hn : n ≤ r.window.length) : remaining src (r.advance n) = (remaining src r).drop n := by
  rw [remaining, window_advance, remaining, List.drop_append_of_le_length hn]
  rfl

/-- A call that stops at a read that brings nothing has seen the whole stream. -/
theorem Progress.remaining_of_failed {src : ChunkedSource σ} {r r₁ : Reader σ}
    {es : List ReadEvent} {e : ReadEvent} (h : Progress src.toReaderVtable r r₁ (es ++ [e]))
    (hst : e.status ≠ .ok) :
    e.status = .eof ∧ remaining src r = r₁.window ∧ remaining src r₁ = r₁.window := by
  obtain ⟨heof, hnil⟩ := src.status_of_failed hst h.reads fun e' he => (h.inside e' he).1
  have hrem : remaining src r₁ = r₁.window := by rw [remaining, hnil, List.append_nil]
  exact ⟨heof, by rw [← h.remaining_eq, hrem], hrem⟩

/-- The call `c` of the reader `r` answers as if the whole stream were at hand. -/
def Exactly (src : ChunkedSource σ) (r : Reader σ) (c : Call) (p : Answer × Reader σ) : Prop :=
  Wf p.2 ∧ p.2.capacity = r.capacity ∧
    (p.1, remaining src p.2) = exact r.capacity (remaining src r) c

section Exact

variable {src : ChunkedSource σ} {r : Reader σ}

theorem takeByte_exact (h : Wf r) :
    Sat (step src.toReaderVtable r .takeByte) (Exactly src r .takeByte) := by
  refine (takeByte_spec src.bounded h).bind fun p hp => Sat.ok ?_
  rcases hp with ⟨r₁, es, b, hrf, -, hb, rfl⟩ | ⟨r₁, e, hrf, hw, hst, rfl⟩
  · have hpr := hrf.progress h
    have hlen := hpr.wf.length_window
    cases hw : r₁.window with
    | nil => rw [hw] at hb; cases hb
    | cons b' w =>
      rw [hw] at hb hlen
      cases hb
      have hone : 1 ≤ r₁.window.length := by simp [hw]
      refine ⟨hpr.wf.advance (by rw [← hpr.wf.length_window]; exact hone), hpr.capacity_eq, ?_⟩
      rw [remaining_advance hone, ← hpr.remaining_eq, remaining, hw]
      rfl
  · have hpr := hrf.progress h
    rw [← List.nil_append [e]] at hpr
    obtain ⟨heof, hrem, hrem₁⟩ := hpr.remaining_of_failed hst
    have hnil : r₁.window = [] := by
      rw [hpr.window_eq, hw]
      simpa using handed_snoc_of_failed [] hst
    refine ⟨hpr.wf, hpr.capacity_eq, ?_⟩
    rw [hrem, hrem₁, hnil, heof]
    rfl

theorem takeArray_exact (h : Wf r) (count : ℕ) :
    Sat (step src.toReaderVtable r (.takeArray count)) (Exactly src r (.takeArray count)) := by
  refine (takeArray_spec src.bounded h count).bind fun p hp => Sat.ok ?_
  rcases hp with ⟨hbig, -, rfl⟩ | ⟨r₁, es, hle, hrf, -, -, hn, rfl⟩ |
    ⟨r₁, es, e, hle, hrf, -, hst, hlt, rfl⟩
  · refine ⟨h, rfl, ?_⟩
    rw [exact, if_pos hbig]
    rfl
  · have hpr := hrf.progress h
    have hn' : count ≤ r₁.window.length := by rwa [hpr.wf.length_window]
    have htake : (remaining src r₁).take count = r₁.window.take count :=
      List.take_append_of_le_length hn'
    refine ⟨hpr.wf.advance hn, hpr.capacity_eq, ?_⟩
    rw [exact, if_neg (by omega), if_pos, remaining_advance hn', ← hpr.remaining_eq, htake,
      ← slice_data_eq_take hn]
    · rfl
    · rw [← hpr.remaining_eq, remaining, List.length_append]
      omega
  · have hpr := hrf.progress h
    obtain ⟨heof, hrem, hrem₁⟩ := hpr.remaining_of_failed hst
    refine ⟨hpr.wf, hpr.capacity_eq, ?_⟩
    rw [exact, if_neg (by omega), if_neg, hrem, hrem₁, heof]
    · rfl
    · rw [hrem, hpr.wf.length_window]
      omega

theorem takeDelimiter_exact (h : Wf r) (d : UInt8) :
    Sat (step src.toReaderVtable r (.takeDelimiter d)) (Exactly src r (.takeDelimiter d)) := by
  refine (takeDelimiter_spec src.bounded h d).bind fun p hp => Sat.ok ?_
  rcases hp with ⟨r₁, es, i, hrf, -, hi, rfl⟩ | ⟨r₁, es, hrf, -, hnot, hfull, rfl⟩ |
    ⟨r₁, es, e, hrf, -, hnot, hlt, hst, hcase⟩
  · have hpr := hrf.progress h
    have hn : i + 1 ≤ r₁.window.length := (List.idxOf?_eq_some_iff.1 hi).1
    have hn' : i + 1 ≤ r₁.available := by rwa [← hpr.wf.length_window]
    have hcap : r₁.window.length ≤ r.capacity := by
      rw [hpr.wf.length_window, ← hpr.capacity_eq]
      exact hpr.wf.available_le
    have htake : (remaining src r₁).take (i + 1) = r₁.window.take (i + 1) :=
      List.take_append_of_le_length hn
    refine ⟨hpr.wf.advance hn', hpr.capacity_eq, ?_⟩
    simp only [exact, ← hpr.remaining_eq]
    rw [show ((remaining src r₁).take r.capacity).idxOf? d = some i from
      idxOf?_take_append hcap hi, remaining_advance hn]
    dsimp only
    rw [htake, ← slice_data_eq_take hn']
    rfl
  · have hpr := hrf.progress h
    have htake : (remaining src r).take r.capacity = r₁.window := by
      rw [← hpr.remaining_eq, remaining, List.take_left' (by rw [hpr.wf.length_window, hfull])]
    refine ⟨hpr.wf, hpr.capacity_eq, ?_⟩
    simp only [exact, htake, List.idxOf?_eq_none_iff.2 hnot]
    rw [if_pos, hpr.remaining_eq]
    · rfl
    · rw [← hpr.remaining_eq, remaining, List.length_append, hpr.wf.length_window]
      omega
  · have hpr := hrf.progress h
    obtain ⟨heof, hrem, hrem₁⟩ := hpr.remaining_of_failed hst
    have hlen := hpr.wf.length_window
    have htake : (r₁.window).take r.capacity = r₁.window := List.take_of_length_le (by omega)
    simp only [Exactly, exact, hrem, htake, List.idxOf?_eq_none_iff.2 hnot]
    rw [if_neg (by omega)]
    rcases hcase with ⟨-, hpos₁, rfl⟩ | ⟨hz, rfl⟩
    · have hne : r₁.window ≠ [] := List.ne_nil_of_length_pos (by omega)
      refine ⟨hpr.wf.advance le_rfl, hpr.capacity_eq, ?_⟩
      rw [if_neg hne, remaining_advance (by omega), hrem₁, List.drop_eq_nil_of_le (by omega)]
      rfl
    · have hnil : r₁.window = [] := List.length_eq_zero_iff.1 (by rw [hlen, hz heof])
      refine ⟨hpr.wf, hpr.capacity_eq, ?_⟩
      rw [if_pos hnil, hrem₁, hnil, heof]
      rfl

/-- **Every call answers as if the whole stream were at hand.** -/
theorem step_exact (h : Wf r) (c : Call) :
    Sat (step src.toReaderVtable r c) (Exactly src r c) := by
  cases c with
  | takeByte => exact takeByte_exact h
  | takeArray count => exact takeArray_exact h count
  | takeDelimiter d => exact takeDelimiter_exact h d

end Exact

theorem follows_exact {capacity : ℕ} {calls : List Call} :
    ∀ {answers : List Answer} {rest rest' : List UInt8},
      Follows (fun a c o b => (o, b) = exact capacity a c) rest calls answers rest' →
        answers = exactRun capacity rest calls := by
  induction calls with
  | nil =>
    intro answers rest rest' h
    cases answers with
    | nil => rfl
    | cons a as => exact absurd h id
  | cons c cs ih =>
    intro answers rest rest' h
    cases answers with
    | nil => exact absurd h id
    | cons a as =>
      obtain ⟨b, hab, hrest⟩ := h
      rw [exactRun, ← hab, ih hrest]

/-- A run over a source that makes progress has the answers of `exact`. -/
theorem trace_exact (src : ChunkedSource σ) (ctx : σ) {data : List UInt8} {capacity : ℕ}
    (hcap : 0 < capacity) (hdata : capacity ≤ data.length) (calls : List Call) :
    Sat (create ctx data capacity >>= fun r => trace (step src.toReaderVtable) r calls) fun p =>
      p.1 = exactRun capacity (src.rest ctx) calls := by
  rw [create_ok ctx data hcap, ok_bind]
  refine (trace_refines (P := fun _ _ => True)
    (T := fun a c o b => (o, b) = exact capacity a c)
    (R := fun r t => Wf r ∧ r.capacity = capacity ∧ t = remaining src r) ?_ calls _ (src.rest ctx)
    ⟨wf_create ctx hcap hdata, rfl, by simp [remaining]⟩
    (along_of_forall (fun _ _ => trivial) calls _)).mono ?_
  · rintro r t c ⟨hwf, hc, rfl⟩ -
    refine (step_exact hwf c).mono fun p hp => ⟨remaining src p.2, ?_, hp.1, hp.2.1.trans hc, rfl⟩
    rw [hp.2.2, hc]
  · rintro p ⟨t, hfol, -⟩
    exact follows_exact hfol

/-- **The chunk sizes of the source are invisible.**  Over a source that makes
progress, every sequence of calls gets the answers of a reader that has the
whole stream at hand; so any two sources over one stream get the same answers,
however differently they cut it. -/
theorem exact_answers (src : ChunkedSource σ) (src' : ChunkedSource τ) (ctx : σ) (ctx' : τ)
    (data data' : List UInt8) (capacity : ℕ) (hcap : 0 < capacity) (hdata : capacity ≤ data.length)
    (hdata' : capacity ≤ data'.length) (hsame : src.rest ctx = src'.rest ctx')
    (calls : List Call) :
    Sat (create ctx data capacity >>= fun r => trace (step src.toReaderVtable) r calls) fun p =>
      p.1 = exactRun capacity (src.rest ctx) calls ∧
      Sat (create ctx' data' capacity >>= fun r => trace (step src'.toReaderVtable) r calls)
        fun q => q.1 = p.1 := by
  refine (trace_exact src ctx hcap hdata calls).mono fun p hp => ⟨hp, ?_⟩
  rw [hp, hsame]
  exact trace_exact src' ctx' hcap hdata' calls

/-- One byte at a time and a whole buffer at a time read the same lines. -/
theorem exact_answers_two_chunkings :
    Sat (create [97, 10, 98] [0, 0] 2 >>= fun r =>
        trace (step (ChunkedSource.ofChunk 0).toReaderVtable) r
          [.takeDelimiter 10, .takeDelimiter 10])
      fun p => p.1 = exactRun 2 [97, 10, 98] [.takeDelimiter 10, .takeDelimiter 10] ∧
        Sat (create [97, 10, 98] [0, 0] 2 >>= fun r =>
          trace (step (ChunkedSource.ofChunk 7).toReaderVtable) r
            [.takeDelimiter 10, .takeDelimiter 10])
          fun q => q.1 = p.1 :=
  exact_answers (ChunkedSource.ofChunk 0) (ChunkedSource.ofChunk 7) [97, 10, 98] [97, 10, 98]
    [0, 0] [0, 0] 2 (by decide) (by decide) (by decide) rfl [.takeDelimiter 10, .takeDelimiter 10]

end Reader
end K4c
