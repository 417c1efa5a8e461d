import Mathlib.Tactic
import K4c.Lib.Pieces
import K4c.Io.ReaderStream

/-!
# Reading a stream line by line

`k4c_reader_take_delimiter`, called again and again, and the end of a stream.

* `lines_exact` — **the pieces of the stream are delivered in order**, up to the first one
  that does not fit in the buffer; then the answer is EOF or OVERFLOW for good.
* `Ends`, `step_ends` — **the end is the end**: over a source that reports it only when it
  has nothing left, so does the reader, and only then is a last piece delivered that lacks
  its delimiter.
-/

namespace K4c.Reader

open Exec Bytes Runs Pieces
open Stream' (Seq)

variable {σ : Type}

/-! ## Pieces -/

/-- The buffer has room for the piece, and for another byte if the piece lacks the
delimiter. -/
def Fits (capacity : ℕ) (d : UInt8) (p : List UInt8) : Prop :=
  p.length < capacity ∨ p.length = capacity ∧ d ∈ p

instance (capacity : ℕ) (d : UInt8) (p : List UInt8) : Decidable (Fits capacity d p) :=
  inferInstanceAs (Decidable (_ ∨ _))

/-- The pieces that can be delivered. -/
def deliverable (capacity : ℕ) (d : UInt8) (pieces : List (List UInt8)) : List (List UInt8) :=
  pieces.takeWhile fun p => decide (Fits capacity d p)

/-- The answer to a call of `takeDelimiter` after `i` others. -/
def lineAnswer (capacity : ℕ) (d : UInt8) (pieces : List (List UInt8)) (i : ℕ) : Answer :=
  match (deliverable capacity d pieces)[i]? with
  | some p => ⟨.ok, some p⟩
  | none =>
    if deliverable capacity d pieces = pieces then ⟨.eof, none⟩ else ⟨.overflow, none⟩

variable {capacity i : ℕ} {d : UInt8} {p rest : List UInt8} {ps : List (List UInt8)}

theorem deliverable_cons (h : Fits capacity d p) :
    deliverable capacity d (p :: ps) = p :: deliverable capacity d ps :=
  List.takeWhile_cons_of_pos (by simpa using h)

theorem lineAnswer_zero (h : Fits capacity d p) :
    lineAnswer capacity d (p :: ps) 0 = ⟨.ok, some p⟩ := by
  rw [lineAnswer, deliverable_cons h]
  rfl

theorem lineAnswer_succ (h : Fits capacity d p) (i : ℕ) :
    lineAnswer capacity d (p :: ps) (i + 1) = lineAnswer capacity d ps i := by
  rw [lineAnswer, lineAnswer, deliverable_cons h, List.getElem?_cons_succ]
  simp

theorem lineAnswer_of_not_fits (h : ¬ Fits capacity d p) (i : ℕ) :
    lineAnswer capacity d (p :: ps) i = ⟨.overflow, none⟩ := by
  have hnil : deliverable capacity d (p :: ps) = [] :=
    List.takeWhile_cons_of_neg (by simpa using h)
  rw [lineAnswer, hnil]
  rfl

/-- Pieces that all fit are delivered, and then the end is told. -/
theorem map_lineAnswer (h : ∀ p ∈ ps, Fits capacity d p) :
    (List.range (ps.length + 1)).map (lineAnswer capacity d ps) =
      ps.map (fun p => ⟨.ok, some p⟩) ++ [⟨.eof, none⟩] := by
  induction ps with
  | nil => rfl
  | cons p ps ih =>
    have hp : Fits capacity d p := h p (List.mem_cons_self ..)
    have hsucc : lineAnswer capacity d (p :: ps) ∘ Nat.succ = lineAnswer capacity d ps :=
      funext (lineAnswer_succ hp)
    rw [List.length_cons, List.range_succ_eq_map, List.map_cons, List.map_map, hsucc,
      ih fun p' hp' => h p' (List.mem_cons_of_mem _ hp'), lineAnswer_zero hp]
    rfl

/-- The delimiter is looked for among the bytes that fit in the buffer. -/
theorem idxOf?_take (l : List UInt8) (n : ℕ) (d : UInt8) :
    (l.take n).idxOf? d = (l.idxOf? d).bind (Option.guard fun i => i < n) :=
  List.findIdx?_take

/-- **One call** delivers the first piece, if it fits. -/
theorem exact_takeDelimiter (capacity : ℕ) (hp : pieces d rest = p :: ps) :
    (Fits capacity d p → (exact capacity rest (.takeDelimiter d)).1 = ⟨.ok, some p⟩ ∧
      pieces d (exact capacity rest (.takeDelimiter d)).2 = ps) ∧
    (¬ Fits capacity d p →
      exact capacity rest (.takeDelimiter d) = (⟨.overflow, none⟩, rest)) := by
  have hne : rest ≠ [] := by
    rintro rfl
    cases hp
  rw [exact, idxOf?_take]
  cases hidx : rest.idxOf? d with
  | some i =>
    obtain ⟨hlt, hget, -⟩ := List.idxOf?_eq_some_iff.1 hidx
    rw [pieces_cons hidx] at hp
    obtain ⟨rfl, rfl⟩ := List.cons.inj hp
    have hmem : d ∈ rest.take (i + 1) := by
      rw [← hget]
      exact List.mem_take_iff_getElem.2 ⟨i, by omega, rfl⟩
    have hlen : (rest.take (i + 1)).length = i + 1 := by
      rw [List.length_take]
      omega
    by_cases hi : i < capacity
    · have hguard : Option.guard (fun i => decide (i < capacity)) i = some i := by simp [hi]
      rw [Option.bind_some, hguard]
      refine ⟨fun _ => ⟨rfl, rfl⟩, fun h => absurd ?_ h⟩
      rw [Fits, hlen]
      rcases Nat.lt_or_ge (i + 1) capacity with h | h
      · exact .inl h
      · exact .inr ⟨by omega, hmem⟩
    · have hguard : Option.guard (fun i => decide (i < capacity)) i = none := by simp [hi]
      rw [Option.bind_some, hguard]
      refine ⟨fun h => ?_, fun _ => if_pos (by omega)⟩
      rw [Fits, hlen] at h
      omega
  | none =>
    have hnot : d ∉ rest := List.idxOf?_eq_none_iff.1 hidx
    rw [pieces_of_notMem hne hnot] at hp
    obtain ⟨rfl, rfl⟩ := List.cons.inj hp
    rw [Option.bind_none]
    dsimp only
    refine ⟨fun h => ?_, fun h => if_pos ?_⟩
    · have hlt : rest.length < capacity := h.resolve_right fun h => hnot h.2
      rw [if_neg (by omega), if_neg hne]
      exact ⟨rfl, rfl⟩
    · rw [Fits, not_or] at h
      omega

/-- **The pieces come in order.** -/
theorem exactRun_lines (hcap : 0 < capacity) (d : UInt8) (k : ℕ) : ∀ rest : List UInt8,
    exactRun capacity rest (List.replicate k (.takeDelimiter d)) =
      (List.range k).map (lineAnswer capacity d (pieces d rest)) := by
  induction k with
  | zero => intro rest; rfl
  | succ k ih =>
    intro rest
    rw [List.replicate_succ, exactRun, ih, List.range_succ_eq_map, List.map_cons, List.map_map]
    cases hp : pieces d rest with
    | nil =>
      obtain rfl : rest = [] := List.splitBy_eq_nil.1 hp
      have hexact : exact capacity [] (.takeDelimiter d) = (⟨.eof, none⟩, []) := by
        rw [exact, List.take_nil, List.idxOf?_nil]
        dsimp only
        rw [if_neg (by simp; omega), if_pos rfl]
      rw [hexact]
      congr 1
    | cons p ps =>
      obtain ⟨hfits, hnot⟩ := exact_takeDelimiter capacity hp
      by_cases h : Fits capacity d p
      · obtain ⟨hans, hrest⟩ := hfits h
        rw [hans, hrest, lineAnswer_zero h]
        congr 1
        exact List.map_congr_left fun i _ => (lineAnswer_succ h i).symm
      · rw [hnot h, lineAnswer_of_not_fits h]
        congr 1
        refine List.map_congr_left fun i _ => ?_
        rw [hp, lineAnswer_of_not_fits h, Function.comp, lineAnswer_of_not_fits h]

/-- **A stream is delivered line by line.**  Over any source that makes progress, however it
cuts the stream, the first calls of `takeDelimiter` deliver its pieces in order, each with
its delimiter, the last one also without; after them every call answers EOF.  At the first
piece that does not fit in the buffer, for which a piece without its delimiter needs a byte
more, every call answers OVERFLOW. -/
theorem lines_delivered (src : ChunkedSource σ) (ctx : σ) (data : List UInt8) (capacity : ℕ)
    (hcap : 0 < capacity) (hdata : capacity ≤ data.length) (d : UInt8) (k : ℕ) :
    Sat (create ctx data capacity >>= fun r =>
        trace (step src.toReaderVtable) r (List.replicate k (.takeDelimiter d))) fun p =>
      p.1 = (List.range k).map (lineAnswer capacity d (pieces d (src.rest ctx))) :=
  (trace_exact src ctx hcap hdata _).mono fun _ h => h.trans (exactRun_lines hcap d k _)

/-- A line of three bytes in a buffer of three, and three more without an end. -/
theorem lines_delivered_unterminated :
    Sat (create [97, 98, 10, 99, 100, 101] [0, 0, 0] 3 >>= fun r =>
        trace (step (ChunkedSource.ofChunk 1).toReaderVtable) r
          (List.replicate 3 (.takeDelimiter 10))) fun p =>
      p.1 = (List.range 3).map
        (lineAnswer 3 10 (pieces 10 ((ChunkedSource.ofChunk 1).rest [97, 98, 10, 99, 100, 101]))) :=
  lines_delivered (ChunkedSource.ofChunk 1) [97, 98, 10, 99, 100, 101] [0, 0, 0] 3 (by decide)
    (by decide) 10 3

example : (List.range 3).map (lineAnswer 3 10 (pieces 10 [97, 98, 10, 99, 100, 101])) =
    [⟨.ok, some [97, 98, 10]⟩, ⟨.overflow, none⟩, ⟨.overflow, none⟩] := by decide

/-! ## The end -/

/-- The source reports the end only when it has nothing left. -/
def Ends (src : StreamSource σ) : Prop :=
  ∀ s data capacity, 0 < capacity → (src.read s data capacity).1.bytes = [] →
    ((src.read s data capacity).1.status = .ok ∨ (src.read s data capacity).1.status = .eof) →
      src.rest (src.read s data capacity).2 = Seq.nil

/-- The last one of some reads. -/
theorem Reads.last {vt : ReaderVtable σ} {e : ReadEvent} : ∀ {es : List ReadEvent} {s s' : σ},
    Reads vt s (es ++ [e]) s' → ∃ t, vt.read t e.offset e.capacity = (e.result, s') := by
  intro es
  induction es with
  | nil =>
    rintro s s' ⟨h, rfl⟩
    exact ⟨s, Prod.ext h rfl⟩
  | cons e' es ih =>
    intro s s' h
    exact ih h.2

theorem result_of_eof {e : ReadEvent} (h : e.status = .eof) :
    e.result.bytes = [] ∧ (e.result.status = .ok ∨ e.result.status = .eof) := by
  unfold ReadEvent.status at h
  split at h
  · cases h
  · rename_i hlen
    refine ⟨List.length_eq_zero_iff.1 (by omega), ?_⟩
    split at h
    · exact .inl ‹_›
    · exact .inr h

variable {src : StreamSource σ} {r : Reader σ}

/-- Where the last read reported the end, the source has nothing left. -/
theorem Progress.rest_of_eof {r₁ : Reader σ} {es : List ReadEvent} {e : ReadEvent}
    (hends : Ends src) (h : Progress src.toReaderVtable r r₁ (es ++ [e])) (heof : e.status = .eof) :
    src.rest r₁.ctx = Seq.nil := by
  obtain ⟨t, hread⟩ := h.reads.last
  obtain ⟨hbytes, hstatus⟩ := result_of_eof heof
  have hend := hends t e.offset e.capacity (h.inside e (by simp)).1
  rw [hread] at hend
  exact hend hbytes hstatus

/-- The call `c` told of the end, or delivered a piece that lacks its delimiter, at the end
of the stream only. -/
def AtEnd (src : StreamSource σ) (c : Call) (p : Answer × Reader σ) : Prop :=
  (p.1.status = .eof → src.rest p.2.ctx = Seq.nil) ∧
    ∀ d, c = .takeDelimiter d → p.1.status = .ok → d ∉ p.1.delivered → unread src p.2 = Seq.nil

/-- **The end is the end.** -/
theorem step_ends (hends : Ends src) (h : Wf r) (c : Call) :
    Sat (step src.toReaderVtable r c) (AtEnd src c) := by
  cases c with
  | takeByte =>
    refine (takeByte_spec src.bounded h).bind fun p hp => Sat.ok ⟨?_, nofun⟩
    rcases hp with ⟨r₁, es, b, -, -, -, rfl⟩ | ⟨r₁, e, hrf, -, -, rfl⟩
    · exact nofun
    · have hpr := hrf.progress h
      rw [← List.nil_append [e]] at hpr
      exact hpr.rest_of_eof hends
  | takeArray count =>
    refine (takeArray_spec src.bounded h count).bind fun p hp => Sat.ok ⟨?_, nofun⟩
    rcases hp with ⟨-, -, rfl⟩ | ⟨r₁, es, -, -, -, -, -, rfl⟩ | ⟨r₁, es, e, -, hrf, -, -, -, rfl⟩
    · exact nofun
    · exact nofun
    · exact (hrf.progress h).rest_of_eof hends
  | takeDelimiter d =>
    refine (takeDelimiter_spec src.bounded h d).bind fun p hp => Sat.ok ?_
    rcases hp with ⟨r₁, es, i, hrf, -, hi, rfl⟩ | ⟨r₁, es, -, -, -, -, rfl⟩ |
      ⟨r₁, es, e, hrf, -, -, -, hst, hcase⟩
    · -- the delimiter was found, and is delivered
      refine ⟨nofun, fun d' hd _ hnot => absurd ?_ hnot⟩
      cases hd
      obtain ⟨hlt, hget, -⟩ := List.idxOf?_eq_some_iff.1 hi
      have hle : i + 1 ≤ r₁.available := by rwa [← (hrf.progress h).wf.length_window]
      show d ∈ slice (r₁.advance (i + 1)).data r₁.pos (i + 1)
      rw [show (r₁.advance (i + 1)).data = r₁.data from rfl, slice_data_eq_take hle, ← hget]
      exact List.mem_take_iff_getElem.2 ⟨i, by omega, rfl⟩
    · exact ⟨nofun, fun _ _ => nofun⟩
    · have hpr := hrf.progress h
      rcases hcase with ⟨heof, -, rfl⟩ | ⟨-, rfl⟩
      · -- the last piece takes all of the window
        refine ⟨nofun, fun _ _ _ _ => ?_⟩
        have hwindow : (r₁.advance r₁.available).window = [] := by
          rw [window_advance, ← hpr.wf.length_window, List.drop_length]
        show unread src (r₁.advance r₁.available) = Seq.nil
        rw [unread, hwindow, show (r₁.advance r₁.available).ctx = r₁.ctx from rfl,
          hpr.rest_of_eof hends heof]
        simp
      · exact ⟨fun heof => hpr.rest_of_eof hends heof, fun _ _ hok => absurd hok hst⟩

end K4c.Reader
