import Mathlib.Tactic
import K4c.Io.File
import K4c.Io.ReaderLines
import K4c.Io.ReaderReads

/-!
# The file reader

`k4c_file_reader` puts a stream behind the buffered reader.  Its read operation may fault,
so it is a source in the states in which the stream is open for reading.

* `Reading` — these states, from the one on in which the reader was made; `source` is the
  reader's source there, and `steady` where no request fails.
* `nothing_is_missed` — **in any weather** no byte of the file is lost, and the end of the
  file is reported at the end of the file only.
* `lines_read_back` — **lines that were written are read back.**
-/

namespace K4c

open Exec Bytes Blocks Files Runs
open Stream' (Seq)

/-! ## `io/reader/file_reader.c` -/

/-- `k4c_file_reader`, with `data` the contents of the caller's buffer. -/
structure FileReader where
  file : ℕ
  data : Option (List UInt8)
  bufferCapacity : ℕ
  deriving DecidableEq, Repr

namespace FileReader

variable {P : Type}

/-- `k4c_file_reader_reset`. -/
def reset : FileReader := ⟨0, none, 0⟩

/-- `k4c_file_reader_read`. -/
def read (r : FileReader) (s : Sys P) (capacity : ℕ) : Result (ReadResult × Sys P) := do
  check (capacity > 0) "fatal: k4c_file_reader_read invalid arguments"
  check (r.file ≠ 0) "fatal: k4c_file_reader_read invalid arguments"
  let (bytes, s) ← s.fread r.file capacity
  if bytes.length > 0 then return (⟨bytes, .ok⟩, s)
  if ← s.ferror r.file then return (⟨bytes, .io⟩, s)
  return (⟨bytes, .eof⟩, s)

/-- `k4c_file_reader_vtable`.  A read that faults is never made: `read_spec`. -/
def vtable (r : FileReader) : ReaderVtable (Sys P) where
  read s _ capacity :=
    match r.read s capacity with
    | .ok p => p
    | .error _ => (⟨[], .eof⟩, s)

theorem vtable_read {r : FileReader} {s : Sys P} {n : ℕ} {p : ReadResult × Sys P}
    (h : r.read s n = .ok p) (data : ℕ) : r.vtable.read s data n = p := by
  simp only [vtable, h]

/-- `k4c_file_reader_create`: the status and `*reader`. -/
def create (file : ℕ) (data : Option (List UInt8)) (bufferCapacity : ℕ) : Status × FileReader :=
  if file = 0 ∨ data = none ∨ bufferCapacity = 0 then (.invalidArgument, reset)
  else (.ok, ⟨file, data, bufferCapacity⟩)

/-- `k4c_file_reader_view`, where `ctx` is what the read operation of the view works on. -/
def view {σ : Type} (r : FileReader) (ctx : σ) : Result (Reader σ) :=
  match r.data with
  | none => .error (.panic "fatal: k4c_reader_create invalid arguments")
  | some data => Reader.create ctx data r.bufferCapacity

/-- `k4c_file_reader_close`: the status and `*reader`. -/
def close (_ : FileReader) : Status × FileReader := (.ok, reset)

end FileReader

/-! ## Sources in some of their states -/

/-- A source in the states of an invariant. -/
def ReaderVtable.restrict {σ : Type} (vt : ReaderVtable σ) (I : σ → Prop)
    (h : ∀ s data n, I s → I (vt.read s data n).2) : ReaderVtable {s // I s} where
  read s data n := ((vt.read s.1 data n).1, ⟨(vt.read s.1 data n).2, h s.1 data n s.2⟩)

namespace Reader

variable {σ : Type} {vt : ReaderVtable σ} {I : σ → Prop}
  {h : ∀ s data n, I s → I (vt.read s data n).2}

theorem readsAlike_restrict : ReadsAlike (vt.restrict I h) vt Subtype.val := fun _ _ _ => rfl

/-- A call over the source is one over its restriction. -/
theorem step_restrict {rd : Reader {s // I s}} {c : Call} {Q : Answer × Reader σ → Prop}
    (hstep : Sat (step (vt.restrict I h) rd c) fun p => Q (p.1, p.2.mapCtx Subtype.val)) :
    Sat (step vt (rd.mapCtx Subtype.val) c) Q := by
  obtain ⟨p, hp, hQ⟩ := hstep
  have halike : ReadsAlike (vt.restrict I h) vt Subtype.val := readsAlike_restrict
  refine ⟨(p.1, p.2.mapCtx Subtype.val), ?_, hQ⟩
  rw [step_mapCtx halike, hp]
  rfl

/-- **A run over the source** is one over its restriction. -/
theorem trace_restrict (s : {s // I s}) {data : List UInt8} {capacity : ℕ} (hcap : 0 < capacity)
    {calls : List Call} {Q : List Answer × Reader σ → Prop}
    (hrun : Sat (create s data capacity >>= fun rd => trace (step (vt.restrict I h)) rd calls)
      fun p => Q (p.1, p.2.mapCtx Subtype.val)) :
    Sat (create s.1 data capacity >>= fun rd => trace (step vt) rd calls) Q := by
  rw [create_ok _ data hcap, ok_bind] at hrun ⊢
  obtain ⟨p, hp, hQ⟩ := hrun
  have halike : ReadsAlike (vt.restrict I h) vt Subtype.val := readsAlike_restrict
  have hmap := trace_map (step_mapCtx halike) calls
    (⟨s, data, 0, 0, capacity⟩ : Reader {s // I s})
  rw [hp] at hmap
  exact ⟨(p.1, p.2.mapCtx Subtype.val), hmap, hQ⟩

end Reader

namespace FileReader

variable {P : Type} {s₀ s : Sys P} {path : P} {r : FileReader}

/-- **What one read does** where the stream is open. -/
theorem read_spec {position n : ℕ} {error : Bool}
    (h : s.Open r.file ⟨path, .reading position, error⟩) (hn : 0 < n) :
    ∃ k st position' error' s', r.read s n = .ok (⟨(s.pending r.file).take k, st⟩, s') ∧ k ≤ n ∧
      s'.Open r.file ⟨path, .reading position', error'⟩ ∧
      s'.pending r.file = (s.pending r.file).drop k ∧ s'.nodes = s.nodes ∧
      s.Next [r.file] [r.file] s' ∧
      st = (if (s.pending r.file).take k ≠ [] then .ok else if error' then .io else .eof) ∧
      (error' = false → k = n) ∧
      (error = false → s.content path ≠ none → s.Fair → error' = false) := by
  obtain ⟨k, position', error', s', hread, hk, hO', hpending, hnodes, hnext, hall, hfair⟩ :=
    Sys.fread_pending h hn
  refine ⟨k, _, position', error', s', ?_, hk, hO', hpending, hnodes, hnext, rfl, hall, hfair⟩
  rw [read, check_of hn, ok_bind, check_of (Mem.ne_zero_of_live h.live), ok_bind, hread, ok_bind]
  dsimp only
  by_cases hbytes : (s.pending r.file).take k = []
  · rw [hbytes, if_neg (by simp), if_neg (by simp), Sys.ferror_spec hO', ok_bind]
    cases error' <;> rfl
  · rw [if_pos (List.length_pos_of_ne_nil hbytes), if_pos hbytes]
    rfl

/-! ## In any weather -/

/-- From `s₀` on the stream was only read. -/
structure Reading (r : FileReader) (path : P) (s₀ s : Sys P) : Prop where
  nodes : s.nodes = s₀.nodes
  next : s₀.Next [r.file] [r.file] s
  isOpen : ∃ position error, s.Open r.file ⟨path, .reading position, error⟩

theorem Reading.start {position : ℕ} {error : Bool}
    (h : s.Open r.file ⟨path, .reading position, error⟩) : Reading r path s s :=
  ⟨rfl, ⟨.refl (by simpa using h.live), rfl, le_rfl⟩, position, error, h⟩

/-- A read brings some of what is pending, and tells of the end only if there is none. -/
theorem Reading.read (h : Reading r path s₀ s) {n : ℕ} (hn : 0 < n) (data : ℕ) :
    ∃ k st s', r.vtable.read s data n = (⟨(s.pending r.file).take k, st⟩, s') ∧ k ≤ n ∧
      s'.pending r.file = (s.pending r.file).drop k ∧ Reading r path s₀ s' ∧
      ((s.pending r.file).take k = [] → st = .ok ∨ st = .eof → s'.pending r.file = []) := by
  obtain ⟨position, error, hO⟩ := h.isOpen
  obtain ⟨k, st, position', error', s', hread, hk, hO', hpending, hnodes, hnext, hst, hall, -⟩ :=
    read_spec hO hn
  refine ⟨k, st, s', vtable_read hread data, hk, hpending,
    ⟨hnodes.trans h.nodes, h.next.trans hnext, position', error', hO'⟩, fun hnone hstatus => ?_⟩
  rw [hst, if_neg (not_not.2 hnone)] at hstatus
  cases error' with
  | true => simp at hstatus
  | false =>
    obtain rfl := hall rfl
    have hnil : s.pending r.file = [] := (List.take_eq_nil_iff.1 hnone).resolve_left (by omega)
    rw [hpending, hnil, List.drop_nil]

theorem Reading.keeps (s : Sys P) (data n : ℕ) (h : Reading r path s₀ s) :
    Reading r path s₀ (r.vtable.read s data n).2 := by
  rcases Nat.eq_zero_or_pos n with rfl | hn
  · exact h
  · obtain ⟨k, st, s', hread, -, -, hs', -⟩ := h.read hn data
    rwa [hread]

/-- The source of the reader. -/
def source (r : FileReader) (path : P) (s₀ : Sys P) :
    Reader.StreamSource {s // Reading r path s₀ s} where
  toReaderVtable := r.vtable.restrict (Reading r path s₀) Reading.keeps
  rest s := Seq.ofList (s.1.pending r.file)
  bounded := by
    rintro ⟨s, hs⟩ data capacity hc
    obtain ⟨k, st, s', hread, hk, -⟩ := hs.read hc data
    show (r.vtable.read s data capacity).1.bytes.length ≤ capacity
    rw [hread]
    exact (List.length_take_le ..).trans hk
  next := by
    rintro ⟨s, hs⟩ data capacity hc
    obtain ⟨k, st, s', hread, -, hpending, -⟩ := hs.read hc data
    show Seq.ofList (s.pending r.file) = (Seq.ofList (r.vtable.read s data capacity).1.bytes).append
      (Seq.ofList ((r.vtable.read s data capacity).2.pending r.file))
    rw [hread, ← Seq.ofList_append]
    dsimp only
    rw [hpending, List.take_append_drop]

theorem source_ends (r : FileReader) (path : P) (s₀ : Sys P) : Reader.Ends (source r path s₀) := by
  rintro ⟨s, hs⟩ data capacity hc hbytes hstatus
  obtain ⟨k, st, s', hread, -, -, -, hend⟩ := hs.read hc data
  change (r.vtable.read s data capacity).1.bytes = [] at hbytes
  change (r.vtable.read s data capacity).1.status = .ok ∨
    (r.vtable.read s data capacity).1.status = .eof at hstatus
  rw [hread] at hbytes hstatus
  show Seq.ofList ((r.vtable.read s data capacity).2.pending r.file) = Seq.nil
  rw [hread, hend hbytes hstatus, Seq.ofList_nil]

/-- What a view has not delivered. -/
theorem unread_eq (rd : Reader {s // Reading r path s₀ s}) :
    Reader.unread (source r path s₀) rd = Seq.ofList (rd.window ++ rd.ctx.1.pending r.file) :=
  (Seq.ofList_append ..).symm

/-- A run of the reader, in any weather: what was delivered, what is buffered and what is
still pending is what was pending. -/
theorem trace_accounts {position : ℕ} {error : Bool} {data : List UInt8} {capacity : ℕ}
    (hO : s.Open r.file ⟨path, .reading position, error⟩) (hcap : 0 < capacity)
    (hfits : capacity ≤ data.length) (calls : List Reader.Call) :
    Sat (Reader.create (⟨s, .start hO⟩ : {s' // Reading r path s s'}) data capacity >>= fun rd =>
        trace (Reader.step (source r path s).toReaderVtable) rd calls) fun p =>
      p.2.Wf ∧ s.pending r.file = p.1.flatMap Reader.Answer.delivered ++ p.2.window ++
        p.2.ctx.1.pending r.file := by
  rw [Reader.create_ok _ data hcap, ok_bind]
  refine (trace_refines (P := fun _ _ => True)
    (T := fun a (_ : Reader.Call) o b => Reader.Accounts o a b)
    (R := fun rd t => rd.Wf ∧ t = Reader.unread (source r path s) rd) ?_ calls _
    (Seq.ofList (s.pending r.file)) ⟨Reader.wf_create _ hcap hfits, ?_⟩
    (along_of_forall (fun _ _ => trivial) calls _)).mono ?_
  · rintro rd t c ⟨hwf, rfl⟩ -
    exact (Reader.step_accounts hwf c).mono fun p hp => ⟨_, hp.2.2, hp.1, rfl⟩
  · rw [unread_eq, Reader.window_create]
    rfl
  · rintro p ⟨t, hfol, hwf, rfl⟩
    have hseq := (Reader.follows_accounts hfol).1
    rw [unread_eq, ← Seq.ofList_append, ← List.append_assoc] at hseq
    exact ⟨hwf, Seq.ofList_injective hseq⟩

/-- One more call of the reader: where it tells of the end, everything is buffered, and where
it delivers a piece without its delimiter, everything is delivered. -/
theorem step_complete {rd : Reader {s // Reading r path s₀ s}} (h : rd.Wf) (c : Reader.Call) :
    Sat (Reader.step (source r path s₀).toReaderVtable rd c) fun q =>
      (q.1.status = .eof → rd.window ++ rd.ctx.1.pending r.file = q.2.window) ∧
        ∀ d, c = .takeDelimiter d → q.1.status = .ok → d ∉ q.1.delivered →
          rd.window ++ rd.ctx.1.pending r.file = q.1.delivered := by
  have hacc : Sat (Reader.step (source r path s₀).toReaderVtable rd c) _ :=
    Reader.step_accounts h c
  refine (hacc.and (Reader.step_ends (source_ends r path s₀) h c)).mono fun q hq => ?_
  obtain ⟨⟨-, -, hacc⟩, heof, hlast⟩ := hq
  rw [unread_eq] at hacc
  refine ⟨fun hst => ?_, fun d hd hst hnot => ?_⟩
  · rcases hacc with ⟨hok, -⟩ | ⟨-, -, hsame⟩
    · rw [hst] at hok
      cases hok
    · rw [Reader.unread, heof hst, Seq.append_nil] at hsame
      exact (Seq.ofList_injective hsame).symm
  · rcases hacc with ⟨-, bs, hout, hbefore⟩ | ⟨hne, -⟩
    · rw [hlast d hd hst hnot, Seq.append_nil] at hbefore
      rw [Seq.ofList_injective hbefore, Reader.Answer.delivered, hout]
      rfl
    · exact absurd hst hne

/-- What `k4c_file_reader_create` has made. -/
theorem create_ok {file capacity : ℕ} {data : List UInt8}
    (h : create file (some data) capacity = (.ok, r)) :
    r = ⟨file, some data, capacity⟩ ∧ 0 < capacity := by
  unfold create at h
  split at h
  · cases h
  · rename_i hok
    cases h
    refine ⟨rfl, Nat.pos_of_ne_zero fun hzero => hok (.inr (.inr hzero))⟩

/-- **In any weather nothing is missed.**  Over an open stream every run of calls of the
reader returns, touches no file and no other stream, and what was delivered, what is
buffered and what is still pending make up what was pending at the start.  When a call then
answers EOF, all that was pending is delivered or buffered; when it delivers a piece that
lacks its delimiter, all is delivered: a read that fails is never taken for the end of the
file. -/
theorem nothing_is_missed (s : Sys P) (path : P) (position : ℕ) (error : Bool) (file : ℕ)
    (data : List UInt8) (capacity : ℕ) (r : FileReader)
    (hO : s.Open file ⟨path, .reading position, error⟩)
    (hr : create file (some data) capacity = (.ok, r)) (hfits : capacity ≤ data.length)
    (calls : List Reader.Call) (c : Reader.Call) :
    Sat (r.view s >>= fun rd => trace (Reader.step r.vtable) rd calls) fun p =>
      s.pending file = p.1.flatMap Reader.Answer.delivered ++ p.2.window ++
        p.2.ctx.pending file ∧
      p.2.ctx.nodes = s.nodes ∧ s.Next [file] [file] p.2.ctx ∧
      Sat (Reader.step r.vtable p.2 c) fun q =>
        (q.1.status = .eof →
          s.pending file = p.1.flatMap Reader.Answer.delivered ++ q.2.window) ∧
        ∀ d, c = .takeDelimiter d → q.1.status = .ok → d ∉ q.1.delivered →
          s.pending file = p.1.flatMap Reader.Answer.delivered ++ q.1.delivered := by
  obtain ⟨rfl, hcap⟩ := create_ok hr
  refine Reader.trace_restrict (I := Reading _ path s) (h := Reading.keeps) ⟨s, .start hO⟩ hcap ?_
  refine (trace_accounts hO hcap hfits calls).mono fun p hp => ?_
  obtain ⟨hwf, hpending⟩ := hp
  have hreading := p.2.ctx.2
  refine ⟨hpending, hreading.nodes, hreading.next,
    Reader.step_restrict (I := Reading _ path s) (h := Reading.keeps) ?_⟩
  refine (step_complete hwf c).mono fun q hq => ⟨fun hst => ?_, fun d hd hst hnot => ?_⟩
  · rw [hpending, List.append_assoc, hq.1 hst]
    rfl
  · rw [hpending, List.append_assoc, hq.2 d hd hst hnot]

/-- An open file, and a read that breaks off before its end. -/
def halfway : Sys Unit where
  nodes _ := .ok (.file 4 [97, 10, 98, 99])
  streams := (Mem.empty fun _ => none).grant ⟨0, ⟨(), .reading 0, false⟩⟩
  weather n := if n = 1 then some ⟨.other, 1⟩ else none
  flushed n := n
  requests := 0

/-- The last line is not delivered as if it were complete. -/
theorem nothing_is_missed_halfway :
    Sat (view ⟨1, some [0, 0, 0], 3⟩ halfway >>= fun rd =>
        trace (Reader.step (vtable ⟨1, some [0, 0, 0], 3⟩)) rd [.takeDelimiter 10]) fun p =>
      halfway.pending 1 = p.1.flatMap Reader.Answer.delivered ++ p.2.window ++
        p.2.ctx.pending 1 ∧
      p.2.ctx.nodes = halfway.nodes ∧ halfway.Next [1] [1] p.2.ctx ∧
      Sat (Reader.step (vtable ⟨1, some [0, 0, 0], 3⟩) p.2 (.takeDelimiter 10)) fun q =>
        (q.1.status = .eof →
          halfway.pending 1 = p.1.flatMap Reader.Answer.delivered ++ q.2.window) ∧
        ∀ d, Reader.Call.takeDelimiter 10 = .takeDelimiter d → q.1.status = .ok →
          d ∉ q.1.delivered →
            halfway.pending 1 = p.1.flatMap Reader.Answer.delivered ++ q.1.delivered :=
  nothing_is_missed halfway () 0 false 1 [0, 0, 0] 3 ⟨1, some [0, 0, 0], 3⟩ rfl rfl (by decide)
    [.takeDelimiter 10] (.takeDelimiter 10)

example : (view ⟨1, some [0, 0, 0], 3⟩ halfway >>= fun rd =>
    trace (Reader.step (vtable ⟨1, some [0, 0, 0], 3⟩)) rd
      [.takeDelimiter 10, .takeDelimiter 10]).map Prod.fst =
    .ok [⟨.ok, some [97, 10]⟩, ⟨.io, none⟩] := by decide

/-! ## Where no request fails -/

/-- From `s₀` on the stream was only read, and no error has occurred. -/
structure Steady (r : FileReader) (path : P) (s₀ s : Sys P) : Prop where
  nodes : s.nodes = s₀.nodes
  next : s₀.Next [r.file] [r.file] s
  isOpen : ∃ position, s.Open r.file ⟨path, .reading position, false⟩
  fair : s.AllFair
  content : s.content path ≠ none

/-- A read brings all that is asked for, if there is as much. -/
theorem Steady.read (h : Steady r path s₀ s) {n : ℕ} (hn : 0 < n) (data : ℕ) :
    ∃ s', r.vtable.read s data n = (⟨(s.pending r.file).take n,
        if s.pending r.file ≠ [] then .ok else .eof⟩, s') ∧
      s'.pending r.file = (s.pending r.file).drop n ∧ Steady r path s₀ s' := by
  obtain ⟨position, hO⟩ := h.isOpen
  obtain ⟨k, st, position', error', s', hread, -, hO', hpending, hnodes, hnext, hst, hall, hclean⟩ :=
    read_spec hO hn
  obtain rfl := hclean rfl h.content h.fair.fair
  obtain rfl := hall rfl
  have hnil : (s.pending r.file).take k = [] ↔ s.pending r.file = [] := by
    rw [List.take_eq_nil_iff]
    exact or_iff_right (by omega)
  refine ⟨s', ?_, hpending, hnodes.trans h.nodes, h.next.trans hnext, ⟨position', hO'⟩,
    hnext.allFair h.fair, ?_⟩
  · rw [vtable_read hread, hst]
    simp only [ne_eq, hnil]
    rfl
  · rw [Sys.content, hnodes]
    exact h.content

theorem Steady.keeps (s : Sys P) (data n : ℕ) (h : Steady r path s₀ s) :
    Steady r path s₀ (r.vtable.read s data n).2 := by
  rcases Nat.eq_zero_or_pos n with rfl | hn
  · exact h
  · obtain ⟨s', hread, -, hs'⟩ := h.read hn data
    rwa [hread]

/-- The source of the reader, where no request fails. -/
def steady (r : FileReader) (path : P) (s₀ : Sys P) :
    Reader.ChunkedSource {s // Steady r path s₀ s} where
  toReaderVtable := r.vtable.restrict (Steady r path s₀) Steady.keeps
  rest s := s.1.pending r.file
  more := by
    rintro ⟨s, hs⟩ data capacity hc hrest
    obtain ⟨s', hread, hpending, -⟩ := hs.read hc data
    have hlen : 0 < (s.pending r.file).length := List.length_pos_of_ne_nil hrest
    refine ⟨min capacity (s.pending r.file).length, by omega, min_le_left .., min_le_right .., ?_⟩
    show (r.vtable.read s data capacity).1 = ⟨(s.pending r.file).take _, .ok⟩ ∧
      (r.vtable.read s data capacity).2.pending r.file = (s.pending r.file).drop _
    rw [hread, if_pos hrest]
    dsimp only
    rw [hpending]
    rcases le_total capacity (s.pending r.file).length with h | h
    · rw [min_eq_left h]
      exact ⟨rfl, rfl⟩
    · rw [min_eq_right h, List.take_of_length_le h, List.drop_eq_nil_of_le h]
      simp
  ended := by
    rintro ⟨s, hs⟩ data capacity hrest
    have hnone : s.pending r.file = [] := hrest
    show (r.vtable.read s data capacity).1 = ⟨[], .eof⟩ ∧
      (r.vtable.read s data capacity).2.pending r.file = []
    rcases Nat.eq_zero_or_pos capacity with rfl | hc
    · exact ⟨rfl, hrest⟩
    · obtain ⟨s', hread, hpending, -⟩ := hs.read hc data
      rw [hread]
      dsimp only
      rw [hpending, hnone, List.take_nil, List.drop_nil]
      exact ⟨rfl, rfl⟩

/-- A run over a file from its start, where no request fails. -/
theorem trace_steady {file capacity : ℕ} {data text : List UInt8}
    (hO : s.Open file ⟨path, .reading 0, false⟩) (hfair : s.AllFair)
    (htext : s.content path = some text) (hcap : 0 < capacity) (hfits : capacity ≤ data.length)
    (calls : List Reader.Call) :
    Sat (view ⟨file, some data, capacity⟩ s >>= fun rd =>
        trace (Reader.step (vtable ⟨file, some data, capacity⟩)) rd calls) fun p =>
      p.1 = Reader.exactRun capacity text calls ∧
        Steady ⟨file, some data, capacity⟩ path s p.2.ctx := by
  have hstart : Steady ⟨file, some data, capacity⟩ path s s :=
    ⟨rfl, ⟨.refl (by simpa using hO.live), rfl, le_rfl⟩, ⟨0, hO⟩, hfair, by rw [htext]; nofun⟩
  have hpending : s.pending file = text := by
    rw [Sys.pending_of_open hO, htext]
    rfl
  refine Reader.trace_restrict (I := Steady _ path s) (h := Steady.keeps) ⟨s, hstart⟩ hcap ?_
  refine (Reader.trace_exact (steady _ path s) ⟨s, hstart⟩ hcap hfits calls).mono fun p hp => ?_
  exact ⟨by rw [← hpending]; exact hp, p.2.ctx.2⟩

variable [DecidableEq P]

/-- **Lines that were written are read back.**  Lines are written to a file, each with a
delimiter behind it that none of them contains, and the file is opened, read with
`takeDelimiter` through a buffer that is longer than every line, and closed.  When no request
fails the calls return the lines in order, each with its delimiter, and then EOF; the file
holds the lines, and no stream is left over. -/
theorem lines_read_back (s : Sys P) (w : Memory) (path : P) (lines : List (List UInt8)) (d : UInt8)
    (data : List UInt8) (capacity : ℕ) (hd : ∀ l ∈ lines, d ∉ l)
    (hfit : ∀ l ∈ lines, l.length < capacity) (hcap : 0 < capacity)
    (hdata : capacity ≤ data.length) (hfair : s.AllFair)
    (hwritable : writable (s.nodes path) = true)
    (hspecial : ∀ bytes, s.nodes path ≠ .ok (.special bytes)) :
    Sat (File.writeAll path (.outside (lines.flatMap (· ++ [d])))
        (lines.flatMap (· ++ [d])).length w s) fun p => p.1 = .ok ∧
      ∃ file s₁ r, p.2.fopenRead path = (.ok file, s₁) ∧
        create file (some data) capacity = (.ok, r) ∧
        Sat (r.view s₁ >>= fun rd => trace (Reader.step r.vtable) rd
            (List.replicate (lines.length + 1) (.takeDelimiter d))) fun q =>
          q.1 = lines.map (fun l => ⟨.ok, some (l ++ [d])⟩) ++ [⟨.eof, none⟩] ∧
          Sat (Io.fileClose q.2.ctx file) fun t => t.1 = .ok ∧ s.Next [] [] t.2 ∧
            t.2.content path = some (lines.flatMap (· ++ [d])) := by
  set text := lines.flatMap (· ++ [d]) with htext
  have hsource : w.source (.outside text) text.length = .ok text := by
    rw [Memory.source, readAt_of_le (by omega), slice]
    simp
  obtain ⟨st, s₁, hwrite, hnext, hwrites, hst⟩ := File.writeAll_spec path s rfl (.inr hsource)
  rw [File.writeStatus, if_pos hwritable] at hst
  obtain rfl := hst hfair
  have hnode : s₁.nodes path = .ok (.file text.length text) := by
    rcases hwrites with ⟨h, -⟩ | ⟨-, ⟨-, hnodes⟩ | ⟨h, -⟩⟩
    · cases h
    · rw [hnodes]
      dsimp only
      rw [Function.update_self, replaced_of_writable hwritable hspecial]
    · cases h
  refine ⟨_, hwrite, rfl, ?_⟩
  have hfair₁ := hnext.allFair hfair
  rcases s₁.fopenRead_spec path with ⟨e, s₂, -, -, -, hnone⟩ |
    ⟨file, s₂, hopen, hO, hnodes, hnext₂, -, -⟩
  · have := hnone hfair₁.fair
    rw [hnode] at this
    cases this
  have hcontent : s₂.content path = some text := by
    rw [Sys.content, hnodes, hnode]
    rfl
  have hcreate : create file (some data) capacity = (.ok, ⟨file, some data, capacity⟩) := by
    refine if_neg ?_
    rw [not_or, not_or]
    exact ⟨Mem.ne_zero_of_live hO.live, Option.some_ne_none _, by omega⟩
  refine ⟨file, s₂, _, hopen, hcreate, ?_⟩
  refine (trace_steady hO (hnext₂.allFair hfair₁) hcontent hcap hdata _).mono fun q hq => ⟨?_, ?_⟩
  · have hpieces : Pieces.pieces d text = lines.map (· ++ [d]) := Pieces.pieces_lines hd
    have hfits : ∀ p ∈ lines.map (· ++ [d]), Reader.Fits capacity d p := by
      intro p hp
      obtain ⟨l, hl, rfl⟩ := List.mem_map.1 hp
      have hlt := hfit l hl
      rw [Reader.Fits, List.length_append, List.length_singleton]
      rcases Nat.lt_or_ge (l.length + 1) capacity with h | h
      · exact .inl h
      · exact .inr ⟨by omega, by simp⟩
    have hanswers := Reader.map_lineAnswer hfits
    rw [List.length_map, List.map_map] at hanswers
    rw [hq.1, Reader.exactRun_lines hcap, hpieces, hanswers]
    rfl
  · obtain ⟨position, hO'⟩ := hq.2.isOpen
    obtain ⟨st, s₃, hclose, hnodes₃, hnext₃, hst⟩ := Io.fileClose_spec hO'
    refine ⟨_, hclose, ?_, (hnext.trans hnext₂).trans (hq.2.next.trans hnext₃), ?_⟩
    · exact hst.elim And.left fun h => absurd hq.2.fair.fair h.2
    · rw [Sys.content, hnodes₃, Sys.left_reading, hq.2.nodes, hnodes, hnode]
      rfl

/-- Two lines, the first one empty, and a buffer of three bytes. -/
theorem lines_read_back_two :
    Sat (File.writeAll true (.outside [10, 98, 99, 10]) 4 (Mem.empty fun _ => none)
        (⟨fun _ => .error .noEntry, .empty fun _ => none, fun _ => none, id, 0⟩ : Sys Bool))
      fun p => p.1 = .ok ∧
        ∃ file s₁ r, p.2.fopenRead true = (.ok file, s₁) ∧
          create file (some [0, 0, 0]) 3 = (.ok, r) ∧
          Sat (r.view s₁ >>= fun rd => trace (Reader.step r.vtable) rd
              (List.replicate 3 (.takeDelimiter 10))) fun q =>
            q.1 = [⟨.ok, some [10]⟩, ⟨.ok, some [98, 99, 10]⟩, ⟨.eof, none⟩] ∧
            Sat (Io.fileClose q.2.ctx file) fun t => t.1 = .ok ∧
              (⟨fun _ => .error .noEntry, .empty fun _ => none, fun _ => none, id, 0⟩ :
                Sys Bool).Next [] [] t.2 ∧
              t.2.content true = some [10, 98, 99, 10] :=
  lines_read_back ⟨fun _ => .error .noEntry, .empty fun _ => none, fun _ => none, id, 0⟩
    (Mem.empty fun _ => none) true [[], [98, 99]] 10 [0, 0, 0] 3 (by decide) (by decide)
    (by decide) (by decide) (fun _ _ => rfl) rfl nofun

end FileReader
end K4c
