import Mathlib.Tactic
import K4c.Lib.Blocks

/-!
# Files and streams

What a program sees of a file system through `stat`, `fopen`, `fread`, `fwrite` and
`fclose`.  Any request may fail, a read or a write also after some of its bytes; `weather`
is what becomes of the requests to come.  Streams are the blocks of a memory of their own:
the name of a stream that was closed is never given out again, and every use of it is a
fault.

* `Sys` — the files, the streams and the weather.
* `stat`, `fopenRead`, `fopenWrite`, `fread`, `ferror`, `fwrite`, `fclose` — the requests.
* `fread_spec`, `fwrite_spec`, `fclose_spec` — what one of them does to a stream that is
  open, and to the file behind it.
-/

namespace Files

open Exec Blocks

/-- Why a request has failed. -/
inductive Errno where
  /-- `ENOENT`. -/
  | noEntry
  /-- `ENOTDIR`. -/
  | notDirectory
  | other
  deriving DecidableEq, Repr

/-- What a path leads to.  The size that the system tells of a regular file need not be the
number of bytes that can be read from it. -/
inductive Node where
  | file (size : ℤ) (bytes : List UInt8)
  | directory
  /-- A device or a pipe, with what can be read from it. -/
  | special (bytes : List UInt8)
  deriving DecidableEq, Repr

/-- The bytes that can be read. -/
def Node.bytes : Node → Option (List UInt8)
  | .file _ bytes => some bytes
  | .directory => none
  | .special bytes => some bytes

/-- The node with other bytes, if it is a regular file. -/
def Node.withBytes (bytes : List UInt8) : Node → Node
  | .file _ _ => .file bytes.length bytes
  | node => node

/-- What a path leads to after these bytes took the place of all that was there: a regular
file is made if need be. -/
def replaced (bytes : List UInt8) : Except Errno Node → Except Errno Node
  | .ok node => .ok (node.withBytes bytes)
  | .error .noEntry => .ok (.file bytes.length bytes)
  | .error e => .error e

/-- Where a stream can be opened that writes. -/
def writable : Except Errno Node → Bool
  | .ok .directory => false
  | .ok _ => true
  | .error e => e = .noEntry

theorem Node.withBytes_withBytes (bytes bytes' : List UInt8) (node : Node) :
    (node.withBytes bytes).withBytes bytes' = node.withBytes bytes' := by
  cases node <;> rfl

theorem replaced_map (bytes bytes' : List UInt8) (node : Except Errno Node) :
    (replaced bytes node).map (Node.withBytes bytes') = replaced bytes' node := by
  match node with
  | .ok node => exact congrArg Except.ok (node.withBytes_withBytes ..)
  | .error .noEntry => rfl
  | .error .notDirectory => rfl
  | .error .other => rfl

/-- Where one can write, and not to a device, there is a regular file afterwards. -/
theorem replaced_of_writable {node : Except Errno Node} (h : writable node = true)
    (hspecial : ∀ bytes, node ≠ .ok (.special bytes)) (bytes : List UInt8) :
    replaced bytes node = .ok (.file bytes.length bytes) := by
  match node with
  | .ok (.file size old) => rfl
  | .ok .directory => cases h
  | .ok (.special old) => exact absurd rfl (hspecial old)
  | .error .noEntry => rfl
  | .error .notDirectory => cases h
  | .error .other => cases h

/-- How a stream was opened. -/
inductive Mode where
  | reading (position : ℕ)
  /-- With the bytes that it has taken so far. -/
  | writing (written : List UInt8)
  deriving DecidableEq, Repr

/-- An open stream. -/
structure Stream (P : Type) where
  path : P
  mode : Mode
  error : Bool

/-- A request that fails, after this many bytes. -/
structure Failure where
  errno : Errno
  count : ℕ

/-- The files and streams of a program. -/
structure Sys (P : Type) where
  nodes : P → Except Errno Node
  streams : Mem (Stream P)
  /-- What becomes of each request; `none` is success. -/
  weather : ℕ → Option Failure
  /-- How many bytes of a stream have reached the file after each request. -/
  flushed : ℕ → ℕ
  /-- How many requests were made. -/
  requests : ℕ

namespace Sys

variable {P : Type}

/-- One more request. -/
def tick (s : Sys P) : Sys P := { s with requests := s.requests + 1 }

/-- The next request succeeds. -/
def Fair (s : Sys P) : Prop := s.weather s.requests = none

/-- All requests from now on succeed. -/
def AllFair (s : Sys P) : Prop := ∀ n, s.requests ≤ n → s.weather n = none

/-- The bytes that can be read behind a path. -/
def content (s : Sys P) (path : P) : Option (List UInt8) :=
  match s.nodes path with
  | .ok node => node.bytes
  | .error _ => none

/-! ## Opening and reading -/

/-- `stat`. -/
def stat (s : Sys P) (path : P) : Except Errno Node × Sys P :=
  match s.weather s.requests with
  | some failure => (.error failure.errno, s.tick)
  | none => (s.nodes path, s.tick)

/-- A new stream. -/
def opened (s : Sys P) (stream : Stream P) : Except Errno ℕ × Sys P :=
  (.ok s.streams.next, { s.tick with streams := s.streams.grant ⟨0, stream⟩ })

/-- `fopen(path, "rb")`: a stream, or `NULL` with `errno`. -/
def fopenRead (s : Sys P) (path : P) : Except Errno ℕ × Sys P :=
  match s.weather s.requests with
  | some failure => (.error failure.errno, s.tick)
  | none =>
    match s.nodes path with
    | .error e => (.error e, s.tick)
    | .ok _ => s.opened ⟨path, .reading 0, false⟩

/-- What a read brings from a position on, and whether it has failed. -/
def received (s : Sys P) (path : P) (position n : ℕ) : List UInt8 × Bool :=
  match s.content path, s.weather s.requests with
  | none, _ => ([], true)
  | some bytes, none => ((bytes.drop position).take n, false)
  | some bytes, some failure => ((bytes.drop position).take (min failure.count n), true)

/-- `fread(data, 1, n, f)`: the bytes that came, fewer than `n` only at the end of the file
or after an error. -/
def fread (s : Sys P) (f n : ℕ) : Result (List UInt8 × Sys P) := do
  let stream ← s.streams.load f
  match stream.mode with
  | .writing _ => .error .badAccess
  | .reading position =>
    if n = 0 then return ([], s)
    let (bytes, failed) := s.received stream.path position n
    let streams ← s.streams.store f
      ⟨stream.path, .reading (position + bytes.length), stream.error || failed⟩
    return (bytes, { s.tick with streams })

/-- `ferror`. -/
def ferror (s : Sys P) (f : ℕ) : Result Bool := do
  let stream ← s.streams.load f
  return stream.error

/-- The stream is open. -/
def Open (s : Sys P) (f : ℕ) (stream : Stream P) : Prop := s.streams.cells f = some ⟨0, stream⟩

/-- From one system to another streams were opened, used and closed. -/
structure Next (o o' : List ℕ) (s s' : Sys P) : Prop where
  streams : Exchange True o o' s.streams s'.streams
  weather : s'.weather = s.weather
  requests : s.requests ≤ s'.requests

variable {s s' s'' : Sys P} {path : P} {f : ℕ} {stream : Stream P} {bytes : List UInt8}

theorem Next.trans {o o' o'' : List ℕ} (h : Next o o' s s') (h' : Next o' o'' s' s'') :
    Next o o'' s s'' where
  streams := h.streams.trans h'.streams
  weather := h'.weather.trans h.weather
  requests := h.requests.trans h'.requests

theorem Next.refl (s : Sys P) : Next [] [] s s := ⟨.refl (by simp), rfl, le_rfl⟩

theorem Next.tick (s : Sys P) : Next [] [] s s.tick :=
  ⟨.same (by simp) rfl, rfl, Nat.le_succ _⟩

theorem Next.allFair {o o' : List ℕ} (h : Next o o' s s') (hs : s.AllFair) : s'.AllFair := by
  intro n hn
  rw [h.weather]
  exact hs n (h.requests.trans hn)

theorem AllFair.fair (h : s.AllFair) : s.Fair := h _ le_rfl

theorem Open.live (h : Open s f stream) : s.streams.Live f := Mem.live_of h

/-- **A new stream** has a name of its own. -/
theorem opened_spec (s : Sys P) (stream : Stream P) :
    ∃ s', s.opened stream = (.ok s.streams.next, s') ∧ Open s' s.streams.next stream ∧
      s'.nodes = s.nodes ∧ Next [] [s.streams.next] s s' := by
  refine ⟨_, rfl, Function.update_self .., rfl, ?_, rfl, Nat.le_succ _⟩
  exact Exchange.gain (c := ⟨0, stream⟩) (by simp) rfl

/-- **Opening to read** needs something at the path. -/
theorem fopenRead_spec (s : Sys P) (path : P) :
    (∃ e s', s.fopenRead path = (.error e, s') ∧ s'.nodes = s.nodes ∧ Next [] [] s s' ∧
      (s.Fair → s.nodes path = .error e)) ∨
    (∃ f s', s.fopenRead path = (.ok f, s') ∧ Open s' f ⟨path, .reading 0, false⟩ ∧
      s'.nodes = s.nodes ∧ Next [] [f] s s' ∧ s.Fair ∧ ∃ node, s.nodes path = .ok node) := by
  unfold fopenRead
  rw [Fair]
  cases hw : s.weather s.requests with
  | some failure => exact .inl ⟨failure.errno, _, rfl, rfl, .tick s, nofun⟩
  | none =>
    cases hnode : s.nodes path with
    | error e => exact .inl ⟨e, _, rfl, rfl, .tick s, fun _ => rfl⟩
    | ok node =>
      obtain ⟨s', hopen, hrest⟩ := s.opened_spec ⟨path, .reading 0, false⟩
      exact .inr ⟨_, s', hopen, hrest.1, hrest.2.1, hrest.2.2, rfl, node, rfl⟩

/-- **A read** takes the next bytes behind the path. -/
theorem fread_spec {position n : ℕ} {error : Bool} (h : Open s f ⟨path, .reading position, error⟩)
    (hn : 0 < n) : ∃ s', s.fread f n = .ok ((s.received path position n).1, s') ∧
      Open s' f ⟨path, .reading (position + (s.received path position n).1.length),
        error || (s.received path position n).2⟩ ∧
      s'.nodes = s.nodes ∧ Next [f] [f] s s' := by
  obtain ⟨streams, hstore, hcells⟩ := Mem.store_eq h (⟨path,
    .reading (position + (s.received path position n).1.length),
    error || (s.received path position n).2⟩ : Stream P)
  refine ⟨{ s.tick with streams }, ?_, ?_, rfl, ?_, rfl, Nat.le_succ _⟩
  · rw [fread, Mem.load_eq h, ok_bind]
    dsimp only
    rw [if_neg hn.ne', hstore]
    rfl
  · rw [Open, hcells, Function.update_self]
  · exact Exchange.write (p := f) (by simpa using h.live) (by simp) hcells

theorem fread_zero {position : ℕ} {error : Bool} (h : Open s f ⟨path, .reading position, error⟩) :
    s.fread f 0 = .ok ([], s) := by
  rw [fread, Mem.load_eq h]
  rfl

theorem ferror_spec (h : Open s f stream) : s.ferror f = .ok stream.error := by
  rw [ferror, Mem.load_eq h]
  rfl

/-- What comes is a part of what there is, and all that was asked for in fair weather. -/
theorem received_spec (s : Sys P) {bytes : List UInt8} (h : s.content path = some bytes)
    (position n : ℕ) :
    ∃ k ≤ n, (s.received path position n).1 = (bytes.drop position).take k ∧
      ((s.received path position n).2 = false ↔ s.Fair) ∧ (s.Fair → k = n) := by
  rw [received, h, Fair]
  cases hw : s.weather s.requests with
  | none => exact ⟨n, le_rfl, rfl, by simp, fun _ => rfl⟩
  | some failure => exact ⟨_, min_le_right .., rfl, by simp, nofun⟩

/-- What can still be read from a stream. -/
def pending (s : Sys P) (f : ℕ) : List UInt8 :=
  match s.streams.cells f with
  | some ⟨_, ⟨path, .reading position, _⟩⟩ => ((s.content path).getD []).drop position
  | _ => []

theorem pending_of_open {position : ℕ} {error : Bool}
    (h : Open s f ⟨path, .reading position, error⟩) :
    s.pending f = ((s.content path).getD []).drop position := by
  rw [pending, h]

/-- **A read** brings some of what is pending; when the error indicator stays down, it was
all that was asked for. -/
theorem fread_pending {position n : ℕ} {error : Bool}
    (h : Open s f ⟨path, .reading position, error⟩) (hn : 0 < n) :
    ∃ k position' error' s', s.fread f n = .ok ((s.pending f).take k, s') ∧ k ≤ n ∧
      Open s' f ⟨path, .reading position', error'⟩ ∧ s'.pending f = (s.pending f).drop k ∧
      s'.nodes = s.nodes ∧ Next [f] [f] s s' ∧
      (error' = false → k = n) ∧
      (error = false → s.content path ≠ none → s.Fair → error' = false) := by
  obtain ⟨s', hread, hO', hnodes, hnext⟩ := fread_spec h hn
  have hcontent : s'.content path = s.content path := by rw [content, hnodes, ← content]
  have hpending := pending_of_open h
  have hpending' := pending_of_open hO'
  rw [hcontent] at hpending'
  cases hbytes : s.content path with
  | none =>
    have hnothing : s.received path position n = ([], true) := by rw [received, hbytes]
    rw [hnothing] at hread hO' hpending'
    rw [hbytes, Option.getD_none, List.drop_nil] at hpending hpending'
    refine ⟨0, _, _, s', by rw [hread, hpending, List.take_nil], Nat.zero_le n, hO', ?_, hnodes,
      hnext, by simp, fun _ h => absurd rfl h⟩
    rw [hpending, hpending', List.drop_nil]
  | some bytes =>
    obtain ⟨k, hk, htake, herror, hfair⟩ := s.received_spec hbytes position n
    rw [hbytes, Option.getD_some] at hpending hpending'
    refine ⟨k, _, _, s', by rw [hread, hpending, htake], hk, hO', ?_, hnodes, hnext, fun he => ?_,
      fun he _ hf => ?_⟩
    · rw [hpending, hpending', List.drop_drop, htake, List.length_take]
      rcases le_total k (bytes.drop position).length with hle | hle
      · rw [min_eq_left hle]
      · rw [min_eq_right hle, List.drop_eq_nil_of_le, List.drop_eq_nil_of_le]
        · rw [List.length_drop] at hle
          omega
        · rw [List.length_drop]
          omega
    · rw [Bool.or_eq_false_iff] at he
      exact hfair (herror.1 he.2)
    · rw [he, herror.2 hf]
      rfl

/-! ## Writing and closing -/

variable [DecidableEq P]

/-- The files after the bytes of a regular file have changed. -/
def put (nodes : P → Except Errno Node) (path : P) (bytes : List UInt8) : P → Except Errno Node :=
  Function.update nodes path ((nodes path).map (Node.withBytes bytes))

theorem put_put (nodes : P → Except Errno Node) (path : P) (bytes bytes' : List UInt8) :
    put (put nodes path bytes) path bytes' = put nodes path bytes' := by
  rw [put, put, put, Function.update_self, Function.update_idem]
  cases nodes path with
  | error e => rfl
  | ok node => exact congrArg (Function.update nodes path ∘ Except.ok) (node.withBytes_withBytes ..)

theorem put_replaced (nodes : P → Except Errno Node) (path : P) (bytes bytes' : List UInt8) :
    put (Function.update nodes path (replaced bytes (nodes path))) path bytes' =
      Function.update nodes path (replaced bytes' (nodes path)) := by
  rw [put, Function.update_self, Function.update_idem, replaced_map]

/-- The file is made, or made empty. -/
def emptied (s : Sys P) (path : P) : Sys P :=
  { s with nodes := Function.update s.nodes path (replaced [] (s.nodes path)) }

/-- `fopen(path, "wb")`. -/
def fopenWrite (s : Sys P) (path : P) : Except Errno ℕ × Sys P :=
  match s.weather s.requests with
  | some failure => (.error failure.errno, s.tick)
  | none =>
    if writable (s.nodes path) then (s.emptied path).opened ⟨path, .writing [], false⟩
    else
      match s.nodes path with
      | .ok _ => (.error .other, s.tick)
      | .error e => (.error e, s.tick)

/-- The bytes of a write that the stream takes, all of them unless it fails. -/
def accepted (s : Sys P) (bytes : List UInt8) : List UInt8 :=
  match s.weather s.requests with
  | none => bytes
  | some failure => bytes.take (min failure.count (bytes.length - 1))

/-- `fwrite(data, 1, n, f)`: how many bytes the stream has taken.  Any part of what it has
taken so far may have reached the file. -/
def fwrite (s : Sys P) (f : ℕ) (bytes : List UInt8) : Result (ℕ × Sys P) := do
  let stream ← s.streams.load f
  match stream.mode with
  | .reading _ => .error .badAccess
  | .writing written =>
    if bytes = [] then return (0, s)
    let taken := s.accepted bytes
    let written := written ++ taken
    let streams ← s.streams.store f
      ⟨stream.path, .writing written, stream.error || decide (taken.length < bytes.length)⟩
    return (taken.length, { s.tick with
      streams, nodes := put s.nodes stream.path (written.take (s.flushed s.requests)) })

/-- What has reached a file when its stream is closed: everything, or some of it. -/
def settled (s : Sys P) (written : List UInt8) : List UInt8 :=
  match s.weather s.requests with
  | none => written
  | some failure => written.take failure.count

/-- The files after a stream was closed. -/
def left (s : Sys P) (stream : Stream P) : P → Except Errno Node :=
  match stream.mode with
  | .reading _ => s.nodes
  | .writing written => put s.nodes stream.path (s.settled written)

theorem left_reading (s : Sys P) (path : P) (position : ℕ) (error : Bool) :
    s.left ⟨path, .reading position, error⟩ = s.nodes := rfl

theorem left_writing (s : Sys P) (path : P) (written : List UInt8) (error : Bool) :
    s.left ⟨path, .writing written, error⟩ = put s.nodes path (s.settled written) := rfl

/-- `fclose`: whether it returned 0.  The stream is closed in any case. -/
def fclose (s : Sys P) (f : ℕ) : Result (Bool × Sys P) := do
  let stream ← s.streams.load f
  let streams ← s.streams.free f
  return ((s.weather s.requests).isNone, { s.tick with streams, nodes := s.left stream })

/-- **Opening to write** empties the file. -/
theorem fopenWrite_spec (s : Sys P) (path : P) :
    (∃ e s', s.fopenWrite path = (.error e, s') ∧ s'.nodes = s.nodes ∧ Next [] [] s s' ∧
      (s.Fair → writable (s.nodes path) = false)) ∨
    (∃ f s', s.fopenWrite path = (.ok f, s') ∧ Open s' f ⟨path, .writing [], false⟩ ∧
      s'.nodes = Function.update s.nodes path (replaced [] (s.nodes path)) ∧ Next [] [f] s s' ∧
      s.Fair ∧ writable (s.nodes path) = true) := by
  unfold fopenWrite
  rw [Fair]
  cases hw : s.weather s.requests with
  | some failure => exact .inl ⟨failure.errno, _, rfl, rfl, .tick s, nofun⟩
  | none =>
    cases hnode : writable (s.nodes path) with
    | true =>
      obtain ⟨s', hopen, hO, hnodes, hnext⟩ := (s.emptied path).opened_spec ⟨path, .writing [], false⟩
      refine .inr ⟨_, s', ?_, hO, hnodes, ⟨hnext.streams, hnext.weather, hnext.requests⟩, rfl, rfl⟩
      dsimp only
      rw [if_pos rfl, hopen]
    | false =>
      cases hpath : s.nodes path with
      | ok node => exact .inl ⟨_, _, rfl, rfl, .tick s, fun _ => rfl⟩
      | error e => exact .inl ⟨_, _, rfl, rfl, .tick s, fun _ => rfl⟩

/-- **A write** adds to what the stream has taken. -/
theorem fwrite_spec {written : List UInt8} {error : Bool}
    (h : Open s f ⟨path, .writing written, error⟩) (hbytes : bytes ≠ []) :
    ∃ error' s', s.fwrite f bytes = .ok ((s.accepted bytes).length, s') ∧
      Open s' f ⟨path, .writing (written ++ s.accepted bytes), error'⟩ ∧
      s'.nodes = put s.nodes path ((written ++ s.accepted bytes).take (s.flushed s.requests)) ∧
      Next [f] [f] s s' := by
  obtain ⟨streams, hstore, hcells⟩ := Mem.store_eq h (⟨path, .writing (written ++ s.accepted bytes),
    error || decide ((s.accepted bytes).length < bytes.length)⟩ : Stream P)
  refine ⟨error || decide ((s.accepted bytes).length < bytes.length), { s.tick with
    streams, nodes := put s.nodes path ((written ++ s.accepted bytes).take (s.flushed s.requests)) },
    ?_, ?_, rfl, ?_, rfl, Nat.le_succ _⟩
  · rw [fwrite, Mem.load_eq h, ok_bind]
    dsimp only
    rw [if_neg hbytes, hstore]
    rfl
  · rw [Open, hcells, Function.update_self]
  · exact Exchange.write (p := f) (by simpa using h.live) (by simp) hcells

omit [DecidableEq P] in
theorem accepted_prefix (s : Sys P) (bytes : List UInt8) : s.accepted bytes <+: bytes := by
  unfold accepted
  split
  · exact List.prefix_rfl
  · exact List.take_prefix ..

omit [DecidableEq P] in
/-- A write of some bytes is complete in fair weather only. -/
theorem length_accepted_eq (hbytes : bytes ≠ []) :
    (s.accepted bytes).length = bytes.length ↔ s.Fair := by
  have hlen := List.length_pos_of_ne_nil hbytes
  rw [accepted, Fair]
  cases s.weather s.requests with
  | none => simp
  | some failure => simp only [List.length_take, reduceCtorEq, iff_false]; omega

/-- **Closing** a stream ends it, whether it succeeds or not. -/
theorem fclose_spec (h : Open s f stream) :
    ∃ b s', s.fclose f = .ok (b, s') ∧ (b = true ↔ s.Fair) ∧ s'.nodes = s.left stream ∧
      Next [f] [] s s' := by
  obtain ⟨streams, hfree, hcells⟩ := Mem.free_eq h.live
  refine ⟨(s.weather s.requests).isNone, { s.tick with streams, nodes := s.left stream },
    ?_, by simp [Fair], rfl, ?_, rfl, Nat.le_succ _⟩
  · rw [fclose, Mem.load_eq h, ok_bind, hfree]
    rfl
  · exact .drop (by simp) (by simp) (.inl hcells)

omit [DecidableEq P] in
theorem settled_prefix (s : Sys P) (written : List UInt8) : s.settled written <+: written := by
  unfold settled
  split
  · exact List.prefix_rfl
  · exact List.take_prefix ..

omit [DecidableEq P] in
theorem settled_of_fair (h : s.Fair) (written : List UInt8) : s.settled written = written := by
  rw [settled, h]

end Sys

end Files
