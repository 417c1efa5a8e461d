import Mathlib.Tactic
import K4c.Lib.Files
import K4c.Mem.Owners

/-!
# Whole files

`io/file.c` and `io/common.h` over the files and streams of `K4c.Lib.Files`: ask about a
path, read a whole file into one block, write a whole file.  `*out` is 0 or `NULL` wherever
the status is not OK.

* `readAll_spec` — **reading a file**, whatever fails: no stream stays open, no block stays
  behind unless the status is OK, and then it holds what the file holds, up to the size that
  the system tells of it, and a zero byte.
* `writeAll_spec` — **writing a file**, whatever fails: no stream stays open, and the file
  holds the data when the status is OK, else what it held or the first bytes of the data.
-/

namespace K4c

open Exec Blocks Files Bytes

/-! ## `io/common.h` -/

namespace Io

variable {P : Type} [DecidableEq P]

/-- `k4c_io_errno_is_not_found`. -/
def errnoIsNotFound (e : Errno) : Bool := e = .noEntry ∨ e = .notDirectory

/-- What the callers return when a path cannot be opened or asked about. -/
def failed (e : Errno) : Status := if errnoIsNotFound e then .notFound else .io

/-- `k4c_io_file_close`. -/
def fileClose (s : Sys P) (file : ℕ) : Result (Status × Sys P) := do
  check (file ≠ 0) "fatal: k4c_io_file_close invalid arguments"
  let (closed, s) ← s.fclose file
  return (if closed then .ok else .io, s)

/-- `k4c_io_preserve_status`. -/
def preserveStatus (status cleanupStatus : Status) : Status :=
  if status ≠ .ok then status else cleanupStatus

theorem preserveStatus_of_ne {st : Status} (h : st ≠ .ok) (st' : Status) :
    preserveStatus st st' = st := if_pos h

theorem failed_ne_ok (e : Errno) : failed e ≠ .ok := by
  unfold failed
  split <;> decide

theorem fileClose_spec {s : Sys P} {f : ℕ} {stream : Stream P} (h : s.Open f stream) :
    ∃ st s', fileClose s f = .ok (st, s') ∧ s'.nodes = s.left stream ∧ s.Next [f] [] s' ∧
      (st = .ok ∧ s.Fair ∨ st = .io ∧ ¬ s.Fair) := by
  obtain ⟨b, s', hclose, hb, hnodes, hnext⟩ := Sys.fclose_spec h
  refine ⟨if b then .ok else .io, s', ?_, hnodes, hnext, ?_⟩
  · rw [fileClose, check_of (Mem.ne_zero_of_live h.live), ok_bind, hclose]
    rfl
  · cases b with
    | true => exact .inl ⟨rfl, hb.1 rfl⟩
    | false => exact .inr ⟨rfl, fun hfair => Bool.noConfusion (hb.2 hfair)⟩

end Io

namespace File

variable {P : Type}

/-! ## Asking about a path -/

/-- `k4c_file_stat`. -/
def stat (path : P) (s : Sys P) : (Status × Option Node) × Sys P :=
  match s.stat path with
  | (.error e, s) => ((Io.failed e, none), s)
  | (.ok st, s) => ((.ok, some st), s)

/-- `S_ISDIR`. -/
def isDirectory : Node → Bool
  | .directory => true
  | _ => false

/-- `k4c_file_is_dir`: the status and `*out`. -/
def isDir (path : P) (s : Sys P) : (Status × Bool) × Sys P :=
  match stat path s with
  | ((status, none), s) => ((status, false), s)
  | ((_, some st), s) => ((.ok, isDirectory st), s)

/-- `k4c_file_size`: the status and `*out`. -/
def size (path : P) (s : Sys P) : (Status × ℕ) × Sys P :=
  match stat path s with
  | ((status, none), s) => ((status, 0), s)
  | ((_, some (.file size _)), s) =>
    if size < 0 ∨ size > sizeMax then ((.overflow, 0), s) else ((.ok, size.toNat), s)
  | ((_, some _), s) => ((.invalidArgument, 0), s)

/-! ## Reading -/

variable [DecidableEq P]

/-- The rest of `k4c_file_read_all` when the file is open. -/
def readOpened (file len : ℕ) (allocator : Option (Allocator Memory)) (s : Sys P) (w : Memory) :
    Result ((Status × ℕ × ℕ) × Sys P × Memory) := do
  let allocLen ← sizeAdd len 1
  let ((st, data), w) ← Allocator.alloc Memory.libc allocator w allocLen
  if st ≠ .ok then
    let (closed, s) ← Io.fileClose s file
    return ((Io.preserveStatus st closed, 0, 0), s, w)
  -- memset(data, 0, alloc_len)
  let w ← w.write data 0 (List.replicate allocLen 0)
  let (bytes, s) ← s.fread file len
  let w ← w.write data 0 bytes
  let error ← s.ferror file
  if bytes.length ≠ len ∨ error = true then
    let w ← Allocator.dealloc Memory.libc allocator w data
    let (closed, s) ← Io.fileClose s file
    return ((Io.preserveStatus .io closed, 0, 0), s, w)
  let (closed, s) ← Io.fileClose s file
  if closed ≠ .ok then
    let w ← Allocator.dealloc Memory.libc allocator w data
    return ((.io, 0, 0), s, w)
  return ((.ok, data, len), s, w)

/-- The rest of `k4c_file_read_all` when the size is known. -/
def readSized (path : P) (len : ℕ) (allocator : Option (Allocator Memory)) (s : Sys P)
    (w : Memory) : Result ((Status × ℕ × ℕ) × Sys P × Memory) :=
  match s.fopenRead path with
  | (.error e, s) => .ok ((Io.failed e, 0, 0), s, w)
  | (.ok file, s) => readOpened file len allocator s w

/-- `k4c_file_read_all`: the status, `*out_data` and `*out_len`. -/
def readAll (path : P) (allocator : Option (Allocator Memory)) (s : Sys P) (w : Memory) :
    Result ((Status × ℕ × ℕ) × Sys P × Memory) :=
  let ((st, len), s) := size path s
  if st ≠ .ok then .ok ((st, 0, 0), s, w)
  else if len = sizeMax then .ok ((.overflow, 0, 0), s, w)
  else readSized path len allocator s w

/-! ## Writing -/

/-- The rest of `k4c_file_write_all` when the file is open. -/
def writeOpened (file : ℕ) (data : Arg) (len : ℕ) (w : Memory) (s : Sys P) :
    Result (Status × Sys P) := do
  if len > 0 then
    let bytes ← w.source data len
    let (written, s) ← s.fwrite file bytes
    if written ≠ len then
      let (closed, s) ← Io.fileClose s file
      return (Io.preserveStatus .io closed, s)
    Io.fileClose s file
  else Io.fileClose s file

/-- `k4c_file_write_all`. -/
def writeAll (path : P) (data : Arg) (len : ℕ) (w : Memory) (s : Sys P) :
    Result (Status × Sys P) := do
  check (data ≠ .null ∨ len = 0) "fatal: k4c_file_write_all invalid arguments"
  match s.fopenWrite path with
  | (.error _, s) => return (.io, s)
  | (.ok file, s) => writeOpened file data len w s

/-! ## What the calls do -/

/-- The status of `k4c_file_size`, when nothing fails. -/
def sizeStatus : Except Errno Node → Status
  | .error e => Io.failed e
  | .ok (.file size _) => if size < 0 ∨ size > sizeMax then .overflow else .ok
  | .ok _ => .invalidArgument

/-- The status of `k4c_file_read_all`, when nothing fails. -/
def readStatus : Except Errno Node → Status
  | .ok (.file size bytes) =>
    if size < 0 ∨ size ≥ sizeMax then .overflow else if bytes.length < size then .io else .ok
  | node => sizeStatus node

/-- The status of `k4c_file_write_all`, when nothing fails. -/
def writeStatus (node : Except Errno Node) : Status := if writable node then .ok else .io

variable {s : Sys P} {w : Memory} {path : P} {f len : ℕ} {bytes : List UInt8}
  {a : Option (Allocator Memory)}

omit [DecidableEq P] in
theorem stat_spec (path : P) (s : Sys P) :
    ∃ r s', stat path s = (r, s') ∧ s'.nodes = s.nodes ∧ s.Next [] [] s' ∧
      ((∃ st, r = (st, none) ∧ st ≠ .ok ∧
          (s.Fair → ∃ e, s.nodes path = .error e ∧ st = Io.failed e)) ∨
        ∃ node, r = (.ok, some node) ∧ s.nodes path = .ok node) := by
  have htick : s.Next [] [] s.tick := .tick s
  cases hw : s.weather s.requests with
  | some failure =>
    refine ⟨(Io.failed failure.errno, none), s.tick, ?_, rfl, htick,
      .inl ⟨_, rfl, Io.failed_ne_ok _, fun hfair => ?_⟩⟩
    · rw [stat, Sys.stat, hw]
    · rw [Sys.Fair, hw] at hfair
      cases hfair
  | none =>
    cases hnode : s.nodes path with
    | error e =>
      refine ⟨(Io.failed e, none), s.tick, ?_, rfl, htick,
        .inl ⟨_, rfl, Io.failed_ne_ok e, fun _ => ⟨e, rfl, rfl⟩⟩⟩
      rw [stat, Sys.stat, hw, hnode]
    | ok node =>
      refine ⟨(.ok, some node), s.tick, ?_, rfl, htick, .inr ⟨node, rfl, rfl⟩⟩
      rw [stat, Sys.stat, hw, hnode]

omit [DecidableEq P] in
theorem isDir_spec (path : P) (s : Sys P) :
    ∃ st out s', isDir path s = ((st, out), s') ∧ s'.nodes = s.nodes ∧ s.Next [] [] s' ∧
      ((st ≠ .ok ∧ out = false ∧ (s.Fair → ∃ e, s.nodes path = .error e ∧ st = Io.failed e)) ∨
        st = .ok ∧ ∃ node, s.nodes path = .ok node ∧ out = isDirectory node) := by
  obtain ⟨r, s', hstat, hnodes, hnext, ⟨st, rfl, hst, hfair⟩ | ⟨node, rfl, hnode⟩⟩ :=
    stat_spec path s
  · exact ⟨st, false, s', by rw [isDir, hstat], hnodes, hnext, .inl ⟨hst, rfl, hfair⟩⟩
  · exact ⟨.ok, isDirectory node, s', by rw [isDir, hstat], hnodes, hnext,
      .inr ⟨rfl, node, hnode, rfl⟩⟩

omit [DecidableEq P] in
theorem size_spec (path : P) (s : Sys P) :
    ∃ st n s', size path s = ((st, n), s') ∧ s'.nodes = s.nodes ∧ s.Next [] [] s' ∧
      (s.Fair → st = sizeStatus (s.nodes path)) ∧
      ((st ≠ .ok ∧ n = 0) ∨
        st = .ok ∧ n ≤ sizeMax ∧ ∃ bytes, s.nodes path = .ok (.file n bytes)) := by
  obtain ⟨r, s', hstat, hnodes, hnext, ⟨st, rfl, hst, hfair⟩ | ⟨node, rfl, hnode⟩⟩ :=
    stat_spec path s
  · refine ⟨st, 0, s', by rw [size, hstat], hnodes, hnext, fun h => ?_, .inl ⟨hst, rfl⟩⟩
    obtain ⟨e, he, rfl⟩ := hfair h
    rw [he, sizeStatus]
  · cases node with
    | file n bytes =>
      by_cases hn : n < 0 ∨ n > sizeMax
      · refine ⟨.overflow, 0, s', ?_, hnodes, hnext, fun _ => ?_, .inl ⟨by decide, rfl⟩⟩
        · rw [size, hstat]
          exact if_pos hn
        · rw [hnode, sizeStatus, if_pos hn]
      · rw [not_or, not_lt, not_lt] at hn
        obtain ⟨m, rfl⟩ := Int.eq_ofNat_of_zero_le hn.1
        refine ⟨.ok, m, s', ?_, hnodes, hnext, fun _ => ?_, .inr ⟨rfl, by omega, bytes, hnode⟩⟩
        · rw [size, hstat]
          exact if_neg (by omega)
        · rw [hnode, sizeStatus, if_neg (by omega)]
    | directory =>
      exact ⟨.invalidArgument, 0, s', by rw [size, hstat], hnodes, hnext,
        fun _ => by rw [hnode, sizeStatus]; nofun, .inl ⟨by decide, rfl⟩⟩
    | special bytes =>
      exact ⟨.invalidArgument, 0, s', by rw [size, hstat], hnodes, hnext,
        fun _ => by rw [hnode, sizeStatus]; nofun, .inl ⟨by decide, rfl⟩⟩

omit [DecidableEq P] in
/-- What the first read from a file brings. -/
theorem fread_first (hO : s.Open f ⟨path, .reading 0, false⟩) (hbytes : s.content path = some bytes)
    (len : ℕ) :
    ∃ k position error s', s.fread f len = .ok (bytes.take k, s') ∧ k ≤ len ∧
      s'.Open f ⟨path, .reading position, error⟩ ∧ s'.nodes = s.nodes ∧ s.Next [f] [f] s' ∧
      (s.Fair → k = len ∧ error = false) := by
  by_cases hlen : len = 0
  · subst hlen
    exact ⟨0, 0, false, s, Sys.fread_zero hO, le_rfl, hO, rfl,
      ⟨.refl (by simpa using hO.live), rfl, le_rfl⟩, fun _ => ⟨rfl, rfl⟩⟩
  · obtain ⟨s', hread, hO', hnodes, hnext⟩ := Sys.fread_spec hO (Nat.pos_of_ne_zero hlen)
    obtain ⟨k, hk, htake, herror, hfair⟩ := s.received_spec hbytes 0 len
    rw [List.drop_zero] at htake
    refine ⟨k, _, _, s', by rw [hread, htake], hk, hO', hnodes, hnext, fun h => ⟨hfair h, ?_⟩⟩
    rw [herror.2 h]
    rfl

/-- What reading a whole file into a block of one's own comes to. -/
def Reads (a : Option (Allocator Memory)) (node : Except Errno Node) (w : Memory)
    (r : Status × ℕ × ℕ) (w' : Memory) : Prop :=
  (r.1 = .ok ∧ ∃ len bytes p, node = .ok (.file (len : ℕ) bytes) ∧ len < sizeMax ∧
    len ≤ bytes.length ∧ r.2 = (p, len) ∧
    w'.cells p = some ⟨len + 1, .bytes (bytes.take len ++ [0])⟩ ∧
    Exchange (Reclaims (Allocator.copy a)) [] [p] w w') ∨
  (r.1 ≠ .ok ∧ r.2 = (0, 0) ∧ Exchange (Reclaims (Allocator.copy a)) [] [] w w')

theorem readOpened_spec (ha : Backed (Allocator.copy a)) (hO : s.Open f ⟨path, .reading 0, false⟩)
    (hnode : s.nodes path = .ok (.file (len : ℕ) bytes)) (hlen : len < sizeMax) (w : Memory) :
    ∃ r s' w', readOpened f len a s w = .ok (r, s', w') ∧ s'.nodes = s.nodes ∧
      s.Next [f] [] s' ∧ Reads a (s.nodes path) w r w' ∧
      (s.AllFair → r.1 = (if bytes.length < len then .io else .ok) ∨
        r.1 = .noMemory ∧ w.answers w.requests = none) := by
  have hfits : len + 1 ≤ sizeMax := hlen
  rw [readOpened, sizeAdd_of_le hfits, ok_bind, Allocator.alloc_copy]
  set copy := Allocator.copy a with hcopy
  cases hanswer : w.answers w.requests with
  | none =>
    -- no memory: the file is closed and nothing else was done
    obtain ⟨closed, s', hclose, hnodes, hnext, -⟩ := Io.fileClose_spec hO
    refine ⟨(.noMemory, 0, 0), s', w.refuse, ?_, hnodes, hnext,
      .inr ⟨by decide, rfl, .same (by simp) rfl⟩, fun _ => .inr ⟨rfl, rfl⟩⟩
    rw [Allocator.alloc_refused ha _ hanswer, ok_bind]
    dsimp only
    rw [if_pos (by decide), hclose, ok_bind, Io.preserveStatus_of_ne (by decide)]
    rfl
  | some g =>
    obtain ⟨junk, w₁, halloc, hjunk, hcells₁⟩ := Allocator.alloc_granted ha (len + 1) hanswer
    have hgain : Exchange (Reclaims copy) [] [w.next] w w₁ := .gain (by simp) hcells₁
    obtain ⟨w₂, hmemset, hcells₂⟩ := Memory.write_eq (k := 0) (e := List.replicate (len + 1) 0)
      (by rw [hcells₁, Function.update_self]) (by simp [hjunk])
    rw [splice_of_length (by simp [hjunk])] at hcells₂
    obtain ⟨k, position, error, s₁, hread, hk, hO₁, hnodes₁, hnext₁, hfair₁⟩ :=
      fread_first hO (by rw [Sys.content, hnode]; rfl) len
    have hshort : (bytes.take k).length ≤ len := (List.length_take_le ..).trans hk
    obtain ⟨w₃, hcopied, hcells₃⟩ := Memory.write_eq (k := 0) (e := bytes.take k)
      (by rw [hcells₂, Function.update_self]) (by simp; omega)
    have hx₃ : Exchange (Reclaims copy) [] [w.next] w w₃ :=
      (hgain.trans (.write hgain.held (by simp) hcells₂)).trans
        (.write (hgain.trans (.write hgain.held (by simp) hcells₂)).held (by simp) hcells₃)
    obtain ⟨w₄, hdealloc, hcells₄⟩ := Allocator.dealloc_spec ha (hx₃.held w.next (by simp))
    have hx₄ : Exchange (Reclaims copy) [] [] w w₄ := hx₃.trans (.drop (by simp) (by simp) hcells₄)
    rw [hcopy, ← Allocator.dealloc_copy] at hdealloc
    obtain ⟨closed, s₂, hclose, hnodes₂, hnext₂, hclosed⟩ := Io.fileClose_spec hO₁
    have hnodes : s₂.nodes = s.nodes := hnodes₂.trans hnodes₁
    have hnext : s.Next [f] [] s₂ := hnext₁.trans hnext₂
    simp only [halloc, ok_bind, ne_eq, not_true_eq_false, if_false, hmemset, hread, hcopied,
      Sys.ferror_spec hO₁]
    by_cases hbad : ¬ (bytes.take k).length = len ∨ error = true
    · -- a short read
      refine ⟨(.io, 0, 0), s₂, w₄, ?_, hnodes, hnext, .inr ⟨by decide, rfl, hx₄⟩,
        fun hfair => .inl ?_⟩
      · rw [if_pos hbad, hdealloc, ok_bind, hclose, ok_bind, Io.preserveStatus_of_ne (by decide)]
        rfl
      · obtain ⟨rfl, rfl⟩ := hfair₁ hfair.fair
        rw [List.length_take] at hbad
        rw [if_pos (by simp at hbad; omega)]
    rw [if_neg hbad, hclose, ok_bind]
    rw [not_or, not_not, List.length_take] at hbad
    have hle : len ≤ bytes.length := by omega
    rcases hclosed with ⟨rfl, -⟩ | ⟨rfl, hunfair⟩
    · obtain rfl : k = len := by omega
      refine ⟨(.ok, w.next, k), s₂, w₃, rfl, hnodes, hnext,
        .inl ⟨rfl, k, bytes, w.next, hnode, hlen, hle, rfl, ?_, hx₃⟩,
        fun _ => .inl (by rw [if_neg (by omega)])⟩
      rw [hcells₃, Function.update_self]
      simp [splice, hle]
    · -- the file could not be closed
      refine ⟨(.io, 0, 0), s₂, w₄, ?_, hnodes, hnext, .inr ⟨by decide, rfl, hx₄⟩,
        fun hfair => absurd (hnext₁.allFair hfair).fair hunfair⟩
      dsimp only
      rw [if_pos (by decide), hdealloc]
      rfl

/-- **Reading a file.** -/
theorem readAll_spec (ha : Backed (Allocator.copy a)) (path : P) (s : Sys P) (w : Memory) :
    ∃ r s' w', readAll path a s w = .ok (r, s', w') ∧ s'.nodes = s.nodes ∧ s.Next [] [] s' ∧
      Reads a (s.nodes path) w r w' ∧
      (s.AllFair → r.1 = readStatus (s.nodes path) ∨
        r.1 = .noMemory ∧ w.answers w.requests = none) := by
  have hsame : Exchange (Reclaims (Allocator.copy a)) [] [] w w := .refl (by simp)
  obtain ⟨st, n, s₁, hsize, hnodes₁, hnext₁, hfair₁, ⟨hst, rfl⟩ | ⟨rfl, hn, bytes, hnode⟩⟩ :=
    size_spec path s
  · refine ⟨(st, 0, 0), s₁, w, ?_, hnodes₁, hnext₁, .inr ⟨hst, rfl, hsame⟩,
      fun hfair => .inl ?_⟩
    · rw [readAll, hsize]
      exact if_pos hst
    · have hstatus := hfair₁ hfair.fair
      show st = _
      unfold readStatus
      split
      · rename_i size bytes hnode
        rw [hnode, sizeStatus] at hstatus
        split at hstatus
        · rw [if_pos (by omega), hstatus]
        · exact absurd hstatus hst
      · exact hstatus
  by_cases hmax : n = sizeMax
  · refine ⟨(.overflow, 0, 0), s₁, w, ?_, hnodes₁, hnext₁, .inr ⟨by decide, rfl, hsame⟩,
      fun _ => .inl ?_⟩
    · rw [readAll, hsize]
      exact if_pos hmax
    · rw [hnode, readStatus, if_pos (by omega)]
  have hsized : readAll path a s w = readSized path n a s₁ w := by
    rw [readAll, hsize]
    exact if_neg hmax
  rcases s₁.fopenRead_spec path with ⟨e, s₂, hfopen, hnodes₂, hnext₂, hfair₂⟩ |
    ⟨f, s₂, hfopen, hO, hnodes₂, hnext₂, -, -⟩
  · refine ⟨(Io.failed e, 0, 0), s₂, w, ?_, hnodes₂.trans hnodes₁, hnext₁.trans hnext₂,
      .inr ⟨Io.failed_ne_ok e, rfl, hsame⟩, fun hfair => ?_⟩
    · rw [hsized, readSized, hfopen]
    · have hnone := hfair₂ (hnext₁.allFair hfair).fair
      rw [hnodes₁, hnode] at hnone
      cases hnone
  · have hnode₂ : s₂.nodes path = .ok (.file (n : ℕ) bytes) := by rw [hnodes₂, hnodes₁, hnode]
    obtain ⟨r, s₃, w', hread, hnodes₃, hnext₃, hreads, hfair₃⟩ :=
      readOpened_spec ha hO hnode₂ (by omega) w
    rw [hnode₂] at hreads
    refine ⟨r, s₃, w', ?_, by rw [hnodes₃, hnodes₂, hnodes₁], (hnext₁.trans hnext₂).trans hnext₃,
      by rwa [hnode], fun hfair => ?_⟩
    · rw [hsized, readSized, hfopen]
      exact hread
    · have hfits : ¬ ((n : ℤ) < 0 ∨ (n : ℤ) ≥ sizeMax) := by omega
      rw [hnode, readStatus, if_neg hfits]
      simpa using hfair₃ ((hnext₁.trans hnext₂).allFair hfair)

/-- Reading from an open file asks for one block, and blames the memory when that is refused. -/
theorem readOpened_asked (ha : Backed (Allocator.copy a)) {x : (Status × ℕ × ℕ) × Sys P × Memory}
    (h : readOpened f len a s w = .ok x) : w.Asked x.2.2 (x.1.1 = .noMemory) ∧
      (x.1.1 = .noMemory → w.answers w.requests = none) := by
  obtain ⟨allocLen, -, h⟩ := bind_eq_ok.1 h
  obtain ⟨⟨⟨st, data⟩, w₁⟩, halloc, h⟩ := bind_eq_ok.1 h
  rw [Allocator.alloc_copy] at halloc
  have hx := Allocator.alloc_explains ha halloc
  dsimp only at h hx
  split at h
  · rename_i hst
    obtain ⟨⟨closed, s₁⟩, -, h⟩ := bind_eq_ok.1 h
    cases h
    rw [Io.preserveStatus_of_ne hst]
    refine ⟨hx.asked, fun _ => ?_⟩
    cases hanswer : w.answers w.requests with
    | none => rfl
    | some g =>
      obtain ⟨junk, w₂, hgranted, -⟩ := Allocator.alloc_granted ha allocLen hanswer
      cases halloc.symm.trans hgranted
      exact absurd rfl hst
  rename_i hst
  rw [not_not.1 hst] at hx
  obtain ⟨w₂, hmemset, h⟩ := bind_eq_ok.1 h
  obtain ⟨⟨bytes, s₁⟩, -, h⟩ := bind_eq_ok.1 h
  obtain ⟨w₃, hcopied, h⟩ := bind_eq_ok.1 h
  obtain ⟨error, -, h⟩ := bind_eq_ok.1 h
  have hwritten := (Memory.write_rewritten hmemset).trans (Memory.write_rewritten hcopied)
  have hasked : w.Asked w₃ False := hx.asked_of_ok.andThen (hwritten.toQuiet.asked id)
  dsimp only at h
  split at h
  · obtain ⟨w₄, hdealloc, h⟩ := bind_eq_ok.1 h
    obtain ⟨⟨closed, s₂⟩, -, h⟩ := bind_eq_ok.1 h
    cases h
    rw [Allocator.dealloc_copy] at hdealloc
    exact ⟨(hasked.andThen (Allocator.dealloc_asked ha hdealloc)).mono nofun, nofun⟩
  · obtain ⟨⟨closed, s₂⟩, -, h⟩ := bind_eq_ok.1 h
    dsimp only at h
    split at h
    · obtain ⟨w₄, hdealloc, h⟩ := bind_eq_ok.1 h
      cases h
      rw [Allocator.dealloc_copy] at hdealloc
      exact ⟨(hasked.andThen (Allocator.dealloc_asked ha hdealloc)).mono nofun, nofun⟩
    · cases h
      exact ⟨hasked.mono nofun, nofun⟩

theorem failed_ne_noMemory (e : Errno) : Io.failed e ≠ .noMemory := by
  unfold Io.failed
  split <;> decide

omit [DecidableEq P] in
theorem size_ne_noMemory (path : P) (s : Sys P) : (size path s).1.1 ≠ .noMemory := by
  unfold size stat
  generalize s.stat path = r
  obtain ⟨e | node, s'⟩ := r
  · exact failed_ne_noMemory e
  · cases node with
    | file n bytes =>
      dsimp only
      split
      · exact nofun
      · exact nofun
    | directory => exact nofun
    | special bytes => exact nofun

/-- **Reading a file** blames the memory only when it is refused the block for the bytes. -/
theorem readAll_asked (ha : Backed (Allocator.copy a)) {x : (Status × ℕ × ℕ) × Sys P × Memory}
    (h : readAll path a s w = .ok x) : w.Asked x.2.2 (x.1.1 = .noMemory) ∧
      (x.1.1 = .noMemory → w.answers w.requests = none) := by
  have hsize := size_ne_noMemory path s
  unfold readAll at h
  generalize size path s = r at h hsize
  obtain ⟨⟨st, n⟩, s₁⟩ := r
  dsimp only at h hsize
  split at h
  · cases h
    exact ⟨.refl w hsize, fun hst => absurd hst hsize⟩
  split at h
  · cases h
    exact ⟨.refl w nofun, nofun⟩
  unfold readSized at h
  split at h
  · cases h
    exact ⟨.refl w (failed_ne_noMemory _), fun hst => absurd hst (failed_ne_noMemory _)⟩
  · exact readOpened_asked ha h

/-- What writing these bytes to a file comes to: all of them are there, or it failed and the
first ones may be. -/
def Writes (bytes : List UInt8) (nodes : List UInt8 → P → Except Errno Node) (st : Status)
    (after : P → Except Errno Node) : Prop :=
  (st = .ok ∧ after = nodes bytes) ∨ (st = .io ∧ ∃ k, after = nodes (bytes.take k))

theorem writeOpened_spec {data : Arg} (hO : s.Open f ⟨path, .writing [], false⟩)
    (hlen : bytes.length = len) (hdata : len = 0 ∨ w.source data len = .ok bytes) :
    ∃ st s', writeOpened f data len w s = .ok (st, s') ∧ s.Next [f] [] s' ∧
      Writes bytes (Sys.put s.nodes path) st s'.nodes ∧ (s.AllFair → st = .ok) := by
  by_cases hzero : len = 0
  · -- nothing is written
    obtain rfl : bytes = [] := List.length_eq_zero_iff.1 (hlen.trans hzero)
    obtain ⟨st, s', hclose, hnodes, hnext, hst⟩ := Io.fileClose_spec hO
    have hnil : s'.nodes = Sys.put s.nodes path [] := by
      rw [hnodes, Sys.left_writing, List.prefix_nil.1 (s.settled_prefix [])]
    refine ⟨st, s', ?_, hnext, ?_, fun hfair => ?_⟩
    · rw [writeOpened, if_neg (by omega), hclose]
    · exact hst.imp (fun h => ⟨h.1, hnil⟩) fun h => ⟨h.1, 0, hnil⟩
    · exact hst.elim (fun h => h.1) fun h => absurd hfair.fair h.2
  have hne : bytes ≠ [] := List.ne_nil_of_length_pos (by omega)
  obtain ⟨error, s₁, hwrite, hO₁, hnodes₁, hnext₁⟩ := Sys.fwrite_spec hO hne
  rw [List.nil_append] at hO₁ hnodes₁
  obtain ⟨st, s', hclose, hnodes, hnext, hst⟩ := Io.fileClose_spec hO₁
  have hleft : s'.nodes = Sys.put s.nodes path (s₁.settled (s.accepted bytes)) := by
    rw [hnodes, Sys.left_writing, hnodes₁, Sys.put_put]
  have hprefix : s₁.settled (s.accepted bytes) <+: bytes :=
    (s₁.settled_prefix _).trans (s.accepted_prefix bytes)
  have hpart : ∃ k, s'.nodes = Sys.put s.nodes path (bytes.take k) :=
    ⟨_, by rw [hleft, List.prefix_iff_eq_take.1 hprefix]⟩
  have hshort := s.length_accepted_eq hne
  have hwritten : writeOpened f data len w s =
      if (s.accepted bytes).length ≠ len then
        Io.fileClose s₁ f >>= fun r => pure (Io.preserveStatus .io r.1, r.2)
      else Io.fileClose s₁ f := by
    rw [writeOpened, if_pos (by omega), hdata.resolve_left hzero, ok_bind, hwrite]
    rfl
  by_cases hall : (s.accepted bytes).length = len
  · -- the stream has taken everything
    have haccepted : s.accepted bytes = bytes :=
      (s.accepted_prefix bytes).eq_of_length (hall.trans hlen.symm)
    refine ⟨st, s', ?_, hnext₁.trans hnext, ?_, fun hfair => ?_⟩
    · rw [hwritten, if_neg (not_not.2 hall), hclose]
    · refine hst.imp (fun h => ⟨h.1, ?_⟩) fun h => ⟨h.1, hpart⟩
      rw [hleft, haccepted, Sys.settled_of_fair h.2]
    · exact hst.elim (fun h => h.1) fun h => absurd (hnext₁.allFair hfair).fair h.2
  · refine ⟨.io, s', ?_, hnext₁.trans hnext, .inr ⟨rfl, hpart⟩, fun hfair => ?_⟩
    · rw [hwritten, if_pos hall, hclose, ok_bind, Io.preserveStatus_of_ne (by decide)]
      rfl
    · exact absurd ((hshort.2 hfair.fair).trans hlen) hall

/-- **Writing a file.** -/
theorem writeAll_spec {data : Arg} (path : P) (s : Sys P) (hlen : bytes.length = len)
    (hdata : len = 0 ∨ w.source data len = .ok bytes) :
    ∃ st s', writeAll path data len w s = .ok (st, s') ∧ s.Next [] [] s' ∧
      (st = .io ∧ s'.nodes = s.nodes ∨ writable (s.nodes path) = true ∧
        Writes bytes (fun bytes => Function.update s.nodes path (replaced bytes (s.nodes path)))
          st s'.nodes) ∧
      (s.AllFair → st = writeStatus (s.nodes path)) := by
  have hcheck : data ≠ .null ∨ len = 0 := by
    refine hdata.symm.imp_left ?_
    rintro hsource rfl
    cases hsource
  rw [writeAll, check_of hcheck, ok_bind]
  rcases s.fopenWrite_spec path with ⟨e, s₁, hfopen, hnodes, hnext, hfair⟩ |
    ⟨f, s₁, hfopen, hO, hnodes, hnext, -, hwritable⟩
  · refine ⟨.io, s₁, by rw [hfopen]; rfl, hnext, .inl ⟨rfl, hnodes⟩, fun h => ?_⟩
    rw [writeStatus, hfair h.fair]
    rfl
  · obtain ⟨st, s₂, hwrite, hnext₂, hwrites, hfair⟩ := writeOpened_spec hO hlen hdata
    refine ⟨st, s₂, by rw [hfopen]; exact hwrite, hnext.trans hnext₂, .inr ⟨hwritable, ?_⟩,
      fun h => ?_⟩
    · have hput : Sys.put s₁.nodes path =
          fun bytes => Function.update s.nodes path (replaced bytes (s.nodes path)) := by
        funext bytes
        rw [hnodes, Sys.put_replaced]
      rwa [hput] at hwrites
    · rw [writeStatus, if_pos hwritable, hfair (hnext.allFair h)]

end File
end K4c
