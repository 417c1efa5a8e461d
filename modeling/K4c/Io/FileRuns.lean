import Mathlib.Tactic
import K4c.Lib.Refusals
import K4c.Io.File

/-!
# A program that works with files

A run of calls of `io/file.c` over any paths, in any weather and with any answers of the
memory.

* `Serves` — what the calls are for: a store of files, each call with its answer and the
  store after it.
* `runs_serve` — **the code serves the store**, and no stream and no block is left over.
* `write_then_read` — **what was written is read back**, whatever is done in between that
  does not write to the same path.
-/

namespace K4c.File

open Exec Blocks Files Runs

variable {P : Type}

/-- A call of the program.  It looks at the block that a file was read into and gives the
block back. -/
inductive Call (P : Type) where
  | isDir (path : P)
  | size (path : P)
  | readAll (path : P)
  | writeAll (path : P) (data : List UInt8)
  deriving DecidableEq, Repr

/-- What the program sees of a call. -/
inductive Answer where
  | dir (st : Status) (out : Bool)
  | size (st : Status) (out : ℕ)
  | read (st : Status) (len : ℕ) (block : List UInt8)
  | wrote (st : Status)
  deriving DecidableEq, Repr

/-- The call writes to the path. -/
def Call.writesTo (path : P) : Call P → Prop
  | .writeAll path' _ => path' = path
  | _ => False

variable [DecidableEq P]

/-- Make a call. -/
def step (a : Option (Allocator Memory)) (x : Sys P × Memory) :
    Call P → Result (Answer × Sys P × Memory)
  | .isDir path =>
    let ((st, out), s) := isDir path x.1
    .ok (.dir st out, s, x.2)
  | .size path =>
    let ((st, out), s) := size path x.1
    .ok (.size st out, s, x.2)
  | .readAll path => do
    let ((st, data, len), s, w) ← readAll path a x.1 x.2
    if st ≠ .ok then return (.read st len [], s, w)
    let block ← w.read data 0 (len + 1)
    let w ← Allocator.dealloc Memory.libc a w data
    return (.read st len block, s, w)
  | .writeAll path data => do
    let (st, s) ← writeAll path (.outside data) data.length x.2 x.1
    return (.wrote st, s, x.2)

/-- **A store of files.**  Between two stores a call may be answered so; `fair` says that no
request for a file fails for reasons of its own, `refused` that the memory has refused a
request for a block. -/
inductive Serves (fair refused : Prop) (nodes : P → Except Errno Node) :
    Call P → Answer → (P → Except Errno Node) → Prop
  | isDir {path : P} {node : Node} (h : nodes path = .ok node) :
    Serves fair refused nodes (.isDir path) (.dir .ok (isDirectory node)) nodes
  | notDir {path : P} {st : Status} (hst : st ≠ .ok)
    (hfair : fair → ∃ e, nodes path = .error e ∧ st = Io.failed e) :
    Serves fair refused nodes (.isDir path) (.dir st false) nodes
  | size {path : P} {n : ℕ} {bytes : List UInt8} (h : nodes path = .ok (.file n bytes)) :
    Serves fair refused nodes (.size path) (.size .ok n) nodes
  | notSize {path : P} {st : Status} (hst : st ≠ .ok)
    (hfair : fair → st = sizeStatus (nodes path)) :
    Serves fair refused nodes (.size path) (.size st 0) nodes
  | read {path : P} {len : ℕ} {bytes : List UInt8} (h : nodes path = .ok (.file len bytes))
    (hle : len ≤ bytes.length) :
    Serves fair refused nodes (.readAll path) (.read .ok len (bytes.take len ++ [0])) nodes
  | notRead {path : P} {st : Status} (hst : st ≠ .ok)
    (hfair : fair → st = readStatus (nodes path) ∨ st = .noMemory)
    (hrefused : st = .noMemory → refused) :
    Serves fair refused nodes (.readAll path) (.read st 0 []) nodes
  | wrote {path : P} {data : List UInt8} (h : writable (nodes path) = true) :
    Serves fair refused nodes (.writeAll path data) (.wrote .ok)
      (Function.update nodes path (replaced data (nodes path)))
  | notWritten {path : P} {data : List UInt8} (hfair : fair → writable (nodes path) = false) :
    Serves fair refused nodes (.writeAll path data) (.wrote .io) nodes
  | cut {path : P} {data : List UInt8} (k : ℕ) (h : writable (nodes path) = true)
    (hfair : ¬ fair) :
    Serves fair refused nodes (.writeAll path data) (.wrote .io)
      (Function.update nodes path (replaced (data.take k) (nodes path)))

variable {a : Option (Allocator Memory)} {path : P} {fair refused : Prop}
  {nodes nodes' : P → Except Errno Node} {c : Call P} {o : Answer}

theorem Serves.imp {fair' refused' : Prop} (h : Serves fair refused nodes c o nodes')
    (hf : fair' → fair) (hr : refused → refused') : Serves fair' refused' nodes c o nodes' := by
  cases h with
  | isDir h => exact .isDir h
  | notDir hst h => exact .notDir hst fun hfair => h (hf hfair)
  | size h => exact .size h
  | notSize hst h => exact .notSize hst fun hfair => h (hf hfair)
  | read h hle => exact .read h hle
  | notRead hst h hrefused =>
    exact .notRead hst (fun hfair => h (hf hfair)) fun hnone => hr (hrefused hnone)
  | wrote h => exact .wrote h
  | notWritten h => exact .notWritten fun hfair => h (hf hfair)
  | cut k h hnot => exact .cut k h fun hfair => hnot (hf hfair)

/-- What one call leaves behind. -/
structure Clean (a : Option (Allocator Memory)) (x y : Sys P × Memory) : Prop where
  files : x.1.Next [] [] y.1
  blocks : Exchange (Reclaims (Allocator.copy a)) [] [] x.2 y.2
  asked : x.2.Asked y.2 False

omit [DecidableEq P] in
theorem Clean.trans {x y z : Sys P × Memory} (h : Clean a x y) (h' : Clean a y z) : Clean a x z :=
  ⟨h.files.trans h'.files, h.blocks.trans h'.blocks, h.asked.andThen h'.asked⟩

omit [DecidableEq P] in
theorem Clean.same {s s' : Sys P} (h : s.Next [] [] s') (w : Memory) : Clean a (s, w) (s', w) :=
  ⟨h, .refl (by simp), .refl w id⟩

/-- A call that finds no memory was refused a request. -/
theorem step_asked (ha : Backed (Allocator.copy a)) {x : Sys P × Memory} {c : Call P}
    {p : Answer × Sys P × Memory} (hstep : step a x c = .ok p) :
    x.2.Asked p.2.2 (p.1 = .read .noMemory 0 []) := by
  cases c with
  | isDir path =>
    cases hstep
    exact .refl _ nofun
  | size path =>
    cases hstep
    exact .refl _ nofun
  | readAll path =>
    obtain ⟨⟨⟨st, data, len⟩, s, w⟩, hread, hstep⟩ := bind_eq_ok.1 hstep
    obtain ⟨hasked, -⟩ := readAll_asked ha hread
    dsimp only at hasked hstep
    split at hstep
    · cases hstep
      exact hasked.mono fun hout => (Answer.read.inj hout).1
    · rename_i hok
      obtain ⟨block, -, hstep⟩ := bind_eq_ok.1 hstep
      obtain ⟨w₁, hdealloc, hstep⟩ := bind_eq_ok.1 hstep
      cases hstep
      rw [Allocator.dealloc_copy] at hdealloc
      refine (hasked.keep (Allocator.dealloc_asked ha hdealloc)).mono fun hout => ?_
      exact (Answer.read.inj hout).1
  | writeAll path data =>
    obtain ⟨⟨st, s⟩, -, hstep⟩ := bind_eq_ok.1 hstep
    cases hstep
    exact .refl _ nofun

/-- **One call** serves the store and leaves nothing behind.  When it finds no memory, it was
the next request that was refused. -/
theorem step_serves (ha : Backed (Allocator.copy a)) (x : Sys P × Memory) (c : Call P) :
    Sat (step a x c) fun p =>
      Serves x.1.AllFair (x.2.answers x.2.requests = none) x.1.nodes c p.1 p.2.1.nodes ∧
        Clean a x p.2 := by
  obtain ⟨s, w⟩ := x
  cases c with
  | isDir path =>
    obtain ⟨st, out, s', hisDir, hnodes, hnext, hr⟩ := isDir_spec path s
    refine ⟨(.dir st out, s', w), by simp only [step, hisDir], ?_, .same hnext w⟩
    dsimp only
    rw [hnodes]
    rcases hr with ⟨hst, rfl, hfair⟩ | ⟨rfl, node, hnode, rfl⟩
    · exact .notDir hst fun h => hfair h.fair
    · exact .isDir hnode
  | size path =>
    obtain ⟨st, n, s', hsize, hnodes, hnext, hfair, hr⟩ := size_spec path s
    refine ⟨(.size st n, s', w), by simp only [step, hsize], ?_, .same hnext w⟩
    dsimp only
    rw [hnodes]
    rcases hr with ⟨hst, rfl⟩ | ⟨rfl, -, bytes, hnode⟩
    · exact .notSize hst fun h => hfair h.fair
    · exact .size hnode
  | readAll path =>
    obtain ⟨⟨st, data, len⟩, s', w₁, hread, hnodes, hnext, hreads, hfair⟩ :=
      readAll_spec ha path s w
    have hstep : step a (s, w) (.readAll path) =
        if st ≠ .ok then .ok (.read st len [], s', w₁)
        else w₁.read data 0 (len + 1) >>= fun block =>
          Allocator.dealloc Memory.libc a w₁ data >>= fun w => .ok (.read st len block, s', w) := by
      simp only [step, hread, ok_bind]
      rfl
    obtain ⟨hasked, hrefused⟩ := readAll_asked ha hread
    rw [hstep]
    rcases hreads with ⟨rfl, n, bytes, p, hnode, -, hle, hout, hcell, hx⟩ | ⟨hst, hout, hx⟩
    · cases hout
      obtain ⟨w₂, hdealloc, hcells⟩ := Allocator.dealloc_spec ha (Mem.live_of hcell)
      have hreleased := Allocator.dealloc_asked ha hdealloc
      rw [← Allocator.dealloc_copy] at hdealloc
      have hlen : (bytes.take len ++ [0]).length = len + 1 := by simp [hle]
      rw [if_neg (by decide), Memory.read_eq hcell (by omega), ok_bind, hdealloc]
      refine ⟨_, rfl, ?_, hnext, hx.trans (.drop (by simp) (by simp) hcells),
        (hasked.mono False.elim).andThen hreleased⟩
      dsimp only
      rw [hnodes, Bytes.slice, List.drop_zero, List.take_of_length_le hlen.le]
      exact .read hnode hle
    · cases hout
      rw [if_pos hst]
      refine ⟨_, rfl, ?_, hnext, hx, hasked.mono False.elim⟩
      dsimp only
      rw [hnodes]
      exact .notRead hst (fun h => (hfair h).imp_right And.left) hrefused
  | writeAll path data =>
    have hsource : Memory.source w (.outside data) data.length = .ok data := by
      rw [Memory.source, Bytes.readAt_of_le (by omega), Bytes.slice]
      simp
    obtain ⟨st, s', hwrite, hnext, hwrites, hfair⟩ := writeAll_spec path s rfl (.inr hsource)
    refine ⟨(.wrote st, s', w), ?_, ?_, .same hnext w⟩
    · simp only [step, hwrite, ok_bind]
      rfl
    rcases hwrites with ⟨rfl, hnodes⟩ | ⟨hwritable, ⟨rfl, hnodes⟩ | ⟨rfl, k, hnodes⟩⟩
    · dsimp only
      rw [hnodes]
      refine .notWritten fun h => ?_
      have := hfair h
      rw [writeStatus] at this
      simpa using this
    · dsimp only
      rw [hnodes]
      exact .wrote hwritable
    · dsimp only
      rw [hnodes]
      refine .cut k hwritable fun h => ?_
      have := hfair h
      rw [writeStatus, if_pos hwritable] at this
      cases this

/-- A run serves the store from any state on. -/
theorem trace_serves (ha : Backed (Allocator.copy a)) (calls : List (Call P)) (x : Sys P × Memory) :
    Sat (trace (step a) x calls) fun p =>
      Follows (Serves x.1.AllFair (∃ i, x.2.requests ≤ i ∧ x.2.answers i = none)) x.1.nodes calls
        p.1 p.2.1.nodes ∧
      Justifies x.2 p.2.2 (· = .read .noMemory 0 []) p.1 ∧ Clean a x p.2 := by
  refine (trace_justified (P := fun _ _ => True) (m := Prod.snd) (B := (· = .read .noMemory 0 []))
    (T := Serves x.1.AllFair (∃ i, x.2.requests ≤ i ∧ x.2.answers i = none))
    (R := fun y nodes => y.1.nodes = nodes ∧ Clean a x y) ?_ ?_ calls x x.1.nodes
    ⟨rfl, .same (.refl _) _⟩ (along_of_forall (fun _ _ => trivial) calls x)).mono ?_
  · rintro y nodes c ⟨rfl, hclean⟩ -
    refine (step_serves ha y c).mono fun p hp => ⟨p.2.1.nodes, ?_, rfl, hclean.trans hp.2⟩
    refine hp.1.imp hclean.files.allFair fun hrefused => ?_
    exact ⟨y.2.requests, hclean.asked.requests, by rw [← hclean.asked.answers, hrefused]⟩
  · exact fun y nodes c p _ _ hstep => step_asked ha hstep
  · rintro p ⟨nodes, hfol, ⟨rfl, hclean⟩, hjust⟩
    exact ⟨hfol, hjust, hclean⟩

/-- **The code serves the store.**  In any weather and with any answers of the memory every
run of calls returns, no stream is used after it was closed or left open, no block is left
behind by an allocator that reclaims, and the answers are those of a store of files: a read
that succeeds returns what is there and a zero byte, a read that finds no memory was refused
a block, a write that fails leaves what was there or the first bytes of the data, and nothing
else is ever changed. -/
theorem runs_serve (ha : Backed (Allocator.copy a)) (s : Sys P) (w : Memory)
    (calls : List (Call P)) :
    Sat (trace (step a) (s, w) calls) fun p =>
      Follows (Serves s.AllFair (∃ i, w.requests ≤ i ∧ w.answers i = none)) s.nodes calls
        p.1 p.2.1.nodes ∧
      Justifies w p.2.2 (· = .read .noMemory 0 []) p.1 ∧
      Exchange True [] [] s.streams p.2.1.streams ∧
      Exchange (Reclaims (Allocator.copy a)) [] [] w p.2.2 :=
  (trace_serves ha calls (s, w)).mono fun _ ⟨hfol, hjust, hclean⟩ =>
    ⟨hfol, hjust, hclean.files.streams, hclean.blocks⟩

/-- A directory and no file, and a write that breaks off after two bytes. -/
def stormy : Sys Bool where
  nodes path := if path then .error .noEntry else .ok .directory
  streams := .empty fun _ => none
  weather n := if n = 1 then some ⟨.other, 2⟩ else none
  flushed n := n
  requests := 0

/-- A memory that grants every request. -/
def generous : Memory := .empty fun _ => some ⟨false, fun _ => 7⟩

/-- The first two of three bytes are in the file, and are read. -/
theorem runs_serve_stormy :
    Sat (trace (step none) (stormy, generous)
        [.writeAll true [97, 98, 99], .readAll true, .readAll false]) fun p =>
      Follows (Serves stormy.AllFair (∃ i, generous.requests ≤ i ∧ generous.answers i = none))
        stormy.nodes [.writeAll true [97, 98, 99], .readAll true, .readAll false] p.1 p.2.1.nodes ∧
      Justifies generous p.2.2 (· = .read .noMemory 0 []) p.1 ∧
      Exchange True [] [] stormy.streams p.2.1.streams ∧
      Exchange (Reclaims (Allocator.copy none)) [] [] generous p.2.2 :=
  runs_serve (.default _) stormy generous
    [.writeAll true [97, 98, 99], .readAll true, .readAll false]

example : (trace (step none) (stormy, generous)
    [.writeAll true [97, 98, 99], .readAll true, .readAll false]).map Prod.fst =
      .ok [.wrote .io, .read .ok 2 [97, 98, 0], .read .invalidArgument 0 []] := by decide

/-! ## Reading back -/

theorem Serves.untouched (h : Serves fair refused nodes c o nodes') (hc : ¬ c.writesTo path) :
    nodes' path = nodes path := by
  cases h with
  | isDir h => rfl
  | notDir hst h => rfl
  | size h => rfl
  | notSize hst h => rfl
  | read h hle => rfl
  | notRead hst h hrefused => rfl
  | wrote h => exact Function.update_of_ne (fun h => hc h.symm) ..
  | notWritten h => rfl
  | cut k h hnot => exact Function.update_of_ne (fun h => hc h.symm) ..

theorem untouched_of_follows {calls : List (Call P)} (hcalls : ∀ c ∈ calls, ¬ c.writesTo path) :
    ∀ {nodes nodes' : P → Except Errno Node} {answers : List Answer},
      Follows (Serves fair refused) nodes calls answers nodes' → nodes' path = nodes path := by
  induction calls with
  | nil =>
    intro nodes nodes' answers h
    cases answers with
    | nil => rw [show nodes' = nodes from h]
    | cons o os => exact absurd h id
  | cons c cs ih =>
    intro nodes nodes' answers h
    cases answers with
    | nil => exact absurd h id
    | cons o os =>
      obtain ⟨nodes₁, hserves, hrest⟩ := h
      rw [ih (fun c' hc' => hcalls c' (List.mem_cons_of_mem _ hc')) hrest,
        hserves.untouched (hcalls c (List.mem_cons_self ..))]

/-- What is at a path that was written to. -/
theorem Serves.written {data : List UInt8}
    (h : Serves fair refused nodes (.writeAll path data) o nodes')
    (ho : o = .wrote .ok) (hspecial : ∀ bytes, nodes path ≠ .ok (.special bytes)) :
    nodes' path = .ok (.file data.length data) := by
  subst ho
  cases h with
  | wrote h =>
    rw [Function.update_self, replaced_of_writable h hspecial]

/-- What is read where a file holds these bytes and the system tells their number. -/
theorem Serves.readBack {data : List UInt8} (h : Serves fair refused nodes (.readAll path) o nodes')
    (hnode : nodes path = .ok (.file data.length data)) :
    (∀ len block, o = .read .ok len block → len = data.length ∧ block = data ++ [0]) ∧
      (fair → data.length < sizeMax →
        o = .read .ok data.length (data ++ [0]) ∨ o = .read .noMemory 0 [] ∧ refused) := by
  cases h with
  | read h hle =>
    rename_i len bytes
    rw [hnode, Except.ok.injEq, Node.file.injEq, Nat.cast_inj] at h
    obtain ⟨rfl, rfl⟩ := h
    rw [List.take_length]
    exact ⟨fun len block h => by cases h; exact ⟨rfl, rfl⟩, fun _ _ => .inl rfl⟩
  | notRead hst hfair hrefused =>
    refine ⟨fun len block h => by cases h; exact absurd rfl hst, fun h hlen => .inr ?_⟩
    have hok : readStatus (nodes path) = .ok := by
      rw [hnode, readStatus, if_neg (by omega), if_neg (by omega)]
    rw [hok] at hfair
    have hnone := (hfair h).resolve_left hst
    exact ⟨by rw [hnone], hrefused hnone⟩

/-- **What was written is read back.**  After a write that succeeded, at a path that is no
device, and any calls that do not write there, a read that succeeds returns the data and a
zero byte; it does succeed when no request for a file fails, unless the memory refuses the
block for the data, which is its next request. -/
theorem write_then_read (ha : Backed (Allocator.copy a)) (s : Sys P) (w : Memory) (path : P)
    (data : List UInt8) (between : List (Call P))
    (hspecial : ∀ bytes, s.nodes path ≠ .ok (.special bytes))
    (hbetween : ∀ c ∈ between, ¬ c.writesTo path) :
    Sat (step a (s, w) (.writeAll path data)) fun p => p.1 = .wrote .ok →
      Sat (trace (step a) p.2 between) fun q => Sat (step a q.2 (.readAll path)) fun r =>
        (∀ len block, r.1 = .read .ok len block → len = data.length ∧ block = data ++ [0]) ∧
        (s.AllFair → data.length < sizeMax →
          r.1 = .read .ok data.length (data ++ [0]) ∨
            r.1 = .read .noMemory 0 [] ∧ w.answers q.2.2.requests = none) := by
  refine (step_serves ha (s, w) _).mono fun p hp hok => ?_
  have hnode := hp.1.written hok hspecial
  refine (trace_serves ha between p.2).mono fun q hq => ?_
  have hnode' : q.2.1.nodes path = .ok (.file data.length data) := by
    rw [untouched_of_follows hbetween hq.1, hnode]
  refine (step_serves ha q.2 _).mono fun r hr => ?_
  obtain ⟨hread, hfair⟩ := hr.1.readBack hnode'
  have hclean : Clean a (s, w) q.2 := hp.2.trans hq.2.2
  refine ⟨hread, fun h hlen => ?_⟩
  rw [← show q.2.2.answers = w.answers from hclean.asked.answers]
  exact hfair (hclean.files.allFair h) hlen

/-- The three parts of a program: a write, what is done in between, and a read. -/
def writeThenRead (a : Option (Allocator Memory)) (x : Sys P × Memory) (path : P)
    (data : List UInt8) (between : List (Call P)) : Result (Answer × List Answer × Answer) := do
  let (wrote, x) ← step a x (.writeAll path data)
  let (others, x) ← trace (step a) x between
  let (read, _) ← step a x (.readAll path)
  return (wrote, others, read)

/-- A file that is made, with another one written in between: it is read back, and when the
memory refuses its first request, that is what the read says. -/
theorem write_then_read_new :
    (Sat (step none (({ stormy with weather := fun _ => none } : Sys Bool),
        generous) (.writeAll true [97, 98, 99])) fun p =>
      p.1 = .wrote .ok →
      Sat (trace (step none) p.2 [.isDir true, .writeAll false [0]]) fun q =>
        Sat (step none q.2 (.readAll true)) fun r =>
          (∀ len block, r.1 = .read .ok len block → len = 3 ∧ block = [97, 98, 99, 0]) ∧
          (({ stormy with weather := fun _ => none } : Sys Bool).AllFair → 3 < sizeMax →
            r.1 = .read .ok 3 [97, 98, 99, 0] ∨
              r.1 = .read .noMemory 0 [] ∧ generous.answers q.2.2.requests = none)) ∧
    writeThenRead none (({ stormy with weather := fun _ => none } : Sys Bool), generous) true
        [97, 98, 99] [.isDir true, .writeAll false [0]] =
      .ok (.wrote .ok, [.dir .ok false, .wrote .io], .read .ok 3 [97, 98, 99, 0]) ∧
    writeThenRead none (({ stormy with weather := fun _ => none } : Sys Bool),
        Mem.empty fun _ => none) true [97, 98, 99] [] =
      .ok (.wrote .ok, [], .read .noMemory 0 []) :=
  ⟨write_then_read (.default _) { stormy with weather := fun _ => none } generous true
      [97, 98, 99] [.isDir true, .writeAll false [0]] (fun bytes h => by cases h)
      (by simp [Call.writesTo]),
    by decide, by decide⟩

end K4c.File
