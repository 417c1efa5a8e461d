import Mathlib.Tactic
import K4c.Io.ReaderStream

/-!
# The reads that the buffered reader makes

What the reader asks of its source.  The source is put behind a log, so that the
reads of a call are exactly what the call adds to the log.

* `ReaderVtable.logged` — the log; `step_mapCtx` — nothing else changes.
* `bounded_reads` — **safety and termination over any source**: a call makes at
  most `capacity + 1` reads, each inside the buffer, and each one is the only
  effect of a call of `fillMore` whose `rebase` succeeded.
* `never_reads_ahead` — **`takeArray` asks for what is missing and no more**, and in
  a run of `takeArray` calls only a call that a failed read stopped leaves bytes
  of the source in the buffer.
-/

namespace K4c

open Exec Bytes Runs

/-- The source `vt` behind a log of the reads that are made of it. -/
def ReaderVtable.logged {σ : Type} (vt : ReaderVtable σ) : ReaderVtable (σ × List ReadEvent) where
  read s data capacity :=
    let (result, ctx) := vt.read s.1 data capacity
    (result, (ctx, s.2 ++ [⟨data, capacity, result⟩]))

theorem ReaderVtable.Bounded.logged {σ : Type} {vt : ReaderVtable σ} (hb : vt.Bounded) :
    vt.logged.Bounded := fun s data capacity h => hb s.1 data capacity h

namespace Reader

variable {σ τ : Type}

/-! ## Sources that correspond -/

/-- The reader with another source state. -/
def mapCtx (f : σ → τ) (r : Reader σ) : Reader τ := { r with ctx := f r.ctx }

/-- The source `vt'` answers in the state `f s` as `vt` does in the state `s`. -/
def ReadsAlike (vt : ReaderVtable σ) (vt' : ReaderVtable τ) (f : σ → τ) : Prop :=
  ∀ s data capacity, vt'.read (f s) data capacity = Prod.map id f (vt.read s data capacity)

section MapCtx

variable {vt : ReaderVtable σ} {vt' : ReaderVtable τ} {f : σ → τ}

theorem rebase_mapCtx (r : Reader σ) (c : ℕ) :
    rebase (r.mapCtx f) c = (rebase r c).map (Prod.map id (mapCtx f)) := by
  unfold rebase
  rw [apply_ite (Except.map (Prod.map id (mapCtx f)))]
  simp only [bind_then_map, apply_ite (Except.map (Prod.map id (mapCtx f)))]
  rfl

theorem fillMore_mapCtx (h : ReadsAlike vt vt' f) (r : Reader σ) (c m : ℕ) :
    fillMore vt' (r.mapCtx f) c m = (fillMore vt r c m).map (Prod.map id (mapCtx f)) := by
  unfold fillMore
  rw [rebase_mapCtx, bind_then_map]
  cases rebase r c with
  | error e => rfl
  | ok p =>
    obtain ⟨st, r⟩ := p
    by_cases hst : st = .ok
    · simp only [Except.map, ok_bind, Prod.map_apply, id, hst, ne_eq, not_true_eq_false, if_false]
      show (sizeSub r.capacity r.len >>= _) = Except.map _ (sizeSub r.capacity r.len >>= _)
      rw [bind_then_map]
      congr 1
      funext free
      set n := if m < free then m else free
      by_cases hn : n = 0
      · simp only [hn, if_true]
        rfl
      · simp only [hn, if_false, mapCtx, h r.ctx r.len n, Prod.map_fst, Prod.map_snd, id]
        rw [bind_then_map]
        congr 1
        funext _
        rw [bind_then_map]
        congr 1
        funext data
        rw [apply_ite (Except.map _), apply_ite (Except.map _)]
        rfl
    · simp only [Except.map, ok_bind, Prod.map_apply, id, hst, ne_eq, not_false_eq_true, if_true]
      rfl

theorem takeByte_mapCtx (h : ReadsAlike vt vt' f) (r : Reader σ) :
    takeByte vt' (r.mapCtx f) = (takeByte vt r).map (Prod.map id (mapCtx f)) := by
  unfold takeByte
  rw [bind_then_map]
  congr 1
  funext _
  -- the rest of the call, after a refill or none
  have hrest : ∀ x : Result (Status × Reader σ),
      (x.map (Prod.map id (mapCtx f)) >>= fun p => if p.1 ≠ .ok then pure ((p.1, none), p.2) else
        readAt p.2.data p.2.pos 1 >>= fun out =>
          pure ((Status.ok, out.head?), { p.2 with pos := p.2.pos + 1 })) =
      (x >>= fun p => if p.1 ≠ .ok then pure ((p.1, none), p.2) else
        readAt p.2.data p.2.pos 1 >>= fun out =>
          pure ((Status.ok, out.head?), { p.2 with pos := p.2.pos + 1 })).map
        (Prod.map id (mapCtx f)) := by
    intro x
    cases x with
    | error e => rfl
    | ok p =>
      rw [bind_then_map]
      show (if p.1 ≠ .ok then _ else _) = Except.map _ (if p.1 ≠ .ok then _ else _)
      rw [apply_ite (Except.map _), bind_then_map]
      rfl
  by_cases hemp : r.pos ≥ r.len
  · have hemp' : (r.mapCtx f).pos ≥ (r.mapCtx f).len := hemp
    simp only [if_pos hemp, if_pos hemp', fillMore_mapCtx h]
    exact hrest _
  · have hemp' : ¬ (r.mapCtx f).pos ≥ (r.mapCtx f).len := hemp
    simp only [if_neg hemp, if_neg hemp']
    exact hrest (pure (.ok, r))

theorem takeArrayRound_mapCtx (h : ReadsAlike vt vt' f) (count : ℕ) (r : Reader σ) :
    takeArrayRound vt' count (r.mapCtx f) =
      (takeArrayRound vt count r).map (Sum.map (mapCtx f) (Prod.map id (mapCtx f))) := by
  unfold takeArrayRound
  rw [bind_then_map]
  congr 1
  funext available
  rw [apply_ite (Except.map _), fillMore_mapCtx h, bind_then_map]
  congr 1
  cases fillMore vt r count (count - available) with
  | error e => rfl
  | ok p =>
    show (if p.1 ≠ .ok then _ else _) = Except.map _ (if p.1 ≠ .ok then _ else _)
    rw [apply_ite (Except.map _)]
    rfl

theorem takeDelimiterRound_mapCtx (h : ReadsAlike vt vt' f) (d : UInt8) (r : Reader σ) :
    takeDelimiterRound vt' d (r.mapCtx f) =
      (takeDelimiterRound vt d r).map (Sum.map (mapCtx f) (Prod.map id (mapCtx f))) := by
  unfold takeDelimiterRound
  dsimp only
  rw [bind_then_map]
  congr 1
  funext available
  have hcap : (r.mapCtx f).capacity = r.capacity := rfl
  rw [apply_ite (Except.map _), fillMore_mapCtx h, hcap, bind_then_map, bind_then_map]
  congr 1
  · cases fillMore vt r 1 r.capacity with
    | error e => rfl
    | ok p =>
      show (if p.1 ≠ .ok then _ else _) = Except.map _ (if p.1 ≠ .ok then _ else _)
      rw [apply_ite (Except.map _)]
      rfl
  · congr 1
    funext window
    cases window.idxOf? d with
    | some i => rfl
    | none =>
      dsimp only
      rw [apply_ite (Except.map _), fillMore_mapCtx h, bind_then_map]
      congr 1
      cases fillMore vt r (available + 1) r.capacity with
      | error e => rfl
      | ok p =>
        show (if p.1 = .eof then _ else _) = Except.map _ (if p.1 = .eof then _ else _)
        rw [apply_ite (Except.map _), apply_ite (Except.map _), bind_then_map]
        congr 1
        show _ = sizeSub p.2.len p.2.pos >>= _
        congr 1
        funext n
        rw [apply_ite (Except.map _)]
        rfl

theorem takeArray_mapCtx (h : ReadsAlike vt vt' f) (count : ℕ) (r : Reader σ) :
    takeArray vt' count (r.mapCtx f) = (takeArray vt count r).map (Prod.map id (mapCtx f)) := by
  unfold takeArray
  rw [bind_then_map]
  congr 1
  funext _
  rw [apply_ite (Except.map _), loop_map (takeArrayRound_mapCtx h count)]
  rfl

theorem takeDelimiter_mapCtx (h : ReadsAlike vt vt' f) (d : UInt8) (r : Reader σ) :
    takeDelimiter vt' d (r.mapCtx f) =
      (takeDelimiter vt d r).map (Prod.map id (mapCtx f)) := by
  unfold takeDelimiter
  rw [bind_then_map, loop_map (takeDelimiterRound_mapCtx h d)]
  rfl

/-- **Sources that answer alike are read alike.** -/
theorem step_mapCtx (h : ReadsAlike vt vt' f) (r : Reader σ) (c : Call) :
    step vt' (r.mapCtx f) c = (step vt r c).map (Prod.map id (mapCtx f)) := by
  cases c with
  | takeByte =>
    rw [step, step, takeByte_mapCtx h]
    cases takeByte vt r <;> rfl
  | takeArray count =>
    rw [step, step, takeArray_mapCtx h]
    cases takeArray vt count r <;> rfl
  | takeDelimiter d =>
    rw [step, step, takeDelimiter_mapCtx h]
    cases takeDelimiter vt d r <;> rfl

end MapCtx

/-! ## The log -/

variable {vt : ReaderVtable σ}

theorem readsAlike_logged : ReadsAlike vt.logged vt Prod.fst := fun _ _ _ => rfl

/-- **The log changes nothing else**: without it, a run has the same answers and ends in
the same reader. -/
theorem trace_logged (calls : List Call) (r : Reader (σ × List ReadEvent)) :
    trace (step vt) (r.mapCtx Prod.fst) calls =
      (trace (step vt.logged) r calls).map (Prod.map id (mapCtx Prod.fst)) :=
  trace_map (step_mapCtx readsAlike_logged) calls r

/-- The log grows by the reads that are made. -/
theorem Reads.log_eq {es : List ReadEvent} : ∀ {s s' : σ × List ReadEvent},
    Reads vt.logged s es s' → s'.2 = s.2 ++ es := by
  induction es with
  | nil => intro s s' h; rw [show s' = s from h, List.append_nil]
  | cons e es ih =>
    intro s s' h
    rw [ih h.2, ReaderVtable.logged]
    have hresult : (vt.read s.1 e.offset e.capacity).1 = e.result := h.1
    simp [hresult]

/-! ## Safety and termination -/

/-- A call made over a log: what it came to, and the reads it added. -/
theorem step_logged (hb : vt.Bounded) {r : Reader (σ × List ReadEvent)} (h : Wf r) (c : Call) :
    Sat (step vt.logged r c) fun p =>
      Wf p.2 ∧ p.2.capacity = r.capacity ∧
        ∃ es, p.2.ctx.2 = r.ctx.2 ++ es ∧ es.length ≤ r.capacity + 1 ∧
          p.1.delivered ++ p.2.window = r.window ++ handed es ∧
          (∀ e ∈ es, 0 < e.capacity ∧ e.offset + e.capacity ≤ r.capacity) ∧
          List.Forall₂ (fun f e => ∃ r', f.Served vt.logged r' e) (refills vt.logged r c) es := by
  apply (step_spec hb.logged h c).mono
  rintro p ⟨r₁, es, hrf, hlen, hp⟩
  have hpr := hrf.progress h
  have hlog := hpr.reads.log_eq
  rcases hp with ⟨n, hn, rfl⟩ | ⟨st, -, rfl⟩
  · refine ⟨hpr.wf.advance hn, hpr.capacity_eq, es, hlog, hlen, ?_, hpr.inside, hrf.served⟩
    rw [window_advance, ← hpr.window_eq]
    exact List.take_append_drop n r₁.window
  · exact ⟨hpr.wf, hpr.capacity_eq, es, hlog, hlen, hpr.window_eq, hpr.inside, hrf.served⟩

/-- **Over any source that returns no more than it is asked for, every call is safe and
ends.**  In every reachable state a call returns, so none of its subtractions wraps and
no access leaves the buffer; it makes at most `capacity + 1` reads, each for a positive
number of bytes inside the buffer; and the reads are the refills of the call one by one:
`rebase` returned OK each time and left room at the end of the buffered bytes, and the
status of the read is what `fillMore` returned. -/
theorem bounded_reads (vt : ReaderVtable σ) (hb : vt.Bounded) (ctx : σ) (data : List UInt8)
    (capacity : ℕ) (hcap : 0 < capacity) (hdata : capacity ≤ data.length) (calls : List Call)
    (c : Call) :
    Sat (create (ctx, []) data capacity >>= fun r => trace (step vt.logged) r calls) fun p =>
      Sat (step vt.logged p.2 c) fun q =>
        ∃ es, q.2.ctx.2 = p.2.ctx.2 ++ es ∧ es.length ≤ capacity + 1 ∧
          (∀ e ∈ es, 0 < e.capacity ∧ e.offset + e.capacity ≤ capacity) ∧
          List.Forall₂ (fun f e => ∃ r', f.Served vt.logged r' e)
            (refills vt.logged p.2 c) es := by
  apply (run_wf hb.logged (ctx, []) hcap hdata calls).mono
  rintro p ⟨hwf, hc⟩
  refine (step_logged hb hwf c).mono fun q hq => ?_
  obtain ⟨-, -, es, hlog, hlen, -, hinside, hserved⟩ := hq
  rw [hc] at hlen hinside
  exact ⟨es, hlog, hlen, hinside, hserved⟩

/-- An endless source of zeros that never fills a request, before and after the window was
moved to the front. -/
theorem bounded_reads_endless :
    Sat (create ((), []) [9, 9, 9, 9] 4 >>= fun r =>
        trace (step (ReaderVtable.logged ⟨fun _ _ _ => (⟨[0], .ok⟩, ())⟩)) r
          [.takeArray 3, .takeByte]) fun p =>
      Sat (step (ReaderVtable.logged ⟨fun _ _ _ => (⟨[0], .ok⟩, ())⟩) p.2 (.takeDelimiter 10))
        fun q =>
        ∃ es, q.2.ctx.2 = p.2.ctx.2 ++ es ∧ es.length ≤ 4 + 1 ∧
          (∀ e ∈ es, 0 < e.capacity ∧ e.offset + e.capacity ≤ 4) ∧
          List.Forall₂ (fun f e => ∃ r', f.Served
              (ReaderVtable.logged ⟨fun _ _ _ => (⟨[0], .ok⟩, ())⟩) r' e)
            (refills (ReaderVtable.logged ⟨fun _ _ _ => (⟨[0], .ok⟩, ())⟩) p.2
              (.takeDelimiter 10)) es :=
  bounded_reads ⟨fun _ _ _ => (⟨[0], .ok⟩, ())⟩ (fun _ _ _ h => h) () [9, 9, 9, 9] 4 (by decide)
    (by decide) [.takeArray 3, .takeByte] (.takeDelimiter 10)

/-! ## Reading ahead -/

/-- What `takeArray` asked its source for. -/
theorem takeArray_reads (hb : vt.Bounded) {r : Reader (σ × List ReadEvent)} (h : Wf r)
    (count : ℕ) :
    Sat (step vt.logged r (.takeArray count)) fun p =>
      ∃ es, p.2.ctx.2 = r.ctx.2 ++ es ∧ (handed es).length ≤ count - r.available ∧
        (p.1.status = .ok → (handed es).length = count - r.available ∧
          p.2.available = r.available - count) ∧
        (count ≤ r.available ∨ r.capacity < count → es = []) := by
  refine (takeArray_spec hb.logged h count).bind fun p hp => Sat.ok ?_
  rcases hp with ⟨-, -, rfl⟩ | ⟨r₁, es, hle, hrf, hprod, hmost, hn, rfl⟩ |
    ⟨r₁, es, e, hle, hrf, -, hst, hlt, rfl⟩
  · exact ⟨[], by simp, by simp, by simp, fun _ => rfl⟩
  · have hpr := hrf.progress h
    have hav := hpr.available_eq h
    refine ⟨es, hpr.reads.log_eq, hmost.le, fun _ => ⟨hmost, ?_⟩, fun hcase => ?_⟩
    · have hend : (r₁.advance count).available = r₁.available - count := by
        simp only [available, Reader.advance]
        omega
      show (r₁.advance count).available = _
      omega
    · have hlen := hprod.length_le
      exact List.length_eq_zero_iff.1 (by omega)
  · have hpr := hrf.progress h
    have hav := hpr.available_eq h
    refine ⟨es ++ [e], hpr.reads.log_eq, by omega, fun hok => absurd hok hst, fun hcase => ?_⟩
    omega

/-- The call was answered OK or refused for a count larger than the buffer: no failed read
stopped it. -/
def Unstopped (capacity : ℕ) (x : Call × Answer) : Prop :=
  x.2.status = .ok ∨ ∃ count, x.1 = .takeArray count ∧ capacity < count

/-- What the log tells about a run: the bytes handed over are those delivered and those in
the window, and a run of `takeArray` calls that no failed read stopped has left none in the
window. -/
structure Accounted (capacity : ℕ) (h : List (Call × Answer)) (r : Reader (σ × List ReadEvent)) :
    Prop where
  wf : Wf r
  capacity_eq : r.capacity = capacity
  handed_eq : handed r.ctx.2 = (h.flatMap fun x => x.2.delivered) ++ r.window
  empty : (∀ x ∈ h, (∃ n, x.1 = .takeArray n) ∧ Unstopped capacity x) → r.window = []

theorem Accounted.step {capacity : ℕ} (hb : vt.Bounded) {h : List (Call × Answer)}
    {r : Reader (σ × List ReadEvent)} (hr : Accounted capacity h r) (c : Call) :
    Sat (step vt.logged r c) fun p => Accounted capacity (h ++ [(c, p.1)]) p.2 := by
  obtain ⟨p, hp, hwf, hc, es, hlog, -, hbytes, -, -⟩ := step_logged hb hr.wf c
  refine ⟨p, hp, hwf, hc.trans hr.capacity_eq, ?_, fun hall => ?_⟩
  · rw [hlog, handed_append, hr.handed_eq, List.append_assoc, ← hbytes]
    simp
  · have hwin : r.window = [] :=
      hr.empty fun x hx => hall x (List.mem_append_left _ hx)
    have hav : r.available = 0 := by rw [← hr.wf.length_window, hwin]; rfl
    obtain ⟨⟨n, rfl⟩, hcase⟩ := hall (c, p.1) (by simp)
    obtain ⟨q, hq, fs, hlog', -, hok, hnone⟩ := takeArray_reads hb hr.wf n
    obtain rfl : p = q := Except.ok.inj (hp.symm.trans hq)
    rcases hcase with hst | ⟨m, hm, hbig⟩
    · have hend := (hok hst).2
      exact List.length_eq_zero_iff.1 (by rw [hwf.length_window]; omega)
    · have hfs : fs = [] := by
        refine hnone (Or.inr ?_)
        rw [hr.capacity_eq, Call.takeArray.inj hm]
        exact hbig
      have hes : es = [] := by
        have : r.ctx.2 ++ es = r.ctx.2 ++ fs := hlog.symm.trans hlog'
        rw [List.append_cancel_left this, hfs]
      rw [hwin, hes] at hbytes
      exact (List.append_eq_nil_iff.1 hbytes).2

/-- **`takeArray` never reads ahead.**  In every reachable state with `a` bytes buffered, a
call takes at most `count - a` bytes from the source, exactly that many when it succeeds,
and makes no read when `count ≤ a` or `count` is larger than the buffer.  In a run of such
calls the source has then, after each call that succeeds, handed over the bytes delivered
so far and the `a - count` bytes that stay in the buffer; and none stays there when no
earlier call was stopped by a failed read. -/
theorem never_reads_ahead (vt : ReaderVtable σ) (hb : vt.Bounded) (ctx : σ) (data : List UInt8)
    (capacity : ℕ) (hcap : 0 < capacity) (hdata : capacity ≤ data.length) (calls : List Call)
    (count : ℕ) :
    Sat (create (ctx, []) data capacity >>= fun r => trace (step vt.logged) r calls) fun p =>
      Sat (step vt.logged p.2 (.takeArray count)) fun q =>
        (∃ es, q.2.ctx.2 = p.2.ctx.2 ++ es ∧ (handed es).length ≤ count - p.2.available ∧
          (q.1.status = .ok → (handed es).length = count - p.2.available) ∧
          (count ≤ p.2.available ∨ capacity < count → es = [])) ∧
        ((∀ c ∈ calls, ∃ n, c = .takeArray n) → q.1.status = .ok →
          handed q.2.ctx.2 = p.1.flatMap Answer.delivered ++ q.1.delivered ++ q.2.window ∧
          q.2.window.length = p.2.available - count ∧
          ((∀ x ∈ calls.zip p.1, Unstopped capacity x) →
            handed q.2.ctx.2 = p.1.flatMap Answer.delivered ++ q.1.delivered)) := by
  rw [create_ok (ctx, []) data hcap, ok_bind]
  refine (trace_inv_history (I := Accounted capacity) (P := fun _ _ => True)
    (fun h r c hr _ => hr.step hb c) calls [] _
    ⟨wf_create (ctx, []) hcap hdata, rfl, by simp, fun _ => by simp⟩
    (along_of_forall (fun _ _ => trivial) calls _)).mono ?_
  rintro p ⟨hlen, hp⟩
  rw [List.nil_append] at hp
  have hdelivered : ((calls.zip p.1).flatMap fun x => x.2.delivered) =
      p.1.flatMap Answer.delivered := by
    rw [← List.flatMap_map, List.map_snd_zip hlen.le]
  apply ((hp.step hb (.takeArray count)).and (takeArray_reads hb hp.wf count)).mono
  rintro q ⟨hq, es, hlog, hmost, hok, hnone⟩
  rw [hp.capacity_eq] at hnone
  refine ⟨⟨es, hlog, hmost, fun hst => (hok hst).1, hnone⟩, fun hcalls hst => ?_⟩
  have hhanded := hq.handed_eq
  rw [List.flatMap_append, hdelivered, List.flatMap_singleton] at hhanded
  refine ⟨hhanded, by rw [hq.wf.length_window]; exact (hok hst).2, fun hun => ?_⟩
  have hnil : q.2.window = [] := by
    refine hq.empty fun x hx => ?_
    rcases List.mem_append.1 hx with hx | hx
    · exact ⟨hcalls x.1 (List.of_mem_zip hx).1, hun x hx⟩
    · rw [List.mem_singleton.1 hx]
      exact ⟨⟨count, rfl⟩, Or.inl hst⟩
  rw [hhanded, hnil, List.append_nil]

/-- Four bytes in two calls, the source handing them over one at a time. -/
theorem never_reads_ahead_short_reads :
    Sat (create (([(1, .ok), (1, .ok), (1, .ok), (1, .ok)], [1, 2, 3, 4, 5]), []) [0, 0, 0, 0] 4 >>=
        fun r => trace (step StreamSource.ofSchedule.logged) r [.takeArray 3]) fun p =>
      Sat (step StreamSource.ofSchedule.logged p.2 (.takeArray 1)) fun q =>
        (∃ es, q.2.ctx.2 = p.2.ctx.2 ++ es ∧ (handed es).length ≤ 1 - p.2.available ∧
          (q.1.status = .ok → (handed es).length = 1 - p.2.available) ∧
          (1 ≤ p.2.available ∨ 4 < 1 → es = [])) ∧
        ((∀ c ∈ [Call.takeArray 3], ∃ n, c = .takeArray n) → q.1.status = .ok →
          handed q.2.ctx.2 = p.1.flatMap Answer.delivered ++ q.1.delivered ++ q.2.window ∧
          q.2.window.length = p.2.available - 1 ∧
          ((∀ x ∈ [Call.takeArray 3].zip p.1, Unstopped 4 x) →
            handed q.2.ctx.2 = p.1.flatMap Answer.delivered ++ q.1.delivered)) :=
  never_reads_ahead StreamSource.ofSchedule.toReaderVtable StreamSource.ofSchedule.bounded _
    [0, 0, 0, 0] 4 (by decide) (by decide) [.takeArray 3] 1

/-- A call that a failed read stopped has read ahead of the next one: three bytes were handed
over for a call that wanted ten, and the next one delivers two of them. -/
theorem stopped_call_reads_ahead :
    ∃ p q, (create (([(3, .ok)], [1, 2, 3]), []) (List.replicate 16 0) 16 >>= fun r =>
        trace (step StreamSource.ofSchedule.logged) r [.takeArray 10]) = .ok p ∧
      step StreamSource.ofSchedule.logged p.2 (.takeArray 2) = .ok q ∧ q.1.status = .ok ∧
      q.1.delivered = [1, 2] ∧
      handed q.2.ctx.2 ≠ p.1.flatMap Answer.delivered ++ q.1.delivered :=
  ⟨_, _, rfl, rfl, rfl, rfl, by decide⟩

end Reader
end K4c
