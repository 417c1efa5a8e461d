import Mathlib.Tactic
import K4c.Io.ReaderStream

/-!
# The cursors that the buffered reader hands out

`takeArray` and `takeDelimiter` return a cursor into the buffer of the reader.  Its range
lies below `pos`, while a refill that does not compact the window writes from `len` on;
so the caller can go on reading and still use the bytes of every cursor it has, until a
refill compacts.

* `Returns` — a call returned a cursor.
* `StepCompacts` — some refill of a call takes the compaction branch of `rebase`.
* `cursors_stay` — without such a call, the bytes of a cursor never change.
-/

namespace K4c

open Exec Bytes Runs

namespace Reader

variable {σ : Type} {vt : ReaderVtable σ}

/-- The call `c` of the reader `r` returned OK with this cursor, and left `r'`. -/
def Returns (vt : ReaderVtable σ) (r : Reader σ) (c : Call) (cursor : BufCursor)
    (r' : Reader σ) : Prop :=
  match c with
  | .takeByte => False
  | .takeArray count => takeArray vt count r = .ok ((.ok, some cursor), r')
  | .takeDelimiter delimiter => takeDelimiter vt delimiter r = .ok ((.ok, some cursor), r')

/-- Some refill of the call takes the compaction branch of `rebase`. -/
def StepCompacts (vt : ReaderVtable σ) (r : Reader σ) (c : Call) : Prop :=
  ∃ f ∈ refills vt r c, f.Compacts

instance (f : Refill σ) : Decidable f.Compacts :=
  inferInstanceAs (Decidable (f.reader.Compacts f.requiredCapacity))

instance (r : Reader σ) (c : Call) : Decidable (StepCompacts vt r c) :=
  inferInstanceAs (Decidable (∃ f ∈ refills vt r c, f.Compacts))

/-- A call whose refills find the room they need behind the position does not compact;
a call that is served from the buffer has none. -/
theorem not_stepCompacts {r : Reader σ} {c : Call}
    (h : ∀ f ∈ refills vt r c, f.requiredCapacity ≤ f.reader.capacity - f.reader.pos) :
    ¬ StepCompacts vt r c := by
  rintro ⟨f, hf, hcomp⟩
  exact absurd (h f hf) (Nat.not_le_of_lt hcomp.2.1)

/-- A cursor that was handed out lies below the position. -/
theorem Returns.inside (hb : vt.Bounded) {r r' : Reader σ} (h : Wf r) {c : Call}
    {cursor : BufCursor} (hret : Returns vt r c cursor r') :
    Wf r' ∧ cursor.data + cursor.len ≤ r'.pos := by
  cases c with
  | takeByte => exact absurd hret id
  | takeArray count =>
    obtain ⟨p, hp, hcase⟩ := takeArray_spec hb h count
    obtain rfl := Except.ok.inj (hp.symm.trans hret)
    rcases hcase with ⟨-, -, heq⟩ | ⟨r₁, es, -, hrf, -, -, hn, heq⟩ |
      ⟨r₁, es, e, -, -, -, -, -, heq⟩
    · cases heq
    · cases heq
      exact ⟨(hrf.progress h).wf.advance hn, le_rfl⟩
    · exact absurd (congrArg (fun p => p.1.2) heq) (by simp)
  | takeDelimiter d =>
    obtain ⟨p, hp, hcase⟩ := takeDelimiter_spec hb h d
    obtain rfl := Except.ok.inj (hp.symm.trans hret)
    rcases hcase with ⟨r₁, es, i, hrf, -, hi, heq⟩ | ⟨r₁, es, -, -, -, -, heq⟩ |
      ⟨r₁, es, e, hrf, -, -, -, -, ⟨-, -, heq⟩ | ⟨-, heq⟩⟩
    · cases heq
      have hpr := hrf.progress h
      refine ⟨hpr.wf.advance ?_, le_rfl⟩
      rw [← hpr.wf.length_window]
      exact (List.idxOf?_eq_some_iff.1 hi).1
    · cases heq
    · cases heq
      exact ⟨(hrf.progress h).wf.advance le_rfl, le_rfl⟩
    · exact absurd (congrArg (fun p => p.1.2) heq) (by simp)

/-- A call that does not compact keeps the bytes below `len`. -/
theorem step_kept (hb : vt.Bounded) {r : Reader σ} (h : Wf r) {c : Call}
    (hc : ¬ StepCompacts vt r c) : Sat (step vt r c) fun p => Wf p.2 ∧ Kept r p.2 := by
  apply (step_spec hb h c).mono
  rintro p ⟨r₁, es, hrf, -, hp⟩
  have hpr := hrf.progress h
  have hkept : Kept r r₁ := hrf.kept fun f hf hcomp => hc ⟨f, hf, hcomp⟩
  rcases hp with ⟨n, hn, rfl⟩ | ⟨st, -, rfl⟩
  · exact ⟨hpr.wf.advance hn, hkept.advance n⟩
  · exact ⟨hpr.wf, hkept⟩

/-- A run without compaction keeps the bytes below `len`. -/
theorem trace_kept (hb : vt.Bounded) {r : Reader σ} (h : Wf r) {calls : List Call}
    (hcalls : Along (step vt) (fun r c => ¬ StepCompacts vt r c) r calls) :
    Sat (trace (step vt) r calls) fun p => Kept r p.2 := by
  refine (trace_inv (I := fun s => Wf s ∧ Kept r s) ?_ calls r ⟨h, Kept.refl r⟩ hcalls).mono
    fun p hp => hp.2
  rintro s c ⟨hs, hkept⟩ hc
  exact (step_kept hb hs hc).mono fun p hp => ⟨hp.1, hkept.trans hp.2⟩

/-- **A cursor stays valid until the window is compacted.**  In every run over any source,
the bytes of a cursor that a call returned are still the same after any later calls none
of which took the compaction branch; in particular after calls that were served from the
buffer or whose refills fit behind the position. -/
theorem cursors_stay (vt : ReaderVtable σ) (hb : vt.Bounded) (ctx : σ) (data : List UInt8)
    (capacity : ℕ) (hcap : 0 < capacity) (hdata : capacity ≤ data.length)
    (earlier : List Call) (c : Call) (later : List Call) :
    Sat (create ctx data capacity >>= fun r => trace (step vt) r earlier) fun p =>
      ∀ cursor r, Returns vt p.2 c cursor r →
        (Along (step vt) (fun r c => ¬ StepCompacts vt r c) r later →
          Sat (trace (step vt) r later) fun q => cursor.bytes q.2.data = cursor.bytes r.data) ∧
        (Along (step vt) (fun r c => ∀ f ∈ refills vt r c,
            f.requiredCapacity ≤ f.reader.capacity - f.reader.pos) r later →
          Sat (trace (step vt) r later) fun q =>
            cursor.bytes q.2.data = cursor.bytes r.data) := by
  apply (run_wf hb ctx hcap hdata earlier).mono
  rintro p ⟨hp, -⟩ cursor r hret
  obtain ⟨hwf, hbelow⟩ := hret.inside hb hp
  have hrun : Along (step vt) (fun r c => ¬ StepCompacts vt r c) r later →
      Sat (trace (step vt) r later) fun q => cursor.bytes q.2.data = cursor.bytes r.data :=
    fun hlater => (trace_kept hb hwf hlater).mono fun q hq =>
      hq.slice_eq (hbelow.trans hwf.pos_le)
  exact ⟨hrun, fun hlater => hrun (hlater.mono fun _ _ => not_stepCompacts)⟩

/-- The first line is still there after the next one was read, although a refill came in
between. -/
theorem cursors_stay_next_line :
    Sat (trace (step (ChunkedSource.ofChunk 3).toReaderVtable)
        ⟨[100, 10, 101], [97, 98, 10, 99, 0, 0, 0, 0], 3, 4, 8⟩ [.takeDelimiter 10]) fun q =>
      (BufCursor.create 0 3).bytes q.2.data = [97, 98, 10] := by
  obtain ⟨p, hp, h⟩ := cursors_stay (ChunkedSource.ofChunk 3).toReaderVtable
    (ChunkedSource.ofChunk 3).bounded [97, 98, 10, 99, 100, 10, 101] [0, 0, 0, 0, 0, 0, 0, 0] 8
    (by decide) (by decide) [] (.takeDelimiter 10) [.takeDelimiter 10]
  cases hp
  exact (h (.create 0 3) ⟨[100, 10, 101], [97, 98, 10, 99, 0, 0, 0, 0], 3, 4, 8⟩ rfl).1
    (along_of_check (by decide))

end Reader
end K4c
