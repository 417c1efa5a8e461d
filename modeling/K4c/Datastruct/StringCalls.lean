import Mathlib.Tactic
import K4c.Datastruct.String
import K4c.Mem.Owners

/-!
# What the string calls do

A string owns one block: the header, the text, its terminator, and room for more.
`StringHeader.Holds` says so for a given text; the two lengths the code uses, the
stored one and the place of the terminator, both follow from it.

* `ensureCapacity_spec` — room is made without touching the text.
* `create_spec`, `append_spec`, `prepend_spec`, `clear_spec`, `destroy_spec`.
* `contains_spec`, `startsWith_spec`, `endsWith_spec`, `iterator_yields`.
-/

namespace K4c

open Exec Bytes Blocks CString

/-! ## Arguments -/

/-- The argument points to the C string `t`, whatever becomes of the blocks `o`. -/
def Arg.IsString (w : Memory) (o : List ℕ) (src : Arg) (t : List UInt8) : Prop :=
  match src with
  | .null => False
  | .outside bs => Starts bs t
  | .inside p => p.block ∉ o ∧ ∃ size c bs, w.cells p.block = some ⟨size, c⟩ ∧
      c.reach = some bs ∧ Starts (bs.drop p.offset) t

namespace Arg.IsString

variable {w w' : Memory} {o o' : List ℕ} {src : Arg} {t : List UInt8}

theorem ne_null (h : IsString w o src t) : src ≠ .null := by
  rintro rfl
  exact h

theorem bytesFrom (h : IsString w o src t) :
    ∃ bs, Memory.bytesFrom w src = .ok bs ∧ Starts bs t := by
  cases src with
  | null => exact absurd h id
  | outside bs => exact ⟨bs, rfl, h⟩
  | inside p =>
    obtain ⟨-, size, c, bs, hcell, hc, hstarts⟩ := h
    exact ⟨_, by rw [Memory.bytesFrom, Memory.bytesOf_reach hcell hc, ok_bind], hstarts⟩

theorem nul_free (h : IsString w o src t) : 0 ∉ t := by
  obtain ⟨bs, -, hstarts⟩ := h.bytesFrom
  exact hstarts.1

theorem strlen (h : IsString w o src t) : StringHeader.strlen w src = .ok t.length := by
  obtain ⟨bs, hbytes, hstarts⟩ := h.bytesFrom
  rw [StringHeader.strlen, hbytes, ok_bind, strlen_eq hstarts]

/-- The characters and the terminator can be copied. -/
theorem reads (h : IsString w o src t) {n : ℕ} (hn : n ≤ t.length + 1) :
    src.Reads w o n ((t ++ [0]).take n) := by
  have htake : ∀ rest, slice (t ++ 0 :: rest) 0 n = (t ++ [0]).take n := by
    intro rest
    rw [slice, List.drop_zero, show t ++ 0 :: rest = t ++ [0] ++ rest by simp,
      List.take_append_of_le_length (by simpa using hn)]
  cases src with
  | null => exact absurd h id
  | outside bs =>
    obtain ⟨-, rest, rfl⟩ := h
    refine ⟨?_, (htake rest).symm⟩
    rw [List.length_append, List.length_cons]
    omega
  | inside p =>
    obtain ⟨hp, size, c, bs, hcell, hc, -, rest, hdrop⟩ := h
    have hlength := congrArg List.length hdrop
    rw [List.length_drop, List.length_append, List.length_cons] at hlength
    refine ⟨hp, size, c, bs, hcell, hc, by omega, ?_⟩
    rw [← htake rest, slice, slice, hdrop, List.drop_zero]

theorem exchange {reclaims : Prop} (h : IsString w o src t)
    (hx : Exchange reclaims o o' w w') : IsString w' o' src t := by
  cases src with
  | null => exact h
  | outside bs => exact h
  | inside p =>
    obtain ⟨hp, size, c, bs, hcell, hrest⟩ := h
    obtain ⟨hcell', hp'⟩ := hx.others _ _ hcell hp
    exact ⟨hp', size, c, bs, hcell', hrest⟩

end Arg.IsString

namespace StringHeader

/-! ## Strings in memory -/

/-- The blocks of a string. -/
def owned (s : StringHeader) : List ℕ := [s.block]

/-- The block of a string, with these bytes in it. -/
structure Stored (s : StringHeader) (w : Memory) (bs : List UInt8) : Prop where
  backed : Backed s.allocator
  cell : w.cells s.block = some ⟨headerSize + s.capacity, .bytes bs⟩
  length : bs.length = headerSize + s.capacity
  fits : headerSize + s.capacity ≤ sizeMax

/-- The string holds this text, ended by the first NUL. -/
structure Holds (s : StringHeader) (w : Memory) (text : List UInt8) : Prop where
  nul_free : 0 ∉ text
  length_text : text.length = s.len
  stored : ∃ head room, head.length = headerSize ∧ Stored s w (head ++ text ++ 0 :: room)

/-- What a call keeps of the record, and what it does to the blocks. -/
structure Changed (s s' : StringHeader) (w w' : Memory) : Prop where
  allocator : s'.allocator = s.allocator
  exchange : Exchange (Reclaims s.allocator) s.owned s'.owned w w'

variable {s s' s'' : StringHeader} {w w' w'' : Memory} {bs text : List UInt8}

theorem Changed.trans (h : Changed s s' w w') (h' : Changed s' s'' w' w'') :
    Changed s s'' w w'' where
  allocator := h'.allocator.trans h.allocator
  exchange := h.exchange.trans (h.allocator ▸ h'.exchange)

namespace Stored

theorem live (h : Stored s w bs) : ∀ p ∈ s.owned, w.Live p := by
  intro p hp
  rw [List.mem_singleton.1 hp]
  exact Mem.live_of h.cell

theorem changed_same (h : Stored s w bs) {len : ℕ} (hcells : w'.cells = w.cells) :
    Changed s { s with len } w w' := ⟨rfl, .same h.live hcells⟩

/-- The string with another length. -/
theorem relabel (h : Stored s w bs) (len : ℕ) : Stored { s with len } w bs :=
  ⟨h.backed, h.cell, h.length, h.fits⟩

/-- The block after its bytes were overwritten. -/
theorem written (h : Stored s w bs) {bs' : List UInt8} (hlen : bs'.length = bs.length)
    (hcells : w'.cells =
      Function.update w.cells s.block (some ⟨headerSize + s.capacity, .bytes bs'⟩)) :
    Stored s w' bs' ∧ Changed s s w w' :=
  ⟨⟨h.backed, by rw [hcells, Function.update_self], by rw [hlen, h.length], h.fits⟩,
    rfl, .write h.live (by simp [owned]) hcells⟩

variable {a b c e : List UInt8} {i : ℕ}

/-- Three parts, the middle one of which is overwritten by as many bytes. -/
theorem replaced (h : Stored s w (a ++ b ++ c)) (ha : a.length = headerSize + i)
    (he : e.length = b.length)
    (hcells : w'.cells = Function.update w.cells s.block
      (some ⟨headerSize + s.capacity, .bytes (splice (a ++ b ++ c) (headerSize + i) e)⟩)) :
    Stored s w' (a ++ e ++ c) ∧ Changed s s w w' := by
  rw [splice_append ha he] at hcells
  refine h.written ?_ hcells
  simp only [List.length_append, he]

theorem end_le (ha : a.length = headerSize + i) (he : e.length = b.length) :
    headerSize + i + e.length ≤ (a ++ b ++ c).length := by
  simp only [List.length_append]
  omega

theorem setChar (h : Stored s w (a ++ b ++ c)) (ha : a.length = headerSize + i)
    (he : e.length = b.length) :
    ∃ w', s.setChar w i e = .ok w' ∧ Stored s w' (a ++ e ++ c) ∧ Changed s s w w' := by
  obtain ⟨w', hwrite, hcells⟩ := Memory.write_eq h.cell (end_le ha he)
  exact ⟨w', hwrite, h.replaced ha he hcells⟩

theorem memcpy (h : Stored s w (a ++ b ++ c)) (ha : a.length = headerSize + i)
    (he : e.length = b.length) {src : Arg} {n : ℕ} (hsrc : src.Copies w (s.buf i) n e) :
    ∃ w', w.memcpy (s.buf i) src n = .ok w' ∧ Stored s w' (a ++ e ++ c) ∧
      Changed s s w w' := by
  obtain ⟨w', hcopy, hcells⟩ := Memory.memcpy_eq (d := s.buf i) h.cell hsrc.1 (end_le ha he)
    hsrc.2
  exact ⟨w', hcopy, h.replaced ha he hcells⟩

theorem memmove (h : Stored s w (a ++ b ++ c)) (ha : a.length = headerSize + i)
    (he : e.length = b.length) {src : Arg} {n : ℕ} (hsrc : Memory.source w src n = .ok e) :
    ∃ w', w.memmove (s.buf i) src n = .ok w' ∧ Stored s w' (a ++ e ++ c) ∧
      Changed s s w w' := by
  obtain ⟨w', hmove, hcells⟩ := Memory.memmove_eq (d := s.buf i) h.cell hsrc (end_le ha he)
  exact ⟨w', hmove, h.replaced ha he hcells⟩

/-- Reading the middle of three parts. -/
theorem read (h : Stored s w (a ++ b ++ c)) (ha : a.length = headerSize + i) {n : ℕ}
    (hb : b.length = n) : w.read s.block (headerSize + i) n = .ok b := by
  rw [Memory.read_eq h.cell (by simp only [List.length_append]; omega), slice_append ha hb]

end Stored

/-! ## Growing -/

/-- The capacity for a length leaves room for the terminator. -/
theorem capacityFor_spec (len : ℕ) :
    capacityFor len = .ok (.overflow, 0) ∨
      ∃ capacity, capacityFor len = .ok (.ok, capacity) ∧ len < capacity ∧ capacity ≤ sizeMax := by
  rw [capacityFor]
  cases hadd : sizeAddOverflow len 1 with
  | none => exact .inl rfl
  | some minCapacity =>
    obtain ⟨rfl, hmax⟩ := (sizeAddOverflow_eq_some (by decide)).1 hadd
    obtain ⟨out, hgrow, -, hout⟩ :=
      growByHalf_spec (show defaultCapacity ≤ sizeMax by decide) hmax
    exact .inr ⟨out, hgrow, hout⟩

/-- **Making room** fails without an effect, or gives a block that starts with the
old one and has room for the terminator. -/
theorem ensureCapacity_spec (h : Stored s w bs) (len : ℕ) :
    ∃ st s' w', ensureCapacity s len w = .ok ((st, s'), w') ∧
      ((st ≠ .ok ∧ s' = s ∧ w'.cells = w.cells) ∨
        (st = .ok ∧ len < s'.capacity ∧ s'.len = s.len ∧
          (∃ tail, Stored s' w' (bs ++ tail)) ∧ Changed s s' w w')) := by
  by_cases hlt : len < s.capacity
  · refine ⟨.ok, s, w, by rw [ensureCapacity, if_pos hlt]; rfl,
      .inr ⟨rfl, hlt, rfl, ⟨[], ?_⟩, h.changed_same rfl⟩⟩
    rwa [List.append_nil]
  rw [ensureCapacity, if_neg hlt]
  rcases capacityFor_spec len with hfor | ⟨capacity, hfor, hcapacity, hmax⟩
  · exact ⟨.overflow, s, w, by rw [hfor]; rfl, .inl ⟨by decide, rfl, rfl⟩⟩
  simp only [hfor, ok_bind, ne_eq, not_true_eq_false, if_false]
  cases hadd : sizeAddOverflow headerSize capacity with
  | none => exact ⟨.overflow, s, w, rfl, .inl ⟨by decide, rfl, rfl⟩⟩
  | some allocSize =>
    obtain ⟨hsum, hfits⟩ := (sizeAddOverflow_eq_some hmax).1 hadd
    have hmore : bs.length ≤ allocSize := by
      rw [h.length]
      omega
    rcases Allocator.resize_spec h.backed h.cell hmore (by unfold headerSize at hsum; omega) with
      ⟨w', hresize, hcells⟩ | ⟨q, tail, w', hresize, hq, hlen, hcells⟩
    · refine ⟨.noMemory, s, w', ?_, .inl ⟨by decide, rfl, hcells⟩⟩
      simp only [hresize, ok_bind, reduceCtorEq, not_false_eq_true, if_true, pure_eq_ok]
    · refine ⟨.ok, { s with block := q, capacity }, w', ?_,
        .inr ⟨rfl, hcapacity, rfl, ⟨tail, h.backed, ?_, ?_, ?_⟩, rfl, ?_⟩⟩
      · simp only [hresize, ok_bind, not_true_eq_false, if_false, pure_eq_ok]
      · rw [hcells, Function.update_self, hsum]
      · rw [hlen, hsum]
      · exact hfits
      · exact .rename (by simp) (by simp) hq hcells

/-! ## Changing the text -/

/-- A list that is long enough, cut before and behind a range. -/
theorem exists_cut {l : List UInt8} {i n : ℕ} (h : i + n ≤ l.length) :
    ∃ u z v, l = u ++ z ++ v ∧ u.length = i ∧ z.length = n := by
  refine ⟨l.take i, (l.drop i).take n, (l.drop i).drop n, ?_, ?_, ?_⟩
  · rw [List.append_assoc, List.take_append_drop, List.take_append_drop]
  · rw [List.length_take]
    omega
  · rw [List.length_take, List.length_drop]
    omega

namespace Holds

theorem len_lt (h : Holds s w text) : s.len < s.capacity := by
  obtain ⟨head, room, hhead, hstored⟩ := h.stored
  have hlength := hstored.length
  simp only [List.length_append, List.length_cons, hhead, h.length_text] at hlength
  omega

theorem live (h : Holds s w text) : ∀ p ∈ s.owned, w.Live p := by
  obtain ⟨head, room, -, hstored⟩ := h.stored
  exact hstored.live

/-- In a memory that did not change. -/
theorem same (h : Holds s w text) (hcells : w'.cells = w.cells) : Holds s w' text := by
  obtain ⟨head, room, hhead, hstored⟩ := h.stored
  exact ⟨h.nul_free, h.length_text, head, room, hhead, { hstored with
    cell := by rw [hcells, hstored.cell] }⟩

end Holds

/-- A new text behind the header, with its terminator. -/
theorem Stored.holds {head room : List UInt8} {len : ℕ} (h : Stored s w (head ++ text ++ 0 :: room))
    (hhead : head.length = headerSize) (hnul : 0 ∉ text) (hlen : text.length = len) :
    Holds { s with len } w text :=
  ⟨hnul, hlen, head, room, hhead, h.relabel len⟩

variable {t : List UInt8} {src : Arg}

/-- What a call that adds to the text does: it fails without an effect, or the text
is the new one. -/
def Adds (s : StringHeader) (w : Memory) (text : List UInt8) (st : Status) (s' : StringHeader)
    (w' : Memory) : Prop :=
  (st ≠ .ok ∧ s' = s ∧ w'.cells = w.cells) ∨ (st = .ok ∧ Holds s' w' text ∧ Changed s s' w w')

/-- The two statements of `append` that write: the argument behind the text, and a new
terminator. -/
theorem attach_spec {head space : List UInt8} (h : Stored s w (head ++ text ++ 0 :: space))
    (hhead : head.length = headerSize) (hspace : t.length ≤ space.length)
    (ht : src.Copies w (s.buf text.length) t.length t) :
    ∃ w₁ w₂ v, w.memcpy (s.buf text.length) src t.length = .ok w₁ ∧
      s.setChar w₁ (text.length + t.length) [0] = .ok w₂ ∧
      Stored s w₂ (head ++ (text ++ t) ++ 0 :: v) ∧ Changed s s w w₂ := by
  -- the bytes behind the text: those the argument goes to, one for the NUL, and the rest
  obtain ⟨z, c, v, hcut, hz, hc⟩ := exists_cut (l := 0 :: space) (i := t.length) (n := 1) (by
    rw [List.length_cons]
    omega)
  rw [hcut, List.append_assoc z, ← List.append_assoc] at h
  obtain ⟨w₁, hcopy, h₁, hchanged₁⟩ := h.memcpy (i := text.length)
    (by rw [List.length_append, hhead]) hz.symm ht
  rw [← List.append_assoc] at h₁
  obtain ⟨w₂, hset, h₂, hchanged₂⟩ := h₁.setChar (i := text.length + t.length) (e := [0])
    (by simp only [List.length_append, hhead]; omega) hc.symm
  rw [List.append_assoc _ [0], List.append_assoc head] at h₂
  exact ⟨w₁, w₂, v, hcopy, hset, h₂, hchanged₁.trans hchanged₂⟩

/-- **Appending** puts the argument behind the text. -/
theorem append_spec (h : Holds s w text) (ht : src.IsString w s.owned t) :
    ∃ st s' w', append s src w = .ok ((st, s'), w') ∧ Adds s w (text ++ t) st s' w' := by
  obtain ⟨head, room, hhead, hstored⟩ := h.stored
  rw [append, check_of ht.ne_null, ok_bind, ht.strlen, ok_bind]
  by_cases hnil : t.length = 0
  · rw [if_pos hnil, List.length_eq_zero_iff.1 hnil, List.append_nil]
    exact ⟨.ok, s, w, rfl, .inr ⟨rfl, h, hstored.changed_same rfl⟩⟩
  rw [if_neg hnil]
  cases hadd : sizeAddOverflow s.len t.length with
  | none => exact ⟨.overflow, s, w, rfl, .inl ⟨by decide, rfl, rfl⟩⟩
  | some newLen =>
    have hsum := add_of_sizeAddOverflow hadd
    obtain ⟨st, s₁, w₁, hensure, hres⟩ := ensureCapacity_spec hstored newLen
    dsimp only
    rw [hensure, ok_bind]
    rcases hres with ⟨hst, rfl, hcells⟩ | ⟨rfl, hlt, hlen, ⟨tail, hstored₁⟩, hchanged⟩
    · exact ⟨st, s₁, w₁, by rw [if_pos hst]; rfl, .inl ⟨hst, rfl, hcells⟩⟩
    rw [if_neg (not_not.2 rfl), hlen]
    have htext := h.length_text
    have hlength := hstored₁.length
    simp only [List.length_append, List.length_cons, hhead] at hlength
    rw [List.append_assoc _ (0 :: room), List.cons_append] at hstored₁
    have ht₁ : src.Reads w₁ s₁.owned t.length t := by
      have := (ht.exchange hchanged.exchange).reads (Nat.le_succ t.length)
      rwa [List.take_left] at this
    obtain ⟨w₂, w₃, v, hcopy, hset, hstored₂, hchanged₂⟩ := attach_spec hstored₁ hhead
      (by rw [List.length_append]; omega) (ht₁.copies (List.mem_singleton.2 rfl))
    rw [htext] at hcopy hset
    rw [hsum] at hset
    refine ⟨.ok, { s₁ with len := newLen }, w₃, ?_, .inr ⟨rfl, hstored₂.holds hhead ?_ ?_,
      (hchanged.trans hchanged₂).trans (hstored₂.changed_same rfl)⟩⟩
    · rw [hcopy, ok_bind, show setChar { s₁ with len := newLen } w₂ newLen [0] = _ from hset]
      rfl
    · rw [List.mem_append, not_or]
      exact ⟨h.nul_free, ht.nul_free⟩
    · rw [List.length_append]
      omega

/-- The four statements of `prepend` that move bytes: the text is shifted by `n` with its
terminator, `n + 1` bytes from the argument are written to the front, and the character
where the text begins is put back.  What the argument reads as counts after the shift. -/
theorem shift_spec {head space u : List UInt8} {x : UInt8} {n : ℕ}
    (h : Stored s w (head ++ text ++ 0 :: space)) (hhead : head.length = headerSize)
    (hspace : n ≤ space.length) (hu : u.length = n)
    (hsrc : ∀ w₁ v, Stored s w₁ (head ++ (text ++ 0 :: space).take n ++ (text ++ [0]) ++ v) →
      Changed s s w w₁ → Memory.source w₁ src (n + 1) = .ok (u ++ [x])) :
    ∃ w₁ first w₂ w₃ v, w.memmove (s.buf n) (.inside (s.buf 0)) (text.length + 1) = .ok w₁ ∧
      w₁.read s.block (headerSize + n) 1 = .ok first ∧
      w₁.memmove (s.buf 0) src (n + 1) = .ok w₂ ∧
      s.setChar w₂ n first = .ok w₃ ∧
      Stored s w₃ (head ++ (u ++ text) ++ 0 :: v) ∧ Changed s s w w₃ := by
  have hread : Memory.source w (.inside (s.buf 0)) (text.length + 1) = .ok (text ++ [0]) := by
    rw [show head ++ text ++ 0 :: space = head ++ (text ++ [0]) ++ space by simp] at h
    exact h.read (i := 0) hhead (by rw [List.length_append]; rfl)
  obtain ⟨y, z, v, hcut, hy, hz⟩ := exists_cut (l := text ++ 0 :: space) (i := n)
    (n := text.length + 1) (by rw [List.length_append, List.length_cons]; omega)
  have hfront : (text ++ 0 :: space).take n = y := by
    rw [hcut, List.append_assoc, List.take_left' hy]
  rw [List.append_assoc, hcut, List.append_assoc y, ← List.append_assoc, ← List.append_assoc] at h
  obtain ⟨w₁, hmove, h₁, hchanged₁⟩ := h.memmove (i := n)
    (by rw [List.length_append, hhead, hy]) (by rw [hz, List.length_append]; rfl) hread
  have hsrc₁ := hsrc w₁ v (by rw [hfront]; exact h₁) hchanged₁
  obtain ⟨first, rest, hfirst⟩ : ∃ first rest, text ++ [0] = [first] ++ rest := by
    cases text with
    | nil => exact ⟨0, [], rfl⟩
    | cons c cs => exact ⟨c, cs ++ [0], rfl⟩
  rw [hfirst, ← List.append_assoc, List.append_assoc (head ++ y ++ [first])] at h₁
  have hfirst' := h₁.read (i := n) (by rw [List.length_append, hhead, hy]) rfl
  rw [List.append_assoc head] at h₁
  obtain ⟨w₂, hmove₂, h₂, hchanged₂⟩ := h₁.memmove (i := 0) hhead
    (by rw [List.length_append, List.length_append, hy, hu]; rfl) hsrc₁
  rw [← List.append_assoc head] at h₂
  obtain ⟨w₃, hset, h₃, hchanged₃⟩ := h₂.setChar (i := n) (e := [first])
    (by rw [List.length_append, hhead, hu]) rfl
  have hbytes : head ++ u ++ [first] ++ (rest ++ v) = head ++ (u ++ text) ++ 0 :: v := by
    calc head ++ u ++ [first] ++ (rest ++ v) = head ++ u ++ ([first] ++ rest) ++ v := by simp
      _ = head ++ u ++ (text ++ [0]) ++ v := by rw [hfirst]
      _ = head ++ (u ++ text) ++ 0 :: v := by simp
  rw [hbytes] at h₃
  exact ⟨w₁, [first], w₂, w₃, v, hmove, hfirst', hmove₂, hset, h₃,
    hchanged₁.trans (hchanged₂.trans hchanged₃)⟩

/-- **Prepending** puts the argument in front of the text. -/
theorem prepend_spec (h : Holds s w text) (ht : src.IsString w s.owned t) :
    ∃ st s' w', prepend s src w = .ok ((st, s'), w') ∧ Adds s w (t ++ text) st s' w' := by
  obtain ⟨head, room, hhead, hstored⟩ := h.stored
  rw [prepend, check_of ht.ne_null, ok_bind, ht.strlen, ok_bind]
  by_cases hnil : t.length = 0
  · rw [if_pos hnil, List.length_eq_zero_iff.1 hnil, List.nil_append]
    exact ⟨.ok, s, w, rfl, .inr ⟨rfl, h, hstored.changed_same rfl⟩⟩
  rw [if_neg hnil]
  cases hadd : sizeAddOverflow s.len t.length with
  | none => exact ⟨.overflow, s, w, rfl, .inl ⟨by decide, rfl, rfl⟩⟩
  | some newLen =>
    have hsum := add_of_sizeAddOverflow hadd
    obtain ⟨st, s₁, w₁, hensure, hres⟩ := ensureCapacity_spec hstored newLen
    dsimp only
    rw [hensure, ok_bind]
    rcases hres with ⟨hst, rfl, hcells⟩ | ⟨rfl, hlt, hlen, ⟨tail, hstored₁⟩, hchanged⟩
    · exact ⟨st, s₁, w₁, by rw [if_pos hst]; rfl, .inl ⟨hst, rfl, hcells⟩⟩
    rw [if_neg (not_not.2 rfl)]
    have htext := h.length_text
    have hfits := hstored₁.fits
    have hlength := hstored₁.length
    simp only [List.length_append, List.length_cons, hhead] at hlength
    rw [List.append_assoc _ (0 :: room), List.cons_append] at hstored₁
    obtain ⟨w₂, first, w₃, w₄, v, hmove, hread, hmove₂, hset, hstored₂, hchanged₂⟩ :=
      shift_spec (u := t) (x := 0) hstored₁ hhead (by rw [List.length_append]; omega) rfl
        fun w₂ v _ hchanged₂ => by
          have := ((ht.exchange hchanged.exchange).exchange hchanged₂.exchange).reads le_rfl
          rw [List.take_of_length_le (by rw [List.length_append]; rfl)] at this
          exact this.source
    refine ⟨.ok, { s₁ with len := newLen }, w₄, ?_, .inr ⟨rfl, hstored₂.holds hhead ?_ ?_,
      (hchanged.trans hchanged₂).trans (hstored₂.changed_same rfl)⟩⟩
    · rw [sizeAdd_of_le (by omega), ok_bind, ← htext, hmove, ok_bind, hread, ok_bind,
        sizeAdd_of_le (by omega), ok_bind, hmove₂, ok_bind, hset]
      rfl
    · rw [List.mem_append, not_or]
      exact ⟨ht.nul_free, h.nul_free⟩
    · rw [List.length_append]
      omega

/-- **Clearing** moves the terminator to the front. -/
theorem clear_spec (h : Holds s w text) :
    ∃ w', clear s w = .ok ({ s with len := 0 }, w') ∧ Holds { s with len := 0 } w' [] ∧
      Changed s { s with len := 0 } w w' := by
  obtain ⟨head, room, hhead, hstored⟩ := h.stored
  obtain ⟨c, rest, hc⟩ : ∃ c rest, text ++ 0 :: room = [c] ++ rest := by
    cases text with
    | nil => exact ⟨0, room, rfl⟩
    | cons c cs => exact ⟨c, cs ++ 0 :: room, rfl⟩
  rw [List.append_assoc, hc, ← List.append_assoc] at hstored
  obtain ⟨w', hset, hstored', hchanged⟩ := hstored.setChar (i := 0) (e := [0]) hhead rfl
  refine ⟨w', ?_, ?_, hchanged.trans (hstored'.changed_same rfl)⟩
  · rw [clear, show setChar { s with len := 0 } w 0 [0] = _ from hset]
    rfl
  · rw [show head ++ [0] ++ rest = head ++ [] ++ 0 :: rest by simp] at hstored'
    exact hstored'.holds hhead (by simp) rfl

/-! ## Construction and destruction -/

/-- What `create` takes: nothing, or a C string. -/
def Initial (w : Memory) (initial : Arg) (t : List UInt8) : Prop :=
  initial = .null ∧ t = [] ∨ initial.IsString w [] t

theorem Initial.len (h : Initial w src t) : initialLen w src = .ok t.length ∧ 0 ∉ t := by
  rcases h with ⟨rfl, rfl⟩ | h
  · exact ⟨rfl, by simp⟩
  · exact ⟨by rw [initialLen, if_neg h.ne_null, h.strlen], h.nul_free⟩

/-- The initial text is copied unless it is empty. -/
theorem Initial.copied {a z c : List UInt8} (h : Initial w src t)
    (hgain : Exchange (Reclaims s.allocator) [] s.owned w w') (hstored : Stored s w' (a ++ z ++ c))
    (ha : a.length = headerSize) (hz : z.length = t.length) :
    ∃ w'', copyInitial s w' src t.length = .ok w'' ∧ Stored s w'' (a ++ t ++ c) ∧
      Changed s s w' w'' := by
  rw [copyInitial]
  by_cases hpos : t.length > 0
  · rw [if_pos hpos]
    rcases h with ⟨-, rfl⟩ | h
    · exact absurd hpos (by simp)
    · have hreads : src.Reads w' s.owned t.length t := by
        have := (h.exchange hgain).reads (Nat.le_succ t.length)
        rwa [List.take_left] at this
      exact hstored.memcpy (i := 0) ha hz.symm (hreads.copies (List.mem_singleton.2 rfl))
  · rw [if_neg hpos]
    have hnil : t = [] := List.length_eq_zero_iff.1 (by omega)
    rw [hnil] at hz ⊢
    rw [List.length_eq_zero_iff.1 hz] at hstored
    exact ⟨w', rfl, hstored, hstored.changed_same rfl⟩

/-- **Creating a string** fails without an effect, or copies the initial text to a
new block. -/
theorem create_spec {allocator : Option (Allocator Memory)}
    (hbacked : Backed (Allocator.copy allocator)) (h : Initial w src t) :
    ∃ st out w', create src allocator w = .ok ((st, out), w') ∧
      Creates (Reclaims (Allocator.copy allocator)) w owned
        (fun s w' => Holds s w' t ∧ s.allocator = Allocator.copy allocator) st out w' := by
  rw [create, h.len.1, ok_bind]
  rcases capacityFor_spec t.length with hfor | ⟨capacity, hfor, hcapacity, hmax⟩
  · exact ⟨.overflow, none, w, by rw [hfor]; rfl, .inl ⟨by decide, rfl, .refl (by simp)⟩⟩
  simp only [hfor, ok_bind, ne_eq, not_true_eq_false, if_false]
  cases hadd : sizeAddOverflow headerSize capacity with
  | none => exact ⟨.overflow, none, w, rfl, .inl ⟨by decide, rfl, .refl (by simp)⟩⟩
  | some allocSize =>
    obtain ⟨hsum, hfits⟩ := (sizeAddOverflow_eq_some hmax).1 hadd
    dsimp only
    rw [Allocator.alloc_copy]
    rcases Allocator.alloc_spec hbacked w allocSize with
      ⟨w', halloc, hcells⟩ | ⟨bs, w', halloc, hlen, hcells⟩
    · refine ⟨.noMemory, none, w', ?_, .inl ⟨by decide, rfl, .same (by simp) hcells⟩⟩
      simp only [halloc, ok_bind, reduceCtorEq, not_false_eq_true, if_true, pure_eq_ok]
    set s : StringHeader := ⟨w.next, t.length, capacity, Allocator.copy allocator⟩ with hs
    have hgain : Exchange (Reclaims s.allocator) [] s.owned w w' := .gain (by simp) hcells
    have hstored : Stored s w' bs := by
      refine ⟨hbacked, ?_, by rw [hlen, ← hsum], hfits⟩
      rw [hcells, Function.update_self, ← hsum]
    -- the header, the place of the text, that of the terminator, and the rest
    obtain ⟨u, c, v, hcut, hu, hc⟩ :=
      exists_cut (l := bs) (i := headerSize + t.length) (n := 1) (by omega)
    obtain ⟨head, z, e, hcut', hhead, hz⟩ :=
      exists_cut (l := u) (i := headerSize) (n := t.length) (by omega)
    have he : e = [] := by
      have := congrArg List.length hcut'
      simp only [List.length_append] at this
      exact List.length_eq_zero_iff.1 (by omega)
    rw [hcut, hcut', he, List.append_nil, List.append_assoc _ c] at hstored
    obtain ⟨w₂, hcopy, hstored₂, hchanged₂⟩ := h.copied hgain hstored hhead hz
    rw [← List.append_assoc] at hstored₂
    obtain ⟨w₃, hset, hstored₃, hchanged₃⟩ := hstored₂.setChar (i := t.length) (e := [0])
      (by rw [List.length_append, hhead]) hc.symm
    refine ⟨.ok, some s, w₃, ?_, .inr ⟨rfl, s, rfl,
      hgain.trans (hchanged₂.trans hchanged₃).exchange, ?_, rfl⟩⟩
    · rw [halloc, ok_bind, if_neg (not_not.2 rfl), hcopy, ok_bind, hset]
      rfl
    · rw [List.append_assoc _ [0]] at hstored₃
      exact hstored₃.holds hhead h.len.2 rfl

/-- **Destroying a string** releases its block. -/
theorem destroy_spec (h : Holds s w text) :
    ∃ w', destroy s w = .ok w' ∧ Exchange (Reclaims s.allocator) s.owned [] w w' := by
  obtain ⟨head, room, -, hstored⟩ := h.stored
  obtain ⟨w', hdealloc, hcells⟩ := Allocator.dealloc_spec hstored.backed (Mem.live_of hstored.cell)
  exact ⟨w', hdealloc, .drop (by simp) (by simp) hcells⟩

/-! ## Asking about the text -/

variable {o : List ℕ}

/-- The handle can be read as a C string: it is the text. -/
theorem Holds.starts (h : Holds s w text) :
    ∃ bs, w.bytesFrom (.inside (s.buf 0)) = .ok bs ∧ Starts bs text := by
  obtain ⟨head, room, hhead, hstored⟩ := h.stored
  refine ⟨_, Memory.bytesFrom_eq hstored.cell, h.nul_free, room, ?_⟩
  rw [Nat.add_zero, ← hhead, List.append_assoc, List.drop_left]

/-- **`contains`** goes by the terminator. -/
theorem contains_spec (h : Holds s w text) (ht : src.IsString w o t) :
    ∃ b, contains s w src = .ok b ∧ (b = true ↔ t <:+: text) := by
  obtain ⟨bs, hbytes, hstarts⟩ := h.starts
  obtain ⟨bs', hbytes', hstarts'⟩ := ht.bytesFrom
  obtain ⟨r, hr, hiff⟩ := strstr_spec hstarts hstarts'
  refine ⟨r.isSome, ?_, hiff⟩
  rw [contains, if_neg ht.ne_null, hbytes, ok_bind, hbytes', ok_bind, hr, ok_bind, pure_eq_ok]

/-- **`starts_with`** goes by the terminator. -/
theorem startsWith_spec (h : Holds s w text) (ht : src.IsString w o t) :
    ∃ b, startsWith s w src = .ok b ∧ (b = true ↔ t <+: text) := by
  obtain ⟨bs, hbytes, hstarts⟩ := h.starts
  obtain ⟨bs', hbytes', hstarts'⟩ := ht.bytesFrom
  obtain ⟨r, hr, hiff⟩ := strncmp_spec hstarts hstarts'
  refine ⟨decide (r = 0), ?_, by rw [decide_eq_true_iff, hiff]⟩
  rw [startsWith, if_neg ht.ne_null, ht.strlen, ok_bind, hbytes, ok_bind, hbytes', ok_bind, hr,
    ok_bind, pure_eq_ok]

/-- **`ends_with`** goes by the stored length. -/
theorem endsWith_spec (h : Holds s w text) (ht : src.IsString w o t) :
    ∃ b, endsWith s w src = .ok b ∧ (b = true ↔ t <:+ text) := by
  obtain ⟨head, room, hhead, hstored⟩ := h.stored
  have htext := h.length_text
  rw [endsWith, if_neg ht.ne_null, ht.strlen, ok_bind]
  by_cases hlong : t.length > s.len
  · refine ⟨false, by rw [if_pos hlong]; rfl, iff_of_false (by simp) fun hsuffix => ?_⟩
    have := hsuffix.length_le
    omega
  have hsource : w.source src t.length = .ok t := by
    have := (ht.reads (Nat.le_succ t.length)).source
    rwa [List.take_left] at this
  obtain ⟨u, z, e, hcut, hu, hz⟩ :=
    exists_cut (l := text) (i := s.len - t.length) (n := t.length) (by omega)
  have he : e = [] := by
    have := congrArg List.length hcut
    simp only [List.length_append] at this
    exact List.length_eq_zero_iff.1 (by omega)
  rw [he, List.append_nil] at hcut
  have hread : w.source (.inside (s.buf (s.len - t.length))) t.length = .ok z := by
    rw [hcut, ← List.append_assoc head] at hstored
    exact hstored.read (by rw [List.length_append, hhead, hu]) hz
  refine ⟨decide (memcmp z t = 0), ?_, ?_⟩
  · rw [if_neg hlong, sizeSub_of_le (by omega), ok_bind, hread, ok_bind, hsource, ok_bind,
      pure_eq_ok]
  · rw [decide_eq_true_iff, memcmp_eq_zero hz, hcut]
    constructor
    · rintro rfl
      exact List.suffix_append u z
    · intro hsuffix
      exact (List.suffix_of_suffix_length_le (List.suffix_append u z) hsuffix hz.le).eq_of_length hz

/-- **The iterator** yields the places of the characters, up to the stored length. -/
theorem iterator_yields (s : StringHeader) :
    Iterator.Yields iteratorNext (getIterator s).state ((List.range s.len).map s.buf) := by
  refine Iterator.yields_range (s := fun i => (⟨s.buf i, s.buf s.len⟩ : IteratorState))
    (fun i hi => ?_) ?_
  · rw [iteratorNext, if_neg]
    · rfl
    · simp only [buf, Ptr.mk.injEq, true_and]
      omega
  · rw [iteratorNext, if_pos rfl]

theorem read_chars (h : Holds s w text) :
    List.Forall₂ (fun p e => w.read p.block p.offset 1 = .ok e) ((List.range s.len).map s.buf)
      (text.map fun c => [c]) := by
  obtain ⟨head, room, hhead, hstored⟩ := h.stored
  have htext := h.length_text
  rw [List.forall₂_iff_get]
  refine ⟨by simp [htext], fun i hi hi' => ?_⟩
  simp only [List.length_map, List.length_range] at hi
  obtain ⟨u, c, v, hcut, hu, hc⟩ := exists_cut (l := text) (i := i) (n := 1) (by omega)
  obtain ⟨x, rfl⟩ := List.length_eq_one_iff.1 hc
  have hread : w.read s.block (headerSize + i) 1 = .ok [x] := by
    rw [hcut, ← List.append_assoc head, ← List.append_assoc head, List.append_assoc _ v] at hstored
    exact hstored.read (by rw [List.length_append, hhead, hu]) rfl
  have hx : text[i]? = some x := by
    rw [hcut, List.append_assoc, List.getElem?_append_right hu.le, hu, Nat.sub_self]
    rfl
  obtain ⟨hi'', hget⟩ := List.getElem?_eq_some_iff.1 hx
  simp only [List.get_eq_getElem, List.getElem_map, List.getElem_range, buf, hget, hread]

end StringHeader

end K4c
