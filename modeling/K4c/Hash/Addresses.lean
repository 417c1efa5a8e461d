import Mathlib.Tactic
import K4c.Hash.Lifetimes

/-!
# Entries stay where they are

A caller keeps the pointers that `k4c_hashmap_get` and `k4c_hashset_get` return.  The
block of an entry is the same one until the entry is removed, whatever happens to the
bucket array and to other entries, and its bytes are only changed by a put of an equal
key or by the caller.

* `Table.Turn.stays` — one turn keeps an entry that it does not remove.
* `Table.run_stays` — so does a run of turns.
* `addresses_stable` — a get returns the same pointer after every run that does not
  remove the key.
-/

namespace K4c

open Exec Bytes Blocks Runs HashCommon
open scoped List

namespace Table

variable {t : Table} {es es' : List Entry} {e : Entry} {puts removes : List UInt8 → Prop}

/-- **One turn** keeps an entry whose key it does not remove, in its block and with its
key; it keeps all of its data when it does not put the key either. -/
theorem Turn.stays (hturn : Turn t puts removes es es') (he : e ∈ es)
    (hspared : ∀ k, k.length = t.keySize → removes k → t.equal (e.key t.keySize) k = false) :
    ∃ e' ∈ es', e'.block = e.block ∧ e'.key t.keySize = e.key t.keySize ∧
      ((∀ k, k.length = t.keySize → puts k → t.equal (e.key t.keySize) k = false) → e' = e) := by
  cases hturn with
  | kept hperm => exact ⟨e, hperm.mem_iff.2 he, rfl, rfl, fun _ => rfl⟩
  | added k d _ _ _ _ hnew =>
    exact ⟨e, hnew.mem_iff.2 (List.mem_cons_of_mem _ he), rfl, rfl, fun _ => rfl⟩
  | rewritten k d d' rest hputs hk hfound hold hnew hblock hkey =>
    rcases List.mem_cons.1 (hold.mem_iff.1 he) with rfl | hrest
    · refine ⟨d', hnew.mem_iff.2 (List.mem_cons_self ..), hblock, hkey, fun hleft => ?_⟩
      have hequal := equal_of_found hfound
      rw [hleft k hk hputs] at hequal
      cases hequal
    · exact ⟨e, hnew.mem_iff.2 (List.mem_cons_of_mem _ hrest), rfl, rfl, fun _ => rfl⟩
  | removed k d hremoves hk hfound hold =>
    rcases List.mem_cons.1 (hold.mem_iff.1 he) with rfl | hrest
    · have hequal := equal_of_found hfound
      rw [hspared k hk hremoves] at hequal
      cases hequal
    · exact ⟨e, hrest, rfl, rfl, fun _ => rfl⟩

section Runs

variable {S L : Type} (step : S → L → Result (Unit × S)) (P : S → L → Prop) (table : S → Table)
  (I : S → List Entry → Prop) (puts removes : S → L → List UInt8 → Prop) {n : ℕ}
  {eq : List UInt8 → List UInt8 → Bool}

/-- **A run of turns** keeps an entry whose key no call removes. -/
theorem run_stays
    (htable : ∀ s es, I s es → (table s).keySize = n ∧ (table s).equal = eq)
    (hstep : ∀ s es l, I s es → P s l → Sat (step s l) fun p =>
      ∃ es', I p.2 es' ∧ Turn (table s) (puts s l) (removes s l) es es') :
    ∀ (ls : List L) (s : S) (es : List Entry) (e : Entry), I s es → e ∈ es →
      Along step (fun s l => P s l ∧ ∀ k, k.length = n → removes s l k → eq (e.key n) k = false)
        s ls →
      Sat (trace step s ls) fun p => ∃ es', I p.2 es' ∧ ∃ e' ∈ es', e'.block = e.block ∧
        e'.key n = e.key n ∧ (Along step (fun s l => ∀ k, k.length = n → puts s l k →
          eq (e.key n) k = false) s ls → e' = e) := by
  intro ls
  induction ls with
  | nil => intro s es e hs he _; exact Sat.ok ⟨es, hs, e, he, rfl, rfl, fun _ => rfl⟩
  | cons l ls ih =>
    intro s es e hs he hal
    obtain ⟨⟨⟨⟩, s'⟩, hl, es', hs', hturn⟩ := hstep s es l hs hal.1.1
    obtain ⟨rfl, rfl⟩ := htable s es hs
    obtain ⟨d, hd, hblock, hkey, hdata⟩ := hturn.stays he hal.1.2
    rw [trace_cons_of_ok hl]
    have hal' := hal.2 _ s' hl
    rw [← hkey] at hal'
    refine (ih s' es' d hs' hd hal').bind fun p hp => Sat.ok ?_
    obtain ⟨es'', hs'', e', he', hblock', hkey', hdata'⟩ := hp
    refine ⟨es'', hs'', e', he', hblock'.trans hblock, hkey'.trans hkey, fun hleft => ?_⟩
    rw [hkey] at hdata'
    exact (hdata' (hleft.2 _ s' hl)).trans (hdata hleft.1)

end Runs

end Table

/-- The `n` bytes behind the pointer are in both memories, and are the same. -/
def Memory.Same (w w' : Memory) (p : Ptr) (n : ℕ) : Prop :=
  ∃ bs, w.read p.block p.offset n = .ok bs ∧ w'.read p.block p.offset n = .ok bs

section Stability

variable [Platform] {n : ℕ} {c : Comparison n}

omit [Platform] in
/-- Of keys that are equal to one another one is removed when the other is. -/
theorem Key.not_equal {x y : List UInt8} {k : Key c} (hx : x.length = n) (hy : y.length = n)
    (hxk : valueEq x k.1 c.eq = true) (hyk : valueEq y k.1 c.eq = false) :
    valueEq x y c.eq = false := by
  cases hxy : valueEq x y c.eq with
  | false => rfl
  | true =>
    have hyx := c.equivalence.symm x y hx hy hxy
    rw [c.equivalence.trans y x k.1 hy hx k.2 hyx hxk] at hyk
    cases hyk

/-! ## Maps -/

namespace Hashmap

/-- The call removes no key that is equal to `k`. -/
def Use.Spares (k : Key c) (s : Hashmap × Memory) (u : Use) : Prop :=
  ∀ k', u.Removes s k' → valueEq k' k.1 c.eq = false

/-- The call puts no key that is equal to `k`, nor stores to its value. -/
def Use.Leaves (k : Key c) (s : Hashmap × Memory) (u : Use) : Prop :=
  ∀ k', u.Puts s k' → valueEq k' k.1 c.eq = false

variable {m : ℕ} {allocator : Option (Allocator Memory)} {s : Hashmap × Memory}
  {rows : ℕ → List Entry}

/-- **An entry stays** where it is while its key is not removed. -/
theorem Intact.stable (h : Intact n m c.eq s rows) {k : Key c} {a : Ptr}
    (hget : s.1.get (.outside k.1) s.2 = .ok (some a)) (uses : List Use)
    (halong : Along (client n m c.eq allocator).step (fun s u => u.Allowed s ∧ u.Spares k s) s
      uses) :
    Sat (trace (client n m c.eq allocator).step s uses) fun q =>
      q.2.1.get (.outside k.1) q.2.2 = .ok (some a) ∧
      s.2.Same q.2.2 (Table.entryKey a.block) n ∧
      (Along (client n m c.eq allocator).step (fun s u => u.Leaves k s) s uses →
        s.2.Same q.2.2 a m) := by
  have hkey : ∀ {s rows}, Intact n m c.eq s rows →
      Arg.Reads s.2 [] s.1.keySize (.outside k.1) k.1 := fun h =>
    .outside (k.2.trans h.table.keySize_eq.symm)
  have hholds : ∀ {s rows}, Intact n m c.eq s rows → Holds s.1 s.2 rows := fun h =>
    ⟨h.table.holds c.equivalence, h.entrySize⟩
  obtain ⟨e, he, hequal, ha⟩ := (hholds h).entry_of_get (hkey h) hget
  subst ha
  have hn := h.table.keySize_eq
  have hlen : (e.key n).length = n := hn ▸ h.table.lies.length_key he
  rw [h.table.equal_eq, hn] at hequal
  have hstays := Table.run_stays (client n m c.eq allocator).step (fun s u => u.Allowed s)
    (fun s => s.1.toTable) (fun s es => ∃ rows, Intact n m c.eq s rows ∧ es = s.1.entries rows)
    (fun s u k => u.Puts s k) (fun s u k => u.Removes s k)
    (fun s es ⟨rows, h, _⟩ => ⟨h.table.keySize_eq, h.table.equal_eq⟩) (by
      rintro s _ u ⟨rows, h, rfl⟩ hu
      apply (use_turn h.lies hu).bind
      rintro s' ⟨rows', h', hchanged, hturn⟩
      exact Sat.ok ⟨_, ⟨rows', h.turn h' hchanged hturn, rfl⟩, hturn⟩)
    uses s _ e ⟨rows, h, rfl⟩ he (halong.mono fun s u hu => ⟨hu.1, fun k' hk' hremoves =>
      Key.not_equal hlen hk' hequal (hu.2 k' hremoves)⟩)
  apply hstays.mono
  rintro ⟨_, s'⟩ ⟨_, ⟨rows', h', rfl⟩, e', he', hblock, hkept, hdata⟩
  have hn' := h'.table.keySize_eq
  have hreadKey := h.table.lies.read_key he
  have hreadKey' := h'.table.lies.read_key he'
  rw [hn] at hreadKey
  rw [hn', hblock, hkept] at hreadKey'
  refine ⟨?_, ⟨e.key n, hreadKey, hreadKey'⟩, fun hleft => ?_⟩
  · have hget' := (hholds h').get_entry he' (hkey h') (by
      rw [h'.table.equal_eq, hn', hkept]
      exact hequal)
    rw [hget', entryValue, entryValue, hblock, hn, hn']
  · have hsame : e' = e := hdata (hleft.mono fun s u hu k' hk' hputs =>
      Key.not_equal hlen hk' hequal (hu k' hputs))
    have hread := h.lies.read_value he
    have hread' := h'.lies.read_value he'
    rw [valueOf, hn, h.valueSize_eq] at hread
    rw [valueOf, hsame, hn', h'.valueSize_eq] at hread'
    rw [entryValue, hn]
    exact ⟨_, hread, hread'⟩

end Hashmap

/-! ## Sets -/

namespace Hashset

/-- The call removes no element that is equal to `x`. -/
def Op.Spares (x : Key c) (s : Hashset × Memory) (o : Op) : Prop :=
  ∀ x', o.Removes s x' → valueEq x' x.1 c.eq = false

variable {allocator : Option (Allocator Memory)} {s : Hashset × Memory} {rows : ℕ → List Entry}

/-- **An element stays** where it is while it is not removed. -/
theorem Intact.stable (h : Intact n c.eq s rows) {x : Key c} {a : Ptr}
    (hget : Hashset.get s.1 (.outside x.1) s.2 = .ok (some a)) (calls : List Op)
    (halong : Along (container n c.eq allocator).step (fun s o => o.Allowed s ∧ o.Spares x s) s
      calls) :
    Sat (trace (container n c.eq allocator).step s calls) fun q =>
      Hashset.get q.2.1 (.outside x.1) q.2.2 = .ok (some a) ∧ s.2.Same q.2.2 a n := by
  have helem : ∀ {s rows}, Intact n c.eq s rows →
      Arg.Reads s.2 [] s.1.keySize (.outside x.1) x.1 := fun h =>
    .outside (x.2.trans h.table.keySize_eq.symm)
  have hholds : ∀ {s rows}, Intact n c.eq s rows → Holds s.1 s.2 rows := fun h =>
    ⟨h.table.holds c.equivalence, h.entrySize⟩
  obtain ⟨e, he, hequal, ha⟩ := (hholds h).entry_of_get (helem h) hget
  subst ha
  have hn := h.table.keySize_eq
  have hlen : (e.key n).length = n := hn ▸ h.table.lies.length_key he
  rw [h.table.equal_eq, hn] at hequal
  have hstays := Table.run_stays (container n c.eq allocator).step (fun s o => o.Allowed s)
    (fun s => s.1) (fun s es => ∃ rows, Intact n c.eq s rows ∧ es = s.1.entries rows)
    (fun s o x => o.Puts s x) (fun s o x => o.Removes s x)
    (fun s es ⟨rows, h, _⟩ => ⟨h.table.keySize_eq, h.table.equal_eq⟩) (by
      rintro s _ o ⟨rows, h, rfl⟩ ho
      apply (call_turn h.lies ho).bind
      rintro s' ⟨rows', h', hchanged, hturn⟩
      exact Sat.ok ⟨_, ⟨rows', h.turn h' hchanged hturn, rfl⟩, hturn⟩)
    calls s _ e ⟨rows, h, rfl⟩ he (halong.mono fun s o ho => ⟨ho.1, fun x' hx' hremoves =>
      Key.not_equal hlen hx' hequal (ho.2 x' hremoves)⟩)
  apply hstays.mono
  rintro ⟨_, s'⟩ ⟨_, ⟨rows', h', rfl⟩, e', he', hblock, hkept, -⟩
  have hn' := h'.table.keySize_eq
  have hread := h.table.lies.read_key he
  have hread' := h'.table.lies.read_key he'
  rw [hn] at hread
  rw [hn', hblock, hkept] at hread'
  refine ⟨?_, e.key n, hread, hread'⟩
  have hget' := (hholds h').get_entry he' (helem h') (by
    rw [h'.table.equal_eq, hn', hkept]
    exact hequal)
  rw [hget', hblock]

end Hashset

/-! ## Runs -/

/-- **Entries stay where they are.**  After every run of a hash map or a hash set, a
pointer that a get returns for a key is the one that it returns after every further run
that removes no equal key: whatever is put, the key itself also, whatever is reserved or
removed beside it, and whichever calls fail.  The bytes of the key stay the same, and
those of the value while no equal key is put and the caller does not store to it. -/
theorem addresses_stable {allocator : Option (Allocator Memory)}
    (hbacked : Backed (Allocator.copy allocator)) (w₀ : Memory) :
    (∀ keySize valueSize (c : Comparison keySize) m w₁ before,
      Hashmap.create keySize valueSize c.eq allocator w₀ = .ok ((.ok, some m), w₁) →
      Along (Hashmap.client keySize valueSize c.eq allocator).step Hashmap.Use.Allowed (m, w₁)
        before →
      Sat (trace (Hashmap.client keySize valueSize c.eq allocator).step (m, w₁) before) fun p =>
        ∀ (k : Key c) a, p.2.1.get (.outside k.1) p.2.2 = .ok (some a) → ∀ after,
        Along (Hashmap.client keySize valueSize c.eq allocator).step
          (fun s u => u.Allowed s ∧ u.Spares k s) p.2 after →
        Sat (trace (Hashmap.client keySize valueSize c.eq allocator).step p.2 after) fun q =>
          q.2.1.get (.outside k.1) q.2.2 = .ok (some a) ∧
          p.2.2.Same q.2.2 (Table.entryKey a.block) keySize ∧
          (Along (Hashmap.client keySize valueSize c.eq allocator).step
            (fun s u => u.Leaves k s) p.2 after → p.2.2.Same q.2.2 a valueSize)) ∧
    (∀ elemSize (c : Comparison elemSize) s w₁ before,
      Hashset.create elemSize c.eq allocator w₀ = .ok ((.ok, some s), w₁) →
      Along (Hashset.container elemSize c.eq allocator).step Hashset.Op.Allowed (s, w₁) before →
      Sat (trace (Hashset.container elemSize c.eq allocator).step (s, w₁) before) fun p =>
        ∀ (x : Key c) a, Hashset.get p.2.1 (.outside x.1) p.2.2 = .ok (some a) → ∀ after,
        Along (Hashset.container elemSize c.eq allocator).step
          (fun s o => o.Allowed s ∧ o.Spares x s) p.2 after →
        Sat (trace (Hashset.container elemSize c.eq allocator).step p.2 after) fun q =>
          Hashset.get q.2.1 (.outside x.1) q.2.2 = .ok (some a) ∧
          p.2.2.Same q.2.2 a elemSize) := by
  refine ⟨?_, ?_⟩
  · intro keySize valueSize c m w₁ before hcreate halong
    apply (Hashmap.reached (Hashmap.create_intact hbacked hcreate) before halong).mono
    rintro ⟨_, s⟩ ⟨rows, h⟩ k a hget after hafter
    exact h.stable hget after hafter
  · intro elemSize c s w₁ before hcreate halong
    apply (Hashset.reached (Hashset.create_intact hbacked hcreate) before halong).mono
    rintro ⟨_, s⟩ ⟨rows, h⟩ x a hget after hafter
    exact h.stable hget after hafter

end Stability

section Example

local instance addressesPlatform : Platform := lp64

/-- A memory that grants every request and moves what it resizes. -/
def unstinting : Memory := .empty fun _ => some ⟨true, fun _ => 0⟩

/-- One entry, in a table that then grows, with another value and a neighbour that comes
and goes. -/
def growAround : List Hashmap.Use :=
  [.call (.put (.outside [2]) (.outside [20, 21])), .call (.reserve 100),
    .call (.put (.outside [1]) (.outside [12, 13])), .call (.remove (.outside [2]))]

/-- One element, which is inserted again, and the same around it. -/
def insertAround : List Hashset.Op :=
  [.insert (.outside [2]), .reserve 100, .insert (.outside [1]), .remove (.outside [2])]

/-- What the calls around an entry of a map promise. -/
theorem growAround_spares {s : Hashmap × Memory} {rows : ℕ → List Entry}
    (hintact : Hashmap.Intact 1 2 none s rows) : Along (Hashmap.client 1 2 none none).step
      (fun s u => u.Allowed s ∧ u.Spares (c := .bytewise 1) ⟨[1], rfl⟩ s) s growAround := by
  refine along_of_inv (I := fun s => ∃ rows, Hashmap.Intact 1 2 none s rows)
    (Q := fun u => u ∈ growAround) ?_ (fun _ _ h hu => Hashmap.client_step h hu.1) growAround s
    ⟨rows, hintact⟩ fun _ hu => hu
  rintro s u ⟨rows, h⟩ hu
  have hown : ∀ u ∈ growAround, u.own 1 2 = true := by decide
  refine ⟨Hashmap.Use.allowed_of_own ?_, fun k' hremoves => ?_⟩
  · rw [h.table.keySize_eq, h.valueSize_eq]
    exact hown u hu
  · simp only [growAround, List.mem_cons, List.not_mem_nil, or_false] at hu
    rcases hu with rfl | rfl | rfl | rfl
    · cases hremoves
    · cases hremoves
    · cases hremoves
    · change readAt [2] 0 s.1.keySize = .ok k' at hremoves
      rw [h.table.keySize_eq] at hremoves
      cases hremoves
      decide

/-- What the calls around an element of a set promise. -/
theorem insertAround_spares {s : Hashset × Memory} {rows : ℕ → List Entry}
    (hintact : Hashset.Intact 1 none s rows) : Along (Hashset.container 1 none none).step
      (fun s o => o.Allowed s ∧ o.Spares (c := .bytewise 1) ⟨[1], rfl⟩ s) s insertAround := by
  refine along_of_inv (I := fun s => ∃ rows, Hashset.Intact 1 none s rows)
    (Q := fun o => o ∈ insertAround) ?_ (fun _ _ h ho => Hashset.container_step h ho.1)
    insertAround s ⟨rows, hintact⟩ fun _ ho => ho
  rintro s o ⟨rows, h⟩ ho
  have hown : ∀ o ∈ insertAround, o.own 1 = true := by decide
  refine ⟨Hashset.Op.allowed_of_own ?_, fun x' hremoves => ?_⟩
  · rw [h.table.keySize_eq]
    exact hown o ho
  · simp only [insertAround, List.mem_cons, List.not_mem_nil, or_false] at ho
    rcases ho with rfl | rfl | rfl | rfl
    · cases hremoves
    · cases hremoves
    · cases hremoves
    · change readAt [2] 0 s.1.keySize = .ok x' at hremoves
      rw [h.table.keySize_eq] at hremoves
      cases hremoves
      decide

set_option maxRecDepth 4000 in
theorem addresses_stable_grow_around :
    (∃ m w₁ s a, Hashmap.create 1 2 none none unstinting = .ok ((.ok, some m), w₁) ∧
      trace (Hashmap.client 1 2 none none).step (m, w₁)
        [.call (.put (.outside [1]) (.outside [10, 11]))] = .ok ([()], s) ∧
      s.1.get (.outside [1]) s.2 = .ok (some a) ∧
      Sat (trace (Hashmap.client 1 2 none none).step s growAround) fun q =>
        q.2.1.get (.outside [1]) q.2.2 = .ok (some a) ∧
        s.2.Same q.2.2 (Table.entryKey a.block) 1) ∧
    (∃ t w₁ s a, Hashset.create 1 none none unstinting = .ok ((.ok, some t), w₁) ∧
      trace (Hashset.container 1 none none).step (t, w₁) [.insert (.outside [1])] =
        .ok ([()], s) ∧
      Hashset.get s.1 (.outside [1]) s.2 = .ok (some a) ∧
      Sat (trace (Hashset.container 1 none none).step s insertAround) fun q =>
        Hashset.get q.2.1 (.outside [1]) q.2.2 = .ok (some a) ∧ s.2.Same q.2.2 a 1) := by
  have hbacked : Backed (Allocator.copy none) := .default _
  refine ⟨?_, ?_⟩
  · obtain ⟨m, w₁, s, a, hcreate, htrace, hget⟩ : ∃ m w₁ s a,
        Hashmap.create 1 2 none none unstinting = .ok ((.ok, some m), w₁) ∧
        trace (Hashmap.client 1 2 none none).step (m, w₁)
          [.call (.put (.outside [1]) (.outside [10, 11]))] = .ok ([()], s) ∧
        s.1.get (.outside [1]) s.2 = .ok (some a) := by
      exact ⟨_, _, _, _, rfl, rfl, rfl⟩
    have hnew := Hashmap.create_intact hbacked hcreate
    have hbefore : Along (Hashmap.client 1 2 none none).step Hashmap.Use.Allowed (m, w₁)
        [.call (.put (.outside [1]) (.outside [10, 11]))] := Hashmap.along_own hnew _ (by decide)
    obtain ⟨p, hp, hstable⟩ :=
      (addresses_stable hbacked _).1 1 2 (.bytewise 1) m w₁ _ hcreate hbefore
    obtain ⟨p', hp', rows, hintact⟩ := Hashmap.reached hnew _ hbefore
    cases htrace.symm.trans hp
    cases htrace.symm.trans hp'
    refine ⟨m, w₁, s, a, hcreate, htrace, hget, ?_⟩
    exact (hstable ⟨[1], rfl⟩ a hget growAround (growAround_spares hintact)).mono
      fun q hq => ⟨hq.1, hq.2.1⟩
  · obtain ⟨t, w₁, s, a, hcreate, htrace, hget⟩ : ∃ t w₁ s a,
        Hashset.create 1 none none unstinting = .ok ((.ok, some t), w₁) ∧
        trace (Hashset.container 1 none none).step (t, w₁) [.insert (.outside [1])] =
          .ok ([()], s) ∧
        Hashset.get s.1 (.outside [1]) s.2 = .ok (some a) := by
      exact ⟨_, _, _, _, rfl, rfl, rfl⟩
    have hnew := Hashset.create_intact hbacked hcreate
    have hbefore : Along (Hashset.container 1 none none).step Hashset.Op.Allowed (t, w₁)
        [.insert (.outside [1])] := Hashset.along_own hnew _ (by decide)
    obtain ⟨p, hp, hstable⟩ := (addresses_stable hbacked _).2 1 (.bytewise 1) t w₁ _ hcreate hbefore
    obtain ⟨p', hp', rows, hintact⟩ := Hashset.reached hnew _ hbefore
    cases htrace.symm.trans hp
    cases htrace.symm.trans hp'
    exact ⟨t, w₁, s, a, hcreate, htrace, hget,
      hstable ⟨[1], rfl⟩ a hget insertAround (insertAround_spares hintact)⟩

end Example

end K4c
