import Mathlib.Data.Finmap
import Mathlib.Tactic

/-!
# Finite maps on equivalence classes

A map whose keys are compared by an equivalence relation is a finite map on the
classes of the keys.  A container keeps it as a list of pairs, with one key of
each class: `Lists` says that a list of pairs is such a map.

* `Lists.card` — the map has as many keys as the list has pairs.
* `Lists.lookup_eq_some`, `Lists.lookup_eq_none` — a search of the list is a
  lookup in the map.
* `Lists.insert`, `Lists.replace`, `Lists.erase` — the three changes.
-/

namespace ClassMap

variable {κ ν : Type} [s : Setoid κ]

/-- The map on the class of the key that a pair stands for. -/
def pair (p : κ × ν) : Sigma fun _ : Quotient s => ν := ⟨⟦p.1⟧, p.2⟩

/-- The map consists of the pairs of the list, in any order. -/
def Lists (M : Finmap fun _ : Quotient s => ν) (l : List (κ × ν)) : Prop :=
  M.entries = (l.map pair : Multiset (Sigma fun _ : Quotient s => ν))

variable {M : Finmap fun _ : Quotient s => ν} {l l' : List (κ × ν)} {k k' : κ} {v v' : ν}

namespace Lists

theorem empty : Lists (∅ : Finmap fun _ : Quotient s => ν) [] := rfl

theorem perm (h : Lists M l) (hperm : l.Perm l') : Lists M l' := by
  rw [Lists, h]
  exact Multiset.coe_eq_coe.2 (hperm.map pair)

/-- **The number of keys.** -/
theorem card (h : Lists M l) : M.keys.card = l.length := by
  change (Multiset.map Sigma.fst M.entries).card = _
  rw [h, Multiset.card_map, Multiset.coe_card, List.length_map]

variable [DecidableRel fun a b : κ => a ≈ b]

theorem lookup_eq_some (h : Lists M l) :
    M.lookup ⟦k⟧ = some v ↔ ∃ p ∈ l, p.1 ≈ k ∧ p.2 = v := by
  rw [Finmap.lookup_eq_some_iff, h, Multiset.mem_coe, List.mem_map]
  constructor
  · rintro ⟨p, hp, heq⟩
    rw [pair, Sigma.mk.injEq] at heq
    exact ⟨p, hp, Quotient.exact heq.1, eq_of_heq heq.2⟩
  · rintro ⟨p, hp, hk, rfl⟩
    exact ⟨p, hp, by rw [pair, Quotient.sound hk]⟩

theorem lookup_eq_none (h : Lists M l) : M.lookup ⟦k⟧ = none ↔ ∀ p ∈ l, ¬ p.1 ≈ k := by
  constructor
  · intro hnone p hp hk
    have := (h.lookup_eq_some (k := k) (v := p.2)).2 ⟨p, hp, hk, rfl⟩
    rw [hnone] at this
    cases this
  · intro hall
    cases hlook : M.lookup ⟦k⟧ with
    | none => rfl
    | some v =>
      obtain ⟨p, hp, hk, -⟩ := h.lookup_eq_some.1 hlook
      exact absurd hk (hall p hp)

/-- A pair whose key is not in the map. -/
theorem insert (h : Lists M l) (hk : ∀ p ∈ l, ¬ p.1 ≈ k) :
    Lists (M.insert ⟦k⟧ v) ((k, v) :: l) := by
  have hnot : (⟦k⟧ : Quotient s) ∉ M := Finmap.lookup_eq_none.1 (h.lookup_eq_none.2 hk)
  rw [Lists, Finmap.entries_insert_of_notMem hnot, h]
  rfl

/-- A map without one of its pairs: the other pairs have other keys. -/
theorem erase (h : Lists M ((k', v) :: l)) (hk : k' ≈ k) : Lists (M.erase ⟦k⟧) l := by
  have hnodup : (M.entries.map Sigma.fst).Nodup := Multiset.nodup_keys.2 M.nodupKeys
  rw [h] at hnodup
  have hout : (⟦k⟧ : Quotient s) ∉ l.map fun p => (⟦p.1⟧ : Quotient s) := by
    have := (List.nodup_cons.1 (by simpa [pair, Function.comp_def] using hnodup :
      ((⟦k'⟧ : Quotient s) :: l.map fun p => (⟦p.1⟧ : Quotient s)).Nodup)).1
    rwa [Quotient.sound hk] at this
  -- the map that the rest of the list is, with the pair put back in
  have hrest : ((l.map pair : List (Sigma fun _ : Quotient s => ν)) :
      Multiset (Sigma fun _ : Quotient s => ν)).NodupKeys := by
    rw [Multiset.coe_nodupKeys, List.NodupKeys, List.keys]
    have := (List.nodup_cons.1 (by simpa [pair, Function.comp_def] using hnodup :
      ((⟦k'⟧ : Quotient s) :: l.map fun p => (⟦p.1⟧ : Quotient s)).Nodup)).2
    simpa [pair, Function.comp_def] using this
  set N : Finmap fun _ : Quotient s => ν := ⟨_, hrest⟩ with hN
  have hnot : (⟦k⟧ : Quotient s) ∉ N := by
    rw [Finmap.mem_def]
    simpa [hN, pair, Function.comp_def, Multiset.keys] using hout
  have hM : M = N.insert ⟦k⟧ v := by
    apply Finmap.ext
    rw [Finmap.entries_insert_of_notMem hnot, h, ← Quotient.sound hk]
    rfl
  have hback : M.erase ⟦k⟧ = N := by
    apply Finmap.ext_lookup
    intro x
    by_cases hx : x = ⟦k⟧
    · rw [hx, Finmap.lookup_erase, Finmap.lookup_eq_none.2 hnot]
    · rw [Finmap.lookup_erase_ne hx, hM, Finmap.lookup_insert_of_ne _ hx]
  rw [hback]
  rfl

/-- A pair whose value is changed. -/
theorem replace (h : Lists M ((k', v) :: l)) (hk : k' ≈ k) :
    Lists (M.insert ⟦k⟧ v') ((k', v') :: l) := by
  have herase := h.erase (Setoid.refl k')
  have hout : ∀ p ∈ l, ¬ p.1 ≈ k' := by
    rw [← herase.lookup_eq_none, Finmap.lookup_erase]
  have hins := herase.insert (v := v') hout
  have hsame : M.insert ⟦k⟧ v' = (M.erase ⟦k'⟧).insert ⟦k'⟧ v' := by
    rw [← Quotient.sound hk]
    apply Finmap.ext_lookup
    intro x
    by_cases hx : x = ⟦k'⟧
    · rw [hx, Finmap.lookup_insert, Finmap.lookup_insert]
    · rw [Finmap.lookup_insert_of_ne _ hx, Finmap.lookup_insert_of_ne _ hx,
        Finmap.lookup_erase_ne hx]
  rw [hsame]
  exact hins

end Lists

/-- Erasing a key that is not in the map. -/
theorem erase_of_lookup_none [DecidableRel fun a b : κ => a ≈ b] {x : Quotient s}
    (h : M.lookup x = none) : M.erase x = M := by
  apply Finmap.ext_lookup
  intro y
  by_cases hy : y = x
  · rw [hy, Finmap.lookup_erase, h]
  · rw [Finmap.lookup_erase_ne hy]

end ClassMap
