import Mathlib.Data.Fintype.Card
/-!
# Bounded maps and tables of slots

A `BoundedMap` is a finite map with at most `capacity` keys.  A table of
`capacity` slots, each empty or holding one key with its value, represents
such a map when no key stands in two slots.  The rules below say which map a
table represents after one slot was overwritten, filled or cleared, and that
the map has room for another key exactly when the table has an empty slot.
-/

namespace AetherOs.Support

structure BoundedMap (κ ν : Type) (capacity : Nat) where
  lookup : κ → Option ν
  keys : Finset κ
  mem_keys : ∀ k, k ∈ keys ↔ (lookup k).isSome
  card_le : keys.card ≤ capacity

namespace BoundedMap

variable {κ ν : Type} {capacity : Nat}

@[ext] theorem ext {M M' : BoundedMap κ ν capacity} (h : ∀ k, M.lookup k = M'.lookup k) :
    M = M' := by
  have hlookup : M.lookup = M'.lookup := funext h
  have hkeys : M.keys = M'.keys := by
    ext k
    rw [M.mem_keys, M'.mem_keys, h k]
  cases M
  cases M'
  simp_all

theorem notMem_keys {M : BoundedMap κ ν capacity} {k : κ} :
    k ∉ M.keys ↔ M.lookup k = none := by
  rw [M.mem_keys, Option.not_isSome_iff_eq_none]

def empty : BoundedMap κ ν capacity where
  lookup := fun _ => none
  keys := ∅
  mem_keys := by simp
  card_le := by simp

variable [DecidableEq κ]

/-- Set a key that is there, or a new one while there is room. -/
def insert (M : BoundedMap κ ν capacity) (k : κ) (v : ν)
    (hroom : k ∈ M.keys ∨ M.keys.card < capacity) : BoundedMap κ ν capacity where
  lookup := Function.update M.lookup k (some v)
  keys := Insert.insert k M.keys
  mem_keys := by
    intro k'
    by_cases hk : k' = k
    · subst hk
      simp
    · simp [hk, M.mem_keys]
  card_le := by
    rcases hroom with hmem | hlt
    · rw [Finset.insert_eq_self.mpr hmem]
      exact M.card_le
    · exact (Finset.card_insert_le k M.keys).trans hlt

def erase (M : BoundedMap κ ν capacity) (k : κ) : BoundedMap κ ν capacity where
  lookup := Function.update M.lookup k none
  keys := M.keys.erase k
  mem_keys := by
    intro k'
    by_cases hk : k' = k
    · subst hk
      simp
    · simp [hk, M.mem_keys]
  card_le := (Finset.card_erase_le).trans M.card_le

end BoundedMap

namespace SlotTable

variable {α κ ν : Type} {n : Nat} {view : α → Option (κ × ν)} {table : Fin n → α}
  {M : BoundedMap κ ν n}

structure Represents (view : α → Option (κ × ν)) (table : Fin n → α)
    (M : BoundedMap κ ν n) : Prop where
  distinct : ∀ {i j k v w}, view (table i) = some (k, v) → view (table j) = some (k, w) → i = j
  lookup : ∀ k v, M.lookup k = some v ↔ ∃ i, view (table i) = some (k, v)

namespace Represents

theorem empty (h : ∀ i, view (table i) = none) : Represents view table BoundedMap.empty where
  distinct := by
    intro i j k v w hi
    rw [h i] at hi
    cases hi
  lookup := by
    intro k v
    simp [BoundedMap.empty, h]

theorem lookup_eq (h : Represents view table M) {i : Fin n} {k : κ} {v : ν}
    (hi : view (table i) = some (k, v)) : M.lookup k = some v :=
  (h.lookup k v).mpr ⟨i, hi⟩

theorem mem_keys (h : Represents view table M) {k : κ} :
    k ∈ M.keys ↔ ∃ i v, view (table i) = some (k, v) := by
  rw [M.mem_keys, Option.isSome_iff_exists]
  constructor
  · rintro ⟨v, hv⟩
    obtain ⟨i, hi⟩ := (h.lookup k v).mp hv
    exact ⟨i, v, hi⟩
  · rintro ⟨i, v, hi⟩
    exact ⟨v, h.lookup_eq hi⟩

theorem card_keys (h : Represents view table M) :
    M.keys.card = (Finset.univ.filter fun i => (view (table i)).isSome).card := by
  symm
  refine Finset.card_bij (fun i hi => ((view (table i)).get (by simpa using hi)).1)
    (fun i hi => ?_) (fun i hi j hj heq => ?_) (fun k hk => ?_)
  · obtain ⟨⟨k, v⟩, hv⟩ := Option.isSome_iff_exists.mp (by simpa using hi)
    simp only [hv, Option.get_some]
    exact h.mem_keys.mpr ⟨i, v, hv⟩
  · obtain ⟨⟨k, v⟩, hv⟩ := Option.isSome_iff_exists.mp (by simpa using hi)
    obtain ⟨⟨k', v'⟩, hv'⟩ := Option.isSome_iff_exists.mp (by simpa using hj)
    simp only [hv, hv', Option.get_some] at heq
    subst heq
    exact h.distinct hv hv'
  · obtain ⟨i, v, hi⟩ := h.mem_keys.mp hk
    exact ⟨i, by simp [hi], by simp [hi]⟩

theorem card_lt_iff (h : Represents view table M) :
    M.keys.card < n ↔ ∃ i, view (table i) = none := by
  rw [h.card_keys]
  constructor
  · intro hlt
    by_contra hfull
    have hall : (Finset.univ.filter fun i => (view (table i)).isSome) = Finset.univ := by
      rw [Finset.filter_eq_self]
      intro i _
      rw [Option.isSome_iff_ne_none]
      exact fun hi => hfull ⟨i, hi⟩
    rw [hall, Finset.card_univ, Fintype.card_fin] at hlt
    exact Nat.lt_irrefl _ hlt
  · rintro ⟨i, hi⟩
    have hsub : (Finset.univ.filter fun i => (view (table i)).isSome) ⊂ Finset.univ := by
      rw [Finset.filter_ssubset]
      exact ⟨i, Finset.mem_univ i, by simp [hi]⟩
    have hlt := Finset.card_lt_card hsub
    rwa [Finset.card_univ, Fintype.card_fin] at hlt

theorem view_update {i j : Fin n} {a : α} {b : Option (κ × ν)} :
    view (Function.update table i a j) = b ↔
      (j = i ∧ view a = b) ∨ (j ≠ i ∧ view (table j) = b) := by
  by_cases hji : j = i
  · subst hji
    simp
  · simp [hji]

variable [DecidableEq κ]

/-- Writing a binding of `k` into slot `i`, which is empty or holds `k`, while
no other slot holds `k`. -/
theorem store (h : Represents view table M) {i : Fin n} {k : κ} {v : ν} {a : α}
    (hslot : ∀ k' v', view (table i) = some (k', v') → k' = k)
    (honly : ∀ j v', view (table j) = some (k, v') → j = i)
    (ha : view a = some (k, v)) (hroom : k ∈ M.keys ∨ M.keys.card < n) :
    Represents view (Function.update table i a) (M.insert k v hroom) where
  distinct := by
    intro j j' k' w w' hj hj'
    rcases view_update.mp hj with ⟨hji, hnew⟩ | ⟨-, hold⟩
    · rw [ha] at hnew
      cases hnew
      rcases view_update.mp hj' with ⟨hji', -⟩ | ⟨-, hold'⟩
      · rw [hji, hji']
      · rw [hji, honly j' w' hold']
    · rcases view_update.mp hj' with ⟨hji', hnew'⟩ | ⟨-, hold'⟩
      · rw [ha] at hnew'
        cases hnew'
        rw [hji', honly j w hold]
      · exact h.distinct hold hold'
  lookup := by
    intro k' w
    by_cases hk : k' = k
    · subst hk
      simp only [BoundedMap.insert, Function.update_self]
      constructor
      · intro hw
        cases hw
        exact ⟨i, view_update.mpr (Or.inl ⟨rfl, ha⟩)⟩
      · rintro ⟨j, hj⟩
        rcases view_update.mp hj with ⟨-, hj⟩ | ⟨hji, hj⟩
        · rw [ha] at hj
          cases hj
          rfl
        · exact absurd (honly j w hj) hji
    · simp only [BoundedMap.insert, Function.update_of_ne hk]
      rw [h.lookup]
      constructor
      · rintro ⟨j, hj⟩
        have hji : j ≠ i := by
          rintro rfl
          exact hk (hslot k' w hj)
        exact ⟨j, view_update.mpr (Or.inr ⟨hji, hj⟩)⟩
      · rintro ⟨j, hj⟩
        rcases view_update.mp hj with ⟨-, hj⟩ | ⟨-, hj⟩
        · rw [ha] at hj
          cases hj
          exact absurd rfl hk
        · exact ⟨j, hj⟩

theorem overwrite (h : Represents view table M) {i : Fin n} {k : κ} {v w : ν} {a : α}
    (hi : view (table i) = some (k, w)) (ha : view a = some (k, v))
    (hroom : k ∈ M.keys ∨ M.keys.card < n) :
    Represents view (Function.update table i a) (M.insert k v hroom) := by
  refine h.store (fun k' v' hv' => ?_) (fun j v' hj => h.distinct hj hi) ha hroom
  rw [hi] at hv'
  cases hv'
  rfl

theorem fill (h : Represents view table M) {i : Fin n} {k : κ} {v : ν} {a : α}
    (hi : view (table i) = none) (hk : k ∉ M.keys) (ha : view a = some (k, v))
    (hroom : k ∈ M.keys ∨ M.keys.card < n) :
    Represents view (Function.update table i a) (M.insert k v hroom) := by
  refine h.store (fun k' v' hv' => ?_) (fun j v' hj => ?_) ha hroom
  · rw [hi] at hv'
    cases hv'
  · exact absurd (h.mem_keys.mpr ⟨j, v', hj⟩) hk

theorem clear (h : Represents view table M) {i : Fin n} {k : κ} {w : ν} {a : α}
    (hi : view (table i) = some (k, w)) (ha : view a = none) :
    Represents view (Function.update table i a) (M.erase k) := by
  have hold : ∀ {j p}, view (Function.update table i a j) = some p →
      j ≠ i ∧ view (table j) = some p := by
    intro j p hj
    rcases view_update.mp hj with ⟨-, hj⟩ | hj
    · rw [ha] at hj
      cases hj
    · exact hj
  constructor
  · intro j j' k' v v' hj hj'
    exact h.distinct (hold hj).2 (hold hj').2
  · intro k' v
    by_cases hk : k' = k
    · subst hk
      simp only [BoundedMap.erase, Function.update_self, reduceCtorEq, false_iff, not_exists]
      intro j hj
      exact (hold hj).1 (h.distinct (hold hj).2 hi)
    · simp only [BoundedMap.erase, Function.update_of_ne hk]
      rw [h.lookup]
      constructor
      · rintro ⟨j, hj⟩
        have hji : j ≠ i := by
          rintro rfl
          rw [hi] at hj
          cases hj
          exact hk rfl
        exact ⟨j, view_update.mpr (Or.inr ⟨hji, hj⟩)⟩
      · rintro ⟨j, hj⟩
        exact ⟨j, (hold hj).2⟩

end Represents

end SlotTable

end AetherOs.Support
