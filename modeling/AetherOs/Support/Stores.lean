import Mathlib.Tactic.Push
/-!
# Stores to a memory

A memory gives every address a value.  A store sets some addresses: `valueAt`
says which, and to what.  After a list of stores an address that none of them
sets is as it was, and an address has the value that all stores to it agree on.
-/

namespace AetherOs.Support.Stores

variable {σ β : Type} {valueAt : σ → Nat → Option β}

def perform (valueAt : σ → Nat → Option β) (memory : Nat → β) (store : σ) : Nat → β :=
  fun address => (valueAt store address).getD (memory address)

def performAll (valueAt : σ → Nat → Option β) (memory : Nat → β) (stores : List σ) : Nat → β :=
  stores.foldl (perform valueAt) memory

theorem performAll_of_forall_none {stores : List σ} {address : Nat} (memory : Nat → β)
    (h : ∀ store ∈ stores, valueAt store address = none) :
    performAll valueAt memory stores address = memory address := by
  induction stores generalizing memory with
  | nil => rfl
  | cons store stores ih =>
      have hfirst : perform valueAt memory store address = memory address := by
        rw [perform, h store (by simp)]
        rfl
      calc performAll valueAt memory (store :: stores) address
          = performAll valueAt (perform valueAt memory store) stores address := rfl
        _ = perform valueAt memory store address := ih _ fun s hs => h s (by simp [hs])
        _ = memory address := hfirst

theorem performAll_of_agree {stores : List σ} {address : Nat} {value : β} (memory : Nat → β)
    (hset : ∃ store ∈ stores, valueAt store address ≠ none)
    (hagree : ∀ store ∈ stores, ∀ v, valueAt store address = some v → v = value) :
    performAll valueAt memory stores address = value := by
  induction stores generalizing memory with
  | nil => simp at hset
  | cons store stores ih =>
      change performAll valueAt (perform valueAt memory store) stores address = value
      have hrest : ∀ s ∈ stores, ∀ v, valueAt s address = some v → v = value :=
        fun s hs => hagree s (by simp [hs])
      by_cases hlater : ∃ s ∈ stores, valueAt s address ≠ none
      · exact ih _ hlater hrest
      · -- no later store touches the address, so the first one sets it
        push Not at hlater
        rw [performAll_of_forall_none _ hlater, perform]
        obtain ⟨s, hs, hne⟩ := hset
        rcases List.mem_cons.mp hs with rfl | hmem
        · obtain ⟨v, hv⟩ := Option.ne_none_iff_exists'.mp hne
          rw [hv, Option.getD_some]
          exact hagree s hs v hv
        · exact absurd (hlater s hmem) hne

end AetherOs.Support.Stores
