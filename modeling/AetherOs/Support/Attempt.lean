import Mathlib.Order.Basic
/-!
# Fallible computations over a state

An `Attempt` changes a state and ends with a value or an error; what it had
done when it failed is not undone.  `none` means that it has not ended: it waits
for something that did not happen.

`Ensures P m Q E` is partial correctness with two postconditions: from a state
with `P`, if `m` ends with a value it does so as `Q` says, and if it ends with an
error, as `E` says.
-/

namespace AetherOs.Support

def Attempt (σ ε α : Type) : Type := σ → Option (Except ε α × σ)

namespace Attempt

variable {σ ε α β : Type}

def andThen (m : Attempt σ ε α) (f : α → Attempt σ ε β) : Attempt σ ε β := fun s =>
  match m s with
  | none => none
  | some (.error e, s') => some (.error e, s')
  | some (.ok a, s') => f a s'

instance : Monad (Attempt σ ε) where
  pure a := fun s => some (.ok a, s)
  bind := andThen

def fail (e : ε) : Attempt σ ε α := fun s => some (.error e, s)

def stuck : Attempt σ ε α := fun _ => none

def current : Attempt σ ε σ := fun s => some (.ok s, s)

def update (f : σ → σ) : Attempt σ ε Unit := fun s => some (.ok (), f s)

/-- Go on only if an operation of the outside world succeeded. -/
def expect (ok : Bool) (e : ε) : Attempt σ ε Unit := if ok then pure () else fail e

theorem bind_ok {m : Attempt σ ε α} {f : α → Attempt σ ε β} {s s' : σ} {a : α}
    (h : m s = some (.ok a, s')) : (m >>= f) s = f a s' := by
  change andThen m f s = f a s'
  rw [andThen, h]

theorem bind_error {m : Attempt σ ε α} {f : α → Attempt σ ε β} {s s' : σ} {e : ε}
    (h : m s = some (.error e, s')) : (m >>= f) s = some (.error e, s') := by
  change andThen m f s = some (.error e, s')
  rw [andThen, h]

theorem bind_eq_some {m : Attempt σ ε α} {f : α → Attempt σ ε β} {s s' : σ} {r : Except ε β}
    (h : (m >>= f) s = some (r, s')) :
    (∃ e, m s = some (.error e, s') ∧ r = .error e) ∨
      ∃ a s₁, m s = some (.ok a, s₁) ∧ f a s₁ = some (r, s') := by
  cases hm : m s with
  | none =>
      change andThen m f s = some (r, s') at h
      rw [andThen, hm] at h
      cases h
  | some end₁ =>
      obtain ⟨result, s₁⟩ := end₁
      cases result with
      | error e =>
          rw [bind_error hm] at h
          cases h
          exact Or.inl ⟨e, rfl, rfl⟩
      | ok a =>
          rw [bind_ok hm] at h
          exact Or.inr ⟨a, s₁, rfl, h⟩

/-! ## Pre- and postconditions -/

def Ensures (P : σ → Prop) (m : Attempt σ ε α) (Q : α → σ → Prop) (E : σ → Prop) : Prop :=
  ∀ s, P s → (∀ a s', m s = some (.ok a, s') → Q a s') ∧ ∀ e s', m s = some (.error e, s') → E s'

namespace Ensures

variable {P P' : σ → Prop} {Q Q' : α → σ → Prop} {R : β → σ → Prop} {E E' : σ → Prop}
  {m : Attempt σ ε α} {f : α → Attempt σ ε β}

theorem pure {a : α} (h : ∀ s, P s → Q a s) : Ensures P (Pure.pure a : Attempt σ ε α) Q E := by
  intro s hs
  constructor
  · intro a' s' hrun
    cases hrun
    exact h s hs
  · intro e s' hrun
    cases hrun

theorem fail {e : ε} (h : ∀ s, P s → E s) : Ensures P (Attempt.fail e : Attempt σ ε α) Q E := by
  intro s hs
  constructor
  · intro a s' hrun
    cases hrun
  · intro e' s' hrun
    cases hrun
    exact h s hs

theorem stuck : Ensures P (Attempt.stuck : Attempt σ ε α) Q E := by
  intro s _
  constructor
  · intro a s' hrun
    cases hrun
  · intro e s' hrun
    cases hrun

theorem update {Q : Unit → σ → Prop} {g : σ → σ} (h : ∀ s, P s → Q () (g s)) :
    Ensures P (Attempt.update g : Attempt σ ε Unit) Q E := by
  intro s hs
  constructor
  · intro a s' hrun
    cases hrun
    exact h s hs
  · intro e s' hrun
    cases hrun

theorem bind (hm : Ensures P m Q E) (hf : ∀ a, Ensures (Q a) (f a) R E) :
    Ensures P (m >>= f) R E := by
  intro s hs
  constructor
  · intro b s' hrun
    rcases bind_eq_some hrun with ⟨e, -, heq⟩ | ⟨a, s₁, hfirst, hrest⟩
    · cases heq
    · exact (hf a s₁ ((hm s hs).1 a s₁ hfirst)).1 b s' hrest
  · intro e s' hrun
    rcases bind_eq_some hrun with ⟨e', hfirst, -⟩ | ⟨a, s₁, hfirst, hrest⟩
    · exact (hm s hs).2 e' s' hfirst
    · exact (hf a s₁ ((hm s hs).1 a s₁ hfirst)).2 e s' hrest

theorem current_bind {f : σ → Attempt σ ε β}
    (h : ∀ s₀, Ensures (fun s => s = s₀ ∧ P s) (f s₀) R E) :
    Ensures P (Attempt.current >>= f) R E :=
  fun s hs => h s s ⟨rfl, hs⟩

theorem expect_bind {ok : Bool} {e : ε} {f : Unit → Attempt σ ε β} (hE : ∀ s, P s → E s)
    (h : Ensures P (f ()) R E) : Ensures P (Attempt.expect ok e >>= f) R E := by
  apply bind (Q := fun _ => P)
  · cases ok with
    | true => exact pure fun _ hs => hs
    | false => exact fail hE
  · exact fun _ => h

theorem weaken (h : Ensures P m Q E) (hP : ∀ s, P' s → P s) (hQ : ∀ a s, Q a s → Q' a s)
    (hE : ∀ s, E s → E' s) : Ensures P' m Q' E' := by
  intro s hs
  have hends := h s (hP s hs)
  exact ⟨fun a s' hrun => hQ a s' (hends.1 a s' hrun), fun e s' hrun => hE s' (hends.2 e s' hrun)⟩

end Ensures

end Attempt

end AetherOs.Support
