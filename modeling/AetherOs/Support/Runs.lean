import Mathlib.Order.Basic
/-!
# Runs of a labelled step function

A component is a state together with a total step function indexed by labels:
the operation called, the thread scheduled, or the event delivered.  A run is
a list of labels.  These definitions name nothing of a particular component;
the invariant rules below are the only way the later proofs reason about runs.
-/

namespace AetherOs.Support.Runs

variable {σ ι : Type} {step : σ → ι → σ}

def exec (step : σ → ι → σ) (s : σ) (labels : List ι) : σ :=
  labels.foldl step s

def Along (step : σ → ι → σ) (allowed : σ → ι → Prop) : σ → List ι → Prop
  | _, [] => True
  | s, l :: ls => allowed s l ∧ Along step allowed (step s l) ls

instance decidableAlong {allowed : σ → ι → Prop} [∀ s l, Decidable (allowed s l)] :
    ∀ s ls, Decidable (Along step allowed s ls)
  | _, [] => isTrue trivial
  | s, l :: ls =>
      match decidableAlong (step s l) ls with
      | isTrue h => decidable_of_iff (allowed s l) ⟨fun hl => ⟨hl, h⟩, fun hl => hl.1⟩
      | isFalse h => isFalse fun hl => h hl.2

@[simp] theorem exec_nil (s : σ) : exec step s [] = s := rfl

@[simp] theorem exec_cons (s : σ) (l : ι) (ls : List ι) :
    exec step s (l :: ls) = exec step (step s l) ls := rfl

theorem exec_append (s : σ) (ls ms : List ι) :
    exec step s (ls ++ ms) = exec step (exec step s ls) ms :=
  List.foldl_append

theorem exec_invariant {P : σ → Prop} (hstep : ∀ s l, P s → P (step s l))
    {s : σ} (hs : P s) (ls : List ι) : P (exec step s ls) := by
  induction ls generalizing s with
  | nil => exact hs
  | cons l ls ih => exact ih (hstep s l hs)

/-- A property kept by every allowed step holds at the end of every run whose
steps are all allowed. -/
theorem exec_invariant_along {P : σ → Prop} {allowed : σ → ι → Prop}
    (hstep : ∀ s l, P s → allowed s l → P (step s l))
    {s : σ} (hs : P s) {ls : List ι} (hls : Along step allowed s ls) :
    P (exec step s ls) := by
  induction ls generalizing s with
  | nil => exact hs
  | cons l ls ih => exact ih (hstep s l hs hls.1) hls.2

/-- An invariant that allows every step allows every run. -/
theorem along_of_invariant {P : σ → Prop} {allowed : σ → ι → Prop}
    (hstep : ∀ s l, P s → P (step s l)) (hallowed : ∀ s l, P s → allowed s l)
    {s : σ} (hs : P s) (ls : List ι) : Along step allowed s ls := by
  induction ls generalizing s with
  | nil => trivial
  | cons l ls ih => exact ⟨hallowed s l hs, ih (hstep s l hs)⟩

/-- An invariant of the allowed steps allows more of their runs. -/
theorem Along.of_invariant {P : σ → Prop} {allowed allowed' : σ → ι → Prop}
    (hstep : ∀ s l, P s → allowed s l → P (step s l)) (hallowed : ∀ s l, P s → allowed' s l)
    {s : σ} (hs : P s) {ls : List ι} (h : Along step allowed s ls) : Along step allowed' s ls := by
  induction ls generalizing s with
  | nil => trivial
  | cons l ls ih => exact ⟨hallowed s l hs, ih (hstep s l hs h.1) h.2⟩

theorem Along.append {allowed : σ → ι → Prop} {s : σ} {ls ms : List ι}
    (h : Along step allowed s ls) (h' : Along step allowed (exec step s ls) ms) :
    Along step allowed s (ls ++ ms) := by
  induction ls generalizing s with
  | nil => exact h'
  | cons l ls ih => exact ⟨h.1, ih h.2 h'⟩

theorem Along.mono {allowed allowed' : σ → ι → Prop} (h : ∀ s l, allowed s l → allowed' s l)
    {s : σ} {ls : List ι} (hls : Along step allowed s ls) : Along step allowed' s ls := by
  induction ls generalizing s with
  | nil => trivial
  | cons l ls ih => exact ⟨h s l hls.1, ih hls.2⟩

/-- What holds of all states of a run allows its steps. -/
theorem along_of_forall_take {P : σ → Prop} {s : σ} {ls : List ι}
    (h : ∀ n, P (exec step s (ls.take n))) : Along step (fun s _ => P s) s ls := by
  induction ls generalizing s with
  | nil => trivial
  | cons l ls ih => exact ⟨h 0, ih fun n => h (n + 1)⟩

/-- What is allowed may be read off a component that moves on its own. -/
theorem along_map_iff {τ : Type} {step' : τ → ι → τ} {f : σ → τ} {allowed : τ → ι → Prop}
    (hf : ∀ s l, f (step s l) = step' (f s) l) (s : σ) (ls : List ι) :
    Along step (fun s l => allowed (f s) l) s ls ↔ Along step' allowed (f s) ls := by
  induction ls generalizing s with
  | nil => exact Iff.rfl
  | cons l ls ih => rw [Along, Along, ih, hf]

/-- A run keeps `P` as long as its steps are allowed; the first one that is not
leads to `Q`, for good. -/
theorem exec_along_or_stuck {P Q : σ → Prop} {allowed : σ → ι → Prop}
    (hkeep : ∀ s l, P s → allowed s l → P (step s l))
    (hleave : ∀ s l, P s → ¬allowed s l → Q (step s l)) (hstay : ∀ s l, Q s → Q (step s l))
    {s : σ} (hs : P s) (ls : List ι) :
    Along step allowed s ls ∧ P (exec step s ls) ∨
      ¬Along step allowed s ls ∧ Q (exec step s ls) := by
  induction ls generalizing s with
  | nil => exact Or.inl ⟨trivial, hs⟩
  | cons l ls ih =>
      by_cases hl : allowed s l
      · rcases ih (hkeep s l hs hl) with ⟨hls, hP⟩ | ⟨hls, hQ⟩
        · exact Or.inl ⟨⟨hl, hls⟩, hP⟩
        · exact Or.inr ⟨fun h => hls h.2, hQ⟩
      · exact Or.inr ⟨fun h => hl h.1, exec_invariant hstay (hleave s l hs hl) ls⟩

/-- Two systems that stay related under every label stay related along a run. -/
theorem exec_simulation {τ : Type} {step' : τ → ι → τ} {R : σ → τ → Prop}
    (hstep : ∀ s t l, R s t → R (step s l) (step' t l))
    {s : σ} {t : τ} (h : R s t) (ls : List ι) : R (exec step s ls) (exec step' t ls) := by
  induction ls generalizing s t with
  | nil => exact h
  | cons l ls ih => exact ih (hstep s t l h)

/-- If every allowed step keeps `P`, and every other step breaks `G`, then the
runs that never leave `G` are the runs of allowed steps. -/
theorem forall_exec_take_iff_along {P G : σ → Prop} {allowed : σ → ι → Prop}
    (hgood : ∀ s, P s → G s) (hkeep : ∀ s l, P s → allowed s l → P (step s l))
    (hleave : ∀ s l, P s → ¬allowed s l → ¬G (step s l)) {s : σ} (hs : P s) (ls : List ι) :
    (∀ n, G (exec step s (ls.take n))) ↔ Along step allowed s ls := by
  induction ls generalizing s with
  | nil => simpa [Along] using hgood s hs
  | cons l ls ih =>
      constructor
      · intro h
        have hl : allowed s l := by
          by_contra hl
          exact hleave s l hs hl (h 1)
        exact ⟨hl, (ih (hkeep s l hs hl)).mp fun n => h (n + 1)⟩
      · rintro ⟨hl, hls⟩ n
        cases n with
        | zero => exact hgood s hs
        | succ n => exact (ih (hkeep s l hs hl)).mpr hls n

/-- If the allowed steps are those that keep the value of `f`, then the runs of
allowed steps are those in which `f` never changes. -/
theorem forall_exec_take_eq_iff_along {α : Type} {f : σ → α} {allowed : σ → ι → Prop}
    (hstep : ∀ s l, f (step s l) = f s ↔ allowed s l) (s : σ) (ls : List ι) :
    (∀ n, f (exec step s (ls.take n)) = f s) ↔ Along step allowed s ls := by
  refine forall_exec_take_iff_along (P := (f · = f s)) (fun _ ht => ht) ?_ ?_ rfl ls
  · intro t l ht hl
    exact ((hstep t l).mpr hl).trans ht
  · intro t l ht hl hkept
    exact hl ((hstep t l).mp (hkept.trans ht.symm))

end AetherOs.Support.Runs
