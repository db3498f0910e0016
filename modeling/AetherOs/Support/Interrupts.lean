import AetherOs.Support.Program
import AetherOs.Support.Runs
import Mathlib.Data.Finset.Lattice.Lemmas
/-!
# One processor with interrupts

A main context runs until an interrupt is delivered; then a handler runs to its
end while the main context is suspended, with no further delivery in between.
Both are programs over one shared state and one set of spin locks, and a
request for a lock that is held spins.  The environment may change the state at
any time.

`Rely.invariant` is the proof rule: the main context keeps its invariant `I`
if everything that happens between two of its steps stays in `R`, every handler
from its delivery to its return stays in `R`, and then no handler requests a
lock that it was not granted.  `HandlerInvariant.step` is a second rule, for an
invariant that depends on how far the handler has come and not on any lock.

A system with a device runs the same programs, watched by the device;
`Extends.exec` finds each of its runs among the runs of the system without it.
-/

namespace AetherOs.Support.Interrupts

open AetherOs.Support

structure Context (σ μ : Type) where
  prog : Prog σ μ
  held : Finset μ

/-- The handlers, when an interrupt can be delivered, what the hardware does at
a delivery, and what the environment can do by itself. -/
structure System (σ μ ι ε : Type) where
  handler : ι → Prog σ μ
  deliverable : σ → ι → Bool
  deliver : ι → σ → σ
  environment : ε → σ → σ

structure State (σ μ : Type) where
  shared : σ
  main : Context σ μ
  handler : Option (Context σ μ)

inductive Label (ι ε : Type) where
  | run
  | interrupt (i : ι)
  | environment (e : ε)

variable {σ μ ι ε : Type} [DecidableEq μ]

/-- The next atomic step of a context while `blocked` is held by the other one. -/
def Context.step (c : Context σ μ) (blocked : Finset μ) (s : σ) : σ × Context σ μ :=
  match c.prog with
  | .done => (s, c)
  | .halt => (s, c)
  | .lock m k => if m ∈ blocked ∨ m ∈ c.held then (s, c) else (s, ⟨k, insert m c.held⟩)
  | .unlock m k => (s, ⟨k, c.held.erase m⟩)
  | .act f k => (f s, ⟨k s, c.held⟩)

/-- A handler that has ended returns; locks it did not release stay held. -/
def step (sys : System σ μ ι ε) (st : State σ μ) : Label ι ε → State σ μ
  | .run =>
      match st.handler with
      | none =>
          let next := st.main.step ∅ st.shared
          { st with shared := next.1, main := next.2 }
      | some h =>
          match h.prog with
          | .done =>
              { st with main := ⟨st.main.prog, st.main.held ∪ h.held⟩, handler := none }
          | _ =>
              let next := h.step st.main.held st.shared
              { st with shared := next.1, handler := some next.2 }
  | .interrupt i =>
      match st.handler with
      | some _ => st
      | none =>
          if sys.deliverable st.shared i then
            { st with shared := sys.deliver i st.shared, handler := some ⟨sys.handler i, ∅⟩ }
          else st
  | .environment e => { st with shared := sys.environment e st.shared }

def Context.request (c : Context σ μ) : Option μ :=
  match c.prog with
  | .lock m _ => some m
  | _ => none

/-- The handler spins on a lock that the interrupted context holds. -/
def Deadlocked (st : State σ μ) : Prop :=
  ∃ h m, st.handler = some h ∧ h.request = some m ∧ m ∈ st.main.held

def AllowedLabel (sys : System σ μ ι ε) (allowed : Finset μ → σ → ι → Prop) (st : State σ μ) :
    Label ι ε → Prop
  | .interrupt i =>
      st.handler = none → sys.deliverable st.shared i = true → allowed st.main.held st.shared i
  | _ => True

instance decidableAllowedLabel (sys : System σ μ ι ε) {allowed : Finset μ → σ → ι → Prop}
    [∀ H s i, Decidable (allowed H s i)] (st : State σ μ) :
    ∀ label, Decidable (AllowedLabel sys allowed st label)
  | .run => isTrue trivial
  | .environment _ => isTrue trivial
  | .interrupt i => inferInstanceAs (Decidable (st.handler = none →
      sys.deliverable st.shared i = true → allowed st.main.held st.shared i))

omit [DecidableEq μ] in
theorem AllowedLabel.mono {sys : System σ μ ι ε} {allowed allowed' : Finset μ → σ → ι → Prop}
    {st : State σ μ} {label : Label ι ε} (h : ∀ H s i, allowed H s i → allowed' H s i)
    (hlabel : AllowedLabel sys allowed st label) : AllowedLabel sys allowed' st label := by
  cases label with
  | run => trivial
  | environment e => trivial
  | interrupt i => exact fun hidle hdeliver => h _ _ _ (hlabel hidle hdeliver)

/-! ## The proof rule -/

theorem Context.step_upholds {E : σ → σ → Prop} {grant : μ → Finset μ → Prop}
    {I Q : Finset μ → σ → Prop} (hrefl : ∀ s, E s s) {c : Context σ μ} {blocked : Finset μ}
    {s : σ} (h : Prog.Upholds E grant I Q c.held c.prog s) :
    Prog.Upholds E grant I Q (c.step blocked s).2.held (c.step blocked s).2.prog
      (c.step blocked s).1 := by
  obtain ⟨prog, held⟩ := c
  unfold Context.step
  cases prog with
  | done => exact h
  | halt => exact h
  | lock m k =>
      simp only
      split_ifs
      · exact h
      · exact h.2.2
  | unlock m k => exact h.2
  | act f k => exact (h s (hrefl s)).2

/-- What the main context relies on and what the handlers have to show. -/
structure Rely (sys : System σ μ ι ε) (E R : σ → σ → Prop)
    (grant : Finset μ → μ → Finset μ → Prop) (I : Finset μ → σ → Prop)
    (allowed : Finset μ → σ → ι → Prop) : Prop where
  refl : ∀ s, R s s
  trans : ∀ s s' s'', R s s' → R s' s'' → R s s''
  env_refl : ∀ s, E s s
  env_trans : ∀ s s' s'', E s s' → E s' s'' → E s s''
  env_sub : ∀ s s', E s s' → R s s'
  environment : ∀ e s, E s (sys.environment e s)
  handler : ∀ H s i, I H s → sys.deliverable s i = true → allowed H s i →
    Prog.Upholds E (grant H) (fun _ _ => True) (fun own s' => own = ∅ ∧ R s s') ∅
      (sys.handler i) (sys.deliver i s)

def InOrder (E R : σ → σ → Prop) (grant : Finset μ → μ → Finset μ → Prop)
    (I : Finset μ → σ → Prop) (st : State σ μ) : Prop :=
  match st.handler with
  | none => Prog.Upholds R (fun _ _ => True) I (fun _ _ => True) st.main.held st.main.prog st.shared
  | some h => ∃ s,
      Prog.Upholds R (fun _ _ => True) I (fun _ _ => True) st.main.held st.main.prog s ∧
        Prog.Upholds E (grant st.main.held) (fun _ _ => True) (fun own s' => own = ∅ ∧ R s s')
          h.held h.prog st.shared

section Rely

variable {sys : System σ μ ι ε} {E R : σ → σ → Prop} {grant : Finset μ → μ → Finset μ → Prop}
  {I : Finset μ → σ → Prop} {allowed : Finset μ → σ → ι → Prop} {st : State σ μ}

theorem Rely.step (rely : Rely sys E R grant I allowed) (h : InOrder E R grant I st)
    (label : Label ι ε) (hallowed : AllowedLabel sys allowed st label) :
    InOrder E R grant I (step sys st label) := by
  obtain ⟨shared, main, handler⟩ := st
  cases label with
  | run =>
      cases handler with
      | none => exact Context.step_upholds rely.refl h
      | some c =>
          obtain ⟨s, hmain, hhandler⟩ := h
          obtain ⟨prog, held⟩ := c
          cases prog with
          | done =>
              -- the handler returns: it holds nothing and has stayed in `R`
              obtain ⟨hown, hR⟩ := (hhandler shared (rely.env_refl shared)).2
              change Prog.Upholds _ _ _ _ (main.held ∪ held) main.prog shared
              simp only at hown
              rw [hown, Finset.union_empty]
              exact hmain.env rely.trans hR
          | halt => exact ⟨s, hmain, Context.step_upholds rely.env_refl hhandler⟩
          | lock m k => exact ⟨s, hmain, Context.step_upholds rely.env_refl hhandler⟩
          | unlock m k => exact ⟨s, hmain, Context.step_upholds rely.env_refl hhandler⟩
          | act f k => exact ⟨s, hmain, Context.step_upholds rely.env_refl hhandler⟩
  | interrupt i =>
      cases handler with
      | some c => exact h
      | none =>
          simp only [Interrupts.step]
          split_ifs with hdeliver
          · have hinv := Prog.Upholds.inv rely.refl h
            exact ⟨shared, h, rely.handler main.held shared i hinv hdeliver (hallowed rfl hdeliver)⟩
          · exact h
  | environment e =>
      have hE := rely.environment e shared
      cases handler with
      | none => exact Prog.Upholds.env rely.trans h (rely.env_sub _ _ hE)
      | some c =>
          obtain ⟨s, hmain, hhandler⟩ := h
          exact ⟨s, hmain, hhandler.env rely.env_trans hE⟩

theorem Rely.invariant (rely : Rely sys E R grant I allowed) (h : InOrder E R grant I st)
    {labels : List (Label ι ε)}
    (hallowed : Runs.Along (Interrupts.step sys) (AllowedLabel sys allowed) st labels) :
    InOrder E R grant I (Runs.exec (Interrupts.step sys) st labels) := by
  refine Runs.exec_invariant_along (P := InOrder E R grant I) ?_ h hallowed
  intro st label hst hlabel
  exact rely.step hst label hlabel

theorem InOrder.main_inv (hrefl : ∀ s, R s s) (h : InOrder E R grant I st)
    (hnone : st.handler = none) : I st.main.held st.shared := by
  unfold InOrder at h
  rw [hnone] at h
  exact Prog.Upholds.inv hrefl h

theorem InOrder.granted (h : InOrder E R grant I st) {c : Context σ μ} {m : μ}
    (hsome : st.handler = some c) (hrequest : c.request = some m) :
    grant st.main.held m c.held := by
  unfold InOrder at h
  rw [hsome] at h
  obtain ⟨s, -, hhandler⟩ := h
  obtain ⟨prog, held⟩ := c
  cases prog with
  | lock m' k =>
      cases hrequest
      exact hhandler.2.1
  | _ => cases hrequest

end Rely

/-! ## Invariants that follow the handler -/

theorem Context.step_updates {G : σ → σ → Prop} (hrefl : ∀ s, G s s) {c : Context σ μ}
    (h : c.prog.Updates G) (blocked : Finset μ) (s : σ) :
    G s (c.step blocked s).1 ∧ (c.step blocked s).2.prog.Updates G := by
  obtain ⟨prog, held⟩ := c
  unfold Context.step
  cases prog with
  | done => exact ⟨hrefl s, h⟩
  | halt => exact ⟨hrefl s, h⟩
  | lock m k =>
      dsimp only
      split_ifs
      · exact ⟨hrefl s, h⟩
      · exact ⟨hrefl s, h⟩
  | unlock m k => exact ⟨hrefl s, h⟩
  | act f k => exact ⟨h.1 s, h.2 s⟩

/-- The main context makes updates in `G` only, and `J` relates the shared state
to the handler that is running, if one is. -/
def Tracks (G : σ → σ → Prop) (J : σ → Option (Context σ μ) → Prop) (st : State σ μ) : Prop :=
  st.main.prog.Updates G ∧ J st.shared st.handler

structure HandlerInvariant (sys : System σ μ ι ε) (G : σ → σ → Prop)
    (J : σ → Option (Context σ μ) → Prop) (allowed : Finset μ → σ → ι → Prop) : Prop where
  main : ∀ s s', J s none → G s s' → J s' none
  deliver : ∀ H s i, J s none → sys.deliverable s i = true → allowed H s i →
    J (sys.deliver i s) (some ⟨sys.handler i, ∅⟩)
  run : ∀ s c blocked, J s (some c) → J (c.step blocked s).1 (some (c.step blocked s).2)
  returns : ∀ s c, J s (some c) → c.prog = .done → J s none
  environment : ∀ s h e, J s h → J (sys.environment e s) h

theorem HandlerInvariant.step {sys : System σ μ ι ε} {G : σ → σ → Prop}
    {J : σ → Option (Context σ μ) → Prop} {allowed : Finset μ → σ → ι → Prop}
    (rule : HandlerInvariant sys G J allowed) (hrefl : ∀ s, G s s) {st : State σ μ}
    (h : Tracks G J st) (label : Label ι ε) (hallowed : AllowedLabel sys allowed st label) :
    Tracks G J (step sys st label) := by
  obtain ⟨shared, main, handler⟩ := st
  obtain ⟨hmain, hJ⟩ := h
  cases label with
  | run =>
      cases handler with
      | none =>
          obtain ⟨hG, hprog⟩ := Context.step_updates hrefl hmain ∅ shared
          exact ⟨hprog, rule.main _ _ hJ hG⟩
      | some c =>
          obtain ⟨prog, held⟩ := c
          cases prog with
          | done => exact ⟨hmain, rule.returns _ _ hJ rfl⟩
          | halt => exact ⟨hmain, rule.run _ _ _ hJ⟩
          | lock m k => exact ⟨hmain, rule.run _ _ _ hJ⟩
          | unlock m k => exact ⟨hmain, rule.run _ _ _ hJ⟩
          | act f k => exact ⟨hmain, rule.run _ _ _ hJ⟩
  | interrupt i =>
      cases handler with
      | some c => exact ⟨hmain, hJ⟩
      | none =>
          simp only [Interrupts.step]
          split_ifs with hdeliver
          · exact ⟨hmain, rule.deliver _ _ i hJ hdeliver (hallowed rfl hdeliver)⟩
          · exact ⟨hmain, hJ⟩
  | environment e => exact ⟨hmain, rule.environment _ _ e hJ⟩

/-! ## Machines with a device -/

section Watched

variable {δ : Type} {react : σ → σ → δ → δ}

def Context.watched (react : σ → σ → δ → δ) (c : Context σ μ) : Context (Attached σ δ) μ :=
  ⟨c.prog.watched react, c.held⟩

theorem Context.step_watched (c : Context σ μ) (blocked : Finset μ) (a : Attached σ δ) :
    ((c.watched react).step blocked a).1.host = (c.step blocked a.host).1 ∧
      ((c.watched react).step blocked a).2 = (c.step blocked a.host).2.watched react := by
  obtain ⟨prog, held⟩ := c
  cases prog with
  | done => exact ⟨rfl, rfl⟩
  | halt => exact ⟨rfl, rfl⟩
  | lock m k =>
      by_cases hm : m ∈ blocked ∨ m ∈ held
      · simp only [Context.watched, Context.step, Prog.watched, hm, ↓reduceIte, and_self]
      · simp only [Context.watched, Context.step, Prog.watched, hm, ↓reduceIte, and_self]
  | unlock m k => exact ⟨rfl, rfl⟩
  | act f k => exact ⟨rfl, rfl⟩

structure Shadows (react : σ → σ → δ → δ) (st : State (Attached σ δ) μ) (st' : State σ μ) :
    Prop where
  shared : st'.shared = st.shared.host
  main : st.main = st'.main.watched react
  handler : st.handler = st'.handler.map (Context.watched react)

theorem Shadows.run (sys : System (Attached σ δ) μ ι ε) (sys' : System σ μ ι ε)
    {st : State (Attached σ δ) μ} {st' : State σ μ} (h : Shadows react st st') :
    Shadows react (step sys st .run) (step sys' st' .run) := by
  obtain ⟨a, main, handler⟩ := st
  obtain ⟨s, main', handler'⟩ := st'
  obtain ⟨hshared, hmain, hhandler⟩ := h
  simp only at hshared hmain hhandler
  subst hshared hmain hhandler
  cases handler' with
  | none =>
      have hnext : _ ∧ ((main'.watched react).step ∅ a).2 = _ := Context.step_watched main' ∅ a
      exact ⟨hnext.1.symm, hnext.2, rfl⟩
  | some c =>
      have hnext : _ ∧ ((c.watched react).step main'.held a).2 = _ :=
        Context.step_watched c main'.held a
      obtain ⟨prog, held⟩ := c
      cases prog with
      | done => exact ⟨rfl, rfl, rfl⟩
      | halt => exact ⟨hnext.1.symm, rfl, congrArg some hnext.2⟩
      | lock m k => exact ⟨hnext.1.symm, rfl, congrArg some hnext.2⟩
      | unlock m k => exact ⟨hnext.1.symm, rfl, congrArg some hnext.2⟩
      | act f k => exact ⟨hnext.1.symm, rfl, congrArg some hnext.2⟩

/-- `sys` is `sys'` with a device, which may hold deliveries back. -/
structure Extends (react : σ → σ → δ → δ) (sys : System (Attached σ δ) μ ι ε)
    (sys' : System σ μ ι ε) : Prop where
  handler : ∀ i, sys.handler i = (sys'.handler i).watched react
  deliver : ∀ i a, (sys.deliver i a).host = sys'.deliver i a.host
  environment : ∀ e a, (sys.environment e a).host = sys'.environment e a.host

variable {sys : System (Attached σ δ) μ ι ε} {sys' : System σ μ ι ε} {st : State (Attached σ δ) μ}
  {st' : State σ μ}

/-- The device does not hold the delivery back, and the machine without it has no other. -/
def AgreedLabel (sys : System (Attached σ δ) μ ι ε) (sys' : System σ μ ι ε)
    (st : State (Attached σ δ) μ) : Label ι ε → Prop
  | .interrupt i =>
      st.handler = none → sys.deliverable st.shared i = sys'.deliverable st.shared.host i
  | _ => True

omit [DecidableEq μ] in
theorem Shadows.handler_eq_none (h : Shadows react st st') :
    st.handler = none ↔ st'.handler = none := by
  rw [h.handler, Option.map_eq_none_iff]

theorem step_interrupt_of_not_deliverable {st : State σ μ} {sys : System σ μ ι ε} {i : ι}
    (h : st.handler = none → sys.deliverable st.shared i = false) :
    Interrupts.step sys st (.interrupt i) = st := by
  unfold Interrupts.step
  cases hhandler : st.handler with
  | some c => rfl
  | none =>
      dsimp only
      rw [h hhandler, if_neg Bool.false_ne_true]

/-- Where they agree, both machines take the step. -/
theorem Extends.step_agreed (hext : Extends react sys sys') (h : Shadows react st st')
    {label : Label ι ε} (hagreed : AgreedLabel sys sys' st label) :
    Shadows react (Interrupts.step sys st label) (Interrupts.step sys' st' label) := by
  cases label with
  | run => exact h.run sys sys'
  | environment e =>
      refine ⟨?_, h.main, h.handler⟩
      change sys'.environment e st'.shared = (sys.environment e st.shared).host
      rw [h.shared, hext.environment]
  | interrupt i =>
      by_cases hfires : st.handler = none ∧ sys.deliverable st.shared i = true
      · obtain ⟨hidle, hdeliver⟩ := hfires
        have hidle' : st'.handler = none := h.handler_eq_none.mp hidle
        have hdeliver' : sys'.deliverable st'.shared i = true := by
          rw [h.shared, ← hagreed hidle]
          exact hdeliver
        simp only [Interrupts.step, hidle, hidle', if_pos hdeliver, if_pos hdeliver']
        refine ⟨?_, h.main, ?_⟩
        · rw [hext.deliver, h.shared]
        · rw [hext.handler]
          rfl
      · have hheld : st.handler = none → sys.deliverable st.shared i = false :=
          fun hidle => Bool.eq_false_of_not_eq_true fun hdeliver => hfires ⟨hidle, hdeliver⟩
        have hheld' : st'.handler = none → sys'.deliverable st'.shared i = false := by
          intro hidle'
          have hidle := h.handler_eq_none.mpr hidle'
          rw [h.shared, ← hagreed hidle]
          exact hheld hidle
        rw [step_interrupt_of_not_deliverable hheld, step_interrupt_of_not_deliverable hheld']
        exact h

/-- Machines that agree along a run take it in lockstep. -/
theorem Extends.exec_agreed (hext : Extends react sys sys') (h : Shadows react st st')
    {labels : List (Label ι ε)}
    (hagreed : Runs.Along (Interrupts.step sys) (AgreedLabel sys sys') st labels) :
    Shadows react (Runs.exec (Interrupts.step sys) st labels)
      (Runs.exec (Interrupts.step sys') st' labels) := by
  induction labels generalizing st st' with
  | nil => exact h
  | cons label labels ih => exact ih (hext.step_agreed h hagreed.1) hagreed.2

/-- What is allowed of the host is then allowed of the machine without the device. -/
theorem Extends.along_agreed (hext : Extends react sys sys') (h : Shadows react st st')
    {allowed : Finset μ → σ → ι → Prop} {labels : List (Label ι ε)}
    (hagreed : Runs.Along (Interrupts.step sys) (AgreedLabel sys sys') st labels)
    (hallowed : Runs.Along (Interrupts.step sys)
      (AllowedLabel sys fun H a i => allowed H a.host i) st labels) :
    Runs.Along (Interrupts.step sys') (AllowedLabel sys' allowed) st' labels := by
  induction labels generalizing st st' with
  | nil => trivial
  | cons label labels ih =>
      refine ⟨?_, ih (hext.step_agreed h hagreed.1) hagreed.2 hallowed.2⟩
      cases label with
      | run => trivial
      | environment e => trivial
      | interrupt i =>
          intro hidle' hdeliver'
          have hidle := h.handler_eq_none.mpr hidle'
          rw [h.shared] at hdeliver' ⊢
          have hheld : st'.main.held = st.main.held := by
            rw [h.main]
            rfl
          rw [hheld]
          exact hallowed.1 hidle ((hagreed.1 hidle).trans hdeliver')

/-- Where only the device may hold a delivery back, the machine without it leaves out
the deliveries that are held back. -/
theorem Extends.step (hext : Extends react sys sys') (h : Shadows react st st') (label : Label ι ε)
    (hallowed : AllowedLabel sys (fun _ a i => sys'.deliverable a.host i = true) st label) :
    ∃ labels, Shadows react (step sys st label) (Runs.exec (Interrupts.step sys') st' labels) := by
  by_cases hagreed : AgreedLabel sys sys' st label
  · exact ⟨[label], hext.step_agreed h hagreed⟩
  · cases label with
    | run => exact absurd trivial hagreed
    | environment e => exact absurd trivial hagreed
    | interrupt i =>
        have hheld : st.handler = none → sys.deliverable st.shared i = false := by
          intro hidle
          by_contra hdeliver
          have hdeliver := Bool.eq_true_of_not_eq_false hdeliver
          exact hagreed fun _ => hdeliver.trans (hallowed hidle hdeliver).symm
        refine ⟨[], ?_⟩
        rw [step_interrupt_of_not_deliverable hheld]
        exact h

/-- A run of the machine with the device is a run of the machine without it. -/
theorem Extends.exec (hext : Extends react sys sys') (h : Shadows react st st')
    {labels : List (Label ι ε)}
    (hallowed : Runs.Along (Interrupts.step sys)
      (AllowedLabel sys fun _ a i => sys'.deliverable a.host i = true) st labels) :
    ∃ labels', Shadows react (Runs.exec (Interrupts.step sys) st labels)
      (Runs.exec (Interrupts.step sys') st' labels') := by
  induction labels generalizing st st' with
  | nil => exact ⟨[], h⟩
  | cons label labels ih =>
      obtain ⟨first, hfirst⟩ := hext.step h label hallowed.1
      obtain ⟨rest, hrest⟩ := ih hfirst hallowed.2
      refine ⟨first ++ rest, ?_⟩
      rw [Runs.exec_append]
      exact hrest

end Watched

/-- A handler that runs into a lock of the main context, undisturbed, deadlocks. -/
theorem deadlocked_of_runsInto (sys : System σ μ ι ε) (main : Context σ μ) {prog : Prog σ μ}
    {own : Finset μ} {s : σ} (h : Prog.RunsInto main.held own prog s) :
    ∃ n, Deadlocked
      (Runs.exec (step sys) ⟨s, main, some ⟨prog, own⟩⟩ (List.replicate n .run)) := by
  induction prog generalizing own s with
  | done => exact h.elim
  | halt => exact h.elim
  | lock m k ih =>
      by_cases hm : m ∈ main.held
      · exact ⟨0, ⟨.lock m k, own⟩, m, rfl, rfl, hm⟩
      · obtain ⟨hown, hk⟩ := h.resolve_left hm
        obtain ⟨n, hn⟩ := ih hk
        have hstep : step sys ⟨s, main, some ⟨.lock m k, own⟩⟩ .run =
            ⟨s, main, some ⟨k, insert m own⟩⟩ := by
          simp only [step, Context.step, hm, hown, or_self, ↓reduceIte]
        refine ⟨n + 1, ?_⟩
        rw [List.replicate_succ, Runs.exec_cons, hstep]
        exact hn
  | unlock m k ih =>
      obtain ⟨n, hn⟩ := ih h
      exact ⟨n + 1, hn⟩
  | act f k ih =>
      obtain ⟨n, hn⟩ := ih s h
      exact ⟨n + 1, hn⟩

/-- A handler that takes no lock of the main context, undisturbed, ends where
its program run alone ends. -/
theorem exec_handler_run (sys : System σ μ ι ε) (main : Context σ μ) {A : Set μ}
    {G : σ → σ → Prop} {prog : Prog σ μ} {own own' : Finset μ}
    (hprog : Prog.Static A G own own' prog) (hfree : ∀ m ∈ A, m ∉ main.held) {s s' : σ}
    (h : prog.run s = some s') :
    ∃ n, Runs.exec (step sys) ⟨s, main, some ⟨prog, own⟩⟩ (List.replicate n .run) =
      ⟨s', main, some ⟨.done, own'⟩⟩ := by
  induction prog generalizing own s with
  | done =>
      cases h
      cases hprog
      exact ⟨0, rfl⟩
  | halt => cases h
  | lock m k ih =>
      obtain ⟨hm, hown, hk⟩ := hprog
      obtain ⟨n, hn⟩ := ih hk h
      have hstep : step sys ⟨s, main, some ⟨.lock m k, own⟩⟩ .run =
          ⟨s, main, some ⟨k, insert m own⟩⟩ := by
        simp only [step, Context.step, hfree m hm, hown, or_self, ↓reduceIte]
      refine ⟨n + 1, ?_⟩
      rw [List.replicate_succ, Runs.exec_cons, hstep]
      exact hn
  | unlock m k ih =>
      obtain ⟨n, hn⟩ := ih hprog h
      exact ⟨n + 1, hn⟩
  | act f k ih =>
      obtain ⟨n, hn⟩ := ih s (hprog.2 s) h
      exact ⟨n + 1, hn⟩

/-- If it also gives back its locks, it returns. -/
theorem exec_handler_returns (sys : System σ μ ι ε) (main : Context σ μ) {A : Set μ}
    {G : σ → σ → Prop} {prog : Prog σ μ} {own : Finset μ}
    (hprog : Prog.Static A G own ∅ prog) (hfree : ∀ m ∈ A, m ∉ main.held) {s s' : σ}
    (h : prog.run s = some s') :
    ∃ n, Runs.exec (step sys) ⟨s, main, some ⟨prog, own⟩⟩ (List.replicate n .run) =
      ⟨s', main, none⟩ := by
  obtain ⟨n, hn⟩ := exec_handler_run sys main hprog hfree h
  refine ⟨n + 1, ?_⟩
  rw [List.replicate_succ', Runs.exec_append, hn, Runs.exec_cons]
  simp [step]

end AetherOs.Support.Interrupts
