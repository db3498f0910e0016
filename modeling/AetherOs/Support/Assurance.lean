import AetherOs.Support.Interrupts
/-!
# What contexts assure one another

`Prog.Assures` follows a program from a state, forgets the locks, and asks that
every state on the way satisfies `I` and that the program ends, if it does, in
a state with `Q`.  Between two steps the state moves along `E`.

Two theorems about machines use it.  In `Assurance` the main context relies on
a relation `R`, each handler run as a whole stays in `R`, and both keep `I`,
which then holds in every state of every run, in the middle of a handler too.
In `Service` the main context is idle, and the state is the outcome of the
handlers that were delivered, in their order.
-/

namespace AetherOs.Support

namespace Prog

variable {σ μ : Type}

def Assures (E : σ → σ → Prop) (I Q : σ → Prop) : Prog σ μ → σ → Prop
  | .done, s => ∀ s', E s s' → I s' ∧ Q s'
  | .halt, s => ∀ s', E s s' → I s'
  | .lock _ k, s => Assures E I Q k s
  | .unlock _ k, s => Assures E I Q k s
  | .act f k, s => ∀ s', E s s' → I s' ∧ Assures E I Q (k s') (f s')

namespace Assures

variable {E : σ → σ → Prop} {I Q Q' : σ → Prop} {p q : Prog σ μ} {s s' : σ}

theorem inv (hrefl : ∀ s, E s s) (h : Assures E I Q p s) : I s := by
  induction p with
  | done => exact (h s (hrefl s)).1
  | halt => exact h s (hrefl s)
  | lock m k ih => exact ih h
  | unlock m k ih => exact ih h
  | act f k _ => exact (h s (hrefl s)).1

theorem env (htrans : ∀ s s' s'', E s s' → E s' s'' → E s s'') (h : Assures E I Q p s)
    (hE : E s s') : Assures E I Q p s' := by
  induction p with
  | done => exact fun s'' h'' => h s'' (htrans s s' s'' hE h'')
  | halt => exact fun s'' h'' => h s'' (htrans s s' s'' hE h'')
  | lock m k ih => exact ih h
  | unlock m k ih => exact ih h
  | act f k _ => exact fun s'' h'' => h s'' (htrans s s' s'' hE h'')

theorem mono (hQ : ∀ s, Q s → Q' s) (h : Assures E I Q p s) : Assures E I Q' p s := by
  induction p generalizing s with
  | done => exact fun s' hs' => ⟨(h s' hs').1, hQ s' (h s' hs').2⟩
  | halt => exact h
  | lock m k ih => exact ih h
  | unlock m k ih => exact ih h
  | act f k ih => exact fun s' hs' => ⟨(h s' hs').1, ih s' (h s' hs').2⟩

theorem andThen (hrefl : ∀ s, E s s) (h : Assures E I (Assures E I Q q) p s) :
    Assures E I Q (p.andThen q) s := by
  induction p generalizing s with
  | done => exact (h s (hrefl s)).2
  | halt => exact h
  | lock m k ih => exact ih h
  | unlock m k ih => exact ih h
  | act f k ih => exact fun s' hs' => ⟨(h s' hs').1, ih s' (h s' hs').2⟩

theorem of_updates {G : σ → σ → Prop} {P : σ → Prop} (hE : ∀ s s', P s → E s s' → P s')
    (hG : ∀ s s', P s → G s s' → P s') (hI : ∀ s, P s → I s) (h : Updates G p) (hs : P s) :
    Assures E I P p s := by
  induction p generalizing s with
  | done => exact fun s' hs' => ⟨hI s' (hE s s' hs hs'), hE s s' hs hs'⟩
  | halt => exact fun s' hs' => hI s' (hE s s' hs hs')
  | lock m k ih => exact ih h hs
  | unlock m k ih => exact ih h hs
  | act f k ih =>
      intro s' hs'
      have hP := hE s s' hs hs'
      exact ⟨hI s' hP, ih s' (h.2 s') (hG s' (f s') hP (h.1 s'))⟩

end Assures

def Leads (E : σ → σ → Prop) (I P Q : σ → Prop) (p : Prog σ μ) : Prop :=
  ∀ s, P s → Assures E I Q p s

namespace Leads

variable {E : σ → σ → Prop} {I P Q R : σ → Prop} {p q : Prog σ μ}

theorem andThen (hrefl : ∀ s, E s s) (hp : Leads E I P R p) (hq : Leads E I R Q q) :
    Leads E I P Q (p.andThen q) :=
  fun s hs => Assures.andThen hrefl ((hp s hs).mono hq)

theorem seq_cons {ps : List (Prog σ μ)} (hrefl : ∀ s, E s s) (hp : Leads E I P R p)
    (hps : Leads E I R Q (.seq ps)) : Leads E I P Q (.seq (p :: ps)) :=
  hp.andThen hrefl hps

theorem withLock (hrefl : ∀ s, E s s) (hend : Leads E I Q Q (.done : Prog σ μ)) {m : μ}
    (h : Leads E I P Q p) : Leads E I P Q (.withLock m p) :=
  fun s hs => Assures.andThen hrefl ((h s hs).mono hend)

theorem update {f : σ → σ} (hP : ∀ s s', P s → E s s' → P s') (hI : ∀ s, P s → I s)
    (hend : Leads E I Q Q (.done : Prog σ μ)) (h : ∀ s, P s → Q (f s)) :
    Leads E I P Q (.update f : Prog σ μ) := by
  intro s hs s' hs'
  have hP' := hP s s' hs hs'
  exact ⟨hI s' hP', hend (f s') (h s' hP')⟩

end Leads

end Prog

namespace Interrupts

variable {σ μ ι ε : Type}

/-! ## An active main context -/

structure Assurance (sys : System σ μ ι ε) (E R : σ → σ → Prop) (I : σ → Prop) : Prop where
  refl : ∀ s, R s s
  trans : ∀ s s' s'', R s s' → R s' s'' → R s s''
  env_refl : ∀ s, E s s
  env_trans : ∀ s s' s'', E s s' → E s' s'' → E s s''
  env_sub : ∀ s s', E s s' → R s s'
  environment : ∀ e s, E s (sys.environment e s)
  handler : ∀ s i, I s → sys.deliverable s i = true →
    (sys.handler i).Assures E I (R s) (sys.deliver i s)

/-- The contexts assure `I` from here on, and the main context leads to `Q`. -/
def AssuredTo (E R : σ → σ → Prop) (I Q : σ → Prop) (st : State σ μ) : Prop :=
  match st.handler with
  | none => st.main.prog.Assures R I Q st.shared
  | some h => ∃ s, st.main.prog.Assures R I Q s ∧ h.prog.Assures E I (R s) st.shared

def Assured (E R : σ → σ → Prop) (I : σ → Prop) (st : State σ μ) : Prop :=
  match st.handler with
  | none => st.main.prog.Assures R I (fun _ => True) st.shared
  | some h => ∃ s, st.main.prog.Assures R I (fun _ => True) s ∧
      h.prog.Assures E I (R s) st.shared

section Assurance

variable {sys : System σ μ ι ε} {E R : σ → σ → Prop} {I Q : σ → Prop} {st : State σ μ}

theorem AssuredTo.inv (rule : Assurance sys E R I) (h : AssuredTo E R I Q st) : I st.shared := by
  obtain ⟨shared, main, handler⟩ := st
  cases handler with
  | none => exact Prog.Assures.inv rule.refl h
  | some c =>
      obtain ⟨s, -, hhandler⟩ := h
      exact hhandler.inv rule.env_refl

theorem AssuredTo.ended (rule : Assurance sys E R I) (h : AssuredTo E R I Q st)
    (hidle : st.main.prog = .done) (hrest : st.handler = none) : Q st.shared := by
  unfold AssuredTo at h
  rw [hrest] at h
  dsimp only at h
  rw [hidle] at h
  exact (h st.shared (rule.refl st.shared)).2

variable [DecidableEq μ]

theorem Context.step_assures (hrefl : ∀ s, E s s)
    {c : Context σ μ} {blocked : Finset μ} {s : σ} (h : c.prog.Assures E I Q s) :
    (c.step blocked s).2.prog.Assures E I Q (c.step blocked s).1 := by
  obtain ⟨prog, held⟩ := c
  unfold Context.step
  cases prog with
  | done => exact h
  | halt => exact h
  | lock m k =>
      dsimp only
      split_ifs
      · exact h
      · exact h
  | unlock m k => exact h
  | act f k => exact (h s (hrefl s)).2

theorem Assurance.step (rule : Assurance sys E R I) (h : AssuredTo E R I Q st)
    (label : Label ι ε) : AssuredTo E R I Q (step sys st label) := by
  have hI := h.inv rule
  obtain ⟨shared, main, handler⟩ := st
  cases label with
  | run =>
      cases handler with
      | none => exact Context.step_assures rule.refl h
      | some c =>
          obtain ⟨s, hmain, hhandler⟩ := h
          obtain ⟨prog, held⟩ := c
          cases prog with
          | done => exact hmain.env rule.trans (hhandler shared (rule.env_refl shared)).2
          | halt => exact ⟨s, hmain, Context.step_assures rule.env_refl hhandler⟩
          | lock m k => exact ⟨s, hmain, Context.step_assures rule.env_refl hhandler⟩
          | unlock m k => exact ⟨s, hmain, Context.step_assures rule.env_refl hhandler⟩
          | act f k => exact ⟨s, hmain, Context.step_assures rule.env_refl hhandler⟩
  | interrupt i =>
      cases handler with
      | some c => exact h
      | none =>
          simp only [Interrupts.step]
          split_ifs with hdeliver
          · exact ⟨shared, h, rule.handler shared i hI hdeliver⟩
          · exact h
  | environment e =>
      have hE := rule.environment e shared
      cases handler with
      | none => exact Prog.Assures.env rule.trans h (rule.env_sub _ _ hE)
      | some c =>
          obtain ⟨s, hmain, hhandler⟩ := h
          exact ⟨s, hmain, hhandler.env rule.env_trans hE⟩

theorem Assurance.exec (rule : Assurance sys E R I) (h : AssuredTo E R I Q st)
    (labels : List (Label ι ε)) : AssuredTo E R I Q (Runs.exec (Interrupts.step sys) st labels) :=
  Runs.exec_invariant (P := AssuredTo E R I Q) (fun _ label hst => rule.step hst label) h labels

theorem Assurance.invariant (rule : Assurance sys E R I) (h : Assured E R I st)
    (labels : List (Label ι ε)) : I (Runs.exec (Interrupts.step sys) st labels).shared := by
  have hstart : AssuredTo E R I (fun _ => True) st := h
  exact (rule.exec hstart labels).inv rule

end Assurance

/-! ## An idle main context -/

variable [DecidableEq μ]

def accepted (sys : System σ μ ι ε) (st : State σ μ) : Label ι ε → List ι
  | .interrupt i => if st.handler.isNone && sys.deliverable st.shared i then [i] else []
  | _ => []

def delivered (sys : System σ μ ι ε) : State σ μ → List (Label ι ε) → List ι
  | _, [] => []
  | st, label :: labels => accepted sys st label ++ delivered sys (step sys st label) labels

structure Service (sys : System σ μ ι ε) (E : σ → σ → Prop) (T : List ι → σ → σ → Prop) :
    Prop where
  env_refl : ∀ s, E s s
  env_trans : ∀ s s' s'', E s s' → E s' s'' → E s s''
  environment : ∀ e s, E s (sys.environment e s)
  idle : ∀ s s', E s s' → T [] s s'
  append : ∀ is js s s' s'', T is s s' → T js s' s'' → T (is ++ js) s s''
  handler : ∀ s i, sys.deliverable s i = true →
    (sys.handler i).Assures E (fun _ => True) (T [i] s) (sys.deliver i s)

/-- The state is what the interrupts `is` made of `start`, as far as the last
one has been served. -/
def Served (E : σ → σ → Prop) (T : List ι → σ → σ → Prop) (start : σ) (is : List ι)
    (st : State σ μ) : Prop :=
  match st.handler with
  | none => T is start st.shared
  | some h => ∃ before i s, is = before ++ [i] ∧ T before start s ∧
      h.prog.Assures E (fun _ => True) (T [i] s) st.shared

section Service

variable {sys : System σ μ ι ε} {E : σ → σ → Prop} {T : List ι → σ → σ → Prop} {start : σ}
  {is : List ι} {st : State σ μ}

theorem step_main_prog (hidle : st.main.prog = .done) (label : Label ι ε) :
    (step sys st label).main.prog = .done := by
  obtain ⟨shared, ⟨prog, held⟩, handler⟩ := st
  simp only at hidle
  subst hidle
  cases label with
  | environment e => rfl
  | interrupt i =>
      cases handler with
      | some c => rfl
      | none =>
          simp only [step]
          split_ifs <;> rfl
  | run =>
      cases handler with
      | none => rfl
      | some c =>
          obtain ⟨prog, own⟩ := c
          cases prog <;> rfl

theorem Service.step (rule : Service sys E T) (hidle : st.main.prog = .done)
    (h : Served E T start is st) (label : Label ι ε) :
    Served E T start (is ++ accepted sys st label) (step sys st label) := by
  obtain ⟨shared, ⟨prog, held⟩, handler⟩ := st
  simp only at hidle
  subst hidle
  cases label with
  | run =>
      have hnone : accepted sys ⟨shared, ⟨.done, held⟩, handler⟩ .run = [] := rfl
      rw [hnone, List.append_nil]
      cases handler with
      | none => exact h
      | some c =>
          obtain ⟨before, i, s, rfl, hbefore, hhandler⟩ := h
          obtain ⟨prog, own⟩ := c
          cases prog with
          | done =>
              exact rule.append _ _ _ _ _ hbefore (hhandler shared (rule.env_refl shared)).2
          | halt =>
              exact ⟨before, i, s, rfl, hbefore, Context.step_assures rule.env_refl hhandler⟩
          | lock m k =>
              exact ⟨before, i, s, rfl, hbefore, Context.step_assures rule.env_refl hhandler⟩
          | unlock m k =>
              exact ⟨before, i, s, rfl, hbefore, Context.step_assures rule.env_refl hhandler⟩
          | act f k =>
              exact ⟨before, i, s, rfl, hbefore, Context.step_assures rule.env_refl hhandler⟩
  | interrupt i =>
      cases handler with
      | some c =>
          have hnone : accepted sys ⟨shared, ⟨.done, held⟩, some c⟩ (.interrupt i) = [] := rfl
          rw [hnone, List.append_nil]
          exact h
      | none =>
          simp only [Interrupts.step, accepted, Option.isNone_none, Bool.true_and]
          split_ifs with hdeliver
          · exact ⟨is, i, shared, rfl, h, rule.handler shared i hdeliver⟩
          · rw [List.append_nil]
            exact h
  | environment e =>
      have hnone : accepted sys ⟨shared, ⟨.done, held⟩, handler⟩ (.environment e) = [] := rfl
      rw [hnone, List.append_nil]
      have hE := rule.environment e shared
      cases handler with
      | none =>
          have hT := rule.append is [] _ _ _ h (rule.idle _ _ hE)
          rw [List.append_nil] at hT
          exact hT
      | some c =>
          obtain ⟨before, i, s, rfl, hbefore, hhandler⟩ := h
          exact ⟨before, i, s, rfl, hbefore, hhandler.env rule.env_trans hE⟩

theorem Service.run (rule : Service sys E T) (hidle : st.main.prog = .done)
    (h : Served E T start is st) (labels : List (Label ι ε)) :
    Served E T start (is ++ delivered sys st labels)
      (Runs.exec (Interrupts.step sys) st labels) := by
  induction labels generalizing is st with
  | nil =>
      rw [delivered, List.append_nil]
      exact h
  | cons label labels ih =>
      rw [delivered, ← List.append_assoc, Runs.exec_cons]
      exact ih (step_main_prog hidle label) (rule.step hidle h label)

end Service

end Interrupts

end AetherOs.Support
