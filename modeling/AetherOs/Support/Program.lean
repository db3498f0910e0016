import Mathlib.Data.Finset.Basic
/-!
# Programs with spin locks

A program is a tree of atomic steps on a shared state: take a lock, release a
lock, or update the state and continue with what was read.  Sequential code is
written with `andThen` and `seq`, a critical section with `withLock`.

Two ways to reason about a program that runs in an environment:

* `Upholds` follows an execution from a given state.  Between two steps the
  environment may change the state along `E`; every state reached satisfies
  `I`, every lock is requested only when `grant` allows it, and a run that ends
  does so in a state that satisfies `Q`.
* `Static` follows the text of the program and ignores the state: which locks
  it takes, in a balanced way and never twice, and which relation its updates
  keep.  `Static.upholds` turns such facts into the first kind.

`RunsInto` is the opposite of the second clause of `Upholds`: the program,
undisturbed, gets to a request for a lock that it will not be given.
`Updates` is what is left of `Static` when locks are forgotten.

A device with a state of its own may sit next to the shared state: it sees
every update, before and after, and reacts.  `watched` puts a program on such a
machine.
-/

namespace AetherOs.Support

inductive Prog (σ μ : Type) where
  | done
  | halt
  | lock (m : μ) (k : Prog σ μ)
  | unlock (m : μ) (k : Prog σ μ)
  | act (f : σ → σ) (k : σ → Prog σ μ)

namespace Prog

variable {σ μ : Type}

def andThen : Prog σ μ → Prog σ μ → Prog σ μ
  | .done, q => q
  | .halt, _ => .halt
  | .lock m k, q => .lock m (k.andThen q)
  | .unlock m k, q => .unlock m (k.andThen q)
  | .act f k, q => .act f fun s => (k s).andThen q

def seq : List (Prog σ μ) → Prog σ μ
  | [] => .done
  | p :: ps => p.andThen (seq ps)

def update (f : σ → σ) : Prog σ μ := .act f fun _ => .done

def inspect (k : σ → Prog σ μ) : Prog σ μ := .act id k

/-- A critical section; a body that halts keeps the lock. -/
def withLock (m : μ) (body : Prog σ μ) : Prog σ μ := .lock m (body.andThen (.unlock m .done))

theorem andThen_assoc (p q r : Prog σ μ) : (p.andThen q).andThen r = p.andThen (q.andThen r) := by
  induction p with
  | done => rfl
  | halt => rfl
  | lock m k ih => exact congrArg (Prog.lock m) ih
  | unlock m k ih => exact congrArg (Prog.unlock m) ih
  | act f k ih => exact congrArg (Prog.act f) (funext ih)

theorem seq_append (ps qs : List (Prog σ μ)) : seq (ps ++ qs) = (seq ps).andThen (seq qs) := by
  induction ps with
  | nil => rfl
  | cons p ps ih =>
      calc
        seq (p :: ps ++ qs) = p.andThen (seq (ps ++ qs)) := rfl
        _ = p.andThen ((seq ps).andThen (seq qs)) := by rw [ih]
        _ = (seq (p :: ps)).andThen (seq qs) := (andThen_assoc p (seq ps) (seq qs)).symm

/-! ## Running alone -/

/-- The state in which the program ends when nothing interferes; `none` if it
halts.  Every lock is free then. -/
def run : Prog σ μ → σ → Option σ
  | .done, s => some s
  | .halt, _ => none
  | .lock _ k, s => k.run s
  | .unlock _ k, s => k.run s
  | .act f k, s => (k s).run (f s)

@[simp] theorem run_done (s : σ) : (done : Prog σ μ).run s = some s := rfl

@[simp] theorem run_lock (m : μ) (k : Prog σ μ) (s : σ) : (lock m k).run s = k.run s := rfl

@[simp] theorem run_unlock (m : μ) (k : Prog σ μ) (s : σ) : (unlock m k).run s = k.run s := rfl

@[simp] theorem run_act (f : σ → σ) (k : σ → Prog σ μ) (s : σ) :
    (act f k).run s = (k s).run (f s) := rfl

@[simp] theorem run_andThen (p q : Prog σ μ) (s : σ) :
    (p.andThen q).run s = (p.run s).bind q.run := by
  induction p generalizing s with
  | done => rfl
  | halt => rfl
  | lock m k ih => exact ih s
  | unlock m k ih => exact ih s
  | act f k ih => exact ih s (f s)

@[simp] theorem run_seq_nil (s : σ) : (seq [] : Prog σ μ).run s = some s := rfl

@[simp] theorem run_seq_cons (p : Prog σ μ) (ps : List (Prog σ μ)) (s : σ) :
    (seq (p :: ps)).run s = (p.run s).bind (seq ps).run :=
  run_andThen p (seq ps) s

@[simp] theorem run_update (f : σ → σ) (s : σ) : (update f : Prog σ μ).run s = some (f s) := rfl

@[simp] theorem run_inspect (k : σ → Prog σ μ) (s : σ) : (inspect k).run s = (k s).run s := rfl

@[simp] theorem run_withLock (m : μ) (body : Prog σ μ) (s : σ) :
    (withLock m body).run s = body.run s := by
  change (body.andThen (.unlock m .done)).run s = body.run s
  rw [run_andThen]
  cases body.run s <;> rfl

def runAll (ps : List (Prog σ μ)) (s : σ) : Option σ := ps.foldlM (fun s p => p.run s) s

@[simp] theorem runAll_nil (s : σ) : runAll ([] : List (Prog σ μ)) s = some s := rfl

@[simp] theorem runAll_cons (p : Prog σ μ) (ps : List (Prog σ μ)) (s : σ) :
    runAll (p :: ps) s = (p.run s).bind (runAll ps) := rfl

theorem runAll_append (ps qs : List (Prog σ μ)) (s : σ) :
    runAll (ps ++ qs) s = (runAll ps s).bind (runAll qs) :=
  List.foldlM_append ..

def Returns (I : σ → Prop) (p : Prog σ μ) : Prop :=
  ∀ s, I s → ∃ s', p.run s = some s' ∧ I s'

namespace Returns

variable {I : σ → Prop} {p q : Prog σ μ}

theorem done : Returns I (.done : Prog σ μ) := fun s hs => ⟨s, rfl, hs⟩

theorem update {f : σ → σ} (h : ∀ s, I s → I (f s)) : Returns I (.update f : Prog σ μ) :=
  fun s hs => ⟨f s, rfl, h s hs⟩

theorem inspect {k : σ → Prog σ μ} (h : ∀ s, I s → Returns I (k s)) : Returns I (.inspect k) :=
  fun s hs => h s hs s hs

theorem andThen (hp : Returns I p) (hq : Returns I q) : Returns I (p.andThen q) := by
  intro s hs
  obtain ⟨s₁, hrun, hs₁⟩ := hp s hs
  obtain ⟨s₂, hrun', hs₂⟩ := hq s₁ hs₁
  refine ⟨s₂, ?_, hs₂⟩
  rw [run_andThen, hrun, Option.bind_some, hrun']

theorem withLock {m : μ} (h : Returns I p) : Returns I (.withLock m p) := by
  intro s hs
  rw [run_withLock]
  exact h s hs

theorem seq {ps : List (Prog σ μ)} (h : ∀ p ∈ ps, Returns I p) : Returns I (.seq ps) := by
  induction ps with
  | nil => exact done
  | cons p ps ih =>
      have hrest := ih fun q hq => h q (List.mem_cons_of_mem p hq)
      exact (h p List.mem_cons_self).andThen hrest

end Returns

/-! ## Executions in an environment -/

variable [DecidableEq μ]

def Upholds (E : σ → σ → Prop) (grant : μ → Finset μ → Prop) (I Q : Finset μ → σ → Prop) :
    Finset μ → Prog σ μ → σ → Prop
  | H, .done, s => ∀ s', E s s' → I H s' ∧ Q H s'
  | H, .halt, s => ∀ s', E s s' → I H s'
  | H, .lock m k, s =>
      (∀ s', E s s' → I H s') ∧ grant m H ∧ Upholds E grant I Q (insert m H) k s
  | H, .unlock m k, s => (∀ s', E s s' → I H s') ∧ Upholds E grant I Q (H.erase m) k s
  | H, .act f k, s => ∀ s', E s s' → I H s' ∧ Upholds E grant I Q H (k s') (f s')

section Upholds

variable {E : σ → σ → Prop} {grant : μ → Finset μ → Prop} {I Q Q' : Finset μ → σ → Prop}
  {H : Finset μ} {p q : Prog σ μ} {s s' : σ}

theorem Upholds.inv (hrefl : ∀ s, E s s) (h : Upholds E grant I Q H p s) : I H s := by
  cases p with
  | done => exact (h s (hrefl s)).1
  | halt => exact h s (hrefl s)
  | lock m k => exact h.1 s (hrefl s)
  | unlock m k => exact h.1 s (hrefl s)
  | act f k => exact (h s (hrefl s)).1

theorem Upholds.env (htrans : ∀ s s' s'', E s s' → E s' s'' → E s s'')
    (h : Upholds E grant I Q H p s) (hE : E s s') : Upholds E grant I Q H p s' := by
  induction p generalizing H with
  | done => exact fun s'' h'' => h s'' (htrans s s' s'' hE h'')
  | halt => exact fun s'' h'' => h s'' (htrans s s' s'' hE h'')
  | lock m k ih => exact ⟨fun s'' h'' => h.1 s'' (htrans s s' s'' hE h''), h.2.1, ih h.2.2⟩
  | unlock m k ih => exact ⟨fun s'' h'' => h.1 s'' (htrans s s' s'' hE h''), ih h.2⟩
  | act f k _ => exact fun s'' h'' => h s'' (htrans s s' s'' hE h'')

theorem Upholds.andThen (hrefl : ∀ s, E s s)
    (h : Upholds E grant I (fun H' s' => Upholds E grant I Q H' q s') H p s) :
    Upholds E grant I Q H (p.andThen q) s := by
  induction p generalizing H s with
  | done => exact (h s (hrefl s)).2
  | halt => exact h
  | lock m k ih => exact ⟨h.1, h.2.1, ih h.2.2⟩
  | unlock m k ih => exact ⟨h.1, ih h.2⟩
  | act f k ih => exact fun s' hs' => ⟨(h s' hs').1, ih s' (h s' hs').2⟩

theorem Upholds.section_update {m : μ} {f : σ → σ} (hI : ∀ H s, I H s) (hm : m ∉ H)
    (hgrant : grant m H) (hQ : ∀ s' s'', E s s' → E (f s') s'' → Q H s'') :
    Upholds E grant I Q H (withLock m (update f)) s := by
  refine ⟨fun _ _ => hI _ _, hgrant, fun s' hs' => ⟨hI _ _, fun _ _ => hI _ _, fun s'' hs'' => ?_⟩⟩
  rw [Finset.erase_insert hm]
  exact ⟨hI _ _, hQ s' s'' hs' hs''⟩

theorem Upholds.mono (hQ : ∀ H s, Q H s → Q' H s) (h : Upholds E grant I Q H p s) :
    Upholds E grant I Q' H p s := by
  induction p generalizing H s with
  | done => exact fun s' hs' => ⟨(h s' hs').1, hQ H s' (h s' hs').2⟩
  | halt => exact h
  | lock m k ih => exact ⟨h.1, h.2.1, ih h.2.2⟩
  | unlock m k ih => exact ⟨h.1, ih h.2⟩
  | act f k ih => exact fun s' hs' => ⟨(h s' hs').1, ih s' (h s' hs').2⟩

end Upholds

/-- Run alone, the program comes to ask for a lock of `blocked`. -/
def RunsInto (blocked : Finset μ) : Finset μ → Prog σ μ → σ → Prop
  | _, .done, _ => False
  | _, .halt, _ => False
  | own, .lock m k, s => m ∈ blocked ∨ (m ∉ own ∧ RunsInto blocked (insert m own) k s)
  | own, .unlock m k, s => RunsInto blocked (own.erase m) k s
  | own, .act f k, s => RunsInto blocked own (k s) (f s)

theorem RunsInto.after_section {blocked own : Finset μ} {m : μ} {f : σ → σ} {q : Prog σ μ} {s : σ}
    (hm : m ∉ own) (h : RunsInto blocked own q (f s)) :
    RunsInto blocked own ((withLock m (update f)).andThen q) s := by
  right
  refine ⟨hm, ?_⟩
  change RunsInto blocked ((insert m own).erase m) q (f s)
  rw [Finset.erase_insert hm]
  exact h

/-! ## Facts about the text of a program -/

/-- From holding `own` to holding `own'`: locks come from `A`, none is taken
twice, and every update is in `G`. -/
def Static (A : Set μ) (G : σ → σ → Prop) : Finset μ → Finset μ → Prog σ μ → Prop
  | own, own', .done => own = own'
  | _, _, .halt => True
  | own, own', .lock m k => m ∈ A ∧ m ∉ own ∧ Static A G (insert m own) own' k
  | own, own', .unlock m k => Static A G (own.erase m) own' k
  | own, own', .act f k => (∀ s, G s (f s)) ∧ ∀ s, Static A G own own' (k s)

section Static

variable {A A' : Set μ} {G G' : σ → σ → Prop} {own mid own' : Finset μ} {p q : Prog σ μ}

theorem Static.andThen (hp : Static A G own mid p) (hq : Static A G mid own' q) :
    Static A G own own' (p.andThen q) := by
  induction p generalizing own with
  | done =>
      rw [show own = mid from hp]
      exact hq
  | halt => trivial
  | lock m k ih => exact ⟨hp.1, hp.2.1, ih hp.2.2⟩
  | unlock m k ih => exact ih hp
  | act f k ih => exact ⟨hp.1, fun s => ih s (hp.2 s)⟩

theorem Static.seq_nil : Static A G own own (Prog.seq []) := rfl

theorem Static.seq_cons {ps : List (Prog σ μ)} (hp : Static A G own own p)
    (hps : Static A G own own' (Prog.seq ps)) : Static A G own own' (Prog.seq (p :: ps)) :=
  hp.andThen hps

theorem Static.seq {ps : List (Prog σ μ)} (h : ∀ p ∈ ps, Static A G own own p) :
    Static A G own own (Prog.seq ps) := by
  induction ps with
  | nil => rfl
  | cons p ps ih => exact (h p (by simp)).andThen (ih fun q hq => h q (by simp [hq]))

theorem Static.update {f : σ → σ} (hf : ∀ s, G s (f s)) : Static A G own own (Prog.update f) :=
  ⟨hf, fun _ => rfl⟩

theorem Static.inspect {k : σ → Prog σ μ} (hrefl : ∀ s, G s s)
    (hk : ∀ s, Static A G own own' (k s)) : Static A G own own' (Prog.inspect k) :=
  ⟨hrefl, hk⟩

theorem Static.withLock {m : μ} (hA : m ∈ A) (hm : m ∉ own)
    (hbody : Static A G (insert m own) (insert m own) p) :
    Static A G own own (Prog.withLock m p) := by
  have hend : Static A G (insert m own) own (Prog.unlock m .done) := Finset.erase_insert hm
  exact ⟨hA, hm, hbody.andThen hend⟩

theorem Static.locked {m : μ} (hA : m ∈ A) (hm : m ∉ own) {f : σ → σ} {k : σ → Prog σ μ}
    (hf : ∀ s, G s (f s)) (hk : ∀ s, Static A G own own' (k s)) :
    Static A G own own' (.lock m (.act f fun s => .unlock m (k s))) := by
  refine ⟨hA, hm, hf, fun s => ?_⟩
  change Static A G ((insert m own).erase m) own' (k s)
  rw [Finset.erase_insert hm]
  exact hk s

theorem Static.weaken (hA : A ⊆ A') (hG : ∀ s s', G s s' → G' s s')
    (h : Static A G own own' p) : Static A' G' own own' p := by
  induction p generalizing own with
  | done => exact h
  | halt => trivial
  | lock m k ih => exact ⟨hA h.1, h.2.1, ih h.2.2⟩
  | unlock m k ih => exact ih h
  | act f k ih => exact ⟨fun s => hG s (f s) (h.1 s), fun s => ih s (h.2 s)⟩

/-- Run alone, the program relates its first state to its last. -/
theorem Static.run_keeps (hrefl : ∀ s, G s s) (htrans : ∀ s s' s'', G s s' → G s' s'' → G s s'')
    (h : Static A G own own' p) {s s' : σ} (hrun : p.run s = some s') : G s s' := by
  induction p generalizing own s with
  | done =>
      rw [run_done, Option.some.injEq] at hrun
      exact hrun ▸ hrefl s
  | halt => cases hrun
  | lock m k ih => exact ih h.2.2 hrun
  | unlock m k ih => exact ih h hrun
  | act f k ih => exact htrans s (f s) s' (h.1 s) (ih s (h.2 s) hrun)

/-- A program that keeps `P`, started in a state with `P`, upholds whatever
holds of all states with `P` and all sets of locks below `B`. -/
theorem Static.upholds {E : σ → σ → Prop} {grant : μ → Finset μ → Prop}
    {I Q : Finset μ → σ → Prop} {P : σ → Prop} {B : Set μ}
    (hE : ∀ s s', P s → E s s' → P s') (hG : ∀ s s', P s → G s s' → P s')
    (hgrant : ∀ m ∈ A, ∀ H, m ∉ H → grant m H)
    (hI : ∀ H s, (∀ m ∈ H, m ∈ B) → P s → I H s) (hQ : ∀ s, P s → Q own' s) (hA : A ⊆ B)
    (h : Static A G own own' p) (hown : ∀ m ∈ own, m ∈ B) {s : σ} (hs : P s) :
    Upholds E grant I Q own p s := by
  induction p generalizing own s with
  | done =>
      intro s' hs'
      have hP := hE s s' hs hs'
      rw [show own = own' from h] at hown ⊢
      exact ⟨hI own' s' hown hP, hQ s' hP⟩
  | halt => exact fun s' hs' => hI own s' hown (hE s s' hs hs')
  | lock m k ih =>
      have hsub : ∀ m' ∈ insert m own, m' ∈ B := by
        intro m' hm'
        rcases Finset.mem_insert.mp hm' with rfl | hold
        · exact hA h.1
        · exact hown m' hold
      exact ⟨fun s' hs' => hI own s' hown (hE s s' hs hs'), hgrant m h.1 own h.2.1,
        ih h.2.2 hsub hs⟩
  | unlock m k ih =>
      exact ⟨fun s' hs' => hI own s' hown (hE s s' hs hs'),
        ih h (fun m' hm' => hown m' (Finset.mem_of_mem_erase hm')) hs⟩
  | act f k ih =>
      intro s' hs'
      have hP := hE s s' hs hs'
      exact ⟨hI own s' hown hP, ih s' (h.2 s') hown (hG s' (f s') hP (h.1 s'))⟩

end Static

/-- Every update of the program is in `G`, wherever it stands in the text. -/
def Updates (G : σ → σ → Prop) : Prog σ μ → Prop
  | .done => True
  | .halt => True
  | .lock _ k => Updates G k
  | .unlock _ k => Updates G k
  | .act f k => (∀ s, G s (f s)) ∧ ∀ s, Updates G (k s)

theorem Static.updates {A : Set μ} {G : σ → σ → Prop} {own own' : Finset μ} {p : Prog σ μ}
    (h : Static A G own own' p) : Updates G p := by
  induction p generalizing own with
  | done => trivial
  | halt => trivial
  | lock m k ih => exact ih h.2.2
  | unlock m k ih => exact ih h
  | act f k ih => exact ⟨h.1, fun s => ih s (h.2 s)⟩

end Prog

/-! ## Devices -/

structure Attached (σ δ : Type) where
  host : σ
  device : δ

namespace Prog

variable {σ δ μ : Type}

/-- The program, on a machine whose device reacts to its updates. -/
def watched (react : σ → σ → δ → δ) : Prog σ μ → Prog (Attached σ δ) μ
  | .done => .done
  | .halt => .halt
  | .lock m k => .lock m (k.watched react)
  | .unlock m k => .unlock m (k.watched react)
  | .act f k =>
      .act (fun c => ⟨f c.host, react c.host (f c.host) c.device⟩) fun c => (k c.host).watched react

theorem Updates.watched {react : σ → σ → δ → δ} {G : σ → σ → Prop}
    {G' : Attached σ δ → Attached σ δ → Prop} {p : Prog σ μ}
    (hreact : ∀ s s' d, G s s' → G' ⟨s, d⟩ ⟨s', react s s' d⟩) (h : Updates G p) :
    Updates G' (p.watched react) := by
  induction p with
  | done => trivial
  | halt => trivial
  | lock m k ih => exact ih h
  | unlock m k ih => exact ih h
  | act f k ih =>
      constructor
      · exact fun c => hreact c.host (f c.host) c.device (h.1 c.host)
      · exact fun c => ih c.host (h.2 c.host)

end Prog

end AetherOs.Support
