import AetherOs.Support.Assurance
/-!
# Handlers in one piece

On a machine whose main context is idle, a handler is disturbed by nothing but
the moves of the environment.  If its program does not notice them, every run
ends as if each handler had run in one piece at the moment of its delivery:
`serial_order` replays the deliveries and the moves of a run one after another.

`Ignores` says of the text of a program that no update and no test in it
notices a move, and `Blind` says it of the execution from one state.
-/

namespace AetherOs.Support

namespace Prog

variable {σ μ ε : Type} {move : ε → σ → σ}

def moved (move : ε → σ → σ) (s : σ) (es : List ε) : σ := Runs.exec (fun s e => move e s) s es

@[simp] theorem moved_nil (s : σ) : moved move s [] = s := rfl

theorem moved_append (s : σ) (es es' : List ε) :
    moved move s (es ++ es') = moved move (moved move s es) es' :=
  Runs.exec_append s es es'

/-- Moves made before an update or a test may as well be made after it. -/
def Blind (move : ε → σ → σ) : Prog σ μ → σ → Prop
  | .done, _ => True
  | .halt, _ => True
  | .lock _ k, s => Blind move k s
  | .unlock _ k, s => Blind move k s
  | .act f k, s =>
      (∀ es, f (moved move s es) = moved move (f s) es ∧ k (moved move s es) = k s) ∧
        Blind move (k s) (f s)

def Ignores (move : ε → σ → σ) : Prog σ μ → Prop
  | .done => True
  | .halt => True
  | .lock _ k => Ignores move k
  | .unlock _ k => Ignores move k
  | .act f k =>
      (∀ e s, f (move e s) = move e (f s) ∧ k (move e s) = k s) ∧ ∀ s, Ignores move (k s)

theorem Ignores.blind {p : Prog σ μ} (h : Ignores move p) (s : σ) : Blind move p s := by
  induction p generalizing s with
  | done => trivial
  | halt => trivial
  | lock m k ih => exact ih h s
  | unlock m k ih => exact ih h s
  | act f k ih =>
      refine ⟨fun es => ?_, ih s (h.2 s) (f s)⟩
      -- one move at a time, from the first
      induction es generalizing s with
      | nil => exact ⟨rfl, rfl⟩
      | cons e es ihes =>
          obtain ⟨hf, hk⟩ := h.1 e s
          obtain ⟨hf', hk'⟩ := ihes (move e s)
          refine ⟨?_, hk'.trans hk⟩
          change f (moved move (move e s) es) = moved move (move e (f s)) es
          rw [hf', hf]

namespace Ignores

variable {p q : Prog σ μ}

theorem andThen (hp : Ignores move p) (hq : Ignores move q) : Ignores move (p.andThen q) := by
  induction p with
  | done => exact hq
  | halt => trivial
  | lock m k ih => exact ih hp
  | unlock m k ih => exact ih hp
  | act f k ih =>
      refine ⟨fun e s => ⟨(hp.1 e s).1, ?_⟩, fun s => ih s (hp.2 s)⟩
      change (k (move e s)).andThen q = (k s).andThen q
      rw [(hp.1 e s).2]

theorem seq {ps : List (Prog σ μ)} (h : ∀ p ∈ ps, Ignores move p) : Ignores move (.seq ps) := by
  induction ps with
  | nil => trivial
  | cons p ps ih =>
      have hrest := ih fun q hq => h q (List.mem_cons_of_mem p hq)
      exact (h p List.mem_cons_self).andThen hrest

theorem withLock {m : μ} (h : Ignores move p) : Ignores move (.withLock m p) :=
  h.andThen (q := .unlock m .done) trivial

theorem update {f : σ → σ} (h : ∀ e s, f (move e s) = move e (f s)) :
    Ignores move (.update f : Prog σ μ) :=
  ⟨fun e s => ⟨h e s, rfl⟩, fun _ => trivial⟩

theorem inspect {k : σ → Prog σ μ} (hk : ∀ e s, k (move e s) = k s)
    (h : ∀ s, Ignores move (k s)) : Ignores move (.inspect k) :=
  ⟨fun e s => ⟨rfl, hk e s⟩, h⟩

end Ignores

theorem Blind.andThen {p q : Prog σ μ} {s : σ} (hp : Blind move p s) (hq : Ignores move q) :
    Blind move (p.andThen q) s := by
  induction p generalizing s with
  | done => exact hq.blind s
  | halt => trivial
  | lock m k ih => exact ih hp
  | unlock m k ih => exact ih hp
  | act f k ih =>
      refine ⟨fun es => ⟨(hp.1 es).1, ?_⟩, ih s hp.2⟩
      change (k (moved move s es)).andThen q = (k s).andThen q
      rw [(hp.1 es).2]

end Prog

namespace Interrupts

variable {σ μ ι ε : Type}

/-- What has an effect in a run: a handler that was delivered, or a move. -/
inductive Event (ι ε : Type) where
  | served (i : ι)
  | move (e : ε)
  deriving DecidableEq, Repr

def moves (labels : List (Label ι ε)) : List ε :=
  labels.filterMap fun
    | .environment e => some e
    | _ => none

def Event.moves (events : List (Event ι ε)) : List ε :=
  events.filterMap fun
    | .move e => some e
    | .served _ => none

def atomic (sys : System σ μ ι ε) (s : σ) : Event ι ε → Option σ
  | .served i => if sys.deliverable s i then (sys.handler i).run (sys.deliver i s) else none
  | .move e => some (sys.environment e s)

theorem atomic_served {sys : System σ μ ι ε} {s s' : σ} {i : ι}
    (h : atomic sys s (.served i) = some s') :
    sys.deliverable s i = true ∧ (sys.handler i).run (sys.deliver i s) = some s' := by
  simp only [atomic] at h
  split_ifs at h with hdeliver
  exact ⟨hdeliver, h⟩

def replay (sys : System σ μ ι ε) (s : σ) (events : List (Event ι ε)) : Option σ :=
  events.foldlM (atomic sys) s

theorem replay_append (sys : System σ μ ι ε) (s : σ) (events events' : List (Event ι ε)) :
    replay sys s (events ++ events') = (replay sys s events).bind fun s' => replay sys s' events' :=
  List.foldlM_append ..

theorem replay_cons (sys : System σ μ ι ε) (s : σ) (event : Event ι ε) (events : List (Event ι ε)) :
    replay sys s (event :: events) = (atomic sys s event).bind fun s' => replay sys s' events :=
  rfl

theorem replay_moves (sys : System σ μ ι ε) (s : σ) (es : List ε) :
    replay sys s (es.map .move) = some (Prog.moved sys.environment s es) := by
  induction es generalizing s with
  | nil => rfl
  | cons e es ih => exact ih (sys.environment e s)

def occurs (sys : System σ μ ι ε) (st : State σ μ) : Label ι ε → List (Event ι ε)
  | .run => []
  | .interrupt i => if st.handler.isNone && sys.deliverable st.shared i then [.served i] else []
  | .environment e => [.move e]

variable [DecidableEq μ]

def history (sys : System σ μ ι ε) : State σ μ → List (Label ι ε) → List (Event ι ε)
  | _, [] => []
  | st, label :: labels => occurs sys st label ++ history sys (step sys st label) labels

/-- Machines that agree along a run have the same history. -/
theorem history_agreed {δ : Type} {react : σ → σ → δ → δ}
    {sys : System (Attached σ δ) μ ι ε} {sys' : System σ μ ι ε} (hext : Extends react sys sys')
    {st : State (Attached σ δ) μ} {st' : State σ μ} (h : Shadows react st st')
    {labels : List (Label ι ε)}
    (hagreed : Runs.Along (step sys) (AgreedLabel sys sys') st labels) :
    history sys st labels = history sys' st' labels := by
  induction labels generalizing st st' with
  | nil => rfl
  | cons label labels ih =>
      have hoccurs : occurs sys st label = occurs sys' st' label := by
        cases label with
        | run => rfl
        | environment e => rfl
        | interrupt i =>
            rw [occurs, occurs, h.shared, h.handler, Option.isNone_map]
            cases hidle : st'.handler with
            | some c => rfl
            | none => rw [hagreed.1 (h.handler_eq_none.mpr hidle)]
      rw [history, history, hoccurs, ih (hext.step_agreed h hagreed.1) hagreed.2]

theorem moves_history (sys : System σ μ ι ε) (st : State σ μ) (labels : List (Label ι ε)) :
    Event.moves (history sys st labels) = moves labels := by
  induction labels generalizing st with
  | nil => rfl
  | cons label labels ih =>
      have hoccurs : Event.moves (occurs sys st label) = moves [label] := by
        cases label with
        | run => rfl
        | interrupt i =>
            rw [occurs]
            split_ifs <;> rfl
        | environment e => rfl
      rw [history, Event.moves, List.filterMap_append]
      calc Event.moves (occurs sys st label) ++ Event.moves (history sys (step sys st label) labels)
          = moves [label] ++ moves labels := by rw [hoccurs, ih]
        _ = moves (label :: labels) := (List.filterMap_append (l := [label])).symm

/-- The state replays `events`; those of a handler that is still running begin
with its delivery, and the moves since then have gone by unnoticed. -/
def Serial (sys : System σ μ ι ε) (start : σ) (events : List (Event ι ε)) (st : State σ μ) :
    Prop :=
  match st.handler with
  | none => replay sys start events = some st.shared
  | some h => ∃ before i es s s', events = before ++ .served i :: es.map .move ∧
      replay sys start before = some s ∧ sys.deliverable s i = true ∧
      h.prog.run s' = (sys.handler i).run (sys.deliver i s) ∧
      h.prog.Blind sys.environment s' ∧ st.shared = Prog.moved sys.environment s' es

section Serial

variable {sys : System σ μ ι ε} {start : σ} {events : List (Event ι ε)} {st : State σ μ}

/-- One step of a program in a state that has been moved. -/
theorem Context.step_blind {move : ε → σ → σ} {c : Context σ μ} {s : σ} (es : List ε)
    (blocked : Finset μ) (h : c.prog.Blind move s) :
    ∃ s', (c.step blocked (Prog.moved move s es)).1 = Prog.moved move s' es ∧
      (c.step blocked (Prog.moved move s es)).2.prog.run s' = c.prog.run s ∧
      (c.step blocked (Prog.moved move s es)).2.prog.Blind move s' := by
  obtain ⟨prog, held⟩ := c
  unfold Context.step
  cases prog with
  | done => exact ⟨s, rfl, rfl, h⟩
  | halt => exact ⟨s, rfl, rfl, h⟩
  | lock m k =>
      dsimp only
      split_ifs
      · exact ⟨s, rfl, rfl, h⟩
      · exact ⟨s, rfl, rfl, h⟩
  | unlock m k => exact ⟨s, rfl, rfl, h⟩
  | act f k =>
      obtain ⟨hf, hk⟩ := h.1 es
      refine ⟨f s, hf, ?_, ?_⟩
      · dsimp only
        rw [hk]
        rfl
      · dsimp only
        rw [hk]
        exact h.2

theorem Serial.step
    (hblind : ∀ s i, sys.deliverable s i = true →
      (sys.handler i).Blind sys.environment (sys.deliver i s))
    (hidle : st.main.prog = .done) (h : Serial sys start events st) (label : Label ι ε) :
    Serial sys start (events ++ occurs sys st label) (step sys st label) := by
  obtain ⟨shared, ⟨prog, held⟩, handler⟩ := st
  simp only at hidle
  subst hidle
  cases label with
  | run =>
      rw [occurs, List.append_nil]
      cases handler with
      | none => exact h
      | some c =>
          obtain ⟨before, i, es, s, s', rfl, hbefore, hdeliver, hrun, hc, hshared⟩ := h
          simp only at hshared
          subst hshared
          obtain ⟨s'', hstate, hrun', hc'⟩ := Context.step_blind es held hc
          rw [hrun] at hrun'
          obtain ⟨prog, own⟩ := c
          cases prog with
          | done =>
              -- the handler has ended where it would have ended alone
              have hserved : replay sys s (.served i :: es.map .move) =
                  some (Prog.moved sys.environment s' es) := by
                have hatomic : atomic sys s (.served i) = some s' := by
                  rw [atomic, if_pos hdeliver, ← hrun]
                  rfl
                change (atomic sys s (.served i)).bind _ = _
                rw [hatomic]
                exact replay_moves sys s' es
              change replay sys start (before ++ .served i :: es.map .move) = _
              rw [replay_append, hbefore]
              exact hserved
          | halt => exact ⟨before, i, es, s, s'', rfl, hbefore, hdeliver, hrun', hc', hstate⟩
          | lock m k => exact ⟨before, i, es, s, s'', rfl, hbefore, hdeliver, hrun', hc', hstate⟩
          | unlock m k =>
              exact ⟨before, i, es, s, s'', rfl, hbefore, hdeliver, hrun', hc', hstate⟩
          | act f k => exact ⟨before, i, es, s, s'', rfl, hbefore, hdeliver, hrun', hc', hstate⟩
  | interrupt i =>
      cases handler with
      | some c =>
          have hnone : occurs sys ⟨shared, ⟨.done, held⟩, some c⟩ (.interrupt i) = [] := rfl
          rw [hnone, List.append_nil]
          exact h
      | none =>
          simp only [Interrupts.step, occurs, Option.isNone_none, Bool.true_and]
          split_ifs with hdeliver
          · exact ⟨events, i, [], shared, sys.deliver i shared, rfl, h, hdeliver, rfl,
              hblind shared i hdeliver, rfl⟩
          · rw [List.append_nil]
            exact h
  | environment e =>
      rw [occurs]
      cases handler with
      | none =>
          change replay sys start (events ++ [.move e]) = some (sys.environment e shared)
          rw [replay_append, show replay sys start events = some shared from h]
          rfl
      | some c =>
          obtain ⟨before, i, es, s, s', rfl, hbefore, hdeliver, hrun, hc, hshared⟩ := h
          simp only at hshared
          subst hshared
          refine ⟨before, i, es ++ [e], s, s', ?_, hbefore, hdeliver, hrun, hc, ?_⟩
          · simp
          · rw [Prog.moved_append]
            rfl

theorem Serial.exec
    (hblind : ∀ s i, sys.deliverable s i = true →
      (sys.handler i).Blind sys.environment (sys.deliver i s))
    (hidle : st.main.prog = .done) (h : Serial sys start events st) (labels : List (Label ι ε)) :
    Serial sys start (events ++ history sys st labels)
      (Runs.exec (Interrupts.step sys) st labels) := by
  induction labels generalizing events st with
  | nil =>
      rw [history, List.append_nil]
      exact h
  | cons label labels ih =>
      rw [history, ← List.append_assoc, Runs.exec_cons]
      exact ih (step_main_prog hidle label) (h.step hblind hidle label)

/-- A run that starts and ends between two handlers replays its events. -/
theorem serial_order
    (hblind : ∀ s i, sys.deliverable s i = true →
      (sys.handler i).Blind sys.environment (sys.deliver i s))
    (hidle : st.main.prog = .done) (hrest : st.handler = none) {labels : List (Label ι ε)}
    (hend : (Runs.exec (step sys) st labels).handler = none) :
    replay sys st.shared (history sys st labels) =
      some (Runs.exec (step sys) st labels).shared := by
  have hstart : Serial sys st.shared [] st := by
    unfold Serial
    rw [hrest]
    rfl
  have hserial := hstart.exec hblind hidle labels
  unfold Serial at hserial
  rw [hend] at hserial
  exact hserial

end Serial

end Interrupts

end AetherOs.Support
