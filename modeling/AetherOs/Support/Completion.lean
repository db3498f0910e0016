import AetherOs.Support.SerialOrder
/-!
# Handlers come to their end

Where every context gives back the locks that it takes, an idle main context
holds none and keeps no handler waiting.  So a handler whose program ends when
run alone can be run to its end from wherever it stands: `completes` continues
a run until no handler is running, and then it has replayed its events.
-/

namespace AetherOs.Support

variable {σ μ ι ε : Type}

/-- Moves that go unnoticed are still there when the program has ended. -/
theorem Prog.Blind.run_moved {move : ε → σ → σ} {p : Prog σ μ} {s : σ} (h : p.Blind move s)
    (es : List ε) : p.run (moved move s es) = (p.run s).map (moved move · es) := by
  induction p generalizing s with
  | done => rfl
  | halt => rfl
  | lock m k ih => exact ih h
  | unlock m k ih => exact ih h
  | act f k ih =>
      obtain ⟨hf, hk⟩ := h.1 es
      rw [run_act, run_act, hf, hk]
      exact ih s h.2

namespace Interrupts

variable [DecidableEq μ] {sys : System σ μ ι ε} {st : State σ μ} {start : σ}
  {events : List (Event ι ε)}

/-- From holding `own`, the program gives back all locks and takes none twice. -/
abbrev GivesBack (own : Finset μ) (p : Prog σ μ) : Prop :=
  p.Static Set.univ (fun _ _ => True) own ∅

theorem GivesBack.step {c : Context σ μ} (h : GivesBack c.held c.prog) (blocked : Finset μ)
    (s : σ) : GivesBack (c.step blocked s).2.held (c.step blocked s).2.prog := by
  obtain ⟨prog, held⟩ := c
  unfold Context.step
  cases prog with
  | done => exact h
  | halt => exact h
  | lock m k =>
      dsimp only
      split_ifs
      · exact h
      · exact h.2.2
  | unlock m k => exact h
  | act f k => exact h.2 s

structure Balanced (st : State σ μ) : Prop where
  main : GivesBack st.main.held st.main.prog
  handler : ∀ c, st.handler = some c → GivesBack c.held c.prog

theorem Balanced.held_eq (h : Balanced st) (hidle : st.main.prog = .done) :
    st.main = ⟨.done, ∅⟩ := by
  have hmain := h.main
  rw [hidle] at hmain
  have hheld : st.main.held = ∅ := hmain
  rw [← hheld, ← hidle]

theorem Balanced.step (hhandler : ∀ i, GivesBack ∅ (sys.handler i)) (h : Balanced st)
    (label : Label ι ε) : Balanced (step sys st label) := by
  obtain ⟨shared, main, handler⟩ := st
  obtain ⟨hmain, hgives⟩ := h
  cases label with
  | environment e => exact ⟨hmain, hgives⟩
  | interrupt i =>
      cases handler with
      | some c => exact ⟨hmain, hgives⟩
      | none =>
          simp only [Interrupts.step]
          split_ifs
          · refine ⟨hmain, fun c hc => ?_⟩
            cases hc
            exact hhandler i
          · exact ⟨hmain, hgives⟩
  | run =>
      cases handler with
      | none => exact ⟨GivesBack.step hmain ∅ shared, hgives⟩
      | some c =>
          have hc := hgives c rfl
          have hnext := GivesBack.step hc main.held shared
          obtain ⟨prog, held⟩ := c
          cases prog with
          | done =>
              -- the handler returns and leaves nothing behind
              have hheld : held = ∅ := hc
              refine ⟨?_, fun c hc => by cases hc⟩
              change GivesBack (main.held ∪ held) main.prog
              rw [hheld, Finset.union_empty]
              exact hmain
          | _ =>
              refine ⟨hmain, fun c hc => ?_⟩
              cases hc
              exact hnext

theorem Balanced.exec (hhandler : ∀ i, GivesBack ∅ (sys.handler i)) (h : Balanced st)
    (labels : List (Label ι ε)) : Balanced (Runs.exec (Interrupts.step sys) st labels) :=
  Runs.exec_invariant (fun _ label hst => hst.step hhandler label) h labels

def Ends (sys : System σ μ ι ε) (start : σ) (events : List (Event ι ε)) : Prop :=
  ∀ before i after s, events = before ++ .served i :: after → replay sys start before = some s →
    (sys.handler i).run (sys.deliver i s) ≠ none

theorem Serial.completes (h : Serial sys start events st) (hst : Balanced st)
    (hidle : st.main.prog = .done) (hends : Ends sys start events) :
    ∃ n s', Runs.exec (Interrupts.step sys) st (List.replicate n .run) =
        ⟨s', ⟨.done, ∅⟩, none⟩ ∧
      replay sys start events = some s' := by
  have hmain := hst.held_eq hidle
  obtain ⟨shared, main, handler⟩ := st
  simp only at hmain
  subst hmain
  cases handler with
  | none => exact ⟨0, shared, rfl, h⟩
  | some c =>
      obtain ⟨before, i, es, s, s', rfl, hbefore, hdeliver, hrun, hblind, hshared⟩ := h
      simp only at hshared
      subst hshared
      obtain ⟨last, hlast⟩ := Option.ne_none_iff_exists'.mp (hends before i _ s rfl hbefore)
      -- what is left of the handler, from the state that the moves have reached
      have hrest : c.prog.run (Prog.moved sys.environment s' es) =
          some (Prog.moved sys.environment last es) := by
        rw [hblind.run_moved, hrun, hlast]
        rfl
      obtain ⟨n, hn⟩ := exec_handler_returns sys ⟨.done, ∅⟩ (hst.handler c rfl)
        (fun m _ => Finset.notMem_empty m) hrest
      refine ⟨n, Prog.moved sys.environment last es, hn, ?_⟩
      have hserved : atomic sys s (.served i) = some last := by
        rw [atomic, if_pos hdeliver, hlast]
      rw [replay_append, hbefore, Option.bind_some, replay_cons, hserved]
      exact replay_moves sys last es

/-- Every run from a machine at rest can be continued until it is at rest again,
where it has replayed its events. -/
theorem completes
    (hblind : ∀ s i, sys.deliverable s i = true →
      (sys.handler i).Blind sys.environment (sys.deliver i s))
    (hhandler : ∀ i, GivesBack ∅ (sys.handler i))
    (hst : Balanced st) (hidle : st.main.prog = .done) (hrest : st.handler = none)
    (labels : List (Label ι ε)) (hends : Ends sys st.shared (history sys st labels)) :
    ∃ n s', Runs.exec (step sys) st (labels ++ List.replicate n .run) = ⟨s', ⟨.done, ∅⟩, none⟩ ∧
      replay sys st.shared (history sys st labels) = some s' := by
  have hstart : Serial sys st.shared [] st := by
    unfold Serial
    rw [hrest]
    rfl
  have hidle' : (Runs.exec (step sys) st labels).main.prog = .done :=
    Runs.exec_invariant (P := fun st : State σ μ => st.main.prog = .done)
      (fun _ label h => step_main_prog h label) hidle labels
  simp only [Runs.exec_append]
  exact (hstart.exec hblind hidle labels).completes (hst.exec hhandler labels) hidle' hends

end Interrupts

end AetherOs.Support
