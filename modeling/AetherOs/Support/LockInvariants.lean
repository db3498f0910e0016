import AetherOs.Support.Interrupts
/-!
# Lock invariants

Each lock guards a value: contexts change it only while they hold the lock, and
give the lock back with the value in order.  On a machine with interrupts, a
guarded value is then in order whenever nobody holds its lock, whatever
interrupts whatever.

`Safe` follows an execution of a program in an environment that may change
everything but what the locks it holds guard.  `Tidy` is the rule that routines
are checked by: started with the values of the held locks in order, the routine
is safe and ends with them in order.  `Respects.invariant` is the theorem about
the machine.
-/

namespace AetherOs.Support

open AetherOs.Support.Interrupts

/-- The lock `m` guards `read m`, which is to be `Good`.  `Always` holds of every
state, also inside critical sections; `Given` is assumed of every state.  `Halts`
says whether a context may stop for good. -/
structure Discipline (σ μ : Type) where
  Guarded : μ → Type
  read : (m : μ) → σ → Guarded m
  Good : (m : μ) → Guarded m → Prop
  Always : σ → Prop
  Given : σ → Prop
  Halts : Prop

namespace Discipline

variable {σ μ ι ε : Type} (D : Discipline σ μ)

def Inv (m : μ) (s : σ) : Prop := D.Good m (D.read m s)

def Whole (own : Finset μ) (s : σ) : Prop := ∀ m ∈ own, D.Inv m s

/-- What the others may do to a context that holds `own`. -/
structure Env (own : Finset μ) (s s' : σ) : Prop where
  always : D.Always s'
  given : D.Given s'
  same : ∀ m ∈ own, D.read m s' = D.read m s

structure Kept (own : Finset μ) (s s' : σ) : Prop where
  always : D.Always s'
  same : ∀ m, m ∉ own → D.read m s' = D.read m s

def Stable (own : Finset μ) (P : σ → Prop) : Prop := ∀ s s', D.Env own s s' → P s → P s'

variable {D} {own own' : Finset μ} {P R : σ → Prop} {s s' s'' : σ} {m : μ}

theorem Inv.congr (h : D.Inv m s) (hread : D.read m s' = D.read m s) : D.Inv m s' := by
  unfold Inv
  rw [hread]
  exact h

theorem Env.refl (halways : D.Always s) (hgiven : D.Given s) : D.Env own s s :=
  ⟨halways, hgiven, fun _ _ => rfl⟩

theorem Env.trans (h : D.Env own s s') (h' : D.Env own s' s'') : D.Env own s s'' :=
  ⟨h'.always, h'.given, fun m hm => (h'.same m hm).trans (h.same m hm)⟩

theorem Env.after (h : D.Env own s s') : D.Env own' s' s' := .refl h.always h.given

theorem Env.mono (hsub : own' ⊆ own) (h : D.Env own s s') : D.Env own' s s' :=
  ⟨h.always, h.given, fun m hm => h.same m (hsub hm)⟩

theorem Kept.refl (h : D.Always s) : D.Kept own s s := ⟨h, fun _ _ => rfl⟩

theorem stable_whole : D.Stable own (D.Whole own) :=
  fun _ _ henv h m hm => (h m hm).congr (henv.same m hm)

/-! ## Updates of one guarded value -/

def applyAll (fs : List (σ → σ)) (s : σ) : σ := fs.foldl (fun s f => f s) s

variable (D) in
structure Local (m : μ) (f : σ → σ) : Prop where
  others : ∀ s m', m' ≠ m → D.read m' (f s) = D.read m' s
  congr : ∀ s s', D.read m s' = D.read m s → D.read m (f s') = D.read m (f s)
  always : ∀ s, D.Always s → D.Always (f s)

theorem read_applyAll {fs : List (σ → σ)} (h : ∀ f ∈ fs, D.Local m f)
    (hread : D.read m s' = D.read m s) :
    D.read m (applyAll fs s') = D.read m (applyAll fs s) := by
  induction fs generalizing s s' with
  | nil => exact hread
  | cons f fs ih =>
      obtain ⟨hf, hfs⟩ := List.forall_mem_cons.mp h
      exact ih hfs (hf.congr s s' hread)

variable (D) in
/-- Between updates of what `m` guards: the other values are in order, and this
one will be after the updates to come. -/
structure Pending (own : Finset μ) (m : μ) (fs : List (σ → σ)) (s : σ) : Prop where
  others : ∀ m' ∈ own, m' ≠ m → D.Inv m' s
  later : D.Inv m (applyAll fs s)

theorem stable_pending {fs : List (σ → σ)} (hm : m ∈ own) (h : ∀ f ∈ fs, D.Local m f) :
    D.Stable own (D.Pending own m fs) := by
  rintro s s' henv ⟨hothers, hlater⟩
  refine ⟨fun m' hm' hne => (hothers m' hm' hne).congr (henv.same m' hm'), ?_⟩
  exact hlater.congr (read_applyAll h (henv.same m hm))

/-! ## Executions -/

variable [DecidableEq μ]

variable (D) in
def Safe (Q : Finset μ → σ → Prop) : Finset μ → Prog σ μ → σ → Prop
  | own, .done, s => ∀ s', D.Env own s s' → Q own s'
  | own, .halt, s => ∀ s', D.Env own s s' → D.Halts
  | own, .lock m k, s => ∀ s', D.Env own s s' → D.Inv m s' → Safe Q (insert m own) k s'
  | own, .unlock m k, s => ∀ s', D.Env own s s' → D.Inv m s' ∧ Safe Q (own.erase m) k s'
  | own, .act f k, s => ∀ s', D.Env own s s' → D.Kept own s' (f s') ∧ Safe Q own (k s') (f s')

namespace Safe

variable {Q Q' : Finset μ → σ → Prop} {p q : Prog σ μ}

/-- The environment may move before the program does. -/
theorem env (h : D.Safe Q own p s) (henv : D.Env own s s') : D.Safe Q own p s' := by
  cases p with
  | done => exact fun s'' h'' => h s'' (henv.trans h'')
  | halt => exact fun s'' h'' => h s'' (henv.trans h'')
  | lock m k => exact fun s'' h'' => h s'' (henv.trans h'')
  | unlock m k => exact fun s'' h'' => h s'' (henv.trans h'')
  | act f k => exact fun s'' h'' => h s'' (henv.trans h'')

/-- Nothing is asked of the state before the environment has moved. -/
theorem of_env (h : ∀ s', D.Env own s s' → D.Safe Q own p s') : D.Safe Q own p s := by
  cases p with
  | done => exact fun s' hs' => h s' hs' s' hs'.after
  | halt => exact fun s' hs' => h s' hs' s' hs'.after
  | lock m k => exact fun s' hs' => h s' hs' s' hs'.after
  | unlock m k => exact fun s' hs' => h s' hs' s' hs'.after
  | act f k => exact fun s' hs' => h s' hs' s' hs'.after

theorem mono (hQ : ∀ own s, Q own s → Q' own s) (h : D.Safe Q own p s) : D.Safe Q' own p s := by
  induction p generalizing own s with
  | done => exact fun s' hs' => hQ own s' (h s' hs')
  | halt => exact h
  | lock m k ih => exact fun s' hs' hinv => ih (h s' hs' hinv)
  | unlock m k ih => exact fun s' hs' => ⟨(h s' hs').1, ih (h s' hs').2⟩
  | act f k ih => exact fun s' hs' => ⟨(h s' hs').1, ih s' (h s' hs').2⟩

theorem andThen (h : D.Safe (fun own' s' => D.Safe Q own' q s') own p s) :
    D.Safe Q own (p.andThen q) s := by
  induction p generalizing own s with
  | done => exact of_env h
  | halt => exact h
  | lock m k ih => exact fun s' hs' hinv => ih (h s' hs' hinv)
  | unlock m k ih => exact fun s' hs' => ⟨(h s' hs').1, ih (h s' hs').2⟩
  | act f k ih => exact fun s' hs' => ⟨(h s' hs').1, ih s' (h s' hs').2⟩

end Safe

/-! ## Routines -/

variable (D) in
/-- Holding `own`, from a state with `P`, the program is safe, and if it ends it
holds `own` again, in a state with `Q`. -/
def Triple (own : Finset μ) (P : σ → Prop) (p : Prog σ μ) (Q : σ → Prop) : Prop :=
  ∀ s, P s → D.Safe (fun own' s' => own' = own ∧ Q s') own p s

namespace Triple

variable {Q : σ → Prop} {p q : Prog σ μ}

theorem done (hP : D.Stable own P) : D.Triple own P (.done : Prog σ μ) P :=
  fun s hs s' hs' => ⟨rfl, hP s s' hs' hs⟩

theorem andThen (hp : D.Triple own P p R) (hq : D.Triple own R q Q) :
    D.Triple own P (p.andThen q) Q := by
  intro s hs
  apply Safe.andThen
  refine (hp s hs).mono ?_
  rintro _ s' ⟨rfl, hR⟩
  exact hq s' hR

theorem act {f : σ → σ} {k : σ → Prog σ μ} (hP : D.Stable own P)
    (hf : ∀ s, D.Always s → P s → D.Kept own s (f s) ∧ R (f s))
    (hk : ∀ s, D.Always s → D.Given s → P s → D.Triple own R (k s) Q) :
    D.Triple own P (.act f k) Q := by
  intro s hs s' hs'
  have hP' := hP s s' hs' hs
  obtain ⟨hkept, hR⟩ := hf s' hs'.always hP'
  exact ⟨hkept, hk s' hs'.always hs'.given hP' (f s') hR⟩

end Triple

theorem Pending.updates {fs : List (σ → σ)} (hm : m ∈ own) (h : ∀ f ∈ fs, D.Local m f) :
    D.Triple own (D.Pending own m fs) (.seq (fs.map .update)) (D.Pending own m []) := by
  induction fs with
  | nil => exact Triple.done (stable_pending hm h)
  | cons f fs ih =>
      obtain ⟨hf, hfs⟩ := List.forall_mem_cons.mp h
      refine Triple.act (stable_pending hm h) ?_ fun _ _ _ _ => ih hfs
      rintro s hs ⟨hothers, hlater⟩
      refine ⟨⟨hf.always s hs, fun m' hm' => hf.others s m' ?_⟩, ?_, hlater⟩
      · exact fun heq => hm' (heq ▸ hm)
      · exact fun m' hm' hne => (hothers m' hm' hne).congr (hf.others s m' hne)

variable (D) in
abbrev Tidy (own : Finset μ) (p : Prog σ μ) : Prop :=
  D.Triple own (D.Whole own) p (D.Whole own)

namespace Tidy

variable {p : Prog σ μ}

theorem done : D.Tidy own (.done : Prog σ μ) := Triple.done stable_whole

theorem halt (h : D.Halts) : D.Tidy own (.halt : Prog σ μ) := fun _ _ _ _ => h

theorem seq {ps : List (Prog σ μ)} (h : ∀ p ∈ ps, D.Tidy own p) : D.Tidy own (.seq ps) := by
  induction ps with
  | nil => exact done
  | cons p ps ih =>
      have hrest := ih fun q hq => h q (List.mem_cons_of_mem p hq)
      exact (h p List.mem_cons_self).andThen hrest

theorem act {f : σ → σ} {k : σ → Prog σ μ} (hread : ∀ s m, D.read m (f s) = D.read m s)
    (halways : ∀ s, D.Always s → D.Always (f s))
    (hk : ∀ s, D.Always s → D.Given s → D.Whole own s → D.Tidy own (k s)) :
    D.Tidy own (.act f k) := by
  refine Triple.act stable_whole (fun s hs hwhole => ⟨⟨halways s hs, fun m _ => hread s m⟩, ?_⟩) hk
  exact fun m hm => (hwhole m hm).congr (hread s m)

theorem update {f : σ → σ} (hread : ∀ s m, D.read m (f s) = D.read m s)
    (halways : ∀ s, D.Always s → D.Always (f s)) : D.Tidy own (.update f) :=
  act hread halways fun _ _ _ _ => done

theorem inspect {k : σ → Prog σ μ}
    (h : ∀ s, D.Always s → D.Given s → D.Whole own s → D.Tidy own (k s)) :
    D.Tidy own (.inspect k) :=
  act (fun _ _ => rfl) (fun _ hs => hs) h

/-- Updates of what one held lock guards.  Its value may be out of order between
them. -/
theorem updates {fs : List (σ → σ)} (hm : m ∈ own) (hlocal : ∀ f ∈ fs, D.Local m f)
    (hgood : ∀ s, D.Inv m s → D.Inv m (applyAll fs s)) :
    D.Tidy own (.seq (fs.map .update)) := by
  intro s hs
  have hpending : D.Pending own m fs s := ⟨fun m' hm' _ => hs m' hm', hgood s (hs m hm)⟩
  refine (Pending.updates hm hlocal s hpending).mono ?_
  rintro own' s' ⟨rfl, hothers, hlast⟩
  refine ⟨rfl, fun m' hm' => ?_⟩
  by_cases hne : m' = m
  · rw [hne]
    exact hlast
  · exact hothers m' hm' hne

theorem withLock (hm : m ∉ own) (h : D.Tidy (insert m own) p) : D.Tidy own (.withLock m p) := by
  intro s hs s₁ hs₁ hinv
  have hwhole : D.Whole (insert m own) s₁ := by
    intro m' hm'
    rcases Finset.mem_insert.mp hm' with rfl | hold
    · exact hinv
    · exact (hs m' hold).congr (hs₁.same m' hold)
  apply Safe.andThen
  refine (h s₁ hwhole).mono ?_
  rintro _ s₂ ⟨rfl, hs₂⟩ s₃ hs₃
  have hs₃ := stable_whole s₂ s₃ hs₃ hs₂
  refine ⟨hs₃ m (Finset.mem_insert_self m own), fun s₄ hs₄ => ?_⟩
  rw [Finset.erase_insert hm] at hs₄ ⊢
  exact ⟨rfl, fun m' hm' => (hs₃ m' (Finset.mem_insert_of_mem hm')).congr (hs₄.same m' hm')⟩

theorem locked {f : σ → σ} {g k : σ → Prog σ μ} (hm : m ∉ own)
    (hg : ∀ s, D.Always s → D.Inv m s → g s = .unlock m (k s))
    (htouch : ∀ s m', m' ≠ m → D.read m' (f s) = D.read m' s)
    (hf : ∀ s, D.Always s → D.Inv m s → D.Always (f s) ∧ D.Inv m (f s))
    (hk : ∀ s, D.Always s → D.Given s → D.Inv m s → D.Tidy own (k s)) :
    D.Tidy own (.lock m (.act f g)) := by
  intro s hs s₁ hs₁ hinv s₂ hs₂
  have hmem := Finset.mem_insert_self m own
  have hinv₂ := hinv.congr (hs₂.same m hmem)
  obtain ⟨halways, hinv'⟩ := hf s₂ hs₂.always hinv₂
  refine ⟨⟨halways, fun m' hm' => htouch s₂ m' ?_⟩, ?_⟩
  · exact fun heq => hm' (heq ▸ hmem)
  rw [hg s₂ hs₂.always hinv₂]
  intro s₃ hs₃
  refine ⟨hinv'.congr (hs₃.same m hmem), ?_⟩
  rw [Finset.erase_insert hm]
  apply hk s₂ hs₂.always hs₂.given hinv₂ s₃
  intro m' hm'
  have hold : m' ∈ insert m own := Finset.mem_insert_of_mem hm'
  have h₂ : D.Inv m' s₂ := ((hs m' hm').congr (hs₁.same m' hm')).congr (hs₂.same m' hold)
  exact (h₂.congr (htouch s₂ m' fun heq => hm (heq ▸ hm'))).congr (hs₃.same m' hold)

theorem withLock_update {f : σ → σ} (hm : m ∉ own)
    (htouch : ∀ s m', m' ≠ m → D.read m' (f s) = D.read m' s)
    (hf : ∀ s, D.Always s → D.Inv m s → D.Always (f s) ∧ D.Inv m (f s)) :
    D.Tidy own (.withLock m (.update f)) :=
  locked hm (fun _ _ _ => rfl) htouch hf fun _ _ _ _ => done

end Tidy

/-! ## The machine -/

variable {sys : System σ μ ι ε} {st : State σ μ} {Q : Finset μ → σ → Prop}

variable (D) in
structure Respects (sys : System σ μ ι ε) : Prop where
  handler : ∀ i, D.Tidy ∅ (sys.handler i)
  deliver : ∀ i s, D.Always s → D.Kept ∅ s (sys.deliver i s)
  environment : ∀ e s, D.Always s → D.Kept ∅ s (sys.environment e s)

structure HandlerOrderly (D : Discipline σ μ) (st : State σ μ) (h : Context σ μ) : Prop where
  safe : D.Safe (fun own _ => own = ∅) h.held h.prog st.shared
  apart : ∀ m ∈ h.held, m ∉ st.main.held

def Free (st : State σ μ) (m : μ) : Prop :=
  m ∉ st.main.held ∧ ∀ h, st.handler = some h → m ∉ h.held

variable (D) in
structure Orderly (st : State σ μ) : Prop where
  always : D.Always st.shared
  main : D.Safe (fun _ _ => True) st.main.held st.main.prog st.shared
  handler : ∀ h, st.handler = some h → D.HandlerOrderly st h
  free : ∀ m, Free st m → D.Inv m st.shared

structure ContextStep (D : Discipline σ μ) (Q : Finset μ → σ → Prop) (blocked : Finset μ)
    (c c' : Context σ μ) (s s' : σ) : Prop where
  safe : D.Safe Q c'.held c'.prog s'
  kept : D.Kept c.held s s'
  apart : ∀ m ∈ c'.held, m ∈ c.held ∨ m ∉ blocked
  free : ∀ m, m ∉ c'.held → m ∉ blocked → D.Inv m s'

theorem contextStep (c : Context σ μ) (blocked : Finset μ) (halways : D.Always s)
    (hgiven : D.Given s) (h : D.Safe Q c.held c.prog s)
    (hfree : ∀ m, m ∉ c.held → m ∉ blocked → D.Inv m s) :
    D.ContextStep Q blocked c (c.step blocked s).2 s (c.step blocked s).1 := by
  have hsame : D.ContextStep Q blocked c c s s := ⟨h, .refl halways, fun _ hm => .inl hm, hfree⟩
  have hrefl : D.Env c.held s s := .refl halways hgiven
  obtain ⟨prog, held⟩ := c
  unfold Context.step
  cases prog with
  | done => exact hsame
  | halt => exact hsame
  | lock m k =>
      dsimp only
      split_ifs with hm
      · exact hsame
      · obtain ⟨hblocked, hheld⟩ := not_or.mp hm
        refine ⟨h s hrefl (hfree m hheld hblocked), .refl halways, fun m' hm' => ?_,
          fun m' hm' => hfree m' fun hmem => hm' (Finset.mem_insert_of_mem hmem)⟩
        rcases Finset.mem_insert.mp hm' with rfl | hold
        · exact .inr hblocked
        · exact .inl hold
  | unlock m k =>
      obtain ⟨hinv, hrest⟩ := h s hrefl
      refine ⟨hrest, .refl halways, fun m' hm' => .inl (Finset.mem_of_mem_erase hm'),
        fun m' hm' hblocked => ?_⟩
      by_cases heq : m' = m
      · rw [heq]
        exact hinv
      · exact hfree m' (fun hmem => hm' (Finset.mem_erase.mpr ⟨heq, hmem⟩)) hblocked
  | act f k =>
      obtain ⟨hkept, hrest⟩ := h s hrefl
      refine ⟨hrest, hkept, fun m' hm' => .inl hm', fun m' hm' hblocked => ?_⟩
      exact (hfree m' hm' hblocked).congr (hkept.same m' hm')

/-- A context that is not running keeps what it knows, because the others leave
alone what its locks guard. -/
theorem Safe.of_kept {held : Finset μ} {p : Prog σ μ} (h : D.Safe Q own p s)
    (hkept : D.Kept held s s') (hapart : ∀ m ∈ held, m ∉ own) : D.Safe Q own p s' := by
  refine of_env fun s'' henv => h.env ⟨henv.always, henv.given, fun m hm => ?_⟩
  calc
    D.read m s'' = D.read m s' := henv.same m hm
    _ = D.read m s := hkept.same m fun hmem => hapart m hmem hm

/-- A step of the hardware, which holds no lock. -/
theorem Orderly.of_kept (h : D.Orderly st) (hkept : D.Kept ∅ st.shared s') :
    D.Orderly { st with shared := s' } where
  always := hkept.always
  main := h.main.of_kept hkept fun m hm => absurd hm (Finset.notMem_empty m)
  handler := fun c hc =>
    ⟨(h.handler c hc).safe.of_kept hkept fun m hm => absurd hm (Finset.notMem_empty m),
      (h.handler c hc).apart⟩
  free := fun m hm => (h.free m hm).congr (hkept.same m (Finset.notMem_empty m))

theorem Orderly.run_main (h : D.Orderly st) (hgiven : D.Given st.shared)
    (hnone : st.handler = none) : D.Orderly (step sys st .run) := by
  have hidle : ∀ {m : μ} {c}, st.handler = some c → m ∉ c.held := by
    intro m c hc
    rw [hnone] at hc
    cases hc
  have hstep := contextStep st.main ∅ h.always hgiven h.main fun m hm _ =>
    h.free m ⟨hm, fun c hc => hidle hc⟩
  have heq : step sys st .run =
      { st with shared := (st.main.step ∅ st.shared).1, main := (st.main.step ∅ st.shared).2 } := by
    simp only [step, hnone]
  rw [heq]
  constructor
  · exact hstep.kept.always
  · exact hstep.safe
  · intro c hc
    rw [hnone] at hc
    cases hc
  · exact fun m hm => hstep.free m hm.1 (Finset.notMem_empty m)

theorem Orderly.return_handler (h : D.Orderly st) (hgiven : D.Given st.shared) {held : Finset μ}
    (hsome : st.handler = some ⟨.done, held⟩) : D.Orderly (step sys st .run) := by
  have hempty : held = ∅ := (h.handler _ hsome).safe st.shared (.refl h.always hgiven)
  have heq : step sys st .run =
      { st with main := ⟨st.main.prog, st.main.held ∪ held⟩, handler := none } := by
    simp only [step, hsome]
  rw [heq, hempty, Finset.union_empty]
  refine ⟨h.always, h.main, fun c hc => (by cases hc), fun m hm => h.free m ⟨hm.1, fun c hc => ?_⟩⟩
  rw [hsome, hempty] at hc
  cases hc
  exact Finset.notMem_empty m

theorem Orderly.run_handler (h : D.Orderly st) (hgiven : D.Given st.shared) {c : Context σ μ}
    (hsome : st.handler = some c) (hprog : c.prog ≠ .done) : D.Orderly (step sys st .run) := by
  obtain ⟨hsafe, hapart⟩ := h.handler c hsome
  have hstep := contextStep c st.main.held h.always hgiven hsafe fun m hm hblocked =>
    h.free m ⟨hblocked, fun c' hc' => by rw [hsome] at hc'; cases hc'; exact hm⟩
  have heq : step sys st .run = { st with
      shared := (c.step st.main.held st.shared).1
      handler := some (c.step st.main.held st.shared).2 } := by
    obtain ⟨prog, held⟩ := c
    cases prog with
    | done => exact absurd rfl hprog
    | halt => simp only [step, hsome]
    | lock m k => simp only [step, hsome]
    | unlock m k => simp only [step, hsome]
    | act f k => simp only [step, hsome]
  rw [heq]
  constructor
  · exact hstep.kept.always
  · exact h.main.of_kept hstep.kept hapart
  · intro c' hc'
    cases hc'
    refine ⟨hstep.safe, fun m hm => ?_⟩
    rcases hstep.apart m hm with hold | hnew
    · exact hapart m hold
    · exact hnew
  · exact fun m hm => hstep.free m (hm.2 _ rfl) hm.1

theorem Respects.step (hsys : D.Respects sys) (h : D.Orderly st) (hgiven : D.Given st.shared)
    (label : Label ι ε) : D.Orderly (step sys st label) := by
  cases label with
  | run =>
      cases hhandler : st.handler with
      | none => exact h.run_main hgiven hhandler
      | some c =>
          by_cases hdone : c.prog = .done
          · obtain ⟨prog, held⟩ := c
            cases hdone
            exact h.return_handler hgiven hhandler
          · exact h.run_handler hgiven hhandler hdone
  | environment e => exact h.of_kept (hsys.environment e st.shared h.always)
  | interrupt i =>
      cases hhandler : st.handler with
      | some c =>
          simp only [Interrupts.step, hhandler]
          exact h
      | none =>
          simp only [Interrupts.step, hhandler]
          split_ifs
          · have hafter := h.of_kept (hsys.deliver i st.shared h.always)
            refine ⟨hafter.always, hafter.main, fun c hc => ?_, fun m hm => ?_⟩
            · cases hc
              refine ⟨?_, fun m hm => absurd hm (Finset.notMem_empty m)⟩
              have hwhole : D.Whole ∅ (sys.deliver i st.shared) :=
                fun m hm => absurd hm (Finset.notMem_empty m)
              exact (hsys.handler i _ hwhole).mono fun _ _ hend => hend.1
            · refine hafter.free m ⟨hm.1, fun c hc => ?_⟩
              rw [hhandler] at hc
              cases hc
          · exact h

/-- In every run, the value of a lock that nobody holds is in order. -/
theorem Respects.invariant (hsys : D.Respects sys) (h : D.Orderly st) {labels : List (Label ι ε)}
    (hgiven : Runs.Along (Interrupts.step sys) (fun st _ => D.Given st.shared) st labels) :
    D.Orderly (Runs.exec (Interrupts.step sys) st labels) :=
  Runs.exec_invariant_along (P := D.Orderly)
    (fun _ label hst hgiven => hsys.step hst hgiven label) h hgiven

/-- A context stops for good only where that is allowed. -/
theorem Orderly.halts (h : D.Orderly st) (hgiven : D.Given st.shared)
    (hhalt : st.main.prog = .halt ∨ ∃ c, st.handler = some c ∧ c.prog = .halt) : D.Halts := by
  have hrefl : ∀ {own : Finset μ}, D.Env own st.shared st.shared := .refl h.always hgiven
  rcases hhalt with hmain | ⟨c, hsome, hprog⟩
  · have hsafe := h.main
    rw [hmain] at hsafe
    exact hsafe st.shared hrefl
  · have hsafe := (h.handler c hsome).safe
    rw [hprog] at hsafe
    exact hsafe st.shared hrefl

end Discipline

end AetherOs.Support
