import AetherOs.Support.Runs
/-!
# Drivers and devices

A driver is a tree of port accesses: write a byte, read a byte and go on with
it, or read a port again and again until it shows what the driver waits for.
The device behind the ports answers, and moves on its own between any two
accesses.

`Conducts` follows one call of a driver in the company of such a device: every
state in between satisfies `I`, and the call ends in a state with `Q`.
`Service.invariant` is the rule for a machine on which calls come one after the
other, in any order and at any time.
-/

namespace AetherOs.Support.Ports

inductive Driver (π : Type) where
  | done
  | write (port : π) (value : UInt8) (k : Driver π)
  | read (port : π) (k : UInt8 → Driver π)
  /-- `while !ready(port.read()) {}` -/
  | await (port : π) (ready : UInt8 → Bool) (k : Driver π)

def Driver.andThen {π : Type} : Driver π → Driver π → Driver π
  | .done, q => q
  | .write port value k, q => .write port value (k.andThen q)
  | .read port k, q => .read port fun value => (k value).andThen q
  | .await port ready k, q => .await port ready (k.andThen q)

def Driver.seq {π : Type} : List (Driver π) → Driver π
  | [] => .done
  | p :: ps => p.andThen (seq ps)

def Driver.writes {π : Type} : List (π × UInt8) → Driver π
  | [] => .done
  | (port, value) :: rest => .write port value (writes rest)

structure Device (π δ ε : Type) where
  write : π → UInt8 → δ → δ
  read : π → δ → UInt8
  /-- what the device does on its own -/
  move : ε → δ → δ

variable {π δ ε κ : Type}

/-! ## One call -/

section Conducts

variable (device : Device π δ ε) (rely : δ → δ → Prop) (I Q : δ → Prop)

def Conducts : Driver π → δ → Prop
  | .done, d => ∀ d', rely d d' → I d' ∧ Q d'
  | .write port value k, d => ∀ d', rely d d' → I d' ∧ Conducts k (device.write port value d')
  | .read port k, d => ∀ d', rely d d' → I d' ∧ Conducts (k (device.read port d')) d'
  | .await port ready k, d =>
      ∀ d', rely d d' → I d' ∧ (ready (device.read port d') = true → Conducts k d')

variable {device rely I Q} {Q' : δ → Prop} {p q : Driver π} {d d' : δ}

theorem Conducts.inv (hrefl : ∀ d, rely d d) (h : Conducts device rely I Q p d) : I d := by
  cases p with
  | done => exact (h d (hrefl d)).1
  | write port value k => exact (h d (hrefl d)).1
  | read port k => exact (h d (hrefl d)).1
  | await port ready k => exact (h d (hrefl d)).1

theorem Conducts.move (htrans : ∀ d d' d'', rely d d' → rely d' d'' → rely d d'')
    (h : Conducts device rely I Q p d) (hmove : rely d d') : Conducts device rely I Q p d' := by
  cases p with
  | done => exact fun d'' h'' => h d'' (htrans d d' d'' hmove h'')
  | write port value k => exact fun d'' h'' => h d'' (htrans d d' d'' hmove h'')
  | read port k => exact fun d'' h'' => h d'' (htrans d d' d'' hmove h'')
  | await port ready k => exact fun d'' h'' => h d'' (htrans d d' d'' hmove h'')

theorem Conducts.mono (hQ : ∀ d, Q d → Q' d) (h : Conducts device rely I Q p d) :
    Conducts device rely I Q' p d := by
  induction p generalizing d with
  | done => exact fun d' hd' => ⟨(h d' hd').1, hQ d' (h d' hd').2⟩
  | write port value k ih => exact fun d' hd' => ⟨(h d' hd').1, ih (h d' hd').2⟩
  | read port k ih => exact fun d' hd' => ⟨(h d' hd').1, ih _ (h d' hd').2⟩
  | await port ready k ih =>
      exact fun d' hd' => ⟨(h d' hd').1, fun hready => ih ((h d' hd').2 hready)⟩

theorem Conducts.andThen (hrefl : ∀ d, rely d d)
    (h : Conducts device rely I (fun d' => Conducts device rely I Q q d') p d) :
    Conducts device rely I Q (p.andThen q) d := by
  induction p generalizing d with
  | done => exact (h d (hrefl d)).2
  | write port value k ih => exact fun d' hd' => ⟨(h d' hd').1, ih (h d' hd').2⟩
  | read port k ih => exact fun d' hd' => ⟨(h d' hd').1, ih _ (h d' hd').2⟩
  | await port ready k ih =>
      exact fun d' hd' => ⟨(h d' hd').1, fun hready => ih ((h d' hd').2 hready)⟩

/-- Writes one after the other, with an assertion for the writes that are left. -/
theorem Conducts.writes {P : List (π × UInt8) → δ → Prop}
    (hstable : ∀ rest d d', rely d d' → P rest d → P rest d')
    (hwrite : ∀ port value rest d, P ((port, value) :: rest) d → P rest (device.write port value d))
    (hI : ∀ rest d, P rest d → I d) (hQ : ∀ d, P [] d → Q d) {rest : List (π × UInt8)}
    (h : P rest d) : Conducts device rely I Q (.writes rest) d := by
  induction rest generalizing d with
  | nil =>
      intro d' hd'
      have hP := hstable [] d d' hd' h
      exact ⟨hI [] d' hP, hQ d' hP⟩
  | cons access rest ih =>
      intro d' hd'
      have hP := hstable _ d d' hd' h
      exact ⟨hI _ d' hP, ih (hwrite access.1 access.2 rest d' hP)⟩

end Conducts

/-! ## The machine -/

/-- The device, the rest of the call that is under way, and the calls so far. -/
structure State (π δ κ : Type) where
  device : δ
  driver : Driver π
  calls : List κ

inductive Label (κ ε : Type) where
  /-- the processor makes the next access -/
  | access
  | device (e : ε)
  /-- the next call, which waits for the end of the one before -/
  | call (c : κ)

def access (device : Device π δ ε) : Driver π → δ → Driver π × δ
  | .done, d => (.done, d)
  | .write port value k, d => (k, device.write port value d)
  | .read port k, d => (k (device.read port d), d)
  | .await port ready k, d =>
      if ready (device.read port d) then (k, d) else (.await port ready k, d)

def Driver.isDone : Driver π → Bool
  | .done => true
  | _ => false

def step (device : Device π δ ε) (program : κ → Driver π) (st : State π δ κ) :
    Label κ ε → State π δ κ
  | .access =>
      { st with driver := (access device st.driver st.device).1
                device := (access device st.driver st.device).2 }
  | .device e => { st with device := device.move e st.device }
  | .call c =>
      if st.driver.isDone then { st with driver := program c, calls := st.calls ++ [c] } else st

theorem isDone_iff {p : Driver π} : p.isDone = true ↔ p = .done := by
  cases p <;> simp [Driver.isDone]

/-- What every call is given and has to keep: `I` in every state, `J` at rest. -/
structure Service (device : Device π δ ε) (program : κ → Driver π) (rely : δ → δ → Prop)
    (I J : List κ → δ → Prop) : Prop where
  refl : ∀ d, rely d d
  trans : ∀ d d' d'', rely d d' → rely d' d'' → rely d d''
  move : ∀ e d, rely d (device.move e d)
  call : ∀ calls c d, J calls d →
    Conducts device rely (I (calls ++ [c])) (J (calls ++ [c])) (program c) d

section Service

variable {device : Device π δ ε} {program : κ → Driver π} {rely : δ → δ → Prop}
  {I J : List κ → δ → Prop} {st : State π δ κ}

variable (device rely I J) in
def InOrder (st : State π δ κ) : Prop :=
  Conducts device rely (I st.calls) (J st.calls) st.driver st.device

theorem Service.step (service : Service device program rely I J)
    (h : InOrder device rely I J st) (label : Label κ ε) :
    InOrder device rely I J (step device program st label) := by
  obtain ⟨d, driver, calls⟩ := st
  cases label with
  | device e => exact h.move service.trans (service.move e d)
  | access =>
      cases driver with
      | done => exact h
      | write port value k => exact (h d (service.refl d)).2
      | read port k => exact (h d (service.refl d)).2
      | await port ready k =>
          simp only [Ports.step, access]
          split_ifs with hready
          · exact (h d (service.refl d)).2 hready
          · exact h
  | call c =>
      simp only [Ports.step]
      split_ifs with hdone
      · rw [isDone_iff] at hdone
        subst hdone
        exact service.call calls c d (h d (service.refl d)).2
      · exact h

theorem Service.invariant (service : Service device program rely I J)
    (h : InOrder device rely I J st) (labels : List (Label κ ε)) :
    InOrder device rely I J (Runs.exec (Ports.step device program) st labels) :=
  Runs.exec_invariant (P := InOrder device rely I J)
    (fun _ label hst => service.step hst label) h labels

theorem InOrder.inv (hrefl : ∀ d, rely d d) (h : InOrder device rely I J st) :
    I st.calls st.device :=
  Conducts.inv hrefl h

theorem InOrder.rest (hrefl : ∀ d, rely d d) (h : InOrder device rely I J st)
    (hdone : st.driver = .done) : J st.calls st.device := by
  unfold InOrder at h
  rw [hdone] at h
  exact (h st.device (hrefl st.device)).2

end Service

end AetherOs.Support.Ports
