import AetherOs.Memory.Frames.Sequential
/-!
# Schedules that race across a range boundary

The schedules of this module are assembled from lone calls (`Sequential`) that
are stopped between the two steps of `advance_range`, or after their load of
the index, and resumed later.  `Later` is the bookkeeping: calls numbered from
`n` on have moved, calls below `n` have not, and the frames returned meanwhile
lie in admitted ranges.
-/

namespace AetherOs.Memory.Frames

open AetherOs.Support AetherOs.Support.Interleaving

variable {fa : FrameAllocator} {i cur n : Nat} {calls : Nat → Pc} {I J : Nat → Prop}

def Fresh (n : Nat) (calls : Nat → Pc) : Prop := ∀ c, n ≤ c → calls c = .loadRange

structure Later (fa : FrameAllocator) (I : Nat → Prop) (n : Nat) (s : Config)
    (n' : Nat) (t : Config) : Prop where
  reaches : Reaches (next fa) s t
  le : n ≤ n'
  fresh : Fresh n' t.calls
  kept : ∀ c < n, t.calls c = s.calls c
  claims : ∀ c frame, n ≤ c → t.calls c = .returned (some frame) →
    ∃ k, I k ∧ k < fa.rangeCount ∧ fa.InRange k frame

namespace Later

variable {s t u : Config} {n' n'' : Nat}

theorem trans (hst : Later fa I n s n' t) (htu : Later fa I n' t n'' u) :
    Later fa I n s n'' u where
  reaches := hst.reaches.trans htu.reaches
  le := hst.le.trans htu.le
  fresh := htu.fresh
  kept := fun c hc => (htu.kept c (lt_of_lt_of_le hc hst.le)).trans (hst.kept c hc)
  claims := by
    intro c frame hc hcall
    by_cases hlt : c < n'
    · exact hst.claims c frame hc (htu.kept c hlt ▸ hcall)
    · exact htu.claims c frame (by omega) hcall

theorem mono (h : Later fa I n s n' t) (hIJ : ∀ k, I k → J k) : Later fa J n s n' t where
  reaches := h.reaches
  le := h.le
  fresh := h.fresh
  kept := h.kept
  claims := by
    intro c frame hc hcall
    obtain ⟨k, hk, hrest⟩ := h.claims c frame hc hcall
    exact ⟨k, hIJ k hk, hrest⟩

theorem refl (hfresh : Fresh n s.calls) : Later fa I n s n s where
  reaches := Reaches.refl s
  le := le_refl n
  fresh := hfresh
  kept := fun _ _ => rfl
  claims := by
    intro c frame hc hcall
    rw [hfresh c hc] at hcall
    cases hcall

theorem of_solo {m : Nat} {cells : Cells} {pc : Pc} (hfresh : Fresh n s.calls)
    (hsolo : solo (next fa) m (s.shared, .loadRange) = (cells, pc))
    (hclaim : ∀ frame, pc = .returned (some frame) →
      ∃ k, I k ∧ k < fa.rangeCount ∧ fa.InRange k frame) :
    Later fa I n s (n + 1) ⟨cells, Function.update s.calls n pc⟩ where
  reaches := Reaches.of_solo (by rw [hfresh n (le_refl n)]; exact hsolo)
  le := Nat.le_succ n
  fresh := by
    intro c hc
    change Function.update s.calls n pc c = .loadRange
    rw [Function.update_of_ne (by omega)]
    exact hfresh c (by omega)
  kept := by
    intro c hc
    change Function.update s.calls n pc c = s.calls c
    rw [Function.update_of_ne (by omega)]
  claims := by
    intro c frame hc hcall
    rcases update_eq_iff.mp hcall with ⟨-, hpc⟩ | ⟨-, hcall⟩
    · exact hclaim frame hpc
    · rw [hfresh c hc] at hcall
      cases hcall

end Later

/-! ## Undisturbed stretches -/

theorem later_claim (ha : fa.Aligned) (hi : i < fa.rangeCount) (hin : fa.InRange i cur)
    (hfresh : Fresh n calls) :
    Later fa (· = i) n ⟨⟨i, cur⟩, calls⟩ (n + 1)
      ⟨⟨i, cur + frameSize⟩, Function.update calls n (.returned (some cur))⟩ := by
  refine Later.of_solo (s := ⟨⟨i, cur⟩, calls⟩) hfresh (solo_claim ha hi hin) ?_
  intro frame hframe
  cases hframe
  exact ⟨i, rfl, hi, hin⟩

theorem later_advance (ha : fa.Aligned) (hi : i + 1 < fa.rangeCount)
    (hout : cur < fa.start i ∨ fa.stop i ≤ cur) (hfresh : Fresh n calls) :
    Later fa I n ⟨⟨i, cur⟩, calls⟩ (n + 1)
      ⟨⟨i + 1, fa.start (i + 1)⟩, Function.update calls n .loadRange⟩ :=
  Later.of_solo (s := ⟨⟨i, cur⟩, calls⟩) hfresh (solo_advance ha hi hout)
    (fun _ h => by cases h)

/-- A call wins the exchange of the index and stops before its store. -/
theorem later_pending (ha : fa.Aligned) (hi : i + 1 < fa.rangeCount)
    (hout : cur < fa.start i ∨ fa.stop i ≤ cur) (hfresh : Fresh n calls) :
    Later fa I n ⟨⟨i, cur⟩, calls⟩ (n + 1)
      ⟨⟨i + 1, cur⟩, Function.update calls n (.storeFrame (i + 1))⟩ :=
  Later.of_solo (s := ⟨⟨i, cur⟩, calls⟩) hfresh (solo_advance_pending ha hi hout)
    (fun _ h => by cases h)

theorem drain (ha : fa.Aligned) (hloc : Located fa i cur) (hfresh : Fresh n calls) :
    ∃ n' calls', Later fa (· = i) n ⟨⟨i, cur⟩, calls⟩ n' ⟨⟨i, fa.stop i⟩, calls'⟩ := by
  induction hleft : fa.stop i - cur using Nat.strong_induction_on generalizing cur n calls with
  | _ left ih =>
      by_cases hlt : cur < fa.stop i
      · have hpos : 0 < frameSize := by decide
        have hclaim := later_claim ha hloc.lt_count (hloc.inRange ha hlt) hfresh
        obtain ⟨n', calls', hrest⟩ := ih (fa.stop i - (cur + frameSize)) (by omega)
          (hloc.add_frameSize ha hlt) hclaim.fresh rfl
        exact ⟨n', calls', hclaim.trans hrest⟩
      · have hcur : cur = fa.stop i := le_antisymm hloc.le_stop (by omega)
        subst hcur
        exact ⟨n, calls, Later.refl hfresh⟩

theorem reach_stop (ha : fa.Aligned) (hloc : Located fa i cur) (hfresh : Fresh n calls)
    {k : Nat} (hik : i ≤ k) (hk : k < fa.rangeCount) :
    ∃ n' calls', Later fa (fun m => i ≤ m ∧ m ≤ k) n ⟨⟨i, cur⟩, calls⟩ n'
      ⟨⟨k, fa.stop k⟩, calls'⟩ := by
  induction k, hik using Nat.le_induction with
  | base =>
      obtain ⟨n', calls', h⟩ := drain ha hloc hfresh
      exact ⟨n', calls', h.mono (fun m hm => by omega)⟩
  | succ k hik ih =>
      obtain ⟨n₁, calls₁, h₁⟩ := ih (by omega)
      have h₂ : Later fa (fun m => i ≤ m ∧ m ≤ k + 1) n₁ _ (n₁ + 1) _ :=
        later_advance ha hk (Or.inr (le_refl _)) h₁.fresh
      obtain ⟨n₃, calls₃, h₃⟩ := drain ha (located_start ha hk) h₂.fresh
      exact ⟨n₃, calls₃, ((h₁.mono (fun m hm => by omega)).trans h₂).trans
        (h₃.mono (fun m hm => by omega))⟩

theorem initial_of_pos (hcount : 0 < fa.rangeCount) :
    fa.initial = ⟨⟨0, fa.start 0⟩, fun _ => .loadRange⟩ := by
  simp [FrameAllocator.initial, FrameAllocator.initialCells, hcount]

theorem reach_stop_initial (ha : fa.Aligned) {k : Nat} (hk : k < fa.rangeCount) :
    ∃ n calls, Later fa (· ≤ k) 0 fa.initial n ⟨⟨k, fa.stop k⟩, calls⟩ := by
  have hcount : 0 < fa.rangeCount := by omega
  have hfresh : Fresh 0 (fun _ => .loadRange) := fun _ _ => rfl
  obtain ⟨n, calls, h⟩ := reach_stop ha (located_start ha hcount) hfresh (Nat.zero_le k) hk
  rw [initial_of_pos hcount]
  exact ⟨n, calls, h.mono (fun m hm => hm.2)⟩

theorem reach_start_initial (ha : fa.Aligned) {k : Nat} (hk : k < fa.rangeCount) :
    ∃ n calls, Later fa (· < k) 0 fa.initial n ⟨⟨k, fa.start k⟩, calls⟩ := by
  cases k with
  | zero =>
      refine ⟨0, fun _ => .loadRange, ?_⟩
      rw [initial_of_pos hk]
      exact Later.refl (fun _ _ => rfl)
  | succ k =>
      obtain ⟨n, calls, h⟩ := reach_stop_initial ha (show k < fa.rangeCount by omega)
      have h₂ : Later fa (· < k + 1) n _ (n + 1) _ :=
        later_advance ha hk (Or.inr (le_refl _)) h.fresh
      exact ⟨n + 1, _, (h.mono (fun m hm => by omega)).trans h₂⟩

/-- With the cursor outside range `i`, calls skip it, claim later frames only
and finally return `None`. -/
theorem skip (ha : fa.Aligned) (hi : i < fa.rangeCount)
    (hout : cur < fa.start i ∨ fa.stop i ≤ cur) (hfresh : Fresh n calls) :
    ∃ n' t c, Later fa (i < ·) n ⟨⟨i, cur⟩, calls⟩ n' t ∧ t.calls c = .returned none := by
  by_cases hnext : i + 1 < fa.rangeCount
  · have h₁ : Later fa (i < ·) n _ (n + 1) _ := later_advance ha hnext hout hfresh
    obtain ⟨n₂, calls₂, h₂⟩ := reach_stop ha (located_start ha hnext) h₁.fresh
      (show i + 1 ≤ fa.rangeCount - 1 by omega) (by omega)
    have h₃ : Later fa (i < ·) n₂ _ (n₂ + 1) _ :=
      Later.of_solo (s := ⟨⟨fa.rangeCount - 1, fa.stop (fa.rangeCount - 1)⟩, calls₂⟩)
        h₂.fresh (solo_last ha (by omega) (Or.inr (le_refl _))) (fun _ h => by cases h)
    exact ⟨n₂ + 1, _, n₂, (h₁.trans (h₂.mono (fun m hm => by omega))).trans h₃, by simp⟩
  · have h₁ : Later fa (i < ·) n _ (n + 1) _ :=
      Later.of_solo (s := ⟨⟨i, cur⟩, calls⟩) hfresh (solo_last ha (by omega) hout)
        (fun _ h => by cases h)
    exact ⟨n + 1, _, n, h₁, by simp⟩

/-- Calls advance the index up to `j` one after the other; the last of them
still has its store before it. -/
theorem race (ha : fa.Aligned) {j : Nat} (hij : i < j) (hj : j < fa.rangeCount)
    (hout : ∀ k, i ≤ k → k < j → cur < fa.start k ∨ fa.stop k ≤ cur)
    (hfresh : Fresh n calls) :
    ∃ n' calls' c, Later fa I n ⟨⟨i, cur⟩, calls⟩ n' ⟨⟨j, cur⟩, calls'⟩ ∧
      c < n' ∧ calls' c = .storeFrame j := by
  induction j, hij using Nat.le_induction with
  | base =>
      exact ⟨n + 1, _, n, later_pending ha hj (hout i (le_refl i) (by omega)) hfresh,
        by omega, by simp⟩
  | succ j hij ih =>
      obtain ⟨n₁, calls₁, -, h₁, -, -⟩ := ih (by omega) (fun k hk hkj => hout k hk (by omega))
      have h₂ := later_pending (I := I) ha hj (hout j (by omega) (by omega)) h₁.fresh
      exact ⟨n₁ + 1, _, n₁, h₁.trans h₂, by omega, by simp⟩

end AetherOs.Memory.Frames
