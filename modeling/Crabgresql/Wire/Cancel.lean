import Crabgresql.Lib.Runs

/-!
# Cancel requests

The cancel target of one session: the token of its latest query and the sticky flag. `cancel` sets
the flag and then fires the token, under the lock of the registry; `begin_query` replaces the token
and then takes the flag. The two run on different tasks, so that their steps interleave.
-/

namespace Crabgresql.Wire.Cancel

/-- What the session is doing. Between the two steps of `begin_query` the fresh token is in the
slot already. -/
inductive Phase
  | idle
  | beginning
  | running
  deriving DecidableEq

structure State where
  phase : Phase
  /-- The token in the slot has fired. It is the token of the query under way, if there is one. -/
  fired : Bool
  pending : Bool
  /-- A `cancel` holds the registry's lock and has set the flag. -/
  cancelling : Bool
  /-- The calls of `cancel`, and the engine calls that ended with QUERY_CANCELED. -/
  cancels : ℕ
  canceled : ℕ
  deriving DecidableEq

def State.initial : State := ⟨.idle, false, false, false, 0, 0⟩

inductive Act
  /-- The steps of `cancel`. -/
  | setPending
  | fire
  /-- The steps of `begin_query`. -/
  | install
  | takePending
  /-- The `select!` of the query and its token is polled; the engine may have its answer. -/
  | poll (ready : Bool)
  /-- Execute of a portal that does not exist: no engine call is made. -/
  | noPortal
  deriving DecidableEq

def step (s : State) : Act → Option State
  | .setPending =>
    if s.cancelling then none
    else some { s with pending := true, cancelling := true, cancels := s.cancels + 1 }
  | .fire => if s.cancelling then some { s with fired := true, cancelling := false } else none
  | .install =>
    if s.phase = .idle then some { s with phase := .beginning, fired := false } else none
  | .takePending =>
    if s.phase = .beginning then
      some { s with phase := .running, fired := s.fired || s.pending, pending := false }
    else none
  | .poll ready =>
    if s.phase = .running then
      -- biased: the token is looked at first
      if s.fired then some { s with phase := .idle, canceled := s.canceled + 1 }
      else some { s with phase := if ready then .idle else .running }
    else none
  | .noPortal => if s.phase = .running then some { s with phase := .idle } else none

/-- The token is fired while no query is under way. -/
def between (s : State) : Act → Bool
  | .fire => s.phase == .idle
  | _ => true

def State.due (s : State) : ℕ :=
  (if s.phase = .running ∧ s.fired = true then 1 else 0) + if s.pending = true then 1 else 0

structure Inv (s : State) : Prop where
  paid : s.canceled + s.due ≤ s.cancels
  /-- The fresh token has not fired. -/
  fresh : s.phase = .beginning → s.fired = false

theorem inv_step (s : State) (a : Act) (s' : State) (h : Inv s) (hb : between s a = true)
    (hstep : step s a = some s') : Inv s' := by
  obtain ⟨phase, fired, pending, cancelling, cancels, canceled⟩ := s
  obtain ⟨hpaid, hfresh⟩ := h
  simp only [State.due] at hpaid
  cases a with
  | setPending =>
    simp only [step] at hstep
    split_ifs at hstep
    cases hstep
    refine ⟨?_, hfresh⟩
    simp only [State.due]
    split_ifs at hpaid ⊢ <;> omega
  | fire =>
    simp only [step] at hstep
    split_ifs at hstep
    cases hstep
    simp only [between, beq_iff_eq] at hb
    subst hb
    refine ⟨?_, nofun⟩
    simp only [State.due]
    split_ifs at hpaid ⊢ <;> simp_all
  | install =>
    simp only [step] at hstep
    split_ifs at hstep with hidle
    cases hstep
    refine ⟨?_, fun _ => rfl⟩
    simp only [State.due]
    split_ifs at hpaid ⊢ <;> simp_all
  | takePending =>
    simp only [step] at hstep
    split_ifs at hstep with hbegin
    cases hstep
    refine ⟨?_, nofun⟩
    have hunfired : fired = false := hfresh hbegin
    subst hbegin hunfired
    simp only [State.due]
    cases pending <;> simpa using hpaid
  | poll ready =>
    by_cases hrun : phase = .running
    · subst hrun
      cases fired with
      | true =>
        cases hstep
        refine ⟨?_, nofun⟩
        simp only [State.due, reduceCtorEq, false_and, if_false]
        rw [if_pos ⟨rfl, rfl⟩] at hpaid
        omega
      | false =>
        cases hstep
        refine ⟨?_, fun _ => rfl⟩
        simpa [State.due] using hpaid
    · simp only [step, if_neg hrun] at hstep
      cases hstep
  | noPortal =>
    simp only [step] at hstep
    split_ifs at hstep
    cases hstep
    refine ⟨?_, nofun⟩
    simp only [State.due, reduceCtorEq, false_and, if_false]
    split_ifs at hpaid ⊢ <;> omega

/-- If cancels fire the token only while no query is under way, no more calls are canceled than
there were cancels. -/
theorem canceled_le_cancels (acts : List Act) (s : State)
    (hbetween : Runs.Along step (fun s a => between s a = true) .initial acts)
    (hrun : Runs.exec step .initial acts = some s) : s.canceled ≤ s.cancels := by
  have hinitial : Inv .initial := ⟨Nat.le_refl 0, nofun⟩
  have hinv : Inv s := Runs.exec_invariant inv_step hinitial hbetween hrun
  exact (Nat.le_add_right _ _).trans hinv.paid

/-- A cancel between two messages of a batch: the next call is canceled, and not the one after. -/
theorem canceled_le_cancels_batch : ∃ s, Runs.exec step .initial
        [.setPending, .fire, .install, .takePending, .poll true, .install, .takePending,
          .poll true] = some s ∧
      s.canceled = 1 ∧ s.canceled ≤ s.cancels := by
  refine ⟨_, rfl, rfl, ?_⟩
  exact canceled_le_cancels [.setPending, .fire, .install, .takePending, .poll true, .install,
    .takePending, .poll true] _ (Runs.along_of_check between (fun _ _ h => h) rfl) rfl

/-- A cancel interrupts a running query, and the flag it leaves cancels the session's next query
too. -/
theorem cancel_ends_two_queries : ∃ s, Runs.exec step .initial
        [.install, .takePending, .poll false, .setPending, .fire, .poll false, .install,
          .takePending, .poll true] = some s ∧
      s.cancels = 1 ∧ s.canceled = 2 :=
  ⟨_, rfl, rfl, rfl⟩

end Crabgresql.Wire.Cancel
