import CComplete.StateManager.Model

/-!
# The mission ends the thread in its twelfth execution

The mission counter is the number of mission executions of the whole run: survival periods and
commands leave it alone. No update returns a fatal error, so the only fatal error is that of the
twelfth mission execution. It leaves a cancellation pending, and the sleep of the same period is
where it takes effect at the latest (`mission_run_length`).
-/

set_option autoImplicit false

namespace CComplete.StateManager

open CComplete.Library CComplete.StaticQueue

/-! ## Events of the thread -/

/-- What the manager thread itself did in a step. -/
def threadActivity : ThreadStep × ThreadEvent → Option ThreadEvent
  | (_, .produced _) => none
  | (_, .idle) => none
  | (_, event) => some event

/-- The event is an execution of the mission callback. -/
def isMissionExecution : ThreadEvent → Bool
  | .executed .stateMissionFunction _ => true
  | _ => false

/-- The execution that ends the mission. -/
def lastExecution : ThreadEvent := .executed .stateMissionFunction .unattendedTerminationError

/-! ## One step -/

theorem getStateInMapLoop_eq_error {t : StateId} {map : List State} {e : StateError}
    (h : getStateInMapLoop t map = .error e) : e = .stateNotFoundInMap := by
  induction map with
  | nil =>
    cases h
    rfl
  | cons a rest ih =>
    rw [getStateInMapLoop] at h
    split at h
    · cases h
    · exact ih h

theorem changeState_ne_termination (m : Manager) (t : StateId) :
    (changeState m t).1 ≠ .unattendedTerminationError := by
  rw [changeState]
  split
  · exact StateError.noConfusion
  · split
    · split
      · exact StateError.noConfusion
      · next e herror =>
        rw [getStateInMapLoop_eq_error herror]
        exact StateError.noConfusion
    · exact StateError.noConfusion

theorem update_ne_termination (m : Manager) : (update m).1 ≠ .unattendedTerminationError := by
  simp only [update]
  split
  · split
    · exact changeState_ne_termination _ _
    · exact StateError.noConfusion
  · exact StateError.noConfusion

/-- Only the termination error is fatal. -/
theorem cancelIfFatal_of_ne {t : Thread} {e : StateError} (h : e ≠ .unattendedTerminationError) :
    t.cancelIfFatal e = t := by
  cases e with
  | unattendedTerminationError => exact absurd rfl h
  | _ => rfl

theorem turn_of_update {t : Thread} (h : t.phase = .update) :
    t.turn = ({ t with manager := (update t.manager).2, phase := .execute },
      .updated (update t.manager).1) := by
  simp only [Thread.turn, h]
  rw [cancelIfFatal_of_ne (update_ne_termination _)]

/-- A survival period counts no mission execution and is never fatal. -/
theorem turn_of_survival {t : Thread} (h : t.phase = .execute)
    (hcallback : t.manager.currentState.callback = .stateSurvivalFunction) :
    t.turn = ({ t with survivalCounter := t.survivalCounter + 1, phase := .sleep },
      .executed .stateSurvivalFunction .noError) := by
  simp only [Thread.turn, h, executionLoop, hcallback]
  rfl

/-- A mission period before the twelfth. -/
theorem turn_of_mission {t : Thread} (h : t.phase = .execute)
    (hcallback : t.manager.currentState.callback = .stateMissionFunction)
    (hfew : t.missionCounter + 1 < maxStateMissionCounterVal) :
    t.turn = ({ t with missionCounter := t.missionCounter + 1, phase := .sleep },
      .executed .stateMissionFunction .noError) := by
  simp only [Thread.turn, h, executionLoop, hcallback, stateMissionFunction]
  rw [if_neg (UInt8.not_le.2 hfew)]
  rfl

/-- The mission period in which the counter comes to its maximum. -/
theorem turn_of_last_mission {t : Thread} (h : t.phase = .execute)
    (hcallback : t.manager.currentState.callback = .stateMissionFunction)
    (hlast : maxStateMissionCounterVal ≤ t.missionCounter + 1) :
    t.turn =
      ({ t with missionCounter := t.missionCounter + 1, phase := .sleep, cancelPending := true },
        lastExecution) := by
  simp only [Thread.turn, h, executionLoop, hcallback, stateMissionFunction]
  rw [if_pos hlast]
  rfl

/-! ## The run -/

/-- What every step preserves. Before the twelfth mission execution nothing is pending and the
thread goes on; afterwards it is before its sleep, or it has stopped there. -/
inductive RunsBy (t : Thread) (events : List ThreadEvent) : Prop
  | running (hcount : t.missionCounter.toNat = events.countP isMissionExecution)
      (hfew : events.countP isMissionExecution < 12) (hgoes : .cancelled ∉ events)
      (hpending : t.cancelPending = false) (hphase : t.phase ≠ .stopped)
  | ending (before : List ThreadEvent) (hcount : t.missionCounter = 12)
      (hbefore : before.countP isMissionExecution = 11) (hgoes : .cancelled ∉ before)
      (hevents : events = before ++ [lastExecution]) (hpending : t.cancelPending = true)
      (hphase : t.phase = .sleep)
  | ended (before : List ThreadEvent) (hcount : t.missionCounter = 12)
      (hbefore : before.countP isMissionExecution = 11) (hgoes : .cancelled ∉ before)
      (hevents : events = before ++ [lastExecution, .cancelled]) (hphase : t.phase = .stopped)

/-- Whoever changes the manager, the survival counter or the phase while the thread goes on, without
a mission execution or a cancellation, keeps it running. -/
theorem runsBy_uncounted {t t' : Thread} {events : List ThreadEvent} {e : ThreadEvent}
    (hcount : t.missionCounter.toNat = events.countP isMissionExecution)
    (hfew : events.countP isMissionExecution < 12) (hgoes : .cancelled ∉ events)
    (hcounter : t'.missionCounter = t.missionCounter) (hpending : t'.cancelPending = false)
    (hphase : t'.phase ≠ .stopped) (he : isMissionExecution e = false) (hne : e ≠ .cancelled) :
    RunsBy t' (events ++ [e]) := by
  have hsame : (events ++ [e]).countP isMissionExecution = events.countP isMissionExecution := by
    rw [List.countP_append, List.countP_singleton, he]
    rfl
  apply RunsBy.running
  · rw [hcounter, hcount, hsame]
  · rw [hsame]
    exact hfew
  · rw [List.mem_append, List.mem_singleton, not_or]
    exact ⟨hgoes, hne.symm⟩
  · exact hpending
  · exact hphase

theorem runsBy_mission {t : Thread} {events : List ThreadEvent}
    (hcount : t.missionCounter.toNat = events.countP isMissionExecution)
    (hfew : events.countP isMissionExecution < 12) (hgoes : .cancelled ∉ events)
    (hpending : t.cancelPending = false) (h : t.phase = .execute)
    (hcallback : t.manager.currentState.callback = .stateMissionFunction) :
    RunsBy t.turn.1 (events ++ [t.turn.2]) := by
  have hnext : (t.missionCounter + 1).toNat = events.countP isMissionExecution + 1 := by
    rw [UInt8.toNat_add, hcount]
    exact Nat.mod_eq_of_lt (show events.countP isMissionExecution + 1 < 2 ^ 8 by omega)
  by_cases hlast : events.countP isMissionExecution + 1 = 12
  · have htwelve : t.missionCounter + 1 = maxStateMissionCounterVal :=
      UInt8.toNat_inj.1 (hnext.trans hlast)
    rw [turn_of_last_mission h hcallback (UInt8.le_of_eq htwelve.symm)]
    exact RunsBy.ending events htwelve (by omega) hgoes rfl rfl rfl
  · have hless : t.missionCounter + 1 < maxStateMissionCounterVal := by
      rw [UInt8.lt_iff_toNat_lt, hnext]
      show events.countP isMissionExecution + 1 < 12
      omega
    rw [turn_of_mission h hcallback hless]
    let next := events ++ [ThreadEvent.executed .stateMissionFunction .noError]
    have hmore : next.countP isMissionExecution = events.countP isMissionExecution + 1 := by
      rw [List.countP_append]
      rfl
    apply RunsBy.running
    · exact hnext.trans hmore.symm
    · show next.countP isMissionExecution < 12
      omega
    · rw [List.mem_append, List.mem_singleton, not_or]
      exact ⟨hgoes, ThreadEvent.noConfusion⟩
    · exact hpending
    · exact Phase.noConfusion

theorem runsBy_turn {t : Thread} {events : List ThreadEvent} (h : RunsBy t events) :
    RunsBy t.turn.1 (events ++ (threadActivity (.turn, t.turn.2)).toList) := by
  cases h with
  | running hcount hfew hgoes hpending hphase =>
    cases h : t.phase with
    | update =>
      rw [turn_of_update h]
      exact runsBy_uncounted hcount hfew hgoes rfl hpending Phase.noConfusion rfl
        ThreadEvent.noConfusion
    | execute =>
      cases hcallback : t.manager.currentState.callback with
      | stateSurvivalFunction =>
        rw [turn_of_survival h hcallback]
        exact runsBy_uncounted hcount hfew hgoes rfl hpending Phase.noConfusion rfl
          ThreadEvent.noConfusion
      | stateMissionFunction =>
        have hmission := runsBy_mission hcount hfew hgoes hpending h hcallback
        have hactivity : (threadActivity (.turn, t.turn.2)).toList = [t.turn.2] := by
          simp only [Thread.turn, h]
          rfl
        rw [hactivity]
        exact hmission
    | sleep =>
      have hturn : t.turn = ({ t with phase := .update }, .slept) := by
        simp only [Thread.turn, h, hpending]
        rfl
      rw [hturn]
      exact runsBy_uncounted hcount hfew hgoes rfl hpending Phase.noConfusion rfl
        ThreadEvent.noConfusion
    | stopped => exact absurd h hphase
  | ending before hcount hbefore hgoes hevents hpending hphase =>
    -- the sleep is where the pending cancellation takes effect
    have hturn : t.turn = ({ t with phase := .stopped }, .cancelled) := by
      simp only [Thread.turn, hphase, hpending, Thread.cancel]
      rfl
    rw [hturn, hevents, List.append_assoc]
    exact RunsBy.ended before hcount hbefore hgoes rfl rfl
  | ended before hcount hbefore hgoes hevents hphase =>
    have hturn : t.turn = (t, .idle) := by
      simp only [Thread.turn, hphase]
    rw [hturn, hevents]
    exact RunsBy.ended before hcount hbefore hgoes (List.append_nil _) hphase

theorem runsBy_cancel {t : Thread} {events : List ThreadEvent} (h : RunsBy t events) :
    RunsBy t.cancel.1 (events ++ (threadActivity (.cancel, t.cancel.2)).toList) := by
  cases h with
  | running hcount hfew hgoes hpending hphase =>
    have hcancel : t.cancel = (t, .idle) := by
      rw [Thread.cancel, hpending, if_neg fun h => Bool.false_ne_true h.1]
    rw [hcancel]
    show RunsBy t (events ++ [])
    rw [List.append_nil]
    exact RunsBy.running hcount hfew hgoes hpending hphase
  | ending before hcount hbefore hgoes hevents hpending hphase =>
    have hcancel : t.cancel = ({ t with phase := .stopped }, .cancelled) := by
      rw [Thread.cancel, if_pos ⟨hpending, hphase.trans_ne Phase.noConfusion⟩]
    rw [hcancel, hevents, List.append_assoc]
    exact RunsBy.ended before hcount hbefore hgoes rfl rfl
  | ended before hcount hbefore hgoes hevents hphase =>
    have hcancel : t.cancel = (t, .idle) := by
      rw [Thread.cancel, if_neg fun h => h.2 hphase]
    rw [hcancel, hevents]
    exact RunsBy.ended before hcount hbefore hgoes (List.append_nil _) hphase

/-- A message changes the queue only. -/
theorem runsBy_produce {t : Thread} {events : List ThreadEvent} (h : RunsBy t events)
    (message : ℕ → UInt8) : RunsBy (threadSystem.step t (.produce message)).1 events := by
  cases h with
  | running hcount hfew hgoes hpending hphase =>
    exact RunsBy.running hcount hfew hgoes hpending hphase
  | ending before hcount hbefore hgoes hevents hpending hphase =>
    exact RunsBy.ending before hcount hbefore hgoes hevents hpending hphase
  | ended before hcount hbefore hgoes hevents hphase =>
    exact RunsBy.ended before hcount hbefore hgoes hevents hphase

theorem runsBy_step {t : Thread} {events : List ThreadEvent} (h : RunsBy t events)
    (i : ThreadStep) :
    RunsBy (threadSystem.step t i).1
      (events ++ (threadActivity (i, (threadSystem.step t i).2)).toList) := by
  cases i with
  | produce message =>
    have hnone : threadActivity
        (.produce message, (threadSystem.step t (.produce message)).2) = none := rfl
    rw [hnone, Option.toList_none, List.append_nil]
    exact runsBy_produce h message
  | turn => exact runsBy_turn h
  | cancel => exact runsBy_cancel h

/-- In every run of the thread from its start, with messages that arrive between any of its phases:
the mission counter is the number of mission executions, of which there are at most 12; before the
twelfth the thread is not cancelled; the twelfth is the last thing the thread does before it is
cancelled, and its next turn, the sleep of the same period, stops it. -/
theorem mission_run_length (commQueue : Queue) (mem : Memory) (steps : List ThreadStep) :
    let t := threadSystem.after (threadStart commQueue mem) steps
    let events := (threadSystem.trace (threadStart commQueue mem) steps).filterMap threadActivity
    t.missionCounter.toNat = events.countP isMissionExecution ∧
      events.countP isMissionExecution ≤ 12 ∧
      (events.countP isMissionExecution < 12 → .cancelled ∉ events ∧ t.phase ≠ .stopped) ∧
      (events.countP isMissionExecution = 12 → ∃ before, .cancelled ∉ before ∧
        (events = before ++ [lastExecution] ∧
            t.turn = ({ t with phase := .stopped }, .cancelled) ∨
          events = before ++ [lastExecution, .cancelled] ∧ t.phase = .stopped)) := by
  intro t events
  have hrun : RunsBy t events := by
    apply threadSystem.run_induction (P := fun t tr => RunsBy t (tr.filterMap threadActivity))
    · exact RunsBy.running rfl (by decide) List.not_mem_nil rfl Phase.noConfusion
    · intro t tr i h
      rw [List.filterMap_append]
      have hsingle : [(i, (threadSystem.step t i).2)].filterMap threadActivity =
          (threadActivity (i, (threadSystem.step t i).2)).toList := by
        rw [List.filterMap_cons]
        cases threadActivity (i, (threadSystem.step t i).2) <;> rfl
      rw [hsingle]
      exact runsBy_step h i
  clear_value t events
  cases hrun with
  | running hcount hfew hgoes hpending hphase =>
    exact ⟨hcount, hfew.le, fun _ => ⟨hgoes, hphase⟩, fun hall => absurd hall hfew.ne⟩
  | ending before hcount hbefore hgoes hevents hpending hphase =>
    have htwelve : events.countP isMissionExecution = 12 := by
      rw [hevents, List.countP_append, hbefore]
      rfl
    rw [htwelve]
    refine ⟨congrArg UInt8.toNat hcount, le_rfl, fun hless => absurd hless (lt_irrefl 12),
      fun _ => ⟨before, hgoes, Or.inl ⟨hevents, ?_⟩⟩⟩
    simp only [Thread.turn, hphase, hpending, Thread.cancel]
    rfl
  | ended before hcount hbefore hgoes hevents hphase =>
    have htwelve : events.countP isMissionExecution = 12 := by
      rw [hevents, List.countP_append, hbefore]
      rfl
    rw [htwelve]
    exact ⟨congrArg UInt8.toNat hcount, le_rfl, fun hless => absurd hless (lt_irrefl 12),
      fun _ => ⟨before, hgoes, Or.inr ⟨hevents, hphase⟩⟩⟩

/-- A thread that is sent to the mission in its first period, with a sleep at the end of each of
twelve periods. -/
theorem mission_run_length_twelve_periods :
    ∃ before, .cancelled ∉ before ∧
      (threadSystem.trace (threadStart Queue.zero ⟨fun _ => 0, []⟩)
        (.produce (fun i => [1, 2, 0].getD i 0) :: List.replicate 36 .turn)).filterMap
          threadActivity = before ++ [lastExecution, .cancelled] := by
  obtain ⟨-, -, -, htwelve⟩ := mission_run_length Queue.zero ⟨fun _ => 0, []⟩
    (.produce (fun i => [1, 2, 0].getD i 0) :: List.replicate 36 .turn)
  obtain ⟨before, hgoes, ⟨hevents, -⟩ | ⟨hevents, -⟩⟩ := htwelve (by decide +kernel)
  · -- the last sleep is part of the run
    have hlast := congrArg List.getLast? hevents
    rw [List.getLast?_concat] at hlast
    exact absurd hlast (by decide +kernel)
  · exact ⟨before, hgoes, hevents⟩

end CComplete.StateManager
