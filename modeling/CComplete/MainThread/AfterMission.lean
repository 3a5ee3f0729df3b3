import CComplete.MainThread.Commands

/-!
# The process after the mission

The twelfth mission execution ends the manager thread, and nothing else receives from the queue.
The server thread goes on: it accepts messages until three wait and loses every later one
(`after_mission`).
-/

set_option autoImplicit false

namespace CComplete.MainThread

open CComplete.Library CComplete.StaticQueue CComplete.StateManager CComplete.TcpServer

/-- What the manager thread did in a step. -/
def managerActivity : Step × Event → Option ThreadEvent
  | (_, .managed _ event) => threadActivity (.turn, event)
  | _ => none

/-- What every step preserves: in its loop, the manager thread runs as it does alone. -/
structure ManagerHistory (p : Process) (t : List (Step × Event)) : Prop where
  corresponds : ∃ s, Corresponds p s
  before : p.managerPhase ≠ .loop → t.filterMap managerActivity = []
  runs : p.managerPhase = .loop → RunsBy p.thread (t.filterMap managerActivity)

variable {p p' : Process} {t : List (Step × Event)}

theorem Corresponds.main_of_loop {s : List Bytes × StateId} (h : Corresponds p s)
    (hloop : p.managerPhase = .loop) : p.mainPhase = .join := by
  rcases h with ⟨hfresh, -⟩ | hready
  · exact absurd (hfresh.manager.symm.trans hloop) ManagerPhase.noConfusion
  · exact hready.created (hloop.trans_ne ManagerPhase.noConfusion)

theorem Corresponds.exists_turn {s : List Bytes × StateId} (h : Corresponds p s) (i : Step) :
    ∃ s', Corresponds (p.turn i).1 s' := (h.turn i).exists_rel

/-- A step that leaves the manager thread where it is, except for its queue. -/
theorem ManagerHistory.other (h : ManagerHistory p t) {i : Step} {e : Event}
    (hcorresponds : ∃ s, Corresponds p' s)
    (hloop : p'.managerPhase = .loop ↔ p.managerPhase = .loop)
    (hthread : ∀ events, RunsBy p.thread events → RunsBy p'.thread events)
    (hnone : managerActivity (i, e) = none) : ManagerHistory p' (t ++ [(i, e)]) := by
  have hsame : (t ++ [(i, e)]).filterMap managerActivity = t.filterMap managerActivity := by
    rw [Machine.filterMap_snoc, hnone, Option.toList_none, List.append_nil]
  refine ⟨hcorresponds, ?_, ?_⟩
  · rw [hsame]
    exact fun hno => h.before fun hphase => hno (hloop.2 hphase)
  · rw [hsame]
    exact fun hphase => hthread _ (h.runs (hloop.1 hphase))

theorem ManagerHistory.main (h : ManagerHistory p t) (ret : ℤ) :
    ManagerHistory (p.mainTurn ret).1 (t ++ [(.main ret, (p.mainTurn ret).2)]) := by
  obtain ⟨s, hs⟩ := h.corresponds
  have hnext : ∃ s', Corresponds (p.mainTurn ret).1 s' := hs.exists_turn (.main ret)
  by_cases hloop : p.managerPhase = .loop
  · -- `main` waits
    have hjoin : p.mainTurn ret = (p, .idle) := by
      simp only [Process.mainTurn, hs.main_of_loop hloop]
    rw [hjoin]
    exact h.other ⟨s, hs⟩ Iff.rfl (fun _ => id) rfl
  · have hnone : (p.mainTurn ret).1.managerPhase ≠ .loop ∧
        managerActivity (.main ret, (p.mainTurn ret).2) = none := by
      rw [Process.mainTurn]
      split
      · exact ⟨hloop, rfl⟩
      · exact ⟨hloop, rfl⟩
      · split <;> exact ⟨hloop, rfl⟩
      · split
        · exact ⟨ManagerPhase.noConfusion, rfl⟩
        · exact ⟨hloop, rfl⟩
      · exact ⟨hloop, rfl⟩
    refine ⟨hnext, fun _ => ?_, fun hno => absurd hno hnone.1⟩
    rw [Machine.filterMap_snoc, hnone.2, h.before hloop]
    rfl

theorem ManagerHistory.manager (h : ManagerHistory p t) :
    ManagerHistory p.managerTurn.1 (t ++ [(.manager, p.managerTurn.2)]) := by
  obtain ⟨s, hs⟩ := h.corresponds
  have hnext : ∃ s', Corresponds p.managerTurn.1 s' := hs.exists_turn .manager
  cases hphase : p.managerPhase with
  | notCreated =>
    have hidle : p.managerTurn = (p, .idle) := by simp only [Process.managerTurn, hphase]
    rw [hidle]
    exact h.other ⟨s, hs⟩ Iff.rfl (fun _ => id) rfl
  | created =>
    have hbefore := h.before (hphase.trans_ne ManagerPhase.noConfusion)
    simp only [Process.managerTurn, hphase] at hnext ⊢
    refine ⟨hnext, fun hno => absurd rfl hno, fun _ => ?_⟩
    rw [Machine.filterMap_snoc, hbefore]
    show RunsBy _ []
    exact RunsBy.running rfl (by decide) List.not_mem_nil rfl Phase.noConfusion
  | loop =>
    simp only [Process.managerTurn, hphase] at hnext ⊢
    refine ⟨hnext, fun hno => absurd rfl hno, fun _ => ?_⟩
    rw [Machine.filterMap_snoc]
    exact runsBy_turn (h.runs hphase)

theorem ManagerHistory.managerCancel (h : ManagerHistory p t) :
    ManagerHistory p.managerCancel.1 (t ++ [(.managerCancel, p.managerCancel.2)]) := by
  obtain ⟨s, hs⟩ := h.corresponds
  have hnext : ∃ s', Corresponds p.managerCancel.1 s' := hs.exists_turn .managerCancel
  by_cases hloop : p.managerPhase = .loop
  · simp only [Process.managerCancel, hloop] at hnext ⊢
    refine ⟨hnext, fun hno => absurd rfl hno, fun _ => ?_⟩
    rw [Machine.filterMap_snoc]
    have hcancel := runsBy_cancel (h.runs hloop)
    -- what the thread did does not depend on how the step is called
    have hsame : threadActivity (.cancel, p.thread.cancel.2) =
        threadActivity (.turn, p.thread.cancel.2) := by
      cases p.thread.cancel.2 <;> rfl
    rw [hsame] at hcancel
    exact hcancel
  · have hidle : p.managerCancel = (p, .idle) := by
      rw [Process.managerCancel]
      split
      · next hphase => exact absurd hphase hloop
      · rfl
    rw [hidle]
    exact h.other ⟨s, hs⟩ Iff.rfl (fun _ => id) rfl

theorem managerActivity_cancel (s : ServerThread) (i : Step) :
    managerActivity (i, s.cancel.2) = none := by
  rw [ServerThread.cancel]
  split <;> rfl

theorem managerActivity_serverCall (p : Process) (i : Step) (ret : ℤ) :
    managerActivity (i, (p.serverCall ret).2) = none := by
  simp only [Process.serverCall, ServerThread.call]
  split
  · rfl
  · rfl
  · rfl
  · split
    · exact managerActivity_cancel _ _
    · rfl
  · rfl

theorem managerActivity_serverRead (p : Process) (i : Step) (result : ReadResult) :
    managerActivity (i, (p.serverRead result).2) = none := by
  rw [Process.serverRead]
  split
  · split
    · exact managerActivity_cancel _ _
    · dsimp only
      split
      · rfl
      · split <;> rfl
  · rfl

theorem ManagerHistory.turn (h : ManagerHistory p t) (i : Step) :
    ManagerHistory (p.turn i).1 (t ++ [(i, (p.turn i).2)]) := by
  obtain ⟨s, hs⟩ := h.corresponds
  have hnext := hs.exists_turn i
  cases i with
  | main ret => exact h.main ret
  | serverCall ret =>
    exact h.other hnext Iff.rfl (fun _ => id) (managerActivity_serverCall p _ ret)
  | serverRead result =>
    have hnone := managerActivity_serverRead p (.serverRead result) result
    rcases serverRead_cases p result with
      ⟨server, stopped, hserver, -⟩ | ⟨server, printed, pItem, hserver, -⟩
    · apply h.other hnext _ _ hnone
      · rw [show (p.turn (.serverRead result)).1 = _ from hserver]
      · rw [show (p.turn (.serverRead result)).1 = _ from hserver]
        exact fun _ => id
    · apply h.other hnext _ _ hnone
      · rw [show (p.turn (.serverRead result)).1 = _ from hserver]
        exact Iff.rfl
      · rw [show (p.turn (.serverRead result)).1 = _ from hserver]
        exact fun events hruns => runsBy_produce hruns pItem
  | serverCancel =>
    exact h.other hnext Iff.rfl (fun _ => id) (managerActivity_cancel p.server _)
  | manager => exact h.manager
  | managerCancel => exact h.managerCancel

theorem ManagerHistory.step (h : ManagerHistory p t) (i : Step) :
    ManagerHistory (system.step p i).1 (t ++ [(i, (system.step p i).2)]) := by
  rcases system_step p i with hstep | hstep
  · rw [hstep]
    exact h.other h.corresponds Iff.rfl (fun _ => id) rfl
  · rw [hstep]
    exact h.turn i

theorem managerHistory_after (mem : Memory) (steps : List Step) :
    ManagerHistory (system.after (Process.start mem) steps)
      (system.trace (Process.start mem) steps) :=
  system.run_induction _
    ⟨⟨_, corresponds_start mem⟩, fun _ => rfl, fun hno => absurd hno ManagerPhase.noConfusion⟩
    (fun _ _ i h => h.step i) steps

/-! ## After the twelfth execution -/

/-- The manager thread is before its last sleep, or it has stopped. -/
structure MissionOver (p : Process) : Prop where
  corresponds : ∃ s, Corresponds p s
  loop : p.managerPhase = .loop
  phase : p.thread.phase = .sleep ∧ p.thread.cancelPending = true ∨ p.thread.phase = .stopped

theorem isUpdate_of_activity {e : Step × Event} (h : managerActivity e = none) :
    isUpdate e = false := by
  fun_cases isUpdate e with
  | case1 => cases h
  | case2 => rfl

/-- A step of another thread. -/
theorem MissionOver.other (h : MissionOver p) {e : Step × Event} (hnext : ∃ s, Corresponds p' s)
    (hloop : p'.managerPhase = p.managerPhase) (hphase : p'.thread.phase = p.thread.phase)
    (hpending : p'.thread.cancelPending = p.thread.cancelPending)
    (hnone : managerActivity e = none) : MissionOver p' ∧ isUpdate e = false := by
  refine ⟨⟨hnext, hloop.trans h.loop, ?_⟩, isUpdate_of_activity hnone⟩
  rw [hphase, hpending]
  exact h.phase

theorem MissionOver.turn (h : MissionOver p) (i : Step) :
    MissionOver (p.turn i).1 ∧ isUpdate (i, (p.turn i).2) = false := by
  obtain ⟨s, hs⟩ := h.corresponds
  have hnext := hs.exists_turn i
  cases i with
  | main ret =>
    have hjoin : p.turn (.main ret) = (p, .idle) := by
      simp only [Process.turn, Process.mainTurn, hs.main_of_loop h.loop]
    rw [hjoin]
    exact ⟨h, rfl⟩
  | serverCall ret => exact h.other hnext rfl rfl rfl (managerActivity_serverCall p _ ret)
  | serverRead result =>
    have hnone := managerActivity_serverRead p (.serverRead result) result
    rcases serverRead_cases p result with
      ⟨server, stopped, hserver, -⟩ | ⟨server, printed, pItem, hserver, -⟩
    all_goals
      have hturn : (p.turn (.serverRead result)).1 = _ := hserver
      rw [hturn] at hnext ⊢
      exact h.other hnext rfl rfl rfl hnone
  | serverCancel => exact h.other hnext rfl rfl rfl (managerActivity_cancel p.server _)
  | manager =>
    simp only [Process.turn, Process.managerTurn, h.loop] at hnext ⊢
    rcases h.phase with ⟨hsleep, hpending⟩ | hstopped
    · -- the sleep is where the cancellation takes effect
      have hturn : p.thread.turn = ({ p.thread with phase := .stopped }, .cancelled) := by
        simp only [Thread.turn, hsleep, hpending, Thread.cancel]
        rfl
      rw [hturn] at hnext ⊢
      exact ⟨⟨hnext, rfl, Or.inr rfl⟩, rfl⟩
    · have hturn : p.thread.turn = (p.thread, .idle) := by
        simp only [Thread.turn, hstopped]
      rw [hturn] at hnext ⊢
      exact ⟨⟨hnext, rfl, Or.inr hstopped⟩, rfl⟩
  | managerCancel =>
    simp only [Process.turn, Process.managerCancel, h.loop, Thread.cancel] at hnext ⊢
    split at hnext
    · next hcancel =>
      rw [if_pos hcancel]
      exact ⟨⟨hnext, rfl, Or.inr rfl⟩, rfl⟩
    · next hcancel =>
      rw [if_neg hcancel]
      exact ⟨⟨hnext, rfl, h.phase⟩, rfl⟩

theorem MissionOver.step (h : MissionOver p) (i : Step) :
    MissionOver (system.step p i).1 ∧ isUpdate (i, (system.step p i).2) = false := by
  rcases system_step p i with hstep | hstep
  · rw [hstep]
    exact ⟨h, rfl⟩
  · rw [hstep]
    exact h.turn i

theorem filterMap_handledMessage_eq_nil (hnone : ∀ e ∈ t, isUpdate e = false) :
    t.filterMap handledMessage = [] := by
  rw [List.filterMap_eq_nil_iff]
  intro e he
  have hupdate := hnone e he
  fun_cases handledMessage e with
  | case1 => cases hupdate
  | case2 => rfl

/-- The mission callback is executed at most twelve times in any run of the process. After the
twelfth execution no message is received any more, and in every continuation the server's
`queue_send` accepts the first messages until three wait and loses all the others. -/
theorem after_mission (mem : Memory) (before later : List Step) :
    let p := system.after (Process.start mem) before
    let n := ((system.trace (Process.start mem) before).filterMap managerActivity).countP
      isMissionExecution
    let t := system.trace p later
    n ≤ 12 ∧ (n = 12 → t.filterMap handledMessage = [] ∧
      t.filterMap acceptedMessage =
        (t.filterMap sentMessage).take (3 - p.commQueue.waitingMessages.toNat)) := by
  intro p n t
  have h := managerHistory_after mem before
  obtain ⟨s, hs⟩ := h.corresponds
  have hover : n ≤ 12 ∧ (n = 12 → MissionOver p) := by
    by_cases hloop : p.managerPhase = .loop
    · cases h.runs hloop with
      | running hcount hfew => exact ⟨hfew.le, fun hall => absurd hall hfew.ne⟩
      | ending events hcount hbefore hgoes hevents hpending hphase =>
        refine ⟨?_, fun _ => ⟨⟨s, hs⟩, hloop, Or.inl ⟨hphase, hpending⟩⟩⟩
        simp only [n, hevents, List.countP_append, hbefore]
        exact le_rfl
      | ended events hcount hbefore hgoes hevents hphase =>
        refine ⟨?_, fun _ => ⟨⟨s, hs⟩, hloop, Or.inr hphase⟩⟩
        simp only [n, hevents, List.countP_append, hbefore]
        exact le_rfl
    · have hzero : n = 0 := by
        simp only [n, h.before hloop]
        rfl
      rw [hzero]
      exact ⟨Nat.zero_le _, fun hno => absurd hno (by decide)⟩
  refine ⟨hover.1, fun htwelve => ?_⟩
  have hnone : ∀ e ∈ t, isUpdate e = false :=
    system.forall_mem_trace (hover.2 htwelve) (fun _ i hp => hp.step i) later
  exact ⟨filterMap_handledMessage_eq_nil hnone, hs.burst hnone⟩

/-- A command to go to the mission, and the periods of the manager thread to the end of the
mission. -/
def mission : List Step :=
  connecting ++ .serverRead (some [1, 2, 0]) :: List.replicate 36 .manager

/-- Of four commands after the mission, the last one is lost. -/
theorem after_mission_fourth :
    (system.trace (system.after (Process.start ⟨fun _ => 0, []⟩) mission)
      (List.replicate 4 (.serverRead (some [1, 1, 0])))).filterMap acceptedMessage =
        List.replicate 3 [1, 1, 0] :=
  ((after_mission ⟨fun _ => 0, []⟩ mission
    (List.replicate 4 (.serverRead (some [1, 1, 0])))).2 (by decide +kernel)).2.trans
      (by decide +kernel)

end CComplete.MainThread
