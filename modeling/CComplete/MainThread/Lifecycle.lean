import CComplete.MainThread.Model

/-!
# When the server thread sends

The server thread makes its system calls in one order, each once. One that does not pass its check
cancels the thread, but the cancellation waits for a cancellation point, so the calls after it are
still made up to `accept`. What the loop gives to `queue_send` was read from a connection that was accepted after
calls that passed their checks, on a thread that never lost its client
(`send_only_when_connected`). `main` sets the queue of the handler before it creates the thread.
-/

set_option autoImplicit false

namespace CComplete.MainThread

open CComplete.Library CComplete.StaticQueue CComplete.StateManager CComplete.TcpServer

/-- The value returned by a system call before the loop passes the check of the thread. The check of
`socket` is against 0 only, so the -1 of a failed `socket` passes. -/
def SystemCall.PassesCheck : SystemCall × ℤ → Prop
  | (.socket, ret) => ret ≠ 0
  | (_, ret) => 0 ≤ ret

/-- The calls that lead to a connection, with the values returned. -/
def connectingCalls (port : UInt16) (serverFd bound listening newSocket : ℤ) :
    List (SystemCall × ℤ) :=
  [(.socket, serverFd), (.bind serverFd port, bound), (.listen serverFd 3, listening),
    (.accept serverFd, newSocket)]

/-- The entry shows that the server thread lost its client or ended. -/
def isServerEnd : Step × Event → Bool
  | (_, .served _ .clientLost) => true
  | (_, .serverEnded) => true
  | _ => false

/-- Number of calls made in a phase before the loop. -/
def ServerPhase.callsMade : ServerPhase → ℕ
  | .notCreated => 0
  | .socket => 0
  | .bind => 1
  | .listen => 2
  | .accept => 3
  | .loop => 4
  | .ended => 4

/-- What every step preserves: the calls made so far are the first ones of `connectingCalls`, and
while no cancellation is pending they all passed their checks and nothing ended the thread. -/
structure ServerHistory (p : Process) (t : List (Step × Event)) : Prop where
  created : p.server.phase ≠ .notCreated →
    (p.mainPhase = .createManager ∨ p.mainPhase = .join) ∧
      p.handler = { port := 8080, outputQueueSet := true }
  init : p.mainPhase = .createServer → p.handler = { port := 8080, outputQueueSet := true }
  fresh : p.server.phase = .notCreated → p.server.cancelPending = false
  calls : p.server.phase ≠ .ended → ∃ bound listening,
    t.filterMap systemCall = (connectingCalls 8080 p.server.serverFd bound listening
      p.server.newSocket).take p.server.phase.callsMade
  running : p.server.cancelPending = false →
    (∀ call ∈ t.filterMap systemCall, SystemCall.PassesCheck call) ∧ ∀ e ∈ t, isServerEnd e = false
  ended : p.server.phase = .ended → p.server.cancelPending = true

variable {p p' : Process} {t : List (Step × Event)}

theorem filterMap_snoc_of_none {e : Step × Event} (h : systemCall e = none) :
    (t ++ [e]).filterMap systemCall = t.filterMap systemCall := by
  rw [Machine.filterMap_snoc, h, Option.toList_none, List.append_nil]

/-- A step that leaves the server thread alone. -/
theorem ServerHistory.other (h : ServerHistory p t) {e : Step × Event}
    (hserver : p'.server = p.server)
    (hcreated : p.server.phase ≠ .notCreated →
      (p'.mainPhase = .createManager ∨ p'.mainPhase = .join) ∧ p'.handler = p.handler)
    (hinit : p'.mainPhase = .createServer → p'.handler = { port := 8080, outputQueueSet := true })
    (hcall : systemCall e = none) (hend : isServerEnd e = false) :
    ServerHistory p' (t ++ [e]) where
  created := by
    rw [hserver]
    exact fun hphase => ⟨(hcreated hphase).1, (hcreated hphase).2.trans (h.created hphase).2⟩
  init := hinit
  fresh := hserver ▸ h.fresh
  calls := by
    rw [hserver, filterMap_snoc_of_none hcall]
    exact h.calls
  running := by
    rw [hserver, filterMap_snoc_of_none hcall]
    intro hpending
    obtain ⟨hcalls, hends⟩ := h.running hpending
    exact ⟨hcalls, List.forall_mem_append.2 ⟨hends, List.forall_mem_singleton.2 hend⟩⟩
  ended := hserver ▸ h.ended

/-- A system call of the server thread. -/
theorem ServerHistory.called (h : ServerHistory p t) {s : ServerThread} {i : Step}
    {call : SystemCall} {ret : ℤ} (hcreated : p.server.phase ≠ .notCreated)
    (hphase : s.phase ≠ .notCreated) (hlive : s.phase ≠ .ended)
    (hcalls : ∃ bound listening, t.filterMap systemCall ++ [(call, ret)] =
      (connectingCalls 8080 s.serverFd bound listening s.newSocket).take s.phase.callsMade)
    (hpending : s.cancelPending = false →
      p.server.cancelPending = false ∧ SystemCall.PassesCheck (call, ret)) :
    ServerHistory { p with server := s } (t ++ [(i, .called call ret)]) where
  created := fun _ => h.created hcreated
  init := h.init
  fresh := fun hno => absurd hno hphase
  calls := fun _ => by
    rw [List.filterMap_append]
    exact hcalls
  running := fun hs => by
    obtain ⟨hrun, hpasses⟩ := hpending hs
    obtain ⟨hall, hends⟩ := h.running hrun
    rw [List.filterMap_append]
    exact ⟨List.forall_mem_append.2 ⟨hall, List.forall_mem_singleton.2 hpasses⟩,
      List.forall_mem_append.2 ⟨hends, List.forall_mem_singleton.2 rfl⟩⟩
  ended := fun hno => absurd hno hlive

/-- A cancellation of the server thread. -/
theorem ServerHistory.cancel (h : ServerHistory p t) (i : Step) :
    ServerHistory { p with server := p.server.cancel.1 } (t ++ [(i, p.server.cancel.2)]) := by
  rw [ServerThread.cancel]
  split
  · next hpending =>
    have hcreated : p.server.phase ≠ .notCreated := fun hno => by
      rw [h.fresh hno] at hpending
      exact Bool.false_ne_true hpending.1
    exact
      { created := fun _ => h.created hcreated
        init := h.init
        fresh := ServerPhase.noConfusion
        calls := fun hno => absurd rfl hno
        running := fun hno => absurd (hpending.1.symm.trans hno) Bool.noConfusion
        ended := fun _ => hpending.1 }
  · exact h.other rfl (fun hphase => ⟨(h.created hphase).1, rfl⟩) h.init rfl rfl

theorem cancelIf_pending {s : ServerThread} {failed : Bool}
    (h : (s.cancelIf failed).cancelPending = false) : s.cancelPending = false ∧ failed = false :=
  Bool.or_eq_false_iff.1 h

theorem ServerHistory.serverCall (h : ServerHistory p t) (i : Step) (ret : ℤ) :
    ServerHistory (p.serverCall ret).1 (t ++ [(i, (p.serverCall ret).2)]) := by
  have hidle : ServerHistory p (t ++ [(i, .idle)]) :=
    h.other rfl (fun hphase => ⟨(h.created hphase).1, rfl⟩) h.init rfl rfl
  cases hphase : p.server.phase with
  | socket =>
    have hcreated := hphase.trans_ne (ServerPhase.noConfusion : _ ≠ ServerPhase.notCreated)
    obtain ⟨bound, listening, hcalls⟩ := h.calls (hphase.trans_ne ServerPhase.noConfusion)
    rw [hphase] at hcalls
    simp only [Process.serverCall, ServerThread.call, hphase]
    refine h.called hcreated ?_ ?_ ⟨bound, listening, ?_⟩ fun hs => ?_
    · exact ServerPhase.noConfusion
    · exact ServerPhase.noConfusion
    · rw [hcalls]
      rfl
    · obtain ⟨hrun, hret⟩ := cancelIf_pending hs
      exact ⟨hrun, of_decide_eq_false hret⟩
  | bind =>
    have hcreated := hphase.trans_ne (ServerPhase.noConfusion : _ ≠ ServerPhase.notCreated)
    obtain ⟨bound, listening, hcalls⟩ := h.calls (hphase.trans_ne ServerPhase.noConfusion)
    rw [hphase] at hcalls
    simp only [Process.serverCall, ServerThread.call, hphase]
    refine h.called hcreated ?_ ?_ ⟨ret, listening, ?_⟩ fun hs => ?_
    · exact ServerPhase.noConfusion
    · exact ServerPhase.noConfusion
    · rw [hcalls, (h.created hcreated).2]
      rfl
    · obtain ⟨hrun, hret⟩ := cancelIf_pending hs
      exact ⟨hrun, Int.not_lt.1 (of_decide_eq_false hret)⟩
  | listen =>
    have hcreated := hphase.trans_ne (ServerPhase.noConfusion : _ ≠ ServerPhase.notCreated)
    obtain ⟨bound, listening, hcalls⟩ := h.calls (hphase.trans_ne ServerPhase.noConfusion)
    rw [hphase] at hcalls
    simp only [Process.serverCall, ServerThread.call, hphase]
    refine h.called hcreated ?_ ?_ ⟨bound, ret, ?_⟩ fun hs => ?_
    · exact ServerPhase.noConfusion
    · exact ServerPhase.noConfusion
    · rw [hcalls]
      rfl
    · obtain ⟨hrun, hret⟩ := cancelIf_pending hs
      exact ⟨hrun, Int.not_lt.1 (of_decide_eq_false hret)⟩
  | accept =>
    have hcreated := hphase.trans_ne (ServerPhase.noConfusion : _ ≠ ServerPhase.notCreated)
    obtain ⟨bound, listening, hcalls⟩ := h.calls (hphase.trans_ne ServerPhase.noConfusion)
    rw [hphase] at hcalls
    by_cases hpending : p.server.cancelPending = true
    · -- the thread ends before the call is made
      simp only [Process.serverCall, ServerThread.call, hphase, hpending, if_true]
      exact h.cancel i
    · have hrun : p.server.cancelPending = false := Bool.eq_false_iff.2 hpending
      simp only [Process.serverCall, ServerThread.call, hphase, hrun]
      refine h.called hcreated ?_ ?_ ⟨bound, listening, ?_⟩ fun hs => ?_
      · exact ServerPhase.noConfusion
      · exact ServerPhase.noConfusion
      · rw [hcalls]
        rfl
      · exact ⟨hrun, Int.not_lt.1 (of_decide_eq_false (cancelIf_pending hs).2)⟩
  | _ =>
    simp only [Process.serverCall, ServerThread.call, hphase]
    exact hidle

/-- A turn of the loop on a thread without a pending cancellation. -/
theorem ServerHistory.served (h : ServerHistory p t) {e : Step × Event} {buffer : Bytes}
    {lost : Bool} (hphase : p.server.phase = .loop) (hrunning : p.server.cancelPending = false)
    (hmain : p'.mainPhase = p.mainPhase) (hhandler : p'.handler = p.handler)
    (hserver : p'.server = { p.server with buffer := buffer, cancelPending := lost })
    (hcall : systemCall e = none) (hend : lost = false → isServerEnd e = false) :
    ServerHistory p' (t ++ [e]) where
  created := fun _ => by
    rw [hmain, hhandler]
    exact h.created (hphase.trans_ne ServerPhase.noConfusion)
  init := by
    rw [hmain, hhandler]
    exact h.init
  fresh := fun hno => by
    rw [hserver] at hno
    exact absurd (hphase.symm.trans hno) ServerPhase.noConfusion
  calls := by
    rw [hserver, filterMap_snoc_of_none hcall]
    exact h.calls
  running := by
    rw [hserver, filterMap_snoc_of_none hcall]
    intro hlost
    obtain ⟨hcalls, hends⟩ := h.running hrunning
    exact ⟨hcalls, List.forall_mem_append.2 ⟨hends, List.forall_mem_singleton.2 (hend hlost)⟩⟩
  ended := fun hno => by
    rw [hserver] at hno
    exact absurd (hphase.symm.trans hno) ServerPhase.noConfusion

/-- A turn of the loop: the client is lost, or a message is given to `queue_send`. -/
theorem ServerHistory.serverRead (h : ServerHistory p t) (i : Step) (result : ReadResult) :
    ServerHistory (p.serverRead result).1 (t ++ [(i, (p.serverRead result).2)]) := by
  rw [Process.serverRead]
  split
  · next hphase =>
    have hcreated := hphase.trans_ne (ServerPhase.noConfusion : _ ≠ ServerPhase.notCreated)
    split
    · exact h.cancel i
    · next hpending =>
      have hrunning : p.server.cancelPending = false := Bool.eq_false_iff.2 hpending
      dsimp only
      split
      · exact h.other rfl (fun hphase => ⟨(h.created hphase).1, rfl⟩) h.init rfl rfl
      · next hturn =>
        split
        -- `main` gave the queue to the handler before it created the thread
        · next hnull =>
          rw [(h.created hcreated).2] at hnull
          exact absurd rfl hnull.1
        · rcases threadTurn_cases rfl hturn with ⟨-, rfl, rfl⟩ | ⟨printed, pItem, rfl, rfl⟩
          · exact h.served hphase hrunning rfl rfl rfl rfl Bool.noConfusion
          · exact h.served hphase hrunning rfl rfl rfl rfl fun _ => rfl
  · exact h.other rfl (fun hphase => ⟨(h.created hphase).1, rfl⟩) h.init rfl rfl

theorem ServerHistory.main (h : ServerHistory p t) (i : Step) (ret : ℤ) :
    ServerHistory (p.mainTurn ret).1 (t ++ [(i, (p.mainTurn ret).2)]) := by
  -- before `main` creates the server thread it is not there
  have hnone : p.mainPhase ≠ .createManager → p.mainPhase ≠ .join → p.server.phase = .notCreated :=
    fun hmanager hjoin => by
      by_contra hcreated
      exact (h.created hcreated).1.elim hmanager hjoin
  cases hphase : p.mainPhase with
  | createQueue =>
    have hserver := hnone (hphase.trans_ne MainPhase.noConfusion)
      (hphase.trans_ne MainPhase.noConfusion)
    simp only [Process.mainTurn, hphase]
    exact h.other rfl (fun hno => absurd hserver hno) MainPhase.noConfusion rfl rfl
  | init =>
    have hserver := hnone (hphase.trans_ne MainPhase.noConfusion)
      (hphase.trans_ne MainPhase.noConfusion)
    simp only [Process.mainTurn, hphase]
    exact h.other rfl (fun hno => absurd hserver hno) (fun _ => rfl) rfl rfl
  | createServer =>
    have hserver := hnone (hphase.trans_ne MainPhase.noConfusion)
      (hphase.trans_ne MainPhase.noConfusion)
    obtain ⟨bound, listening, hcalls⟩ := h.calls (hserver.trans_ne ServerPhase.noConfusion)
    rw [hserver] at hcalls
    simp only [Process.mainTurn, hphase]
    split
    · exact
        { created := fun _ => ⟨Or.inl rfl, h.init hphase⟩
          init := MainPhase.noConfusion
          fresh := ServerPhase.noConfusion
          calls := fun _ => ⟨bound, listening, by
            rw [filterMap_snoc_of_none rfl, hcalls]
            rfl⟩
          running := fun _ => by
            obtain ⟨hpass, hends⟩ := h.running (h.fresh hserver)
            rw [filterMap_snoc_of_none rfl]
            exact ⟨hpass,
              List.forall_mem_append.2 ⟨hends, List.forall_mem_singleton.2 rfl⟩⟩
          ended := ServerPhase.noConfusion }
    · exact h.other rfl (fun hno => absurd hserver hno) MainPhase.noConfusion rfl rfl
  | createManager =>
    simp only [Process.mainTurn, hphase]
    split
    all_goals exact h.other rfl (fun _ => ⟨Or.inr rfl, rfl⟩) MainPhase.noConfusion rfl rfl
  | join =>
    simp only [Process.mainTurn, hphase]
    exact h.other rfl (fun _ => ⟨Or.inr hphase, rfl⟩) h.init rfl rfl

/-- Nothing that the manager thread does concerns the server thread. -/
theorem ServerHistory.manager (h : ServerHistory p t) (i : Step) :
    ServerHistory p.managerTurn.1 (t ++ [(i, p.managerTurn.2)]) ∧
      ServerHistory p.managerCancel.1 (t ++ [(i, p.managerCancel.2)]) := by
  have hsame : p.server.phase ≠ .notCreated →
      (p.mainPhase = .createManager ∨ p.mainPhase = .join) ∧ p.handler = p.handler :=
    fun hphase => ⟨(h.created hphase).1, rfl⟩
  rw [Process.managerTurn, Process.managerCancel]
  cases p.managerPhase with
  | notCreated => exact ⟨h.other rfl hsame h.init rfl rfl, h.other rfl hsame h.init rfl rfl⟩
  | created => exact ⟨h.other rfl hsame h.init rfl rfl, h.other rfl hsame h.init rfl rfl⟩
  | loop => exact ⟨h.other rfl hsame h.init rfl rfl, h.other rfl hsame h.init rfl rfl⟩

theorem ServerHistory.turn (h : ServerHistory p t) (i : Step) :
    ServerHistory (p.turn i).1 (t ++ [(i, (p.turn i).2)]) := by
  cases i with
  | main ret => exact h.main _ ret
  | serverCall ret => exact h.serverCall _ ret
  | serverRead result => exact h.serverRead _ result
  | serverCancel => exact h.cancel _
  | manager => exact (h.manager _).1
  | managerCancel => exact (h.manager _).2

theorem ServerHistory.step (h : ServerHistory p t) (i : Step) :
    ServerHistory (system.step p i).1 (t ++ [(i, (system.step p i).2)]) := by
  rcases system_step p i with hstep | hstep
  · rw [hstep]
    exact h.other rfl (fun hphase => ⟨(h.created hphase).1, rfl⟩) h.init rfl rfl
  · rw [hstep]
    exact h.turn i

theorem serverHistory_start (mem : Memory) : ServerHistory (Process.start mem) [] where
  created := fun hno => absurd rfl hno
  init := MainPhase.noConfusion
  fresh := fun _ => rfl
  calls := fun _ => ⟨0, 0, rfl⟩
  running := fun _ => ⟨fun _ hno => absurd hno List.not_mem_nil,
    fun _ hno => absurd hno List.not_mem_nil⟩
  ended := ServerPhase.noConfusion

theorem serverHistory_after (mem : Memory) (steps : List Step) :
    ServerHistory (system.after (Process.start mem) steps)
      (system.trace (Process.start mem) steps) :=
  system.run_induction _ (serverHistory_start mem) (fun _ _ i h => h.step i) steps

/-- Where the next step gives a message to `queue_send`, the thread is in its loop with no pending
cancellation, and the message was read from its socket. -/
theorem served_of_sent {i : Step} {fd : ℤ} {printed : UInt32} {pItem : ℕ → UInt8} {code : ℤ}
    (h : (system.step p i).2 = .served fd (.sent printed pItem code)) :
    p.server.phase = .loop ∧ p.server.cancelPending = false ∧ fd = p.server.newSocket := by
  rcases system_step p i with hstep | hstep
  · rw [hstep] at h
    cases h
  rw [hstep] at h
  cases i with
  | serverRead result =>
    simp only [Process.turn, Process.serverRead] at h
    split at h
    · next hphase =>
      split at h
      · rw [ServerThread.cancel] at h
        split at h <;> cases h
      · next hpending =>
        split at h
        · cases h
        · split at h
          · cases h
          · exact ⟨hphase, Bool.eq_false_iff.2 hpending, (Event.served.inj h).1.symm⟩
    · cases h
  | main ret =>
    simp only [Process.turn, Process.mainTurn] at h
    split at h
    all_goals first | cases h | (split at h <;> cases h)
  | serverCall ret =>
    simp only [Process.turn, Process.serverCall, ServerThread.call, ServerThread.cancel] at h
    split at h
    all_goals first | cases h | (split at h <;> first | cases h | (split at h <;> cases h))
  | serverCancel =>
    simp only [Process.turn, ServerThread.cancel] at h
    split at h <;> cases h
  | manager =>
    simp only [Process.turn, Process.managerTurn] at h
    split at h <;> cases h
  | managerCancel =>
    simp only [Process.turn, Process.managerCancel] at h
    split at h <;> cases h

/-- The loop of the server thread is entered with the queue set. -/
theorem ServerHistory.serverRead_ne_nullQueue (h : ServerHistory p t) (result : ReadResult) :
    (p.serverRead result).2 ≠ .nullQueue := by
  rw [Process.serverRead]
  split
  · next hphase =>
    have hcreated := hphase.trans_ne (ServerPhase.noConfusion : _ ≠ ServerPhase.notCreated)
    split
    · rw [ServerThread.cancel]
      split <;> exact Event.noConfusion
    · dsimp only
      split
      · exact Event.noConfusion
      · rw [(h.created hcreated).2, if_neg fun hno => hno.1 rfl]
        exact Event.noConfusion
  · exact Event.noConfusion

/-- In every interleaving of `main` and its threads, no turn of the server's loop sends through a
null pointer, and when the next step gives a message read from a socket to `queue_send`: the server
thread made exactly the calls `socket`, `bind` to port 8080, `listen` and `accept`, in this order
and on the descriptors they returned; `socket` did not return 0 and none of the others returned a
negative value; the socket is the one that `accept` returned, and the thread neither lost its client
nor ended before. -/
theorem send_only_when_connected (mem : Memory) (steps : List Step) :
    let p := system.after (Process.start mem) steps
    let t := system.trace (Process.start mem) steps
    (∀ result, (p.serverRead result).2 ≠ .nullQueue) ∧
      ∀ i fd printed pItem code, (system.step p i).2 = .served fd (.sent printed pItem code) →
        (∃ serverFd bound listening,
          t.filterMap systemCall = connectingCalls 8080 serverFd bound listening fd ∧
            serverFd ≠ 0 ∧ 0 ≤ bound ∧ 0 ≤ listening ∧ 0 ≤ fd) ∧
          ∀ e ∈ t, isServerEnd e = false := by
  intro p t
  have h : ServerHistory p t := serverHistory_after mem steps
  refine ⟨h.serverRead_ne_nullQueue, ?_⟩
  intro i fd printed pItem code hsent
  obtain ⟨hphase, hrunning, rfl⟩ := served_of_sent hsent
  obtain ⟨bound, listening, hcalls⟩ := h.calls (hphase.trans_ne ServerPhase.noConfusion)
  obtain ⟨hpass, hends⟩ := h.running hrunning
  rw [hphase] at hcalls
  have hall : t.filterMap systemCall = connectingCalls 8080 p.server.serverFd bound listening
      p.server.newSocket := hcalls
  rw [hall] at hpass
  simp only [connectingCalls, List.forall_mem_cons] at hpass
  obtain ⟨hsocket, hbind, hlisten, haccept, -⟩ := hpass
  exact ⟨⟨p.server.serverFd, bound, listening, hall, hsocket, hbind, hlisten, haccept⟩, hends⟩

/-- A first message from descriptor 4. -/
theorem send_only_when_connected_first :
    ∃ serverFd bound listening,
      (system.trace (Process.start ⟨fun _ => 0, []⟩) connecting).filterMap systemCall =
          connectingCalls 8080 serverFd bound listening 4 ∧
        serverFd ≠ 0 ∧ 0 ≤ bound ∧ 0 ≤ listening ∧ (0 : ℤ) ≤ 4 :=
  ((send_only_when_connected ⟨fun _ => 0, []⟩ connecting).2 (.serverRead (some [1, 2, 0])) 4 3
    (fun i => (overlay [1, 2, 0] (List.replicate maxStreamBufferSize 0)).getD i 0) 0 rfl).1

end CComplete.MainThread
