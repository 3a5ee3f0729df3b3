import CComplete.MainThread.Model
import CComplete.StateManager.Refinement
import CComplete.StateManager.RunLength
import CComplete.StaticQueue.Printing

/-!
# Commands from the client to the state manager

In every interleaving of `main` and its threads, the process is a bounded FIFO between the server
and a reader that folds the transition table over what it receives (`commandSimulation`). The
manager thread creates the queue a second time, when messages may wait in it already; this leaves
them there (`process_accepted_eq`). From the simulation follow how long a message waits and what a
burst of messages loses.
-/

set_option autoImplicit false

namespace CComplete.MainThread

open CComplete.Library CComplete.StaticQueue CComplete.StateManager CComplete.TcpServer

/-! ## The abstract reader -/

/-- The state manager as a reader of messages: the waiting ones, and the current state. -/
abbrev commandReader : Machine (List Bytes × StateId) (FifoIn Bytes) (FifoOut Bytes) :=
  fifoReader transition commQueueSize.toNat

/-- The step of the reader that an entry of the process shows. -/
def commandView : Step × Event → Option (FifoIn Bytes × FifoOut Bytes)
  | (_, .served _ (.sent _ pItem code)) =>
      some (.send (bufferBytes pItem commQueueSize.toNat), .sent (code = 0))
  | (_, .managed message (.updated _)) => some (.receive, .received message)
  | _ => none

/-- The process before `main` created the queue. -/
structure Fresh (p : Process) : Prop where
  main : p.mainPhase = .createQueue
  server : p.server.phase = .notCreated
  running : p.server.cancelPending = false
  manager : p.managerPhase = .notCreated
  queue : p.commQueue = Queue.zero
  state : p.thread.manager.currentState = survivalState

/-- The process with a created queue in which `waiting` waits, in the state `state`. -/
structure Ready (p : Process) (waiting : List Bytes) (state : StateId) : Prop where
  main : p.mainPhase ≠ .createQueue
  created : p.managerPhase ≠ .notCreated → p.mainPhase = .join
  queue : ∃ r, Represents commSizes r p.commQueue p.mem waiting
  map : p.managerPhase = .loop → p.thread.manager.stateMap = registry
  before : p.managerPhase ≠ .loop → state = stateESurvival
  registered : p.thread.manager.currentState ∈ registry
  stateId : p.thread.manager.currentState.stateId = state

variable {p p' : Process} {waiting : List Bytes} {state : StateId}

/-- A step that leaves the manager alone keeps what the process is ready for. -/
theorem Ready.congr (h : Ready p waiting state) (hmain : p'.mainPhase ≠ .createQueue)
    (hcreated : p'.managerPhase ≠ .notCreated → p'.mainPhase = .join)
    (hloop : p'.managerPhase = .loop ↔ p.managerPhase = .loop)
    (hmanager : p'.thread.manager = p.thread.manager) : Ready p' waiting state where
  main := hmain
  created := hcreated
  queue := by
    simp only [Process.commQueue, Process.mem, hmanager]
    exact h.queue
  map := fun hphase => by
    rw [hmanager]
    exact h.map (hloop.1 hphase)
  before := fun hphase => h.before fun hno => hphase (hloop.2 hno)
  registered := hmanager ▸ h.registered
  stateId := hmanager ▸ h.stateId

/-! ## One step of `main` -/

/-- Before its threads are created, only `main` does anything. -/
theorem Fresh.turn_eq (h : Fresh p) {i : Step} (hi : ∀ ret, i ≠ .main ret) :
    p.turn i = (p, .idle) := by
  cases i with
  | main ret => exact absurd rfl (hi ret)
  | serverCall ret => simp only [Process.turn, Process.serverCall, ServerThread.call, h.server]
  | serverRead result => simp [Process.turn, Process.serverRead, h.server]
  | serverCancel => simp [Process.turn, ServerThread.cancel, h.running]
  | manager => simp only [Process.turn, Process.managerTurn, h.manager]
  | managerCancel => simp only [Process.turn, Process.managerCancel, h.manager]

theorem Fresh.mainTurn (h : Fresh p) (ret : ℤ) :
    Ready (p.mainTurn ret).1 [] stateESurvival ∧ (p.mainTurn ret).2 = .mainCreatedQueue 0 := by
  have hcreate : createQueue p.commQueue 3 3 = (0, createdQueue 3 3) :=
    createQueue_eq commSizes (by rw [h.queue]; rfl)
  simp only [Process.mainTurn, h.main, hcreate]
  refine ⟨?_, trivial⟩
  exact
    { main := MainPhase.noConfusion
      created := fun hno => absurd h.manager hno
      queue := ⟨_, represents_created commSizes _⟩
      map := fun hno => absurd (h.manager.symm.trans hno) ManagerPhase.noConfusion
      before := fun _ => rfl
      registered := by
        simp only [Process.withQueue, h.state]
        exact List.mem_cons_self
      stateId := congrArg State.stateId h.state }

theorem Ready.mainTurn (h : Ready p waiting state) (ret : ℤ) :
    Ready (p.mainTurn ret).1 waiting state ∧
      commandView (.main ret, (p.mainTurn ret).2) = none := by
  have hnone : p.mainPhase ≠ .join → p.managerPhase = .notCreated := fun hno => by
    by_contra hcreated
    exact hno (h.created hcreated)
  cases hphase : p.mainPhase with
  | createQueue => exact absurd hphase h.main
  | init =>
    have hmanager := hnone (hphase.trans_ne MainPhase.noConfusion)
    simp only [Process.mainTurn, hphase]
    exact ⟨h.congr MainPhase.noConfusion (fun hno => absurd hmanager hno) Iff.rfl rfl,
      rfl⟩
  | createServer =>
    have hmanager := hnone (hphase.trans_ne MainPhase.noConfusion)
    simp only [Process.mainTurn, hphase]
    split
    all_goals
      exact ⟨h.congr MainPhase.noConfusion (fun hno => absurd hmanager hno) Iff.rfl rfl,
        rfl⟩
  | createManager =>
    have hmanager := hnone (hphase.trans_ne MainPhase.noConfusion)
    simp only [Process.mainTurn, hphase]
    split
    · refine ⟨h.congr MainPhase.noConfusion (fun _ => rfl) ?_ rfl, rfl⟩
      rw [hmanager]
      exact ⟨ManagerPhase.noConfusion, ManagerPhase.noConfusion⟩
    · exact ⟨h.congr MainPhase.noConfusion (fun _ => rfl) Iff.rfl rfl, rfl⟩
  | join =>
    simp only [Process.mainTurn, hphase]
    exact ⟨h, rfl⟩

/-! ## One step of the server thread -/

/-- A turn of the server's loop leaves the queue alone, or gives a message to `queue_send`. -/
theorem serverRead_cases (p : Process) (result : ReadResult) :
    (∃ server stopped, (p.serverRead result).1 = { p with server := server, stopped := stopped } ∧
      commandView (.serverRead result, (p.serverRead result).2) = none) ∨
    ∃ server printed pItem,
      (p.serverRead result).1 =
          { p.withQueue (queueSend p.commQueue p.mem pItem).2.1
              (queueSend p.commQueue p.mem pItem).2.2 with server := server } ∧
        (p.serverRead result).2 = .served p.server.newSocket
          (.sent printed pItem (queueSend p.commQueue p.mem pItem).1) := by
  rw [Process.serverRead]
  split
  · split
    · refine Or.inl ⟨_, p.stopped, rfl, ?_⟩
      rw [ServerThread.cancel]
      split <;> rfl
    · dsimp only
      split
      · exact Or.inl ⟨p.server, true, rfl, rfl⟩
      · next hturn =>
        split
        · exact Or.inl ⟨p.server, true, rfl, rfl⟩
        · rcases threadTurn_cases rfl hturn with ⟨-, rfl, rfl⟩ | ⟨printed, pItem, rfl, rfl⟩
          · exact Or.inl ⟨_, p.stopped, rfl, rfl⟩
          · exact Or.inr ⟨_, printed, pItem, rfl, rfl⟩
  · exact Or.inl ⟨p.server, p.stopped, rfl, rfl⟩

theorem Ready.serverRead (h : Ready p waiting state) (result : ReadResult) :
    commandReader.Makes (fun s => Ready (p.serverRead result).1 s.1 s.2) (waiting, state)
      (commandView (.serverRead result, (p.serverRead result).2)) := by
  obtain ⟨r, hrep⟩ := h.queue
  rcases serverRead_cases p result with
    ⟨server, stopped, hnext, hview⟩ | ⟨server, printed, pItem, hnext, hevent⟩
  · rw [hview, hnext]
    exact h.congr h.main h.created Iff.rfl rfl
  · rw [hevent, hnext]
    show Ready _ _ _ ∧ _
    by_cases hlt : waiting.length < commQueueSize.toNat
    · have hsend := hrep.send hlt pItem
      have hcode : (queueSend p.commQueue p.mem pItem).1 = 0 := by
        rw [hrep.send_eq_of_lt hlt]
      rw [fifoReader_send_of_lt hlt, hcode]
      refine ⟨?_, rfl⟩
      exact
        { main := h.main
          created := h.created
          queue := ⟨r, hsend⟩
          map := h.map
          before := h.before
          registered := h.registered
          stateId := h.stateId }
    -- refused: the queue is full and the message is lost
    · rw [fifoReader_send_of_not_lt hlt, hrep.send_eq_of_not_lt hlt]
      exact ⟨h.congr h.main h.created Iff.rfl rfl, rfl⟩

/-! ## One step of the manager thread -/

theorem commandView_managed {i : Step} {message : Option Bytes} {event : ThreadEvent}
    (h : ∀ e, event ≠ .updated e) : commandView (i, .managed message event) = none := by
  cases event with
  | updated e => exact absurd rfl (h e)
  | _ => rfl

theorem turn_of_ne_update {t : Thread} (h : t.phase ≠ .update) :
    t.turn.1.manager = t.manager ∧ ∀ e, t.turn.2 ≠ .updated e := by
  cases hphase : t.phase with
  | update => exact absurd hphase h
  | execute =>
    have hcancel : ∀ (t' : Thread) e, (t'.cancelIfFatal e).manager = t'.manager := fun t' e => by
      rw [Thread.cancelIfFatal]
      split
      · split <;> rfl
      · rfl
    simp only [Thread.turn, hphase, hcancel]
    refine ⟨?_, fun _ => ThreadEvent.noConfusion⟩
    rw [executionLoop]
    split
    · rfl
    · rw [stateMissionFunction]
      split <;> rfl
  | sleep =>
    simp only [Thread.turn, hphase, Thread.cancel]
    split
    · split
      · exact ⟨rfl, fun _ => ThreadEvent.noConfusion⟩
      · exact ⟨rfl, fun _ => ThreadEvent.noConfusion⟩
    · exact ⟨rfl, fun _ => ThreadEvent.noConfusion⟩
  | stopped =>
    simp only [Thread.turn, hphase]
    exact ⟨trivial, fun _ => ThreadEvent.noConfusion⟩

/-- An update receives the oldest waiting message, if there is one, and follows it. -/
theorem Ready.update (h : Ready p waiting state) (hloop : p.managerPhase = .loop)
    (hupdate : p.thread.phase = .update) :
    commandReader.Makes (fun s => Ready p.managerTurn.1 s.1 s.2) (waiting, state)
      (commandView (.manager, p.managerTurn.2)) := by
  obtain ⟨r, hrep⟩ := h.queue
  have hturn : p.managerTurn =
      ({ p with thread := { p.thread with manager := (StateManager.update p.thread.manager).2,
                                          phase := .execute } },
        .managed p.nextMessage (.updated (StateManager.update p.thread.manager).1)) := by
    simp only [Process.managerTurn, hloop, turn_of_update hupdate]
  rw [hturn]
  show Ready _ _ _ ∧ _
  cases waiting with
  | nil =>
    have hmessage : p.nextMessage = none := by
      rw [Process.nextMessage, hrep.receive_eq_of_nil]
      exact if_neg fun hno => absurd hno.2 (show (-1 : ℤ) ≠ 0 by decide)
    rw [hmessage, update_of_empty hrep]
    exact ⟨h.congr h.main h.created Iff.rfl rfl, rfl⟩
  | cons x xs =>
    obtain ⟨st, hst, hid, hupdated⟩ := update_of_waiting (h.map hloop) h.registered hrep
    have hcode : (queueReceive p.commQueue p.mem fun _ => 0).1 = 0 := by
      rw [hrep.receive_eq_of_cons]
    have hmessage : p.nextMessage = some x := by
      rw [Process.nextMessage, if_pos ⟨hupdate, hcode⟩]
      exact congrArg some (hrep.receive_buffer fun _ => 0)
    rw [hmessage]
    refine ⟨?_, rfl⟩
    exact
      { main := h.main
        created := h.created
        queue := by
          refine ⟨r + 1, ?_⟩
          simp only [Process.commQueue, Process.mem, hupdated]
          exact hrep.receive _
        map := fun _ => by simpa only [hupdated] using h.map hloop
        before := fun hno => absurd hloop hno
        registered := by simpa only [hupdated] using hst
        stateId := by
          simp only [hupdated, hid, h.stateId]
          rfl }

/-- What comes before the loop of the manager thread leaves the waiting messages where they are. -/
theorem Ready.managerStart (h : Ready p waiting state) (hcreated : p.managerPhase = .created) :
    Ready p.managerTurn.1 waiting state ∧ p.managerTurn.2 = .managerCreatedQueue 1 := by
  obtain ⟨r, hrep⟩ := h.queue
  have hlength : p.commQueue.length ≠ 0 := by
    rw [hrep.length]
    exact show commQueueSize ≠ 0 by decide
  have hagain : createQueue p.commQueue commQueueSize commQueueSize = (1, p.commQueue) := by
    rw [createQueue, if_pos hlength]
  simp only [Process.managerTurn, hcreated, hagain]
  refine ⟨?_, trivial⟩
  exact
    { main := h.main
      created := fun _ => h.created (hcreated.trans_ne ManagerPhase.noConfusion)
      queue := by
        refine ⟨r, ?_⟩
        simp only [Process.commQueue, Process.mem, threadStart, initialization, hagain]
        exact hrep
      map := fun _ => rfl
      before := fun hno => absurd rfl hno
      registered := List.mem_cons_self
      stateId := (h.before (hcreated.trans_ne ManagerPhase.noConfusion)).symm }

theorem Ready.managerTurn (h : Ready p waiting state) :
    commandReader.Makes (fun s => Ready p.managerTurn.1 s.1 s.2) (waiting, state)
      (commandView (.manager, p.managerTurn.2)) := by
  cases hphase : p.managerPhase with
  | notCreated =>
    simp only [Process.managerTurn, hphase]
    exact h
  | created =>
    obtain ⟨hready, hevent⟩ := h.managerStart hphase
    rw [hevent]
    exact hready
  | loop =>
    by_cases hupdate : p.thread.phase = .update
    · exact h.update hphase hupdate
    · obtain ⟨hsame, hnone⟩ := turn_of_ne_update hupdate
      simp only [Process.managerTurn, hphase]
      rw [commandView_managed hnone]
      exact h.congr h.main (fun _ => h.created (hphase.trans_ne ManagerPhase.noConfusion))
        (by rw [hphase]) hsame

theorem Ready.managerCancel (h : Ready p waiting state) :
    Ready p.managerCancel.1 waiting state ∧
      commandView (.managerCancel, p.managerCancel.2) = none := by
  cases hphase : p.managerPhase with
  | loop =>
    simp only [Process.managerCancel, hphase, Thread.cancel]
    have hmain := h.created (hphase.trans_ne ManagerPhase.noConfusion)
    split
    all_goals exact ⟨h.congr h.main (fun _ => hmain) (by rw [hphase]) rfl, rfl⟩
  | _ =>
    simp only [Process.managerCancel, hphase]
    exact ⟨h, rfl⟩

/-! ## The simulation -/

/-- The process and the reader of messages correspond. -/
def Corresponds (p : Process) (s : List Bytes × StateId) : Prop :=
  (Fresh p ∧ s = ([], stateESurvival)) ∨ Ready p s.1 s.2

theorem fresh_start (mem : Memory) : Fresh (Process.start mem) := ⟨rfl, rfl, rfl, rfl, rfl, rfl⟩

theorem corresponds_start (mem : Memory) :
    Corresponds (Process.start mem) ([], stateESurvival) := Or.inl ⟨fresh_start mem, rfl⟩

theorem Ready.turn (h : Ready p waiting state) (i : Step) :
    commandReader.Makes (fun s => Ready (p.turn i).1 s.1 s.2) (waiting, state)
      (commandView (i, (p.turn i).2)) := by
  cases i with
  | main ret =>
    obtain ⟨hready, hview⟩ := h.mainTurn ret
    simp only [Process.turn, hview]
    exact hready
  | serverCall ret =>
    have hview : commandView (.serverCall ret, (p.serverCall ret).2) = none := by
      simp only [Process.serverCall, ServerThread.call, ServerThread.cancel]
      split
      all_goals first | rfl | (split <;> first | rfl | (split <;> rfl))
    simp only [Process.turn, hview]
    exact h.congr h.main h.created Iff.rfl rfl
  | serverRead result => exact h.serverRead result
  | serverCancel =>
    have hview : commandView (.serverCancel, p.server.cancel.2) = none := by
      rw [ServerThread.cancel]
      split <;> rfl
    simp only [Process.turn, hview]
    exact h.congr h.main h.created Iff.rfl rfl
  | manager => exact h.managerTurn
  | managerCancel =>
    obtain ⟨hready, hview⟩ := h.managerCancel
    simp only [Process.turn, hview]
    exact hready

theorem Corresponds.turn {s : List Bytes × StateId} (h : Corresponds p s) (i : Step) :
    commandReader.Makes (Corresponds (p.turn i).1) s (commandView (i, (p.turn i).2)) := by
  rcases h with ⟨hfresh, rfl⟩ | hready
  · cases i with
    | main ret =>
      obtain ⟨hready, hevent⟩ := hfresh.mainTurn ret
      simp only [Process.turn, hevent]
      exact Or.inr hready
    | _ =>
      rw [hfresh.turn_eq fun _ => Step.noConfusion]
      exact Or.inl ⟨hfresh, rfl⟩
  · exact (hready.turn i).mono fun _ => Or.inr

/-- Every step of the process is a step of the reader of messages, or none. -/
def commandSimulation : WeakSimulation system commandReader fun _ _ => True where
  rel := Corresponds
  view := commandView
  rel_step := by
    intro p s i h _
    rcases system_step p i with hstep | hstep
    · rw [hstep]
      exact h
    · rw [hstep]
      exact h.turn i

/-! ## What the traces say -/

theorem Corresponds.waitingMessages {s : List Bytes × StateId} (h : Corresponds p s) :
    printedMessages p.commQueue p.mem = s.1 ∧ p.commQueue.waitingMessages.toNat = s.1.length ∧
      s.1.length ≤ commQueueSize.toNat := by
  rcases h with ⟨hfresh, rfl⟩ | hready
  · rw [hfresh.queue]
    exact ⟨rfl, rfl, Nat.zero_le _⟩
  · obtain ⟨r, hrep⟩ := hready.queue
    exact ⟨hrep.printedMessages_eq, hrep.waiting, hrep.bounded⟩

theorem Corresponds.currentState {s : List Bytes × StateId} (h : Corresponds p s) :
    p.thread.manager.currentState ∈ registry ∧ p.thread.manager.currentState.stateId = s.2 := by
  rcases h with ⟨hfresh, rfl⟩ | hready
  · rw [hfresh.state]
    exact ⟨List.mem_cons_self, rfl⟩
  · exact ⟨hready.registered, hready.stateId⟩

theorem acceptedMessage_eq (e : Step × Event) :
    acceptedMessage e = (commandView e).bind acceptedItem := by
  fun_cases commandView e with
  | case1 fst fd printed pItem code =>
    by_cases h : code = 0
    · simp [acceptedMessage, h]
    · simp [acceptedMessage, h]
  | case2 => rfl
  | case3 e hserved hupdated =>
    rw [acceptedMessage]
    · rfl
    · exact hserved

theorem sentMessage_eq (e : Step × Event) :
    sentMessage e = (commandView e).bind fun entry => entry.1.sentItem := by
  fun_cases commandView e with
  | case1 => rfl
  | case2 => rfl
  | case3 e hserved hupdated =>
    rw [sentMessage]
    · rfl
    · exact hserved

theorem handledMessage_eq (e : Step × Event) :
    handledMessage e = (commandView e).bind deliveredItem := by
  fun_cases commandView e with
  | case1 => rfl
  | case2 => rfl
  | case3 e hserved hupdated =>
    rw [handledMessage]
    · rfl
    · exact hupdated

theorem isUpdate_eq (e : Step × Event) :
    isUpdate e = (commandView e).any fun entry => entry.1.isReceive := by
  fun_cases commandView e with
  | case1 => rfl
  | case2 => rfl
  | case3 e hserved hupdated =>
    rw [isUpdate]
    · rfl
    · exact hupdated

theorem filterMap_eq_of_view {β : Type} {f : Step × Event → Option β}
    {g : FifoIn Bytes × FifoOut Bytes → Option β} (h : ∀ e, f e = (commandView e).bind g)
    (t : List (Step × Event)) : t.filterMap f = (t.filterMap commandView).filterMap g := by
  rw [List.filterMap_filterMap]
  congr 1
  funext e
  exact h e

theorem countP_isUpdate (t : List (Step × Event)) :
    t.countP isUpdate = ((t.filterMap commandView).map Prod.fst).countP FifoIn.isReceive := by
  induction t with
  | nil => rfl
  | cons e t ih =>
    rw [List.countP_cons, List.filterMap_cons, ih, isUpdate_eq]
    cases hview : commandView e with
    | none => rfl
    | some entry => rw [List.map_cons, List.countP_cons]; rfl

/-! ## Whole runs -/

/-- From corresponding states, the process shows a run of the FIFO of waiting messages. -/
theorem Corresponds.run {s : List Bytes × StateId} (h : Corresponds p s) (steps : List Step) :
    ∃ inputs, Corresponds (system.after p steps) (commandReader.after s inputs) ∧
      (system.trace p steps).filterMap commandView =
        (fifo Bytes commQueueSize.toNat).trace s.1 inputs := by
  obtain ⟨hrel, htrace⟩ := commandSimulation.rel_after_and_trace h steps (system.guarded_true p steps)
  exact ⟨_, hrel, htrace.trans (fifoReader_trace s.1 s.2 _)⟩

theorem accepted_eq_handled_append (mem : Memory) (steps : List Step) :
    let p := system.after (Process.start mem) steps
    let t := system.trace (Process.start mem) steps
    t.filterMap acceptedMessage =
      t.filterMap handledMessage ++ printedMessages p.commQueue p.mem := by
  intro p t
  obtain ⟨inputs, hrel, htrace⟩ := (corresponds_start mem).run steps
  have hwaiting := hrel.waitingMessages.1
  rw [fifoReader_after_fst] at hwaiting
  rw [filterMap_eq_of_view acceptedMessage_eq, filterMap_eq_of_view handledMessage_eq, htrace,
    hwaiting]
  exact fifo_accepted_eq inputs

/-- In every interleaving of `main`, the server thread and the manager thread, with any results of
the system calls and any bytes from the client: the messages that `queue_send` accepted are those
that the manager received, in order, followed by the at most three that wait in the queue, although
both `main` and the manager thread create the queue; and the current state is registered and is the
one that the transition table gives for the received messages. -/
theorem process_accepted_eq (mem : Memory) (steps : List Step) :
    let p := system.after (Process.start mem) steps
    let t := system.trace (Process.start mem) steps
    let waiting := printedMessages p.commQueue p.mem
    t.filterMap acceptedMessage = t.filterMap handledMessage ++ waiting ∧
      p.commQueue.waitingMessages.toNat = waiting.length ∧ waiting.length ≤ 3 ∧
      p.thread.manager.currentState ∈ registry ∧
      p.thread.manager.currentState.stateId =
        (t.filterMap handledMessage).foldl transition stateESurvival := by
  intro p t waiting
  obtain ⟨inputs, hrel, htrace⟩ := (corresponds_start mem).run steps
  obtain ⟨hwaiting, hcount, hroom⟩ := hrel.waitingMessages
  obtain ⟨hregistered, hstate⟩ := hrel.currentState
  rw [← hwaiting] at hcount hroom
  rw [fifoReader_after_snd] at hstate
  refine ⟨accepted_eq_handled_append mem steps, hcount, hroom, hregistered, ?_⟩
  rw [hstate, filterMap_eq_of_view handledMessage_eq, htrace]

theorem Corresponds.handled_iff {s : List Bytes × StateId} (h : Corresponds p s)
    (steps : List Step) {n : ℕ} (hn : n ≤ s.1.length) :
    n ≤ ((system.trace p steps).filterMap handledMessage).length ↔
      n ≤ (system.trace p steps).countP isUpdate := by
  obtain ⟨inputs, -, htrace⟩ := h.run steps
  rw [filterMap_eq_of_view handledMessage_eq, countP_isUpdate, htrace, Machine.map_fst_trace]
  exact fifo_delivered_iff s.1 inputs hn

/-- Without an update, the queue takes what is sent until it is full. -/
theorem Corresponds.burst {s : List Bytes × StateId} (h : Corresponds p s) {steps : List Step}
    (hnone : ∀ e ∈ system.trace p steps, isUpdate e = false) :
    (system.trace p steps).filterMap acceptedMessage =
      ((system.trace p steps).filterMap sentMessage).take
        (3 - p.commQueue.waitingMessages.toNat) := by
  obtain ⟨-, hcount, hroom⟩ := h.waitingMessages
  obtain ⟨inputs, -, htrace⟩ := h.run steps
  have hreceives : ∀ k ∈ inputs, k.isReceive = false := by
    have hzero : (system.trace p steps).countP isUpdate = 0 :=
      List.countP_eq_zero.2 fun e he => by
        rw [hnone e he]
        exact Bool.false_ne_true
    rw [countP_isUpdate, htrace, Machine.map_fst_trace, List.countP_eq_zero] at hzero
    exact fun k hk => Bool.eq_false_iff.2 (hzero k hk)
  rw [filterMap_eq_of_view sentMessage_eq, filterMap_eq_of_view acceptedMessage_eq, htrace,
    filterMap_sentItem_trace, hcount]
  exact fifo_accepted_burst hroom hreceives

/-- How long a message waits: take any run, a step that puts a message into the queue, and any run
after it. The message is the one received at its place in the order of acceptance exactly when the
run after it has one update for each message that waited before it and one for itself, however the
steps of `main` and of the server fall between. -/
theorem message_latency (mem : Memory) (before : List Step) (i : Step) (later : List Step)
    (message : Bytes)
    (haccepted : acceptedMessage
      (i, (system.step (system.after (Process.start mem) before) i).2) = some message) :
    let p := system.after (Process.start mem) before
    let place := ((system.trace (Process.start mem) before).filterMap acceptedMessage).length
    let t := system.trace (Process.start mem) (before ++ i :: later)
    (t.filterMap handledMessage)[place]? = some message ↔
      p.commQueue.waitingMessages.toNat + 1 ≤
        (system.trace (system.step p i).1 later).countP isUpdate := by
  intro p place t
  let q := (system.step p i).1
  let accepted := (system.trace (Process.start mem) before).filterMap acceptedMessage
  let handled := (system.trace (Process.start mem) before).filterMap handledMessage
  have hnot : handledMessage (i, (system.step p i).2) = none := by
    rw [acceptedMessage_eq] at haccepted
    obtain ⟨entry, hentry, hitem⟩ := Option.bind_eq_some_iff.1 haccepted
    rw [handledMessage_eq, hentry]
    exact deliveredItem_of_accepted hitem
  have haccepts : ∀ js, (system.trace (Process.start mem) (before ++ i :: js)).filterMap
      acceptedMessage = accepted ++ message :: (system.trace q js).filterMap acceptedMessage :=
    fun js => by
      rw [Machine.filterMap_trace_append_cons, haccepted]
      rfl
  have hhandles : ∀ js, (system.trace (Process.start mem) (before ++ i :: js)).filterMap
      handledMessage = handled ++ (system.trace q js).filterMap handledMessage := fun js => by
    rw [Machine.filterMap_trace_append_cons, hnot]
    rfl
  have hbefore : accepted = handled ++ printedMessages p.commQueue p.mem :=
    accepted_eq_handled_append mem before
  -- the message joins the ones that wait
  have hafter : system.after (Process.start mem) (before ++ [i]) = q :=
    system.after_append _ before [i]
  have hjoins : printedMessages q.commQueue q.mem =
      printedMessages p.commQueue p.mem ++ [message] := by
    have hstep := accepted_eq_handled_append mem (before ++ [i])
    simp only [hafter, haccepts, hhandles, hbefore] at hstep
    simpa using hstep.symm
  obtain ⟨_, hrel, -⟩ := (corresponds_start mem).run before
  obtain ⟨inputs, hrel', -⟩ := (corresponds_start mem).run (before ++ [i])
  rw [hafter] at hrel'
  have hcount : p.commQueue.waitingMessages.toNat = (printedMessages p.commQueue p.mem).length := by
    rw [hrel.waitingMessages.2.1, hrel.waitingMessages.1]
  have hlength : (printedMessages p.commQueue p.mem).length + 1 =
      (commandReader.after ([], stateESurvival) inputs).1.length := by
    rw [← hrel'.waitingMessages.1, hjoins, List.length_append, List.length_singleton]
  -- every update receives one message of those that wait
  have hupdates := hrel'.handled_iff later hlength.le
  have hall := accepted_eq_handled_append mem (before ++ i :: later)
  simp only [haccepts, hhandles, hbefore, List.append_assoc, List.append_cancel_left_eq] at hall
  show (List.filterMap handledMessage (system.trace _ (before ++ i :: later)))[accepted.length]? =
    some message ↔ _
  rw [hcount, ← hupdates, hhandles, hbefore, List.length_append,
    List.getElem?_append_right (Nat.le_add_right _ _), Nat.add_sub_cancel_left]
  constructor
  · intro hget
    exact (List.getElem?_eq_some_iff.1 hget).1
  · intro hlong
    rw [← List.getElem?_append_left hlong, ← hall]
    simp

/-- A command that arrives first is received by the first update of the manager thread. -/
theorem message_latency_first :
    ((system.trace (Process.start ⟨fun _ => 0, []⟩) (connecting ++ .serverRead (some [1, 2, 0]) ::
      [.manager, .manager])).filterMap handledMessage)[0]? = some [1, 2, 0] :=
  (message_latency ⟨fun _ => 0, []⟩ connecting (.serverRead (some [1, 2, 0])) [.manager, .manager]
    [1, 2, 0] (by decide)).2 (by decide)

/-- What a burst loses: after any run, in any steps of the process without an update of the manager,
the server's `queue_send` accepts the first messages until three wait and loses all the others. -/
theorem burst_loss (mem : Memory) (before later : List Step)
    (hnone : ∀ e ∈ system.trace (system.after (Process.start mem) before) later,
      isUpdate e = false) :
    let p := system.after (Process.start mem) before
    let t := system.trace p later
    t.filterMap acceptedMessage =
      (t.filterMap sentMessage).take (3 - p.commQueue.waitingMessages.toNat) := by
  intro p t
  obtain ⟨inputs, hrel, -⟩ := (corresponds_start mem).run before
  exact hrel.burst hnone

/-- Four commands at once: the last one is lost. -/
theorem burst_loss_fourth :
    (system.trace (system.after (Process.start ⟨fun _ => 0, []⟩) connecting)
      (List.replicate 4 (.serverRead (some [1, 2, 0])))).filterMap acceptedMessage =
        List.replicate 3 [1, 2, 0] :=
  burst_loss ⟨fun _ => 0, []⟩ connecting (List.replicate 4 (.serverRead (some [1, 2, 0])))
    (by decide)

end CComplete.MainThread
