import CComplete.StaticQueue.Model

/-!
# The state manager

Model of `state_manager.c` with the registered states of `state_survival.c` and `state_mission.c`.
A state identifier is the value of a C enumeration read from a message byte, so it may be any
number. The two queue pointers of the handler are both the queue given to the initialization,
`commQueue`. Printing is left out. When the manager thread cancels itself, the cancellation is
pending until it takes effect, at the latest at the next sleep.
-/

set_option autoImplicit false

namespace CComplete.StateManager

open CComplete.Library CComplete.StaticQueue

/-! ## State types -/

/-- `STATE__E_STATE_ID`. -/
abbrev StateId := ℕ

/-- `STATE_E_SURVIVAL`. -/
def stateESurvival : StateId := 1

/-- `STATE_E_MISSION`. -/
def stateEMission : StateId := 2

/-- `STATE__E_ERROR`. -/
inductive StateError where
  | noError
  | stateNotFoundInMap
  | stateChangeNotAllowed
  | alreadyInThisState
  | fatalErrorDetector
  | unattendedTerminationError
deriving DecidableEq

/-- `STATE__T_EXECUTE_CALLBACK`: the functions a state can execute. -/
inductive ExecuteCallback where
  | stateSurvivalFunction
  | stateMissionFunction
deriving DecidableEq

/-- `STATE__T_GET_TRANSITION_MAP`: the functions that return a transition map. -/
inductive GetTransitionMap where
  | stateSurvivalGetTransitionMap
  | stateMissionGetTransitionMap
deriving DecidableEq

/-- `STATE__T_STATE`. -/
structure State where
  stateId : StateId
  callback : ExecuteCallback
  getTransitionMapCallback : GetTransitionMap
deriving DecidableEq

/-! ## The registered states -/

/-- `G_STATE_SURVIVAL_transition_MAP`. -/
def survivalTransitionMap : List StateId := [stateEMission, 0, 0]

/-- `G_STATE_MISSION_transition_MAP`. -/
def missionTransitionMap : List StateId := [stateESurvival, 0, 0]

/-- The map a transition-map callback returns. -/
def GetTransitionMap.call : GetTransitionMap → List StateId
  | .stateSurvivalGetTransitionMap => survivalTransitionMap
  | .stateMissionGetTransitionMap => missionTransitionMap

/-- `G_STATE_SURVIVAL_state`. -/
def survivalState : State where
  stateId := stateESurvival
  callback := .stateSurvivalFunction
  getTransitionMapCallback := .stateSurvivalGetTransitionMap

/-- `G_STATE_MISSION_state`. -/
def missionState : State where
  stateId := stateEMission
  callback := .stateMissionFunction
  getTransitionMapCallback := .stateMissionGetTransitionMap

/-! ## The manager -/

/-- The handler with the state map, and the communication queue with its memory. -/
structure Manager where
  currentState : State
  stateMap : List State
  commQueue : Queue
  mem : Memory

/-- `STATE_E_COMMAND_CHANGE_STATE`. -/
def stateECommandChangeState : UInt8 := 1

/-- `COMM_QUEUE_SIZE` and `COMM_QUEUE_ITEM_SIZE`. -/
def commQueueSize : UInt32 := 3

/-- `STATE_MANAGER__initialization` on the queue `commQueue`. -/
def initialization (commQueue : Queue) (mem : Memory) : StateError × Manager :=
  (.noError,
    { currentState :=
        { stateId := stateESurvival
          callback := .stateSurvivalFunction
          getTransitionMapCallback := .stateSurvivalGetTransitionMap }
      stateMap := [survivalState, missionState]
      commQueue := commQueue
      mem := mem })

/-- Loop of `STATE_MANAGER__isTransitionAllowed` over the transition map. -/
def isTransitionAllowedLoop (targetState : StateId) : List StateId → Bool
  | [] => false
  | t :: rest => if t = targetState then true else isTransitionAllowedLoop targetState rest

/-- `STATE_MANAGER__isTransitionAllowed`. -/
def isTransitionAllowed (m : Manager) (targetState : StateId) : Bool :=
  isTransitionAllowedLoop targetState m.currentState.getTransitionMapCallback.call

/-- Loop of `STATE_MANAGER__get_state_in_map` over the state map. -/
def getStateInMapLoop (targetState : StateId) : List State → Except StateError State
  | [] => .error .stateNotFoundInMap
  | st :: rest => if st.stateId = targetState then .ok st else getStateInMapLoop targetState rest

/-- `STATE_MANAGER__get_state_in_map`: the state found, or the error. -/
def getStateInMap (m : Manager) (targetState : StateId) : Except StateError State :=
  getStateInMapLoop targetState m.stateMap

/-- `STATE_MANAGE__change_state`. -/
def changeState (m : Manager) (targetState : StateId) : StateError × Manager :=
  if m.currentState.stateId = targetState then (.alreadyInThisState, m)
  else if isTransitionAllowed m targetState then
    -- a transition map may allow a state that is not in the state map, such as 0
    match getStateInMap m targetState with
    | .ok newState => (.noError, { m with currentState := newState })
    | .error e => (e, m)
  else (.stateChangeNotAllowed, m)

/-- `STATE_MANAGER__update`: receives one message and executes its command. -/
def update (m : Manager) : StateError × Manager :=
  let commBuffer : ℕ → UInt8 := fun _ => 0
  let r := queueReceive m.commQueue m.mem commBuffer
  let m' := { m with commQueue := r.2.1, mem := r.2.2.1 }
  if r.1 = 0 then
    -- the empty command and every unknown one are `default` cases of the `switch`
    if r.2.2.2 0 = stateECommandChangeState then changeState m' (r.2.2.2 1).toNat
    else (.noError, m')
  else (.noError, m')

/-! ## Producer and manager -/

/-- A step of the system: a producer sends a message, or the manager runs one update. -/
inductive Step where
  | produce (message : ℕ → UInt8)
  | update

/-- What a step shows: the code of `queue_send`, or whether the update received a message and the
error it returned. -/
inductive Reply where
  | produced (code : ℤ)
  | updated (received : Bool) (error : StateError)

/-- Producers and the manager on the communication queue, one step at a time. -/
def system : Machine Manager Step Reply where
  step
    | m, .produce message =>
        let r := queueSend m.commQueue m.mem message
        ({ m with commQueue := r.2.1, mem := r.2.2 }, .produced r.1)
    | m, .update =>
        let received := (queueReceive m.commQueue m.mem fun _ => 0).1 = 0
        ((update m).2, .updated received (update m).1)

/-! ## The manager thread -/

/-- Value of an error. -/
def StateError.code : StateError → ℕ
  | .noError => 0
  | .stateNotFoundInMap => 1
  | .stateChangeNotAllowed => 5
  | .alreadyInThisState => 6
  | .fatalErrorDetector => 11
  | .unattendedTerminationError => 12

/-- `MAX_STATE_MISSION_COUNTER_VAL`. -/
def maxStateMissionCounterVal : UInt8 := 12

/-- What the loop of `test_state_manager_thread` does next. -/
inductive Phase where
  | update
  | execute
  | sleep
  | stopped
deriving DecidableEq

/-- The manager thread, with the counters of the two state modules. -/
structure Thread where
  manager : Manager
  missionCounter : UInt8
  survivalCounter : UInt8
  phase : Phase
  cancelPending : Bool

/-- `STATE_MISSION_function`. -/
def stateMissionFunction (t : Thread) : StateError × Thread :=
  let t := { t with missionCounter := t.missionCounter + 1 }
  if t.missionCounter ≥ maxStateMissionCounterVal then (.unattendedTerminationError, t)
  else (.noError, t)

/-- `STATE_SURVIVAL_function`. Its termination error is commented out. -/
def stateSurvivalFunction (t : Thread) : StateError × Thread :=
  (.noError, { t with survivalCounter := t.survivalCounter + 1 })

/-- `STATE_MANAGER__execution_loop`. -/
def executionLoop (t : Thread) : StateError × Thread :=
  match t.manager.currentState.callback with
  | .stateSurvivalFunction => stateSurvivalFunction t
  | .stateMissionFunction => stateMissionFunction t

/-- The check of a returned error in `test_state_manager_thread`, which is the same after the update
and after the execution. -/
def Thread.cancelIfFatal (t : Thread) (retState : StateError) : Thread :=
  if retState ≠ .noError then
    if retState.code > StateError.fatalErrorDetector.code then { t with cancelPending := true }
    else t
  else t

/-- `test_state_manager_thread` up to its loop, in a process that executed no state yet. -/
def threadStart (commQueue : Queue) (mem : Memory) : Thread :=
  let r := initialization (createQueue commQueue commQueueSize commQueueSize).2 mem
  { manager := r.2
    missionCounter := 0
    survivalCounter := 0
    phase := .update
    cancelPending := r.1 ≠ .noError }

/-- A step of the thread and its surroundings: a producer sends a message, the thread goes to the
end of its phase, or a pending cancellation takes effect before the sleep. -/
inductive ThreadStep where
  | produce (message : ℕ → UInt8)
  | turn
  | cancel

/-- What a step of the thread shows. -/
inductive ThreadEvent where
  | produced (code : ℤ)
  | updated (retState : StateError)
  | executed (callback : ExecuteCallback) (retState : StateError)
  | slept
  | cancelled
  | idle
deriving DecidableEq

/-- The pending cancellation, if any, takes effect. -/
def Thread.cancel (t : Thread) : Thread × ThreadEvent :=
  if t.cancelPending ∧ t.phase ≠ .stopped then ({ t with phase := .stopped }, .cancelled)
  else (t, .idle)

/-- One phase of the loop of `test_state_manager_thread`. The sleep is a cancellation point. -/
def Thread.turn (t : Thread) : Thread × ThreadEvent :=
  match t.phase with
  | .update =>
      let r := update t.manager
      ({ t with manager := r.2, phase := .execute }.cancelIfFatal r.1, .updated r.1)
  | .execute =>
      let r := executionLoop t
      ({ r.2 with phase := .sleep }.cancelIfFatal r.1,
        .executed t.manager.currentState.callback r.1)
  | .sleep => if t.cancelPending then t.cancel else ({ t with phase := .update }, .slept)
  | .stopped => (t, .idle)

/-- Producers and the manager thread, one step at a time. -/
def threadSystem : Machine Thread ThreadStep ThreadEvent where
  step
    | t, .produce message =>
        let r := queueSend t.manager.commQueue t.manager.mem message
        ({ t with manager := { t.manager with commQueue := r.2.1, mem := r.2.2 } }, .produced r.1)
    | t, .turn => t.turn
    | t, .cancel => t.cancel

end CComplete.StateManager
