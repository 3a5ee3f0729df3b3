import CComplete.StateManager.Model
import CComplete.TcpServer.Model

/-!
# The process of `main_thread.c`

Model of `main` in `mains/main_thread.c` with the two threads it creates: `TPC_SERVER__Thread` of
`tcp_server.c` from its `socket` call on, and `test_state_manager_thread` of `state_manager.c`. The
static variables they share are the `QUEUE` object, its memory area and the handler of the server.
The scheduler picks who goes on, and the results of the system calls come from outside. A thread
that cancels itself goes on until the cancellation takes effect, at the latest at its next
cancellation point: `accept` and `read` for the server, the sleep for the manager.

Each `createQueue`, `queue_send` and `queue_receive` is one step here, although the code takes no
lock: what happens when a thread is interrupted inside a call is the subject of
`StaticQueue.Interleaving`. A failed `read` of the server has no result in C, and the model stops
there. What is printed is left out, and so are the joins of `main`: at its end it waits.
-/

set_option autoImplicit false

namespace CComplete.MainThread

open CComplete.Library CComplete.StaticQueue CComplete.StateManager CComplete.TcpServer

/-! ## The server thread -/

/-- `TPC_SERVER__T_HANDLER` without the address, which nothing reads. The only queue given to it is
the communication queue, so of `output_queue` the model keeps whether it is set. -/
structure Handler where
  port : ℤ
  outputQueueSet : Bool
deriving DecidableEq

/-- What `TPC_SERVER__Thread` does next. -/
inductive ServerPhase where
  | notCreated
  | socket
  | bind
  | listen
  | accept
  | loop
  | ended
deriving DecidableEq

/-- The server thread with its local variables. -/
structure ServerThread where
  phase : ServerPhase
  serverFd : ℤ
  newSocket : ℤ
  buffer : Bytes
  cancelPending : Bool

/-- A system call before the loop, with the arguments that decide what it does. -/
inductive SystemCall where
  | socket
  | bind (fd : ℤ) (port : UInt16)
  | listen (fd : ℤ) (backlog : ℤ)
  | accept (fd : ℤ)
deriving DecidableEq

/-- What a step of the process shows: the code of the `create_queue` of `main`, its
`TCP_SERVER__Init`, a `pthread_create`; a system call of the server with the value returned, a turn
of its loop on a socket, its end; the code of the `create_queue` of the manager thread, a phase of
its loop with the message received there; two things that C leaves undefined, a `queue_send` through
a null pointer and the printing of more bytes than the buffer has; nothing. -/
inductive Event where
  | mainCreatedQueue (code : ℤ)
  | mainInit
  | threadCreate (ret : ℤ)
  | called (call : SystemCall) (ret : ℤ)
  | served (fd : ℤ) (output : Output)
  | serverEnded
  | managerCreatedQueue (code : ℤ)
  | managed (message : Option Bytes) (event : ThreadEvent)
  | nullQueue
  | overrun
  | idle

/-- The server thread when it is created. -/
def ServerThread.start : ServerThread where
  phase := .socket
  serverFd := 0
  newSocket := 0
  buffer := List.replicate maxStreamBufferSize 0
  cancelPending := false

/-- The check of a returned value, which prints and cancels the thread. -/
def ServerThread.cancelIf (s : ServerThread) (failed : Bool) : ServerThread :=
  { s with cancelPending := s.cancelPending || failed }

/-- A pending cancellation takes effect. -/
def ServerThread.cancel (s : ServerThread) : ServerThread × Event :=
  if s.cancelPending ∧ s.phase ≠ .ended then ({ s with phase := .ended }, .serverEnded)
  else (s, .idle)

/-- The system call of `TPC_SERVER__Thread` before its loop, which returns `ret`. -/
def ServerThread.call (s : ServerThread) (port : ℤ) (ret : ℤ) : ServerThread × Event :=
  match s.phase with
  -- a failing `socket` returns -1, and 0 is what is checked for
  | .socket =>
      ({ s with phase := .bind, serverFd := ret }.cancelIf (ret = 0), .called .socket ret)
  | .bind =>
      ({ s with phase := .listen }.cancelIf (ret < 0),
        .called (.bind s.serverFd (UInt16.ofInt port)) ret)
  | .listen =>
      ({ s with phase := .accept }.cancelIf (ret < 0), .called (.listen s.serverFd 3) ret)
  -- a cancellation point
  | .accept =>
      if s.cancelPending then s.cancel
      else
        ({ s with phase := .loop, newSocket := ret }.cancelIf (ret < 0),
          .called (.accept s.serverFd) ret)
  | _ => (s, .idle)

/-! ## The process -/

/-- What `main` does next. -/
inductive MainPhase where
  | createQueue
  | init
  | createServer
  | createManager
  | join
deriving DecidableEq

/-- Progress of the manager thread up to its loop. -/
inductive ManagerPhase where
  | notCreated
  | created
  | loop
deriving DecidableEq

/-- The process: `main`, the two threads and the static variables. The `QUEUE` object and its memory
area are those of `thread`, and so are the handler of the state manager and the counters. It has
stopped after what C leaves undefined. -/
structure Process where
  mainPhase : MainPhase
  handler : Handler
  server : ServerThread
  managerPhase : ManagerPhase
  thread : Thread
  stopped : Bool

/-- The process before `main`. No state is in the state map yet. -/
def Process.start (mem : Memory) : Process where
  mainPhase := .createQueue
  handler := { port := 0, outputQueueSet := false }
  server := { ServerThread.start with phase := .notCreated }
  managerPhase := .notCreated
  thread :=
    { manager :=
        { currentState := survivalState
          stateMap := []
          commQueue := Queue.zero
          mem := mem }
      missionCounter := 0
      survivalCounter := 0
      phase := .update
      cancelPending := false }
  stopped := false

/-- The queue object of the process. -/
abbrev Process.commQueue (p : Process) : Queue := p.thread.manager.commQueue

/-- The memory area of the process. -/
abbrev Process.mem (p : Process) : Memory := p.thread.manager.mem

/-- The process with another queue object and memory area. -/
def Process.withQueue (p : Process) (q : Queue) (mem : Memory) : Process :=
  let manager := { p.thread.manager with commQueue := q, mem := mem }
  { p with thread := { p.thread with manager := manager } }

/-- `TCP_SERVER__Init` on the communication queue. -/
def Process.tcpServerInit (p : Process) (port : ℤ) : Process :=
  { p with handler := { port := port, outputQueueSet := true } }

/-- The next statement of `main`; `ret` is what a `pthread_create` returns. -/
def Process.mainTurn (p : Process) (ret : ℤ) : Process × Event :=
  match p.mainPhase with
  | .createQueue =>
      let r := createQueue p.commQueue 3 3
      ({ p.withQueue r.2 p.mem with mainPhase := .init }, .mainCreatedQueue r.1)
  | .init => ({ p.tcpServerInit 8080 with mainPhase := .createServer }, .mainInit)
  | .createServer =>
      -- an error of `pthread_create` is printed, and `main` goes on
      if ret = 0 then
        ({ p with mainPhase := .createManager, server := ServerThread.start }, .threadCreate ret)
      else ({ p with mainPhase := .createManager }, .threadCreate ret)
  | .createManager =>
      if ret = 0 then ({ p with mainPhase := .join, managerPhase := .created }, .threadCreate ret)
      else ({ p with mainPhase := .join }, .threadCreate ret)
  | .join => (p, .idle)

/-- The next system call of the server thread before its loop. -/
def Process.serverCall (p : Process) (ret : ℤ) : Process × Event :=
  let r := p.server.call p.handler.port ret
  ({ p with server := r.1 }, r.2)

/-- The next turn of the loop of the server thread. Its `read` is a cancellation point. -/
def Process.serverRead (p : Process) (result : ReadResult) : Process × Event :=
  if p.server.phase = .loop then
    if p.server.cancelPending then
      let r := p.server.cancel
      ({ p with server := r.1 }, r.2)
    else
      let s : Server :=
        { buffer := p.server.buffer
          outputQueue := p.commQueue
          memory := p.mem
          cancelled := false }
      match threadTurn s result with
      | none => ({ p with stopped := true }, .overrun)
      | some (s', output) =>
        if ¬ p.handler.outputQueueSet ∧ result.valread ≠ 0 then
          ({ p with stopped := true }, .nullQueue)
        else
          let server := { p.server with buffer := s'.buffer, cancelPending := s'.cancelled }
          ({ p.withQueue s'.outputQueue s'.memory with server := server },
            .served p.server.newSocket output)
  else (p, .idle)

/-- The message that the manager thread receives if its next phase is an update. -/
def Process.nextMessage (p : Process) : Option Bytes :=
  let r := queueReceive p.commQueue p.mem fun _ => 0
  if p.thread.phase = .update ∧ r.1 = 0 then some (bufferBytes r.2.2.2 commQueueSize.toNat)
  else none

/-- The next phase of `test_state_manager_thread`, whose first one is all that comes before its
loop. -/
def Process.managerTurn (p : Process) : Process × Event :=
  match p.managerPhase with
  | .notCreated => (p, .idle)
  | .created =>
      -- `main` created this queue already
      ({ p with managerPhase := .loop, thread := threadStart p.commQueue p.mem },
        .managerCreatedQueue (createQueue p.commQueue commQueueSize commQueueSize).1)
  | .loop =>
      let r := p.thread.turn
      ({ p with thread := r.1 }, .managed p.nextMessage r.2)

/-- A pending cancellation of the manager thread takes effect. -/
def Process.managerCancel (p : Process) : Process × Event :=
  match p.managerPhase with
  | .loop =>
      let r := p.thread.cancel
      ({ p with thread := r.1 }, .managed none r.2)
  | _ => (p, .idle)

/-- A choice of the scheduler: who goes on, with the result of the call made there, or which pending
cancellation takes effect. -/
inductive Step where
  | main (ret : ℤ)
  | serverCall (ret : ℤ)
  | serverRead (result : ReadResult)
  | serverCancel
  | manager
  | managerCancel

/-- A step of `main` or of one of its threads. -/
def Process.turn (p : Process) : Step → Process × Event
  | .main ret => p.mainTurn ret
  | .serverCall ret => p.serverCall ret
  | .serverRead result => p.serverRead result
  | .serverCancel => ({ p with server := p.server.cancel.1 }, p.server.cancel.2)
  | .manager => p.managerTurn
  | .managerCancel => p.managerCancel

/-- `main` and its threads, one step at a time, until something undefined happens. -/
def system : Machine Process Step Event where
  step p i := if p.stopped then (p, .idle) else p.turn i

theorem system_step (p : Process) (i : Step) :
    system.step p i = (p, .idle) ∨ system.step p i = p.turn i := by
  by_cases h : p.stopped = true
  · exact Or.inl (if_pos h)
  · exact Or.inr (if_neg h)

/-! ## What a run shows -/

/-- The message that a turn of the server put into the queue. -/
def acceptedMessage : Step × Event → Option Bytes
  | (_, .served _ (.sent _ pItem code)) =>
      if code = 0 then some (bufferBytes pItem commQueueSize.toNat) else none
  | _ => none

/-- The message that a turn of the server gave to `queue_send`. -/
def sentMessage : Step × Event → Option Bytes
  | (_, .served _ (.sent _ pItem _)) => some (bufferBytes pItem commQueueSize.toNat)
  | _ => none

/-- The message that an update of the manager received. -/
def handledMessage : Step × Event → Option Bytes
  | (_, .managed message (.updated _)) => message
  | _ => none

/-- The step is an update of the manager. -/
def isUpdate : Step × Event → Bool
  | (_, .managed _ (.updated _)) => true
  | _ => false

/-- The system call that a step of the server made, with the value returned. -/
def systemCall : Step × Event → Option (SystemCall × ℤ)
  | (_, .called call ret) => some (call, ret)
  | _ => none

/-- `main` to its joins, and the server thread to its accepted connection. -/
def connecting : List Step :=
  [.main 0, .main 0, .main 0, .main 0, .serverCall 3, .serverCall 0, .serverCall 0, .serverCall 4]

end CComplete.MainThread
