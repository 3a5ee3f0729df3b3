import CComplete.StateManager.Model
import CComplete.StaticQueue.Fifo

/-!
# The state manager follows its transition table

The reference is the fold of `transition` over messages: a change-state command moves to a target
that differs from the current state, is registered and is in the transition map of the current
state; every other message is ignored. On every interleaving of producers and manager, the state
of the manager is the fold over the messages it has consumed, which are the first ones that
`queue_send` accepted (`manager_state_eq_fold`).
-/

set_option autoImplicit false

namespace CComplete.StateManager

open CComplete.Library CComplete.StaticQueue

/-! ## The reference -/

/-- The states registered by the initialization. -/
def registry : List State := [survivalState, missionState]

/-- The state `t` is registered, and in the transition map of the registered state `s`. -/
def CanMove (s t : StateId) : Prop :=
  t ≠ s ∧ (∃ st ∈ registry, st.stateId = t) ∧
    ∃ st ∈ registry, st.stateId = s ∧ t ∈ st.getTransitionMapCallback.call

instance (s t : StateId) : Decidable (CanMove s t) :=
  inferInstanceAs (Decidable (_ ∧ _ ∧ _))

/-- The state after the message `msg` in state `s`. -/
def transition (s : StateId) (msg : Bytes) : StateId :=
  if msg[0]? = some stateECommandChangeState ∧ CanMove s (msg.getD 1 0).toNat then
    (msg.getD 1 0).toNat
  else s

/-- The message a step put into the queue. -/
def acceptedMessage : Step × Reply → Option Bytes
  | (.produce message, .produced code) =>
      if code = 0 then some (bufferBytes message commQueueSize.toNat) else none
  | _ => none

/-- The step is an update that received a message. -/
def isConsumption : Step × Reply → Bool
  | (.update, .updated received _) => received
  | _ => false

/-! ## One command -/

theorem isTransitionAllowedLoop_iff (t : StateId) (map : List StateId) :
    isTransitionAllowedLoop t map = true ↔ t ∈ map := by
  induction map with
  | nil => simp [isTransitionAllowedLoop]
  | cons a rest ih =>
    by_cases h : a = t
    · simp [isTransitionAllowedLoop, h]
    · simp [isTransitionAllowedLoop, h, ih, Ne.symm h]

theorem getStateInMapLoop_ok {t : StateId} {map : List State} {st : State}
    (h : getStateInMapLoop t map = .ok st) : st ∈ map ∧ st.stateId = t := by
  induction map with
  | nil => cases h
  | cons a rest ih =>
    rw [getStateInMapLoop] at h
    split at h
    · next ha =>
      obtain rfl := Except.ok.inj h
      exact ⟨List.mem_cons_self, ha⟩
    · exact ⟨List.mem_cons_of_mem _ (ih h).1, (ih h).2⟩

theorem getStateInMapLoop_error {t : StateId} {map : List State} {e : StateError}
    (h : getStateInMapLoop t map = .error e) : ∀ st ∈ map, st.stateId ≠ t := by
  induction map with
  | nil => exact fun st hst => absurd hst List.not_mem_nil
  | cons a rest ih =>
    rw [getStateInMapLoop] at h
    split at h
    · cases h
    · next ha =>
      intro st hst
      rcases List.mem_cons.1 hst with rfl | hst
      · exact ha
      · exact ih h st hst

/-- Registered states are determined by their identifiers. -/
theorem registry_injective {st st' : State} (h : st ∈ registry) (h' : st' ∈ registry)
    (hid : st.stateId = st'.stateId) : st = st' := by
  simp only [registry, List.mem_cons, List.not_mem_nil, or_false] at h h'
  rcases h with rfl | rfl <;> rcases h' with rfl | rfl
  · rfl
  · exact absurd hid (by decide)
  · exact absurd hid (by decide)
  · rfl

/-- A change-state command moves a registered current state as the reference does, to a registered
state; it touches nothing else. -/
theorem changeState_spec {m : Manager} (hmap : m.stateMap = registry)
    (hcur : m.currentState ∈ registry) (t : StateId) :
    ∃ st ∈ registry, (changeState m t).2 = { m with currentState := st } ∧
      st.stateId = if CanMove m.currentState.stateId t then t else m.currentState.stateId := by
  by_cases hsame : m.currentState.stateId = t
  · refine ⟨m.currentState, hcur, by rw [changeState, if_pos hsame], ?_⟩
    rw [if_neg fun h => h.1 hsame.symm]
  · by_cases hallowed : isTransitionAllowed m t = true
    · have hmem : t ∈ m.currentState.getTransitionMapCallback.call :=
        (isTransitionAllowedLoop_iff t _).1 hallowed
      cases hfind : getStateInMap m t with
      | ok st =>
        rw [getStateInMap, hmap] at hfind
        obtain ⟨hst, hid⟩ := getStateInMapLoop_ok hfind
        refine ⟨st, hst, ?_, ?_⟩
        · rw [changeState, if_neg hsame, if_pos hallowed, getStateInMap, hmap, hfind]
        · rw [if_pos ⟨Ne.symm hsame, ⟨st, hst, hid⟩, m.currentState, hcur, rfl, hmem⟩]
          exact hid
      | error e =>
        -- allowed by the map but not registered: the reference does not move either
        have hfind' := hfind
        rw [getStateInMap, hmap] at hfind'
        have hnone := getStateInMapLoop_error hfind'
        refine ⟨m.currentState, hcur, ?_, ?_⟩
        · rw [changeState, if_neg hsame, if_pos hallowed, hfind]
        · rw [if_neg]
          rintro ⟨-, ⟨st, hst, hid⟩, -⟩
          exact hnone st hst hid
    · refine ⟨m.currentState, hcur, by rw [changeState, if_neg hsame, if_neg hallowed], ?_⟩
      rw [if_neg]
      rintro ⟨-, -, st, hst, hid, hmem⟩
      -- the registered state with this identifier is the current one, whose map was searched
      obtain rfl := registry_injective hst hcur hid
      exact hallowed ((isTransitionAllowedLoop_iff t _).2 hmem)

/-! ## One step of the system -/

/-- Sizes of the communication queue. -/
def commSizes : Sizes := ⟨commQueueSize, commQueueSize, by decide, by decide, by decide⟩

/-- What every step preserves: the queue holds the accepted messages that are not yet consumed, and
the current state is the registered state reached by the consumed ones. -/
structure Follows (m : Manager) (t : List (Step × Reply)) : Prop where
  map : m.stateMap = registry
  registered : m.currentState ∈ registry
  history : ∃ r consumed waiting, Represents commSizes r m.commQueue m.mem waiting ∧
    t.filterMap acceptedMessage = consumed ++ waiting ∧
    t.countP isConsumption = consumed.length ∧
    m.currentState.stateId = consumed.foldl transition stateESurvival

/-- The update of a manager whose queue is empty changes nothing. -/
theorem update_of_empty {m : Manager} {r : ℕ} (h : Represents commSizes r m.commQueue m.mem []) :
    update m = (.noError, m) := by
  simp only [update, h.receive_eq_of_nil]
  rfl

/-- The update of a manager whose queue is not empty executes the oldest message. -/
theorem update_of_waiting {m : Manager} {r : ℕ} {x : Bytes} {xs : List Bytes}
    (hmap : m.stateMap = registry) (hcur : m.currentState ∈ registry)
    (h : Represents commSizes r m.commQueue m.mem (x :: xs)) :
    ∃ st ∈ registry, st.stateId = transition m.currentState.stateId x ∧
      (update m).2 =
        { m with
          currentState := st
          commQueue := (queueReceive m.commQueue m.mem fun _ => 0).2.1
          mem := (queueReceive m.commQueue m.mem fun _ => 0).2.2.1 } := by
  have hbuf := h.receive_buffer fun _ => 0
  have hcode : (queueReceive m.commQueue m.mem fun _ => 0).1 = 0 := by
    rw [h.receive_eq_of_cons]
  simp only [update, hcode, if_true]
  generalize queueReceive m.commQueue m.mem (fun _ => 0) = reply at hbuf ⊢
  obtain ⟨code, q', mem', buf⟩ := reply
  -- the three bytes of the message are the first three bytes of the buffer
  have hx : x = [buf 0, buf 1, buf 2] := hbuf.symm
  subst hx
  by_cases hcmd : buf 0 = stateECommandChangeState
  · obtain ⟨st, hst, heq, hid⟩ :=
      changeState_spec (m := { m with commQueue := q', mem := mem' }) hmap hcur (buf 1).toNat
    refine ⟨st, hst, ?_, ?_⟩
    · rw [hid]
      simp [transition, hcmd]
    · simp only [hcmd, if_true]
      exact heq
  · refine ⟨m.currentState, hcur, ?_, ?_⟩
    · simp [transition, hcmd]
    · simp [hcmd]

theorem follows_produce {m : Manager} {t : List (Step × Reply)} (h : Follows m t)
    (message : ℕ → UInt8) :
    Follows (system.step m (.produce message)).1
      (t ++ [(.produce message, (system.step m (.produce message)).2)]) := by
  obtain ⟨r, consumed, waiting, hrep, hacc, hcons, hstate⟩ := h.history
  refine ⟨h.map, h.registered, ?_⟩
  by_cases hlt : waiting.length < commSizes.length.toNat
  -- accepted: one more waiting message
  · refine ⟨r, consumed, waiting ++ [bufferBytes message commQueueSize.toNat],
      hrep.send hlt message, ?_, ?_, hstate⟩
    · simp [List.filterMap_append, hacc, system, hrep.send_eq_of_lt hlt,
        acceptedMessage]
    · simp [List.countP_append, hcons, isConsumption]
  -- refused: the queue is full and the message is lost
  · refine ⟨r, consumed, waiting, ?_, ?_, ?_, hstate⟩
    · simpa only [system, hrep.send_eq_of_not_lt hlt] using hrep
    · simp [List.filterMap_append, hacc, system, hrep.send_eq_of_not_lt hlt,
        acceptedMessage]
    · simp [List.countP_append, hcons, isConsumption]

theorem follows_update {m : Manager} {t : List (Step × Reply)} (h : Follows m t) :
    Follows (system.step m .update).1 (t ++ [(.update, (system.step m .update).2)]) := by
  obtain ⟨r, consumed, waiting, hrep, hacc, hcons, hstate⟩ := h.history
  cases waiting with
  | nil =>
    have hstep : (system.step m .update).1 = m := by
      show (update m).2 = m
      rw [update_of_empty hrep]
    rw [hstep]
    refine ⟨h.map, h.registered, r, consumed, [], hrep, ?_, ?_, hstate⟩
    · simp [List.filterMap_append, List.filterMap_cons, hacc, acceptedMessage]
    · simp [List.countP_append, hcons, isConsumption, system, hrep.receive_eq_of_nil]
  | cons x xs =>
    -- the oldest waiting message becomes the last consumed one
    obtain ⟨st, hst, hid, heq⟩ := update_of_waiting h.map h.registered hrep
    have hstep : (system.step m .update).1 = (update m).2 := rfl
    rw [hstep, heq]
    refine ⟨h.map, hst, r + 1, consumed ++ [x], xs, hrep.receive _, ?_, ?_, ?_⟩
    · simp [List.filterMap_append, List.filterMap_cons, hacc, acceptedMessage]
    · simp [List.countP_append, List.countP_cons, hcons, isConsumption, system,
        hrep.receive_eq_of_cons]
    · rw [hid, hstate, List.foldl_append]
      rfl

/-! ## Whole runs -/

theorem follows_initialization {q₀ : Queue} (hnew : q₀.length = 0) (mem : Memory) :
    Follows (initialization (createQueue q₀ commQueueSize commQueueSize).2 mem).2 [] := by
  have hcreate := createQueue_eq commSizes hnew
  have hrep : Represents commSizes (commSizes.length.toNat - 1)
      (createQueue q₀ commSizes.length commSizes.itemSize).2 mem [] := by
    rw [hcreate]
    exact represents_created commSizes mem
  exact ⟨rfl, List.mem_cons_self, _, [], [], hrep, rfl, rfl, rfl⟩

/-- On every interleaving of producer steps and updates, started on the created 3-item, 3-byte
queue: after `m` consumed messages the current state is the fold of the reference over the first
`m` accepted messages, from the survival state, and the current state is one of the registered
states, with all three of its fields. -/
theorem manager_state_eq_fold (q₀ : Queue) (hnew : q₀.length = 0) (mem : Memory)
    (steps : List Step) :
    (createQueue q₀ commQueueSize commQueueSize).1 = 0 ∧
      let m₀ := (initialization (createQueue q₀ commQueueSize commQueueSize).2 mem).2
      let m := system.after m₀ steps
      let t := system.trace m₀ steps
      m.currentState.stateId =
          ((t.filterMap acceptedMessage).take (t.countP isConsumption)).foldl
            transition stateESurvival ∧
        m.currentState ∈ registry ∧ m.stateMap = registry := by
  have hcreate := createQueue_eq commSizes hnew
  refine ⟨congrArg Prod.fst hcreate, ?_⟩
  have hrun := system.run_induction (P := Follows) _ (follows_initialization hnew mem)
    (fun m t i h => by
      cases i with
      | produce message => exact follows_produce h message
      | update => exact follows_update h) steps
  obtain ⟨hmap, hreg, r, consumed, waiting, -, hacc, hcons, hstate⟩ := hrun
  refine ⟨?_, hreg, hmap⟩
  rw [hacc, hcons, List.take_left, hstate]

/-- One accepted command `[1, 2, 0]` and one update take the manager to the mission state. -/
theorem manager_state_eq_fold_mission :
    (system.after (initialization (createQueue Queue.zero commQueueSize commQueueSize).2
        ⟨fun _ => 0, []⟩).2
      [.produce fun i => [1, 2, 0].getD i 0, .update]).currentState.stateId = stateEMission := by
  have h := (manager_state_eq_fold Queue.zero rfl ⟨fun _ => 0, []⟩
    [.produce fun i => [1, 2, 0].getD i 0, .update]).2.1
  exact h.trans (by decide)

end CComplete.StateManager
