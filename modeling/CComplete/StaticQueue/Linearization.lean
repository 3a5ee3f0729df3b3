import CComplete.StaticQueue.Interleaving

/-!
# When the two threads need no lock

A call of one thread takes effect with its last turn: the store of the counter, or the test that
refuses the call. If every store of the counter overwrites the value that was loaded, the calls that
return are those of a FIFO list, in the order of these turns (`uninterrupted_run_eq_fifo`). The
condition is exact for the counter: it agrees with the messages in every state of a run if and only
if no store overwrites another value (`counter_exact_iff`). Nothing enforces the condition: from
every state between the calls with a waiting message and a free slot, one send and one receive can
lose an update, after which a message is delivered twice or remains in a queue that is said to be
empty (`lost_update`).
-/

set_option autoImplicit false

namespace CComplete.StaticQueue

open CComplete.Library

/-- If the sending thread stores the counter next, then over the value `waiting` that it loaded. -/
def SendPhase.StoresOver (waiting : UInt32) : SendPhase → Prop
  | .store loaded => loaded = waiting
  | _ => True

/-- If the receiving thread stores the counter next, then over the value `waiting` that it
loaded. -/
def ReceivePhase.StoresOver (waiting : UInt32) : ReceivePhase → Prop
  | .store loaded => loaded = waiting
  | _ => True

instance (waiting : UInt32) (phase : SendPhase) : Decidable (phase.StoresOver waiting) :=
  match phase with
  | .store loaded => inferInstanceAs (Decidable (loaded = waiting))
  | .idle | .check | .copying _ | .advance | .wrap | .load => .isTrue True.intro

instance (waiting : UInt32) (phase : ReceivePhase) : Decidable (phase.StoresOver waiting) :=
  match phase with
  | .store loaded => inferInstanceAs (Decidable (loaded = waiting))
  | .idle | .check | .advance | .wrap | .copying _ | .load => .isTrue True.intro

/-- The turn does not store the counter over another value than the one its thread loaded. -/
def Uninterrupted (s : Threads) : Turn → Prop
  | .sender _ => s.sender.phase.StoresOver s.queue.waitingMessages
  | .receiver _ => s.receiver.phase.StoresOver s.queue.waitingMessages

instance (s : Threads) (turn : Turn) : Decidable (Uninterrupted s turn) :=
  match turn with
  | .sender _ => inferInstanceAs (Decidable (s.sender.phase.StoresOver _))
  | .receiver _ => inferInstanceAs (Decidable (s.receiver.phase.StoresOver _))

/-! ## The messages that wait -/

/-- The bytes of its item that the sending thread has copied. -/
def SendPhase.copied (n : ℕ) : SendPhase → ℕ
  | .idle | .check => 0
  | .copying done => done
  | _ => n

/-- The bytes of its message that the receiving thread has copied. -/
def ReceivePhase.copied (n : ℕ) : ReceivePhase → ℕ
  | .copying done => done
  | .load | .store _ => n
  | _ => 0

/-- The call of `queue_receive` found a message. -/
def ReceivePhase.admitted : ReceivePhase → Bool
  | .idle | .check => false
  | _ => true

/-- The messages `xs` wait, the oldest in slot `r + 1`. The sending thread has copied a part of its
item to the slot after them, and the receiving thread a part of the oldest one to its buffer. -/
structure Holds (z : Sizes) (r : ℕ) (s : Threads) (xs : List Bytes) : Prop where
  sound : Sound z (r + 1 + xs.length) r s
  waiting : s.queue.waitingMessages.toNat = xs.length
  items : z.ring.Segment (fun a x => s.mem.block a z.itemSize.toNat = x) (r + 1) xs
  sending : s.mem.block (z.ring.addr (r + 1 + xs.length))
      (s.sender.phase.copied z.itemSize.toNat) =
    bufferBytes s.sender.pItem (s.sender.phase.copied z.itemSize.toNat)
  sending_le : s.sender.phase.copied z.itemSize.toNat ≤ z.itemSize.toNat
  nonempty : s.receiver.phase.admitted = true → xs ≠ []
  receiving : ∀ x, xs.head? = some x →
    bufferBytes s.receiver.pBuffer (s.receiver.phase.copied z.itemSize.toNat) =
      x.take (s.receiver.phase.copied z.itemSize.toNat)
  receiving_le : s.receiver.phase.copied z.itemSize.toNat ≤ z.itemSize.toNat

variable {z : Sizes} {r : ℕ} {s : Threads} {xs : List Bytes}

/-- Between two calls of both threads. -/
theorem Represents.holds {q : Queue} {mem : Memory} (h : Represents z r q mem xs)
    (pItem pBuffer : ℕ → UInt8) :
    Holds z r ⟨q, mem, ⟨.idle, pItem⟩, ⟨.idle, pBuffer⟩⟩ xs where
  sound := h.sound pItem pBuffer
  waiting := h.waiting
  items := h.items
  sending := rfl
  sending_le := Nat.zero_le _
  nonempty := fun hadmitted => by cases hadmitted
  receiving := fun _ _ => rfl
  receiving_le := Nat.zero_le _

/-- A byte that the sending thread copies is not one of a waiting message. -/
theorem block_copy_byte {done i : ℕ} (hdone : done < z.itemSize.toNat)
    (hroom : xs.length < z.length.toNat) (hi : i < xs.length) (mem : Memory) (src : ℕ → UInt8) :
    (mem.copyIn (z.ring.addr (r + 1 + xs.length) + done) src 1).block (z.ring.addr (r + 1 + i))
        z.itemSize.toNat =
      mem.block (z.ring.addr (r + 1 + i)) z.itemSize.toNat := by
  apply Memory.block_copyIn_of_disjoint
  have hstride : z.ring.stride = z.itemSize.toNat := rfl
  have hdisjoint := z.ring.addr_add_disjoint (r + 1) (Nat.ne_of_gt hi) hroom (hi.trans hroom)
  omega

/-- The sending thread copies one byte more. -/
theorem block_copy_next (mem : Memory) (a : ℤ) (pItem : ℕ → UInt8) {done : ℕ}
    (h : mem.block a done = bufferBytes pItem done) :
    (mem.copyIn (a + done) (fun i => pItem (done + i)) 1).block a (done + 1) =
      bufferBytes pItem (done + 1) := by
  rw [Memory.block_add, Memory.block_copyIn, Memory.block_copyIn_of_disjoint (Or.inr le_rfl), h,
    bufferBytes_add]

/-- A receiving thread that found no message has copied nothing. -/
theorem ReceivePhase.copied_eq_zero {phase : ReceivePhase} (h : phase.admitted = false) (n : ℕ) :
    phase.copied n = 0 := by
  cases phase with
  | idle => rfl
  | check => rfl
  | _ => cases h

/-- What the receiving thread has copied is a part of the oldest message, also once one more waits
behind it. -/
theorem Holds.receiving_snoc (h : Holds z r s xs) (item : Bytes) :
    ∀ x, (xs ++ [item]).head? = some x →
      bufferBytes s.receiver.pBuffer (s.receiver.phase.copied z.itemSize.toNat) =
        x.take (s.receiver.phase.copied z.itemSize.toNat) := by
  intro x hx
  cases xs with
  | nil =>
    have hnone : s.receiver.phase.admitted = false :=
      Bool.eq_false_of_not_eq_true fun hadmitted => h.nonempty hadmitted rfl
    rw [ReceivePhase.copied_eq_zero hnone]
    rfl
  | cons y ys => exact h.receiving x hx

/-- A turn of the sending thread makes the step of the FIFO list with which its call returns, or
leaves the messages. -/
theorem Holds.sendTurn (h : Holds z r s xs) (pItem : ℕ → UInt8)
    (hguard : Uninterrupted s (.sender pItem)) :
    (fifo Bytes z.length.toNat).Makes (fun ys => Holds z r (s.sendTurn pItem).1 ys) xs
      (fifoEntry z.itemSize.toNat (.sender pItem, (s.sendTurn pItem).2)) := by
  have hsound := h.sound.sendTurn pItem
  have hitems := h.items
  have hroom := h.sound.room
  obtain ⟨q, mem, ⟨phase, item⟩, receiver⟩ := s
  cases phase with
  | idle => exact { h with sound := hsound, sending := rfl, sending_le := Nat.zero_le _ }
  | check =>
    by_cases hlt : q.waitingMessages < q.length
    · simp only [Threads.sendTurn, if_pos hlt] at hsound ⊢
      exact { h with sound := hsound, sending := rfl, sending_le := Nat.zero_le _ }
    · have hfull : ¬ xs.length < z.length.toNat := by
        rw [← h.waiting, ← h.sound.length]
        exact fun hlt' => hlt (UInt32.lt_iff_toNat_lt.2 hlt')
      simp only [Threads.sendTurn, if_neg hlt] at hsound ⊢
      refine ⟨?_, congrArg Prod.snd (fifo_send_of_not_lt hfull _)⟩
      rw [fifo_send_of_not_lt hfull]
      exact { h with sound := hsound, sending := rfl, sending_le := Nat.zero_le _ }
  | copying done =>
    have hsize : q.itemSize = z.itemSize := h.sound.itemSize
    have hwrite : q.writeTo = z.ring.addr (r + 1 + xs.length) := h.sound.writeTo
    by_cases hdone : done < q.itemSize.toNat
    · have hfree : xs.length < z.length.toNat := h.waiting ▸ hroom _ rfl
      have hnext : done < z.itemSize.toNat := hsize ▸ hdone
      simp only [Threads.sendTurn, if_pos hdone] at hsound ⊢
      refine { h with sound := hsound, items := ?_, sending := ?_, sending_le := hnext }
      · rw [hwrite]
        exact hitems.mono fun i hi _ hx =>
          (block_copy_byte hnext hfree hi mem fun i => item (done + i)).trans hx
      · rw [hwrite]
        exact block_copy_next mem _ item h.sending
    · have hend : done = z.itemSize.toNat :=
        le_antisymm h.sending_le (not_lt.1 (hsize ▸ hdone))
      simp only [Threads.sendTurn, if_neg hdone] at hsound ⊢
      subst hend
      exact { h with sound := hsound }
  | advance => exact { h with sound := hsound }
  | wrap => exact { h with sound := hsound }
  | load => exact { h with sound := hsound }
  | store loaded =>
    have hloaded : loaded = q.waitingMessages := hguard
    subst hloaded
    have hfree : xs.length < z.length.toNat := h.waiting ▸ hroom _ rfl
    have hcount : (q.waitingMessages + 1).toNat = xs.length + 1 := by
      rw [toNat_add_one_of_lt (hroom _ rfl), h.waiting]
    refine ⟨?_, congrArg Prod.snd (fifo_send_of_lt hfree _)⟩
    rw [fifo_send_of_lt hfree]
    exact
      { sound := by
          rw [List.length_append]
          exact hsound
        waiting := by
          rw [List.length_append]
          exact hcount
        items := hitems.snoc h.sending
        sending := rfl
        sending_le := Nat.zero_le _
        nonempty := fun _ => List.append_ne_nil_of_right_ne_nil _ (List.cons_ne_nil _ _)
        receiving := h.receiving_snoc _
        receiving_le := h.receiving_le }

/-- The receiving thread copies one byte more. -/
theorem buffer_copy_next (mem : Memory) (a : ℤ) (pBuffer : ℕ → UInt8) {done n : ℕ}
    (hdone : done < n) (h : bufferBytes pBuffer done = (mem.block a n).take done) :
    bufferBytes (Function.update pBuffer done (mem.byte (a + done))) (done + 1) =
      (mem.block a n).take (done + 1) := by
  have hbyte : mem.block (a + done) 1 = [mem.byte (a + done)] := by
    simp [Memory.block, bufferBytes]
  rw [bufferBytes_update, h, ← mem.block_take a (Nat.le_of_lt hdone),
    ← mem.block_take a (Nat.succ_le_of_lt hdone), ← hbyte]
  exact (mem.block_add a done 1).symm

/-- The oldest message lies in slot `r + 1`. -/
theorem Holds.oldest (h : Holds z r s xs) {x : Bytes} (hx : xs.head? = some x) :
    s.mem.block (z.ring.addr (r + 1)) z.itemSize.toNat = x := by
  cases xs with
  | nil => cases hx
  | cons y ys =>
    obtain rfl := Option.some.inj hx
    exact h.items.head

/-- A turn of the receiving thread makes the step of the FIFO list with which its call returns, or
leaves the messages. -/
theorem Holds.receiveTurn (h : Holds z r s xs) (pBuffer : ℕ → UInt8)
    (hguard : Uninterrupted s (.receiver pBuffer)) :
    (fifo Bytes z.length.toNat).Makes
      (fun ys => Holds z (r + s.receiver.phase.passes) (s.receiveTurn pBuffer).1 ys) xs
      (fifoEntry z.itemSize.toNat (.receiver pBuffer, (s.receiveTurn pBuffer).2)) := by
  have hsound := h.sound.receiveTurn pBuffer
  have hwaits := h.sound.waits
  obtain ⟨q, mem, sender, ⟨phase, buffer⟩⟩ := s
  cases phase with
  | idle =>
    exact { h with
      sound := hsound, nonempty := fun hadmitted => (by cases hadmitted)
      receiving := fun _ _ => rfl, receiving_le := Nat.zero_le _ }
  | check =>
    by_cases hpos : q.waitingMessages > 0
    · have hne : xs ≠ [] := by
        rintro rfl
        exact absurd (UInt32.lt_iff_toNat_lt.1 hpos) (Nat.not_lt.2 h.waiting.le)
      simp only [Threads.receiveTurn, if_pos hpos] at hsound ⊢
      exact { h with sound := hsound, nonempty := fun _ => hne, receiving := fun _ _ => rfl }
    · have hempty : xs = [] := by
        rw [← List.length_eq_zero_iff, ← h.waiting]
        exact Nat.eq_zero_of_not_pos fun hlt => hpos (UInt32.lt_iff_toNat_lt.2 hlt)
      subst hempty
      simp only [Threads.receiveTurn, if_neg hpos] at hsound ⊢
      refine ⟨?_, rfl⟩
      exact { h with
        sound := hsound, nonempty := fun hadmitted => (by cases hadmitted)
        receiving := fun _ _ => rfl }
  | advance => exact { h with sound := hsound }
  | wrap => exact { h with sound := hsound }
  | copying done =>
    have hsize : q.itemSize = z.itemSize := h.sound.itemSize
    have hread : q.readFrom = z.ring.addr (r + 1) := h.sound.readFrom
    by_cases hdone : done < q.itemSize.toNat
    · have hnext : done < z.itemSize.toNat := hsize ▸ hdone
      simp only [Threads.receiveTurn, if_pos hdone] at hsound ⊢
      refine { h with sound := hsound, receiving := fun x hx => ?_, receiving_le := hnext }
      have hsofar := h.receiving x hx
      rw [← h.oldest hx] at hsofar ⊢
      rw [hread]
      exact buffer_copy_next mem _ buffer hnext hsofar
    · have hend : done = z.itemSize.toNat :=
        le_antisymm h.receiving_le (not_lt.1 (hsize ▸ hdone))
      simp only [Threads.receiveTurn, if_neg hdone] at hsound ⊢
      subst hend
      exact { h with sound := hsound }
  | load => exact { h with sound := hsound }
  | store loaded =>
    have hloaded : loaded = q.waitingMessages := hguard
    subst hloaded
    cases xs with
    | nil => exact absurd rfl (h.nonempty rfl)
    | cons x xs =>
      have hslot : r + 1 + (x :: xs).length = r + 1 + 1 + xs.length := by
        rw [List.length_cons]
        omega
      have hcount : (q.waitingMessages - 1).toNat = xs.length := by
        rw [toNat_sub_one_of_pos (hwaits _ rfl).1, h.waiting]
        rfl
      have hbuffer : bufferBytes buffer z.itemSize.toNat = x := by
        have hall := h.receiving x rfl
        rw [← h.oldest rfl] at hall ⊢
        exact hall.trans (List.take_of_length_le (Memory.length_block _ _ _).le)
      have hsending := h.sending
      rw [hslot] at hsound hsending
      refine ⟨?_, congrArg (fun item => FifoOut.received (some item)) hbuffer.symm⟩
      exact
        { sound := hsound
          waiting := hcount
          items := h.items.tail
          sending := hsending
          sending_le := h.sending_le
          nonempty := fun hadmitted => by cases hadmitted
          receiving := fun _ _ => rfl
          receiving_le := Nat.zero_le _ }

/-! ## Runs without interrupted updates -/

/-- The FIFO list bounded by `length` simulates the two threads, as long as no update is
interrupted. -/
def threadSimulation (z : Sizes) :
    WeakSimulation threads (fifo Bytes z.length.toNat) Uninterrupted where
  rel s xs := ∃ r, Holds z r s xs
  view := fifoEntry z.itemSize.toNat
  rel_step := by
    rintro s xs turn ⟨r, h⟩ hguard
    cases turn with
    | sender pItem => exact (h.sendTurn pItem hguard).mono fun _ hnext => ⟨_, hnext⟩
    | receiver pBuffer => exact (h.receiveTurn pBuffer hguard).mono fun _ hnext => ⟨_, hnext⟩

theorem rel_start (z : Sizes) (mem : Memory) :
    (threadSimulation z).rel (Threads.start z mem) [] := by
  rw [Threads.start_eq]
  exact ⟨_, (represents_created z mem).holds _ _⟩

/-- Two threads on a created queue, one of which sends and the other receives, in any interleaving
of their turns in which no store of the counter overwrites another value than the one loaded: the
calls that return are, in this order, a run of the FIFO list bounded by `length`, and the counter is
the number of messages in that list. -/
theorem uninterrupted_run_eq_fifo (z : Sizes) (mem : Memory) (turns : List Turn)
    (huninterrupted : threads.Guarded Uninterrupted (Threads.start z mem) turns) :
    let returned := (threads.trace (Threads.start z mem) turns).filterMap
      (fifoEntry z.itemSize.toNat)
    returned = (fifo Bytes z.length.toNat).trace [] (returned.map Prod.fst) ∧
      (threads.after (Threads.start z mem) turns).queue.waitingMessages.toNat =
        ((fifo Bytes z.length.toNat).after [] (returned.map Prod.fst)).length := by
  intro returned
  obtain ⟨⟨r, h⟩, htrace⟩ :=
    (threadSimulation z).rel_after_and_trace (rel_start z mem) turns huninterrupted
  exact ⟨htrace, h.waiting⟩

/-- A queue of two items of one byte. -/
def twoBytes : Sizes := ⟨2, 1, by decide, by decide, by decide⟩

/-- Two sends, of which the second one copies its byte while a message is received. -/
def overlapping : List Turn :=
  List.replicate 8 (.sender fun _ => 5) ++ (List.replicate 3 (.sender fun _ => 7) ++
    (List.replicate 8 (.receiver fun _ => 0) ++ List.replicate 5 (.sender fun _ => 7)))

/-- The overlapping calls return as those of the FIFO list. -/
theorem uninterrupted_run_eq_fifo_overlapping :
    (threads.after (Threads.start twoBytes ⟨fun _ => 0, []⟩)
        overlapping).queue.waitingMessages.toNat =
      ((fifo Bytes twoBytes.length.toNat).after []
        (((threads.trace (Threads.start twoBytes ⟨fun _ => 0, []⟩) overlapping).filterMap
          (fifoEntry twoBytes.itemSize.toNat)).map Prod.fst)).length :=
  (uninterrupted_run_eq_fifo twoBytes ⟨fun _ => 0, []⟩ overlapping (by decide)).2

/-! ## Exactly then the counter is right -/

/-- The counter is the number of messages that the calls `returned` accepted less the number of
those they delivered. -/
def CounterExact (s : Threads) (returned : List (FifoIn Bytes × FifoOut Bytes)) : Prop :=
  s.queue.waitingMessages.toNat + (returned.filterMap deliveredItem).length =
    (returned.filterMap acceptedItem).length

variable {returned : List (FifoIn Bytes × FifoOut Bytes)}

/-- A turn that leaves the counter and accepts and delivers nothing keeps the counter right. -/
theorem CounterExact.of_quiet (hexact : CounterExact s returned) {s' : Threads}
    (hcounter : s'.queue.waitingMessages = s.queue.waitingMessages)
    {entry : Option (FifoIn Bytes × FifoOut Bytes)} (haccepted : entry.bind acceptedItem = none)
    (hdelivered : entry.bind deliveredItem = none) :
    CounterExact s' (returned ++ entry.toList) := by
  cases entry with
  | none =>
    rw [CounterExact, hcounter, Option.toList_none, List.append_nil]
    exact hexact
  | some e =>
    rw [Option.bind_some] at haccepted hdelivered
    rw [CounterExact, hcounter, Option.toList_some, Machine.filterMap_snoc, Machine.filterMap_snoc,
      haccepted, hdelivered, Option.toList_none, List.append_nil, List.append_nil]
    exact hexact

/-- The store that ends a send keeps the counter right exactly when the loaded value was right. -/
theorem CounterExact.accept_iff (hexact : CounterExact s returned) {s' : Threads} {loaded : UInt32}
    (hcounter : s'.queue.waitingMessages.toNat = loaded.toNat + 1) (item : Bytes) :
    CounterExact s' (returned ++ [(.send item, .sent true)]) ↔
      loaded = s.queue.waitingMessages := by
  rw [CounterExact] at hexact
  rw [CounterExact, hcounter, Machine.filterMap_snoc, Machine.filterMap_snoc, ← UInt32.toNat_inj]
  simp only [deliveredItem_send, acceptedItem_send_true, Option.toList_none, Option.toList_some,
    List.append_nil, List.length_append, List.length_singleton]
  omega

/-- The store that ends a receive keeps the counter right exactly when the loaded value was
right. -/
theorem CounterExact.deliver_iff (hexact : CounterExact s returned) {s' : Threads}
    {loaded : UInt32} (hcounter : s'.queue.waitingMessages.toNat + 1 = loaded.toNat)
    (item : Bytes) :
    CounterExact s' (returned ++ [(.receive, .received (some item))]) ↔
      loaded = s.queue.waitingMessages := by
  rw [CounterExact] at hexact
  rw [CounterExact, Machine.filterMap_snoc, Machine.filterMap_snoc, ← UInt32.toNat_inj]
  simp only [deliveredItem_received, acceptedItem_receive, Option.toList_none, Option.toList_some,
    List.append_nil, List.length_append, List.length_singleton]
  omega

theorem CounterExact.sendTurn_iff {p r : ℕ} (hexact : CounterExact s returned)
    (h : Sound z p r s) (pItem : ℕ → UInt8) (n : ℕ) :
    CounterExact (s.sendTurn pItem).1
        (returned ++ (fifoEntry n (.sender pItem, (s.sendTurn pItem).2)).toList) ↔
      Uninterrupted s (.sender pItem) := by
  have hroom := h.room
  obtain ⟨q, mem, ⟨phase, item⟩, receiver⟩ := s
  cases phase with
  | check =>
    by_cases hlt : q.waitingMessages < q.length
    · simp only [Threads.sendTurn, if_pos hlt]
      exact iff_of_true (hexact.of_quiet rfl rfl rfl) True.intro
    · simp only [Threads.sendTurn, if_neg hlt]
      exact iff_of_true (hexact.of_quiet rfl rfl rfl) True.intro
  | copying done =>
    by_cases hdone : done < q.itemSize.toNat
    · simp only [Threads.sendTurn, if_pos hdone]
      exact iff_of_true (hexact.of_quiet rfl rfl rfl) True.intro
    · simp only [Threads.sendTurn, if_neg hdone]
      exact iff_of_true (hexact.of_quiet rfl rfl rfl) True.intro
  | store loaded =>
    exact hexact.accept_iff (toNat_add_one_of_lt (hroom loaded rfl)) (bufferBytes item n)
  | _ => exact iff_of_true (hexact.of_quiet rfl rfl rfl) True.intro

theorem CounterExact.receiveTurn_iff {p r : ℕ} (hexact : CounterExact s returned)
    (h : Sound z p r s) (pBuffer : ℕ → UInt8) (n : ℕ) :
    CounterExact (s.receiveTurn pBuffer).1
        (returned ++ (fifoEntry n (.receiver pBuffer, (s.receiveTurn pBuffer).2)).toList) ↔
      Uninterrupted s (.receiver pBuffer) := by
  have hwaits := h.waits
  obtain ⟨q, mem, sender, ⟨phase, buffer⟩⟩ := s
  cases phase with
  | check =>
    by_cases hpos : q.waitingMessages > 0
    · simp only [Threads.receiveTurn, if_pos hpos]
      exact iff_of_true (hexact.of_quiet rfl rfl rfl) True.intro
    · simp only [Threads.receiveTurn, if_neg hpos]
      exact iff_of_true (hexact.of_quiet rfl rfl rfl) True.intro
  | copying done =>
    by_cases hdone : done < q.itemSize.toNat
    · simp only [Threads.receiveTurn, if_pos hdone]
      exact iff_of_true (hexact.of_quiet rfl rfl rfl) True.intro
    · simp only [Threads.receiveTurn, if_neg hdone]
      exact iff_of_true (hexact.of_quiet rfl rfl rfl) True.intro
  | store loaded =>
    have hpos := (hwaits loaded rfl).1
    have hcounter : (loaded - 1).toNat + 1 = loaded.toNat := by
      rw [toNat_sub_one_of_pos hpos]
      exact Nat.sub_add_cancel hpos
    exact hexact.deliver_iff hcounter (bufferBytes buffer n)
  | _ => exact iff_of_true (hexact.of_quiet rfl rfl rfl) True.intro

/-- For every interleaving of the turns of the two threads: in every state on the way the counter is
the number of messages accepted and not delivered, if and only if no store of the counter overwrites
another value than the one that its thread loaded. -/
theorem counter_exact_iff (z : Sizes) (mem : Memory) (turns : List Turn) :
    (∀ earlier, earlier <+: turns →
      CounterExact (threads.after (Threads.start z mem) earlier)
        ((threads.trace (Threads.start z mem) earlier).filterMap (fifoEntry z.itemSize.toNat))) ↔
      threads.Guarded Uninterrupted (Threads.start z mem) turns := by
  refine (threads.guarded_iff_forall_prefix (I := fun s => ∃ p r, Sound z p r s)
    (P := fun s t => CounterExact s (t.filterMap (fifoEntry z.itemSize.toNat)))
    (Threads.start z mem) (sound_start z mem) ?_ ?_ ?_ turns).symm
  · rintro s turn ⟨p, r, h⟩
    cases turn with
    | sender pItem => exact ⟨_, _, h.sendTurn pItem⟩
    | receiver pBuffer => exact ⟨_, _, h.receiveTurn pBuffer⟩
  · rw [Threads.start_eq]
    rfl
  · rintro s t turn ⟨p, r, h⟩ hexact
    rw [Machine.filterMap_snoc]
    cases turn with
    | sender pItem => exact hexact.sendTurn_iff h pItem _
    | receiver pBuffer => exact hexact.receiveTurn_iff h pBuffer _

/-! ## A lost update -/

/-- The messages that the calls accepted in a run from a created queue. -/
def acceptedMessages (z : Sizes) (mem : Memory) (turns : List Turn) : List Bytes :=
  ((threads.trace (Threads.start z mem) turns).filterMap
    (fifoEntry z.itemSize.toNat)).filterMap acceptedItem

/-- The messages that the calls delivered in a run from a created queue. -/
def deliveredMessages (z : Sizes) (mem : Memory) (turns : List Turn) : List Bytes :=
  ((threads.trace (Threads.start z mem) turns).filterMap
    (fifoEntry z.itemSize.toNat)).filterMap deliveredItem

/-- After a run without interrupted updates the counter is right. -/
theorem counterExact_after (z : Sizes) (mem : Memory) (turns : List Turn)
    (huninterrupted : threads.Guarded Uninterrupted (Threads.start z mem) turns) :
    (threads.after (Threads.start z mem) turns).queue.waitingMessages.toNat +
        (deliveredMessages z mem turns).length =
      (acceptedMessages z mem turns).length := by
  obtain ⟨⟨r, h⟩, htrace⟩ :=
    (threadSimulation z).rel_after_and_trace (rel_start z mem) turns huninterrupted
  have hfifo : ((fifo Bytes z.length.toNat).trace [] _).filterMap acceptedItem = _ :=
    fifo_accepted_eq ((threadSimulation z).inputs (Threads.start z mem) turns)
  have hlength := congrArg List.length hfifo
  rw [← htrace, List.length_append] at hlength
  rw [h.waiting, Nat.add_comm]
  exact hlength.symm

variable {n : ℕ}

/-- A turn of the receiving thread. -/
def Turn.IsReceiver : Turn → Prop
  | .sender _ => False
  | .receiver _ => True

/-- In the turns one call of `queue_send` is accepted, one call of `queue_receive` delivers a
message, and no other call is made: at their end both threads are between their calls. -/
def OneSendOneReceive (n : ℕ) (s : Threads) (turns : List Turn) : Prop :=
  (∃ item message, ((threads.trace s turns).filterMap (fifoEntry n)).Perm
    [(.send item, .sent true), (.receive, .received (some message))]) ∧
  (threads.after s turns).sender.phase = .idle ∧ (threads.after s turns).receiver.phase = .idle

/-- The receiving thread alone takes a message if the counter says that one waits. -/
theorem runs_receive_some (q : Queue) (mem : Memory) (sender : Sender) (pBuffer : ℕ → UInt8)
    (hpos : q.waitingMessages > 0) :
    ∃ k item q' mem' pBuffer',
      threads.Runs (fifoEntry n) ⟨q, mem, sender, ⟨.idle, pBuffer⟩⟩
        (List.replicate k (.receiver pBuffer)) [(.receive, .received (some item))]
        ⟨q', mem', sender, ⟨.idle, pBuffer'⟩⟩ ∧
      q'.waitingMessages = q.waitingMessages - 1 := by
  obtain ⟨k, hruns⟩ := runs_receive (n := n) q mem sender pBuffer pBuffer
  simp only [queueReceive, if_pos hpos, if_true] at hruns
  exact ⟨_, _, _, _, _, hruns, rfl⟩

/-- The receiving thread alone takes as many messages as the counter says. -/
theorem runs_receives (sender : Sender) (m : ℕ) :
    ∀ (q : Queue) (mem : Memory) (pBuffer : ℕ → UInt8), q.waitingMessages.toNat = m →
      ∃ turns shown q' mem' pBuffer', (∀ turn ∈ turns, turn.IsReceiver) ∧
        threads.Runs (fifoEntry n) ⟨q, mem, sender, ⟨.idle, pBuffer⟩⟩ turns shown
          ⟨q', mem', sender, ⟨.idle, pBuffer'⟩⟩ ∧
        q'.waitingMessages = 0 ∧ (shown.filterMap deliveredItem).length = m ∧
        shown.filterMap acceptedItem = [] := by
  induction m with
  | zero =>
    intro q mem pBuffer hcount
    exact ⟨[], [], q, mem, pBuffer, fun _ hno => absurd hno List.not_mem_nil, Machine.Runs.refl,
      UInt32.toNat_inj.1 hcount, rfl, rfl⟩
  | succ m ih =>
    intro q mem pBuffer hcount
    have hpos : 0 < q.waitingMessages.toNat := hcount ▸ Nat.zero_lt_succ m
    obtain ⟨k, item, q', mem', pBuffer', hfirst, hless⟩ :=
      runs_receive_some q mem sender pBuffer (UInt32.lt_iff_toNat_lt.2 hpos)
    have hcount' : q'.waitingMessages.toNat = m := by
      rw [hless, toNat_sub_one_of_pos hpos, hcount]
      rfl
    obtain ⟨turns', shown, q'', mem'', pBuffer'', hall, hrest, hempty, hdelivered, haccepted⟩ :=
      ih q' mem' pBuffer' hcount'
    refine ⟨_, _, q'', mem'', pBuffer'', ?_, hfirst.append hrest, hempty, ?_, ?_⟩
    · refine List.forall_mem_append.2 ⟨fun turn hturn => ?_, hall⟩
      rw [List.eq_of_mem_replicate hturn]
      exact True.intro
    · simpa using hdelivered
    · simpa using haccepted

/-- From between the calls, with a message and a free slot, both threads come before their stores
of the counter, with the same value loaded. -/
theorem runs_to_both_stores (q : Queue) (mem : Memory) (pItem pBuffer : ℕ → UInt8)
    (hwaits : q.waitingMessages > 0) (hroom : q.waitingMessages < q.length) :
    ∃ turns q' mem' buffer,
      threads.Runs (fifoEntry n) ⟨q, mem, ⟨.idle, pItem⟩, ⟨.idle, pBuffer⟩⟩ turns []
        ⟨q', mem', ⟨.store q.waitingMessages, pItem⟩, ⟨.store q.waitingMessages, buffer⟩⟩ :=
  ⟨_, _, _, _, (runs_send_to_store q mem _ pItem pItem hroom).append
    (runs_receive_to_store { q with writeTo := q.advance q.writeTo } _ _ pBuffer pBuffer hwaits)⟩

/-- The two stores in one order: the counter says one message too many. -/
theorem runs_send_stores_last (q : Queue) (mem : Memory) (pItem pBuffer : ℕ → UInt8)
    (hwaits : q.waitingMessages > 0) (hroom : q.waitingMessages < q.length) :
    ∃ turns x y q' mem' buffer,
      threads.Runs (fifoEntry n) ⟨q, mem, ⟨.idle, pItem⟩, ⟨.idle, pBuffer⟩⟩ turns
        [(.receive, .received (some x)), (.send y, .sent true)]
        ⟨q', mem', ⟨.idle, pItem⟩, ⟨.idle, buffer⟩⟩ ∧
      q'.waitingMessages = q.waitingMessages + 1 := by
  obtain ⟨turns, q', mem', buffer, hruns⟩ := runs_to_both_stores q mem pItem pBuffer hwaits hroom
  have hstores : threads.Runs (fifoEntry n)
      ⟨q', mem', ⟨.store q.waitingMessages, pItem⟩, ⟨.store q.waitingMessages, buffer⟩⟩
      [.receiver pBuffer, .sender pItem]
      [(.receive, .received (some (bufferBytes buffer n))),
        (.send (bufferBytes pItem n), .sent true)]
      ⟨{ q' with waitingMessages := q.waitingMessages + 1 }, mem', ⟨.idle, pItem⟩,
        ⟨.idle, buffer⟩⟩ := ⟨rfl, rfl⟩
  exact ⟨_, _, _, _, _, _, hruns.append hstores, rfl⟩

/-- The two stores in the other order: the counter says one message too few. -/
theorem runs_receive_stores_last (q : Queue) (mem : Memory) (pItem pBuffer : ℕ → UInt8)
    (hwaits : q.waitingMessages > 0) (hroom : q.waitingMessages < q.length) :
    ∃ turns x y q' mem' buffer,
      threads.Runs (fifoEntry n) ⟨q, mem, ⟨.idle, pItem⟩, ⟨.idle, pBuffer⟩⟩ turns
        [(.send y, .sent true), (.receive, .received (some x))]
        ⟨q', mem', ⟨.idle, pItem⟩, ⟨.idle, buffer⟩⟩ ∧
      q'.waitingMessages = q.waitingMessages - 1 := by
  obtain ⟨turns, q', mem', buffer, hruns⟩ := runs_to_both_stores q mem pItem pBuffer hwaits hroom
  have hstores : threads.Runs (fifoEntry n)
      ⟨q', mem', ⟨.store q.waitingMessages, pItem⟩, ⟨.store q.waitingMessages, buffer⟩⟩
      [.sender pItem, .receiver pBuffer]
      [(.send (bufferBytes pItem n), .sent true),
        (.receive, .received (some (bufferBytes buffer n)))]
      ⟨{ q' with waitingMessages := q.waitingMessages - 1 }, mem', ⟨.idle, pItem⟩,
        ⟨.idle, buffer⟩⟩ := ⟨rfl, rfl⟩
  exact ⟨_, _, _, _, _, _, hruns.append hstores, rfl⟩

/-- Where the turns of a run without interrupted updates end between the calls, with a message and
a free slot: after one send and one receive that interrupt each other, receives deliver more
messages than were accepted; and after one send and one receive in other turns, receives come to a
state between the calls in which a message was accepted and not delivered, but the counter says that
the queue is empty. -/
theorem lost_update (z : Sizes) (mem : Memory) (turns : List Turn)
    (huninterrupted : threads.Guarded Uninterrupted (Threads.start z mem) turns)
    (hsender : (threads.after (Threads.start z mem) turns).sender.phase = .idle)
    (hreceiver : (threads.after (Threads.start z mem) turns).receiver.phase = .idle)
    (hwaits : 0 < (threads.after (Threads.start z mem) turns).queue.waitingMessages)
    (hroom : (threads.after (Threads.start z mem) turns).queue.waitingMessages <
      (threads.after (Threads.start z mem) turns).queue.length) :
    (∃ both receives,
      OneSendOneReceive z.itemSize.toNat (threads.after (Threads.start z mem) turns) both ∧
      (∀ turn ∈ receives, turn.IsReceiver) ∧
      (acceptedMessages z mem (turns ++ (both ++ receives))).length <
        (deliveredMessages z mem (turns ++ (both ++ receives))).length) ∧
    ∃ both receives,
      OneSendOneReceive z.itemSize.toNat (threads.after (Threads.start z mem) turns) both ∧
      (∀ turn ∈ receives, turn.IsReceiver) ∧
      (deliveredMessages z mem (turns ++ (both ++ receives))).length <
        (acceptedMessages z mem (turns ++ (both ++ receives))).length ∧
      let s := threads.after (Threads.start z mem) (turns ++ (both ++ receives))
      s.sender.phase = .idle ∧ s.receiver.phase = .idle ∧ s.queue.waitingMessages = 0 := by
  have hcount := counterExact_after z mem turns huninterrupted
  obtain ⟨returned, hreturned⟩ : ∃ returned, (threads.trace (Threads.start z mem) turns).filterMap
      (fifoEntry z.itemSize.toNat) = returned := ⟨_, rfl⟩
  have hstart : threads.Runs (fifoEntry z.itemSize.toNat) (Threads.start z mem) turns returned
      (threads.after (Threads.start z mem) turns) := ⟨rfl, hreturned⟩
  rw [acceptedMessages, deliveredMessages, hreturned] at hcount
  generalize threads.after (Threads.start z mem) turns = s at *
  obtain ⟨q, mem', ⟨sendPhase, pItem⟩, ⟨receivePhase, pBuffer⟩⟩ := s
  obtain rfl : sendPhase = .idle := hsender
  obtain rfl : receivePhase = .idle := hreceiver
  have hexact : q.waitingMessages.toNat + (returned.filterMap deliveredItem).length =
    (returned.filterMap acceptedItem).length := hcount
  constructor
  · obtain ⟨both, x, y, q₁, mem₁, pBuffer₁, hstores, hmore⟩ :=
      runs_send_stores_last q mem' pItem pBuffer hwaits hroom
    obtain ⟨receives, shown, q₂, mem₂, pBuffer₂, hall, hdrain, -, hdelivered, haccepted⟩ :=
      runs_receives ⟨.idle, pItem⟩ _ q₁ mem₁ pBuffer₁ rfl
    have hdelivered' : (shown.filterMap deliveredItem).length = q.waitingMessages.toNat + 1 := by
      rw [hdelivered, hmore, toNat_add_one_of_lt (UInt32.lt_iff_toNat_lt.1 hroom)]
    refine ⟨both, receives, ⟨⟨y, x, ?_⟩, ?_, ?_⟩, hall, ?_⟩
    · rw [hstores.2]
      exact List.Perm.swap _ _ _
    · rw [hstores.1]
    · rw [hstores.1]
    rw [acceptedMessages, deliveredMessages, (hstart.append (hstores.append hdrain)).2]
    simp only [List.filterMap_append, List.length_append, hdelivered', haccepted, List.length_nil]
    change _ + (1 + 0) < _ + (1 + _)
    omega
  · obtain ⟨both, x, y, q₁, mem₁, pBuffer₁, hstores, hless⟩ :=
      runs_receive_stores_last q mem' pItem pBuffer hwaits hroom
    obtain ⟨receives, shown, q₂, mem₂, pBuffer₂, hall, hdrain, hempty, hdelivered, haccepted⟩ :=
      runs_receives ⟨.idle, pItem⟩ _ q₁ mem₁ pBuffer₁ rfl
    have hpos : 0 < q.waitingMessages.toNat := UInt32.lt_iff_toNat_lt.1 hwaits
    have hdelivered' : (shown.filterMap deliveredItem).length = q.waitingMessages.toNat - 1 := by
      rw [hdelivered, hless, toNat_sub_one_of_pos hpos]
    obtain ⟨hafter, hshown⟩ := hstart.append (hstores.append hdrain)
    refine ⟨both, receives, ⟨⟨y, x, ?_⟩, ?_, ?_⟩, hall, ?_⟩
    · rw [hstores.2]
    · rw [hstores.1]
    · rw [hstores.1]
    rw [acceptedMessages, deliveredMessages, hshown, hafter]
    refine ⟨?_, rfl, rfl, hempty⟩
    simp only [List.filterMap_append, List.length_append, hdelivered', haccepted, List.length_nil]
    change _ + (1 + _) < _ + (1 + 0)
    omega

/-- After one accepted message, a run can deliver more messages than were accepted. -/
theorem lost_update_after_send :
    ∃ more, (acceptedMessages twoBytes ⟨fun _ => 0, []⟩
        (List.replicate 8 (.sender fun _ => 5) ++ more)).length <
      (deliveredMessages twoBytes ⟨fun _ => 0, []⟩
        (List.replicate 8 (.sender fun _ => 5) ++ more)).length := by
  obtain ⟨both, receives, -, -, hmore⟩ := (lost_update twoBytes ⟨fun _ => 0, []⟩
    (List.replicate 8 (.sender fun _ => 5)) (by decide) (by decide) (by decide) (by decide)
    (by decide)).1
  exact ⟨both ++ receives, hmore⟩

end CComplete.StaticQueue
