import CComplete.StaticQueue.Threads

/-!
# What no interleaving of the two threads breaks

The cursor `write_to` is assigned by the sending thread only, and `read_from` by the receiving
thread only. An update of the counter can be lost when the other thread stores between its load and
its store, but what is stored is never more than the length and never less than zero. Hence,
whatever the order of the turns, the counter stays within the length and every byte touched lies
between `head` and `tail` (`any_interleaving_safe`).
-/

set_option autoImplicit false

namespace CComplete.StaticQueue

open CComplete.Library

/-- The `write_to` of a sending thread whose call fills the slot `p`. -/
def SendPhase.cursor (z : Sizes) (p : ℕ) : SendPhase → ℤ
  | .wrap => z.ring.addr p + z.ring.stride
  | .load | .store _ => z.ring.addr (p + 1)
  | _ => z.ring.addr p

/-- The `read_from` of a receiving thread whose call empties the slot `r + 1`. -/
def ReceivePhase.cursor (z : Sizes) (r : ℕ) : ReceivePhase → ℤ
  | .wrap => z.ring.addr r + z.ring.stride
  | .copying _ | .load | .store _ => z.ring.addr (r + 1)
  | _ => z.ring.addr r

/-- The value of the counter that a call of `queue_send` goes on with, once it found room: the one
it loaded, or else the one it will load. -/
def SendPhase.counted (waiting : UInt32) : SendPhase → Option UInt32
  | .idle | .check => none
  | .store loaded => some loaded
  | _ => some waiting

/-- The value of the counter that a call of `queue_receive` goes on with, once it found a
message. -/
def ReceivePhase.counted (waiting : UInt32) : ReceivePhase → Option UInt32
  | .idle | .check => none
  | .store loaded => some loaded
  | _ => some waiting

/-- The number of slots that the sending thread passes on with its next turn. -/
def SendPhase.passes : SendPhase → ℕ
  | .store _ => 1
  | _ => 0

/-- The number of slots that the receiving thread passes on with its next turn. -/
def ReceivePhase.passes : ReceivePhase → ℕ
  | .store _ => 1
  | _ => 0

/-- The cursors are on the slots `p` and `r` or on their way to the next ones, and every value of
the counter that is stored or will be is one of a queue with the sizes `z`. -/
structure Sound (z : Sizes) (p r : ℕ) (s : Threads) : Prop where
  head : s.queue.head = queueMemoryArea
  tail : s.queue.tail = z.ring.limit
  length : s.queue.length = z.length
  itemSize : s.queue.itemSize = z.itemSize
  writeTo : s.queue.writeTo = s.sender.phase.cursor z p
  readFrom : s.queue.readFrom = s.receiver.phase.cursor z r
  bounded : s.queue.waitingMessages.toNat ≤ z.length.toNat
  room : ∀ w, s.sender.phase.counted s.queue.waitingMessages = some w →
    w.toNat < z.length.toNat
  waits : ∀ w, s.receiver.phase.counted s.queue.waitingMessages = some w →
    0 < w.toNat ∧ w.toNat ≤ z.length.toNat

variable {z : Sizes} {p r : ℕ} {s : Threads}

theorem toNat_add_one_of_lt {w l : UInt32} (h : w.toNat < l.toNat) :
    (w + 1).toNat = w.toNat + 1 := by
  have hmax := l.toNat_lt
  rw [UInt32.toNat_add]
  exact Nat.mod_eq_of_lt (show w.toNat + 1 < 2 ^ 32 by omega)

theorem toNat_sub_one_of_pos {w : UInt32} (h : 0 < w.toNat) : (w - 1).toNat = w.toNat - 1 :=
  UInt32.toNat_sub_of_le _ _ (UInt32.le_iff_toNat_le.2 h)

/-- A store of the counter changes the value that a sending thread goes on with only if it will load
it. -/
theorem SendPhase.counted_cases (phase : SendPhase) {waiting w : UInt32}
    (h : phase.counted waiting = some w) :
    w = waiting ∨ ∀ waiting', phase.counted waiting' = some w := by
  cases phase with
  | store loaded => exact Or.inr fun _ => h
  | idle => cases h
  | check => cases h
  | _ => exact Or.inl (Option.some.inj h).symm

theorem ReceivePhase.counted_cases (phase : ReceivePhase) {waiting w : UInt32}
    (h : phase.counted waiting = some w) :
    w = waiting ∨ ∀ waiting', phase.counted waiting' = some w := by
  cases phase with
  | store loaded => exact Or.inr fun _ => h
  | idle => cases h
  | check => cases h
  | _ => exact Or.inl (Option.some.inj h).symm

/-- Between two calls of both threads. -/
theorem Represents.sound {q : Queue} {mem : Memory} {xs : List Bytes} (h : Represents z r q mem xs)
    (pItem pBuffer : ℕ → UInt8) :
    Sound z (r + 1 + xs.length) r ⟨q, mem, ⟨.idle, pItem⟩, ⟨.idle, pBuffer⟩⟩ where
  head := h.head
  tail := h.tail
  length := h.length
  itemSize := h.itemSize
  writeTo := h.writeTo
  readFrom := h.readFrom
  bounded := h.waiting.le.trans h.bounded
  room := fun w hw => by cases hw
  waits := fun w hw => by cases hw

theorem Threads.start_eq (z : Sizes) (mem : Memory) :
    Threads.start z mem =
      ⟨createdQueue z.length z.itemSize, mem, ⟨.idle, fun _ => 0⟩, ⟨.idle, fun _ => 0⟩⟩ := by
  rw [Threads.start, createQueue_eq z rfl]

theorem sound_start (z : Sizes) (mem : Memory) : ∃ p r, Sound z p r (Threads.start z mem) := by
  rw [Threads.start_eq]
  exact ⟨_, _, (represents_created z mem).sound _ _⟩

/-- A cursor that was moved on by one item is compared with the end of the ring. -/
theorem Sound.wrap_eq (h : Sound z p r s) (i : ℕ) :
    (if z.ring.addr i + z.ring.stride ≥ s.queue.tail then s.queue.head
      else z.ring.addr i + z.ring.stride) = z.ring.addr (i + 1) := by
  rw [h.tail, h.head]
  exact z.ring.wrap_at_limit i

/-- A turn of the sending thread. -/
theorem Sound.sendTurn (h : Sound z p r s) (pItem : ℕ → UInt8) :
    Sound z (p + s.sender.phase.passes) r (s.sendTurn pItem).1 := by
  obtain ⟨q, mem, ⟨phase, item⟩, receiver⟩ := s
  cases phase with
  | idle => exact { h with room := fun w hw => by cases hw }
  | check =>
    simp only [Threads.sendTurn]
    split
    · next hroom =>
      have hlt : q.waitingMessages.toNat < z.length.toNat := by
        rw [← h.length]
        exact UInt32.lt_iff_toNat_lt.1 hroom
      exact { h with room := fun w hw => Option.some.inj hw ▸ hlt }
    · exact { h with room := fun w hw => by cases hw }
  | copying done =>
    simp only [Threads.sendTurn]
    split
    · exact { h with }
    · exact { h with }
  | advance =>
    have hmoved : q.writeTo + q.itemSize.toNat = z.ring.addr p + z.ring.stride := by
      rw [h.writeTo, h.itemSize]
      rfl
    exact { h with writeTo := hmoved }
  | wrap =>
    have hwrapped : (if q.writeTo ≥ q.tail then q.head else q.writeTo) = z.ring.addr (p + 1) := by
      rw [h.writeTo]
      exact h.wrap_eq p
    exact { h with writeTo := hwrapped }
  | load => exact { h with }
  | store loaded =>
    have hlt := h.room loaded rfl
    have hstored := toNat_add_one_of_lt hlt
    refine { h with bounded := ?_, room := fun w hw => (by cases hw), waits := fun w hw => ?_ }
    · exact hstored.le.trans hlt
    · rcases receiver.phase.counted_cases hw with rfl | hold
      · exact ⟨hstored ▸ Nat.zero_lt_succ _, hstored.le.trans hlt⟩
      · exact h.waits w (hold _)

/-- A turn of the receiving thread. -/
theorem Sound.receiveTurn (h : Sound z p r s) (pBuffer : ℕ → UInt8) :
    Sound z p (r + s.receiver.phase.passes) (s.receiveTurn pBuffer).1 := by
  obtain ⟨q, mem, sender, ⟨phase, buffer⟩⟩ := s
  cases phase with
  | idle => exact { h with waits := fun w hw => by cases hw }
  | check =>
    simp only [Threads.receiveTurn]
    split
    · next hwaits =>
      have hpos : 0 < q.waitingMessages.toNat := UInt32.lt_iff_toNat_lt.1 hwaits
      exact { h with waits := fun w hw => Option.some.inj hw ▸ ⟨hpos, h.bounded⟩ }
    · exact { h with waits := fun w hw => by cases hw }
  | advance =>
    have hmoved : q.readFrom + q.itemSize.toNat = z.ring.addr r + z.ring.stride := by
      rw [h.readFrom, h.itemSize]
      rfl
    exact { h with readFrom := hmoved }
  | wrap =>
    have hwrapped : (if q.readFrom ≥ q.tail then q.head else q.readFrom) = z.ring.addr (r + 1) := by
      rw [h.readFrom]
      exact h.wrap_eq r
    exact { h with readFrom := hwrapped }
  | copying done =>
    simp only [Threads.receiveTurn]
    split
    · exact { h with }
    · exact { h with }
  | load => exact { h with }
  | store loaded =>
    obtain ⟨hpos, hle⟩ := h.waits loaded rfl
    have hstored : (loaded - 1).toNat < z.length.toNat := by
      rw [toNat_sub_one_of_pos hpos]
      exact (Nat.sub_lt hpos Nat.one_pos).trans_le hle
    refine { h with
      bounded := hstored.le, waits := fun w hw => (by cases hw), room := fun w hw => ?_ }
    rcases sender.phase.counted_cases hw with rfl | hold
    · exact hstored
    · exact h.room w (hold _)

/-! ## Accesses -/

/-- The byte number `done` of a slot lies between `head` and `tail`. -/
theorem addr_add_mem_ring (z : Sizes) (i : ℕ) {done : ℕ} (hdone : done < z.itemSize.toNat) :
    queueMemoryArea ≤ z.ring.addr i + done ∧ z.ring.addr i + done < z.ring.limit := by
  have hbase := z.ring.base_le_addr i
  have hlimit := z.ring.addr_add_stride_le_limit i
  have hstride : z.ring.stride = z.itemSize.toNat := rfl
  have hhead : z.ring.base = queueMemoryArea := rfl
  omega

theorem Sound.accessed_sendTurn (h : Sound z p r s) (pItem : ℕ → UInt8) {a : ℤ}
    (ha : a ∈ (s.sendTurn pItem).1.mem.accessed) :
    a ∈ s.mem.accessed ∨ (queueMemoryArea ≤ a ∧ a < z.ring.limit) := by
  obtain ⟨q, mem, ⟨phase, item⟩, receiver⟩ := s
  cases phase with
  | copying done =>
    simp only [Threads.sendTurn] at ha
    split at ha
    · next hdone =>
      rcases List.mem_append.1 ha with hold | hnew
      · exact Or.inl hold
      · have hbyte : a = q.writeTo + done := by simpa [Memory.blockAddresses] using hnew
        rw [h.itemSize] at hdone
        rw [hbyte, h.writeTo]
        exact Or.inr (addr_add_mem_ring z p hdone)
    · exact Or.inl ha
  | check =>
    simp only [Threads.sendTurn] at ha
    split at ha <;> exact Or.inl ha
  | _ => exact Or.inl ha

theorem Sound.accessed_receiveTurn (h : Sound z p r s) (pBuffer : ℕ → UInt8) {a : ℤ}
    (ha : a ∈ (s.receiveTurn pBuffer).1.mem.accessed) :
    a ∈ s.mem.accessed ∨ (queueMemoryArea ≤ a ∧ a < z.ring.limit) := by
  obtain ⟨q, mem, sender, ⟨phase, buffer⟩⟩ := s
  cases phase with
  | copying done =>
    simp only [Threads.receiveTurn] at ha
    split at ha
    · next hdone =>
      rcases List.mem_append.1 ha with hold | hnew
      · exact Or.inl hold
      · rw [h.itemSize] at hdone
        rw [List.mem_singleton.1 hnew, h.readFrom]
        exact Or.inr (addr_add_mem_ring z (r + 1) hdone)
    · exact Or.inl ha
  | check =>
    simp only [Threads.receiveTurn] at ha
    split at ha <;> exact Or.inl ha
  | _ => exact Or.inl ha

/-! ## Every interleaving -/

/-- The state after a run of the two threads is sound, and the run touched no byte outside of the
ring. -/
theorem Sound.after (h : Sound z p r s) (turns : List Turn) :
    (∃ p' r', Sound z p' r' (threads.after s turns)) ∧
      ∀ a ∈ (threads.after s turns).mem.accessed,
        a ∈ s.mem.accessed ∨ (queueMemoryArea ≤ a ∧ a < z.ring.limit) := by
  apply threads.after_induction (P := fun s' => (∃ p' r', Sound z p' r' s') ∧
    ∀ a ∈ s'.mem.accessed, a ∈ s.mem.accessed ∨ (queueMemoryArea ≤ a ∧ a < z.ring.limit)) s
  · exact ⟨⟨p, r, h⟩, fun a ha => Or.inl ha⟩
  · rintro s' turn ⟨⟨p', r', h'⟩, hacc⟩
    cases turn with
    | sender pItem =>
      exact ⟨⟨_, _, h'.sendTurn pItem⟩, fun a ha =>
        (h'.accessed_sendTurn pItem ha).elim (hacc a) Or.inr⟩
    | receiver pBuffer =>
      exact ⟨⟨_, _, h'.receiveTurn pBuffer⟩, fun a ha =>
        (h'.accessed_receiveTurn pBuffer ha).elim (hacc a) Or.inr⟩

/-- In every interleaving of the turns of a sending and a receiving thread on a created queue, also
where an update of the counter is lost: the counter never exceeds the length, and every byte of the
memory area that was touched lies between `head` and `tail`. -/
theorem any_interleaving_safe (z : Sizes) (mem : Memory) (turns : List Turn) :
    let s := threads.after (Threads.start z mem) turns
    s.queue.waitingMessages ≤ s.queue.length ∧
      ∀ a ∈ s.mem.accessed, a ∈ mem.accessed ∨ (s.queue.head ≤ a ∧ a < s.queue.tail) := by
  intro s
  obtain ⟨p₀, r₀, hstart⟩ := sound_start z mem
  obtain ⟨⟨p, r, h⟩, hacc⟩ := hstart.after turns
  refine ⟨?_, ?_⟩
  · rw [UInt32.le_iff_toNat_le, h.length]
    exact h.bounded
  · rw [h.head, h.tail]
    exact hacc

end CComplete.StaticQueue
