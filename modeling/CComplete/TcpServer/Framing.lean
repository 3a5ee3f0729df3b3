import CComplete.TcpServer.Model
import CComplete.StaticQueue.Fifo
import Mathlib.Data.List.GetD

/-!
# Commands in the byte stream

The server thread puts one item into the queue for every `read` that delivers bytes: the first bytes
of its buffer. After a failing `read` the run has no result (`Serving.failed`). How a stream is
split into `read`s is a list of segments. A split is harmless if for all bytes the client may send
the run has a result and the items are the commands that were sent; these are exactly the splits
with one command in every `read` and no failing `read` (`framing_iff`). The proof follows the place
in the stream from which the first byte of each item comes.
-/

set_option autoImplicit false

namespace CComplete.TcpServer

open CComplete.Library CComplete.StaticQueue

/-! ## Splits of the stream -/

/-- A `read` of the next `size` bytes of the stream, a failing `read`, or a receive of the other
thread. -/
inductive Segment where
  | read (size : ℕ)
  | failed
  | receive (pBuffer : ℕ → UInt8)

/-- The turns in which a split delivers the bytes of a stream. -/
def turns : List Segment → Bytes → List Turn
  | [], _ => []
  | .read size :: segments, bytes =>
      .read (some (bytes.take size)) :: turns segments (bytes.drop size)
  | .failed :: segments, bytes => .read none :: turns segments bytes
  | .receive pBuffer :: segments, bytes => .receive pBuffer :: turns segments bytes

/-- Number of bytes that a split delivers. -/
def total : List Segment → ℕ
  | [] => 0
  | .read size :: segments => size + total segments
  | .failed :: segments => total segments
  | .receive _ :: segments => total segments

/-- Every `read` of the split delivers at least one byte and no more than the buffer has. -/
def WellSized (segments : List Segment) : Prop :=
  ∀ size, .read size ∈ segments → 1 ≤ size ∧ size ≤ maxStreamBufferSize

/-- The queue has room for one item more whenever the thread reads. -/
def HasRoom : Option Server → Turn → Prop
  | some s, .read _ => s.outputQueue.waitingMessages < s.outputQueue.length
  | _, _ => True

/-- The run of the server `s` on a split has a result, and the items put into the queue are the
commands sent. -/
def Delivers (s : Server) (segments : List Segment) (commands : List Command) : Prop :=
  let ts := turns segments (stream commands)
  (system.after (some s) ts).isSome = true ∧
    (system.trace (some s) ts).filterMap (enqueuedItem 3) = commands.map Command.bytes

/-- The segment delivers exactly one command, or is no `read`. -/
def Segment.OneCommand : Segment → Prop
  | .read size => size = 3
  | .failed => False
  | .receive _ => True

variable {segments : List Segment} {z : Sizes} {r : ℕ} {s : Server} {xs : List Bytes}

theorem WellSized.tail {g : Segment} (h : WellSized (g :: segments)) : WellSized segments :=
  fun size hmem => h size (List.mem_cons_of_mem g hmem)

@[simp] theorem stream_cons (c : Command) (cs : List Command) :
    stream (c :: cs) = c.bytes ++ stream cs := rfl

theorem length_stream (cs : List Command) : (stream cs).length = 3 * cs.length := by
  induction cs with
  | nil => rfl
  | cons c cs ih =>
    rw [stream_cons, List.length_append, ih, List.length_cons, Nat.mul_succ, Nat.add_comm]
    rfl

theorem length_take_of_total {size : ℕ} {bytes : Bytes}
    (h : total (.read size :: segments) ≤ bytes.length) : (bytes.take size).length = size := by
  have hle : size + total segments ≤ bytes.length := h
  rw [List.length_take, Nat.min_eq_left (by omega)]

theorem total_le_length_drop {size : ℕ} {bytes : Bytes}
    (h : total (.read size :: segments) ≤ bytes.length) :
    total segments ≤ (bytes.drop size).length := by
  have hle : size + total segments ≤ bytes.length := h
  rw [List.length_drop]
  omega

/-! ## The items of a run -/

/-- The first three bytes of the buffer after each `read` that delivers bytes. -/
def items : Bytes → List Turn → List Bytes
  | _, [] => []
  | buffer, .read (some bytes) :: ts =>
      (overlay bytes buffer).take 3 :: items (overlay bytes buffer) ts
  | buffer, _ :: ts => items buffer ts

theorem bufferBytes_getD (buffer : Bytes) {n : ℕ} (h : n ≤ buffer.length) :
    bufferBytes (fun i => buffer.getD i 0) n = buffer.take n := by
  apply List.ext_getElem
  · rw [length_bufferBytes, List.length_take, Nat.min_eq_left h]
  · intro i hi hi'
    have hlt : i < buffer.length := by
      rw [length_bufferBytes] at hi
      exact hi.trans_le h
    simp only [bufferBytes, List.getElem_map, List.getElem_range, List.getElem_take]
    exact List.getD_eq_getElem _ _ hlt

/-- What the turns keep: the queue represents a list of items, the buffer has its size and the
thread runs. -/
structure Serving (z : Sizes) (s : Server) (xs : List Bytes) : Prop where
  queue : ∃ r, Represents z r s.outputQueue s.memory xs
  buffer : s.buffer.length = maxStreamBufferSize
  running : s.cancelled = false

/-- The bytes to print after a `read` that did not fail are the bytes that arrived. -/
theorem toNat_ofInt_natCast {n : ℕ} (h : n ≤ maxStreamBufferSize) :
    (UInt32.ofInt (n : ℤ)).toNat = n := by
  rw [maxStreamBufferSize] at h
  rw [UInt32.ofInt]
  simp
  omega

/-- A `read` that delivers bytes puts the first bytes of the buffer into the queue. -/
theorem Serving.read (h : Serving z s xs) (hitem : z.itemSize = 3) {bytes : Bytes}
    (hpos : 1 ≤ bytes.length) (hsize : bytes.length ≤ maxStreamBufferSize)
    (hroom : HasRoom (some s) (.read (some bytes))) :
    ∃ s' output, system.step (some s) (.read (some bytes)) = (some s', some output) ∧
      Serving z s' (xs ++ [(overlay bytes s.buffer).take 3]) ∧
        s'.buffer = overlay bytes s.buffer ∧
          enqueuedItem 3 (.read (some bytes), some output) =
            some ((overlay bytes s.buffer).take 3) := by
  obtain ⟨r, hq⟩ := h.queue
  have hlength : (overlay bytes s.buffer).length = maxStreamBufferSize := by
    rw [length_overlay, h.buffer]
    exact Nat.max_eq_right hsize
  have hthree : z.itemSize.toNat = 3 := by rw [hitem]; rfl
  have hbytes : bufferBytes (fun i => (overlay bytes s.buffer).getD i 0) 3 =
      (overlay bytes s.buffer).take 3 := bufferBytes_getD _ (by rw [hlength]; decide)
  have hlt : xs.length < z.length.toNat := by
    rw [HasRoom, UInt32.lt_iff_toNat_lt, hq.waiting, hq.length] at hroom
    exact hroom
  have hsend := hq.send hlt fun i => (overlay bytes s.buffer).getD i 0
  have hcode := hq.send_eq_of_lt hlt fun i => (overlay bytes s.buffer).getD i 0
  rw [hthree, hbytes] at hsend
  have hvalread : ¬ (bytes.length : ℤ) = 0 := by omega
  have hprinted : ¬ maxStreamBufferSize < (UInt32.ofInt (bytes.length : ℤ)).toNat := by
    rw [toNat_ofInt_natCast hsize]
    exact Nat.not_lt.2 hsize
  have hturn : turn s (.read (some bytes)) = some
      ({ s with
          buffer := overlay bytes s.buffer
          outputQueue := (queueSend s.outputQueue s.memory fun i =>
            (overlay bytes s.buffer).getD i 0).2.1
          memory := (queueSend s.outputQueue s.memory fun i =>
            (overlay bytes s.buffer).getD i 0).2.2 },
        .sent (UInt32.ofInt (bytes.length : ℤ)) (fun i => (overlay bytes s.buffer).getD i 0)
          (queueSend s.outputQueue s.memory fun i => (overlay bytes s.buffer).getD i 0).1) := by
    simp only [turn, threadTurn, h.running, Bool.false_eq_true, if_false, ReadResult.valread,
      ReadResult.fill, hvalread, hprinted]
  refine ⟨_, _, Machine.ofOption_step_some hturn, ⟨⟨r, hsend⟩, hlength, h.running⟩, rfl, ?_⟩
  rw [enqueuedItem, hcode, if_pos rfl]
  exact congrArg some hbytes

/-- A `read` that fails has no result: the buffer does not have the bytes to print. -/
theorem Serving.failed (h : Serving z s xs) : system.step (some s) (.read none) = (none, none) := by
  have hturn : turn s (.read none) = none := by
    rw [turn, threadTurn, if_neg (Bool.eq_false_iff.1 h.running)]
    rfl
  exact Machine.ofOption_step_none hturn

/-- A receive of the other thread keeps the buffer. -/
theorem Serving.receive (h : Serving z s xs) (pBuffer : ℕ → UInt8) :
    ∃ s' output ys, system.step (some s) (.receive pBuffer) = (some s', some output) ∧
      Serving z s' ys ∧ s'.buffer = s.buffer ∧
        enqueuedItem 3 (.receive pBuffer, some output) = none := by
  obtain ⟨r, hq⟩ := h.queue
  obtain ⟨r', hstep⟩ := (hq.step (.queueReceive pBuffer)).1
  exact ⟨_, _, _, Machine.ofOption_step_some (f := turn) rfl, ⟨⟨r', hstep⟩, h.buffer, h.running⟩,
    rfl, rfl⟩

/-- While there is room: a run has a result if and only if no `read` fails, and then the items put
into the queue are the first bytes of the buffer after each `read`. -/
theorem Serving.run (h : Serving z s xs) (hitem : z.itemSize = 3) (hsized : WellSized segments)
    {bytes : Bytes} (hbytes : total segments ≤ bytes.length)
    (hroom : system.Guarded HasRoom (some s) (turns segments bytes)) :
    ((system.after (some s) (turns segments bytes)).isSome = true ↔ .failed ∉ segments) ∧
      (.failed ∉ segments →
        (system.trace (some s) (turns segments bytes)).filterMap (enqueuedItem 3) =
          items s.buffer (turns segments bytes)) := by
  induction segments generalizing s xs bytes with
  | nil => exact ⟨iff_of_true rfl List.not_mem_nil, fun _ => rfl⟩
  | cons g segments ih =>
    cases g with
    | read size =>
      obtain ⟨hpos, hmax⟩ := hsized size List.mem_cons_self
      have htake := length_take_of_total hbytes
      obtain ⟨s', output, hstep, hnext, hbuffer, hshown⟩ := h.read hitem (htake.symm ▸ hpos)
        (htake.symm ▸ hmax) hroom.1
      have hrest := hroom.2
      rw [hstep] at hrest
      obtain ⟨hsome, hitems⟩ := ih hnext hsized.tail (total_le_length_drop hbytes) hrest
      rw [turns, Machine.after_cons, Machine.trace_cons, hstep, hsome]
      refine ⟨by simp, fun hfine => ?_⟩
      rw [List.filterMap_cons, hshown]
      simp only [items]
      rw [hitems fun hmem => hfine (List.mem_cons_of_mem _ hmem), hbuffer]
    | failed =>
      have hnone : system.after none (turns segments bytes) = none :=
        Machine.ofOption_after_none _
      rw [turns, Machine.after_cons, h.failed, hnone]
      exact ⟨iff_of_false Bool.false_ne_true (not_not.2 List.mem_cons_self),
        fun hfine => absurd List.mem_cons_self hfine⟩
    | receive pBuffer =>
      obtain ⟨s', output, ys, hstep, hnext, hbuffer, hshown⟩ := h.receive pBuffer
      have hrest := hroom.2
      rw [hstep] at hrest
      obtain ⟨hsome, hitems⟩ := ih hnext hsized.tail hbytes hrest
      rw [turns, Machine.after_cons, Machine.trace_cons, hstep, hsome]
      refine ⟨by simp, fun hfine => ?_⟩
      rw [List.filterMap_cons, hshown]
      simp only [items]
      rw [hitems fun hmem => hfine (List.mem_cons_of_mem _ hmem), hbuffer]

/-! ## One command in every read -/

/-- Where every `read` delivers one command, the items are the commands. -/
theorem items_of_oneCommand (hone : ∀ g ∈ segments, g.OneCommand) (buffer : Bytes)
    {cs : List Command} (hlength : (stream cs).length = total segments) :
    items buffer (turns segments (stream cs)) = cs.map Command.bytes := by
  induction segments generalizing buffer cs with
  | nil =>
    rw [length_stream] at hlength
    have hnil : cs = [] := List.eq_nil_of_length_eq_zero (by simpa [total] using hlength)
    rw [hnil]
    rfl
  | cons g segments ih =>
    have hrest : ∀ g ∈ segments, g.OneCommand := fun g hg => hone g (List.mem_cons_of_mem _ hg)
    cases g with
    | read size =>
      obtain rfl : size = 3 := hone _ List.mem_cons_self
      cases cs with
      | nil =>
        have htotal : total (.read 3 :: segments) = 3 + total segments := rfl
        rw [htotal] at hlength
        exact absurd hlength (by simp [stream]; omega)
      | cons c cs =>
        have htail : (stream cs).length = total segments := by
          rw [length_stream, List.length_cons, total] at hlength
          rw [length_stream]
          omega
        exact congrArg (c.bytes :: ·) (ih hrest _ htail)
    | failed => exact (hone .failed List.mem_cons_self).elim
    | receive pBuffer => exact ih hrest buffer hlength

/-! ## Where the first bytes of the items come from -/

/-- The place in the stream of the first byte of each item, for a split whose first `read` is at
`place`. -/
def firstPlaces : ℕ → List Segment → List ℕ
  | _, [] => []
  | place, .read size :: segments => place :: firstPlaces (place + size) segments
  | place, _ :: segments => firstPlaces place segments

theorem items_firstPlaces (hsized : WellSized segments) {bytes buffer : Bytes} {place : ℕ}
    (hbytes : place + total segments ≤ bytes.length) :
    (items buffer (turns segments (bytes.drop place))).map (fun x => x.getD 0 0) =
      (firstPlaces place segments).map fun place => bytes.getD place 0 := by
  induction segments generalizing buffer place with
  | nil => rfl
  | cons g segments ih =>
    cases g with
    | read size =>
      obtain ⟨hpos, -⟩ := hsized size List.mem_cons_self
      have hle : place + (size + total segments) ≤ bytes.length := hbytes
      have hplace : place < bytes.length := by omega
      have hfirst : ((overlay ((bytes.drop place).take size) buffer).take 3).getD 0 0 =
          bytes.getD place 0 := by
        obtain ⟨n, rfl⟩ := Nat.exists_eq_add_one.2 hpos
        rw [List.drop_eq_getElem_cons hplace, List.take_succ_cons, overlay,
          List.getD_eq_getElem _ _ hplace]
        rfl
      have hnext : place + size + total segments ≤ bytes.length := by omega
      simp only [turns, items, firstPlaces, List.map_cons, List.drop_drop]
      rw [hfirst, ih hsized.tail hnext]
    | failed => exact ih hsized.tail hbytes
    | receive pBuffer => exact ih hsized.tail hbytes

/-- A split in which no `read` fails and item number `k` starts at the place `3 * k` has one command
in every `read`. -/
theorem oneCommand_of_firstPlaces {place i m : ℕ} (hfine : .failed ∉ segments)
    (htotal : place + total segments = 3 * (i + m))
    (hplaces : firstPlaces place segments = (List.range' i m).map fun k => 3 * k) :
    place = 3 * i ∧ ∀ g ∈ segments, g.OneCommand := by
  induction segments generalizing place i m with
  | nil =>
    have hm : m = 0 := by simpa [firstPlaces] using (congrArg List.length hplaces).symm
    rw [hm] at htotal
    exact ⟨htotal, fun g hg => absurd hg List.not_mem_nil⟩
  | cons g segments ih =>
    have hfine' : .failed ∉ segments := fun hmem => hfine (List.mem_cons_of_mem g hmem)
    cases g with
    | read size =>
      cases m with
      | zero => cases hplaces
      | succ m =>
        obtain ⟨hhead, hrest⟩ := List.cons.inj hplaces
        obtain rfl : place = 3 * i := hhead
        rw [total] at htotal
        obtain ⟨hplace, hall⟩ := ih (i := i + 1) (m := m) hfine' (by omega) hrest
        refine ⟨rfl, List.forall_mem_cons.2 ⟨?_, hall⟩⟩
        show size = 3
        omega
    | failed => exact absurd List.mem_cons_self hfine
    | receive pBuffer =>
      obtain ⟨hplace, hall⟩ := ih hfine' htotal hplaces
      exact ⟨hplace, List.forall_mem_cons.2 ⟨trivial, hall⟩⟩

/-! ## Streams with a single byte 1 -/

/-- `k` commands, of which only number `i` is not zero, with code 1. -/
def marked (k i : ℕ) : List Command :=
  List.replicate i ⟨0, 0, 0⟩ ++ ⟨1, 0, 0⟩ :: List.replicate (k - (i + 1)) ⟨0, 0, 0⟩

theorem length_marked {k i : ℕ} (h : i < k) : (marked k i).length = k := by
  rw [marked, List.length_append, List.length_cons, List.length_replicate, List.length_replicate]
  omega

theorem stream_replicate_zero (n : ℕ) :
    stream (List.replicate n ⟨0, 0, 0⟩) = List.replicate (3 * n) 0 := by
  induction n with
  | zero => rfl
  | succ n ih =>
    rw [List.replicate_succ, stream_cons, ih]
    rfl

theorem place_of_marked {k i place : ℕ} (h : (stream (marked k i)).getD place 0 = 1) :
    place = 3 * i := by
  have hstream : stream (marked k i) =
      List.replicate (3 * i) 0 ++ 1 :: List.replicate (3 * (k - (i + 1)) + 2) 0 := by
    rw [marked, stream, List.flatMap_append, ← stream, stream_replicate_zero, ← stream,
      stream_cons, stream_replicate_zero]
    rfl
  rw [hstream] at h
  rcases Nat.lt_trichotomy place (3 * i) with hlt | heq | hgt
  · rw [List.getD_append _ _ _ _ (by simpa using hlt)] at h
    simp at h
  · exact heq
  · obtain ⟨j, rfl⟩ := Nat.exists_eq_add_of_lt hgt
    rw [List.getD_append_right _ _ _ _ (by simp; omega), List.length_replicate,
      show 3 * i + j + 1 - 3 * i = j + 1 by omega, List.getD_cons_succ] at h
    simp at h

/-! ## The splits that are harmless -/

/-- If the items are the commands whatever the commands are, item number `k` starts at the place
`3 * k` of the stream. -/
theorem firstPlaces_eq (hsized : WellSized segments) {k : ℕ} (htotal : total segments = 3 * k)
    {buffer : Bytes} (hitems : ∀ cs : List Command, cs.length = k →
      items buffer (turns segments (stream cs)) = cs.map Command.bytes) :
    firstPlaces 0 segments = (List.range' 0 k).map fun k => 3 * k := by
  have hcodes : ∀ cs : List Command, cs.length = k → cs.map Command.cmdCode =
      (firstPlaces 0 segments).map fun place => (stream cs).getD place 0 := by
    intro cs hcs
    have hbytes : 0 + total segments ≤ (stream cs).length := by
      rw [length_stream, hcs, htotal, Nat.zero_add]
    rw [← items_firstPlaces hsized hbytes, List.drop_zero, hitems cs hcs, List.map_map]
    rfl
  have hlength : (firstPlaces 0 segments).length = k := by
    have hsame := congrArg List.length (hcodes (List.replicate k ⟨0, 0, 0⟩) List.length_replicate)
    simpa using hsame.symm
  apply List.ext_getElem
  · rw [hlength, List.length_map, List.length_range']
  · intro i hi _
    have hik : i < k := hlength ▸ hi
    -- item number `i` must start with the only byte that is not zero
    have hone := congrArg (fun l : List UInt8 => l[i]?) (hcodes (marked k i) (length_marked hik))
    simp only [List.getElem?_map, List.getElem?_eq_getElem hi, marked] at hone
    rw [List.getElem?_append_right (by simp), List.length_replicate, Nat.sub_self] at hone
    have hbyte : (stream (marked k i)).getD (firstPlaces 0 segments)[i] 0 = 1 :=
      (Option.some.inj hone).symm
    simp only [List.getElem_map, List.getElem_range', Nat.zero_add, Nat.one_mul]
    exact place_of_marked hbyte

/-- A created queue, the buffer of zeros and the running thread. -/
theorem serving_accepted {length : UInt32} (hlength : 1 ≤ length.toNat)
    (hfits : length.toNat * 3 < maxQueueLength.toNat) {q₀ : Queue} (hnew : q₀.length = 0)
    (mem : Memory) :
    ∃ z : Sizes, z.itemSize = 3 ∧
      Serving z (Server.accepted (createQueue q₀ length 3).2 mem) [] := by
  let z : Sizes := ⟨length, 3, hlength, by decide, hfits⟩
  have hcreate : createQueue q₀ length 3 = _ := createQueue_eq z hnew
  rw [hcreate]
  exact ⟨z, rfl, ⟨⟨_, represents_created z mem⟩, List.length_replicate, rfl⟩⟩

/-- For a queue of three-byte items and a split of whole commands into `read`s of 1 to
`C_TCP_SERVER__MAX_STREAM_BUFFER_SIZE` bytes, failing `read`s and receives of the other thread, in
which the queue always has room: the run has a result and the items put into the queue are the
commands that were sent, whatever they are, exactly when every `read` delivers one command and none
fails. -/
theorem framing_iff (length : UInt32) (hlength : 1 ≤ length.toNat)
    (hfits : length.toNat * 3 < maxQueueLength.toNat) (q₀ : Queue) (hnew : q₀.length = 0)
    (mem : Memory) (segments : List Segment) (hsized : WellSized segments)
    (hwhole : 3 ∣ total segments)
    (hroom : ∀ commands, (stream commands).length = total segments →
      system.Guarded HasRoom (some (Server.accepted (createQueue q₀ length 3).2 mem))
        (turns segments (stream commands))) :
    (∀ commands, (stream commands).length = total segments →
        Delivers (Server.accepted (createQueue q₀ length 3).2 mem) segments commands) ↔
      ∀ g ∈ segments, g.OneCommand := by
  obtain ⟨z, hitem, hserving⟩ := serving_accepted hlength hfits hnew mem
  have hdelivers : ∀ commands, (stream commands).length = total segments →
      (Delivers (Server.accepted (createQueue q₀ length 3).2 mem) segments commands ↔
        .failed ∉ segments ∧
          items (List.replicate maxStreamBufferSize 0) (turns segments (stream commands)) =
            commands.map Command.bytes) := by
    intro commands htotal
    obtain ⟨hsome, hrun⟩ := hserving.run hitem hsized htotal.ge (hroom commands htotal)
    rw [Delivers, hsome]
    refine and_congr_right fun hfine => ?_
    rw [hrun hfine]
    rfl
  constructor
  · intro hall
    obtain ⟨k, hk⟩ := hwhole
    have htotal : ∀ commands : List Command, commands.length = k →
        (stream commands).length = total segments := by
      intro commands hcommands
      rw [length_stream, hcommands, hk]
    have hboth := fun commands hcommands =>
      (hdelivers commands (htotal commands hcommands)).1 (hall commands (htotal commands hcommands))
    have hfine := (hboth (List.replicate k ⟨0, 0, 0⟩) List.length_replicate).1
    have hplaces := firstPlaces_eq hsized hk fun commands hcommands => (hboth commands hcommands).2
    exact (oneCommand_of_firstPlaces hfine (by omega) hplaces).2
  · intro hone commands htotal
    exact (hdelivers commands htotal).2
      ⟨fun hmem => hone .failed hmem, items_of_oneCommand hone _ htotal⟩

/-- Two commands in two `read`s, on the queue of the main program. -/
theorem framing_iff_two_reads :
    Delivers (Server.accepted (createQueue Queue.zero 3 3).2 ⟨fun _ => 0, []⟩)
      [.read 3, .read 3] [⟨1, 2, 0⟩, ⟨1, 1, 0⟩] := by
  refine (framing_iff 3 (by decide) (by decide) Queue.zero rfl ⟨fun _ => 0, []⟩ _ ?_ (by decide)
    ?_).2 ?_ _ rfl
  · intro size hmem
    simp only [List.mem_cons, Segment.read.injEq, List.not_mem_nil, or_false, or_self] at hmem
    subst hmem
    decide
  · intro commands htotal
    rw [length_stream] at htotal
    obtain ⟨c, c', rfl⟩ := List.length_eq_two.1 (show commands.length = 2 from
      Nat.eq_of_mul_eq_mul_left (by decide : 0 < 3) htotal)
    exact ⟨(by decide : (0 : UInt32) < 3), (by decide : (1 : UInt32) < 3), trivial⟩
  · simp [Segment.OneCommand]

/-- Two commands in one `read`: the second one is dropped, though the queue has room. -/
theorem framing_drops_second_command :
    let s := Server.accepted (createQueue Queue.zero 3 3).2 ⟨fun _ => 0, []⟩
    let commands : List Command := [⟨1, 2, 0⟩, ⟨1, 1, 0⟩]
    WellSized [.read 6] ∧ (stream commands).length = total [.read 6] ∧
      system.Guarded HasRoom (some s) (turns [.read 6] (stream commands)) ∧
        ¬ Delivers s [.read 6] commands := by
  intro s commands
  refine ⟨?_, rfl, ⟨(by decide : (0 : UInt32) < 3), trivial⟩, ?_⟩
  · intro size hmem
    obtain rfl := Segment.read.inj (List.mem_singleton.1 hmem)
    decide
  · unfold Delivers
    decide

end CComplete.TcpServer
