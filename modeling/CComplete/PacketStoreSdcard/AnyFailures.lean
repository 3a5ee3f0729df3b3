import CComplete.PacketStoreSdcard.InfoFile
import CComplete.PacketStoreSdcard.OpenFailures
import CComplete.PacketStoreSdcard.PacketFile

/-!
# Runs in which any file may fail to open

A process may fail to open either file at any call, also in `init`, and goes on. What is live may
then be lost or stale, but the shape is not: the handler in memory and its image in `info.bin` stay
those of a ring of `N` slots with at most `N` live ones, and the packet file a list of whole
elements, each null or given to some store of the run (`any_failures_consistent`).

A packet whose store returned 0 outlasts the failures of the info file and the restarts after it,
until the next delete or until the packet file is created anew
(`acknowledged_store_durable`).
-/

set_option autoImplicit false

namespace CComplete.PacketStoreSdcard

open CComplete.Library

/-- The handler is that of a ring of `N` slots, of which the `tm_number` slots from slot `o` on are
live; `tm_number` can count all slots. -/
structure OnRing (N : ℕ+) (o : ℕ) (h : FileHandler) : Prop where
  capacity : (N : ℕ) < 2 ^ 32
  head : h.head = 0
  tail : h.tail = (slots N).last
  oldest_lt : o < N
  oldestTmPosition : h.oldestTmPosition = (slots N).addr o
  writeTo : h.writeTo = (slots N).addr (o + h.tmNumber)
  bounded : h.tmNumber ≤ N

/-! ## Handlers of a ring -/

/-- The slot of the oldest packet may be counted over several rounds. -/
theorem onRing_mod {N : ℕ+} (hN : (N : ℕ) < 2 ^ 32) {o : ℕ} {h : FileHandler} (hhead : h.head = 0)
    (htail : h.tail = (slots N).last) (holdest : h.oldestTmPosition = (slots N).addr o)
    (hwriteTo : h.writeTo = (slots N).addr (o + h.tmNumber)) (hbound : h.tmNumber ≤ N) :
    OnRing N (o % N) h where
  capacity := hN
  head := hhead
  tail := htail
  oldest_lt := Nat.mod_lt o N.pos
  oldestTmPosition := holdest.trans ((slots N).addr_mod o).symm
  writeTo := hwriteTo.trans ((slots N).addr_mod_add o h.tmNumber).symm
  bounded := hbound

namespace OnRing

variable {N : ℕ+} {o : ℕ} {h : FileHandler}

theorem ascending (hr : OnRing N o h) (i : ℕ) :
    updateBrowserAscending h ((slots N).addr i) = (slots N).addr (i + 1) := by
  have hnext := (slots N).next_addr i
  rw [updateBrowserAscending, hr.head, hr.tail]
  exact hnext

theorem descending (hr : OnRing N o h) (i : ℕ) :
    updateBrowserDescending h ((slots N).addr (i + 1)) = (slots N).addr i := by
  have hprev := (slots N).prev_addr_succ i
  rw [updateBrowserDescending, hr.head, hr.tail]
  exact hprev

theorem position_eq (hr : OnRing N o h) (i : ℕ) : h.position i = (slots N).addr (o + i) := by
  induction i with
  | zero => exact hr.oldestTmPosition
  | succ i ih =>
    rw [FileHandler.position, Function.iterate_succ_apply', ← FileHandler.position, ih,
      hr.ascending, Nat.add_assoc]

/-- In an empty ring the oldest slot is the one at `write_to` already. -/
theorem admitting (hr : OnRing N o h) (e : Element) : OnRing N o (h.admitting e) := by
  rw [FileHandler.admitting]
  split
  · next hempty =>
    have hstart : h.writeTo = (slots N).addr o := by
      rw [hr.writeTo, hempty, Nat.add_zero]
    exact
      { capacity := hr.capacity
        head := hr.head
        tail := hr.tail
        oldest_lt := hr.oldest_lt
        oldestTmPosition := hstart
        writeTo := hr.writeTo
        bounded := hr.bounded }
  · exact hr

theorem storing (hr : OnRing N o h) (hroom : h.tmNumber < N) (e : Element) :
    OnRing N o (h.storing e) where
  capacity := hr.capacity
  head := hr.head
  tail := hr.tail
  oldest_lt := hr.oldest_lt
  oldestTmPosition := hr.oldestTmPosition
  writeTo := by
    rw [storing_tmNumber hroom hr.capacity]
    show updateBrowserAscending h h.writeTo = (slots N).addr (o + (h.tmNumber + 1))
    rw [hr.writeTo, hr.ascending, Nat.add_assoc]
  bounded := (storing_tmNumber hroom hr.capacity e).trans_le hroom

theorem cleared (hr : OnRing N o h) : OnRing N 0 h.cleared where
  capacity := hr.capacity
  head := hr.head
  tail := hr.tail
  oldest_lt := N.pos
  oldestTmPosition := (slots N).addr_zero.symm
  writeTo := (slots N).addr_zero.symm
  bounded := Nat.zero_le _

theorem trimmed (hr : OnRing N o h) {stop : ℕ} (hstop : stop ≤ h.tmNumber) (time : UInt32) :
    OnRing N ((o + stop) % N) (h.trimmed stop time) := by
  have hcount := trimmed_tmNumber (hr.bounded.trans_lt hr.capacity) hstop time
  apply onRing_mod
  · exact hr.capacity
  · exact hr.head
  · exact hr.tail
  · exact hr.position_eq stop
  · rw [hcount, Nat.add_assoc, Nat.add_sub_cancel' hstop]
    exact hr.writeTo
  · rw [hcount]
    exact (Nat.sub_le _ _).trans hr.bounded

/-- The count from the oldest slot to slot `b` after it never exceeds the number of slots. -/
theorem count_le (hr : OnRing N o h) {b : ℕ} (hb : b < N) :
    getNumberOfElementsBetweenTwoPosition h h.oldestTmPosition ((slots N).addr (o + b)) ≤ b + 1 := by
  rw [getNumberOfElementsBetweenTwoPosition, hr.oldestTmPosition, hr.tail, hr.head]
  rcases (slots N).addr_add_cases o hb with ⟨hle, hdiff⟩ | ⟨hlt, hdiff⟩
  · rw [if_pos hle, hdiff]
    exact elementCount_le b
  · -- the step from the tail to the head is not counted
    have hpos : b ≠ 0 := by
      rintro rfl
      exact absurd hlt (lt_irrefl _)
    have hsteps : (slots N).last - (slots N).addr o + ((slots N).addr (o + b) - 0) =
        sizeofElement * ((b - 1 : ℕ) : ℤ) := by
      rw [Nat.cast_sub (Nat.one_le_iff_ne_zero.2 hpos)]
      exact hdiff
    rw [if_neg (not_le.2 hlt), hsteps]
    exact (elementCount_le (b - 1)).trans (by omega)

/-- The end search reports a live slot, whatever the file holds. -/
theorem searchEndLoop_live (hr : OnRing N o h) (f : Bytes) (endTm : UInt32) (j : ℕ) :
    ∀ (tmpTime : UInt32) (position : ℤ),
      searchEndLoop h f endTm j ((slots N).addr (o + j)) tmpTime = some position →
        ∃ i, i < j ∧ position = (slots N).addr (o + i) := by
  induction j with
  | zero => exact fun _ _ hnone => by cases hnone
  | succ j ih =>
    intro tmpTime position hfound
    rw [searchEndLoop, ← Nat.add_assoc, hr.descending] at hfound
    split at hfound
    · exact ⟨j, Nat.lt_succ_self j, (Option.some.inj hfound).symm⟩
    · obtain ⟨i, hi, hposition⟩ := ih _ _ hfound
      exact ⟨i, Nat.lt_succ_of_lt hi, hposition⟩

theorem searchForEndTime_live {w : World} (hr : OnRing N o w.handler) {endTm : UInt32}
    {position : ℤ} {w' : World}
    (hfound : searchForEndTimePositionInFile w endTm = (.ok position, w')) :
    ∃ i, i < w.handler.tmNumber ∧ position = (slots N).addr (o + i) := by
  simp only [searchForEndTimePositionInFile] at hfound
  split at hfound
  · split at hfound
    · next heq =>
      obtain rfl := Except.ok.inj (congrArg Prod.fst hfound)
      rw [hr.writeTo] at heq
      exact hr.searchEndLoop_live _ _ _ _ _ heq
    · cases congrArg Prod.fst hfound
  · cases congrArg Prod.fst hfound

end OnRing

/-! ## The shape of the store -/

/-- The packet that a step offers to the store. -/
def offeredPacket : Op → Option Element
  | .storeCallback dataPtr dataSize storageTime => some (elementToWrite dataPtr dataSize storageTime)
  | _ => none

/-- The info file, if there is one, has the handler of a ring, and the packet file consists of
elements with `Q`. -/
structure SoundDisk (N : ℕ+) (Q : Element → Prop) (d : Disk) : Prop where
  info : ∀ image, d.infoFile = some image → ∃ o, OnRing N o image
  file : WholeRecords (2 * N - 1) Q d.packetBytes

/-- The handler in memory is that of a ring, and the disk is sound. -/
structure Sound (N : ℕ+) (Q : Element → Prop) (s : Store) : Prop where
  handler : ∃ o, OnRing N o s.handler
  disk : SoundDisk N Q s.disk

/-- A change that keeps the disk sound. -/
def DiskEffect.KeepsShape (N : ℕ+) (Q : Element → Prop) (e : DiskEffect) : Prop :=
  e.WritesRecord (2 * N - 1) Q ∧ ∀ h, e = .writeHandler h → ∃ o, OnRing N o h

section Shape

variable {N : ℕ+} {Q : Element → Prop}

theorem keepsShape_truncate : DiskEffect.KeepsShape N Q .truncatePacketFile :=
  ⟨trivial, fun _ hno => by cases hno⟩

theorem keepsShape_writeHandler {h : FileHandler} (hh : ∃ o, OnRing N o h) :
    DiskEffect.KeepsShape N Q (.writeHandler h) := by
  refine ⟨trivial, fun h' heq => ?_⟩
  cases heq
  exact hh

theorem keepsShape_writeElement {m : ℕ} (hm : m < 2 * (N : ℕ) - 1) {e : Element} (he : Q e) :
    DiskEffect.KeepsShape N Q (.writeElement ((elementCodec.size * m : ℕ) : ℤ) e) :=
  ⟨⟨⟨m, hm, rfl⟩, he⟩, fun _ hno => by cases hno⟩

/-- An element with `Q` written into a slot of the ring. -/
theorem keepsShape_slot (i : ℕ) {e : Element} (he : Q e) :
    DiskEffect.KeepsShape N Q (.writeElement ((slots N).addr i) e) := by
  obtain ⟨m, hm, haddr⟩ := Represents.slot_onGrid N i
  rw [haddr]
  exact keepsShape_writeElement (by omega) he

theorem SoundDisk.apply {d : Disk} (hd : SoundDisk N Q d) (hnull : Q nullElement) {e : DiskEffect}
    (he : e.KeepsShape N Q) : SoundDisk N Q (d.apply e) where
  info := by
    intro image himage
    cases e with
    | truncatePacketFile => exact hd.info image himage
    | writeElement position x => exact hd.info image himage
    | writeHandler h =>
      obtain rfl := Option.some.inj himage
      exact he.2 h rfl
  file := WholeRecords.foldl hnull [e] hd.file (List.forall_mem_singleton.2 he.1)

theorem SoundDisk.foldl (hnull : Q nullElement) (es : List DiskEffect) :
    ∀ {d : Disk}, SoundDisk N Q d → (∀ e ∈ es, e.KeepsShape N Q) →
      SoundDisk N Q (es.foldl Disk.apply d) := by
  induction es with
  | nil => exact fun hd _ => hd
  | cons e es ih =>
    intro d hd hes
    obtain ⟨he, hrest⟩ := List.forall_mem_cons.1 hes
    exact ih (hd.apply hnull he) hrest

/-! ## Every call keeps the shape -/

theorem Sound.updateInfoFile {w : World} (hs : Sound N Q w.toStore) (hnull : Q nullElement) :
    Sound N Q (updateInfoFile w).2.toStore := by
  simp only [PacketStoreSdcard.updateInfoFile, World.fopenInfoFile, nextFopen_eq]
  split
  · exact ⟨hs.handler, hs.disk.apply hnull (keepsShape_writeHandler hs.handler)⟩
  · exact hs

theorem Sound.writeAndUpdate {w : World} (hs : Sound N Q w.toStore) (hnull : Q nullElement)
    (hroom : w.handler.tmNumber < N) {e : Element} (he : Q e) :
    Sound N Q (writeAndUpdate w e).2.toStore := by
  obtain ⟨o, hr⟩ := hs.handler
  have hwrite : DiskEffect.KeepsShape N Q (.writeElement w.handler.writeTo e) := by
    rw [hr.writeTo]
    exact keepsShape_slot _ he
  have hstored := Sound.updateInfoFile
    (w := (w.emit (.writeElement w.handler.writeTo e)).withHandler (w.handler.storing e))
    ⟨⟨o, hr.storing hroom e⟩, hs.disk.apply hnull hwrite⟩ hnull
  simp only [PacketStoreSdcard.writeAndUpdate]
  split <;> exact hstored

/-- The packet is written to the file as it is or to a new one, or no file is opened. -/
theorem openAndWrite_cases (w : World) (e : Element) :
    (∃ w', w'.toStore = w.toStore ∧ openAndWrite w e = writeAndUpdate w' e) ∨
      (∃ w', w'.toStore = ⟨w.handler, w.disk.apply .truncatePacketFile⟩ ∧
        openAndWrite w e = writeAndUpdate w' e) ∨
      ∃ w', w'.toStore = w.toStore ∧ openAndWrite w e = (1, w') := by
  cases hopen : w.fopenPacketFile.1 with
  | true => exact Or.inl ⟨w.fopenPacketFile.2, rfl, if_pos hopen⟩
  | false =>
    have hnot := Bool.eq_false_iff.1 hopen
    refine Or.inr ?_
    cases hcreate : w.nextFopen.2.nextFopen.1 with
    | true =>
      have hnew : w.fopenPacketFile.2.fopenNewPacketFile =
          (true, w.nextFopen.2.nextFopen.2.emit .truncatePacketFile) := if_pos hcreate
      refine Or.inl ⟨w.nextFopen.2.nextFopen.2.emit .truncatePacketFile, rfl,
        (if_neg hnot).trans ?_⟩
      simp only [hnew, if_true]
    | false =>
      have hnew : w.fopenPacketFile.2.fopenNewPacketFile = (false, w.nextFopen.2.nextFopen.2) :=
        if_neg (Bool.eq_false_iff.1 hcreate)
      refine Or.inr ⟨w.nextFopen.2.nextFopen.2, rfl, (if_neg hnot).trans ?_⟩
      simp only [hnew, Bool.false_eq_true, if_false]

theorem Sound.openAndWrite {w : World} (hs : Sound N Q w.toStore) (hnull : Q nullElement)
    (hroom : w.handler.tmNumber < N) {e : Element} (he : Q e) :
    Sound N Q (openAndWrite w e).2.toStore := by
  rcases openAndWrite_cases w e with ⟨w', hw', hcall⟩ | ⟨w', hw', hcall⟩ | ⟨w', hw', hcall⟩
  · rw [hcall]
    rw [← hw'] at hs hroom
    exact hs.writeAndUpdate hnull hroom he
  · have hcreated : Sound N Q w'.toStore := by
      rw [hw']
      exact ⟨hs.handler, hs.disk.apply hnull keepsShape_truncate⟩
    rw [hcall]
    refine hcreated.writeAndUpdate hnull ?_ he
    rw [hw']
    exact hroom
  · rw [hcall, hw']
    exact hs

theorem Sound.storeCallback {w : World} (hs : Sound N Q w.toStore) (hnull : Q nullElement)
    (dataPtr : ℕ → UInt8) (dataSize : UInt32) (storageTime : ℕ → UInt8)
    (he : Q (elementToWrite dataPtr dataSize storageTime)) :
    Sound N Q (storeCallback N w dataPtr dataSize storageTime).2.toStore := by
  by_cases hacc : w.handler.Accepts N (elementToWrite dataPtr dataSize storageTime)
  · rw [storeCallback_accepted N dataPtr dataSize storageTime w hacc]
    generalize elementToWrite dataPtr dataSize storageTime = e at hacc he
    obtain ⟨o, hr⟩ := hs.handler
    have hadmitted : Sound N Q (w.finish (w.handler.admitting e) 0 []).toStore :=
      ⟨⟨o, hr.admitting e⟩, hs.disk⟩
    refine hadmitted.openAndWrite hnull ?_ he
    rw [finish_handler, admitting_tmNumber]
    exact hacc.1
  · obtain ⟨code, -, hcall⟩ := storeCallback_refused N dataPtr dataSize storageTime w hacc
    rw [hcall]
    exact hs

/-- Null elements over slots of the ring, or over less than one round from the oldest slot on. -/
theorem Sound.erase {s : Store} (hs : Sound N Q s) (hnull : Q nullElement) {position : ℕ → ℤ}
    {n : ℕ} (hgrid : ∀ i, i < n → ∃ m, m < 2 * (N : ℕ) - 1 ∧
      position i = ((elementCodec.size * m : ℕ) : ℤ)) {h : FileHandler} (hh : ∃ o, OnRing N o h) :
    Sound N Q ⟨h, (erasures position n).foldl Disk.apply s.disk⟩ := by
  refine ⟨hh, hs.disk.foldl hnull _ fun e he => ?_⟩
  obtain ⟨i, hi, rfl⟩ := List.mem_map.1 he
  obtain ⟨m, hm, hposition⟩ := hgrid i (List.mem_range.1 hi)
  rw [hposition]
  exact keepsShape_writeElement hm hnull

/-- The delete of everything goes straight on from the oldest slot, past the last one or not. -/
theorem Sound.deleteAll {w : World} (hs : Sound N Q w.toStore) (hnull : Q nullElement) :
    Sound N Q (deleteAll w).2.toStore := by
  simp only [PacketStoreSdcard.deleteAll, World.fopenPacketFile, nextFopen_eq, eraseSequentially_eq]
  split
  · obtain ⟨o, hr⟩ := hs.handler
    refine Sound.updateInfoFile ?_ hnull
    refine hs.erase hnull (fun i hi => ⟨o + i, ?_, ?_⟩) ⟨0, hr.cleared⟩
    · have hbound := hr.bounded
      have holdest := hr.oldest_lt
      omega
    · have hstart : (slots N).addr o = sizeofElement * (o : ℤ) := by
        rw [(slots N).addr_of_lt hr.oldest_lt]
        exact zero_add _
      rw [hr.oldestTmPosition, hstart, ← mul_add, Nat.cast_mul, Nat.cast_add]
      rfl
  · exact hs

/-- The partial delete goes along the ring, for no more slots than are live. -/
theorem Sound.deleteUpToPosition {w : World} (hs : Sound N Q w.toStore) (hnull : Q nullElement)
    {o b : ℕ} (hr : OnRing N o w.handler) (hb : b < w.handler.tmNumber) :
    Sound N Q (deleteUpToPosition w ((slots N).addr (o + b))).2.toStore := by
  simp only [PacketStoreSdcard.deleteUpToPosition, World.fopenPacketFile, nextFopen_eq,
    eraseAlongRing_eq]
  split
  · have hstop := (hr.count_le (hb.trans_le hr.bounded)).trans hb
    refine Sound.updateInfoFile ?_ hnull
    refine hs.erase hnull (fun i _ => ?_) ⟨_, hr.trimmed hstop _⟩
    have hpos := N.pos
    obtain ⟨m, hm, haddr⟩ := Represents.slot_onGrid N (o + i)
    exact ⟨m, by omega, (hr.position_eq i).trans haddr⟩
  · exact hs

theorem Sound.deleteUpToTime {w : World} (hs : Sound N Q w.toStore) (hnull : Q nullElement)
    (time : UInt32) : Sound N Q (deleteUpToTime w time).2.toStore := by
  rw [PacketStoreSdcard.deleteUpToTime]
  split
  · exact hs.deleteAll hnull
  · have hworld := searchForEndTime_world w time
    obtain ⟨o, hr⟩ := hs.handler
    split
    · next w' heq =>
      rw [heq] at hworld
      rw [show w' = _ from hworld]
      exact hs
    · next endPos w' heq =>
      obtain ⟨b, hb, rfl⟩ := hr.searchForEndTime_live heq
      rw [heq] at hworld
      rw [show w' = _ from hworld]
      exact Sound.deleteUpToPosition (w := w.finish w.handler 1 []) hs hnull hr hb

theorem onRing_freshHandler {N : ℕ+} (hN : (N : ℕ) < 2 ^ 32) : OnRing N 0 (freshHandler N) where
  capacity := hN
  head := rfl
  tail := by
    rw [Ring.last, mul_comm]
    rfl
  oldest_lt := N.pos
  oldestTmPosition := (slots N).addr_zero.symm
  writeTo := (slots N).addr_zero.symm
  bounded := Nat.zero_le _

/-- A fresh process has the handler of an empty ring, written to the info file or not, or the image
that it finds there. -/
theorem init_cases (N : ℕ) (d : Disk) (granted : ℕ → Bool) :
    let s := (init N (Store.begin ⟨FileHandler.zero, d⟩ granted)).2.toStore
    s = ⟨freshHandler N, d⟩ ∨ s = ⟨freshHandler N, d.apply (.writeHandler (freshHandler N))⟩ ∨
      ∃ image, d.infoFile = some image ∧ s = ⟨image, d⟩ := by
  cases hinfo : d.infoFile with
  | none =>
    cases hopen : granted 0 with
    | true =>
      refine Or.inr (Or.inl ?_)
      simp [init, Store.begin, World.withHandler, World.nextFopen, World.emit, Disk.apply, hinfo,
        hopen, freshHandler, FileHandler.zero]
    | false =>
      refine Or.inl ?_
      simp [init, Store.begin, World.withHandler, World.nextFopen, hinfo, hopen, freshHandler,
        FileHandler.zero]
  | some image =>
    cases hopen : granted 0 with
    | true => exact Or.inr (Or.inr ⟨image, rfl, (init_of_image N d hinfo hopen).2.1⟩)
    | false =>
      refine Or.inl ?_
      simp [init, Store.begin, World.withHandler, World.nextFopen, hinfo, hopen, freshHandler,
        FileHandler.zero]

theorem SoundDisk.init {d : Disk} (hd : SoundDisk N Q d) (hN : (N : ℕ) < 2 ^ 32)
    (hnull : Q nullElement) (granted : ℕ → Bool) :
    Sound N Q (init N (Store.begin ⟨FileHandler.zero, d⟩ granted)).2.toStore := by
  have hfresh : ∃ o, OnRing N o (freshHandler N) := ⟨0, onRing_freshHandler hN⟩
  rcases init_cases N d granted with hs | hs | ⟨image, himage, hs⟩
  · rw [hs]
    exact ⟨hfresh, hd⟩
  · rw [hs]
    exact ⟨hfresh, hd.apply hnull (keepsShape_writeHandler hfresh)⟩
  · rw [hs]
    exact ⟨hd.info image himage, hd⟩

theorem Sound.step {s : Store} (hs : Sound N Q s) (hnull : Q nullElement) (call : Op × (ℕ → Bool))
    (hoffered : ∀ e, offeredPacket call.1 = some e → Q e) :
    Sound N Q ((faultySystem N).step s call).1 := by
  obtain ⟨op, granted⟩ := call
  cases op with
  | storeCallback dataPtr dataSize storageTime =>
    exact Sound.storeCallback (w := s.begin granted) hs hnull dataPtr dataSize storageTime
      (hoffered _ rfl)
  | readElementsBetweenTwoDates elements maxElementToRead readNumber startTime endTime =>
    have hkept := readElements_toStore (s.begin granted) elements maxElementToRead readNumber
      startTime endTime
    have hstep : ((faultySystem N).step s (.readElementsBetweenTwoDates elements maxElementToRead
        readNumber startTime endTime, granted)).1 = s := hkept
    rw [hstep]
    exact hs
  | deleteUpToTime time => exact Sound.deleteUpToTime (w := s.begin granted) hs hnull time
  | restart =>
    obtain ⟨o, hr⟩ := hs.handler
    exact hs.disk.init hr.capacity hnull granted

theorem Sound.after (hnull : Q nullElement) (calls : List (Op × (ℕ → Bool))) :
    ∀ {s : Store}, Sound N Q s →
      (∀ e ∈ calls.filterMap fun c => offeredPacket c.1, Q e) →
        Sound N Q ((faultySystem N).after s calls) := by
  induction calls with
  | nil => exact fun hs _ => hs
  | cons call calls ih =>
    intro s hs hoffered
    refine ih (hs.step hnull call fun e he => hoffered e ?_) fun e he => hoffered e ?_
    · exact List.mem_filterMap.2 ⟨call, List.mem_cons_self, he⟩
    · rw [List.filterMap_cons]
      split
      · exact he
      · exact List.mem_cons_of_mem _ he

end Shape

/-- The process that ran `init` without files, and then the calls, with the answers of the
environment to every `fopen`. -/
def afterFailures (N : ℕ) (granted₀ : ℕ → Bool) (calls : List (Op × (ℕ → Bool))) : Store :=
  (faultySystem N).after ⟨FileHandler.zero, ⟨none, none⟩⟩ ((.restart, granted₀) :: calls)

theorem sound_afterFailures {N : ℕ+} (hN : (N : ℕ) < 2 ^ 32) (granted₀ : ℕ → Bool)
    (calls : List (Op × (ℕ → Bool))) :
    Sound N (Known (calls.filterMap fun c => offeredPacket c.1))
      (afterFailures N granted₀ calls) := by
  have hempty : SoundDisk N (Known (calls.filterMap fun c => offeredPacket c.1)) ⟨none, none⟩ :=
    ⟨fun image hno => (by cases hno),
      ⟨[], rfl, Nat.zero_le _, fun x hx => absurd hx List.not_mem_nil⟩⟩
  exact (hempty.init hN (Or.inl rfl) granted₀).after (Or.inl rfl) calls fun e he => Or.inr he

/-- Whatever files fail to open, in `init` too: after every run of stores, reads, deletes and
restarts the handler in memory, and the one in the info file if there is one, have at most `N` live
slots of the ring between their cursors, and the packet file consists of whole elements, less than
two rounds of the ring, each of them null or given to a store of the run. -/
theorem any_failures_consistent (N : ℕ+) (hN : (N : ℕ) < 2 ^ 32) (granted₀ : ℕ → Bool)
    (calls : List (Op × (ℕ → Bool))) :
    let s := afterFailures N granted₀ calls
    let offered := calls.filterMap fun c => offeredPacket c.1
    (∃ o, OnRing N o s.handler) ∧ (∀ image, s.disk.infoFile = some image → ∃ o, OnRing N o image) ∧
      ∃ xs : List Element, s.disk.packetBytes = xs.flatMap elementCodec.encode ∧
        xs.length ≤ 2 * N - 1 ∧ ∀ x ∈ xs, x = nullElement ∨ x ∈ offered := by
  intro s offered
  have hs := sound_afterFailures hN granted₀ calls
  exact ⟨hs.handler, hs.disk.info, hs.disk.file⟩

/-- An `init` that cannot create the info file, a store without it and one that opens no file. -/
theorem any_failures_consistent_no_info_file :
    ∃ o, OnRing maxTmNumber o (afterFailures maxTmNumber (fun _ => false)
      [(storeAt 3, allGranted), (storeAt 5, fun _ => false)]).handler :=
  (any_failures_consistent maxTmNumber (by decide) (fun _ => false)
    [(storeAt 3, allGranted), (storeAt 5, fun _ => false)]).1

/-! ## Acknowledged packets -/

/-- A handler of a ring in which the position `p` is live. -/
def HasLive (N : ℕ+) (p : ℤ) (h : FileHandler) : Prop :=
  ∃ o i, OnRing N o h ∧ i < h.tmNumber ∧ h.position i = p

/-- The packet `e` at position `p` is in the file, and live in memory and in the info file. -/
structure Durable (N : ℕ+) (p : ℤ) (e : Element) (s : Store) : Prop where
  handler : HasLive N p s.handler
  info : ∃ image, s.disk.infoFile = some image ∧ HasLive N p image
  file : elementCodec.Holds s.disk.packetBytes p e
  exists_file : s.disk.packetFile.isSome = true

/-- A call that deletes nothing, creates no packet file anew and finds the info file at a restart.
The `fopen` of the info file in a store may fail, and so may those of a read. -/
def KeepsAcknowledged : Op × (ℕ → Bool) → Prop
  | (.storeCallback _ _ _, granted) => granted 0 = true
  | (.readElementsBetweenTwoDates _ _ _ _ _, _) => True
  | (.deleteUpToTime _, _) => False
  | (.restart, granted) => granted 0 = true

section Acknowledged

variable {N : ℕ+} {p : ℤ} {e : Element} {s : Store}

/-- A stored packet is live after the others, and these stay live. -/
theorem HasLive.stored {h : FileHandler} (hl : HasLive N p h) (hroom : h.tmNumber < N)
    (x : Element) : HasLive N p (h.stored x) := by
  obtain ⟨o, i, hr, hi, hp⟩ := hl
  have hadmitted := hr.admitting x
  have hstored := hadmitted.storing (show (h.admitting x).tmNumber < N by
    rw [admitting_tmNumber]; exact hroom) x
  refine ⟨o, i, hstored, ?_, ?_⟩
  · rw [stored_tmNumber hroom hr.capacity]
    exact Nat.lt_succ_of_lt hi
  · rw [FileHandler.stored, hstored.position_eq, ← hr.position_eq, hp]

/-- The slot at `write_to` is no live one while there is room. -/
theorem HasLive.disjoint_writeTo {h : FileHandler} (hl : HasLive N p h) (hroom : h.tmNumber < N) :
    0 ≤ p ∧ 0 ≤ h.writeTo ∧ (h.writeTo + sizeofElement ≤ p ∨ p + sizeofElement ≤ h.writeTo) := by
  obtain ⟨o, i, hr, hi, rfl⟩ := hl
  rw [hr.position_eq, hr.writeTo]
  exact ⟨(slots N).base_le_addr _, (slots N).base_le_addr _,
    (slots N).addr_add_disjoint o hi.ne' hroom (hi.trans hroom)⟩

/-- Another packet, stored with or without the write of the info file. -/
theorem Durable.stored (hd : Durable N p e s) (hroom : s.handler.tmNumber < N) (x : Element)
    (opened : Bool) :
    Durable N p e ⟨s.handler.stored x, (.writeElement s.handler.writeTo x ::
      infoUpdate opened (s.handler.stored x)).foldl Disk.apply s.disk⟩ where
  handler := hd.handler.stored hroom x
  info := by
    cases opened with
    | true => exact ⟨s.handler.stored x, rfl, hd.handler.stored hroom x⟩
    | false => exact hd.info
  file := by
    obtain ⟨hp, hwriteTo, hdisjoint⟩ := hd.handler.disjoint_writeTo hroom
    rw [List.foldl_cons, packetBytes_infoUpdate]
    exact hd.file.writeAt_of_disjoint hp hwriteTo hdisjoint.symm x
  exists_file := isSome_packetFile_foldl _ s.disk hd.exists_file

theorem Durable.step (hd : Durable N p e s) {call : Op × (ℕ → Bool)}
    (hcall : KeepsAcknowledged call) : Durable N p e ((faultySystem N).step s call).1 := by
  obtain ⟨op, granted⟩ := call
  cases op with
  | storeCallback dataPtr dataSize storageTime =>
    obtain ⟨image, himage, -⟩ := hd.info
    have hinfo : s.disk.infoFile.isSome = true := Option.isSome_of_eq_some himage
    have hstep : ((faultySystem N).step s (.storeCallback dataPtr dataSize storageTime, granted)).1 =
        (storeCallback N (s.begin granted) dataPtr dataSize storageTime).2.toStore := rfl
    have hopen : (granted 0 && s.disk.packetFile.isSome) = true := by
      rw [hd.exists_file, Bool.and_true]
      exact hcall
    rw [hstep]
    rcases storeCallback_cases N dataPtr dataSize storageTime s granted hinfo with
      ⟨-, code, -, hresult⟩ | ⟨hacc, -, hresult⟩ | ⟨-, hclosed, -⟩ | ⟨-, hclosed, -⟩
    · rw [hresult]
      exact hd
    · rw [hresult]
      exact hd.stored hacc.1 _ _
    · exact absurd (hopen.symm.trans hclosed) Bool.noConfusion
    · exact absurd (hopen.symm.trans hclosed) Bool.noConfusion
  | readElementsBetweenTwoDates elements maxElementToRead readNumber startTime endTime =>
    have hkept := readElements_toStore (s.begin granted) elements maxElementToRead readNumber
      startTime endTime
    have hstep : ((faultySystem N).step s (.readElementsBetweenTwoDates elements maxElementToRead
        readNumber startTime endTime, granted)).1 = s := hkept
    rw [hstep]
    exact hd
  | deleteUpToTime time => exact hcall.elim
  | restart =>
    obtain ⟨image, himage, hlive⟩ := hd.info
    obtain ⟨-, hstore, -⟩ := init_of_image N s.disk himage hcall
    have hstep : ((faultySystem N).step s (.restart, granted)).1 = ⟨image, s.disk⟩ := hstore
    rw [hstep]
    exact ⟨hlive, ⟨image, himage, hlive⟩, hd.file, hd.exists_file⟩

theorem writeAndUpdate_of_none {w : World} (hnone : w.disk.infoFile = none) (x : Element) :
    (writeAndUpdate w x).1 = -2 := by
  have hkeep : (Disk.apply w.disk (.writeElement w.handler.writeTo x)).infoFile = none := hnone
  simp [writeAndUpdate, updateInfoFile, World.fopenInfoFile, World.nextFopen, World.emit,
    World.withHandler, hkeep]

/-- Without info file no store returns 0. -/
theorem infoFile_isSome_of_acknowledged {w : World} {dataPtr : ℕ → UInt8} {dataSize : UInt32}
    {storageTime : ℕ → UInt8} (hcode : (storeCallback N w dataPtr dataSize storageTime).1 = 0) :
    w.disk.infoFile.isSome = true := by
  by_contra hno
  have hnone : w.disk.infoFile = none := Option.not_isSome_iff_eq_none.1 hno
  by_cases hacc : w.handler.Accepts N (elementToWrite dataPtr dataSize storageTime)
  · rw [storeCallback_accepted N dataPtr dataSize storageTime w hacc] at hcode
    rcases openAndWrite_cases (w.finish (w.handler.admitting _) 0 []) _ with
      ⟨w', hw', hcall⟩ | ⟨w', hw', hcall⟩ | ⟨w', -, hcall⟩
    · rw [hcall, writeAndUpdate_of_none (by rw [hw']; exact hnone)] at hcode
      cases hcode
    · rw [hcall, writeAndUpdate_of_none (by rw [hw']; exact hnone)] at hcode
      cases hcode
    · rw [hcall] at hcode
      cases hcode
  · obtain ⟨code, hne, hcall⟩ := storeCallback_refused N dataPtr dataSize storageTime w hacc
    rw [hcall] at hcode
    exact hne hcode

/-- Right after its store, with the write of the info file, a packet is durable. -/
theorem durable_stored {o : ℕ} {h : FileHandler} (hr : OnRing N o h) (hroom : h.tmNumber < N)
    (x : Element) (d : Disk) :
    Durable N h.writeTo x ⟨h.stored x, (.writeElement h.writeTo x ::
      infoUpdate true (h.stored x)).foldl Disk.apply d⟩ := by
  have hadmitted := hr.admitting x
  have hstored : OnRing N o (h.stored x) := hadmitted.storing
    (show (h.admitting x).tmNumber < N by rw [admitting_tmNumber]; exact hroom) x
  have hlive : HasLive N h.writeTo (h.stored x) := by
    refine ⟨o, h.tmNumber, hstored, ?_, ?_⟩
    · rw [stored_tmNumber hroom hr.capacity]
      exact Nat.lt_succ_self _
    · rw [hstored.position_eq, hr.writeTo]
  exact ⟨hlive, ⟨h.stored x, rfl, hlive⟩, Codec.holds_writeAt _ _ _, rfl⟩

/-- A store that returns 0 leaves its packet durable, at the position that was `write_to`. -/
theorem durable_of_acknowledged {o : ℕ} (hr : OnRing N o s.handler) (dataPtr : ℕ → UInt8)
    (dataSize : UInt32) (storageTime : ℕ → UInt8) (granted : ℕ → Bool)
    (hcode : (storeCallback N (s.begin granted) dataPtr dataSize storageTime).1 = 0) :
    Durable N s.handler.writeTo (elementToWrite dataPtr dataSize storageTime)
      (storeCallback N (s.begin granted) dataPtr dataSize storageTime).2.toStore := by
  have hinfo : s.disk.infoFile.isSome = true :=
    infoFile_isSome_of_acknowledged (w := s.begin granted) hcode
  have hopened : ∀ opened : Bool, (if opened then (0 : ℤ) else -2) = 0 → opened = true := by
    decide
  rcases storeCallback_cases N dataPtr dataSize storageTime s granted hinfo with
    ⟨-, code, hne, hresult⟩ | ⟨hacc, -, hresult⟩ | ⟨hacc, -, -, hresult⟩ | ⟨-, -, -, hresult⟩
  · rw [hresult] at hcode
    exact absurd hcode hne
  · rw [hresult] at hcode ⊢
    rw [hopened _ hcode]
    exact durable_stored hr hacc.1 _ s.disk
  · rw [hresult] at hcode ⊢
    rw [hopened _ hcode]
    exact durable_stored hr hacc.1 _ (s.disk.apply .truncatePacketFile)
  · rw [hresult] at hcode
    cases hcode

theorem Durable.after (later : List (Op × (ℕ → Bool))) :
    ∀ {s : Store}, Durable N p e s → (∀ call ∈ later, KeepsAcknowledged call) →
      Durable N p e ((faultySystem N).after s later) := by
  induction later with
  | nil => exact fun hd _ => hd
  | cons call later ih =>
    intro s hd hlater
    obtain ⟨hcall, hrest⟩ := List.forall_mem_cons.1 hlater
    exact ih (hd.step hcall) hrest

/-- A durable packet is read at one of the live positions. -/
theorem Durable.exists_read (hd : Durable N p e s) :
    ∃ i, i < s.handler.tmNumber ∧ ∀ elem,
      (getElementInFile (s.begin allGranted) (s.handler.position i) elem).1 = (0, e) := by
  obtain ⟨o, i, -, hi, rfl⟩ := hd.handler
  refine ⟨i, hi, fun elem => ?_⟩
  have hopen : (s.begin allGranted).fopenPacketFile.1 = true := hd.exists_file
  rw [getElementInFile, if_pos hopen]
  exact congrArg (Prod.mk 0) (hd.file.readAt_eq elem)

end Acknowledged

/-- Whatever files failed to open before: a packet whose store returned 0 is one of the live packets
after every run of calls that delete nothing, open the packet file as it is and find the info file
at their restarts, whether the stores among them can write the info file or not. -/
theorem acknowledged_store_durable (N : ℕ+) (hN : (N : ℕ) < 2 ^ 32) (granted₀ : ℕ → Bool)
    (before later : List (Op × (ℕ → Bool))) (granted : ℕ → Bool) (dataPtr : ℕ → UInt8)
    (dataSize : UInt32) (storageTime : ℕ → UInt8)
    (hcode : (storeCallback N ((afterFailures N granted₀ before).begin granted) dataPtr dataSize
      storageTime).1 = 0)
    (hlater : ∀ call ∈ later, KeepsAcknowledged call) :
    let s := afterFailures N granted₀
      (before ++ (.storeCallback dataPtr dataSize storageTime, granted) :: later)
    ∃ i, i < s.handler.tmNumber ∧ ∀ elem,
      (getElementInFile (s.begin allGranted) (s.handler.position i) elem).1 =
        (0, elementToWrite dataPtr dataSize storageTime) := by
  intro s
  obtain ⟨o, hr⟩ := (sound_afterFailures hN granted₀ before).handler
  have hstored := durable_of_acknowledged hr dataPtr dataSize storageTime granted hcode
  have hrun : s = (faultySystem N).after
      (storeCallback N ((afterFailures N granted₀ before).begin granted) dataPtr dataSize
        storageTime).2.toStore later :=
    (faultySystem N).after_append _ ((.restart, granted₀) :: before) _
  rw [hrun]
  exact (hstored.after later hlater).exists_read

/-- Another store, whose write of the info file fails, and a restart: the packet is live. -/
theorem acknowledged_store_durable_restart :
    0 < (afterFailures maxTmNumber allGranted
      ([] ++ (.storeCallback (fun _ => 7) 10 (fun _ => 0), allGranted) ::
        [(storeAt 5, fun n => n == 0), (.restart, allGranted)])).handler.tmNumber := by
  obtain ⟨i, hi, -⟩ := acknowledged_store_durable maxTmNumber (by decide) allGranted []
    [(storeAt 5, fun n => n == 0), (.restart, allGranted)] allGranted (fun _ => 7) 10 (fun _ => 0)
    (by decide +kernel) (List.forall_mem_cons.2 ⟨rfl, List.forall_mem_singleton.2 rfl⟩)
  exact Nat.zero_lt_of_lt hi

end CComplete.PacketStoreSdcard
