import CComplete.PacketStoreSdcard.TornWrites

/-!
# Recovery after a stop at any byte

A store writes its packet outside the live slots, so a stop during it does no harm. But then
`update_info_file` writes the new image over the old one, with neither a copy nor a checksum. A
fresh process is in a regular state with the old or the new packets if and only if the image it
finds is the old one and the live packets are untouched, or it is the new one
(`torn_recovery_iff`). In a ring of more than one slot every store has a stop in between
(`store_stop_unrecoverable`).
-/

set_option autoImplicit false

namespace CComplete.PacketStoreSdcard

open CComplete.Library

/-! ## The calls that change the disk -/

/-- A call that changes nothing. -/
structure Quiet (N : ℕ+) (s : Store) (op : Op) : Prop where
  effects : (runOp N s allGranted op).2.effects = []
  store : ((system N).step s op).1 = s
  harmless : ∀ written, ErasuresHarmless s written op

/-- A call that writes the elements `body`, and then the info file. It leaves the handler as it was,
or another number of packets; the live packets are there after a stop in `body` if the erasures do
no harm. -/
structure WritesBody (N : ℕ+) (s : Store) (ps : List Element) (op : Op) (body : List DiskEffect) :
    Prop where
  effects : (runOp N s allGranted op).2.effects =
    body ++ [.writeHandler ((system N).step s op).1.handler]
  noHandler : NoHandler body
  bytes : bytesOf body = elementCodec.size * elementWrites s op
  counted : (((system N).step s op).1.handler = s.handler ∧
      ∀ written, ErasuresHarmless s written op) ∨
    ((system N).step s op).1.handler.tmNumber ≠ s.handler.tmNumber
  slots : ∀ (d : ByteDisk) (written : ℕ), d.packetFile = s.disk.packetFile →
    ((∀ i p, ps[i]? = some p →
      (d.applyBytes written body).slot (s.handler.position i) = elementCodec.encode p) ↔
        ErasuresHarmless s written op)

namespace Represents

variable {N : ℕ+} {o : ℕ} {s : Store} {ps : List Element}

theorem segment_iff (h : Represents N o s ps) (d : ByteDisk) :
    (slots N).Segment (elementCodec.Holds d.packetBytes) o ps ↔
      ∀ i p, ps[i]? = some p → d.slot (s.handler.position i) = elementCodec.encode p := by
  constructor
  · intro hsegment i p hp
    obtain ⟨hi, rfl⟩ := List.getElem?_eq_some_iff.1 hp
    rw [h.position_eq]
    exact hsegment i hi
  · intro hslots i hi
    have hslot := hslots i _ (List.getElem?_eq_getElem hi)
    rw [h.position_eq] at hslot
    exact hslot

/-- The slots of the live packets before the call. -/
theorem slot_eq (h : Represents N o s ps) {d : ByteDisk} (hd : d.packetFile = s.disk.packetFile)
    {i : ℕ} {p : Element} (hp : ps[i]? = some p) :
    d.slot (s.handler.position i) = elementCodec.encode p := by
  have hbytes : d.packetBytes = s.disk.packetBytes := congrArg (·.getD []) hd
  have hpackets := h.packets
  rw [← hbytes] at hpackets
  exact (h.segment_iff d).1 hpackets i p hp

/-- The handler is determined by the number of the oldest slot and the packets. -/
theorem handler_eq (h : Represents N o s ps) {s' : Store} (h' : Represents N o s' ps) :
    s'.handler = s.handler := by
  cases hs : s.handler
  cases hs' : s'.handler
  simp only [FileHandler.mk.injEq]
  have hhead := h'.head.trans h.head.symm
  have htail := h'.tail.trans h.tail.symm
  have hwriteTo := h'.writeTo.trans h.writeTo.symm
  have htmNumber := h'.tmNumber.trans h.tmNumber.symm
  have holdest := h'.oldestTmPosition.trans h.oldestTmPosition.symm
  have holdestTime := h'.oldestTime.trans h.oldestTime.symm
  have hnewestTime := h'.newestTime.trans h.newestTime.symm
  rw [hs, hs'] at hhead htail hwriteTo htmNumber holdest holdestTime hnewestTime
  exact ⟨hhead, htail, hwriteTo, htmNumber, holdest, holdestTime, hnewestTime⟩

/-- Two stores whose oldest packets lie at the same position have the same oldest slot. -/
theorem oldest_eq (h : Represents N o s ps) {o' : ℕ} {s' : Store} {ps' : List Element}
    (h' : Represents N o' s' ps')
    (holdest : s'.handler.oldestTmPosition = s.handler.oldestTmPosition) : o' = o := by
  rw [h'.oldestTmPosition, h.oldestTmPosition] at holdest
  exact ((slots N).addr_inj_of_lt h'.oldest_lt h.oldest_lt).1 holdest

/-- So have two stores with the same number of packets that write to the same position next. -/
theorem oldest_eq_of_writeTo (h : Represents N o s ps) {o' : ℕ} {s' : Store}
    (h' : Represents N o' s' ps) (hwriteTo : s'.handler.writeTo = s.handler.writeTo) : o' = o := by
  rw [h'.writeTo, h.writeTo, Ring.addr_inj] at hwriteTo
  have hmod : o' % N = o % N := Nat.ModEq.add_right_cancel' ps.length hwriteTo
  rwa [Nat.mod_eq_of_lt h'.oldest_lt, Nat.mod_eq_of_lt h.oldest_lt] at hmod

theorem length_slot (h : Represents N o s ps) {d : ByteDisk}
    (hd : d.packetFile = s.disk.packetFile) {i : ℕ} {p : Element} (hp : ps[i]? = some p) :
    (d.slot (s.handler.position i)).length = elementCodec.size := by
  rw [h.slot_eq hd hp]
  exact elementCodec.length_encode p

/-- A store that is accepted writes its packet outside the live slots. -/
theorem writesBody_store (h : Represents N o s ps) (dataPtr : ℕ → UInt8) (dataSize : UInt32)
    (storageTime : ℕ → UInt8) :
    let op := Op.storeCallback dataPtr dataSize storageTime
    Quiet N s op ∨ ∃ body, WritesBody N s ps op body := by
  intro op
  let e := elementToWrite dataPtr dataSize storageTime
  have hcounted : s.handler.Accepts N e →
      ((system N).step s op).1.handler.tmNumber ≠ s.handler.tmNumber := by
    intro hacc
    have hstored := (h.storeCallback_granted dataPtr dataSize storageTime hacc).2.2
    have hnumber : ((system N).step s op).1.handler.tmNumber = (ps ++ [e]).length :=
      hstored.tmNumber
    rw [hnumber, h.tmNumber, List.length_append, List.length_singleton]
    exact Nat.succ_ne_self _
  rcases storeCallback_cases N dataPtr dataSize storageTime s allGranted h.infoFile_isSome with
    ⟨-, code, -, hcall⟩ | ⟨hacc, -, hcall⟩ | ⟨hacc, hclosed, -, hcall⟩ | ⟨-, -, hno, -⟩
  · refine Or.inl ⟨?_, ?_, fun _ => trivial⟩
    · simp only [op, runOp, hcall]
      rfl
    · show (storeCallback N (s.begin allGranted) dataPtr dataSize storageTime).2.toStore = s
      rw [hcall]
      rfl
  · have hroom : ps.length < N := h.tmNumber ▸ hacc.1
    refine Or.inr ⟨[.writeElement s.handler.writeTo e], ?_⟩
    exact
      { effects := by
          show (storeCallback N (s.begin allGranted) dataPtr dataSize storageTime).2.effects =
            _ ++ [.writeHandler
              (storeCallback N (s.begin allGranted) dataPtr dataSize storageTime).2.handler]
          rw [hcall]
          rfl
        noHandler := fun c hc hd hno => by
          rw [List.mem_singleton.1 hc] at hno
          cases hno
        bytes := rfl
        counted := Or.inr (hcounted hacc)
        slots := by
          refine fun d written hd => iff_of_true (fun i p hp => ?_) trivial
          obtain ⟨hi, -⟩ := List.getElem?_eq_some_iff.1 hp
          refine slot_applyBytes_off (h.position_nonneg i) (elementCodec.length_encode p) _ written
            (h.slot_eq hd hp) fun c hc => ?_
          rw [List.mem_singleton.1 hc]
          exact ⟨h.writeTo_nonneg, h.position_disjoint hroom hi⟩ }
  · -- the packet file is only created for an empty store
    obtain rfl := h.eq_nil_of_closed hclosed
    refine Or.inr ⟨[.truncatePacketFile, .writeElement s.handler.writeTo e], ?_⟩
    exact
      { effects := by
          show (storeCallback N (s.begin allGranted) dataPtr dataSize storageTime).2.effects =
            _ ++ [.writeHandler
              (storeCallback N (s.begin allGranted) dataPtr dataSize storageTime).2.handler]
          rw [hcall]
          rfl
        noHandler := fun c hc hd hno => by
          subst hno
          simp at hc
        bytes := rfl
        counted := Or.inr (hcounted hacc)
        slots := fun d written hd => iff_of_true (fun i p hp => by simp at hp) trivial }
  · exact Bool.noConfusion hno

/-- Erasures at positions of the grid keep the live packets if the ones they meet are zeros as far
as they were erased. -/
theorem slots_erasures_iff (h : Represents N o s ps) {position : ℕ → ℤ} {n : ℕ}
    (hgrid : ∀ j, ∃ m : ℕ, position j = sizeofElement * (m : ℤ))
    (hmeets : ∀ i j, i < ps.length → j < n → position j = s.handler.position i → j = i)
    {d : ByteDisk} (hd : d.packetFile = s.disk.packetFile) (written : ℕ) :
    (∀ i p, ps[i]? = some p →
      (d.applyBytes written (erasures position n)).slot (s.handler.position i) =
        elementCodec.encode p) ↔
      ∀ i p, ps[i]? = some p → i < n → s.handler.position i = position i →
        (elementCodec.encode nullElement).take (written - elementCodec.size * i) =
          (elementCodec.encode p).take (written - elementCodec.size * i) := by
  refine forall₂_congr fun i p => forall_congr' fun hp => ?_
  obtain ⟨hi, -⟩ := List.getElem?_eq_some_iff.1 hp
  -- an erasure of another position is off the slot
  have hoff : ∀ j, j < n → position j ≠ s.handler.position i →
      DiskEffect.Off (s.handler.position i) (.writeElement (position j) nullElement) := by
    intro j _ hne
    obtain ⟨m, hm⟩ := hgrid j
    obtain ⟨m', hm'⟩ := addr_onGrid N (o + i)
    rw [← h.position_eq] at hm'
    rw [hm, hm'] at hne ⊢
    rw [DiskEffect.Off, sizeofElement] at *
    omega
  by_cases hmeet : i < n ∧ s.handler.position i = position i
  · have htorn := slot_erasures (h.position_nonneg i) (h.length_slot hd hp) rfl hmeet.1
      hmeet.2.symm (fun j hj hne => hoff j hj fun heq => hne (hmeets i j hi hj heq)) written
    have hlen : (elementCodec.encode nullElement).length = (elementCodec.encode p).length := by
      rw [elementCodec.length_encode, elementCodec.length_encode]
    rw [htorn, h.slot_eq hd hp, torn_eq_old_iff hlen]
    exact ⟨fun heq _ _ => heq, fun himp => himp hmeet.1 hmeet.2⟩
  · refine iff_of_true ?_ fun hlt heq => absurd ⟨hlt, heq⟩ hmeet
    refine slot_applyBytes_off (h.position_nonneg i) (elementCodec.length_encode p) _ written
      (h.slot_eq hd hp) fun e he => ?_
    obtain ⟨j, hj, rfl⟩ := List.mem_map.1 he
    have hlt := List.mem_range.1 hj
    refine hoff j hlt fun heq => ?_
    obtain rfl := hmeets i j hi hlt heq
    exact hmeet ⟨hlt, heq.symm⟩

/-- A delete writes its zeros and then the info file, or changes nothing. -/
theorem writesBody_delete (h : Represents N o s ps) (time : UInt32) :
    Quiet N s (.deleteUpToTime time) ∨ ∃ body, WritesBody N s ps (.deleteUpToTime time) body := by
  have hstep : ((system N).step s (.deleteUpToTime time)).1 =
      (deleteUpToTime (s.begin allGranted) time).2.toStore := rfl
  have heffects : (runOp N s allGranted (.deleteUpToTime time)).2.effects =
      (deleteUpToTime (s.begin allGranted) time).2.effects := rfl
  have hharmless : ∀ written, ErasuresHarmless s written (.deleteUpToTime time) ↔
      ∀ i p, ps[i]? = some p → i < erasedCount s time →
        s.handler.position i = erasedPosition s time i →
        (elementCodec.encode nullElement).take (written - elementCodec.size * i) =
          (elementCodec.encode p).take (written - elementCodec.size * i) := by
    intro written
    rw [ErasuresHarmless, h.livePackets_eq]
  obtain ⟨m, hm⟩ := addr_onGrid N o
  rcases h.deleteUpToTime_cases allGranted time with
    ⟨hT, -, hcall⟩ | ⟨hT, -, -, hsome, stop, hstopdef, hstop, hcall⟩ | ⟨hno, code, n, -, hcall⟩
  · have hcount : erasedCount s time = s.handler.tmNumber := if_pos hT
    have hposition : erasedPosition s time =
        fun i : ℕ => s.handler.oldestTmPosition + sizeofElement * (i : ℤ) :=
      funext fun i => if_pos hT
    refine Or.inr ⟨erasures (erasedPosition s time) s.handler.tmNumber, ?_,
      noHandler_erasures _ _, ?_, ?_, ?_⟩
    · rw [heffects, hstep, hcall, hposition]
      rfl
    · rw [bytesOf_erasures, elementWrites, hcount]
    · rw [hstep, hcall]
      by_cases hempty : ps = []
      · refine Or.inl ⟨?_, fun written => (hharmless written).2 fun i p hp => ?_⟩
        · obtain rfl := h.oldest_of_empty hempty
          subst hempty
          have hcleared := h.handler_eq (h.cleared (d := ⟨none, some s.handler.cleared⟩) rfl)
          exact hcleared
        · rw [hempty] at hp
          simp at hp
      · refine Or.inr fun hsame => hempty (h.ps_eq_nil_iff.2 ?_)
        exact hsame.symm
    · intro d written hd
      rw [hharmless, hcount, hposition]
      refine h.slots_erasures_iff (fun j => ⟨m + j, ?_⟩)
        (fun i j hi _ heq => h.straight_meets i j hi heq) hd written
      rw [h.oldestTmPosition, hm]
      push_cast
      ring
  · have hcount : erasedCount s time = stop := by
      rw [erasedCount, if_neg (UInt32.not_le.2 hT), h.livePackets_eq, if_pos hsome,
        h.position_eq (_ - 1), ← hstopdef]
    have hposition : erasedPosition s time = s.handler.position :=
      funext fun i => if_neg (UInt32.not_le.2 hT)
    refine Or.inr ⟨erasures s.handler.position stop, ?_, noHandler_erasures _ stop, ?_, ?_, ?_⟩
    · rw [heffects, hstep, hcall]
      rfl
    · rw [bytesOf_erasures, elementWrites, hcount]
    · rw [hstep, hcall]
      rcases Nat.eq_zero_or_pos stop with rfl | hpos
      · refine Or.inl ⟨?_, fun written => (hharmless written).2 fun i p _ hi => ?_⟩
        · have htrimmed := h.trimmed hstop
          rw [List.drop_zero, Nat.add_zero, Nat.mod_eq_of_lt h.oldest_lt] at htrimmed
          exact h.handler_eq htrimmed
        · rw [hcount] at hi
          exact absurd hi (Nat.not_lt_zero i)
      · refine Or.inr ?_
        rw [finish_toStore, trimmed_tmNumber h.tmNumber_lt (h.tmNumber ▸ hstop.le), h.tmNumber]
        omega
    · intro d written hd
      rw [hharmless, hcount, hposition]
      refine h.slots_erasures_iff (fun j => ?_)
        (fun i j hi hj heq => h.position_meets i j hi (hj.trans hstop) heq) hd written
      rw [h.position_eq]
      exact addr_onGrid N _
  · refine Or.inl ⟨?_, ?_, fun written => (hharmless written).2 fun i p hp hi => ?_⟩
    · rw [heffects, hcall]
      rfl
    · rw [hstep, hcall]
      rfl
    · -- a file with a packet that is old enough would have been changed
      exfalso
      have hne : ps ≠ [] := fun hnil => by
        rw [hnil] at hp
        simp at hp
      refine hno ⟨h.fileExists hne, fun hlt => ⟨rfl, ?_⟩⟩
      by_contra hnone
      rw [erasedCount, if_neg (UInt32.not_le.2 hlt), h.livePackets_eq, if_neg hnone] at hi
      exact Nat.not_lt_zero i hi

/-- A call writes elements and then the info file, or changes nothing. -/
theorem quiet_or_writesBody (h : Represents N o s ps) (op : Op) :
    Quiet N s op ∨ ∃ body, WritesBody N s ps op body := by
  cases op with
  | storeCallback dataPtr dataSize storageTime =>
    exact h.writesBody_store dataPtr dataSize storageTime
  | readElementsBetweenTwoDates elements maxElementToRead readNumber startTime endTime =>
    obtain ⟨n, hworld⟩ := readElements_world (s.begin allGranted) elements maxElementToRead
      readNumber startTime endTime
    refine Or.inl ⟨?_, readElements_toStore _ _ _ _ _ _, fun _ => trivial⟩
    simp only [runOp, hworld]
    rfl
  | deleteUpToTime time => exact h.writesBody_delete time
  | restart =>
    obtain ⟨-, hstore, heffects⟩ :=
      init_of_image N s.disk h.infoFile (show allGranted 0 = true from rfl)
    exact Or.inl ⟨heffects, hstore, fun _ => trivial⟩

/-! ## After a stop -/

variable {b : ByteStore} {op : Op} {body : List DiskEffect}

/-- What a fresh process finds after a stop of a call that writes. -/
theorem fresh_eq (h : Represents N o (b.view N) ps) (hinfo : b.disk.HasInfo handlerSize)
    (hwrites : WritesBody N (b.view N) ps op body) (written : ℕ) :
    let handler := tornHandler (written - elementCodec.size * elementWrites (b.view N) op)
      ((system N).step (b.view N) op).1.handler (b.view N).handler
    let fresh := initialByteStore N (b.diskAtByte N op written)
    fresh.disk.HasInfo handlerSize ∧
      fresh.view N =
        ⟨handler, ⟨(b.disk.applyBytes written body).packetFile, some handler⟩⟩ := by
  intro handler fresh
  have hdisk : b.diskAtByte N op written = b.disk.applyBytes written
      (body ++ [.writeHandler ((system N).step (b.view N) op).1.handler]) := by
    rw [ByteStore.diskAtByte, hwrites.effects]
  have hold := ByteDisk.infoFile_eq_image hinfo h.infoFile
  have himage := infoFile_at_stop hwrites.noHandler hold
    ((system N).step (b.view N) op).1.handler written
  have hpackets := packetFile_at_stop b.disk body ((system N).step (b.view N) op).1.handler written
  rw [← hdisk, hwrites.bytes] at himage
  rw [← hdisk] at hpackets
  have hlen : (torn (written - elementCodec.size * elementWrites (b.view N) op)
      ((system N).step (b.view N) op).1.handler.image (b.view N).handler.image).length =
        handlerSize := by
    rw [length_torn (length_images _ _), FileHandler.length_image]
  obtain ⟨hkeep, hview⟩ := view_initialByteStore N himage hlen
  refine ⟨?_, ?_⟩
  · rw [hkeep]
    exact ⟨_, himage, hlen.ge, hlen.le⟩
  · rw [hview, hpackets]
    rfl

/-- The packet file after all elements of the call. -/
theorem packetFile_complete (h : Represents N o (b.view N) ps)
    (hinfo : b.disk.HasInfo handlerSize) (hwrites : WritesBody N (b.view N) ps op body) :
    (body.foldl ByteDisk.apply b.disk).packetFile =
      ((system N).step (b.view N) op).1.disk.packetFile := by
  obtain ⟨hdisk, -⟩ := h.writesInfoLast op
  obtain ⟨hview, -⟩ := ByteDisk.view_foldl N le_rfl _ hinfo (h.fits_of_written op)
  have hpackets := congrArg Disk.packetFile (hview.trans hdisk.symm)
  rw [hwrites.effects, List.foldl_append] at hpackets
  exact hpackets

/-- A call that changes nothing can stop anywhere. -/
theorem quiet_recovers (h : Represents N o (b.view N) ps) (hinfo : b.disk.HasInfo handlerSize)
    (hquiet : Quiet N (b.view N) op) (written : ℕ) :
    let fresh := initialByteStore N (b.diskAtByte N op written)
    fresh.disk.HasInfo handlerSize ∧ fresh.view N = b.view N := by
  intro fresh
  have hdisk : b.diskAtByte N op written = b.disk := by
    rw [ByteStore.diskAtByte, hquiet.effects]
    rfl
  have hold := ByteDisk.infoFile_eq_image hinfo h.infoFile
  obtain ⟨hkeep, hview⟩ := view_initialByteStore N hold (FileHandler.length_image _)
  rw [FileHandler.ofImage_image h.fits] at hview
  have hsame : (⟨(b.view N).handler, ⟨b.disk.packetFile, some (b.view N).handler⟩⟩ : Store) =
      b.view N := by
    rw [← h.infoFile]
    rfl
  refine ⟨?_, ?_⟩
  · show (initialByteStore N (b.diskAtByte N op written)).disk.HasInfo handlerSize
    rw [hdisk, hkeep]
    exact hinfo
  · show (initialByteStore N (b.diskAtByte N op written)).view N = b.view N
    rw [hdisk, hview, hsame]

/-- A harmless stop leaves a fresh process in a regular state with the old packets or the new
ones. -/
theorem recovers_of_stopHarmless (h : Represents N o (b.view N) ps)
    (hinfo : b.disk.HasInfo handlerSize) {written : ℕ}
    (hharmless : StopHarmless N b (.stopped op written)) :
    RecoversRegular N b (.stopped op written) ∧
      (initialByteStore N (b.diskAtByte N op written)).disk.HasInfo handlerSize := by
  rcases h.quiet_or_writesBody op with hquiet | ⟨body, hwrites⟩
  · obtain ⟨hkeep, hview⟩ := h.quiet_recovers hinfo hquiet written
    refine ⟨⟨o, ps, ?_, Or.inl h.livePackets_eq.symm⟩, hkeep⟩
    rw [hview]
    exact h
  · obtain ⟨hkeep, hview⟩ := h.fresh_eq hinfo hwrites written
    refine ⟨?_, hkeep⟩
    rcases hharmless with ⟨herased, himage⟩ | ⟨hwritten, himage⟩
    · -- the old handler and the old packets
      refine ⟨o, ps, ?_, Or.inl h.livePackets_eq.symm⟩
      rw [hview, (tornHandler_eq_old_iff h.fits).2 himage]
      have hslots := (hwrites.slots b.disk written rfl).2 herased
      exact
        { h with
          packets := (h.segment_iff (b.disk.applyBytes written body)).2 hslots
          fileExists := fun hne => isSome_packetFile_applyBytes body written (h.fileExists hne)
          infoFile := rfl }
    · -- everything of the complete call
      obtain ⟨o', k, hnew⟩ := h.step op
      refine ⟨o', _, ?_, Or.inr hnew.livePackets_eq.symm⟩
      have hpackets : (b.disk.applyBytes written body).packetFile =
          ((system N).step (b.view N) op).1.disk.packetFile := by
        rw [applyBytes_of_le body b.disk (hwrites.bytes.trans_le hwritten)]
        exact h.packetFile_complete hinfo hwrites
      rw [hview, (tornHandler_eq_new_iff hnew.fits).2 himage, hpackets, ← hnew.infoFile]
      exact hnew

/-- A fresh process in a regular state with the old packets has the old handler and the old slots,
one with the new packets has the new handler. -/
theorem stopHarmless_of_recovers (h : Represents N o (b.view N) ps)
    (hinfo : b.disk.HasInfo handlerSize) {written : ℕ}
    (hrecovers : RecoversRegular N b (.stopped op written)) :
    StopHarmless N b (.stopped op written) := by
  rcases h.quiet_or_writesBody op with hquiet | ⟨body, hwrites⟩
  · exact Or.inl ⟨hquiet.harmless written, by rw [hquiet.store]⟩
  · obtain ⟨-, hview⟩ := h.fresh_eq hinfo hwrites written
    obtain ⟨o', ps', hfresh, hps⟩ := hrecovers
    rw [hview] at hfresh
    obtain ⟨o₂, k, hnew⟩ := h.step op
    have hnumber := hfresh.tmNumber
    rcases hwrites.counted with ⟨hsame, hall⟩ | hcount
    · exact Or.inl ⟨hall written, by rw [hsame]⟩
    · rcases hps with hps | hps
      · -- the stop came before the end of `tm_number`, hence the oldest position is the old one
        rw [h.livePackets_eq] at hps
        subst hps
        have hbefore : written - elementCodec.size * elementWrites (b.view N) op < 28 := by
          by_contra hafter
          refine hcount ?_
          rw [← tornHandler_tmNumber_new hnew.fits (not_lt.1 hafter), h.tmNumber]
          exact hnumber
        obtain rfl := h.oldest_eq hfresh (tornHandler_oldestTmPosition h.fits hbefore.le)
        refine Or.inl ⟨?_, (tornHandler_eq_old_iff h.fits).1 (h.handler_eq hfresh)⟩
        refine (hwrites.slots b.disk written rfl).1 ?_
        exact (h.segment_iff (b.disk.applyBytes written body)).1 hfresh.packets
      · -- the stop came after the start of `tm_number`, hence `write_to` is the new one
        rw [hnew.livePackets_eq] at hps
        subst hps
        have hafter : 24 < written - elementCodec.size * elementWrites (b.view N) op := by
          by_contra hbefore
          refine hcount ?_
          rw [← tornHandler_tmNumber_old h.fits (not_lt.1 hbefore), hnew.tmNumber]
          exact hnumber.symm
        obtain rfl := hnew.oldest_eq_of_writeTo hfresh
          (tornHandler_writeTo hnew.fits hafter.le)
        exact Or.inr ⟨by omega, (tornHandler_eq_new_iff hnew.fits).1 (hnew.handler_eq hfresh)⟩

end Represents

/-- For every capacity that `tm_number` can count, in every run of complete calls and calls that
stop after any number of bytes, from an `init` without info file: after every stop the fresh process
is in a regular state with the packets from before the call or from after it, if and only if every
stop is harmless. -/
theorem torn_recovery_iff (N : ℕ+) (hN : (N : ℕ) < 2 ^ 32) (d : ByteDisk)
    (hd : d.infoFile = none) (ops : List TornOp) :
    (tornSystem N).Guarded (RecoversRegular N) (initialByteStore N d) ops ↔
      (tornSystem N).Guarded (StopHarmless N) (initialByteStore N d) ops := by
  apply (tornSystem N).guarded_iff (H := fun _ => True)
    (P := fun b => b.disk.HasInfo handlerSize ∧ ∃ o ps, Represents N o (b.view N) ps)
  · rintro b op ⟨hinfo, o, ps, h⟩
    cases op with
    | complete op => exact Iff.rfl
    | stopped op written =>
      exact ⟨h.stopHarmless_of_recovers hinfo,
        fun hharmless => (h.recovers_of_stopHarmless hinfo hharmless).1⟩
  · rintro b op ⟨hinfo, o, ps, h⟩ - hharmless
    cases op with
    | complete op =>
      have hrel : (byteSimulation N handlerSize le_rfl).rel b (b.view N) :=
        ⟨rfl, hinfo, o, ps, h⟩
      obtain ⟨hview, hinfo', o', ps', h'⟩ :=
        (byteSimulation N handlerSize le_rfl).rel_step b (b.view N) op hrel trivial
      refine ⟨hinfo', o', ps', ?_⟩
      show Represents N o' (((byteSystem N).step b op).1.view N) ps'
      rw [hview]
      exact h'
    | stopped op written =>
      obtain ⟨⟨o', ps', hfresh, -⟩, hinfo'⟩ := h.recovers_of_stopHarmless hinfo hharmless
      exact ⟨hinfo', o', ps', hfresh⟩
  · obtain ⟨hview, hinfo⟩ := initialByteStore_view hN hd
    refine ⟨hinfo, 0, [], ?_⟩
    rw [hview]
    exact represents_initialStore N hN rfl
  · exact fun _ _ => trivial

/-- A second store that stops nine bytes into its packet, a restart and a delete that stops before
its last byte, on an `info.bin` that has all the bytes that differ. -/
theorem torn_recovery_iff_harmless :
    (tornSystem maxTmNumber).Guarded (RecoversRegular maxTmNumber)
      (initialByteStore maxTmNumber ⟨none, none⟩)
      [.complete (storeAt 3), .stopped (storeAt 5) 9, .complete .restart,
        .stopped (.deleteUpToTime 3) 61] :=
  (torn_recovery_iff maxTmNumber (by decide) ⟨none, none⟩ rfl _).2
    ⟨trivial, Or.inl ⟨trivial, by decide +kernel⟩, trivial,
      Or.inr ⟨by decide +kernel, by decide +kernel⟩, trivial⟩

/-- Every run of complete calls ends in a regular state with a complete info file. -/
theorem byteSystem_represents (N : ℕ+) (hN : (N : ℕ) < 2 ^ 32) {d : ByteDisk}
    (hd : d.infoFile = none) (ops : List Op) :
    ((byteSystem N).after (initialByteStore N d) ops).disk.HasInfo handlerSize ∧
      ∃ o ps, Represents N o (((byteSystem N).after (initialByteStore N d) ops).view N) ps := by
  obtain ⟨hview, hinfo⟩ := initialByteStore_view hN hd
  obtain ⟨-, hafter, hinfo'⟩ :=
    byteSystem_run le_rfl hview (represents_initialStore N hN rfl) hinfo ops
  obtain ⟨o, -, ps, h, -⟩ := represents_after N hN (d := ⟨d.packetFile, none⟩) rfl ops
  refine ⟨hinfo', o, ps, ?_⟩
  rw [hafter]
  exact h

/-- After every run of complete calls, in a ring of more than one slot: a store that would be
accepted can stop where a fresh process is in no regular state, neither with the old packets nor
with the new ones. `write_to` is then the new one and `tm_number` the old one. -/
theorem store_stop_unrecoverable (N : ℕ+) (hone : 1 < (N : ℕ)) (hN : (N : ℕ) < 2 ^ 32)
    (d : ByteDisk) (hd : d.infoFile = none) (ops : List Op) (dataPtr : ℕ → UInt8)
    (dataSize : UInt32) (storageTime : ℕ → UInt8)
    (hcode : (storeCallback N
      ((((byteSystem N).after (initialByteStore N d) ops).view N).begin allGranted) dataPtr dataSize
      storageTime).1 = 0) :
    ¬ RecoversRegular N ((byteSystem N).after (initialByteStore N d) ops)
      (.stopped (.storeCallback dataPtr dataSize storageTime) (elementCodec.size + 24)) := by
  obtain ⟨hinfo, o, ps, h⟩ := byteSystem_represents N hN hd ops
  intro hrecovers
  have hacc : (((byteSystem N).after (initialByteStore N d) ops).view N).handler.Accepts N
      (elementToWrite dataPtr dataSize storageTime) := by
    by_contra hno
    obtain ⟨code, hne, hcall⟩ := storeCallback_refused N dataPtr dataSize storageTime
      ((((byteSystem N).after (initialByteStore N d) ops).view N).begin allGranted) hno
    rw [hcall] at hcode
    exact hne hcode
  have hstored := (h.storeCallback_granted dataPtr dataSize storageTime hacc).2.2
  rcases h.stopHarmless_of_recovers hinfo hrecovers with ⟨-, himage⟩ | ⟨-, himage⟩
  · -- the bytes written include the new `write_to`
    have hold := (tornHandler_eq_old_iff h.fits).2 himage
    have hwriteTo := tornHandler_writeTo (k := 24) hstored.fits le_rfl
      |>.symm.trans (congrArg FileHandler.writeTo hold)
    rw [hstored.writeTo, h.writeTo, Ring.addr_inj, List.length_append, List.length_singleton]
      at hwriteTo
    have hmod : ps.length ≡ ps.length + 1 [MOD N] := Nat.ModEq.add_left_cancel' o hwriteTo.symm
    have hdvd := (Nat.modEq_iff_dvd' (Nat.le_succ _)).1 hmod
    rw [Nat.succ_sub le_rfl, Nat.sub_self, Nat.dvd_one] at hdvd
    exact absurd hdvd hone.ne'
  · -- those that are missing include the new `tm_number`
    have hnew := (tornHandler_eq_new_iff hstored.fits).2 himage
    have hnumber := tornHandler_tmNumber_old (k := 24) h.fits le_rfl
      |>.symm.trans (congrArg FileHandler.tmNumber hnew)
    rw [hstored.tmNumber, h.tmNumber, List.length_append, List.length_singleton] at hnumber
    exact absurd hnumber.symm (Nat.succ_ne_self _)

/-- The first store of a new pair of files: `write_to` says 1 and `tm_number` says 0. -/
theorem store_stop_unrecoverable_first :
    ¬ RecoversRegular maxTmNumber
      ((byteSystem maxTmNumber).after (initialByteStore maxTmNumber ⟨none, none⟩) [])
      (.stopped (storeAt 3) (elementCodec.size + 24)) :=
  store_stop_unrecoverable maxTmNumber (by decide) (by decide) ⟨none, none⟩ rfl [] _ _ _
    (by decide +kernel)

end CComplete.PacketStoreSdcard
