import CComplete.PacketStoreSdcard.Outcome
import CComplete.PacketStoreSdcard.Search

/-!
# The representation invariant of the packet store

Every call keeps the store in the relation `Represents` to a list of packets: an accepted packet is
appended, a delete drops a prefix, a read or a restart changes nothing. On every run from an `init`
without info file the store therefore holds the last `tm_number` accepted packets, and a read of
everything delivers exactly them (`store_run_consistent`).
-/

set_option autoImplicit false

namespace CComplete.PacketStoreSdcard

open CComplete.Library

/-! ## What the runs preserve -/

/-- The packet that a step of a run accepted. -/
def acceptedPacket : Op × Reply → Option Element
  | (.storeCallback dataPtr dataSize storageTime, .code code) =>
      if code = 0 then some (elementToWrite dataPtr dataSize storageTime) else none
  | _ => none

/-- The position `a` is the start of an element between `head` and `tail`. -/
def FileHandler.OnSlot (h : FileHandler) (a : ℤ) : Prop :=
  sizeofElement ∣ a ∧ h.head ≤ a ∧ a ≤ h.tail

/-- The handler, the packet file and the info file agree on the packets `live`. -/
structure Consistent (N : ℕ+) (s : Store) (live : List Element) : Prop where
  head : s.handler.head = 0
  tail : s.handler.tail = (((N : ℕ) : ℤ) - 1) * sizeofElement
  writeTo_onSlot : s.handler.OnSlot s.handler.writeTo
  oldest_onSlot : s.handler.OnSlot s.handler.oldestTmPosition
  tmNumber_le : s.handler.tmNumber ≤ N
  writeTo : s.handler.writeTo = s.handler.position s.handler.tmNumber
  slots : liveSlots s = live.map some
  ordered : live.Pairwise fun a b => a.coarseTime ≤ b.coarseTime
  oldestTime : ∀ p, live.head? = some p → s.handler.oldestTime = p.coarseTime
  newestTime : ∀ p, live.getLast? = some p → s.handler.newestTime = p.coarseTime
  infoFile : s.disk.infoFile = some s.handler
  fileExists : 0 < s.handler.tmNumber → s.disk.packetFile.isSome = true

/-! ## Changes of the disk -/

/-- A change of the disk that leaves the element `x` at position `a`: it writes elsewhere, or `x`
again. -/
def DiskEffect.Keeps (a : ℤ) (x : Element) : DiskEffect → Prop
  | .truncatePacketFile => False
  | .writeElement p y =>
      (p = a ∧ y = x) ∨ (0 ≤ p ∧ (a + sizeofElement ≤ p ∨ p + sizeofElement ≤ a))
  | .writeHandler _ => True

theorem holds_foldl_apply {a : ℤ} {x : Element} (ha : 0 ≤ a) (es : List DiskEffect) :
    ∀ d : Disk, elementCodec.Holds d.packetBytes a x → (∀ e ∈ es, e.Keeps a x) →
      elementCodec.Holds (es.foldl Disk.apply d).packetBytes a x := by
  induction es with
  | nil => exact fun d hold _ => hold
  | cons e es ih =>
    intro d hold hkeeps
    refine ih (d.apply e) ?_ fun e' he' => hkeeps e' (List.mem_cons_of_mem _ he')
    have he := hkeeps e List.mem_cons_self
    cases e with
    | truncatePacketFile => exact he.elim
    | writeElement p y =>
      rcases he with ⟨rfl, rfl⟩ | ⟨hp, hdisjoint⟩
      · exact Codec.holds_writeAt d.packetBytes p y
      · exact hold.writeAt_of_disjoint ha hp hdisjoint y
    | writeHandler h => exact hold

/-- A store whose cursors are at the head and whose times are 0 is empty. -/
theorem represents_nil {N : ℕ+} (hN : (N : ℕ) < 2 ^ 32) {h : FileHandler} {d : Disk}
    (hhead : h.head = 0)
    (htail : h.tail = (slots N).last) (holdest : h.oldestTmPosition = 0) (hwriteTo : h.writeTo = 0)
    (htmNumber : h.tmNumber = 0) (holdestTime : h.oldestTime = 0) (hnewestTime : h.newestTime = 0)
    (hinfo : d.infoFile = some h) : Represents N 0 ⟨h, d⟩ [] where
  capacity := hN
  head := hhead
  tail := htail
  oldest_lt := N.pos
  oldestTmPosition := holdest.trans (slots N).addr_zero.symm
  writeTo := hwriteTo.trans (slots N).addr_zero.symm
  tmNumber := htmNumber
  bounded := Nat.zero_le _
  packets := Ring.segment_nil
  fileExists := fun hnil => absurd rfl hnil
  ordered := List.Pairwise.nil
  oldestTime := holdestTime
  newestTime := hnewestTime
  oldest_of_empty := fun _ => rfl
  infoFile := hinfo

namespace Represents

variable {N : ℕ+} {o : ℕ} {s : Store} {ps : List Element}

/-! ## Observations -/

theorem position_eq (h : Represents N o s ps) (i : ℕ) :
    s.handler.position i = (slots N).addr (o + i) := by
  induction i with
  | zero => exact h.oldestTmPosition
  | succ i ih =>
    rw [FileHandler.position, Function.iterate_succ_apply', ← FileHandler.position, ih,
      h.ascending, Nat.add_assoc]

/-- The position of a packet, by the way from the oldest one: before the wrap or past it. -/
theorem position_cases (h : Represents N o s ps) {i : ℕ} (hi : i < ps.length) :
    (o + i < N ∧ s.handler.position i = s.handler.oldestTmPosition + sizeofElement * (i : ℤ)) ∨
      ((N : ℕ) ≤ o + i ∧ s.handler.position i =
        s.handler.oldestTmPosition + sizeofElement * ((i : ℤ) - (N : ℕ))) := by
  rw [h.position_eq, h.oldestTmPosition]
  exact h.addr_cases (hi.trans_le h.bounded)

/-- A packet lies below the oldest one exactly when its slot is past the wrap. -/
theorem oldest_le_position_iff (h : Represents N o s ps) {i : ℕ} (hi : i < ps.length) :
    s.handler.oldestTmPosition ≤ s.handler.position i ↔ o + i < N := by
  have hbound := h.bounded
  obtain ⟨hno, hposition⟩ | ⟨hno, hposition⟩ := h.position_cases hi
  all_goals
    rw [hposition, sizeofElement]
    omega

/-- A position that is computed without a wrap is that of the packet if its slot is before it. -/
theorem unwrapped_eq_position_iff (h : Represents N o s ps) {i : ℕ} (hi : i < ps.length) :
    s.handler.oldestTmPosition + (i : ℤ) * sizeofElement = s.handler.position i ↔ o + i < N := by
  have hpos : 0 < (N : ℕ) := N.pos
  obtain ⟨hno, hposition⟩ | ⟨hno, hposition⟩ := h.position_cases hi
  all_goals
    rw [hposition, sizeofElement]
    omega

theorem liveSlots_eq (h : Represents N o s ps) : liveSlots s = ps.map some := by
  apply List.ext_getElem
  · simp [liveSlots, h.tmNumber]
  · intro i hi hi'
    rw [List.length_map] at hi'
    have hread := (h.packets i hi').read?_eq
    rw [← h.position_eq] at hread
    simpa [liveSlots] using hread

theorem livePackets_eq (h : Represents N o s ps) : livePackets s = ps := by
  rw [livePackets, h.liveSlots_eq, List.reduceOption, List.filterMap_map]
  exact List.filterMap_some

theorem infoFile_isSome (h : Represents N o s ps) : s.disk.infoFile.isSome = true := by
  rw [h.infoFile]
  rfl

/-- Where the packet file cannot be opened, it does not exist, so no packet is stored. -/
theorem eq_nil_of_closed (h : Represents N o s ps)
    (hclosed : (allGranted 0 && s.disk.packetFile.isSome) = false) : ps = [] := by
  by_contra hne
  rw [h.fileExists hne] at hclosed
  exact Bool.noConfusion hclosed

theorem ps_eq_nil_iff (h : Represents N o s ps) : ps = [] ↔ s.handler.tmNumber = 0 := by
  rw [h.tmNumber, List.length_eq_zero_iff]

theorem time_le_newestTime (h : Represents N o s ps) {a : Element} (ha : a ∈ ps) :
    a.time ≤ s.handler.newestTime.toNat := by
  have hne : ps ≠ [] := List.ne_nil_of_mem ha
  rw [h.newestTime, List.getLast?_eq_some_getLast hne]
  exact h.ordered.le_getLast hne ha

/-! ## Store -/

/-- The slot at `write_to` is none of the slots of the packets. -/
theorem position_disjoint (h : Represents N o s ps) (hroom : ps.length < N) {i : ℕ}
    (hi : i < ps.length) :
    s.handler.position i + sizeofElement ≤ s.handler.writeTo ∨
      s.handler.writeTo + sizeofElement ≤ s.handler.position i := by
  rw [h.position_eq, h.writeTo]
  exact (slots N).addr_add_disjoint o (Nat.ne_of_lt hi) (hi.trans hroom) hroom

theorem position_nonneg (h : Represents N o s ps) (i : ℕ) : 0 ≤ s.handler.position i := by
  rw [h.position_eq]
  exact (slots N).base_le_addr _

theorem writeTo_nonneg (h : Represents N o s ps) : 0 ≤ s.handler.writeTo := by
  rw [h.writeTo]
  exact (slots N).base_le_addr _

/-- A packet written at `write_to` leaves the others in the file. -/
theorem packets_written (h : Represents N o s ps) (hroom : ps.length < N) (e : Element) :
    (slots N).Segment
      (elementCodec.Holds (elementCodec.writeAt s.disk.packetBytes s.handler.writeTo e)) o ps := by
  refine h.packets.mono fun i hi a ha => ?_
  rw [← h.position_eq] at ha ⊢
  exact ha.writeAt_of_disjoint (h.position_nonneg i) h.writeTo_nonneg
    (h.position_disjoint hroom hi) e

/-- A stored packet is appended, if the file with its image also has the others. -/
theorem stored (h : Represents N o s ps) {e : Element} (hacc : s.handler.Accepts N e) {f : Bytes}
    (hf : (slots N).Segment
      (elementCodec.Holds (elementCodec.writeAt f s.handler.writeTo e)) o ps) :
    Represents N o
      ⟨s.handler.stored e,
        ⟨some (elementCodec.writeAt f s.handler.writeTo e), some (s.handler.stored e)⟩⟩
      (ps ++ [e]) := by
  have hroom : ps.length < N := by
    rw [← h.tmNumber]
    exact hacc.1
  -- admitting the packet moves neither the head nor the tail
  have hcursors : ∀ i, updateBrowserAscending (s.handler.admitting e) ((slots N).addr i) =
      (slots N).addr (i + 1) := by
    intro i
    rw [← h.ascending i, FileHandler.admitting]
    split <;> rfl
  have hwritten : (slots N).Segment
      (elementCodec.Holds (elementCodec.writeAt f s.handler.writeTo e)) o (ps ++ [e]) := by
    refine hf.snoc ?_
    rw [← h.writeTo]
    exact Codec.holds_writeAt f _ e
  constructor
  · exact h.capacity
  · rw [← h.head, FileHandler.stored, FileHandler.admitting]
    split <;> rfl
  · rw [← h.tail, FileHandler.stored, FileHandler.admitting]
    split <;> rfl
  · exact h.oldest_lt
  · -- the oldest position is set to `write_to` if the store was empty
    rw [FileHandler.stored, FileHandler.admitting]
    split
    · next hempty =>
      have hps := h.ps_eq_nil_iff.2 hempty
      rw [hps] at h
      exact h.writeTo
    · exact h.oldestTmPosition
  · -- `write_to` moves on by one slot
    have hnext := hcursors (o + ps.length)
    rw [← h.writeTo] at hnext
    rw [List.length_append, List.length_singleton, ← Nat.add_assoc]
    show updateBrowserAscending _ (s.handler.admitting e).writeTo = _
    rw [admitting_writeTo, hnext]
  · rw [stored_tmNumber hacc.1 h.capacity, List.length_append, ← h.tmNumber]
    rfl
  · rw [List.length_append]
    exact hroom
  · exact hwritten
  · exact fun _ => rfl
  · -- an accepted packet is not older than the newest one
    refine h.ordered.snoc fun a ha => ?_
    rcases hacc.2 with hempty | hnewer
    · rw [h.ps_eq_nil_iff.2 hempty] at ha
      exact absurd ha List.not_mem_nil
    · exact (h.time_le_newestTime ha).trans (UInt32.le_iff_toNat_le.1 hnewer)
  · -- the oldest time is that of the new packet if it is the first
    rw [FileHandler.stored, FileHandler.admitting]
    cases ps with
    | nil => rw [if_pos (h.ps_eq_nil_iff.1 rfl)]; rfl
    | cons p ps =>
      rw [if_neg fun h0 => List.cons_ne_nil p ps (h.ps_eq_nil_iff.2 h0)]
      exact h.oldestTime
  · rw [List.getLast?_append]
    rfl
  · exact fun hnil => absurd hnil (by simp)
  · rfl

/-! ## Delete -/

/-- Erasing the `stop` oldest packets keeps the others. -/
theorem erased (h : Represents N o s ps) {stop : ℕ} (hstop : stop ≤ ps.length) :
    (slots N).Segment
      (elementCodec.Holds ((erasures s.handler.position stop).foldl Disk.apply s.disk).packetBytes)
      (o + stop) (ps.drop stop) := by
  refine (h.packets.drop stop).mono fun j hj a ha => ?_
  refine holds_foldl_apply ((slots N).base_le_addr _) _ s.disk ha fun e he => ?_
  obtain ⟨i, hi, rfl⟩ := List.mem_map.1 he
  have hi' := List.mem_range.1 hi
  have hbound := h.bounded
  rw [List.length_drop] at hj
  -- a kept slot and an erased one are less than one turn apart
  have hkept : stop + j < (N : ℕ) := by omega
  have herased : i < (N : ℕ) := by omega
  rw [DiskEffect.Keeps, h.position_eq, Nat.add_assoc]
  exact Or.inr ⟨(slots N).base_le_addr _,
    (slots N).addr_add_disjoint o (by omega) hkept herased⟩

/-- A partial delete drops the erased packets and finds the time of the next one in the file. -/
theorem trimmed (h : Represents N o s ps) {stop : ℕ} (hstop : stop < ps.length) :
    let d := (erasures s.handler.position stop).foldl Disk.apply s.disk
    let h' := s.handler.trimmed stop
      (wordCodec.readAt d.packetBytes (s.handler.position stop) s.handler.oldestTime)
    Represents N ((o + stop) % N) ⟨h', { d with infoFile := some h' }⟩ (ps.drop stop) := by
  intro d h'
  have hfile := h.erased hstop.le
  have hne : ps ≠ [] := List.ne_nil_of_length_pos (by omega)
  have hhead : ps.drop stop = ps[stop] :: ps.drop (stop + 1) := List.drop_eq_getElem_cons hstop
  constructor
  · exact h.capacity
  · exact h.head
  · exact h.tail
  · exact Nat.mod_lt _ N.pos
  · exact (h.position_eq stop).trans ((slots N).addr_mod (o + stop)).symm
  · -- `write_to` stays where it is
    have hslot : o + stop + (ps.drop stop).length = o + ps.length := by
      rw [List.length_drop]
      omega
    have hmod := (slots N).addr_mod_add (o + stop) (ps.drop stop).length
    rw [hslot, ← h.writeTo] at hmod
    exact hmod.symm
  · have hlive : stop ≤ s.handler.tmNumber := h.tmNumber ▸ hstop.le
    rw [trimmed_tmNumber h.tmNumber_lt hlive, h.tmNumber, List.length_drop]
  · rw [List.length_drop]
    exact (Nat.sub_le _ _).trans h.bounded
  · exact Ring.segment_mod_iff.2 hfile
  · exact fun _ => isSome_packetFile_foldl _ _ (h.fileExists hne)
  · exact h.ordered.drop stop
  · -- the oldest time is read back from the first slot that was kept
    have hnext := hfile 0 (by rw [List.length_drop]; omega)
    rw [Nat.add_zero, ← h.position_eq, List.getElem_drop] at hnext
    rw [hhead]
    exact readAt_coarseTime hnext _
  · rw [List.getLast?_drop, if_neg (by omega)]
    exact h.newestTime
  · exact fun hnil => absurd hnil (by rw [hhead]; exact List.cons_ne_nil _ _)
  · rfl

/-- A delete of everything leaves an empty store. -/
theorem cleared (h : Represents N o s ps) {d : Disk} (hd : d.infoFile = some s.handler.cleared) :
    Represents N 0 ⟨s.handler.cleared, d⟩ [] :=
  represents_nil h.capacity h.head h.tail rfl rfl rfl rfl rfl hd

theorem upToCount_lt_length (h : Represents N o s ps) {time : UInt32}
    (hT : time < s.handler.newestTime) : upToCount Element.time time.toNat ps < ps.length := by
  have hne : ps ≠ [] := by
    rintro rfl
    rw [h.newestTime] at hT
    exact absurd hT (UInt32.not_lt_zero)
  have hlast : ps.length - 1 < ps.length := Nat.sub_lt (List.length_pos_of_ne_nil hne) one_pos
  have hnewest : s.handler.newestTime = ps[ps.length - 1].coarseTime := by
    rw [h.newestTime, List.getLast?_eq_some_getLast hne, List.getLast_eq_getElem]
    rfl
  -- the newest packet is above the time
  have hnot : ¬ ps.length - 1 < upToCount Element.time time.toNat ps := by
    rw [h.ordered.lt_upToCount_iff hlast, not_le]
    exact UInt32.lt_iff_toNat_lt.1 (hnewest ▸ hT)
  omega

/-- The three ways a call of `delete_up_to_time` can end: everything erased, the packets up to the
time erased, or nothing erased and a code that is not 0. -/
theorem deleteUpToTime_cases (h : Represents N o s ps) (granted : ℕ → Bool) (time : UInt32) :
    let call := deleteUpToTime (s.begin granted) time
    (s.handler.newestTime ≤ time ∧ (granted 0 && s.disk.packetFile.isSome) = true ∧
        call = (0, (s.begin granted).finish s.handler.cleared 2
          (erasures (fun i => s.handler.oldestTmPosition + sizeofElement * (i : ℤ))
              s.handler.tmNumber ++
            infoUpdate (granted 1) s.handler.cleared))) ∨
      (time < s.handler.newestTime ∧ (granted 0 && s.disk.packetFile.isSome) = true ∧
        granted 1 = true ∧ (∃ p ∈ ps, p.coarseTime ≤ time) ∧
        ∃ stop, stop = getNumberOfElementsBetweenTwoPosition s.handler s.handler.oldestTmPosition
            ((slots N).addr (o + (upToCount Element.time time.toNat ps - 1))) ∧
          stop < ps.length ∧
          let h' := s.handler.trimmed stop
            (wordCodec.readAt
              ((erasures s.handler.position stop).foldl Disk.apply s.disk).packetBytes
              (s.handler.position stop) s.handler.oldestTime)
          call = (0, (s.begin granted).finish h' 3
            (erasures s.handler.position stop ++ infoUpdate (granted 2) h'))) ∨
      (¬ ((granted 0 && s.disk.packetFile.isSome) = true ∧
          (time < s.handler.newestTime →
            granted 1 = true ∧ ∃ p ∈ ps, p.coarseTime ≤ time)) ∧
        ∃ code n, code ≠ 0 ∧ call = (code, (s.begin granted).finish s.handler n [])) := by
  intro call
  have hpos : 0 < upToCount Element.time time.toNat ps ↔ ∃ p ∈ ps, p.coarseTime ≤ time := by
    simp only [upToCount_pos_iff, UInt32.le_iff_toNat_le, Element.time]
  by_cases hT : s.handler.newestTime ≤ time
  · have hcall : call = deleteAll (s.begin granted) := if_pos hT
    cases hopen : (granted 0 && s.disk.packetFile.isSome) with
    | true =>
      have hall := deleteAll_opened (s.begin granted) h.infoFile_isSome hopen
      exact Or.inl ⟨hT, rfl, hcall.trans hall⟩
    | false =>
      have hall := deleteAll_closed (s.begin granted) hopen
      exact Or.inr (Or.inr ⟨fun hno => absurd hno.1 (by decide), 1, 1, by decide, hcall.trans hall⟩)
  · have hlt : time < s.handler.newestTime := UInt32.not_le.1 hT
    have hcount := h.upToCount_lt_length hlt
    cases hopen : (granted 0 && s.disk.packetFile.isSome) with
    | false =>
      -- the search itself cannot open the packet file
      have hsearch := searchForEndTime_closed (s.begin granted) time hopen
      exact Or.inr (Or.inr ⟨fun hno => absurd hno.1 (by decide), 2, 1, by decide,
        deleteUpToTime_error hT hsearch⟩)
    | true =>
      have hsearch := h.searchForEndTime_eq (w := s.begin granted) hopen time
      by_cases hfound : 0 < upToCount Element.time time.toNat ps
      · rw [if_pos hfound] at hsearch
        let w := (s.begin granted).finish s.handler 1 []
        have hcall : call = deleteUpToPosition w _ := deleteUpToTime_ok hT hsearch
        cases hreopen : granted 1 with
        | true =>
          have hpart := deleteUpToPosition_opened w
            ((slots N).addr (o + (upToCount Element.time time.toNat ps - 1))) h.infoFile_isSome
            (by rw [Bool.and_eq_true] at hopen ⊢; exact ⟨hreopen, hopen.2⟩)
          refine Or.inr (Or.inl ⟨hlt, rfl, rfl, hpos.1 hfound, _, rfl, ?_, ?_⟩)
          · have := h.bounded
            have := h.count_le
              (show upToCount Element.time time.toNat ps - 1 < (N : ℕ) by omega)
            omega
          · have hworld := finish_finish (s.begin granted) s.handler
            exact hcall.trans (hpart.trans (congrArg (Prod.mk 0) (hworld _ 1 2 [] _)))
        | false =>
          -- found, but the file does not open a second time
          have hpart := deleteUpToPosition_closed w
            ((slots N).addr (o + (upToCount Element.time time.toNat ps - 1)))
            (by rw [Bool.and_eq_false_iff]; exact Or.inl hreopen)
          refine Or.inr (Or.inr ⟨fun hno => absurd (hno.2 hlt).1 (by decide), 1, 2, by decide, ?_⟩)
          exact hcall.trans (hpart.trans (by simp [w]))
      · -- no packet is old enough
        rw [if_neg hfound] at hsearch
        exact Or.inr (Or.inr ⟨fun hno => hfound (hpos.2 (hno.2 hlt).2), 2, 1, by decide,
          deleteUpToTime_error hT hsearch⟩)

/-! ## Steps and runs -/

theorem onSlot_addr (h : Represents N o s ps) (i : ℕ) :
    s.handler.OnSlot ((slots N).addr i) := by
  refine ⟨⟨((i % (slots N).slots : ℕ) : ℤ), zero_add _⟩, ?_, ?_⟩
  · rw [h.head]
    exact (slots N).base_le_addr i
  · rw [h.tail]
    exact (slots N).addr_le_last i

theorem consistent (h : Represents N o s ps) : Consistent N s ps where
  head := h.head
  tail := by
    rw [h.tail, Ring.last, mul_comm]
    exact zero_add _
  writeTo_onSlot := h.writeTo ▸ h.onSlot_addr _
  oldest_onSlot := h.oldestTmPosition ▸ h.onSlot_addr _
  tmNumber_le := h.tmNumber ▸ h.bounded
  writeTo := by rw [h.position_eq, h.tmNumber, h.writeTo]
  slots := h.liveSlots_eq
  ordered := h.ordered.imp UInt32.le_iff_toNat_le.2
  oldestTime := by
    intro p hp
    rw [h.oldestTime, hp]
    rfl
  newestTime := by
    intro p hp
    rw [h.newestTime, hp]
    rfl
  infoFile := h.infoFile
  fileExists := by
    intro hpos
    rw [h.tmNumber] at hpos
    exact h.fileExists (List.ne_nil_of_length_pos hpos)

/-- With every `fopen` granted, an accepted packet is stored. -/
theorem storeCallback_granted (h : Represents N o s ps) (dataPtr : ℕ → UInt8) (dataSize : UInt32)
    (storageTime : ℕ → UInt8)
    (hacc : s.handler.Accepts N (elementToWrite dataPtr dataSize storageTime)) :
    let e := elementToWrite dataPtr dataSize storageTime
    let call := storeCallback N (s.begin allGranted) dataPtr dataSize storageTime
    call.1 = 0 ∧ call.2.handler = s.handler.stored e ∧
      Represents N o call.2.toStore (ps ++ [e]) := by
  intro e call
  rcases storeCallback_cases N dataPtr dataSize storageTime s allGranted h.infoFile_isSome with
    ⟨hno, -⟩ | ⟨-, -, hcall⟩ | ⟨-, hclosed, -, hcall⟩ | ⟨-, -, hno, -⟩
  · exact absurd hacc hno
  · have hroom : ps.length < N := by
      rw [← h.tmNumber]
      exact hacc.1
    rw [show call = _ from hcall]
    exact ⟨rfl, rfl, h.stored hacc (h.packets_written hroom e)⟩
  · -- the packet file is only created when it does not exist
    obtain rfl := h.eq_nil_of_closed hclosed
    rw [show call = _ from hcall]
    exact ⟨rfl, rfl, h.stored hacc Ring.segment_nil⟩
  · exact Bool.noConfusion hno

/-- A step appends the packet it accepted and drops a prefix. -/
theorem step (h : Represents N o s ps) (op : Op) :
    ∃ o' k, Represents N o' ((system N).step s op).1
      ((ps ++ (acceptedPacket (op, ((system N).step s op).2)).toList).drop k) := by
  cases op with
  | storeCallback dataPtr dataSize storageTime =>
    have hstep : (system N).step s (.storeCallback dataPtr dataSize storageTime) =
        ((storeCallback N (s.begin allGranted) dataPtr dataSize storageTime).2.toStore,
          .code (storeCallback N (s.begin allGranted) dataPtr dataSize storageTime).1) := rfl
    refine ⟨o, 0, ?_⟩
    rw [List.drop_zero, hstep, acceptedPacket]
    by_cases hacc : s.handler.Accepts N (elementToWrite dataPtr dataSize storageTime)
    · obtain ⟨hcode, -, hstored⟩ := h.storeCallback_granted dataPtr dataSize storageTime hacc
      rw [if_pos hcode]
      exact hstored
    · obtain ⟨code, hcode, hcall⟩ :=
        storeCallback_refused N dataPtr dataSize storageTime (s.begin allGranted) hacc
      rw [hcall, if_neg hcode, Option.toList_none, List.append_nil]
      exact h
  | readElementsBetweenTwoDates elements maxElementToRead readNumber startTime endTime =>
    refine ⟨o, 0, ?_⟩
    have hkeep : ((system N).step s (.readElementsBetweenTwoDates elements maxElementToRead
        readNumber startTime endTime)).1 = s := readElements_toStore _ _ _ _ _ _
    rw [hkeep]
    simpa [acceptedPacket] using h
  | deleteUpToTime time =>
    have hstep : (system N).step s (.deleteUpToTime time) =
        ((deleteUpToTime (s.begin allGranted) time).2.toStore,
          .code (deleteUpToTime (s.begin allGranted) time).1) := rfl
    have hnone : ∀ reply, acceptedPacket (.deleteUpToTime time, reply) = none := fun _ => rfl
    rw [hstep, hnone, Option.toList_none, List.append_nil]
    rcases h.deleteUpToTime_cases allGranted time with
      ⟨-, -, hcall⟩ | ⟨-, -, -, -, stop, -, hstop, hcall⟩ | ⟨-, code, n, -, hcall⟩
    -- everything erased, the oldest `stop` packets erased, or nothing
    · refine ⟨0, ps.length, ?_⟩
      rw [hcall, List.drop_length]
      refine h.cleared ?_
      rw [List.foldl_append]
      rfl
    · refine ⟨(o + stop) % N, stop, ?_⟩
      rw [hcall]
      rw [finish_toStore, List.foldl_append]
      exact h.trimmed hstop
    · refine ⟨o, 0, ?_⟩
      rw [hcall]
      exact h
  | restart =>
    refine ⟨o, 0, ?_⟩
    have hkeep : ((system N).step s .restart).1 = s := (init_of_image N s.disk h.infoFile rfl).2.1
    rw [hkeep]
    simpa [acceptedPacket] using h

/-- A read of everything delivers what the file holds in the slots of the packets. -/
theorem read_dump (h : Represents N o s ps) {d : Disk} {xs : List Element}
    (hlen : xs.length = ps.length)
    (hd : (slots N).Segment (elementCodec.Holds d.packetBytes) o xs) {granted : ℕ → Bool}
    (hopen : (granted 0 && d.packetFile.isSome) = true) (elements : ℕ → Element)
    {maxElementToRead : ℕ} (readNumber : ℕ) {startTime endTime : UInt32}
    (hstart : startTime ≤ s.handler.oldestTime) (hend : s.handler.newestTime ≤ endTime)
    (hmax : s.handler.tmNumber ≤ maxElementToRead) :
    (readElementsBetweenTwoDates (Store.begin ⟨s.handler, d⟩ granted) elements maxElementToRead
      readNumber startTime endTime).1 = ⟨0, xs.length, copied elements 0 xs⟩ := by
  have hcopy := h.copyLoop_eq hd xs.length 0 0 elements (Nat.zero_add _).le
  rw [Nat.add_zero, ← h.oldestTmPosition, List.drop_zero, List.take_length] at hcopy
  rw [← hcopy, hlen, ← h.tmNumber]
  have hread := readElements_dump (w := Store.begin ⟨s.handler, d⟩ granted) elements
    maxElementToRead readNumber hstart hend hmax
  exact hread.trans (if_pos hopen)

/-- A read of everything delivers the packets. -/
theorem read_all (h : Represents N o s ps) {granted : ℕ → Bool}
    (hopen : (granted 0 && s.disk.packetFile.isSome) = true) (elements : ℕ → Element)
    {maxElementToRead : ℕ} (readNumber : ℕ) {startTime endTime : UInt32}
    (hstart : startTime ≤ s.handler.oldestTime) (hend : s.handler.newestTime ≤ endTime)
    (hmax : s.handler.tmNumber ≤ maxElementToRead) :
    (readElementsBetweenTwoDates (s.begin granted) elements maxElementToRead readNumber startTime
      endTime).1 = ⟨0, ps.length, copied elements 0 ps⟩ :=
  h.read_dump rfl h.packets hopen elements readNumber hstart hend hmax

end Represents

theorem represents_initialStore (N : ℕ+) (hN : (N : ℕ) < 2 ^ 32) {d : Disk}
    (hd : d.infoFile = none) : Represents N 0 (initialStore N d) [] := by
  have hinit : initialStore N d =
      ⟨{ FileHandler.zero with tail := 0 + (((N : ℕ) : ℤ) - 1) * sizeofElement },
        { d with
          infoFile :=
            some { FileHandler.zero with tail := 0 + (((N : ℕ) : ℤ) - 1) * sizeofElement } }⟩ := by
    simp [initialStore, init, hd, Store.begin, World.withHandler, World.nextFopen, allGranted,
      World.emit, Disk.apply, FileHandler.zero]
  rw [hinit]
  refine represents_nil hN rfl ?_ rfl rfl rfl rfl rfl rfl
  rw [Ring.last, mul_comm]
  rfl

/-- After every run from an `init` without info file, the store holds the last packets that were
accepted. -/
theorem represents_after (N : ℕ+) (hN : (N : ℕ) < 2 ^ 32) {d : Disk} (hd : d.infoFile = none)
    (ops : List Op) :
    ∃ o dropped ps, Represents N o ((system N).after (initialStore N d) ops) ps ∧
      ((system N).trace (initialStore N d) ops).filterMap acceptedPacket = dropped ++ ps := by
  obtain ⟨dropped, ps, ⟨o, h⟩, hhistory⟩ := (system N).suffix_of_history
    (R := fun s ps => ∃ o, Represents N o s ps) (Q := fun _ _ => True)
    (initialStore N d) ⟨0, represents_initialStore N hN hd⟩ (fun s op ps ⟨o, h⟩ _ => by
      obtain ⟨o', k, hnext⟩ := h.step op
      exact ⟨k, o', hnext⟩) ops (List.pairwise_of_forall fun _ _ => True.intro)
  exact ⟨o, dropped, ps, h, hhistory⟩

end CComplete.PacketStoreSdcard
