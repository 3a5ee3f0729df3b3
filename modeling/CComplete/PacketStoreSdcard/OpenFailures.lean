import CComplete.PacketStoreSdcard.Invariant

/-!
# Stores and deletes when files fail to open

A call of `store_callback` or `delete_up_to_time` changes the packet file, the handler and the info
file in this order, with an `fopen` before the first and the last. `AllOrNothing` compares a call
under any answers of the environment with the same call when every `fopen` is granted. The calls
that violate it are the ones excluded by `OpenFailuresHarmless`: the info file fails to open after
the packet file was changed, the packet file is created anew over packets that are lost, or both
ways to open the packet file fail after the oldest time was set (`all_or_nothing_iff`).
-/

set_option autoImplicit false

namespace CComplete.PacketStoreSdcard

open CComplete.Library

/-! ## Calls under any answers of the environment -/

/-- The store in an environment that answers each `fopen` as it likes. -/
def faultySystem (N : ℕ) : Machine Store (Op × (ℕ → Bool)) Reply where
  step s call := ((runOp N s call.2 call.1).2.toStore, (runOp N s call.2 call.1).1)

/-- The same handler, the same live packets in the packet file, the same info file. -/
structure SameContents (s t : Store) : Prop where
  handler : s.handler = t.handler
  live : liveSlots s = liveSlots t
  infoFile : s.disk.infoFile = t.disk.infoFile

/-- The result `r` of a call on `s` is 0 with the contents of the full call and its handler in the
info file, or it is not 0 and the contents are those of `s`. -/
def FullOrUnchanged (s full : Store) (r : ℤ × World) : Prop :=
  (r.1 = 0 ∧ SameContents r.2.toStore full ∧ r.2.disk.infoFile = some r.2.handler) ∨
    (r.1 ≠ 0 ∧ SameContents r.2.toStore s)

/-- Whatever `fopen` answers, a store or a delete is done in full or not at all. -/
def AllOrNothing (N : ℕ) (s : Store) : Op × (ℕ → Bool) → Prop
  | (.storeCallback dataPtr dataSize storageTime, granted) =>
      FullOrUnchanged s
        (storeCallback N (s.begin allGranted) dataPtr dataSize storageTime).2.toStore
        (storeCallback N (s.begin granted) dataPtr dataSize storageTime)
  | (.deleteUpToTime time, granted) =>
      FullOrUnchanged s (deleteUpToTime (s.begin allGranted) time).2.toStore
        (deleteUpToTime (s.begin granted) time)
  | _ => True

/-- A packet file created anew has every live packet again: each is all zero and lies in the gap
below `write_to`, which the write fills with zeros. -/
def LiveAreZeros (s : Store) : Prop :=
  ∀ i, i < s.handler.tmNumber →
    s.handler.position i < s.handler.writeTo ∧ (liveSlots s)[i]? = some (some nullElement)

/-- No `fopen` of the call fails where the call is already half done. -/
def OpenFailuresHarmless (N : ℕ) (s : Store) : Op × (ℕ → Bool) → Prop
  | (.storeCallback dataPtr dataSize storageTime, granted) =>
      let e := elementToWrite dataPtr dataSize storageTime
      s.handler.Accepts N e →
        if (granted 0 && s.disk.packetFile.isSome) = true then granted 1 = true
        else if granted 1 = true then granted 2 = true ∧ LiveAreZeros s
        else s.handler.tmNumber ≠ 0 ∨ e.coarseTime = s.handler.oldestTime
  | (.deleteUpToTime time, granted) =>
      if s.handler.newestTime ≤ time then
        (granted 0 && s.disk.packetFile.isSome) = true →
          granted 1 = true ∨ s.handler.tmNumber = 0
      else
        (granted 0 && s.disk.packetFile.isSome) = true → granted 1 = true →
          (∃ p ∈ livePackets s, p.coarseTime ≤ time) → granted 2 = true
  | _ => True

/-- A restart succeeds: its `init` can open the info file. -/
def InitSucceeds : Op × (ℕ → Bool) → Prop
  | (.restart, granted) => granted 0 = true
  | _ => True

theorem SameContents.refl (s : Store) : SameContents s s := ⟨rfl, rfl, rfl⟩

theorem fullOrUnchanged_of_zero {s full : Store} {r : ℤ × World} (hr : r.1 = 0) :
    FullOrUnchanged s full r ↔
      SameContents r.2.toStore full ∧ r.2.disk.infoFile = some r.2.handler := by
  simp [FullOrUnchanged, hr]

theorem fullOrUnchanged_of_ne_zero {s full : Store} {r : ℤ × World} (hr : r.1 ≠ 0) :
    FullOrUnchanged s full r ↔ SameContents r.2.toStore s := by
  simp [FullOrUnchanged, hr]

/-- Taking in a packet leaves the handler as it is, if the store is not empty or the time is the
oldest time already. -/
theorem admitting_eq_self_iff {h : FileHandler} (e : Element)
    (hempty : h.tmNumber = 0 → h.oldestTmPosition = h.writeTo) :
    h.admitting e = h ↔ h.tmNumber ≠ 0 ∨ e.coarseTime = h.oldestTime := by
  by_cases h0 : h.tmNumber = 0
  · rw [FileHandler.admitting, if_pos h0]
    constructor
    · intro heq
      exact Or.inr (congrArg FileHandler.oldestTime heq)
    · rintro (hne | htime)
      · exact absurd h0 hne
      · have hposition := hempty h0
        obtain ⟨head, tail, writeTo, tmNumber, oldestTmPosition, oldestTime, newestTime⟩ := h
        rw [FileHandler.mk.injEq]
        exact ⟨rfl, rfl, rfl, rfl, hposition.symm, htime, rfl⟩
  · rw [FileHandler.admitting, if_neg h0]
    exact iff_of_true rfl (Or.inl h0)

namespace Represents

variable {N : ℕ+} {o : ℕ} {s : Store} {ps : List Element}

theorem sameContents {t : Store} {o' : ℕ} (h : Represents N o s ps) (ht : Represents N o' t ps)
    (hhandler : s.handler = t.handler) : SameContents s t where
  handler := hhandler
  live := h.liveSlots_eq.trans ht.liveSlots_eq.symm
  infoFile := by rw [h.infoFile, ht.infoFile, hhandler]

/-! ## Store -/

/-- A packet written into a new file leaves exactly the packets of zeros below it. -/
theorem packets_created_iff (h : Represents N o s ps) (hroom : ps.length < N) (e : Element)
    {i : ℕ} (hi : i < ps.length) :
    elementCodec.read? (elementCodec.writeAt [] s.handler.writeTo e) (s.handler.position i) =
        some ps[i] ↔
      s.handler.position i < s.handler.writeTo ∧ ps[i] = nullElement := by
  have hzero : elementCodec.encode nullElement = List.replicate elementCodec.size 0 := by decide
  -- below `write_to` the gap is filled with zeros, above it the new file ends
  rcases h.position_disjoint hroom hi with hbelow | habove
  · have hread := (Codec.holds_writeAt_nil hzero (h.position_nonneg i) hbelow e).read?_eq
    have hlt : s.handler.position i < s.handler.writeTo := by
      rw [sizeofElement] at hbelow
      omega
    rw [hread]
    simp [hlt, eq_comm]
  · have hread := Codec.read?_writeAt_nil (c := elementCodec) h.writeTo_nonneg habove e
    have hnot : ¬ s.handler.position i < s.handler.writeTo := by
      rw [sizeofElement] at habove
      omega
    rw [hread]
    simp [hnot]

theorem liveAreZeros_iff (h : Represents N o s ps) :
    LiveAreZeros s ↔ ∀ i (hi : i < ps.length),
      s.handler.position i < s.handler.writeTo ∧ ps[i] = nullElement := by
  rw [LiveAreZeros, h.liveSlots_eq, h.tmNumber]
  refine forall₂_congr fun i hi => and_congr_right fun _ => ?_
  simp [hi]

/-- The packets of zeros below `write_to` are in a new file once the next packet is written. -/
theorem packets_created (h : Represents N o s ps) (hroom : ps.length < N) (e : Element)
    (hzeros : LiveAreZeros s) :
    (slots N).Segment (elementCodec.Holds (elementCodec.writeAt [] s.handler.writeTo e)) o ps := by
  intro i hi
  obtain ⟨hlt, hnull⟩ := h.liveAreZeros_iff.1 hzeros i hi
  have hzero : elementCodec.encode nullElement = List.replicate elementCodec.size 0 := by decide
  rw [hnull, ← h.position_eq]
  refine Codec.holds_writeAt_nil hzero (h.position_nonneg i) ?_ e
  rcases h.position_disjoint hroom hi with hbelow | habove
  · exact hbelow
  · rw [sizeofElement] at habove
    omega

/-- The store with the packet in a new file has the contents of the full store exactly when the live
packets are zeros below `write_to`. -/
theorem created_sameContents_iff (h : Represents N o s ps) {e : Element}
    (hacc : s.handler.Accepts N e) {full : Store} (hfull : Represents N o full (ps ++ [e]))
    (hhandler : full.handler = s.handler.stored e) :
    SameContents
        ⟨s.handler.stored e,
          ⟨some (elementCodec.writeAt [] s.handler.writeTo e), some (s.handler.stored e)⟩⟩ full ↔
      LiveAreZeros s := by
  have hroom : ps.length < N := h.tmNumber ▸ hacc.1
  constructor
  · intro hsame
    refine h.liveAreZeros_iff.2 fun i hi => ?_
    rw [← h.packets_created_iff hroom e hi]
    -- the live slots of the result are those of the full call, which has the packets
    have hposition : (s.handler.stored e).position i = s.handler.position i := by
      rw [← hhandler, h.position_eq]
      exact hfull.position_eq i
    have hslot := congrArg (fun slots => slots[i]?) (hsame.live.trans hfull.liveSlots_eq)
    have hcount := stored_tmNumber hacc.1 h.capacity e
    rw [← hposition]
    simpa [liveSlots, Disk.packetBytes, hcount, h.tmNumber, hi, Nat.lt_succ_of_lt hi,
      List.getElem?_append_left] using hslot
  · intro hzeros
    have hdone := h.stored hacc (h.packets_created hroom e hzeros)
    exact hdone.sameContents hfull hhandler.symm

/-- A store call is done in full or not at all exactly when its open failures are harmless. -/
theorem store_allOrNothing_iff (h : Represents N o s ps) (dataPtr : ℕ → UInt8)
    (dataSize : UInt32) (storageTime : ℕ → UInt8) (granted : ℕ → Bool) :
    AllOrNothing N s (.storeCallback dataPtr dataSize storageTime, granted) ↔
      OpenFailuresHarmless N s (.storeCallback dataPtr dataSize storageTime, granted) := by
  simp only [AllOrNothing, OpenFailuresHarmless]
  generalize he : elementToWrite dataPtr dataSize storageTime = e
  -- a call that returns -2 has already counted the packet
  have hcounted : s.handler.Accepts N e →
      ∀ d : Disk, ¬ SameContents ⟨s.handler.stored e, d⟩ s := fun hacc d hsame => by
    have hcount := congrArg FileHandler.tmNumber hsame.handler
    rw [stored_tmNumber hacc.1 h.capacity] at hcount
    exact absurd hcount (Nat.succ_ne_self _)
  rcases storeCallback_cases N dataPtr dataSize storageTime s granted h.infoFile_isSome with
    ⟨hno, code, hcode, hcall⟩ | ⟨hacc, hopen, hcall⟩ | ⟨hacc, hclosed, hcreate, hcall⟩ |
      ⟨hacc, hclosed, hcreate, hcall⟩
  all_goals rw [hcall]
  -- refused
  · rw [fullOrUnchanged_of_ne_zero hcode]
    exact iff_of_true (SameContents.refl s) fun hacc => absurd (he ▸ hacc) hno
  -- written to the existing packet file
  · obtain ⟨-, hhandler, hfull⟩ := h.storeCallback_granted dataPtr dataSize storageTime hacc
    rw [he] at hacc hhandler hfull ⊢
    have hroom : ps.length < N := h.tmNumber ▸ hacc.1
    rw [forall_prop_of_true hacc, if_pos hopen]
    cases hinfo : granted 1 with
    | true =>
      have hdone := h.stored hacc (h.packets_written hroom e)
      rw [fullOrUnchanged_of_zero rfl]
      exact iff_of_true ⟨hdone.sameContents hfull hhandler.symm, rfl⟩ rfl
    | false =>
      rw [fullOrUnchanged_of_ne_zero (show (-2 : ℤ) ≠ 0 by decide)]
      exact iff_of_false (hcounted hacc _) Bool.false_ne_true
  -- written to a new packet file
  · obtain ⟨-, hhandler, hfull⟩ := h.storeCallback_granted dataPtr dataSize storageTime hacc
    rw [he] at hacc hhandler hfull ⊢
    rw [forall_prop_of_true hacc, if_neg (Bool.eq_false_iff.1 hclosed), if_pos hcreate]
    cases hinfo : granted 2 with
    | true =>
      rw [fullOrUnchanged_of_zero rfl, and_iff_right rfl]
      refine Iff.trans ?_ (h.created_sameContents_iff hacc hfull hhandler)
      exact and_iff_left rfl
    | false =>
      rw [fullOrUnchanged_of_ne_zero (show (-2 : ℤ) ≠ 0 by decide)]
      exact iff_of_false (hcounted hacc _) fun hno => Bool.false_ne_true hno.1
  -- no packet file opened: the handler alone may have changed
  · rw [he] at hacc ⊢
    rw [forall_prop_of_true hacc, if_neg (Bool.eq_false_iff.1 hclosed),
      if_neg (Bool.eq_false_iff.1 hcreate),
      fullOrUnchanged_of_ne_zero (show (1 : ℤ) ≠ 0 by decide)]
    rw [← admitting_eq_self_iff e fun h0 => ?_]
    · constructor
      · exact fun hsame => hsame.handler
      · intro heq
        rw [heq]
        exact SameContents.refl s
    · rw [h.oldestTmPosition, h.writeTo, h.ps_eq_nil_iff.2 h0]
      rfl

/-! ## Delete -/

theorem infoFile_erased_written (d : Disk) (position : ℕ → ℤ) (n : ℕ) (hd : FileHandler) :
    ((erasures position n ++ infoUpdate true hd).foldl Disk.apply d).infoFile = some hd := by
  rw [List.foldl_append]
  rfl

theorem infoFile_erased_kept (d : Disk) (position : ℕ → ℤ) (n : ℕ) (hd : FileHandler) :
    ((erasures position n ++ infoUpdate false hd).foldl Disk.apply d).infoFile = d.infoFile := by
  rw [infoUpdate, if_neg Bool.false_ne_true, List.append_nil, infoFile_erasures]

/-- The handler of an empty store is the one after a delete of everything. -/
theorem handler_eq_cleared_iff (h : Represents N o s ps) :
    s.handler = s.handler.cleared ↔ s.handler.tmNumber = 0 := by
  refine ⟨fun heq => congrArg FileHandler.tmNumber heq, fun h0 => ?_⟩
  -- an empty store has its cursors at the head and both times zero
  have hnil := h.ps_eq_nil_iff.2 h0
  have ho := h.oldest_of_empty hnil
  subst hnil ho
  have hzero : (slots N).addr 0 = 0 := (slots N).addr_zero
  have hwrite : s.handler.writeTo = 0 := h.writeTo.trans hzero
  have holdest : s.handler.oldestTmPosition = 0 := h.oldestTmPosition.trans hzero
  have htimes : s.handler.oldestTime = 0 ∧ s.handler.newestTime = 0 := ⟨h.oldestTime, h.newestTime⟩
  obtain ⟨⟨head, tail, writeTo, tmNumber, oldestTmPosition, oldestTime, newestTime⟩, d⟩ := s
  exact (FileHandler.mk.injEq ..).mpr
    ⟨rfl, rfl, hwrite, h0, holdest, htimes.1, htimes.2⟩

/-- A delete call is done in full or not at all exactly when its open failures are harmless. -/
theorem delete_allOrNothing_iff (h : Represents N o s ps) (time : UInt32)
    (granted : ℕ → Bool) :
    AllOrNothing N s (.deleteUpToTime time, granted) ↔
      OpenFailuresHarmless N s (.deleteUpToTime time, granted) := by
  simp only [AllOrNothing, OpenFailuresHarmless]
  rw [h.livePackets_eq]
  rcases h.deleteUpToTime_cases granted time with
    ⟨hT, hopen, hcall⟩ | ⟨hT, hopen, hreopen, hsome, stop, hstop, hlt, hcall⟩ |
      ⟨hquiet, code, n, hcode, hcall⟩
  · -- everything is erased
    have hfile := (Bool.and_eq_true_iff.1 hopen).2
    obtain ⟨-, -, hfull⟩ | ⟨hno, -⟩ | ⟨hno, -⟩ := h.deleteUpToTime_cases allGranted time
    · rw [if_pos hT, forall_prop_of_true hopen, hcall, hfull, fullOrUnchanged_of_zero rfl]
      cases hinfo : granted 1 with
      | true =>
        exact iff_of_true ⟨SameContents.refl _, infoFile_erased_written _ _ _ _⟩ (Or.inl rfl)
      | false =>
        rw [← h.handler_eq_cleared_iff]
        -- the info file still has the old handler
        have hkeep := (infoFile_erased_kept s.disk
          (fun i => s.handler.oldestTmPosition + sizeofElement * (i : ℤ)) s.handler.tmNumber
          s.handler.cleared).trans h.infoFile
        constructor
        · exact fun hdone => Or.inr (Option.some_inj.1 (hkeep.symm.trans hdone.2))
        · rintro (hno | heq)
          · exact absurd hno Bool.false_ne_true
          · have hnow := hkeep.trans (Option.some_inj.2 heq)
            exact ⟨⟨rfl, rfl, hnow.trans (infoFile_erased_written _ _ _ _).symm⟩, hnow⟩
    · exact absurd hT (UInt32.not_le.2 hno)
    · exact absurd ⟨hfile, fun hlt => absurd hT (UInt32.not_le.2 hlt)⟩ hno
  · -- the oldest `stop` packets are erased
    have hfile := (Bool.and_eq_true_iff.1 hopen).2
    have hcount := h.upToCount_lt_length hT
    have hbound := h.bounded
    have hpos : 0 < stop := by
      rw [hstop]
      exact h.count_pos (by omega)
    obtain ⟨hno, -⟩ | ⟨-, -, -, -, stop', hstop', hlt, hfull⟩ | ⟨hno, -⟩ :=
      h.deleteUpToTime_cases allGranted time
    · exact absurd hno (UInt32.not_le.2 hT)
    · obtain rfl : stop = stop' := hstop.trans hstop'.symm
      have hlive : stop ≤ s.handler.tmNumber := h.tmNumber ▸ hlt.le
      rw [if_neg (UInt32.not_le.2 hT), forall_prop_of_true hopen, forall_prop_of_true hreopen,
        forall_prop_of_true hsome, hcall, hfull, fullOrUnchanged_of_zero rfl]
      cases hinfo : granted 2 with
      | true => exact iff_of_true ⟨SameContents.refl _, infoFile_erased_written _ _ _ _⟩ rfl
      | false =>
        refine iff_of_false (fun hdone => ?_) Bool.false_ne_true
        -- the info file still counts the packets that were erased
        have hold := (infoFile_erased_kept s.disk s.handler.position stop _).symm.trans hdone.2
        rw [h.infoFile] at hold
        have hnumber := congrArg FileHandler.tmNumber (Option.some_inj.1 hold)
        rw [finish_handler, trimmed_tmNumber h.tmNumber_lt hlive] at hnumber
        omega
    · exact absurd ⟨hfile, fun _ => ⟨rfl, hsome⟩⟩ hno
  · -- nothing is erased
    rw [hcall, fullOrUnchanged_of_ne_zero hcode]
    refine iff_of_true (SameContents.refl s) ?_
    split
    · next hT =>
      exact fun hopen => absurd ⟨hopen, fun hlt => absurd hT (UInt32.not_le.2 hlt)⟩ hquiet
    · exact fun hopen hreopen hsome => absurd ⟨hopen, fun _ => ⟨hreopen, hsome⟩⟩ hquiet

/-! ## Runs -/

theorem allOrNothing_iff (h : Represents N o s ps)
    (call : Op × (ℕ → Bool)) : AllOrNothing N s call ↔ OpenFailuresHarmless N s call := by
  obtain ⟨op, granted⟩ := call
  cases op with
  | storeCallback dataPtr dataSize storageTime =>
    exact h.store_allOrNothing_iff dataPtr dataSize storageTime granted
  | readElementsBetweenTwoDates elements maxElementToRead readNumber startTime endTime =>
    exact Iff.rfl
  | deleteUpToTime time => exact h.delete_allOrNothing_iff time granted
  | restart => exact Iff.rfl

/-- A store call whose open failures are harmless keeps the representation. -/
theorem store_harmless (h : Represents N o s ps) (dataPtr : ℕ → UInt8) (dataSize : UInt32)
    (storageTime : ℕ → UInt8) (granted : ℕ → Bool)
    (hharmless : OpenFailuresHarmless N s (.storeCallback dataPtr dataSize storageTime, granted)) :
    ∃ ps', Represents N o
      (storeCallback N (s.begin granted) dataPtr dataSize storageTime).2.toStore ps' := by
  simp only [OpenFailuresHarmless] at hharmless
  rcases storeCallback_cases N dataPtr dataSize storageTime s granted h.infoFile_isSome with
    ⟨-, code, -, hcall⟩ | ⟨hacc, hopen, hcall⟩ | ⟨hacc, hclosed, hcreate, hcall⟩ |
      ⟨hacc, hclosed, hcreate, hcall⟩
  all_goals rw [hcall]
  · exact ⟨ps, h⟩
  · have hinfo := hharmless hacc
    rw [if_pos hopen] at hinfo
    rw [hinfo]
    exact ⟨_, h.stored hacc (h.packets_written (h.tmNumber ▸ hacc.1) _)⟩
  · have hinfo := hharmless hacc
    rw [if_neg (Bool.eq_false_iff.1 hclosed), if_pos hcreate] at hinfo
    rw [hinfo.1]
    exact ⟨_, h.stored hacc (h.packets_created (h.tmNumber ▸ hacc.1) _ hinfo.2)⟩
  · have hsame := hharmless hacc
    rw [if_neg (Bool.eq_false_iff.1 hclosed), if_neg (Bool.eq_false_iff.1 hcreate),
      ← admitting_eq_self_iff _ fun h0 => ?_] at hsame
    · rw [hsame]
      exact ⟨ps, h⟩
    · rw [h.oldestTmPosition, h.writeTo, h.ps_eq_nil_iff.2 h0]
      rfl

/-- A delete call whose open failures are harmless keeps the representation. -/
theorem delete_harmless (h : Represents N o s ps) (time : UInt32) (granted : ℕ → Bool)
    (hharmless : OpenFailuresHarmless N s (.deleteUpToTime time, granted)) :
    ∃ o' ps', Represents N o' (deleteUpToTime (s.begin granted) time).2.toStore ps' := by
  simp only [OpenFailuresHarmless, h.livePackets_eq] at hharmless
  rcases h.deleteUpToTime_cases granted time with
    ⟨hT, hopen, hcall⟩ | ⟨hT, hopen, hreopen, hsome, stop, -, hlt, hcall⟩ | ⟨-, code, n, -, hcall⟩
  · rw [if_pos hT] at hharmless
    rw [hcall]
    refine ⟨0, [], h.cleared ?_⟩
    rcases hharmless hopen with hinfo | h0
    · rw [hinfo]
      exact infoFile_erased_written _ _ _ _
    · cases hinfo : granted 1 with
      | true => exact infoFile_erased_written _ _ _ _
      | false =>
        exact (infoFile_erased_kept _ _ _ _).trans
          (h.infoFile.trans (Option.some_inj.2 (h.handler_eq_cleared_iff.2 h0)))
  · rw [if_neg (UInt32.not_le.2 hT)] at hharmless
    rw [hcall, hharmless hopen hreopen hsome, finish_toStore, List.foldl_append]
    exact ⟨_, _, h.trimmed hlt⟩
  · rw [hcall]
    exact ⟨o, ps, h⟩

theorem harmless_step (h : Represents N o s ps) (call : Op × (ℕ → Bool))
    (hinit : InitSucceeds call) (hharmless : OpenFailuresHarmless N s call) :
    ∃ o' ps', Represents N o' ((faultySystem N).step s call).1 ps' := by
  obtain ⟨op, granted⟩ := call
  cases op with
  | storeCallback dataPtr dataSize storageTime =>
    exact ⟨o, h.store_harmless dataPtr dataSize storageTime granted hharmless⟩
  | readElementsBetweenTwoDates elements maxElementToRead readNumber startTime endTime =>
    refine ⟨o, ps, ?_⟩
    have hkeep : ((faultySystem N).step s (.readElementsBetweenTwoDates elements maxElementToRead
        readNumber startTime endTime, granted)).1 = s := readElements_toStore _ _ _ _ _ _
    rw [hkeep]
    exact h
  | deleteUpToTime time => exact h.delete_harmless time granted hharmless
  | restart =>
    refine ⟨o, ps, ?_⟩
    have hkeep : ((faultySystem N).step s (.restart, granted)).1 = s :=
      (init_of_image N s.disk h.infoFile hinit).2.1
    rw [hkeep]
    exact h

end Represents

/-- In every run from an `init` without info file, under any answers of the environment: every
store and delete of the run is done in full or not at all if and only if every one of them meets
the condition that its open failures are harmless. -/
theorem all_or_nothing_iff (N : ℕ+) (hN : (N : ℕ) < 2 ^ 32) (d : Disk) (hd : d.infoFile = none)
    (calls : List (Op × (ℕ → Bool))) (hinit : ∀ call ∈ calls, InitSucceeds call) :
    (faultySystem N).Guarded (AllOrNothing N) (initialStore N d) calls ↔
      (faultySystem N).Guarded (OpenFailuresHarmless N) (initialStore N d) calls := by
  apply (faultySystem N).guarded_iff (P := fun s => ∃ o ps, Represents N o s ps)
    (H := InitSucceeds)
  · rintro s call ⟨o, ps, h⟩
    exact h.allOrNothing_iff call
  · rintro s call ⟨o, ps, h⟩ hcall hharmless
    exact h.harmless_step call hcall hharmless
  · exact ⟨0, [], represents_initialStore N hN hd⟩
  · exact hinit

/-- A delete that cannot open the packet file, after a store that opened every file, is harmless. -/
theorem all_or_nothing_iff_closed_delete :
    (faultySystem maxTmNumber).Guarded (AllOrNothing maxTmNumber)
      (initialStore maxTmNumber ⟨some [], none⟩)
      [(storeAt 3, allGranted), (.deleteUpToTime 3, fun _ => false)] := by
  refine (all_or_nothing_iff maxTmNumber (by decide) ⟨some [], none⟩ rfl _ ?_).2 ⟨?_, ?_, trivial⟩
  · intro call hcall
    rcases List.mem_cons.1 hcall with rfl | hcall
    · trivial
    · rcases List.mem_singleton.1 hcall with rfl
      trivial
  · exact fun _ => rfl
  · exact fun hno => absurd hno Bool.false_ne_true

/-- A second store that cannot open the info file returns -2 and has stored its packet. -/
theorem store_counted_though_refused :
    ¬ AllOrNothing maxTmNumber
      ((system maxTmNumber).after (initialStore maxTmNumber ⟨none, none⟩) [storeAt 3])
      (storeAt 5, fun i => i == 0) := by
  rintro (⟨hcode, -⟩ | ⟨-, hsame⟩)
  · exact absurd hcode (by decide +kernel)
  · exact absurd (congrArg FileHandler.tmNumber hsame.handler) (by decide +kernel)

end CComplete.PacketStoreSdcard
