import CComplete.PacketStoreSdcard.Invariant

/-!
# Recovery after an interruption

A call of the store makes its changes of the disk one after the other. When the process stops after
the first of them, a fresh process runs `init` on what is there and can read the whole store. A
store call writes its packet outside the live slots before it writes the info file, so the fresh
process finds the old packets or the new ones. A delete erases live slots before it writes the
info file: between the two the fresh process finds packets of zeros (`recovery_iff`).
-/

set_option autoImplicit false

namespace CComplete.PacketStoreSdcard

open CComplete.Library

/-! ## Interrupted calls -/

/-- The first `changes` changes of the disk that a call makes. -/
def changesBeforeStop (N : ℕ) (s : Store) (op : Op) (changes : ℕ) : List DiskEffect :=
  (runOp N s allGranted op).2.effects.take changes

/-- The disk left behind by a call that stops after its first `changes` changes. -/
def diskAtStop (N : ℕ) (s : Store) (op : Op) (changes : ℕ) : Disk :=
  (changesBeforeStop N s op changes).foldl Disk.apply s.disk

/-- The packets that a fresh process reads from the whole store. -/
def recoveredPackets (N : ℕ) (d : Disk) : List Element :=
  let s := initialStore N d
  let reply := (readElementsBetweenTwoDates (s.begin allGranted) (fun _ => nullElement)
    s.handler.tmNumber 0 0 0xFFFFFFFF).1
  if reply.code = 0 then (List.range reply.readNumber).map reply.elements else []

/-- A complete call, or one during which the process stops after the first `changes` changes of
the disk, followed by a fresh process. -/
inductive CrashOp where
  | complete (op : Op)
  | interrupted (op : Op) (changes : ℕ)

/-- The store with interruptions. -/
def crashSystem (N : ℕ) : Machine Store CrashOp (Option Reply) where
  step
    | s, .complete op => (((system N).step s op).1, some ((system N).step s op).2)
    | s, .interrupted op changes => (initialStore N (diskAtStop N s op changes), none)

/-- After an interruption the fresh process reads the packets that were live before the call, or
those live after the complete call. -/
def RecoversOldOrNew (N : ℕ) (s : Store) : CrashOp → Prop
  | .complete _ => True
  | .interrupted op changes =>
      let recovered := recoveredPackets N (diskAtStop N s op changes)
      recovered = livePackets s ∨ recovered = livePackets ((system N).step s op).1

/-- Number of slots that a delete erases before it writes the info file. -/
def erasedCount (s : Store) (time : UInt32) : ℕ :=
  if s.handler.newestTime ≤ time then s.handler.tmNumber
  else if ∃ p ∈ livePackets s, p.coarseTime ≤ time then
    getNumberOfElementsBetweenTwoPosition s.handler s.handler.oldestTmPosition
      (s.handler.position (upToCount Element.time time.toNat (livePackets s) - 1))
  else 0

/-- Position of the erasure number `i` of a delete. A delete of everything does not wrap. -/
def erasedPosition (s : Store) (time : UInt32) (i : ℕ) : ℤ :=
  if s.handler.newestTime ≤ time then s.handler.oldestTmPosition + sizeofElement * (i : ℤ)
  else s.handler.position i

/-- The call is no delete, or it is stopped after its write of the info file, or the live packets
that it erased until then were all zero. -/
def InterruptionHarmless (s : Store) : CrashOp → Prop
  | .interrupted (.deleteUpToTime time) changes =>
      erasedCount s time < changes ∨
        ∀ i p, i < changes → (livePackets s)[i]? = some p →
          s.handler.position i = erasedPosition s time i → p = nullElement
  | _ => True

/-- The call made its write of the info file, or wrote nothing else than what was there over a live
packet. -/
def StopKeepsLive (N : ℕ) (s : Store) (op : Op) (changes : ℕ) : Prop :=
  let made := changesBeforeStop N s op changes
  (∃ h, .writeHandler h ∈ made) ∨
    ∀ i e, i < s.handler.tmNumber → .writeElement (s.handler.position i) e ∈ made →
      (liveSlots s)[i]? = some (some e)

/-- The packets `ps` of the store after the changes `made`: zeros where one was erased. -/
def erasedPackets (s : Store) (made : List DiskEffect) (ps : List Element) : List Element :=
  ps.mapIdx fun i p =>
    if .writeElement (s.handler.position i) nullElement ∈ made then nullElement else p

/-- Changes of a call before its write of the info file: they leave or erase each live packet. -/
def LeavesOrErases (s : Store) (n : ℕ) (made : List DiskEffect) : Prop :=
  ∀ e ∈ made, (∀ i, i < n → e.Keeps (s.handler.position i) nullElement) ∧
    ∀ h, e ≠ .writeHandler h

/-- The changes of a call that ended in `w` leave or erase each packet of `ps`, up to a last write
of the info file. If one of them is over a live packet, fewer packets are live in the end. -/
def WritesInfoLast (s : Store) (ps : List Element) (w : World) : Prop :=
  w.disk = w.effects.foldl Disk.apply s.disk ∧
    ∃ body, LeavesOrErases s ps.length body ∧
      (w.effects = body ∨ ∃ hd, w.effects = body ++ [.writeHandler hd]) ∧
      ((∃ i e, i < ps.length ∧ .writeElement (s.handler.position i) e ∈ body) →
        (livePackets w.toStore).length < ps.length)

namespace Represents

variable {N : ℕ+} {o : ℕ} {s : Store} {ps : List Element}

/-! ## What the fresh process reads -/

/-- A fresh process on a disk with the handler of the store reads the slots of its packets. -/
theorem recoveredPackets_eq (h : Represents N o s ps) {d : Disk} {xs : List Element}
    (hlen : xs.length = ps.length)
    (hd : (slots N).Segment (elementCodec.Holds d.packetBytes) o xs)
    (hfile : ps ≠ [] → d.packetFile.isSome = true) (hinfo : d.infoFile = some s.handler) :
    recoveredPackets N d = xs := by
  have hinit : initialStore N d = ⟨s.handler, d⟩ := (init_of_image N d hinfo rfl).2.1
  have hmin : (0 : UInt32) ≤ s.handler.oldestTime := UInt32.le_iff_toNat_le.2 (Nat.zero_le _)
  have hmax : s.handler.newestTime ≤ 0xFFFFFFFF :=
    UInt32.le_iff_toNat_le.2 (Nat.le_of_lt_succ s.handler.newestTime.toNat_lt)
  simp only [recoveredPackets, hinit]
  cases hopen : d.packetFile.isSome with
  | true =>
    have hread := h.read_dump hlen hd (show (allGranted 0 && _) = true from hopen)
      (fun _ => nullElement) 0 hmin hmax (Nat.le_refl _)
    rw [hread, if_pos rfl]
    apply List.ext_getElem
    · simp
    · intro i hi hi'
      simp [copied, hi']
  | false =>
    -- without a packet file the store is empty, and nothing is read either
    have hnil : ps = [] := by
      by_contra hne
      rw [hfile hne] at hopen
      exact Bool.noConfusion hopen
    rw [hnil, List.length_nil, List.length_eq_zero_iff] at hlen
    have hread := readElements_dump (w := Store.begin ⟨s.handler, d⟩ allGranted)
      (fun _ => nullElement) s.handler.tmNumber 0 hmin hmax (Nat.le_refl _)
    have hclosed : ¬ (allGranted 0 && d.packetFile.isSome) = true := by
      rw [hopen]
      exact Bool.false_ne_true
    rw [hread.trans (if_neg hclosed), hlen]
    rfl

/-! ## Erased slots -/

/-- The slots of the packets after changes that leave or erase each of them. -/
theorem segment_erasedPackets (h : Represents N o s ps) {made : List DiskEffect}
    (hmade : LeavesOrErases s ps.length made) :
    (slots N).Segment
      (elementCodec.Holds (made.foldl Disk.apply s.disk).packetBytes) o
      (erasedPackets s made ps) := by
  intro i hi
  have hi' : i < ps.length := by rwa [erasedPackets, List.length_mapIdx] at hi
  have hpos : 0 ≤ (slots N).addr (o + i) := (slots N).base_le_addr _
  simp only [erasedPackets, List.getElem_mapIdx]
  rw [h.position_eq]
  split
  · next hmem =>
    -- from its last erasure on the slot keeps the zeros
    obtain ⟨before, after, rfl⟩ := List.append_of_mem hmem
    rw [List.foldl_append, List.foldl_cons]
    refine holds_foldl_apply hpos after _ (Codec.holds_writeAt _ _ _) fun e he => ?_
    rw [← h.position_eq]
    exact (hmade e (List.mem_append_right _ (List.mem_cons_of_mem _ he))).1 i hi'
  · next hmem =>
    refine holds_foldl_apply hpos made _ (h.packets i hi') fun e he => ?_
    have hkeeps := (hmade e he).1 i hi'
    rw [h.position_eq] at hkeeps
    cases e with
    | truncatePacketFile => exact hkeeps
    | writeElement p y =>
      rcases hkeeps with ⟨rfl, rfl⟩ | hdisjoint
      · exact absurd he hmem
      · exact Or.inr hdisjoint
    | writeHandler hd => trivial

/-- No packet changed exactly when every write over a live packet wrote what was there. -/
theorem erasedPackets_eq_iff (h : Represents N o s ps) {made : List DiskEffect}
    (hmade : LeavesOrErases s ps.length made) :
    erasedPackets s made ps = ps ↔
      ∀ i e, i < s.handler.tmNumber → .writeElement (s.handler.position i) e ∈ made →
        (liveSlots s)[i]? = some (some e) := by
  -- whatever is written over a live packet is the null element
  have hnull : ∀ i e, i < ps.length → .writeElement (s.handler.position i) e ∈ made →
      e = nullElement := by
    intro i e hi hmem
    have hkeeps := (hmade _ hmem).1 i hi
    rcases hkeeps with ⟨-, heq⟩ | ⟨-, hdisjoint⟩
    · exact heq
    · have hsize : (0 : ℤ) < sizeofElement := by decide
      omega
  rw [h.liveSlots_eq, h.tmNumber]
  constructor
  · intro heq i e hi hmem
    obtain rfl := hnull i e hi hmem
    have hslot := congrArg (fun xs => xs[i]?) heq
    simp only [erasedPackets, List.getElem?_mapIdx, List.getElem?_eq_getElem hi, Option.map_some,
      if_pos hmem] at hslot
    rw [List.getElem?_map, List.getElem?_eq_getElem hi, ← hslot]
    rfl
  · intro hall
    apply List.ext_getElem (by simp [erasedPackets])
    intro i hi hi'
    simp only [erasedPackets, List.getElem_mapIdx]
    split
    · next hmem =>
      have hslot := hall i _ hi' hmem
      rw [List.getElem?_map, List.getElem?_eq_getElem hi'] at hslot
      exact (Option.some_inj.1 (Option.some_inj.1 hslot)).symm
    · rfl

/-! ## The changes of a call -/

/-- Erasures at multiples of the element size leave or erase each packet. -/
theorem leavesOrErases_erasures (h : Represents N o s ps) {position : ℕ → ℤ}
    (hgrid : ∀ i, ∃ m : ℕ, position i = sizeofElement * (m : ℤ)) (n : ℕ) :
    LeavesOrErases s ps.length (erasures position n) := by
  intro e he
  obtain ⟨i, -, rfl⟩ := List.mem_map.1 he
  refine ⟨fun j _ => ?_, fun h hno => by cases hno⟩
  obtain ⟨m, hm⟩ := hgrid i
  have hslot : s.handler.position j = sizeofElement * (((o + j) % N : ℕ) : ℤ) := by
    rw [h.position_eq]
    exact zero_add _
  -- two multiples of the element size are equal or at least one element apart
  rw [DiskEffect.Keeps, hm, hslot, sizeofElement]
  rcases Nat.lt_trichotomy m ((o + j) % N) with hlt | rfl | hgt
  · right; omega
  · exact Or.inl ⟨rfl, rfl⟩
  · right; omega

theorem addr_onGrid (N : ℕ+) (i : ℕ) : ∃ m : ℕ, (slots N).addr i = sizeofElement * (m : ℤ) :=
  ⟨i % N, zero_add _⟩

theorem writesInfoLast_of_quiet {w : World} (hdisk : w.disk = s.disk) (heffects : w.effects = []) :
    WritesInfoLast s ps w := by
  rw [WritesInfoLast, heffects]
  refine ⟨hdisk, [], fun e he => absurd he List.not_mem_nil, Or.inl rfl, ?_⟩
  rintro ⟨i, e, -, hmem⟩
  exact absurd hmem List.not_mem_nil

/-- A store writes outside the live slots. -/
theorem writesInfoLast_store (h : Represents N o s ps) (dataPtr : ℕ → UInt8) (dataSize : UInt32)
    (storageTime : ℕ → UInt8) :
    WritesInfoLast s ps
      (runOp N s allGranted (.storeCallback dataPtr dataSize storageTime)).2 := by
  simp only [runOp]
  rcases storeCallback_cases N dataPtr dataSize storageTime s allGranted h.infoFile_isSome with
    ⟨-, code, -, hcall⟩ | ⟨hacc, -, hcall⟩ | ⟨hacc, hclosed, -, hcall⟩ | ⟨-, -, hno, -⟩
  · rw [hcall]
    exact writesInfoLast_of_quiet rfl rfl
  · have hroom : ps.length < N := h.tmNumber ▸ hacc.1
    rw [hcall]
    refine ⟨rfl, [_], fun e he => ?_, Or.inr ⟨_, rfl⟩, ?_⟩
    · rw [List.mem_singleton] at he
      subst he
      exact ⟨fun i hi => Or.inr ⟨h.writeTo_nonneg, h.position_disjoint hroom hi⟩,
        fun hd hno => by cases hno⟩
    · rintro ⟨i, e, hi, hmem⟩
      have hsame : s.handler.position i = s.handler.writeTo := by
        rw [List.mem_singleton] at hmem
        exact (DiskEffect.writeElement.inj hmem).1
      have hdisjoint := h.position_disjoint hroom hi
      rw [hsame, sizeofElement] at hdisjoint
      omega
  · -- the packet file is only created when it does not exist
    obtain rfl := h.eq_nil_of_closed hclosed
    rw [hcall]
    refine ⟨rfl, [_, _], fun e he => ?_, Or.inr ⟨_, rfl⟩, ?_⟩
    · refine ⟨fun i hi => absurd hi (Nat.not_lt_zero i), fun hd hno => ?_⟩
      subst hno
      simp at he
    · rintro ⟨i, -, hi, -⟩
      exact absurd hi (Nat.not_lt_zero i)
  · exact Bool.noConfusion hno

/-- A delete erases packets before it writes the info file. -/
theorem writesInfoLast_delete (h : Represents N o s ps) (time : UInt32) :
    WritesInfoLast s ps (runOp N s allGranted (.deleteUpToTime time)).2 := by
  simp only [runOp]
  rcases h.deleteUpToTime_cases allGranted time with
    ⟨-, -, hcall⟩ | ⟨-, -, -, -, stop, -, hstop, hcall⟩ | ⟨-, code, n, -, hcall⟩
  · rw [hcall]
    refine ⟨rfl, _, h.leavesOrErases_erasures (fun i => ?_) _, Or.inr ⟨_, rfl⟩, ?_⟩
    · obtain ⟨m, hm⟩ := addr_onGrid N o
      refine ⟨m + i, ?_⟩
      rw [h.oldestTmPosition, hm]
      push_cast
      ring
    · rintro ⟨i, -, hi, -⟩
      -- nothing is live in the end
      show 0 < ps.length
      exact Nat.lt_of_le_of_lt (Nat.zero_le i) hi
  · rw [hcall]
    refine ⟨rfl, _, h.leavesOrErases_erasures (fun i => ?_) _, Or.inr ⟨_, rfl⟩, ?_⟩
    · rw [h.position_eq]
      exact addr_onGrid N _
    · rintro ⟨i, e, -, hmem⟩
      obtain ⟨j, hj, -⟩ := List.mem_map.1 hmem
      have hj' := List.mem_range.1 hj
      have hlive := (h.trimmed hstop).livePackets_eq
      rw [finish_toStore, List.foldl_append]
      refine lt_of_eq_of_lt (congrArg List.length hlive) ?_
      rw [List.length_drop]
      omega
  · rw [hcall]
    exact writesInfoLast_of_quiet rfl rfl

/-- A call erases packets, if at all, before it writes the info file. -/
theorem writesInfoLast (h : Represents N o s ps) (op : Op) :
    WritesInfoLast s ps (runOp N s allGranted op).2 := by
  cases op with
  | storeCallback dataPtr dataSize storageTime =>
    exact h.writesInfoLast_store dataPtr dataSize storageTime
  | readElementsBetweenTwoDates elements maxElementToRead readNumber startTime endTime =>
    obtain ⟨n, hworld⟩ := readElements_world (s.begin allGranted) elements maxElementToRead
      readNumber startTime endTime
    simp only [runOp, hworld]
    exact writesInfoLast_of_quiet rfl rfl
  | deleteUpToTime time => exact h.writesInfoLast_delete time
  | restart =>
    obtain ⟨-, hstore, heffects⟩ :=
      init_of_image N s.disk h.infoFile (show allGranted 0 = true from rfl)
    exact writesInfoLast_of_quiet (congrArg Store.disk hstore) heffects

/-- A stopped call either made all its changes, the write of the info file among them, or only
changes that leave or erase each packet. -/
theorem stop_cases (h : Represents N o s ps) (op : Op) (changes : ℕ) :
    let made := changesBeforeStop N s op changes
    ((∃ hd, .writeHandler hd ∈ made) ∧
        diskAtStop N s op changes = ((system N).step s op).1.disk) ∨
      ((¬ ∃ hd, .writeHandler hd ∈ made) ∧ LeavesOrErases s ps.length made ∧
        ((∃ i e, i < ps.length ∧ .writeElement (s.handler.position i) e ∈ made) →
          (livePackets ((system N).step s op).1).length < ps.length)) := by
  intro made
  obtain ⟨hdisk, body, hbody, heffects, hfewer⟩ := h.writesInfoLast op
  have htaken : ∀ k, LeavesOrErases s ps.length (body.take k) := fun k e he =>
    hbody e (List.mem_of_mem_take he)
  have hnone : ∀ k, ¬ ∃ hd, .writeHandler hd ∈ body.take k := by
    rintro k ⟨hd, hmem⟩
    exact (htaken k _ hmem).2 hd rfl
  have hless : ∀ k, (∃ i e, i < ps.length ∧
      .writeElement (s.handler.position i) e ∈ body.take k) →
        (livePackets ((system N).step s op).1).length < ps.length := by
    rintro k ⟨i, e, hi, hmem⟩
    exact hfewer ⟨i, e, hi, List.mem_of_mem_take hmem⟩
  have hmade : made = (runOp N s allGranted op).2.effects.take changes := rfl
  rcases heffects with heffects | ⟨hd, heffects⟩
  · rw [hmade, heffects]
    exact Or.inr ⟨hnone _, htaken _, hless _⟩
  -- stopped after the last change, or before it
  · rcases Nat.lt_or_ge body.length changes with hall | hpart
    · have htake : made = body ++ [.writeHandler hd] := by
        rw [hmade, heffects, List.take_of_length_le]
        rw [List.length_append, List.length_singleton]
        exact hall
      refine Or.inl ⟨⟨hd, ?_⟩, ?_⟩
      · rw [htake]
        simp
      · show made.foldl Disk.apply s.disk = (runOp N s allGranted op).2.disk
        rw [hdisk, htake, heffects]
    · have htake : made = body.take changes := by
        rw [hmade, heffects, List.take_append_of_le_length hpart]
      rw [htake]
      exact Or.inr ⟨hnone _, htaken _, hless _⟩

/-- A fresh process recovers the old or the new packets exactly when the stopped call kept the live
packets. -/
theorem recovers_iff (h : Represents N o s ps) (op : Op) (changes : ℕ) :
    RecoversOldOrNew N s (.interrupted op changes) ↔ StopKeepsLive N s op changes := by
  simp only [RecoversOldOrNew, StopKeepsLive]
  rcases h.stop_cases op changes with ⟨hwritten, hdisk⟩ | ⟨hnone, hmade, hfewer⟩
  -- everything was done: the fresh process finds the new store
  · obtain ⟨o', k, hnew⟩ := h.step op
    have hrecovered := hnew.recoveredPackets_eq rfl hnew.packets hnew.fileExists hnew.infoFile
    rw [← hdisk] at hrecovered
    exact iff_of_true (Or.inr (hrecovered.trans hnew.livePackets_eq.symm)) (Or.inl hwritten)
  -- the info file still has the old handler
  · have hinfo : (diskAtStop N s op changes).infoFile = some s.handler :=
      (infoFile_foldl _ _ fun e he => (hmade e he).2).trans h.infoFile
    have hrecovered : recoveredPackets N (diskAtStop N s op changes) =
        erasedPackets s (changesBeforeStop N s op changes) ps :=
      h.recoveredPackets_eq List.length_mapIdx (h.segment_erasedPackets hmade)
        (fun hne => isSome_packetFile_foldl _ _ (h.fileExists hne)) hinfo
    rw [hrecovered, h.livePackets_eq, or_iff_right hnone,
      ← h.erasedPackets_eq_iff hmade, or_iff_left_of_imp]
    intro hnew
    -- as many packets as before: no live packet was erased
    rw [h.erasedPackets_eq_iff hmade]
    intro i e hi hmem
    rw [h.tmNumber] at hi
    have hlen := congrArg List.length hnew
    rw [erasedPackets, List.length_mapIdx] at hlen
    exact absurd (hfewer ⟨i, e, hi, hmem⟩) (by omega)

/-- A stop that keeps the live packets keeps the representation. -/
theorem crash_step (h : Represents N o s ps) (op : Op) (changes : ℕ)
    (hkeeps : StopKeepsLive N s op changes) :
    ∃ o' ps', Represents N o' (initialStore N (diskAtStop N s op changes)) ps' := by
  rcases h.stop_cases op changes with ⟨-, hdisk⟩ | ⟨hnone, hmade, -⟩
  · obtain ⟨o', k, hnew⟩ := h.step op
    have hinit := (init_of_image N _ hnew.infoFile (show allGranted 0 = true from rfl)).2.1
    rw [hdisk, initialStore, hinit]
    exact ⟨o', _, hnew⟩
  · have hinfo : (diskAtStop N s op changes).infoFile = some s.handler :=
      (infoFile_foldl _ _ fun e he => (hmade e he).2).trans h.infoFile
    have hinit := (init_of_image N _ hinfo (show allGranted 0 = true from rfl)).2.1
    have hsame := (h.erasedPackets_eq_iff hmade).2 (hkeeps.resolve_left hnone)
    have hpackets := h.segment_erasedPackets hmade
    rw [hsame] at hpackets
    refine ⟨o, ps, ?_⟩
    rw [initialStore, hinit]
    exact
      { h with
        packets := hpackets
        fileExists := fun hne => isSome_packetFile_foldl _ _ (h.fileExists hne)
        infoFile := hinfo }

/-! ## Which stops keep the live packets -/

theorem stopKeepsLive_of_quiet {op : Op} (hquiet : (runOp N s allGranted op).2.effects = [])
    (changes : ℕ) : StopKeepsLive N s op changes := by
  refine Or.inr fun i e _ hmem => ?_
  rw [changesBeforeStop, hquiet, List.take_nil] at hmem
  exact absurd hmem List.not_mem_nil

/-- A store can stop anywhere: its packet goes outside the live slots. -/
theorem stopKeepsLive_store (h : Represents N o s ps) (dataPtr : ℕ → UInt8) (dataSize : UInt32)
    (storageTime : ℕ → UInt8) (changes : ℕ) :
    StopKeepsLive N s (.storeCallback dataPtr dataSize storageTime) changes := by
  rcases storeCallback_cases N dataPtr dataSize storageTime s allGranted h.infoFile_isSome with
    ⟨-, code, -, hcall⟩ | ⟨hacc, -, hcall⟩ | ⟨-, hclosed, -, hcall⟩ | ⟨-, -, hno, -⟩
  · refine stopKeepsLive_of_quiet ?_ changes
    simp only [runOp, hcall]
    rfl
  · refine Or.inr fun i e hi hmem => ?_
    rw [h.tmNumber] at hi
    have hroom : ps.length < N := h.tmNumber ▸ hacc.1
    have hdisjoint := h.position_disjoint hroom hi
    have hmem' := List.mem_of_mem_take hmem
    simp only [runOp, hcall] at hmem'
    have hsame : s.handler.position i = s.handler.writeTo := by
      rcases List.mem_cons.1 hmem' with heq | hinfo
      · exact (DiskEffect.writeElement.inj heq).1
      · cases List.mem_singleton.1 (show _ ∈ [DiskEffect.writeHandler _] from hinfo)
    rw [hsame, sizeofElement] at hdisjoint
    omega
  · -- a packet file is only created for an empty store
    refine Or.inr fun i e hi _ => ?_
    rw [h.tmNumber, h.eq_nil_of_closed hclosed] at hi
    exact absurd hi (Nat.not_lt_zero i)
  · exact Bool.noConfusion hno

/-- A stop among erasures at the positions `position i`, of which at most number `i` meets the
live packet number `i`. -/
theorem stopKeepsLive_erasures_iff (h : Represents N o s ps) {op : Op} {position : ℕ → ℤ} {n : ℕ}
    {hd : FileHandler}
    (heffects : (runOp N s allGranted op).2.effects =
      erasures position n ++ [.writeHandler hd])
    (hmeets : ∀ i j, i < ps.length → j < n → position j = s.handler.position i → j = i)
    (changes : ℕ) :
    StopKeepsLive N s op changes ↔
      n < changes ∨ ∀ i p, i < changes → ps[i]? = some p →
        s.handler.position i = position i → p = nullElement := by
  have hlength : (erasures position n).length = n := by simp [erasures]
  rcases Nat.lt_or_ge n changes with hlt | hle
  -- the write of the info file was made
  · have hall : changesBeforeStop N s op changes =
        erasures position n ++ [.writeHandler hd] := by
      rw [changesBeforeStop, heffects, List.take_of_length_le]
      rw [List.length_append, hlength]
      exact hlt
    refine iff_of_true (Or.inl ⟨hd, ?_⟩) (Or.inl hlt)
    rw [hall]
    simp
  · have hmade : changesBeforeStop N s op changes = erasures position changes := by
      rw [changesBeforeStop, heffects, List.take_append_of_le_length (by omega), erasures,
        erasures, ← List.map_take, List.take_range, Nat.min_eq_left hle]
    have hmem : ∀ e, e ∈ changesBeforeStop N s op changes ↔
        ∃ j, j < changes ∧ .writeElement (position j) nullElement = e := by
      intro e
      rw [hmade]
      simp [erasures]
    -- only erasures were made
    have hnone : ¬ ∃ h, .writeHandler h ∈ changesBeforeStop N s op changes := by
      rintro ⟨h', hwritten⟩
      obtain ⟨j, -, heq⟩ := (hmem _).1 hwritten
      cases heq
    rw [StopKeepsLive, or_iff_right hnone, or_iff_right (not_lt.2 hle), h.liveSlots_eq, h.tmNumber]
    constructor
    · intro hkeeps i p hi hp hpos
      obtain ⟨hi', rfl⟩ := List.getElem?_eq_some_iff.1 hp
      have hslot := hkeeps i nullElement hi' ((hmem _).2 ⟨i, hi, by rw [hpos]⟩)
      rw [List.getElem?_map, hp] at hslot
      exact Option.some_inj.1 (Option.some_inj.1 hslot)
    · intro hnull i e hi hwritten
      obtain ⟨j, hj, heq⟩ := (hmem _).1 hwritten
      obtain ⟨hpos, rfl⟩ := DiskEffect.writeElement.inj heq
      obtain rfl := hmeets i j hi (by omega) hpos
      rw [List.getElem?_map, List.getElem?_eq_getElem hi,
        hnull j _ hj (List.getElem?_eq_getElem hi) hpos.symm]
      rfl

/-- The erasures of a delete of everything meet the live packets before the wrap. -/
theorem straight_meets (h : Represents N o s ps) (i j : ℕ) (hi : i < ps.length)
    (heq : s.handler.oldestTmPosition + sizeofElement * (j : ℤ) = s.handler.position i) :
    j = i := by
  have hbound := h.bounded
  rw [h.position_eq, h.oldestTmPosition] at heq
  obtain ⟨-, haddr⟩ | ⟨-, haddr⟩ := h.addr_cases (show i < N by omega)
  all_goals
    rw [haddr, sizeofElement] at heq
    omega

/-- The live packets lie at different positions. -/
theorem position_meets (h : Represents N o s ps) (i j : ℕ) (hi : i < ps.length)
    (hj : j < ps.length) (heq : s.handler.position j = s.handler.position i) : j = i := by
  have hbound := h.bounded
  rw [h.position_eq, h.position_eq, Ring.addr_inj] at heq
  by_contra hne
  exact (slots N).mod_ne_of_lt hne (lt_of_lt_of_le hj hbound) (lt_of_lt_of_le hi hbound) heq

theorem stopKeepsLive_delete_iff (h : Represents N o s ps) (time : UInt32) (changes : ℕ) :
    StopKeepsLive N s (.deleteUpToTime time) changes ↔
      InterruptionHarmless s (.interrupted (.deleteUpToTime time) changes) := by
  rw [InterruptionHarmless, erasedCount, h.livePackets_eq]
  simp only [erasedPosition]
  rcases h.deleteUpToTime_cases allGranted time with
    ⟨hT, -, hcall⟩ | ⟨hT, -, -, hsome, stop, hstopdef, hstop, hcall⟩ | ⟨hno, code, n, -, hcall⟩
  · simp only [if_pos hT]
    have heffects := congrArg (fun call => call.2.effects) hcall
    exact h.stopKeepsLive_erasures_iff
      (show (runOp N s allGranted (.deleteUpToTime time)).2.effects = _ from heffects)
      (fun i j hi _ heq => h.straight_meets i j hi heq) changes
  · simp only [if_neg (UInt32.not_le.2 hT), if_pos hsome]
    rw [h.position_eq (_ - 1), ← hstopdef]
    have heffects := congrArg (fun call => call.2.effects) hcall
    have hiff := h.stopKeepsLive_erasures_iff
      (show (runOp N s allGranted (.deleteUpToTime time)).2.effects = _ from heffects)
      (fun i j hi hj heq => h.position_meets i j hi (hj.trans hstop) heq) changes
    simpa only [eq_self] using hiff
  · refine iff_of_true (stopKeepsLive_of_quiet (by simp only [runOp, hcall]; rfl) changes) ?_
    by_cases hfile : s.disk.packetFile.isSome = true
    · -- no packet is old enough
      have hnone : time < s.handler.newestTime ∧ ¬ ∃ p ∈ ps, p.coarseTime ≤ time := by
        by_contra hcontra
        refine hno ⟨hfile, fun hlt => ⟨rfl, ?_⟩⟩
        by_contra hex
        exact hcontra ⟨hlt, hex⟩
      rw [if_neg (UInt32.not_le.2 hnone.1), if_neg hnone.2]
      rcases Nat.eq_zero_or_pos changes with rfl | hpos
      · exact Or.inr fun i p hi => absurd hi (Nat.not_lt_zero i)
      · exact Or.inl hpos
    · -- no packet file
      have hnil : ps = [] := by
        by_contra hne
        exact hfile (h.fileExists hne)
      refine Or.inr fun i p _ hp => ?_
      rw [hnil] at hp
      simp at hp

/-- The stops that keep the live packets are the harmless ones. -/
theorem stopKeepsLive_iff (h : Represents N o s ps) (op : Op) (changes : ℕ) :
    StopKeepsLive N s op changes ↔ InterruptionHarmless s (.interrupted op changes) := by
  cases op with
  | storeCallback dataPtr dataSize storageTime =>
    exact iff_of_true (h.stopKeepsLive_store dataPtr dataSize storageTime changes) trivial
  | readElementsBetweenTwoDates elements maxElementToRead readNumber startTime endTime =>
    obtain ⟨n, hworld⟩ := readElements_world (s.begin allGranted) elements maxElementToRead
      readNumber startTime endTime
    exact iff_of_true
      (stopKeepsLive_of_quiet (by simp only [runOp, hworld]; rfl) changes) trivial
  | deleteUpToTime time => exact h.stopKeepsLive_delete_iff time changes
  | restart =>
    obtain ⟨-, -, heffects⟩ :=
      init_of_image N s.disk h.infoFile (show allGranted 0 = true from rfl)
    have hquiet : (runOp N s allGranted .restart).2.effects = [] := heffects
    exact iff_of_true (stopKeepsLive_of_quiet hquiet changes) trivial

end Represents

/-- In every run of complete and interrupted calls from an `init` without info file: after every
interruption the fresh process recovers the old or the new packets, if and only if every
interruption comes after the write of the info file or before a live packet was changed. -/
theorem recovery_iff (N : ℕ+) (hN : (N : ℕ) < 2 ^ 32) (d : Disk) (hd : d.infoFile = none)
    (ops : List CrashOp) :
    (crashSystem N).Guarded (RecoversOldOrNew N) (initialStore N d) ops ↔
      (crashSystem N).Guarded InterruptionHarmless (initialStore N d) ops := by
  apply (crashSystem N).guarded_iff (P := fun s => ∃ o ps, Represents N o s ps)
    (H := fun _ => True)
  · rintro s op ⟨o, ps, h⟩
    cases op with
    | complete op => exact Iff.rfl
    | interrupted op changes =>
      exact (h.recovers_iff op changes).trans (h.stopKeepsLive_iff op changes)
  · rintro s op ⟨o, ps, h⟩ - hharmless
    cases op with
    | complete op =>
      obtain ⟨o', k, hnew⟩ := h.step op
      exact ⟨o', _, hnew⟩
    | interrupted op changes =>
      exact h.crash_step op changes ((h.stopKeepsLive_iff op changes).2 hharmless)
  · exact ⟨0, [], represents_initialStore N hN hd⟩
  · exact fun _ _ => trivial

/-- A packet of zeros, a store that is stopped before its write of the info file, another packet and
a delete of both that is stopped after it erased the first one. -/
theorem recovery_iff_zero_packet :
    (crashSystem maxTmNumber).Guarded (RecoversOldOrNew maxTmNumber)
      (initialStore maxTmNumber ⟨none, none⟩)
      [.complete (.storeCallback (fun _ => 0) 0 fun _ => 0), .interrupted (storeAt 3) 1,
        .complete (storeAt 5), .interrupted (.deleteUpToTime 5) 1] := by
  refine (recovery_iff maxTmNumber (by decide) ⟨none, none⟩ rfl _).2
    ⟨trivial, trivial, trivial, Or.inr ?_, trivial⟩
  intro i p hi hp _
  obtain rfl := Nat.lt_one_iff.1 hi
  have hfirst : (livePackets ((crashSystem maxTmNumber).after
      (initialStore maxTmNumber ⟨none, none⟩)
        [.complete (.storeCallback (fun _ => 0) 0 fun _ => 0), .interrupted (storeAt 3) 1,
          .complete (storeAt 5)]))[0]? = some nullElement := by
    decide +kernel
  exact Option.some.inj (hp.symm.trans hfirst)

/-- A delete of two packets that is stopped after the first erasure: the fresh process reads a
packet of zeros and the second packet. -/
theorem delete_interrupted_mixes :
    ¬ RecoversOldOrNew maxTmNumber
      ((system maxTmNumber).after (initialStore maxTmNumber ⟨none, none⟩) [storeAt 1, storeAt 2])
      (.interrupted (.deleteUpToTime 2) 1) := by
  rintro (hold | hnew)
  · exact absurd hold (by decide +kernel)
  · exact absurd hnew (by decide +kernel)

end CComplete.PacketStoreSdcard
