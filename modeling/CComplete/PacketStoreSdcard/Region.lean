import CComplete.PacketStoreSdcard.Invariant

/-!
# The region of the packet file, and what a delete erases

A store writes in the slot at `write_to`, and a partial delete walks along the ring. The delete of
everything seeks once and then writes on: with packets past the wrap it runs over the end of the
ring and leaves these packets as they are. A run therefore stays in the region of the ring and
erases what it deletes exactly when no delete of everything is called with a packet past the wrap
(`region_and_erasure_iff`).
-/

set_option autoImplicit false

namespace CComplete.PacketStoreSdcard

open CComplete.Library

/-- A write to the packet file lies in `[head, tail + element size)`. -/
def DiskEffect.InRegion (h : FileHandler) : DiskEffect → Prop
  | .writeElement position _ =>
      h.head ≤ position ∧ position + sizeofElement ≤ h.tail + sizeofElement
  | _ => True

/-- The slot number `i` of the store `s` holds a live packet, and it is none of the slots that are
live in `s'`. -/
def Deleted (s s' : Store) (i : ℕ) : Prop :=
  i < s.handler.tmNumber ∧
    ∀ j, j < s'.handler.tmNumber → s'.handler.position j ≠ s.handler.position i

/-- A step writes to the packet file in the region only, the file has at most `N` elements after it,
and after a delete with code 0 all slots of the deleted packets are zero. -/
def SafeStep (N : ℕ) (s : Store) (op : Op) : Prop :=
  let r := runOp N s allGranted op
  (∀ e ∈ r.2.effects, e.InRegion s.handler) ∧
    r.2.disk.packetBytes.length ≤ N * elementCodec.size ∧
      ∀ time, op = .deleteUpToTime time → r.1 = .code 0 → ∀ i, Deleted s r.2.toStore i →
        pread r.2.disk.packetBytes (s.handler.position i).toNat elementCodec.size =
          List.replicate elementCodec.size 0

/-- A delete of everything finds no live packet at a position below the oldest one. -/
def ErasesBeforeWrap (s : Store) : Op → Prop
  | .deleteUpToTime time => s.handler.newestTime ≤ time →
      ∀ i, i < s.handler.tmNumber → s.handler.oldestTmPosition ≤ s.handler.position i
  | _ => True

/-! ## Erased slots -/

/-- Null elements at positions that do not overlap are all in the file. -/
theorem holds_erasures (d : Disk) (position : ℕ → ℤ) (n : ℕ) (hnonneg : ∀ i, i < n → 0 ≤ position i)
    (hdisjoint : ∀ i j, i < n → j < n → i ≠ j →
      position i + sizeofElement ≤ position j ∨ position j + sizeofElement ≤ position i) {i : ℕ}
    (hi : i < n) :
    elementCodec.Holds ((erasures position n).foldl Disk.apply d).packetBytes (position i)
      nullElement := by
  induction n with
  | zero => exact absurd hi (Nat.not_lt_zero i)
  | succ n ih =>
    have hsnoc : erasures position (n + 1) =
        erasures position n ++ [.writeElement (position n) nullElement] := by
      rw [erasures, List.range_succ, List.map_append]
      rfl
    rw [hsnoc, List.foldl_append]
    rcases Nat.lt_or_eq_of_le (Nat.le_of_lt_succ hi) with hlt | rfl
    · -- written before, and the last write does not overlap it
      have hbefore := ih (fun j hj => hnonneg j (Nat.lt_succ_of_lt hj))
        (fun j k hj hk => hdisjoint j k (Nat.lt_succ_of_lt hj) (Nat.lt_succ_of_lt hk)) hlt
      exact hbefore.writeAt_of_disjoint (hnonneg i hi) (hnonneg n (Nat.lt_succ_self n))
        (hdisjoint i n hi (Nat.lt_succ_self n) hlt.ne) nullElement
    · exact Codec.holds_writeAt _ _ _

theorem pread_of_holds_null {f : Bytes} {a : ℤ} (h : elementCodec.Holds f a nullElement) :
    pread f a.toNat elementCodec.size = List.replicate elementCodec.size 0 := by
  rw [h]
  decide

theorem runOp_deleteUpToTime (N : ℕ) (s : Store) (time : UInt32) :
    (runOp N s allGranted (.deleteUpToTime time)).2 =
      (deleteUpToTime (s.begin allGranted) time).2 := rfl

namespace Represents

variable {N : ℕ+} {o : ℕ} {s : Store} {ps : List Element}

/-! ## The region -/

theorem inRegion_addr (h : Represents N o s ps) (i : ℕ) (e : Element) :
    (DiskEffect.writeElement ((slots N).addr i) e).InRegion s.handler := by
  refine ⟨?_, ?_⟩
  · rw [h.head]
    exact (slots N).base_le_addr i
  · rw [h.tail]
    exact Int.add_le_add_right ((slots N).addr_le_last i) _

/-- Writes in the region do not let the file grow beyond `N` elements. -/
theorem length_foldl (h : Represents N o s ps) (es : List DiskEffect) :
    ∀ d : Disk, (∀ e ∈ es, e.InRegion s.handler) → d.packetBytes.length ≤ N * elementCodec.size →
      (es.foldl Disk.apply d).packetBytes.length ≤ N * elementCodec.size := by
  have htail := h.tail_eq
  induction es with
  | nil => exact fun d _ hd => hd
  | cons e es ih =>
    intro d hes hd
    obtain ⟨he, hrest⟩ := List.forall_mem_cons.1 hes
    refine ih (d.apply e) hrest ?_
    cases e with
    | truncatePacketFile => exact Nat.zero_le _
    | writeElement p x =>
      have hsize : elementCodec.size = 18 := rfl
      obtain ⟨hhead, hend⟩ := he
      rw [h.head] at hhead
      rw [htail, sizeofElement] at hend
      show (pwrite d.packetBytes p.toNat (elementCodec.encode x)).length ≤ _
      rw [length_pwrite _ _ (Codec.encode_ne_nil _ x), elementCodec.length_encode, hsize]
      rw [hsize] at hd
      omega
    | writeHandler _ => exact hd

/-- A step that is no delete is safe if its changes are in the region. -/
theorem safeStep_of_effects (h : Represents N o s ps)
    (hlength : s.disk.packetBytes.length ≤ N * elementCodec.size) {op : Op}
    (hop : ∀ time, op ≠ .deleteUpToTime time) (es : List DiskEffect)
    (heffects : (runOp N s allGranted op).2.effects = es)
    (hdisk : (runOp N s allGranted op).2.disk = es.foldl Disk.apply s.disk)
    (hes : ∀ e ∈ es, e.InRegion s.handler) : SafeStep N s op := by
  refine ⟨?_, ?_, fun time htime => absurd htime (hop time)⟩
  · rw [heffects]
    exact hes
  · rw [hdisk]
    exact h.length_foldl es s.disk hes hlength

/-! ## One step -/

theorem safeStep_storeCallback (h : Represents N o s ps)
    (hlength : s.disk.packetBytes.length ≤ N * elementCodec.size) (dataPtr : ℕ → UInt8)
    (dataSize : UInt32) (storageTime : ℕ → UInt8) :
    SafeStep N s (.storeCallback dataPtr dataSize storageTime) := by
  have hwrite := h.inRegion_addr (o + ps.length) (elementToWrite dataPtr dataSize storageTime)
  rw [← h.writeTo] at hwrite
  have hworld : ∃ h' n es, (storeCallback N (s.begin allGranted) dataPtr dataSize storageTime).2 =
      (s.begin allGranted).finish h' n es ∧ ∀ e ∈ es, e.InRegion s.handler := by
    rcases storeCallback_cases N dataPtr dataSize storageTime s allGranted h.infoFile_isSome with
      ⟨-, code, -, hcall⟩ | ⟨-, -, hcall⟩ | ⟨-, -, -, hcall⟩ | ⟨-, -, -, hcall⟩
    -- refused, written, written to a new file, no file opened
    · exact ⟨_, _, [], congrArg Prod.snd hcall, fun e he => absurd he List.not_mem_nil⟩
    · refine ⟨_, _, _, congrArg Prod.snd hcall, ?_⟩
      exact List.forall_mem_cons.2 ⟨hwrite, List.forall_mem_singleton.2 trivial⟩
    · refine ⟨_, _, _, congrArg Prod.snd hcall, ?_⟩
      exact List.forall_mem_cons.2
        ⟨trivial, List.forall_mem_cons.2 ⟨hwrite, List.forall_mem_singleton.2 trivial⟩⟩
    · exact ⟨_, _, [], congrArg Prod.snd hcall, fun e he => absurd he List.not_mem_nil⟩
  obtain ⟨h', n, es, hcall, hes⟩ := hworld
  have hrun : (runOp N s allGranted (.storeCallback dataPtr dataSize storageTime)).2 = _ := hcall
  refine h.safeStep_of_effects hlength (fun time hno => by cases hno) es ?_ ?_ hes
  · rw [hrun]
    rfl
  · rw [hrun]
    rfl

theorem safeStep_readElements (h : Represents N o s ps)
    (hlength : s.disk.packetBytes.length ≤ N * elementCodec.size) (elements : ℕ → Element)
    (maxElementToRead readNumber : ℕ) (startTime endTime : UInt32) :
    SafeStep N s
      (.readElementsBetweenTwoDates elements maxElementToRead readNumber startTime endTime) := by
  obtain ⟨n, hworld⟩ := readElements_world (s.begin allGranted) elements maxElementToRead
    readNumber startTime endTime
  have hrun : (runOp N s allGranted (.readElementsBetweenTwoDates elements maxElementToRead
      readNumber startTime endTime)).2 = _ := hworld
  refine h.safeStep_of_effects hlength (fun time hno => by cases hno) [] ?_ ?_
    fun e he => absurd he List.not_mem_nil
  · rw [hrun]
    rfl
  · rw [hrun]
    rfl

theorem safeStep_restart (h : Represents N o s ps)
    (hlength : s.disk.packetBytes.length ≤ N * elementCodec.size) : SafeStep N s .restart := by
  obtain ⟨-, hstore, heffects⟩ := init_of_image N s.disk h.infoFile
    (show allGranted 0 = true from rfl)
  exact h.safeStep_of_effects hlength (fun time hno => by cases hno) [] heffects
    (congrArg Store.disk hstore) fun e he => absurd he List.not_mem_nil

/-- The packets end before the wrap if none of them lies at a position below the oldest one. -/
theorem forall_position_iff (h : Represents N o s ps) :
    (∀ i, i < s.handler.tmNumber → s.handler.oldestTmPosition ≤ s.handler.position i) ↔
      o + ps.length ≤ N := by
  have holdest := h.oldest_lt
  have hbound := h.bounded
  rw [h.tmNumber]
  constructor
  · intro hall
    by_contra hwrapped
    have hi : (N : ℕ) - o < ps.length := by omega
    have := (h.oldest_le_position_iff hi).1 (hall _ hi)
    omega
  · intro hflat i hi
    exact (h.oldest_le_position_iff hi).2 (by omega)

/-- The slot number `i` on the way of the delete of everything is slot number `i` of the ring, up to
the wrap. -/
theorem sequential_eq (h : Represents N o s ps) {i : ℕ} (hi : o + i < N) :
    s.handler.oldestTmPosition + sizeofElement * (i : ℤ) = (slots N).addr (o + i) := by
  rw [h.oldestTmPosition, (slots N).addr_of_lt h.oldest_lt, (slots N).addr_of_lt hi]
  show 0 + sizeofElement * (o : ℤ) + sizeofElement * (i : ℤ) =
    0 + sizeofElement * ((o + i : ℕ) : ℤ)
  push_cast
  ring

/-- A delete that erases slots of the ring, among them those of all packets it deletes, is safe. -/
theorem safeStep_of_erasures (h : Represents N o s ps)
    (hlength : s.disk.packetBytes.length ≤ N * elementCodec.size) {time : UInt32}
    {handler : FileHandler} {opened : Bool} {position : ℕ → ℤ} {n k : ℕ}
    (hcall : deleteUpToTime (s.begin allGranted) time =
      (0, (s.begin allGranted).finish handler k (erasures position n ++ infoUpdate opened handler)))
    (hring : ∀ i, i < n → ∃ j, position i = (slots N).addr j)
    (hdisjoint : ∀ i j, i < n → j < n → i ≠ j →
      position i + sizeofElement ≤ position j ∨ position j + sizeofElement ≤ position i)
    (herased : ∀ i, i < s.handler.tmNumber →
      (∀ j, j < handler.tmNumber → handler.position j ≠ s.handler.position i) →
        i < n ∧ position i = s.handler.position i) : SafeStep N s (.deleteUpToTime time) := by
  have hrun := runOp_deleteUpToTime N s time
  rw [hcall] at hrun
  have hes : ∀ e ∈ erasures position n ++ infoUpdate opened handler, e.InRegion s.handler := by
    intro e he
    rcases List.mem_append.1 he with he | he
    · obtain ⟨i, hi, rfl⟩ := List.mem_map.1 he
      obtain ⟨j, hj⟩ := hring i (List.mem_range.1 hi)
      rw [hj]
      exact h.inRegion_addr j nullElement
    · cases opened with
      | true =>
        obtain rfl := List.mem_singleton.1 he
        exact trivial
      | false => exact absurd he List.not_mem_nil
  have hnonneg : ∀ i, i < n → 0 ≤ position i := by
    intro i hi
    obtain ⟨j, hj⟩ := hring i hi
    rw [hj]
    exact (slots N).base_le_addr j
  rw [SafeStep]
  simp only [hrun, finish_effects, finish_disk]
  refine ⟨hes, h.length_foldl _ _ hes hlength, fun _ _ _ i hdeleted => ?_⟩
  obtain ⟨hi, hposition⟩ := herased i hdeleted.1 hdeleted.2
  rw [List.foldl_append, packetBytes_infoUpdate, ← hposition]
  exact pread_of_holds_null (holds_erasures s.disk position n hnonneg hdisjoint hi)

/-- With a packet past the wrap the delete of everything writes just after the last slot. -/
theorem not_inRegion_of_wrapped (h : Represents N o s ps) :
    ¬ (DiskEffect.writeElement
      (s.handler.oldestTmPosition + sizeofElement * (((N : ℕ) - o : ℕ) : ℤ))
        nullElement).InRegion s.handler := by
  rintro ⟨-, hend⟩
  have holdest := h.oldest_lt
  have hstart : (slots N).addr o = sizeofElement * (o : ℤ) := by
    rw [(slots N).addr_of_lt h.oldest_lt]
    exact zero_add _
  rw [h.tail_eq, h.oldestTmPosition, hstart, sizeofElement] at hend
  omega

/-- The delete of everything is safe exactly when the packets end before the wrap. -/
theorem safeStep_deleteAll (h : Represents N o s ps)
    (hlength : s.disk.packetBytes.length ≤ N * elementCodec.size) {time : UInt32}
    (hcall : deleteUpToTime (s.begin allGranted) time =
      (0, (s.begin allGranted).finish s.handler.cleared 2
        (erasures (fun i => s.handler.oldestTmPosition + sizeofElement * (i : ℤ))
            s.handler.tmNumber ++
          infoUpdate (allGranted 1) s.handler.cleared))) :
    SafeStep N s (.deleteUpToTime time) ↔ o + ps.length ≤ N := by
  rcases Nat.lt_or_ge (N : ℕ) (o + ps.length) with hwrapped | hflat
  · refine iff_of_false (fun hsafe => ?_) (by omega)
    have hrun := runOp_deleteUpToTime N s time
    rw [hcall] at hrun
    have holdest := h.oldest_lt
    have hbound := h.bounded
    have hmem : DiskEffect.writeElement
        (s.handler.oldestTmPosition + sizeofElement * (((N : ℕ) - o : ℕ) : ℤ)) nullElement ∈
          (runOp N s allGranted (.deleteUpToTime time)).2.effects := by
      rw [hrun]
      refine List.mem_append_right _ (List.mem_append_left _ (List.mem_map.2 ⟨_, ?_, rfl⟩))
      rw [List.mem_range, h.tmNumber]
      omega
    exact h.not_inRegion_of_wrapped (hsafe.1 _ hmem)
  · refine iff_of_true (h.safeStep_of_erasures hlength hcall ?_ ?_ ?_) hflat
    · intro i hi
      rw [h.tmNumber] at hi
      exact ⟨o + i, h.sequential_eq (by omega)⟩
    · intro i j _ _ hij
      simp only [sizeofElement]
      omega
    · intro i hi _
      refine ⟨hi, ?_⟩
      rw [h.tmNumber] at hi
      rw [h.sequential_eq (by omega), h.position_eq]

/-- A partial delete erases along the ring. -/
theorem safeStep_deletePart (h : Represents N o s ps)
    (hlength : s.disk.packetBytes.length ≤ N * elementCodec.size) {time : UInt32} {stop n : ℕ}
    (hstop : stop < ps.length) {oldestTime : UInt32}
    (hcall : deleteUpToTime (s.begin allGranted) time =
      (0, (s.begin allGranted).finish (s.handler.trimmed stop oldestTime) n
        (erasures s.handler.position stop ++
          infoUpdate (allGranted 2) (s.handler.trimmed stop oldestTime)))) :
    SafeStep N s (.deleteUpToTime time) := by
  have hbound := h.bounded
  apply h.safeStep_of_erasures hlength hcall
  · exact fun i _ => ⟨o + i, h.position_eq i⟩
  · intro i j hi hj hij
    rw [h.position_eq, h.position_eq]
    have hi' : i < (N : ℕ) := by omega
    have hj' : j < (N : ℕ) := by omega
    exact (slots N).addr_add_disjoint o hij hi' hj'
  · intro i hi hdeleted
    -- a slot from number `stop` on is still live
    refine ⟨?_, rfl⟩
    by_contra hge
    have hlive : i - stop < (s.handler.trimmed stop oldestTime).tmNumber := by
      rw [trimmed_tmNumber h.tmNumber_lt (h.tmNumber ▸ hstop.le)]
      omega
    refine hdeleted (i - stop) hlive ?_
    show (updateBrowserAscending s.handler)^[i - stop] ((updateBrowserAscending s.handler)^[stop] _)
      = (updateBrowserAscending s.handler)^[i] _
    rw [← Function.iterate_add_apply, Nat.sub_add_cancel (not_lt.1 hge)]

/-- In a store whose file has at most `N` elements, a step is safe exactly when it is no delete of
everything with a packet past the wrap. -/
theorem safeStep_iff (h : Represents N o s ps)
    (hlength : s.disk.packetBytes.length ≤ N * elementCodec.size) (op : Op) :
    SafeStep N s op ↔ ErasesBeforeWrap s op := by
  cases op with
  | storeCallback dataPtr dataSize storageTime =>
    exact iff_of_true (h.safeStep_storeCallback hlength dataPtr dataSize storageTime) trivial
  | readElementsBetweenTwoDates elements maxElementToRead readNumber startTime endTime =>
    exact iff_of_true
      (h.safeStep_readElements hlength elements maxElementToRead readNumber startTime endTime)
      trivial
  | restart => exact iff_of_true (h.safeStep_restart hlength) trivial
  | deleteUpToTime time =>
    rcases h.deleteUpToTime_cases allGranted time with
      ⟨hall, -, hcall⟩ | ⟨hpart, -, -, -, stop, -, hstop, hcall⟩ | ⟨hnone, code, n, hcode, hcall⟩
    · rw [h.safeStep_deleteAll hlength hcall, ← h.forall_position_iff]
      exact ⟨fun hflat _ => hflat, fun hflat => hflat hall⟩
    · refine iff_of_true (h.safeStep_deletePart hlength hstop hcall) fun hall => ?_
      exact absurd hpart (UInt32.not_lt.2 hall)
    · -- nothing is written; without a packet file there is no packet
      have hrun := runOp_deleteUpToTime N s time
      rw [hcall] at hrun
      have hreply : (runOp N s allGranted (.deleteUpToTime time)).1 = .code code :=
        congrArg Reply.code (congrArg Prod.fst hcall)
      refine iff_of_true ⟨?_, ?_, fun _ _ hzero => ?_⟩ fun hall i hi => ?_
      · rw [hrun]
        exact fun e he => absurd he List.not_mem_nil
      · rw [hrun]
        exact hlength
      · rw [hreply] at hzero
        exact absurd (Reply.code.inj hzero) hcode
      · have hne : ps ≠ [] := List.ne_nil_of_length_pos (by rw [← h.tmNumber]; omega)
        exact absurd ⟨h.fileExists hne, fun hlt => absurd hlt (UInt32.not_lt.2 hall)⟩ hnone

end Represents

/-- On every run of stores, reads, deletes and restarts from an `init` without files: every write to
the packet file stays in `[head, tail + element size)`, the file never has more than `N` elements
and every delete with code 0 leaves the slots of the packets it deleted all zero, if and only if no
delete of everything is called when a live packet lies at a position below the oldest one. -/
theorem region_and_erasure_iff (N : ℕ+) (hN : (N : ℕ) < 2 ^ 32) (ops : List Op) :
    (system N).Guarded (SafeStep N) (initialStore N ⟨none, none⟩) ops ↔
      (system N).Guarded ErasesBeforeWrap (initialStore N ⟨none, none⟩) ops := by
  refine (system N).guarded_iff
    (P := fun s => (∃ o ps, Represents N o s ps) ∧
      s.disk.packetBytes.length ≤ N * elementCodec.size) (H := fun _ => True) ?_ ?_
    (initialStore N ⟨none, none⟩) ⟨⟨0, [], represents_initialStore N hN rfl⟩, Nat.zero_le _⟩ ops
    fun _ _ => trivial
  · rintro s op ⟨⟨o, ps, h⟩, hlength⟩
    exact h.safeStep_iff hlength op
  · rintro s op ⟨⟨o, ps, h⟩, hlength⟩ - hflat
    obtain ⟨o', k, hnext⟩ := h.step op
    exact ⟨⟨o', _, hnext⟩, ((h.safeStep_iff hlength op).2 hflat).2.1⟩

/-- A delete of two packets before any wrap. -/
theorem region_and_erasure_iff_flat :
    (system maxTmNumber).Guarded (SafeStep maxTmNumber) (initialStore maxTmNumber ⟨none, none⟩)
      [storeAt 1, storeAt 2, .deleteUpToTime 2] := by
  refine (region_and_erasure_iff maxTmNumber (by decide) _).2
    ⟨trivial, trivial, fun _ => ?_, trivial⟩
  decide +kernel

/-- Packets of times 4 to 7 in the slots from 3 on: the delete of everything writes after the last
slot. -/
theorem delete_all_leaves_region :
    ¬ (system maxTmNumber).Guarded (SafeStep maxTmNumber)
      (initialStore maxTmNumber ⟨none, none⟩)
      [storeAt 1, storeAt 2, storeAt 3, storeAt 4, .deleteUpToTime 3, storeAt 5, storeAt 6,
        storeAt 7, .deleteUpToTime 7] := by
  rintro ⟨-, -, -, -, -, -, -, -, ⟨-, hlength, -⟩, -⟩
  exact absurd hlength (by decide +kernel)

end CComplete.PacketStoreSdcard
