import CComplete.Library.RecordFile
import CComplete.PacketStoreSdcard.Interruption
import CComplete.PacketStoreSdcard.Region

/-!
# The packet file is a file of whole elements

Every write to the packet file starts at a multiple of the element size, also those of a delete of
everything that runs past the last slot. So the file is always a list of whole elements, less than
two rounds of the ring, and each is a packet that some `store_callback` accepted or the null element
(`packet_file_records`). Every position that a range read starts from is such a multiple too: where
it counts wrong, it still delivers nothing but such elements, or leaves the caller's own
(`read_delivers_known`).
-/

set_option autoImplicit false

namespace CComplete.PacketStoreSdcard

open CComplete.Library

/-- The position is the start of an element of the file. -/
def OnGrid (position : ℤ) : Prop := ∃ m : ℕ, position = ((elementCodec.size * m : ℕ) : ℤ)

/-- A write of an element with `Q` at the start of one of the first `K` elements. -/
def DiskEffect.WritesRecord (K : ℕ) (Q : Element → Prop) : DiskEffect → Prop
  | .writeElement position x =>
      (∃ m, m < K ∧ position = ((elementCodec.size * m : ℕ) : ℤ)) ∧ Q x
  | _ => True

/-- The file consists of at most `K` whole elements with `Q`. -/
def WholeRecords (K : ℕ) (Q : Element → Prop) (f : Bytes) : Prop :=
  ∃ xs, f = elementCodec.file xs ∧ xs.length ≤ K ∧ ∀ x ∈ xs, Q x

variable {K : ℕ} {Q : Element → Prop}

theorem encode_nullElement :
    elementCodec.encode nullElement = List.replicate elementCodec.size 0 := by
  decide

theorem WholeRecords.mono {Q' : Element → Prop} {f : Bytes} (h : WholeRecords K Q f)
    (hQ : ∀ x, Q x → Q' x) : WholeRecords K Q' f := by
  obtain ⟨xs, hf, hlen, hxs⟩ := h
  exact ⟨xs, hf, hlen, fun x hx => hQ x (hxs x hx)⟩

/-- Writes of whole elements keep a file of whole elements. -/
theorem WholeRecords.foldl (hnull : Q nullElement) (es : List DiskEffect) :
    ∀ {d : Disk}, WholeRecords K Q d.packetBytes → (∀ e ∈ es, e.WritesRecord K Q) →
      WholeRecords K Q (es.foldl Disk.apply d).packetBytes := by
  induction es with
  | nil => exact fun h _ => h
  | cons e es ih =>
    intro d h hes
    refine ih ?_ fun e' he' => hes e' (List.mem_cons_of_mem e he')
    have he := hes e List.mem_cons_self
    cases e with
    | truncatePacketFile => exact ⟨[], rfl, Nat.zero_le _, fun x hx => absurd hx List.not_mem_nil⟩
    | writeHandler h' => exact h
    | writeElement position x =>
      obtain ⟨xs, hf, hlen, hxs⟩ := h
      obtain ⟨⟨m, hm, rfl⟩, hx⟩ := he
      refine ⟨putAt nullElement m x xs, ?_, ?_, fun y hy => ?_⟩
      · show elementCodec.writeAt d.packetBytes _ x = _
        rw [hf, elementCodec.writeAt_file encode_nullElement]
      · rw [length_putAt]
        exact max_le hlen hm
      · rcases mem_putAt hy with rfl | rfl | hy
        · exact hnull
        · exact hx
        · exact hxs y hy

/-- What a copy loop delivers from such a file is in it, or was in the buffer at that index. -/
theorem copyLoop_known {h : FileHandler} (hhead : h.head = 0) {f : Bytes}
    (hf : WholeRecords K Q f) {P : ℕ → Element → Prop} (hP : ∀ k x, Q x → P k x)
    (remaining : ℕ) :
    ∀ (i : ℕ) {browser : ℤ} {elements : ℕ → Element}, OnGrid browser →
      (∀ k, P k (elements k)) → ∀ k, P k (copyLoop h f remaining i browser elements k) := by
  obtain ⟨xs, rfl, -, hxs⟩ := hf
  induction remaining with
  | zero => exact fun _ _ _ _ helements => helements
  | succ remaining ih =>
    rintro i browser elements ⟨m, rfl⟩ helements
    refine ih (i + 1) ?_ fun k => ?_
    · -- the next element, or the head of the file
      rw [updateBrowserAscending]
      split
      · exact ⟨0, hhead⟩
      · refine ⟨m + 1, ?_⟩
        rw [Nat.mul_succ, Nat.cast_add]
        rfl
    · rw [elementCodec.readAt_file, List.getD_eq_getElem?_getD]
      rcases eq_or_ne k i with rfl | hki
      · rw [Function.update_self]
        rcases Nat.lt_or_ge m xs.length with hlt | hge
        · rw [List.getElem?_eq_getElem hlt]
          exact hP k _ (hxs _ (List.getElem_mem hlt))
        · rw [List.getElem?_eq_none hge]
          exact helements k
      · rw [Function.update_of_ne hki]
        exact helements k

/-! ## Range reads -/

/-- The start search reports a multiple of the element size. -/
theorem searchStartLoop_onGrid {h : FileHandler} (holdest : OnGrid h.oldestTmPosition) (f : Bytes)
    (startTime : UInt32) (remaining : ℕ) :
    ∀ (i : ℕ) (browser : ℤ) (tmpTime : UInt32) (position : ℤ),
      searchStartLoop h f startTime remaining i browser tmpTime = some position →
        OnGrid position := by
  induction remaining with
  | zero => exact fun _ _ _ _ hnone => by cases hnone
  | succ remaining ih =>
    intro i browser tmpTime position hfound
    rw [searchStartLoop] at hfound
    split at hfound
    · obtain ⟨m, hm⟩ := holdest
      obtain rfl := Option.some.inj hfound
      refine ⟨m + i, ?_⟩
      rw [hm, Nat.mul_add, Nat.cast_add, Nat.cast_mul elementCodec.size i, mul_comm (i : ℤ)]
      rfl
    · exact ih _ _ _ _ hfound

theorem searchForStartTime_onGrid {w : World} (holdest : OnGrid w.handler.oldestTmPosition)
    {startTime : UInt32} {position : ℤ} {w' : World}
    (hfound : searchForStartTimePositionInFile w startTime = (.ok position, w')) :
    OnGrid position := by
  simp only [searchForStartTimePositionInFile] at hfound
  split at hfound
  · split at hfound
    · next heq =>
      obtain rfl := Except.ok.inj (congrArg Prod.fst hfound)
      exact searchStartLoop_onGrid holdest _ _ _ _ _ _ _ heq
    · cases congrArg Prod.fst hfound
  · cases congrArg Prod.fst hfound

theorem copyRange_known {w : World} (hhead : w.handler.head = 0)
    (hf : WholeRecords K Q w.disk.packetBytes) {P : ℕ → Element → Prop}
    (hP : ∀ k x, Q x → P k x) {elements : ℕ → Element} (helements : ∀ k, P k (elements k))
    (maxElementToRead readNumber : ℕ) {startPos : ℤ} (hstart : OnGrid startPos) (k : ℕ) :
    P k ((copyRange w elements maxElementToRead readNumber startPos).1.elements k) := by
  simp only [copyRange]
  split
  · exact helements k
  · split
    · exact copyLoop_known hhead hf hP _ _ hstart helements k
    · exact helements k

/-- A range read delivers elements of the file, or leaves those of the caller. -/
theorem readElements_known {w : World} (hhead : w.handler.head = 0)
    (holdest : OnGrid w.handler.oldestTmPosition) (hf : WholeRecords K Q w.disk.packetBytes)
    {P : ℕ → Element → Prop} (hP : ∀ k x, Q x → P k x) {elements : ℕ → Element}
    (helements : ∀ k, P k (elements k)) (maxElementToRead readNumber : ℕ)
    (startTime endTime : UInt32) (k : ℕ) :
    P k ((readElementsBetweenTwoDates w elements maxElementToRead readNumber startTime
      endTime).1.elements k) := by
  -- the searches change neither the handler nor the disk
  have hcopy : ∀ (w' : World) (m : ℕ), w' = w.finish w.handler m [] → ∀ count startPos,
      OnGrid startPos →
        P k ((copyRange w' elements maxElementToRead count startPos).1.elements k) := by
    rintro w' m rfl count startPos hgrid
    exact copyRange_known (w := w.finish w.handler m []) hhead hf hP helements maxElementToRead
      count hgrid k
  have hstartWorld := searchForStartTime_world w startTime
  simp only [readElementsBetweenTwoDates]
  split
  -- from the oldest element on
  · split
    · split
      · exact helements k
      · split
        · exact copyLoop_known hhead hf hP _ _ holdest helements k
        · exact helements k
    · have hendWorld := searchForEndTime_world w endTime
      split
      · exact helements k
      · next heq =>
        rw [heq] at hendWorld
        exact hcopy _ 1 hendWorld _ _ holdest
  -- from the reported start on
  · split
    · exact helements k
    · next w' heq =>
      have hgrid := searchForStartTime_onGrid holdest heq
      rw [heq] at hstartWorld
      split
      · exact hcopy _ 1 hstartWorld _ _ hgrid
      · have hendWorld := searchForEndTime_world w' endTime
        rw [show w' = _ from hstartWorld, finish_finish] at hendWorld
        split
        · exact helements k
        · next heq' =>
          rw [show w' = _ from hstartWorld] at heq'
          rw [heq'] at hendWorld
          exact hcopy _ 2 hendWorld _ _ hgrid

/-! ## The elements of a run -/

/-- The null element, or one of the packets `accepted`. -/
def Known (accepted : List Element) (x : Element) : Prop := x = nullElement ∨ x ∈ accepted

namespace Represents

variable {N : ℕ+} {o : ℕ} {s : Store} {ps : List Element}

theorem slot_onGrid (N : ℕ+) (i : ℕ) :
    ∃ m, m < (N : ℕ) ∧ (slots N).addr i = ((elementCodec.size * m : ℕ) : ℤ) :=
  ⟨i % N, Nat.mod_lt _ N.pos, zero_add _⟩

theorem oldest_onGrid (h : Represents N o s ps) : OnGrid s.handler.oldestTmPosition := by
  obtain ⟨m, -, hm⟩ := slot_onGrid N o
  exact ⟨m, h.oldestTmPosition.trans hm⟩

/-- A store writes the packet that it accepts into one slot. -/
theorem writesRecord_store (h : Represents N o s ps) (dataPtr : ℕ → UInt8) (dataSize : UInt32)
    (storageTime : ℕ → UInt8) :
    let op := Op.storeCallback dataPtr dataSize storageTime
    ∀ e ∈ (runOp N s allGranted op).2.effects,
      e.WritesRecord (2 * N - 1)
        (Known (acceptedPacket (op, ((system N).step s op).2)).toList) := by
  intro op e he
  have hpos := N.pos
  have hreply : ((system N).step s op).2 = .code
      (storeCallback N (s.begin allGranted) dataPtr dataSize storageTime).1 := rfl
  have hrun : (runOp N s allGranted op).2 =
      (storeCallback N (s.begin allGranted) dataPtr dataSize storageTime).2 := rfl
  have hslot : ∃ m, m < 2 * (N : ℕ) - 1 ∧
      s.handler.writeTo = ((elementCodec.size * m : ℕ) : ℤ) := by
    obtain ⟨m, hm, haddr⟩ := slot_onGrid N (o + ps.length)
    exact ⟨m, by omega, h.writeTo.trans haddr⟩
  rw [hrun] at he
  rw [hreply]
  rcases storeCallback_cases N dataPtr dataSize storageTime s allGranted h.infoFile_isSome with
    ⟨-, code, -, hcall⟩ | ⟨-, -, hcall⟩ | ⟨-, -, -, hcall⟩ | ⟨-, -, hno, -⟩
  · rw [hcall] at he
    exact absurd he List.not_mem_nil
  · rw [hcall] at he ⊢
    rcases List.mem_cons.1 he with rfl | he
    · exact ⟨hslot, Or.inr (List.mem_singleton.2 rfl)⟩
    · obtain rfl := List.mem_singleton.1 he
      trivial
  · rw [hcall] at he ⊢
    rcases List.mem_cons.1 he with rfl | he
    · trivial
    · rcases List.mem_cons.1 he with rfl | he
      · exact ⟨hslot, Or.inr (List.mem_singleton.2 rfl)⟩
      · obtain rfl := List.mem_singleton.1 he
        trivial
  · exact Bool.noConfusion hno

/-- A delete writes null elements, from the oldest packet on for less than one round. -/
theorem writesRecord_delete (h : Represents N o s ps) (time : UInt32) (Q : Element → Prop)
    (hnull : Q nullElement) :
    ∀ e ∈ (runOp N s allGranted (.deleteUpToTime time)).2.effects,
      e.WritesRecord (2 * N - 1) Q := by
  have hpos := N.pos
  have hbound := h.bounded
  have holdest := h.oldest_lt
  have herasures : ∀ (position : ℕ → ℤ) (n : ℕ) (es : List DiskEffect),
      (∀ i, i < n → ∃ m, m < 2 * (N : ℕ) - 1 ∧ position i = ((elementCodec.size * m : ℕ) : ℤ)) →
        (∀ e ∈ es, ∃ hd, e = .writeHandler hd) →
          ∀ e ∈ erasures position n ++ es, e.WritesRecord (2 * N - 1) Q := by
    intro position n es hgrid hes e he
    rcases List.mem_append.1 he with he | he
    · obtain ⟨i, hi, rfl⟩ := List.mem_map.1 he
      exact ⟨hgrid i (List.mem_range.1 hi), hnull⟩
    · obtain ⟨hd, rfl⟩ := hes e he
      trivial
  have hinfo : ∀ hd, ∀ e ∈ infoUpdate true hd, ∃ hd', e = .writeHandler hd' := fun hd e he =>
    ⟨hd, List.mem_singleton.1 he⟩
  rw [runOp_deleteUpToTime]
  rcases h.deleteUpToTime_cases allGranted time with
    ⟨-, -, hcall⟩ | ⟨-, -, -, -, stop, -, hstop, hcall⟩ | ⟨-, code, n, -, hcall⟩
  · -- straight on from the oldest packet, past the last slot or not
    rw [hcall]
    refine herasures _ _ _ (fun i hi => ⟨o + i, ?_, ?_⟩) (hinfo _)
    · rw [h.tmNumber] at hi
      omega
    · have hstart : (slots N).addr o = sizeofElement * (o : ℤ) := by
        rw [(slots N).addr_of_lt holdest]
        exact zero_add _
      rw [h.oldestTmPosition, hstart, ← mul_add, Nat.cast_mul, Nat.cast_add]
      rfl
  · rw [hcall]
    refine herasures _ _ _ (fun i _ => ?_) (hinfo _)
    obtain ⟨m, hm, haddr⟩ := slot_onGrid N (o + i)
    exact ⟨m, by omega, (h.position_eq i).trans haddr⟩
  · rw [hcall]
    exact fun e he => absurd he List.not_mem_nil

/-- The changes of a call write whole elements, null or the packet that it accepts. -/
theorem writesRecord (h : Represents N o s ps) (op : Op) :
    ∀ e ∈ (runOp N s allGranted op).2.effects,
      e.WritesRecord (2 * N - 1)
        (Known (acceptedPacket (op, ((system N).step s op).2)).toList) := by
  cases op with
  | storeCallback dataPtr dataSize storageTime =>
    exact h.writesRecord_store dataPtr dataSize storageTime
  | readElementsBetweenTwoDates elements maxElementToRead readNumber startTime endTime =>
    obtain ⟨n, hworld⟩ := readElements_world (s.begin allGranted) elements maxElementToRead
      readNumber startTime endTime
    simp only [runOp, hworld]
    exact fun e he => absurd he List.not_mem_nil
  | deleteUpToTime time => exact h.writesRecord_delete time _ (Or.inl rfl)
  | restart =>
    obtain ⟨-, -, heffects⟩ :=
      init_of_image N s.disk h.infoFile (show allGranted 0 = true from rfl)
    intro e he
    exact absurd (heffects ▸ he) List.not_mem_nil

/-- A step keeps the file a list of null elements and accepted packets. -/
theorem step_wholeRecords (h : Represents N o s ps) (op : Op) {accepted : List Element}
    (hf : WholeRecords (2 * N - 1) (Known accepted) s.disk.packetBytes) :
    WholeRecords (2 * N - 1)
      (Known (accepted ++ (acceptedPacket (op, ((system N).step s op).2)).toList))
      ((system N).step s op).1.disk.packetBytes := by
  obtain ⟨hdisk, -⟩ := h.writesInfoLast op
  have hstep : ((system N).step s op).1.disk = (runOp N s allGranted op).2.disk := rfl
  rw [hstep, hdisk]
  refine WholeRecords.foldl (Or.inl rfl) _ (hf.mono ?_) fun e he => ?_
  · exact fun x hx => hx.imp_right (List.mem_append_left _)
  · have hwrites := h.writesRecord op e he
    cases e with
    | truncatePacketFile => trivial
    | writeHandler hd => trivial
    | writeElement position x =>
      exact ⟨hwrites.1, hwrites.2.imp_right (List.mem_append_right _)⟩

end Represents

/-- After every run from an `init` without files, the file is a list of null elements and accepted
packets. -/
theorem wholeRecords_after (N : ℕ+) (hN : (N : ℕ) < 2 ^ 32) (ops : List Op) :
    let s₀ := initialStore N ⟨none, none⟩
    (∃ o ps, Represents N o ((system N).after s₀ ops) ps) ∧
      WholeRecords (2 * N - 1) (Known (((system N).trace s₀ ops).filterMap acceptedPacket))
        ((system N).after s₀ ops).disk.packetBytes := by
  intro s₀
  apply (system N).run_induction (P := fun s t => (∃ o ps, Represents N o s ps) ∧
    WholeRecords (2 * N - 1) (Known (t.filterMap acceptedPacket)) s.disk.packetBytes)
  · exact ⟨⟨0, [], represents_initialStore N hN rfl⟩, [], rfl, Nat.zero_le _,
      fun x hx => absurd hx List.not_mem_nil⟩
  · rintro s t op ⟨⟨o, ps, h⟩, hf⟩
    obtain ⟨o', k, hnext⟩ := h.step op
    refine ⟨⟨o', _, hnext⟩, ?_⟩
    rw [Machine.filterMap_snoc]
    exact h.step_wholeRecords op hf

end CComplete.PacketStoreSdcard
