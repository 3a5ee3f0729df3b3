import CComplete.Library.TornWrite
import CComplete.PacketStoreSdcard.InfoFile

/-!
# Writes that stop in the middle

A call that stops after some number of bytes leaves one of its `fwrite` calls half done: in the
packet file part of an element, in the info file the beginning of the new image and the rest of the
old one, which a fresh process takes for a handler. The module has the disk at such a stop, slot by
slot, and the handler that is read from it.
-/

set_option autoImplicit false

namespace CComplete.PacketStoreSdcard

open CComplete.Library

/-! ## Stops after any number of bytes -/

/-- Number of bytes that a change writes. -/
def DiskEffect.size : DiskEffect → ℕ
  | .truncatePacketFile => 0
  | .writeElement _ _ => elementCodec.size
  | .writeHandler _ => handlerSize

/-- The disk after the first `written` bytes of a change. -/
def ByteDisk.applyTorn (d : ByteDisk) (written : ℕ) : DiskEffect → ByteDisk
  | .truncatePacketFile => { d with packetFile := some [] }
  | .writeElement position element =>
      { d with
        packetFile := some (pwrite (d.packetFile.getD []) position.toNat
          ((elementCodec.encode element).take written)) }
  | .writeHandler handler =>
      { d with infoFile := some (pwrite (d.infoFile.getD []) 0 (handler.image.take written)) }

/-- The disk after the first `written` bytes of the changes. -/
def ByteDisk.applyBytes (d : ByteDisk) : ℕ → List DiskEffect → ByteDisk
  | _, [] => d
  | written, e :: es =>
      if e.size ≤ written then applyBytes (d.apply e) (written - e.size) es
      else d.applyTorn written e

/-- The disk left behind by a call that stops after it wrote `written` bytes. -/
def ByteStore.diskAtByte (N : ℕ) (b : ByteStore) (op : Op) (written : ℕ) : ByteDisk :=
  b.disk.applyBytes written (runOp N (b.view N) allGranted op).2.effects

/-- A complete call, or one during which the process stops after `written` bytes, followed by a
fresh process. -/
inductive TornOp where
  | complete (op : Op)
  | stopped (op : Op) (written : ℕ)

/-- The store on bytes with stops. -/
def tornSystem (N : ℕ) : Machine ByteStore TornOp (Option Reply) where
  step
    | b, .complete op => (((byteSystem N).step b op).1, some ((byteSystem N).step b op).2)
    | b, .stopped op written => (initialByteStore N (b.diskAtByte N op written), none)

/-- After a stop the fresh process is in a regular state with the packets that were live before the
call, or with those live after the complete call. -/
def RecoversRegular (N : ℕ+) (b : ByteStore) : TornOp → Prop
  | .complete _ => True
  | .stopped op written =>
      ∃ o ps, Represents N o ((initialByteStore N (b.diskAtByte N op written)).view N) ps ∧
        (ps = livePackets (b.view N) ∨ ps = livePackets ((system N).step (b.view N) op).1)

/-! ## Which stops do no harm -/

/-- Number of elements that a call writes before it writes the info file, if it does. -/
def elementWrites (s : Store) : Op → ℕ
  | .storeCallback _ _ _ => 1
  | .deleteUpToTime time => erasedCount s time
  | _ => 0

/-- The zeros of a delete that stops after `written` bytes were there before, where they are in a
live packet. -/
def ErasuresHarmless (s : Store) (written : ℕ) : Op → Prop
  | .deleteUpToTime time =>
      ∀ i p, (livePackets s)[i]? = some p → i < erasedCount s time →
        s.handler.position i = erasedPosition s time i →
        (elementCodec.encode nullElement).take (written - elementCodec.size * i) =
          (elementCodec.encode p).take (written - elementCodec.size * i)
  | _ => True

/-- No live packet is changed and the bytes written to the info file are those that were there, or
those not yet written are. -/
def StopHarmless (N : ℕ) (b : ByteStore) : TornOp → Prop
  | .complete _ => True
  | .stopped op written =>
      let s := b.view N
      let before := elementCodec.size * elementWrites s op
      let old := s.handler.image
      let new := ((system N).step s op).1.handler.image
      (ErasuresHarmless s written op ∧ new.take (written - before) = old.take (written - before)) ∨
        (before ≤ written ∧ old.drop (written - before) = new.drop (written - before))

/-! ## The disk at a stop -/

/-- Number of bytes that the changes write. -/
def bytesOf (es : List DiskEffect) : ℕ := (es.map DiskEffect.size).sum

theorem bytesOf_erasures (position : ℕ → ℤ) (n : ℕ) :
    bytesOf (erasures position n) = elementCodec.size * n := by
  simp [bytesOf, erasures, Function.comp_def, DiskEffect.size, Nat.mul_comm]

/-- A stop among the first changes. -/
theorem applyBytes_append_of_lt (es es' : List DiskEffect) :
    ∀ (d : ByteDisk) {written : ℕ}, written < bytesOf es →
      d.applyBytes written (es ++ es') = d.applyBytes written es := by
  induction es with
  | nil => exact fun d written hlt => absurd hlt (Nat.not_lt_zero written)
  | cons e es ih =>
    intro d written hlt
    rw [bytesOf, List.map_cons, List.sum_cons] at hlt
    rw [List.cons_append, ByteDisk.applyBytes, ByteDisk.applyBytes]
    split
    · exact ih _ (by rw [bytesOf]; omega)
    · rfl

/-- A stop after the first changes. -/
theorem applyBytes_append_of_le (es es' : List DiskEffect) :
    ∀ (d : ByteDisk) {written : ℕ}, bytesOf es ≤ written →
      d.applyBytes written (es ++ es') =
        (es.foldl ByteDisk.apply d).applyBytes (written - bytesOf es) es' := by
  induction es with
  | nil => exact fun d written _ => rfl
  | cons e es ih =>
    intro d written hle
    have hcons : bytesOf (e :: es) = e.size + bytesOf es := by
      rw [bytesOf, List.map_cons, List.sum_cons, bytesOf]
    rw [hcons] at hle ⊢
    rw [List.cons_append, ByteDisk.applyBytes, if_pos (by omega), List.foldl_cons,
      ih _ (by omega), Nat.sub_add_eq]

theorem applyBytes_of_le (es : List DiskEffect) (d : ByteDisk) {written : ℕ}
    (hle : bytesOf es ≤ written) : d.applyBytes written es = es.foldl ByteDisk.apply d := by
  have happend := applyBytes_append_of_le es [] d hle
  rwa [List.append_nil] at happend

/-- Contents of the packet file. -/
def ByteDisk.packetBytes (d : ByteDisk) : Bytes := d.packetFile.getD []

theorem isSome_packetFile_apply {d : ByteDisk} (hd : d.packetFile.isSome = true) (e : DiskEffect) :
    (d.apply e).packetFile.isSome = true := by
  cases e with
  | truncatePacketFile => rfl
  | writeElement position element => rfl
  | writeHandler h => exact hd

theorem isSome_packetFile_applyBytes (es : List DiskEffect) :
    ∀ {d : ByteDisk} (written : ℕ), d.packetFile.isSome = true →
      (d.applyBytes written es).packetFile.isSome = true := by
  induction es with
  | nil => exact fun _ hd => hd
  | cons e es ih =>
    intro d written hd
    rw [ByteDisk.applyBytes]
    split
    · exact ih _ (isSome_packetFile_apply hd e)
    · cases e with
      | truncatePacketFile => rfl
      | writeElement position element => rfl
      | writeHandler h => exact hd

/-- Changes of the packet file only. -/
def NoHandler (es : List DiskEffect) : Prop := ∀ e ∈ es, ∀ h, e ≠ .writeHandler h

theorem noHandler_erasures (position : ℕ → ℤ) (n : ℕ) : NoHandler (erasures position n) := by
  intro e he hd hno
  obtain ⟨j, -, rfl⟩ := List.mem_map.1 he
  cases hno

theorem infoFile_applyBytes (es : List DiskEffect) :
    ∀ (d : ByteDisk) (written : ℕ), NoHandler es →
      (d.applyBytes written es).infoFile = d.infoFile := by
  induction es with
  | nil => exact fun d _ _ => rfl
  | cons e es ih =>
    intro d written hes
    obtain ⟨he, hrest⟩ := List.forall_mem_cons.1 hes
    rw [ByteDisk.applyBytes]
    cases e with
    | truncatePacketFile =>
      split
      · exact ih _ _ hrest
      · rfl
    | writeElement position element =>
      split
      · exact ih _ _ hrest
      · rfl
    | writeHandler h => exact absurd rfl (he h)

/-- The info file at a stop of a call that ends with its write. -/
theorem infoFile_at_stop {d : ByteDisk} {body : List DiskEffect} (hbody : NoHandler body)
    {old : FileHandler} (hold : d.infoFile = some old.image) (new : FileHandler) (written : ℕ) :
    (d.applyBytes written (body ++ [.writeHandler new])).infoFile =
      some (torn (written - bytesOf body) new.image old.image) := by
  have hlen : new.image.length = old.image.length := by
    rw [FileHandler.length_image, FileHandler.length_image]
  rcases Nat.lt_or_ge written (bytesOf body) with hlt | hle
  · rw [applyBytes_append_of_lt body _ d hlt, infoFile_applyBytes body d written hbody, hold,
      Nat.sub_eq_zero_of_le hlt.le, torn_zero]
  · have hinfo := infoFile_applyBytes body d written hbody
    rw [applyBytes_of_le body d hle, hold] at hinfo
    rw [applyBytes_append_of_le body _ d hle, ByteDisk.applyBytes]
    split
    · next hall =>
      show some (pwrite ((body.foldl ByteDisk.apply d).infoFile.getD []) 0 new.image) = _
      rw [hinfo, Option.getD_some, pwrite_image (FileHandler.length_image _).le,
        torn_of_length_le hlen ((FileHandler.length_image _).trans_le hall)]
    · show some (pwrite ((body.foldl ByteDisk.apply d).infoFile.getD []) 0 _) = _
      rw [hinfo, Option.getD_some, pwrite_take hlen]

/-- The packet file does not depend on the write of the info file. -/
theorem packetFile_at_stop (d : ByteDisk) (body : List DiskEffect) (new : FileHandler)
    (written : ℕ) :
    (d.applyBytes written (body ++ [.writeHandler new])).packetFile =
      (d.applyBytes written body).packetFile := by
  rcases Nat.lt_or_ge written (bytesOf body) with hlt | hle
  · rw [applyBytes_append_of_lt body _ d hlt]
  · rw [applyBytes_append_of_le body _ d hle, applyBytes_of_le body d hle, ByteDisk.applyBytes]
    split <;> rfl

/-! ## One slot of the packet file -/

/-- A change that does not touch the slot at `a`. -/
def DiskEffect.Off (a : ℤ) : DiskEffect → Prop
  | .truncatePacketFile => False
  | .writeElement p _ => 0 ≤ p ∧ (a + sizeofElement ≤ p ∨ p + sizeofElement ≤ a)
  | .writeHandler _ => True

/-- The bytes of the slot at `a`. -/
def ByteDisk.slot (d : ByteDisk) (a : ℤ) : Bytes := pread d.packetBytes a.toNat elementCodec.size

variable {a : ℤ} {c : Bytes}

theorem slot_applyTorn_off (ha : 0 ≤ a) (hc : c.length = elementCodec.size) {d : ByteDisk}
    (hd : d.slot a = c) {e : DiskEffect} (he : e.Off a) (written : ℕ) :
    (d.applyTorn written e).slot a = c := by
  cases e with
  | truncatePacketFile => exact he.elim
  | writeHandler h => exact hd
  | writeElement p z =>
    obtain ⟨hp, hoff⟩ := he
    have hread := length_pread d.packetBytes a.toNat elementCodec.size
    rw [show pread _ _ _ = c from hd, hc] at hread
    have hsize : elementCodec.size = 18 := rfl
    have hlen : ((elementCodec.encode z).take written).length ≤ 18 := by
      rw [List.length_take, elementCodec.length_encode]
      exact Nat.min_le_right _ _
    rw [sizeofElement] at hoff
    refine (pread_pwrite_of_disjoint ?_ ?_).trans hd
    · show a.toNat + elementCodec.size ≤ d.packetBytes.length
      omega
    · omega

/-- A complete change is one that stops after all its bytes. -/
theorem apply_eq_applyTorn (d : ByteDisk) {e : DiskEffect} {written : ℕ} (h : e.size ≤ written) :
    d.apply e = d.applyTorn written e := by
  cases e with
  | truncatePacketFile => rfl
  | writeElement p z =>
    rw [ByteDisk.applyTorn, List.take_of_length_le ((elementCodec.length_encode z).trans_le h)]
    rfl
  | writeHandler hd =>
    rw [ByteDisk.applyTorn, List.take_of_length_le ((FileHandler.length_image hd).trans_le h)]
    rfl

theorem slot_applyBytes_off (ha : 0 ≤ a) (hc : c.length = elementCodec.size)
    (es : List DiskEffect) :
    ∀ {d : ByteDisk} (written : ℕ), d.slot a = c → (∀ e ∈ es, e.Off a) →
      (d.applyBytes written es).slot a = c := by
  induction es with
  | nil => exact fun _ hd _ => hd
  | cons e es ih =>
    intro d written hd hes
    obtain ⟨he, hrest⟩ := List.forall_mem_cons.1 hes
    rw [ByteDisk.applyBytes]
    split
    · next hle =>
      refine ih _ ?_ hrest
      rw [apply_eq_applyTorn d hle]
      exact slot_applyTorn_off ha hc hd he written
    · exact slot_applyTorn_off ha hc hd he written

theorem slot_applyTorn_at (hc : c.length = elementCodec.size) {d : ByteDisk} (hd : d.slot a = c)
    (z : Element) (written : ℕ) :
    (d.applyTorn written (.writeElement a z)).slot a = torn written (elementCodec.encode z) c := by
  have hsize := elementCodec.length_encode z
  have hread : pread d.packetBytes a.toNat (elementCodec.encode z).length = c := by
    rw [hsize]
    exact hd
  have htake : pread (pwrite d.packetBytes a.toNat ((elementCodec.encode z).take written)) a.toNat
      (elementCodec.encode z).length = torn written (elementCodec.encode z)
        (pread d.packetBytes a.toNat (elementCodec.encode z).length) :=
    pread_pwrite_take _ _ (by rw [hread, hsize, hc])
  rw [hread, hsize] at htake
  exact htake

/-- A slot that one of the changes writes is torn when the stop comes during this change. -/
theorem slot_at_stop (ha : 0 ≤ a) (hc : c.length = elementCodec.size) {d : ByteDisk}
    (hd : d.slot a = c) {es es' : List DiskEffect} (hes : ∀ e ∈ es, e.Off a)
    (hes' : ∀ e ∈ es', e.Off a) (z : Element) (written : ℕ) :
    (d.applyBytes written (es ++ .writeElement a z :: es')).slot a =
      torn (written - bytesOf es) (elementCodec.encode z) c := by
  rcases Nat.lt_or_ge written (bytesOf es) with hlt | hle
  · rw [applyBytes_append_of_lt es _ d hlt, Nat.sub_eq_zero_of_le hlt.le, torn_zero]
    exact slot_applyBytes_off ha hc es written hd hes
  · have hbefore := slot_applyBytes_off ha hc es written hd hes
    rw [applyBytes_of_le es d hle] at hbefore
    have htorn := slot_applyTorn_at hc hbefore z (written - bytesOf es)
    rw [applyBytes_append_of_le es _ d hle, ByteDisk.applyBytes]
    split
    · next hall =>
      have hlen : (torn (written - bytesOf es) (elementCodec.encode z) c).length =
          elementCodec.size := by
        rw [length_torn ((elementCodec.length_encode z).trans hc.symm), hc]
      rw [apply_eq_applyTorn _ hall]
      exact slot_applyBytes_off ha hlen es' _ htorn hes'
    · exact htorn

/-- The slot that the erasure number `i` meets. -/
theorem slot_erasures (ha : 0 ≤ a) (hc : c.length = elementCodec.size) {d : ByteDisk}
    (hd : d.slot a = c) {position : ℕ → ℤ} {n i : ℕ} (hi : i < n) (hposition : position i = a)
    (hoff : ∀ j, j < n → j ≠ i → DiskEffect.Off a (.writeElement (position j) nullElement))
    (written : ℕ) :
    (d.applyBytes written (erasures position n)).slot a =
      torn (written - elementCodec.size * i) (elementCodec.encode nullElement) c := by
  obtain ⟨m, rfl⟩ := Nat.exists_eq_add_of_lt hi
  have hsplit : erasures position (i + m + 1) = erasures position i ++
      .writeElement (position i) nullElement ::
        (List.range m).map fun j => .writeElement (position (i + (j + 1))) nullElement := by
    rw [erasures, Nat.add_assoc, List.range_add, List.map_append, List.range_succ_eq_map]
    simp [erasures, Function.comp_def]
  rw [hsplit, hposition, ← bytesOf_erasures position i]
  refine slot_at_stop ha hc hd (fun e he => ?_) (fun e he => ?_) nullElement written
  · obtain ⟨j, hj, rfl⟩ := List.mem_map.1 he
    have hlt := List.mem_range.1 hj
    exact hoff j (by omega) (by omega)
  · obtain ⟨j, hj, rfl⟩ := List.mem_map.1 he
    have hlt := List.mem_range.1 hj
    exact hoff _ (by omega) (by omega)

/-! ## The handler that a fresh process reads -/

theorem ofImage_writeTo (b : Bytes) :
    (FileHandler.ofImage b).writeTo = ofLeLong ((b.drop 16).take 8) := by
  simp only [FileHandler.ofImage, FileHandler.ofFields, splitFields, handlerWidths,
    List.getD_cons_zero, List.getD_cons_succ, List.drop_drop]

theorem ofImage_tmNumber (b : Bytes) :
    (FileHandler.ofImage b).tmNumber = ofLeNat ((b.drop 24).take 4) := by
  simp only [FileHandler.ofImage, FileHandler.ofFields, splitFields, handlerWidths,
    List.getD_cons_zero, List.getD_cons_succ, List.drop_drop]

theorem ofImage_oldestTmPosition (b : Bytes) :
    (FileHandler.ofImage b).oldestTmPosition = ofLeLong ((b.drop 28).take 8) := by
  simp only [FileHandler.ofImage, FileHandler.ofFields, splitFields, handlerWidths,
    List.getD_cons_zero, List.getD_cons_succ, List.drop_drop]

/-- The handler read from the image `new` written over `old` up to byte `k`. -/
def tornHandler (k : ℕ) (new old : FileHandler) : FileHandler := .ofImage (torn k new.image old.image)

section TornHandler

variable {k : ℕ} {new old : FileHandler}

theorem length_images (new old : FileHandler) : new.image.length = old.image.length := by
  rw [FileHandler.length_image, FileHandler.length_image]

theorem image_tornHandler (k : ℕ) (new old : FileHandler) :
    (tornHandler k new old).image = torn k new.image old.image := by
  refine FileHandler.image_ofImage ?_
  rw [length_torn (length_images new old), FileHandler.length_image]

theorem tornHandler_oldestTmPosition (hold : old.Fits) (hk : k ≤ 28) :
    (tornHandler k new old).oldestTmPosition = old.oldestTmPosition := by
  rw [tornHandler, ofImage_oldestTmPosition, drop_torn (length_images new old) hk,
    ← ofImage_oldestTmPosition, FileHandler.ofImage_image hold]

theorem tornHandler_tmNumber_old (hold : old.Fits) (hk : k ≤ 24) :
    (tornHandler k new old).tmNumber = old.tmNumber := by
  rw [tornHandler, ofImage_tmNumber, drop_torn (length_images new old) hk, ← ofImage_tmNumber,
    FileHandler.ofImage_image hold]

theorem tornHandler_tmNumber_new (hnew : new.Fits) (hk : 28 ≤ k) :
    (tornHandler k new old).tmNumber = new.tmNumber := by
  rw [tornHandler, ofImage_tmNumber, take_drop_torn (length_images new old) hk, ← ofImage_tmNumber,
    FileHandler.ofImage_image hnew]

theorem tornHandler_writeTo (hnew : new.Fits) (hk : 24 ≤ k) :
    (tornHandler k new old).writeTo = new.writeTo := by
  rw [tornHandler, ofImage_writeTo, take_drop_torn (length_images new old) hk, ← ofImage_writeTo,
    FileHandler.ofImage_image hnew]

/-- The handler read is the old one if the bytes written are those that were there. -/
theorem tornHandler_eq_old_iff (hold : old.Fits) :
    tornHandler k new old = old ↔ new.image.take k = old.image.take k := by
  rw [← torn_eq_old_iff (length_images new old)]
  constructor
  · intro heq
    rw [← image_tornHandler, heq]
  · intro heq
    rw [tornHandler, heq, FileHandler.ofImage_image hold]

/-- It is the new one if those that are missing are. -/
theorem tornHandler_eq_new_iff (hnew : new.Fits) :
    tornHandler k new old = new ↔ old.image.drop k = new.image.drop k := by
  rw [← torn_eq_new_iff (length_images new old)]
  constructor
  · intro heq
    rw [← image_tornHandler, heq]
  · intro heq
    rw [tornHandler, heq, FileHandler.ofImage_image hnew]

end TornHandler

/-- A fresh process on a disk with a complete info file has the handler that it reads. -/
theorem view_initialByteStore (N : ℕ) {d : ByteDisk} {f : Bytes} (hd : d.infoFile = some f)
    (hf : f.length = handlerSize) :
    (initialByteStore N d).disk = d ∧
      (initialByteStore N d).view N =
        ⟨.ofImage f, ⟨d.packetFile, some (.ofImage f)⟩⟩ := by
  have hread : pread f 0 handlerSize = f := List.take_of_length_le hf.le
  have hview : d.view N = ⟨d.packetFile, some (.ofImage f)⟩ := by
    rw [ByteDisk.view, hd, Option.map_some, hread, overlay_of_length_eq (by simp [hf])]
  have hinfo : (d.view N).infoFile = some (.ofImage f) := by rw [hview]
  obtain ⟨-, hstore, heffects⟩ := init_of_image N (d.view N) hinfo
    (show allGranted 0 = true from rfl)
  have hfresh : initialByteStore N d = ⟨.ofImage f, d⟩ := by
    rw [initialByteStore, heffects]
    exact congrArg (ByteStore.mk · d) (congrArg Store.handler hstore)
  rw [hfresh]
  exact ⟨rfl, congrArg (Store.mk _) hview⟩

end CComplete.PacketStoreSdcard
