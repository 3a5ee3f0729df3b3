import CComplete.Library.LittleEndian
import CComplete.PacketStoreSdcard.Interruption

/-!
# The info file as bytes

The calls of the store see `info.bin` as one handler. Here it is the byte string that `fwrite` and
`fread` move: the image of the packed C structure, its three `long` positions and its counters low
byte first. As long as the capacity fits the `unsigned int` counter, the store on bytes answers as
the store on handlers, and the file is always the image of the handler in memory
(`info_file_image`). A first `init` that stops anywhere in its write of the file leaves a beginning
of the image, from which the next process starts as from the whole (`interrupted_init_harmless`).
-/

set_option autoImplicit false

namespace CComplete.PacketStoreSdcard

open CComplete.Library

/-! ## The image of a handler -/

/-- `sizeof(PACKET_STORE_SDCARD__T_FILE_HANDLER)`. -/
abbrev handlerSize : ℕ := 44

/-- The widths of the fields of the handler, three `long`, an `unsigned int`, a `long` and two
`unsigned int`. -/
def handlerWidths : List ℕ := [8, 8, 8, 4, 8, 4, 4]

/-- The fields of the handler as bytes. -/
def FileHandler.fields (h : FileHandler) : List Bytes :=
  [leLong h.head, leLong h.tail, leLong h.writeTo, leNat 4 h.tmNumber, leLong h.oldestTmPosition,
    leNat 4 h.oldestTime.toNat, leNat 4 h.newestTime.toNat]

/-- The packed layout of the handler. -/
def FileHandler.image (h : FileHandler) : Bytes := h.fields.flatten

/-- The handler with the given fields. -/
def FileHandler.ofFields (fields : List Bytes) : FileHandler where
  head := ofLeLong (fields.getD 0 [])
  tail := ofLeLong (fields.getD 1 [])
  writeTo := ofLeLong (fields.getD 2 [])
  tmNumber := ofLeNat (fields.getD 3 [])
  oldestTmPosition := ofLeLong (fields.getD 4 [])
  oldestTime := UInt32.ofNat (ofLeNat (fields.getD 5 []))
  newestTime := UInt32.ofNat (ofLeNat (fields.getD 6 []))

/-- The handler with the given image. -/
def FileHandler.ofImage (b : Bytes) : FileHandler := .ofFields (splitFields handlerWidths b)

/-- An integer is in the range of `long`. -/
def IsLong (x : ℤ) : Prop := -2 ^ 63 ≤ x ∧ x < 2 ^ 63

/-- The fields are in the ranges of their C types. -/
structure FileHandler.Fits (h : FileHandler) : Prop where
  head : IsLong h.head
  tail : IsLong h.tail
  writeTo : IsLong h.writeTo
  tmNumber : h.tmNumber < 2 ^ 32
  oldestTmPosition : IsLong h.oldestTmPosition

namespace FileHandler

theorem map_length_fields (h : FileHandler) : h.fields.map List.length = handlerWidths := by
  simp [fields, handlerWidths]

@[simp] theorem length_image (h : FileHandler) : h.image.length = handlerSize := by
  rw [image, List.length_flatten, map_length_fields]
  rfl

/-- What was written is read back. -/
theorem ofImage_image {h : FileHandler} (hfits : h.Fits) : ofImage h.image = h := by
  have hlong : ∀ {x : ℤ}, IsLong x → ofLeLong (leLong x) = x := fun hx =>
    ofLeLong_leLong hx.1 hx.2
  have hword : ∀ {n : ℕ}, n < 2 ^ 32 → ofLeNat (leNat 4 n) = n := fun hn =>
    (ofLeNat_leNat 4 _).trans (Nat.mod_eq_of_lt hn)
  have htime : ∀ t : UInt32, UInt32.ofNat (ofLeNat (leNat 4 t.toNat)) = t := by
    intro t
    rw [hword t.toNat_lt, UInt32.ofNat_toNat]
  rw [ofImage, image, ← map_length_fields h, splitFields_flatten]
  simp only [ofFields, fields, List.getD_cons_zero, List.getD_cons_succ, htime,
    hlong hfits.head, hlong hfits.tail, hlong hfits.writeTo, hword hfits.tmNumber,
    hlong hfits.oldestTmPosition]

/-- Every string of that size is the image of the handler read from it. -/
theorem image_ofImage {b : Bytes} (hb : b.length = handlerSize) : (ofImage b).image = b := by
  have hword : ∀ {x : Bytes}, x.length = 4 → leNat 4 (ofLeNat x) = x := by
    intro x hx
    rw [← hx]
    exact leNat_ofLeNat x
  have htime : ∀ {x : Bytes}, x.length = 4 → leNat 4 (UInt32.ofNat (ofLeNat x)).toNat = x := by
    intro x hx
    have hlt : ofLeNat x < 256 ^ 4 := hx ▸ ofLeNat_lt x
    have hmod : ofLeNat x % 2 ^ 32 = ofLeNat x := Nat.mod_eq_of_lt hlt
    rw [UInt32.toNat_ofNat', hmod, hword hx]
  have hfields : (ofImage b).fields = splitFields handlerWidths b := by
    simp only [ofImage, ofFields, fields, splitFields, handlerWidths, List.getD_cons_zero,
      List.getD_cons_succ, List.drop_drop]
    rw [leLong_ofLeLong, leLong_ofLeLong, leLong_ofLeLong, hword, leLong_ofLeLong, htime, htime]
    all_goals
      simp only [List.length_take, List.length_drop, hb]
      decide
  rw [image, hfields, flatten_splitFields _ _ hb]

end FileHandler

/-- An `info.bin` of four packets: the next one goes to position 72, the times are 6 to 8. -/
example :
    FileHandler.ofImage
        [0, 0, 0, 0, 0, 0, 0, 0, 72, 0, 0, 0, 0, 0, 0, 0, 72, 0, 0, 0, 0, 0, 0, 0, 4, 0, 0, 0,
          0, 0, 0, 0, 0, 0, 0, 0, 6, 0, 0, 0, 8, 0, 0, 0] =
      ⟨0, 72, 72, 4, 0, 6, 8⟩ := by
  decide

/-! ## The store on bytes -/

/-- The two files of the store; `none` when a file does not exist. -/
structure ByteDisk where
  packetFile : Option Bytes
  infoFile : Option Bytes

/-- The disk after one change. The info file is written from its start on. -/
def ByteDisk.apply (d : ByteDisk) : DiskEffect → ByteDisk
  | .truncatePacketFile => { d with packetFile := some [] }
  | .writeElement position element =>
      { d with
        packetFile := some (elementCodec.writeAt (d.packetFile.getD []) position element) }
  | .writeHandler handler =>
      { d with infoFile := some (pwrite (d.infoFile.getD []) 0 handler.image) }

/-- The handler of a fresh process when `init` opens the info file. -/
def freshHandler (N : ℕ) : FileHandler :=
  { FileHandler.zero with head := 0, tail := 0 + ((N : ℤ) - 1) * sizeofElement }

/-- The disk as the calls see it. Only `init` reads the info file, by one `fread` into the handler
of a fresh process. -/
def ByteDisk.view (N : ℕ) (d : ByteDisk) : Disk where
  packetFile := d.packetFile
  infoFile := d.infoFile.map fun f =>
    .ofImage (overlay (pread f 0 handlerSize) (freshHandler N).image)

/-- What lasts between calls, with the files as bytes. -/
structure ByteStore where
  handler : FileHandler
  disk : ByteDisk

/-- The store as the calls see it. -/
def ByteStore.view (N : ℕ) (b : ByteStore) : Store := ⟨b.handler, b.disk.view N⟩

/-- The store on bytes: the calls make their changes on the files. -/
def byteSystem (N : ℕ) : Machine ByteStore Op Reply where
  step b op :=
    let r := runOp N (b.view N) allGranted op
    (⟨r.2.handler, r.2.effects.foldl ByteDisk.apply b.disk⟩, r.1)

/-- The store on bytes after `init` in a fresh process on the disk `d`. -/
def initialByteStore (N : ℕ) (d : ByteDisk) : ByteStore :=
  let w := (init N (Store.begin ⟨FileHandler.zero, d.view N⟩ allGranted)).2
  ⟨w.handler, w.effects.foldl ByteDisk.apply d⟩

/-- The info file exists and has at least `m` bytes, and at most those of one image. -/
def ByteDisk.HasInfo (m : ℕ) (d : ByteDisk) : Prop :=
  ∃ f, d.infoFile = some f ∧ m ≤ f.length ∧ f.length ≤ handlerSize

/-- A complete info file is the image of the handler that the calls see. -/
theorem ByteDisk.infoFile_eq_image {N : ℕ} {d : ByteDisk} {h : FileHandler}
    (hinfo : d.HasInfo handlerSize) (hview : (d.view N).infoFile = some h) :
    d.infoFile = some h.image := by
  obtain ⟨f, hf, hlow, hhigh⟩ := hinfo
  have hlen : f.length = handlerSize := le_antisymm hhigh hlow
  have hread : pread f 0 handlerSize = f := List.take_of_length_le hhigh
  rw [view, hf, Option.map_some, hread, overlay_of_length_eq (by simp [hlen])] at hview
  rw [hf, ← Option.some.inj hview, FileHandler.image_ofImage hlen]

/-- A handler written over at most one image replaces it. -/
theorem pwrite_image {f : Bytes} (hf : f.length ≤ handlerSize) (h : FileHandler) :
    pwrite f 0 h.image = h.image := by
  have hne : h.image ≠ [] := fun hnil => by
    have hlen := h.length_image
    rw [hnil] at hlen
    cases hlen
  have hrest : f.drop (0 + h.image.length) = [] := by
    rw [Nat.zero_add, h.length_image]
    exact List.drop_eq_nil_of_le hf
  rw [pwrite, if_neg hne, hrest]
  simp

/-- A change makes the calls see the changed disk, if a handler that it writes fits. -/
theorem ByteDisk.view_apply (N : ℕ) {d : ByteDisk} (hd : ∀ f, d.infoFile = some f →
    f.length ≤ handlerSize) {e : DiskEffect} (he : ∀ h, e = .writeHandler h → h.Fits) :
    (d.apply e).view N = (d.view N).apply e := by
  cases e with
  | truncatePacketFile => rfl
  | writeElement position element => rfl
  | writeHandler h =>
    have hwritten : pwrite (d.infoFile.getD []) 0 h.image = h.image := by
      apply pwrite_image
      cases hf : d.infoFile with
      | none => exact Nat.zero_le _
      | some f => exact hd f hf
    have hread : pread h.image 0 handlerSize = h.image :=
      List.take_of_length_le h.length_image.le
    simp only [view, apply, Disk.apply, hwritten, Option.map_some, hread]
    rw [overlay_of_length_eq (by simp), FileHandler.ofImage_image (he h rfl)]

theorem ByteDisk.HasInfo.apply {m : ℕ} (hm : m ≤ handlerSize) {d : ByteDisk}
    (hinfo : d.HasInfo m) (e : DiskEffect) : (d.apply e).HasInfo m := by
  obtain ⟨f, hf, hlow, hhigh⟩ := hinfo
  cases e with
  | truncatePacketFile => exact ⟨f, hf, hlow, hhigh⟩
  | writeElement position element => exact ⟨f, hf, hlow, hhigh⟩
  | writeHandler h =>
    refine ⟨h.image, ?_, ?_, h.length_image.le⟩
    · show some (pwrite (d.infoFile.getD []) 0 h.image) = some h.image
      rw [hf, Option.getD_some, pwrite_image hhigh]
    · rw [h.length_image]
      exact hm

/-- Changes whose handlers fit make the calls see the changed disk. -/
theorem ByteDisk.view_foldl (N : ℕ) {m : ℕ} (hm : m ≤ handlerSize) (es : List DiskEffect) :
    ∀ {d : ByteDisk}, d.HasInfo m → (∀ e ∈ es, ∀ h, e = .writeHandler h → h.Fits) →
      (es.foldl ByteDisk.apply d).view N = es.foldl Disk.apply (d.view N) ∧
        (es.foldl ByteDisk.apply d).HasInfo m := by
  induction es with
  | nil => exact fun hinfo _ => ⟨rfl, hinfo⟩
  | cons e es ih =>
    intro d hinfo hes
    have hsize : ∀ f, d.infoFile = some f → f.length ≤ handlerSize := by
      intro f hf
      obtain ⟨f', hf', -, hhigh⟩ := hinfo
      obtain rfl := Option.some.inj (hf.symm.trans hf')
      exact hhigh
    rw [List.foldl_cons, List.foldl_cons, ← view_apply N hsize (hes e List.mem_cons_self)]
    exact ih (hinfo.apply hm e) fun e' he' => hes e' (List.mem_cons_of_mem e he')

namespace Represents

variable {N : ℕ+} {o : ℕ} {s : Store} {ps : List Element}

/-- The handler fits, since the capacity is an `unsigned int`. -/
theorem fits (h : Represents N o s ps) : s.handler.Fits := by
  have hcapacity := h.capacity
  have hlast : (slots N).last = 18 * (((N : ℕ) : ℤ) - 1) := zero_add _
  have haddr : ∀ i, IsLong ((slots N).addr i) := by
    intro i
    have hlow : 0 ≤ (slots N).addr i := (slots N).base_le_addr i
    have hhigh := (slots N).addr_le_last i
    rw [hlast] at hhigh
    exact ⟨by omega, by omega⟩
  have hpos := N.pos
  have hbound := h.bounded
  exact
    { head := by
        rw [h.head]
        exact ⟨by decide, by decide⟩
      tail := by
        rw [h.tail, hlast]
        exact ⟨by omega, by omega⟩
      writeTo := h.writeTo ▸ haddr _
      tmNumber := h.tmNumber_lt
      oldestTmPosition := h.oldestTmPosition ▸ haddr _ }

/-- The handlers that a call writes fit. -/
theorem fits_of_written (h : Represents N o s ps) (op : Op) :
    ∀ e ∈ (runOp N s allGranted op).2.effects, ∀ hd, e = .writeHandler hd → hd.Fits := by
  obtain ⟨hdisk, body, hbody, heffects, -⟩ := h.writesInfoLast op
  obtain ⟨o', k, hnext⟩ := h.step op
  rintro e he hd rfl
  rcases heffects with heffects | ⟨last, heffects⟩
  · rw [heffects] at he
    exact absurd rfl ((hbody _ he).2 hd)
  · rw [heffects, List.mem_append, List.mem_singleton] at he
    rcases he with he | he
    · exact absurd rfl ((hbody _ he).2 hd)
    · -- the last change writes the handler that the call leaves in memory
      have hinfo : (runOp N s allGranted op).2.disk.infoFile = some last := by
        rw [hdisk, heffects, List.foldl_append]
        rfl
      have hsame := Option.some.inj (hinfo.symm.trans hnext.infoFile)
      rw [DiskEffect.writeHandler.inj he, hsame]
      exact hnext.fits

end Represents

/-- The store on bytes simulates the store on handlers. -/
def byteSimulation (N : ℕ+) (m : ℕ) (hm : m ≤ handlerSize) :
    Simulation (byteSystem N) (system N) fun _ _ => True where
  rel b s := b.view N = s ∧ b.disk.HasInfo m ∧ ∃ o ps, Represents N o s ps
  input := id
  output := id
  rel_step := by
    rintro b s op ⟨rfl, hinfo, o, ps, h⟩ -
    obtain ⟨o', k, hnext⟩ := h.step op
    obtain ⟨hdisk, -⟩ := h.writesInfoLast op
    obtain ⟨hview, hinfo'⟩ := ByteDisk.view_foldl N hm _ hinfo (h.fits_of_written op)
    refine ⟨?_, hinfo', o', _, hnext⟩
    exact congrArg (Store.mk _) (hview.trans hdisk.symm)
  output_step := by
    rintro b s op ⟨rfl, -⟩ -
    rfl

/-- From a store with an info file that the calls see as the handler, both levels run alike. -/
theorem byteSystem_run {N : ℕ+} {m : ℕ} (hm : m ≤ handlerSize) {b : ByteStore} {s : Store} {o : ℕ}
    {ps : List Element} (hview : b.view N = s) (h : Represents N o s ps) (hinfo : b.disk.HasInfo m)
    (ops : List Op) :
    (byteSystem N).trace b ops = (system N).trace s ops ∧
      ((byteSystem N).after b ops).view N = (system N).after s ops ∧
      ((byteSystem N).after b ops).disk.HasInfo m := by
  have hrel : (byteSimulation N m hm).rel b s := ⟨hview, hinfo, o, ps, h⟩
  have htrace := (byteSimulation N m hm).trace_map hrel ops ((byteSystem N).guarded_true b ops)
  obtain ⟨hview', hinfo', -⟩ :=
    (byteSimulation N m hm).rel_after hrel ops ((byteSystem N).guarded_true b ops)
  rw [show (byteSimulation N m hm).input = id from rfl, List.map_id] at htrace hview'
  rw [show (byteSimulation N m hm).output = id from rfl, Prod.map_id, List.map_id] at htrace
  exact ⟨htrace, hview', hinfo'⟩

theorem freshHandler_fits {N : ℕ+} (hN : (N : ℕ) < 2 ^ 32) : (freshHandler N).Fits :=
  (represents_initialStore N hN (d := ⟨none, none⟩) rfl).fits

/-- A first `init` leaves a fresh handler and creates the info file. -/
theorem init_created (N : ℕ) {d : Disk} (hd : d.infoFile = none) :
    (init N (Store.begin ⟨FileHandler.zero, d⟩ allGranted)).2.handler = freshHandler N ∧
      (init N (Store.begin ⟨FileHandler.zero, d⟩ allGranted)).2.effects =
        [.writeHandler (freshHandler N)] := by
  simp [init, hd, Store.begin, World.withHandler, World.nextFopen, allGranted, World.emit,
    freshHandler, FileHandler.zero]

theorem initialStore_created (N : ℕ) {d : Disk} (hd : d.infoFile = none) :
    initialStore N d = ⟨freshHandler N, { d with infoFile := some (freshHandler N) }⟩ := by
  simp [initialStore, init, hd, Store.begin, World.withHandler, World.nextFopen, allGranted,
    World.emit, Disk.apply, freshHandler, FileHandler.zero]

/-- After a first `init` the info file is the image of a fresh handler. -/
theorem initialByteStore_created (N : ℕ) {d : ByteDisk} (hd : d.infoFile = none) :
    initialByteStore N d =
      ⟨freshHandler N, { d with infoFile := some (freshHandler N).image }⟩ := by
  have hnone : (d.view N).infoFile = none := by
    rw [ByteDisk.view, hd, Option.map_none]
  obtain ⟨hhandler, heffects⟩ := init_created N hnone
  have hwritten : pwrite [] 0 (freshHandler N).image = (freshHandler N).image :=
    pwrite_image (Nat.zero_le _) _
  rw [initialByteStore, hhandler, heffects, List.foldl_cons, List.foldl_nil, ByteDisk.apply, hd,
    Option.getD_none, hwritten]

/-- A beginning of the image of a fresh handler is read as that handler. -/
theorem view_of_prefix {N : ℕ+} (hN : (N : ℕ) < 2 ^ 32) {d : ByteDisk} {written : ℕ}
    (hd : d.infoFile = some ((freshHandler N).image.take written)) :
    d.view N = ⟨d.packetFile, some (freshHandler N)⟩ := by
  have hread : pread ((freshHandler N).image.take written) 0 handlerSize =
      (freshHandler N).image.take written := by
    apply List.take_of_length_le
    rw [List.drop_zero, List.length_take, FileHandler.length_image]
    exact Nat.min_le_right _ _
  rw [ByteDisk.view, hd, Option.map_some, hread, overlay_take,
    FileHandler.ofImage_image (freshHandler_fits hN)]

/-- After a first `init` the store on bytes is seen as the store on handlers. -/
theorem initialByteStore_view {N : ℕ+} (hN : (N : ℕ) < 2 ^ 32) {d : ByteDisk}
    (hd : d.infoFile = none) :
    (initialByteStore N d).view N = initialStore N ⟨d.packetFile, none⟩ ∧
      (initialByteStore N d).disk.HasInfo handlerSize := by
  have hstart := initialByteStore_created N hd
  have hwhole : (freshHandler N).image.take handlerSize = (freshHandler N).image :=
    List.take_of_length_le (FileHandler.length_image _).le
  have hdisk : (initialByteStore N d).disk.infoFile =
      some ((freshHandler N).image.take handlerSize) := by
    rw [hstart]
    exact congrArg some hwhole.symm
  have hview : (initialByteStore N d).view N = initialStore N ⟨d.packetFile, none⟩ := by
    rw [initialStore_created N rfl, ByteStore.view, view_of_prefix hN hdisk, hstart]
  have hinfo : (initialByteStore N d).disk.HasInfo handlerSize := by
    rw [hstart]
    exact ⟨_, rfl, (FileHandler.length_image _).ge, (FileHandler.length_image _).le⟩
  exact ⟨hview, hinfo⟩

/-- A first `init` that stops while it writes the info file does no harm: whatever number of bytes
of the image is there, also none, the next process starts as after a complete `init`, and every run
of it answers as that one and ends with the same handler and the same packet file. -/
theorem interrupted_init_harmless (N : ℕ+) (hN : (N : ℕ) < 2 ^ 32) (packetFile : Option Bytes)
    (written : ℕ) (ops : List Op) :
    let d : ByteDisk := ⟨packetFile, some ((freshHandler N).image.take written)⟩
    let b := (byteSystem N).after (initialByteStore N d) ops
    let s := (system N).after (initialStore N ⟨packetFile, none⟩) ops
    (byteSystem N).trace (initialByteStore N d) ops =
        (system N).trace (initialStore N ⟨packetFile, none⟩) ops ∧ b.view N = s := by
  intro d b s
  have hdisk : d.view N = ⟨packetFile, some (freshHandler N)⟩ := view_of_prefix hN rfl
  have himage : (d.view N).infoFile = some (freshHandler N) := by rw [hdisk]
  obtain ⟨-, hstore, heffects⟩ := init_of_image N (d.view N) himage
    (show allGranted 0 = true from rfl)
  have hstart : initialByteStore N d = ⟨freshHandler N, d⟩ := by
    rw [initialByteStore, heffects]
    exact congrArg (ByteStore.mk · d) (congrArg Store.handler hstore)
  have hview : (initialByteStore N d).view N = initialStore N ⟨packetFile, none⟩ := by
    rw [initialStore_created N rfl, hstart, ByteStore.view, hdisk]
  have hinfo : (initialByteStore N d).disk.HasInfo 0 := by
    rw [hstart]
    refine ⟨_, rfl, Nat.zero_le _, ?_⟩
    rw [List.length_take, FileHandler.length_image]
    exact Nat.min_le_right _ _
  obtain ⟨htrace, hafter, -⟩ := byteSystem_run (Nat.zero_le _) hview
    (represents_initialStore N hN rfl) hinfo ops
  exact ⟨htrace, hafter⟩

/-- Nine bytes of the image, then a packet: it is stored. -/
theorem interrupted_init_harmless_nine :
    ((byteSystem maxTmNumber).after
      (initialByteStore maxTmNumber ⟨none, some ((freshHandler maxTmNumber).image.take 9)⟩)
      [storeAt 3]).handler.tmNumber = 1 := by
  have hrun := interrupted_init_harmless maxTmNumber (by decide) none 9 [storeAt 3]
  have hcount := congrArg (fun s => s.handler.tmNumber) hrun.2
  exact hcount.trans (by decide +kernel)

end CComplete.PacketStoreSdcard
