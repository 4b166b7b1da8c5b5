import Arthic.FileLayout

namespace Arthic.FileWrites
open BitWords ByteMemory Unsigned FileSystem FileLayout
variable {f after : Fs} {count : Nat → Nat}

theorem frame_mark (f : Fs) (b : Nat) (used : Bool) : Frame f (blockMark f b used) := ⟨rfl,rfl,fun _ _ _ _ => rfl⟩

theorem frame_putBlock (f : Fs) (b : Nat) (sector : Sector) : Frame f (putBlock f b sector) :=
  ⟨rfl,rfl,fun _ _ _ _ => rfl⟩

-- What one turn of write_at can do. It stays inside the file, or it is at the end and
-- needs a block, and from the eighth on a block of numbers for it too.
inductive Turn (f : Fs) (count : Nat → Nat) (i index within : Nat) (bytes : List Byte) : Bool → Fs → Prop where
  | rewrite (below : index < count i) : Turn f count i index within bytes true
      (putBlock f (dataBlock f i index) (overlay (block f (dataBlock f i index)) within bytes))
  | ceiling (next : index = count i) (past : fsMaxBlocks ≤ index) : Turn f count i index within bytes false f
  | full (next : index = count i) (room : index < fsMaxBlocks) (none : Full f) : Turn f count i index within bytes false f
  | stranded (next : index = count i) (room : index < fsMaxBlocks) (far : fsDirectBlocks ≤ index)
      (none : get f i .indirect = 0) (first : Lowest f b) (full : Full (blockMark f b true)) :
      Turn f count i index within bytes false (blockMark f b true)
  | direct (next : index = count i) (near : index < fsDirectBlocks) (first : Lowest f b) :
      Turn f count i index within bytes true
        (putBlock (put (blockMark f b true) i (.direct index) b) b (overlay (fun _ => 0#8) within bytes))
  | linked (next : index = count i) (room : index < fsMaxBlocks) (far : fsDirectBlocks ≤ index)
      (some : get f i .indirect ≠ 0) (first : Lowest f b) :
      Turn f count i index within bytes true
        (putBlock (putBlock (blockMark f b true) (get f i .indirect)
          (store (block f (get f i .indirect)) (4*(index-fsDirectBlocks)) 4 b)) b (overlay (fun _ => 0#8) within bytes))
  | extended (next : index = count i) (room : index < fsMaxBlocks) (far : fsDirectBlocks ≤ index)
      (none : get f i .indirect = 0) (first : Lowest f b) (second : Lowest (blockMark f b true) c) :
      Turn f count i index within bytes true
        (putBlock (putBlock (putBlock (put (blockMark (blockMark f b true) c true) i .indirect c) c fun _ => 0#8) c
          (store (fun _ => 0#8) (4*(index-fsDirectBlocks)) 4 b)) b (overlay (fun _ => 0#8) within bytes))

theorem ready_mark (ready : Ready f) (b : Nat) (used : Bool) : Ready (blockMark f b used) :=
  ⟨ready.present,ready.works,ready.start,ready.tracked,ready.enough⟩

theorem ready_put (ready : Ready f) (i : Nat) (field : Field) (value : Nat) : Ready (put f i field value) :=
  ⟨ready.present,ready.works,ready.start,ready.tracked,ready.enough⟩

theorem ready_putBlock (ready : Ready f) (b : Nat) (sector : Sector) : Ready (putBlock f b sector) := ready_putSector ready

theorem storeSlot_ready (ready : Ready f) (inside : get f i .indirect < f.super.totalBlocks) :
    storeSlot f i slot b = (true,putBlock f (get f i .indirect) (store (block f (get f i .indirect)) (4*slot) 4 b)) := by
  rw [storeSlot,read_block ready inside]
  dsimp only
  rw [write_block ready inside]
  rfl

theorem writeChunk_old (valid : Layout f count) (entry : i < fsMaxFiles) (below : position/fsBlockSize < count i)
    (old : position/fsBlockSize < blocksFor (get f i .size)) :
    Turn f count i (position/fsBlockSize) (position % fsBlockSize) bytes (writeChunk f i position bytes).1
      (writeChunk f i position bytes).2 := by
  obtain ⟨found,inside,real⟩ := blockAt_owned valid entry below
  have short := valid.short i entry
  have written : writeChunk f i position bytes = (true,putBlock f (dataBlock f i (position/fsBlockSize))
      (overlay (block f (dataBlock f i (position/fsBlockSize))) (position % fsBlockSize) bytes)) := by
    unfold writeChunk
    rw [if_neg (by omega),found,if_neg (by rintro (past | none) <;> [omega; exact real none]),
      read_block valid.ready inside]
    exact writeSector_ready valid.ready inside
  rw [written]
  exact .rewrite below

-- block_set past the direct blocks.
theorem blockSet_far (far : fsDirectBlocks ≤ index) (room : index < fsMaxBlocks) :
    blockSet f i index b =
      if (if get f i .indirect = 0 then newIndirect f i else (true,f)).1 = true then
        storeSlot (if get f i .indirect = 0 then newIndirect f i else (true,f)).2 i (index-fsDirectBlocks) b
      else (false,(if get f i .indirect = 0 then newIndirect f i else (true,f)).2) := by
  have slot : ¬ fsPerIndirect ≤ index-fsDirectBlocks := by
    simp only [fsMaxBlocks] at room
    omega
  unfold blockSet
  rw [if_neg (by omega),if_neg slot]

theorem newIndirect_ready (ready : Ready f) (i : Nat) :
    newIndirect f i = (false,f) ∧ Full f ∨
    ∃ c,newIndirect f i = (true,putBlock (put (blockMark f c true) i .indirect c) c fun _ => 0#8) ∧ Lowest f c := by
  unfold newIndirect
  rcases alloc_parts ready with ⟨taken,full⟩ | ⟨c,taken,lowest,real⟩
  · rw [taken]
    exact .inl ⟨rfl,full⟩
  · rw [taken]
    dsimp only
    rw [if_neg real,write_block (ready_put (ready_mark ready c true) i .indirect c) lowest.inside]
    exact .inr ⟨c,rfl,lowest⟩

theorem writeChunk_new (valid : Layout f count) (entry : i < fsMaxFiles) (next : position/fsBlockSize = count i)
    (past : blocksFor (get f i .size) ≤ position/fsBlockSize) :
    Turn f count i (position/fsBlockSize) (position % fsBlockSize) bytes (writeChunk f i position bytes).1
      (writeChunk f i position bytes).2 := by
  have ready := valid.ready
  unfold writeChunk
  by_cases ceiling : fsMaxBlocks ≤ position/fsBlockSize
  · rw [if_pos ceiling]
    exact .ceiling next ceiling
  rw [if_neg ceiling,if_pos (.inl past)]
  have room : position/fsBlockSize < fsMaxBlocks := by omega
  rcases alloc_parts ready with ⟨taken,none⟩ | ⟨b,taken,first,real⟩
  · rw [taken]
    exact .full next room none
  rw [taken]
  dsimp only
  rw [if_neg real]
  have marked := ready_mark ready b true
  by_cases near : position/fsBlockSize < fsDirectBlocks
  · have attached : blockSet (blockMark f b true) i (position/fsBlockSize) b =
        (true,put (blockMark f b true) i (.direct (position/fsBlockSize)) b) := if_pos near
    rw [attached]
    dsimp only
    rw [if_neg (by simp),writeSector_ready (ready_put marked i _ b) first.inside]
    exact .direct next near first
  have far : fsDirectBlocks ≤ position/fsBlockSize := by omega
  rw [blockSet_far far room]
  by_cases none : get f i .indirect = 0
  · have absent : get (blockMark f b true) i .indirect = 0 := none
    rw [if_pos absent]
    rcases newIndirect_ready marked i with ⟨taken,full⟩ | ⟨c,taken,second⟩
    · rw [taken]
      exact .stranded next room far none first full
    have tracked := ready.tracked
    have below : c < f.super.totalBlocks := second.inside
    have zeroed : Ready (putBlock (put (blockMark (blockMark f b true) c true) i .indirect c) c fun _ => 0#8) :=
      ready_putSector (ready_put (ready_mark marked c true) i .indirect c)
    have own : get (putBlock (put (blockMark (blockMark f b true) c true) i .indirect c) c fun _ => 0#8) i .indirect = c :=
      get_put_same (by simp only [sectorSize] at tracked; omega)
    rw [taken]
    dsimp only
    rw [if_pos rfl,storeSlot_ready zeroed (by rw [own]; exact second.inside),own,block_put,if_pos rfl]
    dsimp only
    rw [if_neg (by simp),writeSector_ready (ready_putBlock zeroed _ _) first.inside]
    exact .extended next room far none first second
  · have present : get (blockMark f b true) i .indirect ≠ 0 := none
    have inside : get (blockMark f b true) i .indirect < (blockMark f b true).super.totalBlocks :=
      (valid.inside (.indirect i) ⟨entry,none⟩).1
    rw [if_neg present]
    dsimp only
    rw [if_pos rfl,storeSlot_ready marked inside]
    dsimp only
    rw [if_neg (by simp),writeSector_ready (ready_putBlock marked _ _) first.inside]
    exact .linked next room far none first

-- What one turn of write_at leaves behind when it stored its bytes: block `index` of the
-- file holds them, over what was there or over zeros.
structure Stored (f after : Fs) (count : Nat → Nat) (i index within : Nat) (bytes : List Byte) : Prop where
  layout : Layout after (Function.update count i (max (count i) (index+1)))
  places : ∀ j < fsMaxFiles,∀ k < count j,dataBlock after j k = dataBlock f j k
  others : ∀ j < fsMaxFiles,∀ k < count j,¬ (j = i ∧ k = index) →
    block after (dataBlock f j k) = block f (dataBlock f j k)
  here : block after (dataBlock after i index) =
    overlay (if index < count i then block f (dataBlock f i index) else fun _ => 0#8) within bytes

theorem stored_block (valid : Layout f count) (entry : i < fsMaxFiles) (below : index < count i) (sector : Sector) :
    Layout (putBlock f (dataBlock f i index) sector) count ∧
    (∀ j < fsMaxFiles,∀ k < count j,dataBlock (putBlock f (dataBlock f i index) sector) j k = dataBlock f j k) ∧
    (∀ j < fsMaxFiles,∀ k < count j,¬ (j = i ∧ k = index) →
      block (putBlock f (dataBlock f i index) sector) (dataBlock f j k) = block f (dataBlock f j k)) := by
  have data : ∀ j < fsMaxFiles,∀ k < count j,
      dataBlock (putBlock f (dataBlock f i index) sector) j k = dataBlock f j k := by
    intro j slot k less
    unfold dataBlock
    split
    · rfl
    · rename_i far
      have some := valid.reach j slot (by omega)
      have foreign : get f j .indirect ≠ dataBlock f i index := by
        intro same
        cases valid.apart (.indirect j) (.data i index) ⟨slot,some⟩ ⟨entry,below⟩ same
      change load (block (putBlock f (dataBlock f i index) sector) (get f j .indirect)) _ 4 = _
      rw [block_put,if_neg foreign]
  refine ⟨layout_same valid (ready_putSector valid.ready) rfl (fun _ _ => rfl) data (fun _ marked => marked),data,?_⟩
  intro j slot k less different
  rw [block_put,if_neg]
  intro same
  cases valid.apart (.data j k) (.data i index) ⟨slot,less⟩ ⟨entry,below⟩ same
  exact different ⟨rfl,rfl⟩

theorem grown_more (i : Nat) (below : k < count j) : k < grown count i j := by
  by_cases equal : j = i
  · rw [equal,grown,Function.update_self]
    rw [equal] at below
    omega
  · rw [grown,Function.update_of_ne equal]
    exact below

-- A block that no slot names is attached behind the end, then written.
theorem stored_fresh {middle : Fs} (entry : i < fsMaxFiles) (layout : Layout middle (grown count i))
    (kept : Undisturbed count f middle) (here : dataBlock middle i (count i) = b) :
    Stored f (putBlock middle b (overlay (fun _ => 0#8) within bytes)) count i (count i) within bytes := by
  have last : count i < grown count i i := by rw [grown,Function.update_self]; omega
  obtain ⟨final,places,others⟩ := stored_block layout entry last (overlay (fun _ => 0#8) within bytes)
  rw [here] at final places others
  refine ⟨?_,?_,?_,?_⟩
  · rw [Nat.max_eq_right (by omega)]
    exact final
  · intro j slot k less
    exact (places j slot k (grown_more i less)).trans (kept j slot k less).1
  · intro j slot k less different
    have written := others j slot k (grown_more i less) different
    rw [(kept j slot k less).1] at written
    exact written.trans (kept j slot k less).2
  · rw [places i entry _ last,here,block_put,if_pos rfl,if_neg (by omega)]

theorem mark_marked (f : Fs) (b : Nat) : member (blockMark f b true).bitmap b = true := by
  change member (setBit f.bitmap b) b = true
  rw [member_setBit (by decide)]
  simp

theorem mark_keeps (f : Fs) (b : Nat) (marked : member f.bitmap c = true) : member (blockMark f b true).bitmap c = true := by
  change member (setBit f.bitmap b) c = true
  rw [member_setBit (by decide),marked]
  simp

theorem owned_marked (valid : Layout f count) (free : member f.bitmap b = false) (claim : Owned f count slot) :
    slotBlock f slot ≠ b := by
  rintro rfl
  rw [(valid.inside slot claim).2] at free
  cases free

-- The block of numbers is there and no slot of the file names b.
theorem extended_fresh (valid : Layout f count) (entry : i < fsMaxFiles) (none : get f i .indirect = 0) (nonzero : c ≠ 0)
    (below : c < f.super.totalBlocks) (free : member f.bitmap c = false) (marked : member f.bitmap b = true)
    (fresh : ∀ slot,Owned f count slot → slotBlock f slot ≠ b) (sector : Sector)
    (claim : Owned (putBlock (put (blockMark f c true) i .indirect c) c sector) count slot) :
    slotBlock (putBlock (put (blockMark f c true) i .indirect c) c sector) slot ≠ b := by
  obtain ⟨layout,kept⟩ := layout_indirect valid entry none nonzero below free sector
  have tracked := valid.ready.tracked
  have own : get (putBlock (put (blockMark f c true) i .indirect c) c sector) i .indirect = c :=
    get_put_same (by simp only [sectorSize] at tracked; omega)
  cases slot with
  | data j k =>
    change dataBlock _ j k ≠ b
    rw [(kept j claim.1 k claim.2).1]
    exact fresh (.data j k) claim
  | indirect j =>
    change get _ j .indirect ≠ b
    by_cases equal : i = j
    · rw [←equal,own]
      rintro rfl
      rw [free] at marked
      cases marked
    · have same := @put_indirect (blockMark f c true) _ _ c equal
      change get (putBlock (put (blockMark f c true) i .indirect c) c sector) j .indirect = get f j .indirect at same
      rw [same]
      refine fresh (.indirect j) ⟨claim.1,?_⟩
      rw [←same]
      exact claim.2

-- A turn leaves the layout as it was or one block longer, and the rest where it was.
theorem turn_parts (valid : Layout f count) (entry : i < fsMaxFiles) (turn : Turn f count i index within bytes ok after) :
    Frame f after ∧ (ok = false ∧ Layout after count ∧ Undisturbed count f after ∨
      ok = true ∧ Stored f after count i index within bytes) := by
  have low : ∀ k,40 ≤ (Field.direct k).offset := fun k => by simp only [Field.offset,fsNameMax]; omega
  cases turn with
  | rewrite below =>
    obtain ⟨layout,places,others⟩ := stored_block valid entry below
      (overlay (block f (dataBlock f i index)) within bytes)
    have same : Function.update count i (max (count i) (index+1)) = count := by
      rw [Nat.max_eq_left below,Function.update_eq_self]
    refine ⟨frame_putBlock _ _ _,.inr ⟨rfl,by rw [same]; exact layout,places,others,?_⟩⟩
    rw [places i entry _ below,block_put,if_pos rfl,if_pos below]
  | ceiling => exact ⟨frame_refl f,.inl ⟨rfl,valid,fun _ _ _ _ => ⟨rfl,rfl⟩⟩⟩
  | full => exact ⟨frame_refl f,.inl ⟨rfl,valid,fun _ _ _ _ => ⟨rfl,rfl⟩⟩⟩
  | @stranded b next room far none first full =>
    exact ⟨frame_mark f b true,.inl ⟨rfl,layout_mark valid b,fun _ _ _ _ => ⟨rfl,rfl⟩⟩⟩
  | @direct b next near first =>
    subst next
    have fresh : ∀ slot,Owned (blockMark f b true) count slot → slotBlock (blockMark f b true) slot ≠ b :=
      fun slot claim => @owned_marked f count b slot valid first.free (by cases slot <;> exact claim)
    obtain ⟨layout,kept,here⟩ := attach_direct (layout_mark valid b) entry near first.inside (mark_marked f b) fresh
    exact ⟨frame_trans (frame_mark f b true) (frame_trans (frame_put (show Field.fits (.direct (count i)) from near) (low _))
        (frame_putBlock _ _ _)),
      .inr ⟨rfl,stored_fresh entry layout kept here⟩⟩
  | @linked b next room far some first =>
    subst next
    have fresh : ∀ slot,Owned (blockMark f b true) count slot → slotBlock (blockMark f b true) slot ≠ b :=
      fun slot claim => @owned_marked f count b slot valid first.free (by cases slot <;> exact claim)
    obtain ⟨layout,kept,here⟩ := attach_indirect (layout_mark valid b) entry far room some first.inside (mark_marked f b)
      fresh rfl
    exact ⟨frame_trans (frame_mark f b true) (frame_trans (frame_putBlock _ _ _) (frame_putBlock _ _ _)),
      .inr ⟨rfl,stored_fresh entry layout kept here⟩⟩
  | @extended b c next room far none first second =>
    subst next
    have nonzero : c ≠ 0 := by
      rintro rfl
      have zero := mark_zero first.lower
      rw [second.free] at zero
      cases zero
    have marks := layout_mark valid b
    have fresh : ∀ slot,Owned (blockMark f b true) count slot → slotBlock (blockMark f b true) slot ≠ b :=
      fun slot claim => @owned_marked f count b slot valid first.free (by cases slot <;> exact claim)
    have tracked := valid.ready.tracked
    have inside : c < f.super.totalBlocks := second.inside
    obtain ⟨layout,kept⟩ := layout_indirect marks entry none nonzero second.inside second.free fun _ => 0#8
    have own : get (putBlock (put (blockMark (blockMark f b true) c true) i .indirect c) c fun _ => 0#8) i .indirect = c :=
      get_put_same (by simp only [sectorSize] at tracked; omega)
    obtain ⟨grew,keptToo,here⟩ := attach_indirect layout entry far room (by rw [own]; exact nonzero) first.inside
      (mark_keeps _ c (mark_marked f b))
      (fun slot => extended_fresh marks entry none nonzero second.inside second.free (mark_marked f b) fresh _) rfl
    rw [own,block_put,if_pos rfl] at grew keptToo here
    exact ⟨frame_trans (frame_trans (frame_mark f b true) (frame_mark _ c true)) (frame_trans (frame_put (by trivial) (by decide))
      (frame_trans (frame_putBlock _ _ _) (frame_trans (frame_putBlock _ _ _) (frame_putBlock _ _ _)))),
      .inr ⟨rfl,stored_fresh entry grew (undisturbed_trans kept keptToo) here⟩⟩

def byteAt (f : Fs) (i p : Nat) : Byte := block f (dataBlock f i (p/fsBlockSize)) (p % fsBlockSize)
def blocks (n : Nat) : Nat := (n+fsBlockSize-1)/fsBlockSize

theorem blocksFor_whole (n : Nat) (short : blocks n ≤ fsMaxBlocks) : blocksFor n = blocks n := by
  rw [blocksFor,wrap_small,blocks]
  simp only [blocks,fsBlockSize,fsMaxBlocks,fsDirectBlocks,fsPerIndirect] at short ⊢
  omega

-- The files other than i, as far as they reach.
def OthersKept (count : Nat → Nat) (i : Nat) (f after : Fs) : Prop :=
  ∀ j < fsMaxFiles,j ≠ i → ∀ k < count j,
    dataBlock after j k = dataBlock f j k ∧ block after (dataBlock f j k) = block f (dataBlock f j k)

-- `written` bytes of the data have been stored behind the first `offset` bytes of file i.
structure Progress (f after : Fs) (count : Nat → Nat) (i offset : Nat) (data : List Byte) (written : Nat) : Prop where
  frame : Frame f after
  layout : Layout after (Function.update count i (blocks (offset+written)))
  others : OthersKept count i f after
  old : ∀ p < offset,byteAt after i p = byteAt f i p
  new : ∀ p < written,byteAt after i (offset+p) = data.getD p 0#8

-- write_at gave up: what was there is still there, whatever blocks were lost.
structure Refused (f after : Fs) (count : Nat → Nat) (i offset : Nat) : Prop where
  frame : Frame f after
  layout : Layout after count
  others : OthersKept count i f after
  old : ∀ p < offset,byteAt after i p = byteAt f i p

theorem overlay_inside (sector : Sector) (bytes : List Byte) (lower : within ≤ x) (upper : x < within+bytes.length) :
    overlay sector within bytes x = bytes.getD (x-within) 0#8 := patch_inside _ _ lower upper

theorem overlay_outside (sector : Sector) (bytes : List Byte) (outside : x < within ∨ within+bytes.length ≤ x) :
    overlay sector within bytes x = sector x := patch_outside _ _ outside

theorem byteAt_other {middle : Fs} (stored : Stored middle after count i index within bytes) (entry : i < fsMaxFiles)
    (below : p/fsBlockSize < count i) (different : p/fsBlockSize ≠ index) : byteAt after i p = byteAt middle i p := by
  rw [byteAt,byteAt,stored.places i entry _ below,stored.others i entry _ below (fun same => different same.2)]

theorem byteAt_here {middle : Fs} (stored : Stored middle after count i index within bytes) (same : p/fsBlockSize = index) :
    byteAt after i p = overlay (if index < count i then block middle (dataBlock middle i index) else fun _ => 0#8)
      within bytes (p % fsBlockSize) := by
  rw [byteAt,same,stored.here]

theorem others_stored {middle : Fs} (kept : OthersKept count i f middle)
    (stored : Stored middle after (Function.update count i c) i index within bytes) : OthersKept count i f after := by
  intro j slot different k less
  obtain ⟨place,same⟩ := kept j slot different k less
  have claim : k < Function.update count i c j := by rw [Function.update_of_ne different]; exact less
  have placed := stored.places j slot k claim
  have content := stored.others j slot k claim (fun own => different own.1)
  rw [place] at placed content
  exact ⟨placed,content.trans same⟩

theorem others_undisturbed {middle : Fs} (kept : OthersKept count i f middle)
    (undisturbed : Undisturbed (Function.update count i c) middle after) : OthersKept count i f after := by
  intro j slot different k less
  obtain ⟨place,same⟩ := kept j slot different k less
  have claim : k < Function.update count i c j := by rw [Function.update_of_ne different]; exact less
  obtain ⟨placed,content⟩ := undisturbed j slot k claim
  rw [place] at placed content
  exact ⟨placed,content.trans same⟩

section Turn
variable {middle : Fs} {i offset written : Nat} {data : List Byte}

-- One turn that stored its bytes. Its chunk ends where the block or the data ends.
theorem progress_stored (progress : Progress f middle count i offset data written) (entry : i < fsMaxFiles)
    (more : written < data.length) (cut : chunk = chunkSize (offset+written) (data.length-written))
    (frame : Frame middle after)
    (stored : Stored middle after (Function.update count i (blocks (offset+written))) i ((offset+written)/fsBlockSize)
      ((offset+written) % fsBlockSize) ((data.drop written).take chunk)) :
    Progress f after count i offset data (written+chunk) := by
  have positive : 0 < chunk := by
    rw [cut,chunkSize]
    simp only [fsBlockSize]
    omega
  have fits : (offset+written) % fsBlockSize+chunk ≤ fsBlockSize := by
    rw [cut,chunkSize]
    simp only [fsBlockSize]
    omega
  have within : written+chunk ≤ data.length := by
    rw [cut,chunkSize]
    omega
  have length : ((data.drop written).take chunk).length = chunk := by
    rw [List.length_take,List.length_drop]
    omega
  have claim : Function.update count i (blocks (offset+written)) i = blocks (offset+written) := Function.update_self ..
  refine ⟨frame_trans progress.frame frame,?_,others_stored progress.others stored,?_,?_⟩
  · have final := stored.layout
    rw [claim,Function.update_idem] at final
    have reached : max (blocks (offset+written)) ((offset+written)/fsBlockSize+1) = blocks (offset+(written+chunk)) := by
      simp only [blocks,fsBlockSize] at *
      omega
    rwa [reached] at final
  · intro p below
    rw [←progress.old p below]
    by_cases same : p/fsBlockSize = (offset+written)/fsBlockSize
    · have existing : (offset+written)/fsBlockSize < blocks (offset+written) := by
        simp only [blocks,fsBlockSize] at *
        omega
      rw [byteAt_here stored same,claim,if_pos existing,overlay_outside _ _ (by simp only [fsBlockSize] at *; omega),byteAt,
        same]
    · exact byteAt_other stored entry (by rw [claim]; simp only [blocks,fsBlockSize] at *; omega) same
  · intro p below
    by_cases earlier : p < written
    · rw [←progress.new p earlier]
      by_cases same : (offset+p)/fsBlockSize = (offset+written)/fsBlockSize
      · have existing : (offset+written)/fsBlockSize < blocks (offset+written) := by
          simp only [blocks,fsBlockSize] at *
          omega
        rw [byteAt_here stored same,claim,if_pos existing,overlay_outside _ _ (by simp only [fsBlockSize] at *; omega),byteAt,
          same]
      · exact byteAt_other stored entry (by rw [claim]; simp only [blocks,fsBlockSize] at *; omega) same
    · have same : (offset+p)/fsBlockSize = (offset+written)/fsBlockSize := by
        simp only [fsBlockSize] at *
        omega
      have position : (offset+p) % fsBlockSize = (offset+written) % fsBlockSize+(p-written) := by
        simp only [fsBlockSize] at *
        omega
      rw [byteAt_here stored same,position,overlay_inside _ _ (by omega) (by rw [length]; omega)]
      rw [Nat.add_sub_cancel_left,List.getD_eq_getElem?_getD,List.getElem?_take_of_lt (by omega),List.getElem?_drop,
        List.getD_eq_getElem?_getD,show written+(p-written) = p by omega]

theorem refused_failed (progress : Progress f middle count i offset data written) (entry : i < fsMaxFiles)
    (claimed : count i = blocks offset) (frame : Frame middle after)
    (layout : Layout after (Function.update count i (blocks (offset+written))))
    (undisturbed : Undisturbed (Function.update count i (blocks (offset+written))) middle after) :
    Refused f after count i offset := by
  refine ⟨frame_trans progress.frame frame,layout_mono layout ?_,others_undisturbed progress.others undisturbed,?_⟩
  · intro j _
    by_cases equal : j = i
    · rw [equal,Function.update_self,claimed]
      simp only [blocks]
      exact Nat.div_le_div_right (by omega)
    · rw [Function.update_of_ne equal]
  · intro p below
    rw [←progress.old p below]
    have claim : p/fsBlockSize < Function.update count i (blocks (offset+written)) i := by
      rw [Function.update_self]
      simp only [blocks,fsBlockSize]
      omega
    obtain ⟨place,same⟩ := undisturbed i entry _ claim
    rw [byteAt,place,same,byteAt]

-- write_at as a run of turns. `keeps` is carried from turn to turn beside the progress made,
-- `gives` is what the turn that fails leaves.
theorem writeFrom_turns {keeps : Nat → Fs → Prop} {gives : Fs → Prop} (entry : i < fsMaxFiles)
    (size : get f i .size = offset) (claimed : count i = blocks offset)
    (turn : ∀ {middle after written chunk ok},Progress f middle count i offset data written → keeps written middle →
      written < data.length → chunk = chunkSize (offset+written) (data.length-written) →
      Turn middle (Function.update count i (blocks (offset+written))) i ((offset+written)/fsBlockSize)
        ((offset+written) % fsBlockSize) ((data.drop written).take chunk) ok after →
      (ok = true → keeps (written+chunk) after) ∧ (ok = false → gives after))
    (progress : Progress f middle count i offset data written) (kept : keeps written middle)
    (bounded : written ≤ data.length) (enough : data.length ≤ written+turns)
    (aligned : written = 0 ∨ (offset+written) % fsBlockSize = 0 ∨ written = data.length) :
    (writeFrom middle i offset data turns written).1 = true ∧
        Progress f (writeFrom middle i offset data turns written).2 count i offset data data.length ∧
        keeps data.length (writeFrom middle i offset data turns written).2 ∨
      (writeFrom middle i offset data turns written).1 = false ∧
        Refused f (writeFrom middle i offset data turns written).2 count i offset ∧
        gives (writeFrom middle i offset data turns written).2 := by
  have complete : ∀ {middle written},Progress f middle count i offset data written → keeps written middle →
      written ≤ data.length → data.length ≤ written →
      Progress f middle count i offset data data.length ∧ keeps data.length middle := by
    intro middle written progress kept bounded done
    rw [show data.length = written by omega]
    exact ⟨progress,kept⟩
  induction turns generalizing middle written with
  | zero => exact .inl ⟨rfl,complete progress kept bounded enough⟩
  | succ turns ih =>
    unfold writeFrom
    by_cases done : data.length ≤ written
    · rw [if_pos done]
      exact .inl ⟨rfl,complete progress kept bounded done⟩
    rw [if_neg done]
    have short := progress.layout.short i entry
    rw [Function.update_self] at short
    have position : wrap 32 (offset+written) = offset+written := by
      apply wrap_small
      simp only [blocks,fsBlockSize,fsMaxBlocks,fsDirectBlocks,fsPerIndirect] at short
      omega
    have sizeNow : get middle i .size = offset := (frame_head progress.frame entry (by decide)).trans size
    have whole : blocksFor offset = blocks offset :=
      blocksFor_whole offset (Nat.le_trans (Nat.div_le_div_right (by omega)) short)
    have claim : Function.update count i (blocks (offset+written)) i = blocks (offset+written) :=
      Function.update_self ..
    have cuts : ∀ chunk,chunk = chunkSize (offset+written) (data.length-written) →
        0 < chunk ∧ written+chunk ≤ data.length ∧
        ((offset+(written+chunk)) % fsBlockSize = 0 ∨ written+chunk = data.length) := by
      intro chunk cut
      rw [chunkSize] at cut
      simp only [fsBlockSize] at *
      omega
    dsimp only
    rw [position]
    generalize cut : chunkSize (offset+written) (data.length-written) = chunk
    obtain ⟨positive,within,ends⟩ := cuts chunk cut.symm
    have taken : Turn middle (Function.update count i (blocks (offset+written))) i ((offset+written)/fsBlockSize)
        ((offset+written) % fsBlockSize) ((data.drop written).take chunk)
        (writeChunk middle i (offset+written) ((data.drop written).take chunk)).1
        (writeChunk middle i (offset+written) ((data.drop written).take chunk)).2 := by
      by_cases boundary : (offset+written) % fsBlockSize = 0
      · refine writeChunk_new progress.layout entry ?_ ?_
        · rw [claim]
          simp only [blocks,fsBlockSize] at *
          omega
        · rw [sizeNow,whole]
          simp only [blocks,fsBlockSize] at *
          omega
      · have start : written = 0 := by
          rcases aligned with zero | multiple | all
          · exact zero
          · exact absurd multiple boundary
          · omega
        refine writeChunk_old progress.layout entry ?_ ?_
        · rw [claim]
          simp only [blocks,fsBlockSize] at *
          omega
        · rw [sizeNow,whole,start]
          simp only [blocks,fsBlockSize] at *
          omega
    obtain ⟨next,refuses⟩ := turn progress kept (by omega) cut.symm taken
    obtain ⟨frame,outcome⟩ := turn_parts progress.layout entry taken
    generalize writeChunk middle i (offset+written) ((data.drop written).take chunk) = answer at *
    obtain ⟨stored,after⟩ := answer
    rcases outcome with ⟨failed,layout,undisturbed⟩ | ⟨succeeded,stored⟩
    · cases failed
      exact .inr ⟨rfl,refused_failed progress entry claimed frame layout undisturbed,refuses rfl⟩
    · cases succeeded
      exact ih (progress_stored progress entry (by omega) cut.symm frame stored) (next rfl) within (by omega) (.inr ends)
end Turn

theorem progress_start (valid : Layout f count) (claimed : count i = blocks offset) (data : List Byte) :
    Progress f f count i offset data 0 := by
  refine ⟨frame_refl f,?_,fun _ _ _ _ _ => ⟨rfl,rfl⟩,fun _ _ => rfl,nofun⟩
  rw [Nat.add_zero,←claimed,Function.update_eq_self]
  exact valid

-- The spec of write_at: all of the data is stored behind the file's end, or nothing that
-- can be read has changed.
theorem writeAt_turns {keeps : Nat → Fs → Prop} {gives : Fs → Prop} (valid : Layout f count) (entry : i < fsMaxFiles)
    (claimed : count i = blocks (get f i .size)) (data : List Byte)
    (turn : ∀ {middle after written chunk ok},Progress f middle count i (get f i .size) data written → keeps written middle →
      written < data.length → chunk = chunkSize (get f i .size+written) (data.length-written) →
      Turn middle (Function.update count i (blocks (get f i .size+written))) i ((get f i .size+written)/fsBlockSize)
        ((get f i .size+written) % fsBlockSize) ((data.drop written).take chunk) ok after →
      (ok = true → keeps (written+chunk) after) ∧ (ok = false → gives after)) (start : keeps 0 f) :
    (writeAt f i (get f i .size) data).1 = true ∧
        Progress f (writeAt f i (get f i .size) data).2 count i (get f i .size) data data.length ∧
        keeps data.length (writeAt f i (get f i .size) data).2 ∨
      (writeAt f i (get f i .size) data).1 = false ∧
        Refused f (writeAt f i (get f i .size) data).2 count i (get f i .size) ∧
        gives (writeAt f i (get f i .size) data).2 :=
  writeFrom_turns entry rfl claimed turn (progress_start valid claimed data) start (Nat.zero_le _) (by omega) (.inl rfl)

theorem writeAt_parts (valid : Layout f count) (entry : i < fsMaxFiles) (claimed : count i = blocks (get f i .size))
    (data : List Byte) :
    (writeAt f i (get f i .size) data).1 = true ∧
        Progress f (writeAt f i (get f i .size) data).2 count i (get f i .size) data data.length ∨
      (writeAt f i (get f i .size) data).1 = false ∧
        Refused f (writeAt f i (get f i .size) data).2 count i (get f i .size) := by
  rcases @writeAt_turns _ _ _ (fun _ _ => True) (fun _ => True) valid entry claimed data
    (fun _ _ _ _ _ => ⟨fun _ => trivial,fun _ => trivial⟩) trivial with ⟨ok,progress,_⟩ | ⟨failed,refused,_⟩
  · exact .inl ⟨ok,progress⟩
  · exact .inr ⟨failed,refused⟩

end Arthic.FileWrites
