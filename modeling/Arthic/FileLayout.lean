import Arthic.FileSystem

namespace Arthic.FileLayout
open BitWords ByteMemory Unsigned FileSystem
variable {f after : Fs} {count : Nat → Nat}

-- A disk that works and is as large as the superblock says.
structure Ready (f : Fs) : Prop where
  present : f.disk.present = true
  works : ∀ lba < f.disk.totalSectors,f.disk.readable lba = true ∧ f.disk.writable lba = true
  start : f.super.dataStart = fsDataStart
  tracked : f.super.totalBlocks ≤ sectorSize*8
  enough : fsDataStart+f.super.totalBlocks ≤ f.disk.totalSectors

def block (f : Fs) (b : Nat) : Sector := f.disk.sectors (fsDataStart+b)
def putSector (f : Fs) (lba : Nat) (sector : Sector) : Fs :=
  {f with
    disk:={f.disk with sectors:=Function.update f.disk.sectors lba sector,log:=f.disk.log++[(lba,sector)]}}
def putBlock (f : Fs) (b : Nat) (sector : Sector) : Fs := putSector f (fsDataStart+b) sector

theorem ready_putSector (ready : Ready f) : Ready (putSector f lba sector) :=
  ⟨ready.present,ready.works,ready.start,ready.tracked,ready.enough⟩

theorem read_sector (ready : Ready f) (below : lba < f.disk.totalSectors) (small : lba < 2^28) :
    ataReadSector f.disk lba = some (f.disk.sectors lba) := by
  have same : lba28 lba = lba := Nat.mod_eq_of_lt small
  rw [ataReadSector,same,if_pos ⟨ready.present,(ready.works lba below).1⟩]

theorem write_sector (ready : Ready f) (below : lba < f.disk.totalSectors) (small : lba < 2^28) :
    ataWriteSector f.disk lba sector = (true,(putSector f lba sector).disk) := by
  have same : lba28 lba = lba := Nat.mod_eq_of_lt small
  rw [ataWriteSector,same,if_pos ⟨ready.present,(ready.works lba below).2⟩]
  rfl

theorem lba_block (ready : Ready f) (below : b < f.super.totalBlocks) :
    lbaOf f b = fsDataStart+b ∧ fsDataStart+b < f.disk.totalSectors ∧ fsDataStart+b < 2^28 := by
  have tracked := ready.tracked
  have enough := ready.enough
  rw [lbaOf,ready.start]
  simp only [fsDataStart,sectorSize] at *
  refine ⟨wrap_small ?_,?_,?_⟩ <;> omega

theorem read_block (ready : Ready f) (below : b < f.super.totalBlocks) :
    ataReadSector f.disk (lbaOf f b) = some (block f b) := by
  obtain ⟨lba,inside,small⟩ := lba_block ready below
  rw [lba,read_sector ready inside small]
  rfl

theorem write_block (ready : Ready f) (below : b < f.super.totalBlocks) :
    ataWriteSector f.disk (lbaOf f b) sector = (true,(putBlock f b sector).disk) := by
  obtain ⟨lba,inside,small⟩ := lba_block ready below
  rw [lba,write_sector ready inside small]
  rfl

theorem writeSector_ready (ready : Ready f) (below : b < f.super.totalBlocks) :
    writeSector f b sector = (true,putBlock f b sector) := by
  rw [writeSector,write_block ready below]
  rfl

theorem block_put (f : Fs) (b c : Nat) (sector : Sector) :
    block (putBlock f b sector) c = if c = b then sector else block f c := by
  simp only [block,putBlock,putSector]
  by_cases equal : c = b
  · simp [equal]
  · simp [equal]

-- Fields of entries that do not share bytes.
def Field.fits : Field → Prop
  | .direct k => k < fsDirectBlocks
  | _ => True

theorem offset_bounds (fits : Field.fits field) : 32 ≤ field.offset ∧ field.offset+4 ≤ 76 ∧ field.offset % 4 = 0 := by
  cases field with
  | direct k => simp only [Field.fits,Field.offset,fsNameMax,fsDirectBlocks] at *; omega
  | _ => decide

theorem offset_injective (first : Field.fits field) (second : Field.fits other) (same : field.offset = other.offset) :
    field = other := by
  cases field <;> cases other <;> simp only [Field.fits,Field.offset,fsNameMax,fsDirectBlocks] at *
  case direct.direct k l => rw [show k = l by omega]
  all_goals first | rfl | omega

theorem get_put_same (small : value < 2^32) : get (put f i field value) i field = value :=
  load_store _ _ small

theorem get_put_other (first : Field.fits field) (second : Field.fits other) (different : i ≠ j ∨ field ≠ other) :
    get (put f i field value) j other = get f j other := by
  obtain ⟨_,_,aligned⟩ := offset_bounds first
  obtain ⟨_,_,alignedToo⟩ := offset_bounds second
  apply load_store_apart
  have unlike : i = j → field.offset ≠ other.offset := by
    intro same equal
    rcases different with apart | apart
    · exact apart same
    · exact apart (offset_injective first second equal)
  simp only [entrySize]
  omega

theorem get_clear (fits : Field.fits field) : get (clearEntry f i) i field = 0 := by
  obtain ⟨_,_,_⟩ := offset_bounds fits
  have zeros : ∀ k < 4,fill f.directory (i*entrySize) entrySize 0#8 (i*entrySize+field.offset+k) = digit 0 k := by
    intro k below
    rw [fill,patch_inside _ _ (by omega) (by simp only [entrySize]; omega)]
    simp [digit]
  exact load_digits zeros

theorem get_clear_other (different : i ≠ j) (fits : Field.fits field) :
    get (clearEntry f i) j field = get f j field := by
  obtain ⟨_,_,_⟩ := offset_bounds fits
  refine @load_patch _ _ (i*entrySize) entrySize f.directory (fun _ => 0#8) ?_
  simp only [entrySize]
  omega

-- The blocks of a file by name: its data blocks in order, and the block of numbers.
inductive Slot where
  | data (i k : Nat)
  | indirect (i : Nat)
  deriving DecidableEq

def dataBlock (f : Fs) (i k : Nat) : Nat :=
  if k < fsDirectBlocks then get f i (.direct k)
  else load (block f (get f i .indirect)) (4*(k-fsDirectBlocks)) 4

def slotBlock (f : Fs) : Slot → Nat
  | .data i k => dataBlock f i k
  | .indirect i => get f i .indirect

-- `count` says how many data blocks each entry has a claim to.
def Owned (f : Fs) (count : Nat → Nat) : Slot → Prop
  | .data i k => i < fsMaxFiles ∧ k < count i
  | .indirect i => i < fsMaxFiles ∧ get f i .indirect ≠ 0

structure Layout (f : Fs) (count : Nat → Nat) : Prop where
  ready : Ready f
  short : ∀ i < fsMaxFiles,count i ≤ fsMaxBlocks
  reach : ∀ i < fsMaxFiles,fsDirectBlocks < count i → get f i .indirect ≠ 0
  inside : ∀ slot,Owned f count slot →
    slotBlock f slot < f.super.totalBlocks ∧ member f.bitmap (slotBlock f slot) = true
  apart : ∀ slot other,Owned f count slot → Owned f count other → slotBlock f slot = slotBlock f other → slot = other

-- What slots there still are name the blocks they named, and these are still marked.
theorem layout_shrink {fewer : Nat → Nat} (valid : Layout f count) (ready : Ready after)
    (total : after.super.totalBlocks = f.super.totalBlocks) (less : ∀ i < fsMaxFiles,fewer i ≤ count i)
    (indirect : ∀ i < fsMaxFiles,get after i .indirect ≠ 0 → get after i .indirect = get f i .indirect)
    (reach : ∀ i < fsMaxFiles,fsDirectBlocks < fewer i → get after i .indirect ≠ 0)
    (data : ∀ i < fsMaxFiles,∀ k < fewer i,dataBlock after i k = dataBlock f i k)
    (marks : ∀ slot,Owned after fewer slot → member f.bitmap (slotBlock f slot) = true →
      member after.bitmap (slotBlock f slot) = true) : Layout after fewer := by
  have owned : ∀ slot,Owned after fewer slot → Owned f count slot ∧ slotBlock after slot = slotBlock f slot := by
    intro slot claim
    cases slot with
    | data i k => exact ⟨⟨claim.1,Nat.lt_of_lt_of_le claim.2 (less i claim.1)⟩,data i claim.1 k claim.2⟩
    | indirect i =>
      have same := indirect i claim.1 claim.2
      exact ⟨⟨claim.1,by rw [←same]; exact claim.2⟩,same⟩
  refine ⟨ready,fun i below => Nat.le_trans (less i below) (valid.short i below),reach,?_,?_⟩
  · intro slot claim
    obtain ⟨old,same⟩ := owned slot claim
    rw [same,total]
    exact ⟨(valid.inside slot old).1,marks slot claim (valid.inside slot old).2⟩
  · intro slot other first second equal
    obtain ⟨oldFirst,sameFirst⟩ := owned slot first
    obtain ⟨oldSecond,sameSecond⟩ := owned other second
    rw [sameFirst,sameSecond] at equal
    exact valid.apart slot other oldFirst oldSecond equal

theorem layout_mono {fewer : Nat → Nat} (valid : Layout f count) (less : ∀ i < fsMaxFiles,fewer i ≤ count i) :
    Layout f fewer :=
  layout_shrink valid valid.ready rfl less (fun _ _ _ => rfl)
    (fun i below more => valid.reach i below (Nat.lt_of_lt_of_le more (less i below))) (fun _ _ _ _ => rfl)
    (fun _ _ marked => marked)

-- Nothing a slot names has changed, and no mark went away.
theorem layout_same (valid : Layout f count) (ready : Ready after) (total : after.super.totalBlocks = f.super.totalBlocks)
    (indirect : ∀ i < fsMaxFiles,get after i .indirect = get f i .indirect)
    (data : ∀ i < fsMaxFiles,∀ k < count i,dataBlock after i k = dataBlock f i k)
    (marks : ∀ b,member f.bitmap b = true → member after.bitmap b = true) : Layout after count :=
  layout_shrink valid ready total (fun _ _ => Nat.le_refl _) (fun i below _ => indirect i below)
    (fun i below more => by rw [indirect i below]; exact valid.reach i below more) data (fun _ _ => marks _)

theorem layout_mark (valid : Layout f count) (b : Nat) : Layout (blockMark f b true) count := by
  refine layout_same valid ?_ rfl (fun _ _ => rfl) (fun _ _ _ _ => rfl) ?_
  · exact ⟨valid.ready.present,valid.ready.works,valid.ready.start,valid.ready.tracked,valid.ready.enough⟩
  · intro c marked
    simp only [blockMark,if_true]
    rw [member_setBit (by decide),marked]
    simp

-- block_alloc looks from block 0 up.
def Full (f : Fs) : Prop := ∀ b < f.super.totalBlocks,member f.bitmap b = true

structure Lowest (f : Fs) (b : Nat) : Prop where
  inside : b < f.super.totalBlocks
  free : member f.bitmap b = false
  lower : ∀ c < b,member f.bitmap c = true

theorem alloc_parts (ready : Ready f) :
    blockAlloc f = (noBlock,f) ∧ Full f ∨
    ∃ b,blockAlloc f = (b,blockMark f b true) ∧ Lowest f b ∧ b ≠ noBlock := by
  unfold blockAlloc
  split
  · rename_i b found
    obtain ⟨free,below,earlier⟩ := List.find?_range_eq_some.mp found
    refine .inr ⟨b,rfl,⟨List.mem_range.mp below,?_,?_⟩,?_⟩
    · rw [blockUsed,testShift_member (by decide)] at free
      simpa using free
    · intro c lower
      have used := earlier c lower
      rw [blockUsed,testShift_member (by decide)] at used
      simpa using used
    · have tracked := ready.tracked
      have bound := List.mem_range.mp below
      simp only [sectorSize,noBlock] at *
      omega
  · rename_i none
    refine .inl ⟨rfl,?_⟩
    intro b below
    have used := List.find?_eq_none.mp none b (List.mem_range.mpr below)
    rw [blockUsed,testShift_member (by decide)] at used
    simpa using used

-- The lowest free block is taken, so block 0 is never free afterwards.
theorem mark_zero (lower : ∀ c < b,member f.bitmap c = true) : member (blockMark f b true).bitmap 0 = true := by
  change member (setBit f.bitmap b) 0 = true
  rw [member_setBit (by decide)]
  rcases Nat.eq_zero_or_pos b with first | later
  · simp [first]
  · simp [lower 0 later]

theorem blockAt_owned (valid : Layout f count) (entry : i < fsMaxFiles) (below : k < count i) :
    blockAt f i k = dataBlock f i k ∧ dataBlock f i k < f.super.totalBlocks ∧ dataBlock f i k ≠ noBlock := by
  obtain ⟨small,_⟩ := valid.inside (.data i k) ⟨entry,below⟩
  change dataBlock f i k < _ at small
  have tracked := valid.ready.tracked
  have short := valid.short i entry
  refine ⟨?_,small,?_⟩
  · unfold blockAt dataBlock
    split
    · rfl
    · rename_i far
      have some := valid.reach i entry (by omega)
      obtain ⟨inside,_⟩ := valid.inside (.indirect i) ⟨entry,some⟩
      change get f i .indirect < _ at inside
      rw [if_neg some,read_block valid.ready inside]
      dsimp only
      rw [if_neg]
      simp only [fsMaxBlocks] at short
      omega
  · simp only [sectorSize,noBlock] at *
    omega

-- Block operations leave an entry's first forty bytes alone: name, size and used flag.
structure Frame (f after : Fs) : Prop where
  super : after.super = f.super
  mounted : after.mounted = f.mounted
  heads : ∀ i < fsMaxFiles,∀ x < 40,after.directory (i*entrySize+x) = f.directory (i*entrySize+x)

theorem frame_refl (f : Fs) : Frame f f := ⟨rfl,rfl,fun _ _ _ _ => rfl⟩

theorem frame_trans {middle : Fs} (first : Frame f middle) (second : Frame middle after) : Frame f after :=
  ⟨second.super.trans first.super,second.mounted.trans first.mounted,
    fun i entry x below => (second.heads i entry x below).trans (first.heads i entry x below)⟩

theorem frame_head (frame : Frame f after) (entry : i < fsMaxFiles) (head : field.offset+4 ≤ 40) :
    get after i field = get f i field := by
  apply load_congr
  intro k below
  rw [Nat.add_assoc]
  exact frame.heads i entry _ (by omega)

theorem frame_put (fits : Field.fits field) (low : 40 ≤ field.offset) : Frame f (put f i field value) := by
  obtain ⟨_,_,_⟩ := offset_bounds fits
  refine ⟨rfl,rfl,?_⟩
  intro j entry x below
  apply patch_outside
  simp only [entrySize]
  omega

-- One slot more, in a block that no slot names.
theorem layout_extend {more : Nat → Nat} (valid : Layout f count) (ready : Ready after)
    (total : after.super.totalBlocks = f.super.totalBlocks) (slot : Slot)
    (owned : ∀ other,Owned after more other → other = slot ∨ Owned f count other ∧ slotBlock after other = slotBlock f other)
    (place : slotBlock after slot < f.super.totalBlocks ∧ member after.bitmap (slotBlock after slot) = true)
    (fresh : ∀ other,Owned f count other → slotBlock f other ≠ slotBlock after slot)
    (marks : ∀ b,member f.bitmap b = true → member after.bitmap b = true)
    (short : ∀ i < fsMaxFiles,more i ≤ fsMaxBlocks)
    (reach : ∀ i < fsMaxFiles,fsDirectBlocks < more i → get after i .indirect ≠ 0) : Layout after more := by
  refine ⟨ready,short,reach,?_,?_⟩
  · intro other claim
    rw [total]
    rcases owned other claim with rfl | ⟨old,same⟩
    · exact place
    · rw [same]
      exact ⟨(valid.inside other old).1,marks _ (valid.inside other old).2⟩
  · intro first second firstClaim secondClaim equal
    rcases owned first firstClaim with rfl | ⟨oldFirst,sameFirst⟩ <;>
      rcases owned second secondClaim with rfl | ⟨oldSecond,sameSecond⟩
    · rfl
    · exact absurd (sameSecond.symm.trans equal.symm) (fresh second oldSecond)
    · exact absurd (sameFirst.symm.trans equal) (fresh first oldFirst)
    · exact valid.apart first second oldFirst oldSecond (sameFirst.symm.trans (equal.trans sameSecond))

-- Every file's data is where it was and what it was.
def Undisturbed (count : Nat → Nat) (f after : Fs) : Prop :=
  ∀ i < fsMaxFiles,∀ k < count i,
    dataBlock after i k = dataBlock f i k ∧ block after (dataBlock f i k) = block f (dataBlock f i k)

theorem undisturbed_trans {middle : Fs} (first : Undisturbed count f middle) (second : Undisturbed count middle after) :
    Undisturbed count f after := by
  intro i entry k below
  obtain ⟨placeFirst,sameFirst⟩ := first i entry k below
  obtain ⟨placeSecond,sameSecond⟩ := second i entry k below
  rw [placeFirst] at placeSecond sameSecond
  exact ⟨placeSecond,sameSecond.trans sameFirst⟩

theorem put_indirect (different : i ≠ j) : get (put f i .indirect value) j .indirect = get f j .indirect :=
  get_put_other (by trivial) (by trivial) (.inl different)

theorem put_direct (below : k < fsDirectBlocks) : get (put f i .indirect value) j (.direct k) = get f j (.direct k) :=
  get_put_other (by trivial) below (.inr (by simp))

theorem layout_indirect (valid : Layout f count) (entry : i < fsMaxFiles) (none : get f i .indirect = 0) (nonzero : c ≠ 0)
    (below : c < f.super.totalBlocks) (free : member f.bitmap c = false) (sector : Sector) :
    Layout (putBlock (put (blockMark f c true) i .indirect c) c sector) count ∧
    Undisturbed count f (putBlock (put (blockMark f c true) i .indirect c) c sector) := by
  have tracked := valid.ready.tracked
  have small : c < 2^32 := by simp only [sectorSize] at tracked; omega
  have own : get (putBlock (put (blockMark f c true) i .indirect c) c sector) i .indirect = c := get_put_same small
  have others : ∀ j,i ≠ j → get (putBlock (put (blockMark f c true) i .indirect c) c sector) j .indirect =
      get f j .indirect := fun j different => put_indirect different
  have few : count i ≤ fsDirectBlocks := by
    by_contra more
    exact valid.reach i entry (by omega) none
  have unowned : ∀ slot,Owned f count slot → slotBlock f slot ≠ c := by
    intro slot claim equal
    have marked := (valid.inside slot claim).2
    rw [equal,free] at marked
    cases marked
  have data : ∀ j < fsMaxFiles,∀ k < count j,
      dataBlock (putBlock (put (blockMark f c true) i .indirect c) c sector) j k = dataBlock f j k := by
    intro j slot k less
    unfold dataBlock
    split
    · rename_i direct; exact put_direct direct
    · rename_i far
      have different : i ≠ j := by
        rintro rfl
        omega
      have foreign : get f j .indirect ≠ c := unowned (.indirect j) ⟨slot,valid.reach j slot (by omega)⟩
      rw [others j different,block_put,if_neg foreign]
      rfl
  refine ⟨?_,?_⟩
  · refine layout_extend valid (ready_putSector ⟨valid.ready.present,valid.ready.works,valid.ready.start,valid.ready.tracked,
      valid.ready.enough⟩) rfl (.indirect i) ?_ ?_ ?_ ?_ valid.short ?_
    · intro slot claim
      cases slot with
      | data j k => exact .inr ⟨claim,data j claim.1 k claim.2⟩
      | indirect j =>
        by_cases equal : i = j
        · exact .inl (by rw [equal])
        · have same := others j equal
          exact .inr ⟨⟨claim.1,by rw [←same]; exact claim.2⟩,same⟩
    · change get _ i .indirect < _ ∧ member _ (get _ i .indirect) = true
      rw [own]
      refine ⟨below,?_⟩
      change member (setBit f.bitmap c) c = true
      rw [member_setBit (by decide)]
      simp
    · intro slot claim
      change _ ≠ get _ i .indirect
      rw [own]
      exact unowned slot claim
    · intro b marked
      change member (setBit f.bitmap c) b = true
      rw [member_setBit (by decide),marked]
      simp
    · intro j slot more
      by_cases equal : i = j
      · rw [←equal,own]; exact nonzero
      · rw [others j equal]; exact valid.reach j slot more
  · intro j slot k less
    have foreign : dataBlock f j k ≠ c := unowned (.data j k) ⟨slot,less⟩
    refine ⟨data j slot k less,?_⟩
    rw [block_put,if_neg foreign]
    rfl

def grown (count : Nat → Nat) (i : Nat) : Nat → Nat := Function.update count i (count i+1)

theorem grown_owned (claim : Owned after (grown count i) slot) (same : ∀ j < fsMaxFiles,get after j .indirect = get f j .indirect) :
    slot = .data i (count i) ∨ Owned f count slot := by
  cases slot with
  | data j k =>
    obtain ⟨entry,below⟩ := claim
    by_cases equal : j = i
    · subst equal
      rw [grown,Function.update_self] at below
      by_cases last : k = count j
      · exact .inl (by rw [last])
      · exact .inr ⟨entry,by omega⟩
    · rw [grown,Function.update_of_ne equal] at below
      exact .inr ⟨entry,below⟩
  | indirect j => exact .inr ⟨claim.1,by rw [←same j claim.1]; exact claim.2⟩

-- The next data block of a file is attached: `after` differs from f in one number, which
-- is the directory's or the indirect block's, and names b where no slot was.
theorem layout_attach (valid : Layout f count) (entry : i < fsMaxFiles) (room : count i < fsMaxBlocks) (ready : Ready after)
    (super : after.super = f.super) (bitmap : after.bitmap = f.bitmap)
    (indirect : ∀ j < fsMaxFiles,get after j .indirect = get f j .indirect)
    (data : ∀ j < fsMaxFiles,∀ k < count j,dataBlock after j k = dataBlock f j k)
    (here : dataBlock after i (count i) = b) (below : b < f.super.totalBlocks) (marked : member f.bitmap b = true)
    (fresh : ∀ slot,Owned f count slot → slotBlock f slot ≠ b)
    (reach : fsDirectBlocks ≤ count i → get f i .indirect ≠ 0) : Layout after (grown count i) := by
  refine layout_extend valid ready (by rw [super]) (.data i (count i)) ?_ ?_ ?_ ?_ ?_ ?_
  · intro slot claim
    refine (grown_owned claim indirect).imp_right fun old => ⟨old,?_⟩
    cases slot with
    | data j k => exact data j old.1 k old.2
    | indirect j => exact indirect j old.1
  · change dataBlock after i (count i) < _ ∧ member after.bitmap (dataBlock after i (count i)) = true
    rw [here,bitmap]
    exact ⟨below,marked⟩
  · intro slot claim
    change _ ≠ dataBlock after i (count i)
    rw [here]
    exact fresh slot claim
  · intro c set
    rw [bitmap]
    exact set
  · intro j slot
    by_cases equal : j = i
    · rw [equal,grown,Function.update_self]; exact room
    · rw [grown,Function.update_of_ne equal]; exact valid.short j slot
  · intro j slot more
    rw [indirect j slot]
    by_cases equal : j = i
    · subst equal
      rw [grown,Function.update_self] at more
      exact reach (by omega)
    · rw [grown,Function.update_of_ne equal] at more
      exact valid.reach j slot more

theorem attach_direct (valid : Layout f count) (entry : i < fsMaxFiles) (direct : count i < fsDirectBlocks)
    (below : b < f.super.totalBlocks) (marked : member f.bitmap b = true)
    (fresh : ∀ slot,Owned f count slot → slotBlock f slot ≠ b) :
    Layout (put f i (.direct (count i)) b) (grown count i) ∧ Undisturbed count f (put f i (.direct (count i)) b) ∧
    dataBlock (put f i (.direct (count i)) b) i (count i) = b := by
  have tracked := valid.ready.tracked
  have small : b < 2^32 := by simp only [sectorSize] at tracked; omega
  have indirect : ∀ j < fsMaxFiles,get (put f i (.direct (count i)) b) j .indirect = get f j .indirect :=
    fun j _ => get_put_other direct (by trivial) (.inr (by simp))
  have here : dataBlock (put f i (.direct (count i)) b) i (count i) = b := by
    rw [dataBlock,if_pos direct,get_put_same small]
  have data : ∀ j < fsMaxFiles,∀ k < count j,dataBlock (put f i (.direct (count i)) b) j k = dataBlock f j k := by
    intro j slot k less
    unfold dataBlock
    split
    · rename_i low
      refine get_put_other direct low ?_
      by_cases equal : i = j
      · subst equal
        refine .inr fun same => ?_
        have := Field.direct.inj same
        omega
      · exact .inl equal
    · rw [indirect j slot]
      rfl
  refine ⟨layout_attach valid entry ?_ ⟨valid.ready.present,valid.ready.works,valid.ready.start,valid.ready.tracked,
    valid.ready.enough⟩ rfl rfl indirect data here below marked fresh (fun many => by omega),
    fun j slot k less => ⟨data j slot k less,rfl⟩,here⟩
  simp only [fsMaxBlocks]
  omega

theorem attach_indirect (valid : Layout f count) (entry : i < fsMaxFiles) (many : fsDirectBlocks ≤ count i)
    (room : count i < fsMaxBlocks) (some : get f i .indirect ≠ 0) (below : b < f.super.totalBlocks)
    (marked : member f.bitmap b = true) (fresh : ∀ slot,Owned f count slot → slotBlock f slot ≠ b)
    (stored : after = putBlock f (get f i .indirect)
      (store (block f (get f i .indirect)) (4*(count i-fsDirectBlocks)) 4 b)) :
    Layout after (grown count i) ∧ Undisturbed count f after ∧ dataBlock after i (count i) = b := by
  have tracked := valid.ready.tracked
  have small : b < 2^32 := by simp only [sectorSize] at tracked; omega
  have same : ∀ j,get after j .indirect = get f j .indirect := fun j => by rw [stored]; rfl
  have direct : ∀ j k,get after j (.direct k) = get f j (.direct k) := fun j k => by rw [stored]; rfl
  have contents : ∀ c,block after c = if c = get f i .indirect then
      store (block f (get f i .indirect)) (4*(count i-fsDirectBlocks)) 4 b else block f c := by
    intro c
    rw [stored,block_put]
  have here : dataBlock after i (count i) = b := by
    rw [dataBlock,if_neg (by omega),same,contents,if_pos rfl]
    exact load_store _ _ small
  have data : ∀ j < fsMaxFiles,∀ k < count j,dataBlock after j k = dataBlock f j k := by
    intro j slot k less
    unfold dataBlock
    split
    · exact direct j k
    · rename_i far
      rw [same,contents]
      split
      · rename_i equal
        have owner : Slot.indirect j = Slot.indirect i := valid.apart (.indirect j) (.indirect i)
          ⟨slot,by rw [equal]; exact some⟩ ⟨entry,some⟩ equal
        cases Slot.indirect.inj owner
        rw [load_store_apart _ _ (by omega)]
      · rfl
  have blocks : ∀ j < fsMaxFiles,∀ k < count j,dataBlock f j k ≠ get f i .indirect := by
    intro j slot k less equal
    cases valid.apart (.data j k) (.indirect i) ⟨slot,less⟩ ⟨entry,some⟩ equal
  have ready : Ready after := by rw [stored]; exact ready_putSector valid.ready
  refine ⟨layout_attach valid entry room ready (by rw [stored]; rfl) (by rw [stored]; rfl) (fun j _ => same j) data here below
    marked fresh (fun _ => some),?_,here⟩
  intro j slot k less
  refine ⟨data j slot k less,?_⟩
  rw [contents,if_neg (blocks j slot k less)]

end Arthic.FileLayout
