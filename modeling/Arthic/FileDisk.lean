import Arthic.FileMap

namespace Arthic.FileDisk
open BitWords ByteMemory FileSystem FileLayout FileWrites FileTable FileOperations
variable {f v after : Fs} {rows : Nat → Row} {d : Disk}

-- The filesystem that is on a disk, whatever a running kernel holds in memory.
def superOf (sector : Sector) : Superblock := ⟨load sector 0 4,load sector 4 4,load sector 8 4,load sector 12 4⟩

def stored (d : Disk) : Fs :=
  ⟨d,superOf (d.sectors 0),true,d.sectors fsBitmapSector,
    fun x => if x < fsMaxFiles*entrySize then d.sectors (fsDirStart+x/sectorSize) (x % sectorSize) else 0#8⟩

theorem readDirectory_parts (ready : Ready (stored f.disk)) (sectors : List Nat) (low : ∀ i ∈ sectors,i < fsDirSectors) :
    ∃ directory,readDirectoryFrom f sectors = (true,{f with directory:=directory}) ∧
      ∀ x,directory x = if x/sectorSize ∈ sectors then f.disk.sectors (fsDirStart+x/sectorSize) (x % sectorSize)
        else f.directory x := by
  induction sectors generalizing f with
  | nil => exact ⟨f.directory,rfl,fun _ => rfl⟩
  | cons i rest ih =>
    have below := low i (List.mem_cons_self ..)
    have enough := ready.enough
    have small : fsDirStart+i < f.disk.totalSectors ∧ fsDirStart+i < 2^28 := by
      have same : (stored f.disk).disk.totalSectors = f.disk.totalSectors := rfl
      rw [same] at enough
      simp only [fsDirStart,fsDirSectors,fsDataStart] at *
      omega
    have read : ataReadSector f.disk (fsDirStart+i) = some (f.disk.sectors (fsDirStart+i)) :=
      read_sector (f:=stored f.disk) ready small.1 small.2
    generalize patched : patch f.directory (i*sectorSize) sectorSize (f.disk.sectors (fsDirStart+i)) = next
    obtain ⟨directory,done,bytes⟩ := @ih {f with directory:=next} ready
      (fun j member => low j (List.mem_cons_of_mem _ member))
    dsimp only at bytes
    refine ⟨directory,?_,?_⟩
    · unfold readDirectoryFrom
      rw [read]
      dsimp only
      rw [patched]
      exact done
    · intro x
      rw [bytes x]
      by_cases here : x/sectorSize = i
      · have inside : i*sectorSize ≤ x ∧ x < i*sectorSize+sectorSize ∧ x-i*sectorSize = x % sectorSize := by
          simp only [sectorSize] at *
          omega
        rw [if_pos (List.mem_cons.mpr (.inl here))]
        split
        · rfl
        · rw [←patched,patch_inside _ _ inside.1 inside.2.1,inside.2.2,here]
      · have outside : x < i*sectorSize ∨ i*sectorSize+sectorSize ≤ x := by
          simp only [sectorSize] at *
          omega
        by_cases listed : x/sectorSize ∈ rest
        · rw [if_pos listed,if_pos (List.mem_cons_of_mem _ listed)]
        · rw [if_neg listed,if_neg (fun either => (List.mem_cons.mp either).elim here listed)]
          rw [←patched]
          exact patch_outside _ _ outside

theorem fsMount_parts (ready : Ready (stored d)) (magic : (stored d).super.magic = fsMagic) {memory : Fs}
    (disk : memory.disk = d) :
    ∃ directory,fsMount memory = (true,{stored d with directory:=directory}) ∧
      ∀ x < fsMaxFiles*entrySize,directory x = (stored d).directory x := by
  subst disk
  have enough := ready.enough
  have low : ∀ lba < fsDataStart,lba < memory.disk.totalSectors := by
    intro lba below
    have same : (stored memory.disk).disk.totalSectors = memory.disk.totalSectors := rfl
    rw [same] at enough
    omega
  have first : ataReadSector memory.disk 0 = some (memory.disk.sectors 0) :=
    read_sector (f:=stored memory.disk) ready (low 0 (by decide)) (by decide)
  have last : ataReadSector memory.disk fsBitmapSector = some (memory.disk.sectors fsBitmapSector) :=
    read_sector (f:=stored memory.disk) ready (low _ (by decide)) (by decide)
  have matching : ¬ load (memory.disk.sectors 0) 0 4 ≠ fsMagic := not_not.mpr magic
  generalize begun : Fs.mk memory.disk ⟨load (memory.disk.sectors 0) 0 4,load (memory.disk.sectors 0) 4 4,
    load (memory.disk.sectors 0) 8 4,load (memory.disk.sectors 0) 12 4⟩ false memory.bitmap memory.directory = start
  have disk : start.disk = memory.disk := by rw [←begun]
  obtain ⟨directory,read,bytes⟩ := @readDirectory_parts start (by rw [disk]; exact ready) (List.range fsDirSectors)
    (fun i member => List.mem_range.mp member)
  refine ⟨directory,?_,?_⟩
  · unfold fsMount
    dsimp only
    rw [first]
    dsimp only
    rw [if_neg matching,begun,readDirectory,read]
    dsimp only
    rw [if_neg (by simp),disk,last,←begun]
    rfl
  · intro x below
    have listed : x/sectorSize ∈ List.range fsDirSectors := by
      rw [List.mem_range]
      simp only [fsMaxFiles,entrySize,sectorSize,fsDirSectors] at *
      omega
    rw [bytes x,if_pos listed,disk]
    exact (if_pos below).symm

-- The same 128 bytes for an entry.
def Alike (j : Nat) (f after : Fs) : Prop :=
  ∀ x < entrySize,after.directory (j*entrySize+x) = f.directory (j*entrySize+x)

theorem alike_get (alike : Alike j f after) (fits : Field.fits field) : get after j field = get f j field := by
  obtain ⟨_,_,_⟩ := offset_bounds fits
  apply load_congr
  intro k below
  rw [Nat.add_assoc]
  exact alike _ (by simp only [entrySize]; omega)

theorem alike_data (alike : Alike j f after) (same : ∀ b,block after b = block f b) (k : Nat) :
    dataBlock after j k = dataBlock f j k := by
  unfold dataBlock
  split
  · rename_i direct
    exact alike_get alike direct
  · rw [same,alike_get alike (by trivial)]

theorem alike_claims (alike : Alike j f after) : claims after j = claims f j :=
  claims_head fun x below => alike x (by simp only [entrySize]; omega)

theorem alike_shows (alike : Alike j f after) (same : ∀ b,block after b = block f b) (shown : Shows f j row) :
    Shows after j row :=
  (shows_same shown (fun x below => alike x (by simp only [entrySize]; omega))
    (fun k _ => ⟨alike_data alike same k,same _⟩)).1

def holder : Slot → Nat
  | .data j _ => j
  | .indirect j => j

theorem alike_slot (alike : Alike (holder slot) f after) (same : ∀ b,block after b = block f b) :
    (Owned after (claims after) slot ↔ Owned f (claims f) slot) ∧ slotBlock after slot = slotBlock f slot := by
  cases slot with
  | data j k =>
    refine ⟨?_,alike_data alike same k⟩
    rw [Owned,Owned,alike_claims (j:=j) alike]
  | indirect j =>
    have equal : get after j .indirect = get f j .indirect := alike_get alike (by trivial)
    exact ⟨by rw [Owned,Owned,equal],equal⟩

-- Every slot of v is a slot of r and names the block it names there.
def Drawn (v r : Fs) (count : Nat → Nat) : Prop :=
  ∀ slot,Owned v (claims v) slot → Owned r count slot ∧ slotBlock r slot = slotBlock v slot

theorem layout_drawn {r : Fs} {count : Nat → Nat} (valid : Layout r count) (ready : Ready v)
    (total : v.super.totalBlocks = r.super.totalBlocks) (drawn : Drawn v r count)
    (reach : ∀ j < fsMaxFiles,fsDirectBlocks < claims v j → get v j .indirect ≠ 0)
    (marked : ∀ slot,Owned v (claims v) slot → member v.bitmap (slotBlock v slot) = true) : Layout v (claims v) := by
  refine ⟨ready,?_,reach,?_,?_⟩
  · intro j entry
    by_contra long
    have owned := drawn (.data j fsMaxBlocks) ⟨entry,by omega⟩
    have short := valid.short j entry
    have below : fsMaxBlocks < count j := owned.1.2
    omega
  · intro slot claim
    obtain ⟨owned,same⟩ := drawn slot claim
    refine ⟨?_,marked slot claim⟩
    rw [←same,total]
    exact (valid.inside slot owned).1
  · intro slot other first second equal
    obtain ⟨ownedFirst,sameFirst⟩ := drawn slot first
    obtain ⟨ownedSecond,sameSecond⟩ := drawn other second
    exact valid.apart slot other ownedFirst ownedSecond (by rw [sameFirst,sameSecond,equal])

-- Nothing that fs_read looks at has changed.
structure Unread (v after : Fs) : Prop where
  super : after.super = v.super
  mounted : after.mounted = v.mounted
  bitmap : after.bitmap = v.bitmap
  directory : after.directory = v.directory
  ready : Ready v → Ready after
  places : ∀ j < fsMaxFiles,∀ k < claims v j,dataBlock after j k = dataBlock v j k
  bytes : ∀ j < fsMaxFiles,get v j .used ≠ 0 → ∀ p < get v j .size,byteAt after j p = byteAt v j p

theorem unread_refl (v : Fs) : Unread v v :=
  ⟨rfl,rfl,rfl,rfl,id,fun _ _ _ _ => rfl,fun _ _ _ _ _ => rfl⟩

theorem unread_get (unread : Unread v after) (j : Nat) (field : Field) : get after j field = get v j field := by
  rw [FileSystem.get,unread.directory,FileSystem.get]

theorem unread_claims (unread : Unread v after) (j : Nat) : claims after j = claims v j := by
  rw [claims,unread_get unread,unread_get unread,claims]

theorem unread_owned (unread : Unread v after) : Owned after (claims after) slot ↔ Owned v (claims v) slot := by
  cases slot with
  | data j k => rw [Owned,Owned,unread_claims unread]
  | indirect j => rw [Owned,Owned,unread_get unread]

theorem unread_slot (unread : Unread v after) (claim : Owned v (claims v) slot) : slotBlock after slot = slotBlock v slot := by
  cases slot with
  | data j k => exact unread.places j claim.1 k claim.2
  | indirect j => exact unread_get unread j .indirect

theorem unread_trans {middle : Fs} (first : Unread v middle) (second : Unread middle after) : Unread v after := by
  refine ⟨second.super.trans first.super,second.mounted.trans first.mounted,second.bitmap.trans first.bitmap,
    second.directory.trans first.directory,fun ready => second.ready (first.ready ready),?_,?_⟩
  · intro j entry k less
    exact (second.places j entry k (by rw [unread_claims first]; exact less)).trans (first.places j entry k less)
  · intro j entry used p less
    exact (second.bytes j entry (by rw [unread_get first]; exact used) p (by rw [unread_get first]; exact less)).trans
      (first.bytes j entry used p less)

theorem unread_table (unread : Unread v after) (table : Table v rows) : Table after rows := by
  have layout : Layout after (claims v) := by
    refine layout_same table.layout (unread.ready table.layout.ready) (by rw [unread.super])
      (fun j _ => unread_get unread j .indirect) unread.places ?_
    intro b marked
    rw [unread.bitmap]
    exact marked
  refine ⟨unread.mounted.trans table.mounted,layout_mono layout (fun j _ => by rw [unread_claims unread]),?_,table.distinct⟩
  intro j entry
  have shown := table.shows j entry
  cases row : rows j with
  | none =>
    rw [row] at shown
    exact (unread_get unread j .used).trans shown
  | some pair =>
    obtain ⟨name,content⟩ := pair
    rw [row] at shown
    refine shows_rewritten shown (unread_get unread j .used) (fun x _ => by rw [unread.directory]) ?_
    exact (content_same (unread_get unread j .size) (unread.bytes j entry shown.1)).trans shown.2.2.2.2.symm

-- A block is written: no number of a file's later blocks and no byte of a file is lost.
theorem unread_put (v : Fs) (x : Nat) (sector : Sector)
    (numbers : ∀ j < fsMaxFiles,get v j .indirect = x → ∀ k < claims v j,fsDirectBlocks ≤ k →
      load sector (4*(k-fsDirectBlocks)) 4 = dataBlock v j k)
    (bytes : ∀ j < fsMaxFiles,get v j .used ≠ 0 → ∀ p < get v j .size,dataBlock v j (p/fsBlockSize) = x →
      sector (p % fsBlockSize) = byteAt v j p) : Unread v (putBlock v x sector) := by
  have data : ∀ j < fsMaxFiles,∀ k < claims v j,dataBlock (putBlock v x sector) j k = dataBlock v j k := by
    intro j entry k less
    by_cases near : k < fsDirectBlocks
    · rw [dataBlock,if_pos near,dataBlock,if_pos near]
      rfl
    · rw [dataBlock,if_neg near]
      change load (block (putBlock v x sector) (get v j .indirect)) _ 4 = _
      rw [block_put]
      split
      · rename_i same
        exact numbers j entry same k less (by omega)
      · rw [dataBlock,if_neg near]
  refine ⟨rfl,rfl,rfl,rfl,ready_putSector,data,?_⟩
  intro j entry used p less
  have claimed : p/fsBlockSize < claims v j := by
    rw [claims,if_neg used]
    simp only [blocks,fsBlockSize]
    omega
  rw [byteAt,data j entry _ claimed,block_put]
  split
  · rename_i same
    exact bytes j entry used p less same
  · rfl

theorem unread_unowned {x : Nat} (table : Table v rows) (unowned : ∀ slot,Owned v (claims v) slot → slotBlock v slot ≠ x)
    (sector : Sector) : Unread v (putBlock v x sector) := by
  refine unread_put v x sector ?_ ?_
  · intro j entry same k less far
    exact absurd same (unowned (.indirect j) ⟨entry,table.layout.reach j entry (by omega)⟩)
  · intro j entry used p less same
    have claimed : p/fsBlockSize < claims v j := by
      rw [claims,if_neg used]
      simp only [blocks,fsBlockSize]
      omega
    exact absurd same (unowned (.data j (p/fsBlockSize)) ⟨entry,claimed⟩)

-- The disk after these writes and no others.
def replay (d : Disk) (writes : List (Nat × Sector)) : Disk :=
  writes.foldl (fun d (lba,sector) => {d with sectors:=Function.update d.sectors lba sector,log:=d.log++[(lba,sector)]}) d

theorem replay_append (d : Disk) (first second : List (Nat × Sector)) :
    replay d (first++second) = replay (replay d first) second := List.foldl_append

theorem replay_log (d : Disk) (writes : List (Nat × Sector)) : (replay d writes).log = d.log++writes := by
  induction writes generalizing d with
  | nil => exact (List.append_nil _).symm
  | cons write rest ih =>
    refine (ih _).trans ?_
    rw [List.append_assoc,List.singleton_append]

theorem replay_drive (d : Disk) (writes : List (Nat × Sector)) :
    (replay d writes).present = d.present ∧ (replay d writes).totalSectors = d.totalSectors ∧
    (replay d writes).readable = d.readable ∧ (replay d writes).writable = d.writable := by
  induction writes generalizing d with
  | nil => exact ⟨rfl,rfl,rfl,rfl⟩
  | cons write rest ih => exact ih _

-- From one disk to another by writes to data blocks, with P true wherever the power may go.
def Passes (P : Disk → Prop) (d after : Disk) : Prop :=
  ∃ writes,after = replay d writes ∧ (∀ write ∈ writes,fsDataStart ≤ write.1) ∧ ∀ done,done <+: writes → P (replay d done)

theorem passes_refl {P : Disk → Prop} (here : P d) : Passes P d d := by
  refine ⟨[],rfl,by simp,?_⟩
  intro done cut
  rw [List.prefix_nil.mp cut]
  exact here

theorem passes_put {P : Disk → Prop} (passes : Passes P d f.disk) (next : P (putBlock f b sector).disk) :
    Passes P d (putBlock f b sector).disk := by
  obtain ⟨writes,reached,data,cuts⟩ := passes
  have last : (putBlock f b sector).disk = replay d (writes++[(fsDataStart+b,sector)]) := by
    rw [replay_append,←reached]
    rfl
  refine ⟨_,last,?_,?_⟩
  · intro write member
    rcases List.mem_append.mp member with earlier | new
    · exact data write earlier
    · rw [List.mem_singleton.mp new]
      exact Nat.le_add_right _ _
  · intro done cut
    rcases List.prefix_concat_iff.mp cut with all | earlier
    · rw [all,←last]
      exact next
    · exact cuts done earlier

theorem stored_put (f : Fs) (b : Nat) (sector : Sector) :
    stored (putBlock f b sector).disk = putBlock (stored f.disk) b sector := by
  have low : ∀ lba < fsDataStart,(putBlock f b sector).disk.sectors lba = f.disk.sectors lba := by
    intro lba below
    exact Function.update_of_ne (by omega) _ _
  have directory : (stored (putBlock f b sector).disk).directory = (stored f.disk).directory := by
    funext x
    simp only [stored]
    split
    · rw [low]
      simp only [fsMaxFiles,entrySize,fsDirStart,sectorSize,fsDataStart] at *
      omega
    · rfl
  have super : (stored (putBlock f b sector).disk).super = (stored f.disk).super := by
    change superOf _ = superOf _
    rw [low 0 (by decide)]
  have bitmap : (stored (putBlock f b sector).disk).bitmap = (stored f.disk).bitmap := low _ (by decide)
  calc stored (putBlock f b sector).disk
      = ⟨(putBlock f b sector).disk,(stored f.disk).super,true,(stored f.disk).bitmap,(stored f.disk).directory⟩ := by
        rw [←directory,←super,←bitmap]
        rfl
    _ = putBlock (stored f.disk) b sector := rfl

-- The metadata on its way to the disk: the directory's sectors in order, then the bitmap.
def metadata (m : Fs) (s : Nat) : Sector := if s < fsDirSectors then fun k => m.directory (s*sectorSize+k) else m.bitmap
def commits (m : Fs) (n : Nat) : List (Nat × Sector) := (List.range n).map fun s => (fsDirStart+s,metadata m s)

theorem writeDirectory_commits (ready : Ready f) (sectors : List Nat) (low : ∀ i ∈ sectors,i < fsDirSectors) :
    writeDirectoryFrom f sectors =
      (true,{f with disk:=replay f.disk (sectors.map fun s => (fsDirStart+s,metadata f s))}) := by
  induction sectors generalizing f with
  | nil => rfl
  | cons i rest ih =>
    have below := low i (List.mem_cons_self ..)
    have enough := ready.enough
    have small : fsDirStart+i < f.disk.totalSectors ∧ fsDirStart+i < 2^28 := by
      simp only [fsDirStart,fsDirSectors,fsDataStart] at *
      omega
    have sector : metadata f i = fun k => f.directory (i*sectorSize+k) := if_pos below
    have written := ih (@ready_putSector _ (fsDirStart+i) (metadata f i) ready)
      (fun j member => low j (List.mem_cons_of_mem _ member))
    unfold writeDirectoryFrom
    rw [write_sector ready small.1 small.2,←sector]
    exact written

theorem commits_snoc (m : Fs) (n : Nat) : commits m (n+1) = commits m n++[(fsDirStart+n,metadata m n)] := by
  rw [commits,List.range_succ,List.map_append]
  rfl

theorem commit_sector (d : Disk) (m : Fs) (n lba : Nat) :
    (replay d (commits m n)).sectors lba =
      if fsDirStart ≤ lba ∧ lba < fsDirStart+n then metadata m (lba-fsDirStart) else d.sectors lba := by
  induction n with
  | zero =>
    rw [if_neg (by omega)]
    rfl
  | succ n ih =>
    rw [commits_snoc,replay_append]
    change Function.update (replay d (commits m n)).sectors (fsDirStart+n) (metadata m n) lba = _
    by_cases here : lba = fsDirStart+n
    · rw [here,Function.update_self,if_pos (by omega),Nat.add_sub_cancel_left]
    · rw [Function.update_of_ne here,ih]
      by_cases inside : fsDirStart ≤ lba ∧ lba < fsDirStart+n
      · rw [if_pos inside,if_pos (by omega)]
      · rw [if_neg inside,if_neg (by omega)]

theorem ready_replay (ready : Ready f) (writes : List (Nat × Sector)) : Ready {f with disk:=replay f.disk writes} := by
  obtain ⟨present,total,readable,writable⟩ := replay_drive f.disk writes
  refine ⟨present.trans ready.present,?_,ready.start,ready.tracked,?_⟩
  · intro lba below
    rw [readable,writable]
    exact ready.works lba (by rw [←total]; exact below)
  · rw [total]
    exact ready.enough

theorem save_commits (ready : Ready f) :
    saveMetadata f = (true,{f with disk:=replay f.disk (commits f (fsDirSectors+1))}) := by
  have written := writeDirectory_commits ready (List.range fsDirSectors) (fun i member => List.mem_range.mp member)
  have still : Ready {f with disk:=replay f.disk (commits f fsDirSectors)} := ready_replay ready _
  have enough := still.enough
  have small : fsBitmapSector < (replay f.disk (commits f fsDirSectors)).totalSectors := by
    simp only [fsDataStart,fsBitmapSector] at *
    omega
  change writeDirectoryFrom f _ = (true,{f with disk:=replay f.disk (commits f fsDirSectors)}) at written
  have write := @write_sector _ _ f.bitmap still small (by decide)
  dsimp only at write
  rw [saveMetadata,writeDirectory,written]
  dsimp only
  rw [if_neg (by simp),write,commits_snoc,replay_append]
  rfl

theorem commits_cut (cut : done <+: commits f (fsDirSectors+1)) : ∃ n ≤ fsDirSectors+1,done = commits f n := by
  have length : (commits f (fsDirSectors+1)).length = fsDirSectors+1 := by simp [commits]
  refine ⟨done.length,by rw [←length]; exact cut.length_le,?_⟩
  rw [List.prefix_iff_eq_take.mp cut,commits,←List.map_take,List.take_range,List.length_map,List.length_range,commits]

section Commit
variable {m : Fs} {n : Nat}

theorem commit_block (b : Nat) (most : n ≤ fsDirSectors+1) :
    block (stored (replay m.disk (commits m n))) b = block (stored m.disk) b := by
  change (replay m.disk (commits m n)).sectors _ = m.disk.sectors _
  rw [commit_sector,if_neg]
  simp only [fsDataStart,fsDirStart,fsDirSectors] at *
  omega

theorem commit_super (m : Fs) (n : Nat) : (stored (replay m.disk (commits m n))).super = (stored m.disk).super := by
  change superOf _ = superOf _
  rw [commit_sector,if_neg (by simp [fsDirStart])]

theorem commit_bitmap (most : n ≤ fsDirSectors+1) : (stored (replay m.disk (commits m n))).bitmap =
    if n = fsDirSectors+1 then m.bitmap else (stored m.disk).bitmap := by
  change (replay m.disk (commits m n)).sectors fsBitmapSector = _
  rw [commit_sector]
  by_cases all : n = fsDirSectors+1
  · rw [if_pos all,if_pos (by rw [all]; decide)]
    rfl
  · rw [if_neg all,if_neg]
    · rfl
    · simp only [fsDirStart,fsBitmapSector,fsDirSectors] at *
      omega

-- Four entries to a sector.
theorem commit_byte (entry : j < fsMaxFiles) (below : x < entrySize) :
    (stored (replay m.disk (commits m n))).directory (j*entrySize+x) =
      if j/4 < n then m.directory (j*entrySize+x) else (stored m.disk).directory (j*entrySize+x) := by
  have inside : j*entrySize+x < fsMaxFiles*entrySize := by
    simp only [fsMaxFiles,entrySize] at *
    omega
  have sector : (j*entrySize+x)/sectorSize = j/4 ∧ j/4 < fsDirSectors := by
    simp only [fsMaxFiles,entrySize,sectorSize,fsDirSectors] at *
    omega
  simp only [stored]
  rw [if_pos inside,if_pos inside,sector.1,commit_sector]
  by_cases written : j/4 < n
  · rw [if_pos written,if_pos (by omega),Nat.add_sub_cancel_left,metadata,if_pos sector.2]
    congr 1
    rw [←sector.1]
    exact Nat.div_add_mod' _ _
  · rw [if_neg written,if_neg (by omega)]

theorem commit_new (entry : j < fsMaxFiles) (written : j/4 < n) :
    Alike j m (stored (replay m.disk (commits m n))) := by
  intro x below
  rw [commit_byte entry below,if_pos written]

theorem commit_old (entry : j < fsMaxFiles) (kept : ¬ j/4 < n) :
    Alike j (stored m.disk) (stored (replay m.disk (commits m n))) := by
  intro x below
  rw [commit_byte entry below,if_neg kept]

theorem ready_stored (ready : Ready m) (super : (stored m.disk).super = m.super) : Ready (stored m.disk) :=
  ⟨ready.present,ready.works,by rw [super]; exact ready.start,by rw [super]; exact ready.tracked,
    by rw [super]; exact ready.enough⟩

theorem commit_ready (ready : Ready m) (super : (stored m.disk).super = m.super) :
    Ready (stored (replay m.disk (commits m n))) := by
  have still := ready_replay ready (commits m n)
  exact @ready_stored {m with disk:=replay m.disk (commits m n)} still ((commit_super m n).trans super)

-- fs_read never looks at the bitmap: it reads the same with every block marked.
def trusting (v : Fs) : Fs := {v with bitmap:=fun _ => 255#8}

theorem trusting_marked (v : Fs) (b : Nat) : member (trusting v).bitmap b = true := by
  change (255#8).getLsbD (b % 8) = true
  have below : b % 8 < 8 := Nat.mod_lt _ (by decide)
  generalize b % 8 = bit at *
  revert bit
  decide

theorem readFrom_trusting (v : Fs) (i size turns index : Nat) (out : List Byte) :
    readFrom (trusting v) i size turns index out = readFrom v i size turns index out := by
  induction turns generalizing index out with
  | zero => rfl
  | succ turns ih =>
    unfold readFrom
    have block : blockAt (trusting v) i index = blockAt v i index := rfl
    have disk : (trusting v).disk = v.disk := rfl
    have lba : ∀ b,lbaOf (trusting v) b = lbaOf v b := fun _ => rfl
    dsimp only
    rw [block,disk,lba]
    split
    · rfl
    · split
      · rfl
      · split
        · rfl
        · exact ih _ _

theorem fsRead_trusting (v : Fs) (name : CString) (limit : Nat) : fsRead (trusting v) name limit = fsRead v name limit := by
  unfold fsRead
  have found : findEntry (trusting v) name = findEntry v name := rfl
  have mounted : (trusting v).mounted = v.mounted := rfl
  rw [found,mounted]
  split
  · rfl
  · split
    · rfl
    · dsimp only
      rw [readFrom_trusting]
      rfl

theorem table_trusting (table : Table v rows) : Table (trusting v) rows := by
  refine ⟨table.mounted,?_,table.shows,table.distinct⟩
  exact layout_same table.layout ⟨table.layout.ready.present,table.layout.ready.works,table.layout.ready.start,
    table.layout.ready.tracked,table.layout.ready.enough⟩ rfl (fun _ _ => rfl) (fun _ _ _ _ => rfl)
    (fun b _ => trusting_marked v b)

-- Entries as they were, blocks as they were, no mark lost.
theorem alike_table (table : Table f rows) (mounted : after.mounted = true) (ready : Ready after)
    (total : after.super.totalBlocks = f.super.totalBlocks) (entries : ∀ j < fsMaxFiles,Alike j f after)
    (same : ∀ b,block after b = block f b) (marks : ∀ b,member f.bitmap b = true → member after.bitmap b = true) :
    Table after rows := by
  have layout : Layout after (claims f) :=
    layout_same table.layout ready total (fun j entry => alike_get (entries j entry) (by trivial))
      (fun j entry k _ => alike_data (entries j entry) same k) marks
  exact ⟨mounted,layout_mono layout fun j entry => Nat.le_of_eq (alike_claims (entries j entry)),
    fun j entry => alike_shows (entries j entry) same (table.shows j entry),table.distinct⟩

theorem commit_table (table : Table m rows) (super : (stored m.disk).super = m.super) :
    Table (stored (replay m.disk (commits m (fsDirSectors+1)))) rows := by
  refine alike_table table rfl (commit_ready table.layout.ready super) (by rw [commit_super,super]) ?_
    (fun b => commit_block b (Nat.le_refl _)) ?_
  · intro j entry
    refine commit_new entry ?_
    simp only [fsMaxFiles,fsDirSectors] at *
    omega
  · intro b marked
    rw [commit_bitmap (Nat.le_refl _),if_pos rfl]
    exact marked

-- Part of the directory is new. Both directories take their slots from one layout r, and
-- their rows differ in entry i only.
theorem commit_reads {r : Fs} {count : Nat → Nat} {now : Nat → Row} {i : Nat} (old : Table (stored m.disk) rows)
    (new : Table m now) (super : (stored m.disk).super = m.super) (valid : Layout r count)
    (total : m.super.totalBlocks = r.super.totalBlocks) (drawnOld : Drawn (stored m.disk) r count)
    (drawnNew : Drawn m r count) (most : n ≤ fsDirSectors+1) (only : ∀ j,j ≠ i → now j = rows j) :
    Table (trusting (stored (replay m.disk (commits m n)))) (if i/4 < n then now else rows) := by
  have same : ∀ b,block (stored (replay m.disk (commits m n))) b = block m b := fun b => commit_block b most
  have drawn : Drawn (trusting (stored (replay m.disk (commits m n)))) r count ∧
      ∀ j < fsMaxFiles,fsDirectBlocks < claims (stored (replay m.disk (commits m n))) j →
        get (stored (replay m.disk (commits m n))) j .indirect ≠ 0 := by
    constructor
    · intro slot claim
      have entry : holder slot < fsMaxFiles := by cases slot <;> exact claim.1
      have claim : Owned (stored (replay m.disk (commits m n))) (claims (stored (replay m.disk (commits m n)))) slot := claim
      by_cases written : holder slot/4 < n
      · obtain ⟨owned,equal⟩ := alike_slot (commit_new entry written) same
        obtain ⟨owner,place⟩ := drawnNew slot (owned.mp claim)
        exact ⟨owner,place.trans equal.symm⟩
      · obtain ⟨owned,equal⟩ := alike_slot (commit_old entry written) (fun b => commit_block b most)
        obtain ⟨owner,place⟩ := drawnOld slot (owned.mp claim)
        exact ⟨owner,place.trans equal.symm⟩
    · intro j entry many
      by_cases written : j/4 < n
      · rw [alike_claims (commit_new entry written)] at many
        rw [alike_get (commit_new entry written) (by trivial)]
        exact new.layout.reach j entry many
      · rw [alike_claims (commit_old entry written)] at many
        rw [alike_get (commit_old entry written) (by trivial)]
        exact old.layout.reach j entry many
  have ready := @commit_ready _ n new.layout.ready super
  refine ⟨rfl,layout_drawn valid ⟨ready.present,ready.works,ready.start,ready.tracked,ready.enough⟩ ?_ drawn.1 drawn.2
    (fun slot _ => trusting_marked _ _),?_,?_⟩
  · change (stored (replay m.disk (commits m n))).super.totalBlocks = _
    rw [commit_super,super,total]
  · intro j entry
    change Shows (stored (replay m.disk (commits m n))) j _
    by_cases written : j/4 < n
    · have shown := alike_shows (commit_new entry written) same (new.shows j entry)
      by_cases here : j = i
      · rw [if_pos (by rw [←here]; exact written)]
        exact shown
      · split
        · exact shown
        · rw [←only j here]
          exact shown
    · have shown := alike_shows (commit_old entry written) (fun b => commit_block b most) (old.shows j entry)
      by_cases here : j = i
      · rw [if_neg (by rw [←here]; exact written)]
        exact shown
      · split
        · rw [only j here]
          exact shown
        · exact shown
  · split
    · exact new.distinct
    · exact old.distinct

end Commit

end Arthic.FileDisk
