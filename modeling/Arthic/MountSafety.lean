import Arthic.FileDurable

namespace Arthic.MountSafety
open BitWords ByteMemory Unsigned Transition FileSystem FileLayout FileWrites FileTable FileOperations FileMap FileDurable
variable {f after : Fs} {i : Nat}

-- The block numbers with which block_used and block_mark are called, in the order of the
-- calls. Each of these definitions follows the function it is named after.
def scanAccesses (f : Fs) : List Nat → List Nat
  | [] => []
  | b::rest => b::if blockUsed f b = true then scanAccesses f rest else [b]

def allocAccesses (f : Fs) : List Nat := scanAccesses f (List.range f.super.totalBlocks)

def setAccesses (f : Fs) (i index : Nat) : List Nat :=
  if index < fsDirectBlocks then []
  else if fsPerIndirect ≤ index-fsDirectBlocks then []
  else if get f i .indirect = 0 then allocAccesses f else []

def chunkAccesses (f : Fs) (i position : Nat) : List Nat :=
  let index := position/fsBlockSize
  if fsMaxBlocks ≤ index then [] else
  if blocksFor (get f i .size) ≤ index ∨ blockAt f i index = noBlock then
    let (block,taken) := blockAlloc f
    allocAccesses f++if block = noBlock then [] else setAccesses taken i index
  else []

def writeAccesses (f : Fs) (i offset : Nat) (data : List Byte) : Nat → Nat → List Nat
  | 0,_ => []
  | turns+1,written =>
    if data.length ≤ written then [] else
    let position := wrap 32 (offset+written)
    let chunk := chunkSize position (data.length-written)
    let (stored,after) := writeChunk f i position ((data.drop written).take chunk)
    chunkAccesses f i position++if stored = true then writeAccesses after i offset data turns (written+chunk) else []

def createAccesses (f : Fs) (name : CString) (data : List Byte) : List Nat :=
  if f.mounted = false ∨ name.bytes = [] then [] else
  let nameLength := min name.bytes.length fsNameMax
  if fsNameMax ≤ nameLength then [] else
  if (findEntry f name).isSome then [] else
  match findFreeEntry f with
  | none => []
  | some i => writeAccesses (nameEntry f i name nameLength) i 0 data data.length 0

def appendAccesses (f : Fs) (name : CString) (data : List Byte) : List Nat :=
  if f.mounted = false then [] else
  match findEntry f name with
  | none => []
  | some i => writeAccesses f i (get f i .size) data data.length 0

def freeAccesses (f : Fs) (i : Nat) : List Nat → List Nat
  | [] => []
  | k::rest => (if blockAt f i k = noBlock then [] else [blockAt f i k])++freeAccesses (freeBlock f i k) i rest

def deleteAccesses (f : Fs) (name : CString) : List Nat :=
  if f.mounted = false then [] else
  match findEntry f name with
  | none => []
  | some i => freeAccesses f i (List.range (blocksFor (get f i .size)))++if get f i .indirect = 0 then [] else [get f i .indirect]

def statsAccesses (f : Fs) : List Nat := if f.mounted = false then [] else List.range f.super.totalBlocks

-- What may be done with a mounted image. fs_stats only reads.
inductive Visit where
  | call (call : Call)
  | stats

def visit (f : Fs) : Visit → Fs
  | .call call => (perform f call).2
  | .stats => f

def accesses (f : Fs) : Visit → List Nat
  | .call (.create name data) => createAccesses f name data
  | .call (.append name data) => appendAccesses f name data
  | .call (.delete name) => deleteAccesses f name
  | .call (.read _ _) => []
  | .stats => statsAccesses f

def visits (f : Fs) (calls : List Visit) : Fs := calls.foldl visit f

-- uint8_t bitmap[512] has a bit for each of these.
def bitmapBits : Nat := sectorSize*8

structure Bounded (f : Fs) : Prop where
  total : f.super.totalBlocks ≤ bitmapBits
  blocks : ∀ name i,findEntry f name = some i → ∀ k < blocksFor (get f i .size),blockAt f i k = noBlock ∨ blockAt f i k < bitmapBits
  number : ∀ name i,findEntry f name = some i → get f i .indirect < bitmapBits

theorem scan_inside {list : List Nat} (member : b ∈ scanAccesses f list) : b ∈ list := by
  induction list with
  | nil => cases member
  | cons c rest ih =>
    rw [scanAccesses] at member
    rcases List.mem_cons.mp member with rfl | later
    · exact List.mem_cons_self ..
    · split at later
      · exact List.mem_cons_of_mem _ (ih later)
      · rw [List.mem_singleton.mp later]
        exact List.mem_cons_self ..

theorem alloc_inside (member : b ∈ allocAccesses f) : b < f.super.totalBlocks := List.mem_range.mp (scan_inside member)

-- What no call changes after the mount.
structure Still (f after : Fs) : Prop where
  super : after.super = f.super
  mounted : after.mounted = f.mounted

theorem still_refl (f : Fs) : Still f f := ⟨rfl,rfl⟩

theorem still_trans {middle : Fs} (first : Still f middle) (second : Still middle after) : Still f after :=
  ⟨second.super.trans first.super,second.mounted.trans first.mounted⟩

theorem alloc_still (f : Fs) : Still f (blockAlloc f).2 := by
  unfold blockAlloc
  split <;> exact ⟨rfl,rfl⟩

theorem newIndirect_still (f : Fs) (i : Nat) : Still f (newIndirect f i).2 := by
  have taken := alloc_still f
  unfold newIndirect
  generalize blockAlloc f = answer at *
  obtain ⟨b,middle⟩ := answer
  dsimp only at *
  split
  · exact taken
  · exact still_trans taken ⟨rfl,rfl⟩

theorem storeSlot_still (f : Fs) (i slot b : Nat) : Still f (storeSlot f i slot b).2 := by
  unfold storeSlot
  split <;> exact ⟨rfl,rfl⟩

theorem blockSet_still (f : Fs) (i index b : Nat) : Still f (blockSet f i index b).2 := by
  unfold blockSet
  split
  · exact ⟨rfl,rfl⟩
  · split
    · exact still_refl f
    · have ready : Still f (if get f i .indirect = 0 then newIndirect f i else (true,f)).2 := by
        split
        · exact newIndirect_still f i
        · exact still_refl f
      generalize (if get f i .indirect = 0 then newIndirect f i else (true,f)) = answer at *
      obtain ⟨ok,middle⟩ := answer
      dsimp only at *
      split
      · exact still_trans ready (storeSlot_still middle i _ b)
      · exact ready

theorem writeSector_still (f : Fs) (b : Nat) (sector : Sector) : Still f (writeSector f b sector).2 := ⟨rfl,rfl⟩

theorem writeChunk_still (f : Fs) (i position : Nat) (bytes : List Byte) : Still f (writeChunk f i position bytes).2 := by
  have taken := alloc_still f
  unfold writeChunk
  dsimp only
  split
  · exact still_refl f
  · split
    · generalize blockAlloc f = answer at *
      obtain ⟨b,middle⟩ := answer
      dsimp only at *
      split
      · exact taken
      · have attached := still_trans taken (blockSet_still middle i (position/fsBlockSize) b)
        split
        · exact attached
        · exact still_trans attached (writeSector_still _ b _)
    · split
      · exact still_refl f
      · exact writeSector_still f _ _

theorem writeFrom_still (f : Fs) (i offset : Nat) (data : List Byte) (turns written : Nat) :
    Still f (writeFrom f i offset data turns written).2 := by
  induction turns generalizing f written with
  | zero => exact still_refl f
  | succ turns ih =>
    unfold writeFrom
    split
    · exact still_refl f
    · have one := writeChunk_still f i (wrap 32 (offset+written))
        ((data.drop written).take (chunkSize (wrap 32 (offset+written)) (data.length-written)))
      dsimp only
      split
      · exact still_trans one (ih _ _)
      · exact one

theorem save_still (f : Fs) : Still f (saveMetadata f).2 := by
  have directory : ∀ (list : List Nat) (f : Fs),Still f (writeDirectoryFrom f list).2 := by
    intro list
    induction list with
    | nil => exact still_refl
    | cons k rest ih =>
      intro f
      unfold writeDirectoryFrom
      dsimp only
      split
      · have rest := ih {f with disk:=(ataWriteSector f.disk (fsDirStart+k) fun x => f.directory (k*sectorSize+x)).2}
        exact ⟨rest.super,rest.mounted⟩
      · exact ⟨rfl,rfl⟩
  have written := directory (List.range fsDirSectors) f
  unfold saveMetadata writeDirectory
  dsimp only
  split
  · exact written
  · exact still_trans written ⟨rfl,rfl⟩

theorem free_still (f : Fs) (i k : Nat) : Still f (freeBlock f i k) := by
  unfold freeBlock
  split <;> exact ⟨rfl,rfl⟩

theorem put_still (f : Fs) (i : Nat) (field : Field) (value : Nat) : Still f (put f i field value) := ⟨rfl,rfl⟩

theorem clear_still (f : Fs) (i : Nat) : Still f (clearEntry f i) := ⟨rfl,rfl⟩

theorem save_put_still (f : Fs) (i : Nat) (field : Field) (value : Nat) : Still f (saveMetadata (put f i field value)).2 :=
  still_trans (put_still f i field value) (save_still _)

theorem create_still (f : Fs) (name : CString) (data : List Byte) : Still f (fsCreate f name data).2 := by
  unfold fsCreate
  split
  · exact still_refl f
  · dsimp only
    split
    · exact still_refl f
    · split
      · exact still_refl f
      · split
        · exact still_refl f
        · rename_i i _
          have named : Still f (nameEntry f i name (min name.bytes.length fsNameMax)) := ⟨rfl,rfl⟩
          have written := still_trans named (writeFrom_still (nameEntry f i name (min name.bytes.length fsNameMax)) i 0 data data.length 0)
          unfold writeAt
          split
          · exact still_trans written (clear_still _ i)
          · exact still_trans (still_trans written (put_still _ i .size data.length)) (save_put_still _ i .used 1)

theorem append_still (f : Fs) (name : CString) (data : List Byte) : Still f (fsAppend f name data).2 := by
  unfold fsAppend
  split
  · exact still_refl f
  · split
    · exact still_refl f
    · rename_i i _
      have written := writeFrom_still f i (get f i .size) data data.length 0
      unfold writeAt
      dsimp only
      split
      · exact written
      · exact still_trans written (save_put_still _ i .size _)

theorem frees_still (f : Fs) (i : Nat) (list : List Nat) : Still f (list.foldl (fun f k => freeBlock f i k) f) := by
  induction list generalizing f with
  | nil => exact still_refl f
  | cons k rest ih => exact still_trans (free_still f i k) (ih _)

theorem delete_still (f : Fs) (name : CString) : Still f (fsDelete f name).2 := by
  unfold fsDelete
  split
  · exact still_refl f
  · split
    · exact still_refl f
    · rename_i i _
      have freed := frees_still f i (List.range (blocksFor (get f i .size)))
      dsimp only
      generalize (List.range (blocksFor (get f i .size))).foldl (fun f k => freeBlock f i k) f = middle at *
      have marked : Still f (if get middle i .indirect = 0 then middle else blockMark middle (get middle i .indirect) false) := by
        split
        · exact freed
        · exact still_trans freed ⟨rfl,rfl⟩
      exact still_trans (still_trans marked (clear_still _ i)) (save_still _)

theorem visit_still (f : Fs) (v : Visit) : Still f (visit f v) := by
  cases v with
  | stats => exact still_refl f
  | call call =>
    cases call with
    | create name data => exact create_still f name data
    | append name data => exact append_still f name data
    | delete name => exact delete_still f name
    | read name max => exact still_refl f

theorem visits_still (f : Fs) (calls : List Visit) : Still f (visits f calls) := by
  induction calls generalizing f with
  | nil => exact still_refl f
  | cons v rest ih => exact still_trans (visit_still f v) (ih _)

theorem mount_mounted {memory : Fs} (done : fsMount memory = (true,f)) : f.mounted = true := by
  unfold fsMount at done
  dsimp only at done
  split at done
  · cases done
  · split at done
    · cases done
    · split at done
      · cases done
      · split at done
        · cases done
        · cases done
          rfl

theorem set_inside (member : b ∈ setAccesses f i index) : b < f.super.totalBlocks := by
  unfold setAccesses at member
  split at member
  · cases member
  · split at member
    · cases member
    · split at member
      · exact alloc_inside member
      · cases member

theorem chunk_inside (member : b ∈ chunkAccesses f i position) : b < f.super.totalBlocks := by
  have taken := (alloc_still f).super
  unfold chunkAccesses at member
  dsimp only at member
  split at member
  · cases member
  · split at member
    · rcases List.mem_append.mp member with first | later
      · exact alloc_inside first
      · split at later
        · cases later
        · rw [←taken]
          exact set_inside later
    · cases member

theorem write_inside (member : b ∈ writeAccesses f i offset data turns written) : b < f.super.totalBlocks := by
  induction turns generalizing f written with
  | zero => cases member
  | succ turns ih =>
    unfold writeAccesses at member
    split at member
    · cases member
    · dsimp only at member
      rcases List.mem_append.mp member with first | later
      · exact chunk_inside first
      · split at later
        · rw [←(writeChunk_still f i _ _).super]
          exact ih later
        · cases later

-- block_mark changes nothing that block_at reads.
theorem free_places (f : Fs) (i k j : Nat) : blockAt (freeBlock f i k) i j = blockAt f i j := by
  unfold freeBlock
  split <;> rfl

theorem free_accesses (list : List Nat) :
    b ∈ freeAccesses f i list ↔ ∃ k ∈ list,blockAt f i k ≠ noBlock ∧ b = blockAt f i k := by
  induction list generalizing f with
  | nil => simp [freeAccesses]
  | cons k rest ih =>
    rw [freeAccesses,List.mem_append,ih]
    simp only [free_places,List.mem_cons,exists_eq_or_imp]
    refine or_congr ?_ Iff.rfl
    split
    · rename_i none
      simp [none]
    · rename_i some
      simp [some]

theorem delete_accesses (mounted : f.mounted = true) (found : findEntry f name = some i) : b ∈ deleteAccesses f name ↔
    (∃ k < blocksFor (get f i .size),blockAt f i k ≠ noBlock ∧ b = blockAt f i k) ∨
      get f i .indirect ≠ 0 ∧ b = get f i .indirect := by
  unfold deleteAccesses
  rw [if_neg (by simp [mounted]),found]
  dsimp only
  rw [List.mem_append,free_accesses]
  simp only [List.mem_range]
  refine or_congr Iff.rfl ?_
  split
  · rename_i none
    simp [none]
  · rename_i some
    simp [some]

theorem accesses_bounded (mounted : f.mounted = true) :
    (∀ v,∀ b ∈ accesses f v,b < bitmapBits) ↔ Bounded f := by
  constructor
  · intro inside
    refine ⟨?_,?_,?_⟩
    · by_contra more
      have last : bitmapBits ∈ accesses f .stats := by
        simp only [accesses,statsAccesses,mounted]
        exact List.mem_range.mpr (by omega)
      exact absurd (inside .stats _ last) (Nat.lt_irrefl _)
    · intro name i found k below
      by_cases none : blockAt f i k = noBlock
      · exact .inl none
      · exact .inr (inside (.call (.delete name)) _ ((delete_accesses mounted found).mpr (.inl ⟨k,below,none,rfl⟩)))
    · intro name i found
      by_cases none : get f i .indirect = 0
      · rw [none]
        decide
      · exact inside (.call (.delete name)) _ ((delete_accesses mounted found).mpr (.inr ⟨none,rfl⟩))
  · rintro ⟨total,blocks,number⟩ v b member
    have low : b < f.super.totalBlocks → b < bitmapBits := fun below => Nat.lt_of_lt_of_le below total
    cases v with
    | stats =>
      simp only [accesses,statsAccesses] at member
      split at member
      · cases member
      · exact low (List.mem_range.mp member)
    | call call =>
      cases call with
      | read name max => cases member
      | create name data =>
        simp only [accesses,createAccesses] at member
        split at member
        · cases member
        · split at member
          · cases member
          · split at member
            · cases member
            · split at member
              · cases member
              · have inside := write_inside member
                exact low inside
      | append name data =>
        simp only [accesses,appendAccesses] at member
        split at member
        · cases member
        · split at member
          · cases member
          · exact low (write_inside member)
      | delete name =>
        cases found : findEntry f name with
        | none => simp [accesses,deleteAccesses,found] at member
        | some i =>
          rcases (delete_accesses mounted found).mp member with ⟨k,below,some,rfl⟩ | ⟨_,rfl⟩
          · exact (blocks name i found k below).resolve_left some
          · exact number name i found

-- Filesystems this code formatted are of this kind.
theorem lifetime_bounded (reached : Reached lifetime f) : Bounded f := by
  obtain ⟨rows,durable⟩ := runs_durable reached
  have table := durable.memory
  have tracked := table.layout.ready.tracked
  refine ⟨tracked,?_,?_⟩
  · intro name i found k below
    rcases findEntry_parts table name with ⟨missing,_⟩ | ⟨j,entry,old,here,row⟩
    · rw [found] at missing
      cases missing
    · rw [found] at here
      cases here
      obtain ⟨_,claimed,short⟩ := shows_file table entry row
      rw [blocksFor_whole _ short,←claimed] at below
      obtain ⟨place,inside,_⟩ := blockAt_owned table.layout entry below
      rw [place]
      exact .inr (Nat.lt_of_lt_of_le inside tracked)
  · intro name i found
    rcases findEntry_parts table name with ⟨missing,_⟩ | ⟨j,entry,old,here,row⟩
    · rw [found] at missing
      cases missing
    · rw [found] at here
      cases here
      by_cases none : get f i .indirect = 0
      · rw [none]
        decide
      · exact Nat.lt_of_lt_of_le (table.layout.inside (.indirect i) ⟨entry,none⟩).1 tracked

-- From the mount on, up to every point of every conversation.
theorem mounted_accesses {memory : Fs} (done : fsMount memory = (true,f)) (calls : List Visit) :
    (∀ earlier,earlier <+: calls → ∀ v,∀ b ∈ accesses (visits f earlier) v,b < bitmapBits) ↔
      ∀ earlier,earlier <+: calls → Bounded (visits f earlier) := by
  refine forall_congr' fun earlier => imp_congr_right fun _ => accesses_bounded ?_
  rw [(visits_still f earlier).mounted]
  exact mount_mounted done

theorem mounted_accesses_small : (fsMount (fsFormat smallDisk).2).1 = true ∧
    ∀ v,∀ b ∈ accesses (fsMount (fsFormat smallDisk).2).2 v,b < bitmapBits := by
  have works : Works smallDisk.disk := ⟨rfl,fun _ _ => ⟨rfl,rfl⟩⟩
  have same : (fsFormat smallDisk).2.disk = (fsFormat smallDisk).2.disk := rfl
  obtain ⟨ok,_⟩ := mounted_durable (formatted_durable works (by decide)) same
  have done : fsMount (fsFormat smallDisk).2 = (true,(fsMount (fsFormat smallDisk).2).2) := by rw [←ok]
  have reached : Reached lifetime (fsMount (fsFormat smallDisk).2).2 :=
    ⟨_,[.mount],small_formatted,Runs.nil.act (by exact trivial)⟩
  refine ⟨ok,(mounted_accesses done []).mpr ?_ [] List.prefix_rfl⟩
  intro earlier shorter
  rw [List.prefix_nil.mp shorter]
  exact lifetime_bounded reached

-- A superblock that claims more blocks than the bitmap has bits.
def wideImage : Fs :=
  ⟨⟨true,6000,fun _ => true,fun _ => true,
    fun lba => if lba = 0 then superSector ⟨fsMagic,5000,fsDataStart,fsMaxFiles⟩ else fun _ => 0#8,[]⟩,⟨0,0,0,0⟩,false,fun _ => 0#8,
    fun _ => 0#8⟩

theorem wideImage_mounts : (fsMount wideImage).1 = true ∧ (fsMount wideImage).2.super.totalBlocks = 5000 := by
  decide

theorem stats_past_bitmap : ¬ ∀ memory f,fsMount memory = (true,f) →
    ∀ calls v,∀ b ∈ accesses (visits f calls) v,b < bitmapBits := by
  intro safe
  obtain ⟨ok,total⟩ := wideImage_mounts
  have done : fsMount wideImage = (true,(fsMount wideImage).2) := by rw [←ok]
  have last : bitmapBits ∈ accesses (fsMount wideImage).2 .stats := by
    rw [accesses,statsAccesses,if_neg (by simp [mount_mounted done]),total,List.mem_range]
    decide
  exact absurd (safe _ _ done [] .stats _ last) (Nat.lt_irrefl _)

end Arthic.MountSafety
