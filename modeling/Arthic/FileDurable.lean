import Arthic.FileDrafts

namespace Arthic.FileDurable
open BitWords ByteMemory Unsigned Transition FileSystem FileLayout FileWrites FileTable FileOperations FileMap FileDisk FileDrafts
variable {f v g m after : Fs} {rows now : Nat → Row} {i : Nat}

-- An entry that is not used is all zeros.
def Tidy (f : Fs) : Prop := ∀ j < fsMaxFiles,get f j .used = 0 → ∀ x < entrySize,f.directory (j*entrySize+x) = 0#8

-- Memory and disk hold the same files. The disk's slots are slots of memory's, and memory may
-- have more of them and more marks.
structure Durable (f : Fs) (rows : Nat → Row) : Prop where
  memory : Table f rows
  disk : Table (stored f.disk) rows
  super : (stored f.disk).super = f.super
  magic : f.super.magic = fsMagic
  room : fsDataStart < f.disk.totalSectors
  backed : ∀ slot,Owned (stored f.disk) (claims (stored f.disk)) slot → slotBlock f slot = slotBlock (stored f.disk) slot
  marks : ∀ b,member (stored f.disk).bitmap b = true → member f.bitmap b = true
  tidy : Tidy f
  clean : Tidy (stored f.disk)

def rowBlocks : Row → Nat
  | none => 0
  | some (_,content) => blocks content.length

theorem claims_row (table : Table f rows) (entry : j < fsMaxFiles) : claims f j = rowBlocks (rows j) := by
  have shown := table.shows j entry
  cases row : rows j with
  | none =>
    rw [row] at shown
    exact if_pos shown
  | some pair =>
    obtain ⟨name,content⟩ := pair
    rw [row] at shown
    rw [claims,if_neg shown.1,rowBlocks,shown.2.2.2.2,content_length]

theorem tidy_indirect (tidy : Tidy f) (entry : j < fsMaxFiles) (unused : get f j .used = 0) : get f j .indirect = 0 := by
  have zeros : ∀ k < 4,f.directory (j*entrySize+Field.indirect.offset+k) = digit 0 k := by
    intro k below
    rw [Nat.add_assoc,tidy j entry unused _ (by simp only [Field.offset,fsNameMax,fsDirectBlocks,entrySize]; omega)]
    simp [digit]
  exact load_digits zeros

-- Changes of an entry's head name the same blocks.
theorem slot_head (f : Fs) (slot : Slot) (low : i*entrySize ≤ addr) (high : addr+length ≤ i*entrySize+40)
    (source : Nat → Byte) : slotBlock {f with directory:=patch f.directory addr length source} slot = slotBlock f slot := by
  have fields : ∀ j field,40 ≤ field.offset → Field.fits field →
      get {f with directory:=patch f.directory addr length source} j field = get f j field := by
    intro j field behind fits
    obtain ⟨_,_,_⟩ := offset_bounds fits
    apply load_patch
    simp only [entrySize] at *
    omega
  cases slot with
  | data j k =>
    change dataBlock _ j k = dataBlock f j k
    unfold dataBlock
    split
    · rename_i direct
      exact fields j _ (by simp only [Field.offset,fsNameMax]; omega) direct
    · rw [fields j .indirect (by decide) (by trivial)]
      rfl
  | indirect j => exact fields j .indirect (by decide) (by trivial)

theorem slot_put (f : Fs) (slot : Slot) (i value : Nat) (head : field.offset+4 ≤ 40) :
    slotBlock (put f i field value) slot = slotBlock f slot :=
  @slot_head i _ 4 f slot (by omega) (by omega) (digit value)

-- write_at over a filesystem whose disk holds these rows.
theorem writeAt_drafted (table : Table v rows) (start : Drafted v g g i) {count : Nat → Nat} (valid : Layout g count)
    (entry : i < fsMaxFiles) (claimed : count i = blocks (get g i .size)) (less : ∀ j < fsMaxFiles,claims v j ≤ count j)
    (behind : get v i .used ≠ 0 → get v i .size ≤ get g i .size) (data : List Byte) :
    (writeAt g i (get g i .size) data).1 = true ∧
        Progress g (writeAt g i (get g i .size) data).2 count i (get g i .size) data data.length ∧
        Drafted v g (writeAt g i (get g i .size) data).2 i ∧
        Grown g (writeAt g i (get g i .size) data).2 i (count i) (blocks (get g i .size+data.length)) ∨
      (writeAt g i (get g i .size) data).1 = false ∧
        Refused g (writeAt g i (get g i .size) data).2 count i (get g i .size) ∧
        Drafted v g (writeAt g i (get g i .size) data).2 i := by
  refine @writeAt_turns _ _ _
    (fun written m => Drafted v g m i ∧ Grown g m i (count i) (blocks (get g i .size+written)))
    (fun m => Drafted v g m i) valid entry claimed data ?_ ⟨start,?_⟩
  · intro middle after written chunk ok progress kept more cut turn
    obtain ⟨drafted,grown⟩ := kept
    have least : count i ≤ blocks (get g i .size+written) := by
      rw [claimed]
      exact Nat.div_le_div_right (by omega)
    have here : Function.update count i (blocks (get g i .size+written)) i = blocks (get g i .size+written) :=
      Function.update_self ..
    have enough : ∀ j < fsMaxFiles,claims v j ≤ Function.update count i (blocks (get g i .size+written)) j := by
      intro j slot
      by_cases same : j = i
      · rw [same,here]
        exact Nat.le_trans (less i entry) least
      · rw [Function.update_of_ne same]
        exact less j slot
    have next := drafted_turn table drafted progress.layout enough entry (fun used => by
      have before := behind used
      rw [Nat.div_add_mod']
      omega) turn
    refine ⟨fun stored => ⟨next,?_⟩,fun _ => next⟩
    subst stored
    have larger := grown_turn (by rw [here]; exact grown) (by rw [here]; exact least) progress.layout entry drafted.marks turn
    have reached : max (blocks (get g i .size+written)) ((get g i .size+written)/fsBlockSize+1) =
        blocks (get g i .size+(written+chunk)) := by
      rw [cut,chunkSize]
      simp only [blocks,fsBlockSize] at *
      omega
    rwa [here,reached] at larger
  · rw [Nat.add_zero,←claimed]
    exact grown_start g i (count i)

theorem unread_stored (passes : Passes (fun d => Unread (stored f.disk) (stored d)) f.disk m.disk) :
    Unread (stored f.disk) (stored m.disk) ∧ m.disk.totalSectors = f.disk.totalSectors := by
  refine ⟨passes_last passes,?_⟩
  obtain ⟨writes,reached,_⟩ := passes
  rw [reached]
  exact (replay_drive f.disk writes).2.1

-- An operation was turned down: whatever it wrote is no part of a file.
theorem durable_declined (durable : Durable f rows)
    (passes : Passes (fun d => Unread (stored f.disk) (stored d)) f.disk m.disk) (table : Table m rows)
    (super : m.super = f.super)
    (backed : ∀ slot,Owned (stored f.disk) (claims (stored f.disk)) slot → slotBlock m slot = slotBlock (stored f.disk) slot)
    (marks : ∀ b,member f.bitmap b = true → member m.bitmap b = true) (tidy : Tidy m) : Durable m rows := by
  obtain ⟨unread,sectors⟩ := unread_stored passes
  refine ⟨table,unread_table unread durable.disk,?_,?_,?_,?_,?_,tidy,?_⟩
  · rw [unread.super,durable.super,super]
  · rw [super]
    exact durable.magic
  · rw [sectors]
    exact durable.room
  · intro slot claim
    have owned := (unread_owned unread).mp claim
    rw [unread_slot unread owned]
    exact backed slot owned
  · intro b marked
    rw [unread.bitmap] at marked
    exact marks b (durable.marks b marked)
  · intro j entry unused x below
    rw [unread.directory]
    exact durable.clean j entry (by rw [←unread_get unread]; exact unused) x below

-- Memory is ready to be saved: it holds the rows with the one of this name changed, and both
-- directories, the old and the new, take their blocks from one layout.
structure Committed (f m : Fs) (rows now : Nat → Row) (i : Nat) (name : CString) : Prop where
  entry : i < fsMaxFiles
  passes : Passes (fun d => Unread (stored f.disk) (stored d)) f.disk m.disk
  super : m.super = f.super
  table : Table m now
  tidy : Tidy m
  others : ∀ j,j ≠ i → Alike j f m
  only : ∀ j,j ≠ i → now j = rows j
  before : ∀ other content,rows i = some (other,content) → other = name
  behind : ∀ other content,now i = some (other,content) → other = name
  drawn : ∃ r count,Layout r count ∧ r.super = f.super ∧ Drawn (stored m.disk) r count ∧ Drawn m r count
  fresh : ∀ k,claims f i ≤ k → k < claims m i → member f.bitmap (dataBlock m i k) = false
  still : get m i .used ≠ 0 → claims m i ≤ claims f i → get m i .indirect = get f i .indirect

def saved (m : Fs) : Fs := {m with disk:=replay m.disk (commits m (fsDirSectors+1))}

theorem saved_alike (m : Fs) (entry : j < fsMaxFiles) : Alike j m (stored (saved m).disk) := by
  refine commit_new entry ?_
  simp only [fsMaxFiles,fsDirSectors] at *
  omega

theorem saved_block (m : Fs) (b : Nat) : block (saved m) b = block m b := @commit_block m (fsDirSectors+1) b (Nat.le_refl _)

theorem saved_slot (m : Fs) (slot : Slot) : slotBlock (saved m) slot = slotBlock m slot := by
  have alike : Alike (holder slot) m (saved m) := fun _ _ => rfl
  exact (alike_slot alike (saved_block m)).2

-- Right after a save memory and disk are the same.
theorem durable_save (table : Table m rows) (super : (stored m.disk).super = m.super) (magic : m.super.magic = fsMagic)
    (room : fsDataStart < m.disk.totalSectors) (tidy : Tidy m) : Durable (saved m) rows := by
  have same : ∀ b,block (stored (saved m).disk) b = block m b := fun b => commit_block b (Nat.le_refl _)
  refine ⟨table_disk table (ready_replay table.layout.ready _) same,commit_table table super,
    (commit_super m _).trans super,magic,?_,?_,?_,tidy,?_⟩
  · change fsDataStart < (replay m.disk _).totalSectors
    rw [(replay_drive m.disk _).2.1]
    exact room
  · intro slot claim
    have entry : holder slot < fsMaxFiles := by cases slot <;> exact claim.1
    rw [saved_slot]
    exact (alike_slot (saved_alike m entry) same).2.symm
  · intro b marked
    have bitmap : (stored (saved m).disk).bitmap = m.bitmap := (commit_bitmap (Nat.le_refl _)).trans (if_pos rfl)
    rw [bitmap] at marked
    exact marked
  · intro j entry unused x below
    rw [saved_alike m entry x below]
    exact tidy j entry (by rw [←alike_get (saved_alike m entry) (by trivial)]; exact unused) x below

theorem committed_super (durable : Durable f rows) (committed : Committed f m rows now i name) :
    (stored m.disk).super = m.super := by
  rw [(unread_stored committed.passes).1.super,durable.super,committed.super]

theorem durable_saved (durable : Durable f rows) (committed : Committed f m rows now i name) : Durable (saved m) now := by
  refine durable_save committed.table (committed_super durable committed) ?_ ?_ committed.tidy
  · rw [committed.super]
    exact durable.magic
  · rw [(unread_stored committed.passes).2]
    exact durable.room

theorem cleared_zero (f : Fs) (i : Nat) (below : x < entrySize) : (clearEntry f i).directory (i*entrySize+x) = 0#8 :=
  @patch_inside (i*entrySize) _ entrySize f.directory (fun _ => 0#8) (by omega) (by omega)

theorem tidy_others (tidy : Tidy f) (others : ∀ j,j ≠ i → Alike j f m)
    (here : get m i .used = 0 → ∀ x < entrySize,m.directory (i*entrySize+x) = 0#8) : Tidy m := by
  intro j entry unused x below
  by_cases same : j = i
  · rw [same] at unused ⊢
    exact here unused x below
  · rw [others j same x below]
    exact tidy j entry (by rw [←alike_get (others j same) (by trivial)]; exact unused) x below

-- What the disk names is named in memory too, so both draw on memory's layout.
theorem drawn_memory {u : Fs} (unread : Unread v u)
    (backed : ∀ slot,Owned v (claims v) slot → slotBlock m slot = slotBlock v slot)
    (less : ∀ j < fsMaxFiles,claims v j ≤ claims m j) : Drawn u m (claims m) := by
  intro slot claim
  have owned := (unread_owned unread).mp claim
  have same := backed slot owned
  refine ⟨?_,same.trans (unread_slot unread owned).symm⟩
  cases slot with
  | data j k => exact ⟨owned.1,Nat.lt_of_lt_of_le owned.2 (less j owned.1)⟩
  | indirect j => exact ⟨owned.1,by change get m j .indirect = get v j .indirect at same; rw [same]; exact owned.2⟩

theorem claims_stored (durable : Durable f rows) (entry : j < fsMaxFiles) : claims (stored f.disk) j = claims f j := by
  rw [claims_row durable.disk entry,claims_row durable.memory entry]

section Create
variable {name : CString} {data : List Byte}

-- The entry is free on the disk as well.
theorem unused_foreign (durable : Durable f rows) (entry : i < fsMaxFiles) (unused : rows i = none)
    (claim : Owned (stored f.disk) (claims (stored f.disk)) slot) : holder slot ≠ i := by
  have zero := (shows_unused durable.disk entry).mpr unused
  rintro rfl
  cases slot with
  | data j k =>
    have below : k < claims (stored f.disk) j := claim.2
    have none : claims (stored f.disk) j = 0 := if_pos zero
    omega
  | indirect j => exact claim.2 (tidy_indirect durable.clean entry zero)

theorem named_drafted (durable : Durable f rows) (entry : i < fsMaxFiles) (unused : rows i = none)
    (short : name.bytes.length < fsNameMax) :
    Drafted (stored f.disk) (nameEntry f i name name.bytes.length) (nameEntry f i name name.bytes.length) i := by
  refine ⟨passes_refl (unread_refl (stored f.disk)),?_,fun _ _ _ _ => rfl,fun _ marked => marked⟩
  intro slot claim
  have different := unused_foreign durable entry unused claim
  have alike : Alike (holder slot) f (nameEntry f i name name.bytes.length) :=
    (named_edited f i name short).outside _ different
  rw [(alike_slot alike (fun _ => rfl)).2]
  exact durable.backed slot claim

theorem create_committed (durable : Durable f rows) (entry : i < fsMaxFiles) (unused : rows i = none)
    (absent : ∀ j < fsMaxFiles,∀ content,rows j ≠ some (name,content)) (nonempty : name.bytes ≠ [])
    (short : name.bytes.length < fsNameMax) (small : data.length < 2^32)
    (progress : Progress (nameEntry f i name name.bytes.length) after (claims f) i 0 data data.length)
    (drafted : Drafted (stored f.disk) (nameEntry f i name name.bytes.length) after i)
    (grown : Grown (nameEntry f i name name.bytes.length) after i (claims f i) (blocks (0+data.length))) :
    Committed f (put (put after i .size data.length) i .used 1) rows (Function.update rows i (some (name,data))) i name := by
  have table := create_stored durable.memory entry absent nonempty short small progress
  have slots : ∀ slot,slotBlock (put (put after i .size data.length) i .used 1) slot = slotBlock after slot :=
    fun slot => (slot_put _ slot i _ (by decide)).trans (slot_put _ slot i _ (by decide))
  have others : ∀ j,j ≠ i → Alike j f (put (put after i .size data.length) i .used 1) := by
    intro j different x below
    have edited : Edited i after (put (put after i .size data.length) i .used 1) :=
      edited_trans (edited_put after i _ (by trivial)) (edited_put _ i _ (by trivial))
    rw [edited.outside j different x below,drafted.outside j different x below,
      (named_edited f i name short).outside j different x below]
  have nothing : claims f i = 0 := by rw [claims_row durable.memory entry,unused]; rfl
  have here : claims (put (put after i .size data.length) i .used 1) i = blocks data.length := by
    rw [claims_row table entry,Function.update_self]
    rfl
  refine ⟨entry,drafted.passes,?_,table,tidy_others durable.tidy others ?_,others,
    fun j different => Function.update_of_ne different _ _,?_,?_,?_,?_,?_⟩
  · exact progress.frame.super.trans (named_edited f i name short).super
  · intro zero
    have used : get (put (put after i .size data.length) i .used 1) i .used = 1 := get_put_same (by decide)
    omega
  · intro other content row
    rw [unused] at row
    cases row
  · intro other content row
    rw [Function.update_self] at row
    cases Option.some.inj row
    rfl
  · refine ⟨_,_,table.layout,progress.frame.super.trans (named_edited f i name short).super,?_,fun _ claim => ⟨claim,rfl⟩⟩
    refine drawn_memory (unread_stored drafted.passes).1 (fun slot claim => (slots slot).trans (drafted.backed slot claim)) ?_
    intro j slot
    rw [claims_row durable.disk slot,claims_row table slot]
    by_cases same : j = i
    · rw [same,unused]
      exact Nat.zero_le _
    · rw [Function.update_of_ne same]
  · intro k low high
    rw [here] at high
    have same : dataBlock (put (put after i .size data.length) i .used 1) i k = dataBlock after i k := slots (.data i k)
    rw [same]
    exact grown.fresh k low (by rw [Nat.zero_add]; exact high)
  · intro _ most
    rw [here] at most
    have same : blocks data.length = claims f i := by omega
    have kept : get (put (put after i .size data.length) i .used 1) i .indirect = get after i .indirect := slots (.indirect i)
    have empty : get (nameEntry f i name name.bytes.length) i .indirect = 0 := named_head f i name short (by trivial)
    have unusedNow := (shows_unused durable.memory entry).mpr unused
    rw [kept,FileSystem.get,(grown.still (by rw [Nat.zero_add]; exact same)).1,tidy_indirect durable.tidy entry unusedNow]
    exact empty

theorem create_declined (durable : Durable f rows) (entry : i < fsMaxFiles) (unused : rows i = none)
    (short : name.bytes.length < fsNameMax)
    (refused : Refused (nameEntry f i name name.bytes.length) after (claims f) i 0)
    (drafted : Drafted (stored f.disk) (nameEntry f i name name.bytes.length) after i) : Durable (clearEntry after i) rows := by
  have nothing : claims f i = 0 := by rw [claims_row durable.memory entry,unused]; rfl
  have cleared := edited_clear after i
  have others : ∀ j,j ≠ i → Alike j f (clearEntry after i) := by
    intro j different x below
    rw [cleared.outside j different x below,drafted.outside j different x below,
      (named_edited f i name short).outside j different x below]
  refine durable_declined durable drafted.passes (create_refused durable.memory short unused nothing refused)
    (refused.frame.super.trans (named_edited f i name short).super) ?_ drafted.marks
    (tidy_others durable.tidy others fun _ x below => cleared_zero after i below)
  intro slot claim
  have alike : Alike (holder slot) after (clearEntry after i) := cleared.outside _ (unused_foreign durable entry unused claim)
  rw [(alike_slot alike (fun _ => rfl)).2]
  exact drafted.backed slot claim

theorem create_outcome (durable : Durable f rows) (name : CString) (data : List Byte) (small : data.length < 2^32) :
    (fsCreate f name data).1 = false ∧
        Passes (fun d => Unread (stored f.disk) (stored d)) f.disk (fsCreate f name data).2.disk ∧
        Durable (fsCreate f name data).2 rows ∨
      ∃ i m,fsCreate f name data = (true,saved m) ∧ findFreeEntry f = some i ∧
        Committed f m rows (Function.update rows i (some (name,data))) i name := by
  rcases create_form durable.memory name data with ⟨form,_⟩ | ⟨i,entry,unused,_,free,absent,nonempty,short,form⟩
  · rw [form]
    exact .inl ⟨rfl,passes_refl (unread_refl _),durable⟩
  have nothing : claims f i = 0 := by rw [claims_row durable.memory entry,unused]; rfl
  have empty : get (nameEntry f i name name.bytes.length) i .size = 0 := named_head f i name short (by trivial)
  have outcome := writeAt_drafted durable.disk (named_drafted durable entry unused short)
    (@named_layout _ _ _ name _ durable.memory nothing short) entry (by rw [nothing,empty]; rfl)
    (fun j slot => Nat.le_of_eq (claims_stored durable slot))
    (fun used => absurd ((shows_unused durable.disk entry).mpr unused) used) data
  rw [empty] at outcome
  rw [form]
  generalize writeAt (nameEntry f i name name.bytes.length) i 0 data = answer at *
  obtain ⟨written,after⟩ := answer
  rcases outcome with ⟨succeeded,progress,drafted,grown⟩ | ⟨failed,refused,drafted⟩
  · cases succeeded
    have committed := create_committed durable entry unused absent nonempty short small progress drafted grown
    refine .inr ⟨i,_,?_,free,committed⟩
    rw [if_neg (by simp)]
    exact save_commits committed.table.layout.ready
  · cases failed
    exact .inl ⟨rfl,drafted.passes,create_declined durable entry unused short refused drafted⟩
end Create

section Append
variable {name : CString} {data old : List Byte}

theorem append_committed (durable : Durable f rows) (entry : i < fsMaxFiles) (row : rows i = some (name,old))
    (progress : Progress f after (claims f) i (get f i .size) data data.length)
    (drafted : Drafted (stored f.disk) f after i)
    (grown : Grown f after i (claims f i) (blocks (get f i .size+data.length))) :
    Committed f (put after i .size (wrap 32 (get after i .size+data.length))) rows
      (Function.update rows i (some (name,old++data))) i name := by
  have table := append_stored durable.memory entry row progress
  generalize wrap 32 (get after i .size+data.length) = total at *
  have slots : ∀ slot,slotBlock (put after i .size total) slot = slotBlock after slot :=
    fun slot => slot_put _ slot i _ (by decide)
  have others : ∀ j,j ≠ i → Alike j f (put after i .size total) := by
    intro j different x below
    rw [(edited_put after i total (by trivial)).outside j different x below,drafted.outside j different x below]
  obtain ⟨shown,claimed,_⟩ := shows_file durable.memory entry row
  have length : old.length = get f i .size := by rw [shown.2.2.2.2,content_length]
  have here : claims (put after i .size total) i = blocks (get f i .size+data.length) := by
    rw [claims_row table entry,Function.update_self,rowBlocks,List.length_append,length]
  have used : get (put after i .size total) i .used ≠ 0 := by
    intro zero
    have none := (shows_unused table entry).mp zero
    rw [Function.update_self] at none
    cases none
  refine ⟨entry,drafted.passes,progress.frame.super,table,tidy_others durable.tidy others (fun zero => absurd zero used),others,
    fun j different => Function.update_of_ne different _ _,?_,?_,?_,?_,?_⟩
  · intro other content taken
    rw [row] at taken
    cases Option.some.inj taken
    rfl
  · intro other content taken
    rw [Function.update_self] at taken
    cases Option.some.inj taken
    rfl
  · refine ⟨_,_,table.layout,progress.frame.super,?_,fun _ claim => ⟨claim,rfl⟩⟩
    refine drawn_memory (unread_stored drafted.passes).1 (fun slot claim => (slots slot).trans (drafted.backed slot claim)) ?_
    intro j slot
    rw [claims_row durable.disk slot,claims_row table slot]
    by_cases same : j = i
    · rw [same,row,Function.update_self,rowBlocks,rowBlocks,List.length_append]
      exact Nat.div_le_div_right (by omega)
    · rw [Function.update_of_ne same]
  · intro k low high
    rw [here] at high
    have same : dataBlock (put after i .size total) i k = dataBlock after i k := slots (.data i k)
    rw [same]
    exact grown.fresh k low high
  · intro _ most
    rw [here] at most
    have least : claims f i ≤ blocks (get f i .size+data.length) := by
      rw [claimed]
      exact Nat.div_le_div_right (by omega)
    have same : blocks (get f i .size+data.length) = claims f i := Nat.le_antisymm most least
    have kept : get (put after i .size total) i .indirect = get after i .indirect := slots (.indirect i)
    rw [kept,FileSystem.get,(grown.still same).1,FileSystem.get]

theorem append_declined (durable : Durable f rows) (entry : i < fsMaxFiles) (row : rows i = some (name,old))
    (refused : Refused f after (claims f) i (get f i .size)) (drafted : Drafted (stored f.disk) f after i) :
    Durable after rows := by
  have table := append_refused durable.memory entry row refused
  refine durable_declined durable drafted.passes table refused.frame.super drafted.backed drafted.marks
    (tidy_others durable.tidy drafted.outside fun zero => ?_)
  have none := (shows_unused table entry).mp zero
  rw [row] at none
  cases none

theorem append_outcome (durable : Durable f rows) (name : CString) (data : List Byte) :
    (fsAppend f name data).1 = false ∧
        Passes (fun d => Unread (stored f.disk) (stored d)) f.disk (fsAppend f name data).2.disk ∧
        Durable (fsAppend f name data).2 rows ∨
      ∃ i m old,fsAppend f name data = (true,saved m) ∧ findEntry f name = some i ∧ rows i = some (name,old) ∧
        Committed f m rows (Function.update rows i (some (name,old++data))) i name := by
  rcases append_form durable.memory name data with ⟨form,_,_⟩ | ⟨i,entry,old,row,found,form⟩
  · rw [form]
    exact .inl ⟨rfl,passes_refl (unread_refl _),durable⟩
  obtain ⟨shown,claimed,_⟩ := shows_file durable.memory entry row
  obtain ⟨stays,_,_⟩ := shows_file durable.disk entry row
  have start : Drafted (stored f.disk) f f i :=
    ⟨passes_refl (unread_refl _),durable.backed,fun _ _ _ _ => rfl,fun _ marked => marked⟩
  have sizes : get (stored f.disk) i .size = get f i .size := by
    rw [←content_length (stored f.disk) i,←stays.2.2.2.2,shown.2.2.2.2,content_length]
  have outcome := writeAt_drafted durable.disk start durable.memory.layout entry claimed
    (fun j slot => Nat.le_of_eq (claims_stored durable slot)) (fun _ => Nat.le_of_eq sizes) data
  rw [form]
  generalize writeAt f i (get f i .size) data = answer at *
  obtain ⟨written,after⟩ := answer
  rcases outcome with ⟨succeeded,progress,drafted,grown⟩ | ⟨failed,refused,drafted⟩
  · cases succeeded
    have committed := append_committed durable entry row progress drafted grown
    refine .inr ⟨i,_,old,?_,found,row,committed⟩
    rw [if_neg (by simp)]
    exact save_commits committed.table.layout.ready
  · cases failed
    exact .inl ⟨rfl,drafted.passes,append_declined durable entry row refused drafted⟩
end Append

section Delete
variable {name : CString} {old : List Byte}

theorem delete_committed {marks : Words 8} (durable : Durable f rows) (entry : i < fsMaxFiles)
    (row : rows i = some (name,old)) (freed : Freed f i marks) :
    Committed f (clearEntry {f with bitmap:=marks} i) rows (Function.update rows i none) i name := by
  have table := delete_table durable.memory entry fun b data indirect marked => (freed b).mpr ⟨marked,data,indirect⟩
  have cleared : Edited i {f with bitmap:=marks} (clearEntry {f with bitmap:=marks} i) := edited_clear _ i
  have others : ∀ j,j ≠ i → Alike j f (clearEntry {f with bitmap:=marks} i) := fun j different => cleared.outside j different
  have used : get (clearEntry {f with bitmap:=marks} i) i .used = 0 := get_clear (by trivial)
  have nothing : claims (clearEntry {f with bitmap:=marks} i) i = 0 := if_pos used
  refine ⟨entry,passes_refl (unread_refl _),rfl,table,
    tidy_others durable.tidy others (fun _ x below => cleared_zero _ i below),others,
    fun j different => Function.update_of_ne different _ _,?_,?_,?_,?_,fun busy => absurd used busy⟩
  · intro other content taken
    rw [row] at taken
    cases Option.some.inj taken
    rfl
  · intro other content taken
    rw [Function.update_self] at taken
    cases taken
  · refine ⟨f,claims f,durable.memory.layout,rfl,?_,?_⟩
    · exact drawn_memory (unread_refl (stored f.disk)) durable.backed fun j slot => Nat.le_of_eq (claims_stored durable slot)
    · intro slot claim
      have different : holder slot ≠ i := by
        rintro rfl
        cases slot with
        | data j k =>
          have below : k < claims (clearEntry {f with bitmap:=marks} j) j := claim.2
          have none : claims (clearEntry {f with bitmap:=marks} j) j = 0 := nothing
          omega
        | indirect j => exact claim.2 (get_clear (by trivial))
      obtain ⟨owned,same⟩ := alike_slot (others _ different) (fun _ => rfl)
      exact ⟨owned.mp claim,same.symm⟩
  · intro k low high
    omega

theorem delete_outcome (durable : Durable f rows) (name : CString) :
    (fsDelete f name).1 = false ∧
        Passes (fun d => Unread (stored f.disk) (stored d)) f.disk (fsDelete f name).2.disk ∧
        Durable (fsDelete f name).2 rows ∨
      ∃ i m old,fsDelete f name = (true,saved m) ∧ findEntry f name = some i ∧ rows i = some (name,old) ∧
        Committed f m rows (Function.update rows i none) i name := by
  rcases delete_form durable.memory name with ⟨form,_⟩ | ⟨i,entry,old,marks,row,found,freed,form⟩
  · rw [form]
    exact .inl ⟨rfl,passes_refl (unread_refl _),durable⟩
  have committed := delete_committed durable entry row freed
  refine .inr ⟨i,_,old,?_,found,row,committed⟩
  rw [form]
  exact save_commits committed.table.layout.ready
end Delete

def target : Call → CString
  | .create name _ => name
  | .append name _ => name
  | .read name _ => name
  | .delete name => name

-- The entry a call is about, before it is made.
def touched (f : Fs) : Call → Option Nat
  | .create _ _ => findFreeEntry f
  | call => findEntry f (target call)

def rowAfter (row : Row) : Call → Row
  | .create name data => some (name,data)
  | .append _ data => row.map fun (name,old) => (name,old++data)
  | .delete _ => none
  | .read _ _ => row

theorem perform_outcome (durable : Durable f rows) (call : Call) (sized : Sized call) :
    Passes (fun d => Unread (stored f.disk) (stored d)) f.disk (perform f call).2.disk ∧ Durable (perform f call).2 rows ∨
    ∃ i m,(perform f call).2 = saved m ∧ touched f call = some i ∧
      Committed f m rows (Function.update rows i (rowAfter (rows i) call)) i (target call) := by
  cases call with
  | create name data =>
    rcases create_outcome durable name data sized with ⟨_,passes,kept⟩ | ⟨i,m,done,free,committed⟩
    · exact .inl ⟨passes,kept⟩
    · exact .inr ⟨i,m,congrArg Prod.snd done,free,committed⟩
  | append name data =>
    rcases append_outcome durable name data with ⟨_,passes,kept⟩ | ⟨i,m,old,done,found,row,committed⟩
    · exact .inl ⟨passes,kept⟩
    · exact .inr ⟨i,m,congrArg Prod.snd done,found,by rw [row]; exact committed⟩
  | delete name =>
    rcases delete_outcome durable name with ⟨_,passes,kept⟩ | ⟨i,m,_,done,found,_,committed⟩
    · exact .inl ⟨passes,kept⟩
    · exact .inr ⟨i,m,congrArg Prod.snd done,found,committed⟩
  | read name limit => exact .inl ⟨passes_refl (unread_refl _),durable⟩

theorem perform_durable (durable : Durable f rows) (call : Call) (sized : Sized call) :
    ∃ now,Durable (perform f call).2 now := by
  rcases perform_outcome durable call sized with ⟨_,kept⟩ | ⟨i,m,done,_,committed⟩
  · exact ⟨rows,kept⟩
  · rw [done]
    exact ⟨_,durable_saved durable committed⟩

-- The superblock comes back from its sector.
theorem superOf_sector {s : Superblock} (magic : s.magic < 2^32) (total : s.totalBlocks < 2^32) (start : s.dataStart < 2^32)
    (files : s.maxFiles < 2^32) : superOf (superSector s) = s := by
  obtain ⟨magicOf,totalOf,startOf,filesOf⟩ := s
  simp only [superOf,superSector] at *
  rw [load_store_apart _ _ (by omega),load_store_apart _ _ (by omega),load_store_apart _ _ (by omega),load_store _ _ magic,
    load_store_apart _ _ (by omega),load_store_apart _ _ (by omega),load_store _ _ total,
    load_store_apart _ _ (by omega),load_store _ _ start,load_store _ _ files]

-- fs_format is a save of an empty directory over a stamped disk.
def stampedFs (f : Fs) : Fs := {putSector (blankFs f) 0 (superSector (blankFs f).super) with mounted:=true}

theorem format_form (works : Works f.disk) (room : fsDataStart < f.disk.totalSectors) :
    fsFormat f = (true,saved (stampedFs f)) := by
  have ready := blank_ready works room
  have saves := save_commits (@ready_putSector _ 0 (superSector (blankFs f).super) ready)
  change saveMetadata {blankFs f with disk:=(putSector (blankFs f) 0 (superSector (blankFs f).super)).disk} = _ at saves
  have write := @write_sector _ 0 (superSector (blankFs f).super) ready (Nat.zero_lt_of_lt room) (by decide)
  unfold fsFormat
  rw [if_neg (by omega)]
  dsimp only
  rw [write]
  dsimp only
  rw [if_neg (by simp),saves]
  rfl

theorem formatted_durable (works : Works f.disk) (room : fsDataStart < f.disk.totalSectors) :
    Durable (fsFormat f).2 fun _ => none := by
  rw [format_form works room]
  have ready := blank_ready works room
  have zeros : ∀ j < fsMaxFiles,∀ x < entrySize,(stampedFs f).directory (j*entrySize+x) = 0#8 := by
    intro j entry x below
    refine @patch_inside 0 (j*entrySize+x) (fsMaxFiles*entrySize) f.directory (fun _ => 0#8) (Nat.zero_le _) ?_
    simp only [fsMaxFiles,entrySize] at *
    omega
  refine durable_save (@table_empty _ f ⟨ready.present,ready.works,ready.start,ready.tracked,ready.enough⟩ rfl rfl) ?_ rfl room
    fun j entry _ => zeros j entry
  change superOf (Function.update f.disk.sectors 0 (superSector (blankFs f).super) 0) = (blankFs f).super
  rw [Function.update_self]
  have most : (blankFs f).super.totalBlocks ≤ sectorSize*8 := Nat.min_le_right _ _
  refine superOf_sector ?_ ?_ ?_ ?_
  · change fsMagic < 2^32
    decide
  · simp only [sectorSize] at most
    omega
  · change fsDataStart < 2^32
    decide
  · change fsMaxFiles < 2^32
    decide

-- fs_mount finds what the disk holds.
theorem mounted_durable (durable : Durable f rows) {memory : Fs} (disk : memory.disk = f.disk) :
    (fsMount memory).1 = true ∧ Durable (fsMount memory).2 rows := by
  have magic : (stored f.disk).super.magic = fsMagic := by rw [durable.super]; exact durable.magic
  have ready := durable.disk.layout.ready
  obtain ⟨directory,mount,bytes⟩ := fsMount_parts ready magic disk
  rw [mount]
  refine ⟨rfl,?_⟩
  have alike : ∀ j < fsMaxFiles,Alike j (stored f.disk) {stored f.disk with directory:=directory} := by
    intro j entry x below
    refine bytes _ ?_
    simp only [fsMaxFiles,entrySize] at *
    omega
  refine ⟨alike_table durable.disk rfl ⟨ready.present,ready.works,ready.start,ready.tracked,ready.enough⟩ rfl alike
    (fun _ => rfl) (fun _ marked => marked),durable.disk,rfl,magic,durable.room,?_,fun _ marked => marked,?_,durable.clean⟩
  · intro slot claim
    have entry : holder slot < fsMaxFiles := by cases slot <;> exact claim.1
    exact (alike_slot (alike _ entry) (fun _ => rfl)).2
  · intro j entry unused x below
    rw [alike j entry x below]
    exact durable.clean j entry (by rw [←alike_get (alike j entry) (by trivial)]; exact unused) x below

-- A filesystem in use: the calls, a mount or a format now and then, and no power cut.
inductive Event where
  | call (call : Call)
  | mount
  | format

def happen (f : Fs) : Event → Fs
  | .call call => (perform f call).2
  | .mount => (fsMount f).2
  | .format => (fsFormat f).2

def Sane : Event → Prop
  | .call call => Sized call
  | _ => True

def lifetime : System Fs Event := guarded Formatted (fun _ => Sane) happen

theorem happen_durable (durable : Durable f rows) (event : Event) (sane : Sane event) : ∃ now,Durable (happen f event) now := by
  cases event with
  | call call => exact perform_durable durable call sane
  | mount => exact ⟨rows,(mounted_durable durable rfl).2⟩
  | format =>
    have ready := durable.memory.layout.ready
    exact ⟨_,formatted_durable ⟨ready.present,ready.works⟩ durable.room⟩

theorem runs_durable (reached : Reached lifetime f) : ∃ rows,Durable f rows := by
  apply reached.invariant
  · rintro f ⟨blank,works,room,made⟩
    have durable := formatted_durable works room
    rw [made] at durable
    exact ⟨_,durable⟩
  · rintro f event next ⟨rows,durable⟩ ⟨sane,rfl⟩
    exact happen_durable durable event sane

theorem reached_calls (reached : Reached lifetime f) (sized : ∀ call ∈ calls,Sized call) : Reached lifetime (performAll f calls) := by
  induction calls generalizing f with
  | nil => exact reached
  | cons call rest ih =>
    obtain ⟨origin,events,formatted,run⟩ := reached
    have one : Runs lifetime origin (events++[.call call]) (perform f call).2 := run.act (sized call (List.mem_cons_self ..))
    exact ih ⟨origin,_,formatted,one⟩ fun other member => sized other (List.mem_cons_of_mem _ member)

theorem mixed_reached : Reached lifetime mixedFs := reached_calls ⟨_,[],small_formatted,.nil⟩ mixed_sized

end Arthic.FileDurable
