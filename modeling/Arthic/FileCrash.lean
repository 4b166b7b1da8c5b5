import Arthic.FileDurable

namespace Arthic.FileCrash
open BitWords ByteMemory Transition FileSystem FileLayout FileWrites FileTable FileOperations FileMap FileDisk FileDrafts FileDurable
variable {f g : Fs} {rows now : Nat → Row} {d : Disk}

-- Where the power can go in the middle of a call.
theorem crash_cases (durable : Durable f rows) (call : Call) (sized : Sized call)
    (cut : (perform f call).2.disk.log = f.disk.log++(done++missing)) :
    Unread (stored f.disk) (stored (replay f.disk done)) ∧ (∀ write ∈ done,fsDataStart ≤ write.1) ∨
    ∃ i m n,(perform f call).2 = saved m ∧ touched f call = some i ∧
      Committed f m rows (Function.update rows i (rowAfter (rows i) call)) i (target call) ∧ n ≤ fsDirSectors+1 ∧ replay f.disk done = replay m.disk (commits m n) ∧
      ∀ s ≤ fsDirSectors,fsDirStart+s ∈ done.map Prod.fst ↔ s < n := by
  rcases perform_outcome durable call sized with ⟨⟨writes,reached,data,cuts⟩,_⟩ | ⟨i,m,finish,entry,committed⟩
  · rw [reached,replay_log] at cut
    have whole := List.append_cancel_left cut
    exact .inl ⟨cuts done ⟨missing,whole.symm⟩,fun write member => data write (by rw [whole]; exact List.mem_append_left _ member)⟩
  · obtain ⟨writes,reached,data,cuts⟩ := committed.passes
    have log : (saved m).disk.log = f.disk.log++(writes++commits m (fsDirSectors+1)) := by
      change (replay m.disk (commits m (fsDirSectors+1))).log = _
      rw [reached,replay_log,replay_log,List.append_assoc]
    rw [finish,log] at cut
    rcases List.append_eq_append_iff.mp (List.append_cancel_left cut) with ⟨more,rfl,rest⟩ | ⟨left,whole,_⟩
    · obtain ⟨n,most,rfl⟩ := commits_cut ⟨missing,rest.symm⟩
      refine .inr ⟨i,m,n,finish,entry,committed,most,by rw [replay_append,←reached],?_⟩
      intro s low
      rw [List.map_append,List.mem_append,commits,List.map_map]
      constructor
      · rintro (early | late)
        · obtain ⟨write,member,same⟩ := List.mem_map.mp early
          have far := data write member
          simp only [fsDataStart,fsDirStart,fsDirSectors] at *
          omega
        · obtain ⟨t,member,same⟩ := List.mem_map.mp late
          have below := List.mem_range.mp member
          change fsDirStart+t = fsDirStart+s at same
          omega
      · intro below
        exact .inr (List.mem_map.mpr ⟨s,List.mem_range.mpr below,rfl⟩)
    · exact .inl ⟨cuts done ⟨left,whole.symm⟩,fun write member => data write (by rw [whole]; exact List.mem_append_left _ member)⟩

theorem read_agree {name : CString} (first : Table f rows) (second : Table g now)
    (agree : ∀ j < fsMaxFiles,∀ content,rows j = some (name,content) ↔ now j = some (name,content)) (limit : Nat) :
    fsRead f name limit = fsRead g name limit := by
  rcases fsRead_parts first name limit with ⟨none,absent⟩ | ⟨i,entry,content,row,read⟩ <;>
    rcases fsRead_parts second name limit with ⟨noneToo,absentToo⟩ | ⟨j,slot,other,rowToo,readToo⟩
  · rw [none,noneToo]
  · exact absurd ((agree j slot other).mpr rowToo) (absent j slot other)
  · exact absurd ((agree i entry content).mp row) (absentToo i entry content)
  · have back := (agree j slot other).mpr rowToo
    cases first.distinct i entry j slot name content other row back
    rw [row] at back
    cases Option.some.inj back
    rw [read,readToo]

-- fs_mount brings in the disk's entries, and nothing but them is ever looked at.
theorem mount_alike (ready : Ready (stored d)) (magic : (stored d).super.magic = fsMagic) {memory : Fs}
    (disk : memory.disk = d) :
    (fsMount memory).1 = true ∧ (fsMount memory).2.bitmap = (stored d).bitmap ∧ (fsMount memory).2.mounted = true ∧
    Ready (fsMount memory).2 ∧ (fsMount memory).2.super = (stored d).super ∧
    (∀ b,block (fsMount memory).2 b = block (stored d) b) ∧ ∀ j < fsMaxFiles,Alike j (stored d) (fsMount memory).2 := by
  obtain ⟨directory,mount,bytes⟩ := fsMount_parts ready magic disk
  rw [mount]
  refine ⟨rfl,rfl,rfl,⟨ready.present,ready.works,ready.start,ready.tracked,ready.enough⟩,rfl,fun _ => rfl,?_⟩
  intro j entry x below
  refine bytes _ ?_
  simp only [fsMaxFiles,entrySize] at *
  omega

theorem mount_reads (ready : Ready (stored d)) (magic : (stored d).super.magic = fsMagic) {memory : Fs} (disk : memory.disk = d)
    (table : Table (trusting (stored d)) rows) : (fsMount memory).1 = true ∧ Table (trusting (fsMount memory).2) rows := by
  obtain ⟨ok,_,mounted,still,super,same,alike⟩ := mount_alike ready magic disk
  refine ⟨ok,alike_table table mounted ⟨still.present,still.works,still.start,still.tracked,still.enough⟩ ?_ alike same
    (fun b _ => trusting_marked _ b)⟩
  change (fsMount memory).2.super.totalBlocks = (stored d).super.totalBlocks
  rw [super]

theorem crash_reads (durable : Durable f rows) (call : Call) (sized : Sized call)
    (cut : (perform f call).2.disk.log = f.disk.log++(done++missing)) :
    Ready (stored (replay f.disk done)) ∧ (stored (replay f.disk done)).super.magic = fsMagic ∧
    ∃ seen,Table (trusting (stored (replay f.disk done))) seen ∧ (seen = rows ∨ Table (perform f call).2 seen) ∧
      ∀ other,other ≠ target call → ∀ j < fsMaxFiles,∀ content,
        seen j = some (other,content) ↔ rows j = some (other,content) := by
  rcases crash_cases durable call sized cut with ⟨unread,_⟩ | ⟨i,m,n,finish,_,committed,most,same,_⟩
  · have table := unread_table unread durable.disk
    refine ⟨table.layout.ready,?_,rows,table_trusting table,.inl rfl,fun _ _ _ _ _ => Iff.rfl⟩
    rw [unread.super,durable.super]
    exact durable.magic
  · have super := committed_super durable committed
    obtain ⟨r,count,valid,total,old,new⟩ := committed.drawn
    have before : Table (stored m.disk) rows := unread_table (unread_stored committed.passes).1 durable.disk
    have seen := @commit_reads rows m n r count _ i before committed.table super valid
      (by rw [committed.super,total]) old new most committed.only
    rw [same]
    refine ⟨commit_ready committed.table.layout.ready super,?_,_,seen,?_,?_⟩
    · rw [commit_super,super,committed.super]
      exact durable.magic
    · split
      · refine .inr ?_
        rw [finish]
        exact (durable_saved durable committed).memory
      · exact .inl rfl
    · intro other different j entry content
      split
      · by_cases here : j = i
        · rw [here]
          exact ⟨fun row => absurd (committed.behind other content row) different,
            fun row => absurd (committed.before other content row) different⟩
        · rw [committed.only j here]
      · exact Iff.rfl

theorem crash_keeps_contents (reached : Reached lifetime f) (call : Call) (sized : Sized call)
    (cut : (perform f call).2.disk.log = f.disk.log++(done++missing)) {memory : Fs} (disk : memory.disk = replay f.disk done) :
    (fsMount memory).1 = true ∧
    ((∀ limit,fsRead (fsMount memory).2 (target call) limit = fsRead f (target call) limit) ∨
      ∀ limit,fsRead (fsMount memory).2 (target call) limit = fsRead (perform f call).2 (target call) limit) ∧
    ∀ other,other ≠ target call → ∀ limit,fsRead (fsMount memory).2 other limit = fsRead f other limit := by
  obtain ⟨rows,durable⟩ := runs_durable reached
  obtain ⟨ready,magic,seen,table,which,others⟩ := crash_reads durable call sized cut
  obtain ⟨ok,mounted⟩ := mount_reads ready magic disk table
  refine ⟨ok,?_,?_⟩
  · rcases which with same | final
    · refine .inl fun limit => ?_
      rw [←fsRead_trusting]
      exact read_agree mounted durable.memory (fun _ _ _ => by rw [same]) limit
    · refine .inr fun limit => ?_
      rw [←fsRead_trusting]
      exact read_agree mounted final (fun _ _ _ => Iff.rfl) limit
  · intro other different limit
    rw [←fsRead_trusting]
    exact read_agree mounted durable.memory (others other different) limit

-- A file of one byte is made on a new disk, and the power goes after the second of its
-- eighteen writes: the byte is there, and the first four entries of the directory.
def callWrites (f : Fs) (call : Call) : List (Nat × Sector) := (perform f call).2.disk.log.drop f.disk.log.length

theorem call_log (durable : Durable f rows) (call : Call) (sized : Sized call) (k : Nat) :
    (perform f call).2.disk.log = f.disk.log++((callWrites f call).take k++(callWrites f call).drop k) := by
  have grows : ∃ writes,(perform f call).2.disk = replay f.disk writes := by
    rcases perform_outcome durable call sized with ⟨⟨writes,reached,_⟩,_⟩ | ⟨i,m,finish,_,committed⟩
    · exact ⟨writes,reached⟩
    · obtain ⟨writes,reached,_⟩ := committed.passes
      refine ⟨writes++commits m (fsDirSectors+1),?_⟩
      rw [finish,replay_append,←reached]
      rfl
  obtain ⟨writes,reached⟩ := grows
  rw [List.take_append_drop,callWrites,reached,replay_log,List.drop_left]

def oneByte : Call := .create smallName [1#8]
def torn (k : Nat) : Disk := replay (fsFormat smallDisk).2.disk ((callWrites (fsFormat smallDisk).2 oneByte).take k)
def rebooted (k : Nat) : Fs := {smallDisk with disk:=torn k}

theorem small_sized : Sized oneByte := by
  change 1 < 2^32
  decide

theorem small_reached : Reached lifetime (fsFormat smallDisk).2 := ⟨_,[],small_formatted,.nil⟩

theorem small_log (k : Nat) : (perform (fsFormat smallDisk).2 oneByte).2.disk.log =
    (fsFormat smallDisk).2.disk.log++((callWrites (fsFormat smallDisk).2 oneByte).take k++
      (callWrites (fsFormat smallDisk).2 oneByte).drop k) := by
  obtain ⟨rows,durable⟩ := runs_durable small_reached
  exact call_log durable oneByte small_sized k

theorem crash_keeps_contents_small : (fsMount (rebooted 2)).1 = true ∧
    ((∀ limit,fsRead (fsMount (rebooted 2)).2 smallName limit = fsRead (fsFormat smallDisk).2 smallName limit) ∨
      ∀ limit,fsRead (fsMount (rebooted 2)).2 smallName limit =
        fsRead (perform (fsFormat smallDisk).2 oneByte).2 smallName limit) := by
  obtain ⟨ok,which,_⟩ := @crash_keeps_contents _ _ _ small_reached oneByte small_sized (small_log 2) (rebooted 2) rfl
  exact ⟨ok,which⟩

theorem stored_durable (reached : Reached storage f) : ∃ rows,Durable f rows := by
  apply reached.invariant
  · rintro f ⟨blank,works,room,made⟩
    have durable := formatted_durable works room
    rw [made] at durable
    exact ⟨_,durable⟩
  · rintro f ⟨call,reply⟩ next ⟨rows,durable⟩ ⟨sized,performed⟩
    have kept := perform_durable durable call sized
    rwa [performed] at kept

theorem remount_agrees (reached : Reached storage f) {memory : Fs} (disk : memory.disk = f.disk) :
    (fsMount memory).1 = true ∧ Consistent (fsMount memory).2 ∧
    (∀ name,(findEntry (fsMount memory).2 name).isSome = (findEntry f name).isSome) ∧
    ∀ name limit,fsRead (fsMount memory).2 name limit = fsRead f name limit := by
  obtain ⟨rows,durable⟩ := stored_durable reached
  obtain ⟨ok,mounted⟩ := mounted_durable durable disk
  refine ⟨ok,table_consistent mounted.memory,?_,?_⟩
  · intro name
    rcases findEntry_parts mounted.memory name with ⟨none,absent⟩ | ⟨i,entry,content,found,row⟩ <;>
      rcases findEntry_parts durable.memory name with ⟨noneToo,absentToo⟩ | ⟨j,slot,other,foundToo,rowToo⟩
    · rw [none,noneToo]
    · exact absurd rowToo (absent j slot other)
    · exact absurd row (absentToo i entry content)
    · rw [found,foundToo]
      rfl
  · intro name limit
    exact read_agree mounted.memory durable.memory (fun _ _ _ => Iff.rfl) limit

-- A second file that does not fit leaves its traces in memory and on the disk.
def refusedCalls : List Call := [oneByte,.create ⟨[98#8],by decide⟩ (List.replicate 12000 2#8)]

theorem remount_agrees_small : (fsMount (performAll (fsFormat smallDisk).2 refusedCalls)).1 = true ∧
    Consistent (fsMount (performAll (fsFormat smallDisk).2 refusedCalls)).2 ∧
    fsRead (fsMount (performAll (fsFormat smallDisk).2 refusedCalls)).2 smallName 9 =
      fsRead (performAll (fsFormat smallDisk).2 refusedCalls) smallName 9 := by
  have sized : ∀ call ∈ refusedCalls,Sized call := by
    intro call listed
    simp only [refusedCalls,oneByte,List.mem_cons,List.not_mem_nil,or_false] at listed
    rcases listed with rfl | rfl
    · exact small_sized
    · change (List.replicate 12000 2#8).length < 2^32
      rw [List.length_replicate]
      decide
  have run := @runs_transcript _ refusedCalls _ _ sized (.nil (s:=(fsFormat smallDisk).2))
  obtain ⟨ok,valid,_,reads⟩ := remount_agrees ⟨_,_,small_formatted,run⟩ rfl
  exact ⟨ok,valid,reads smallName 9⟩

-- What the bitmap owes the directory.
def Accounted (f : Fs) : Prop := ∀ i < fsMaxFiles,get f i .used ≠ 0 → ∀ b ∈ fileBlocks f i,blockUsed f b = true

-- ... and what it is for: whatever is created and appended later, no block has two owners.
def Safe (f : Fs) : Prop := Accounted f ∧ ∀ calls,(∀ call ∈ calls,Sized call) → Consistent (performAll f calls)

-- A block of numbers that the bitmap on the disk knows of.
def Listed (f : Fs) (j : Nat) : Prop := get f j .indirect ≠ 0 → blockUsed (stored f.disk) (get f j .indirect) = true

-- The call takes no block for entry j.
def Fits (f : Fs) (j : Nat) : Call → Prop
  | .create _ data => data = []
  | .append _ data => blocks (get f j .size+data.length) = blocks (get f j .size)
  | _ => True

def removes : Call → Bool
  | .delete _ => true
  | _ => false

-- Entry j as the call will write it needs no mark that is only in memory.
def Settled (f : Fs) (call : Call) (j : Nat) : Prop :=
  (touched f call = some j → Fits f j call) ∧ (Listed f j ∨ touched f call = some j ∧ removes call = true)

theorem table_marked (table : Table (trusting f) rows)
    (marked : ∀ slot,Owned f (claims f) slot → member f.bitmap (slotBlock f slot) = true) : Table f rows := by
  have layout := table.layout
  exact ⟨table.mounted,⟨⟨layout.ready.present,layout.ready.works,layout.ready.start,layout.ready.tracked,layout.ready.enough⟩,
    layout.short,layout.reach,fun slot claim => ⟨(layout.inside slot claim).1,marked slot claim⟩,layout.apart⟩,table.shows,
    table.distinct⟩

theorem slots_mem (entry : holder slot < fsMaxFiles) (claim : Owned f (claims f) slot) : slot ∈ slots f (holder slot) := by
  cases slot with
  | data j k => exact List.mem_append_left _ (List.mem_map.mpr ⟨k,List.mem_range.mpr claim.2,rfl⟩)
  | indirect j =>
    refine List.mem_append_right _ ?_
    change Slot.indirect j ∈ if get f j .indirect = 0 then [] else [Slot.indirect j]
    rw [if_neg claim.2]
    exact List.mem_singleton.mpr rfl

-- Over a directory that can be read, the blocks named are the blocks of the slots.
theorem accounted_iff (table : Table (trusting f) rows) (tidy : Tidy f) :
    Accounted f ↔ ∀ slot,Owned f (claims f) slot → member f.bitmap (slotBlock f slot) = true := by
  have named : ∀ i < fsMaxFiles,get f i .used ≠ 0 → fileBlocks f i = (slots f i).map (slotBlock f) :=
    fun i entry used => @fileBlocks_slots (trusting f) i table.layout entry used
  constructor
  · intro accounted slot claim
    have entry : holder slot < fsMaxFiles := by cases slot <;> exact claim.1
    have used : get f (holder slot) .used ≠ 0 := by
      intro unused
      cases slot with
      | data j k =>
        have below : k < claims f j := claim.2
        have none : claims f j = 0 := if_pos unused
        omega
      | indirect j => exact claim.2 (tidy_indirect tidy entry unused)
    have marked := accounted _ entry used (slotBlock f slot) (by
      rw [named _ entry used]
      exact List.mem_map.mpr ⟨slot,slots_mem entry claim,rfl⟩)
    rwa [blockUsed,testShift_member (by decide)] at marked
  · intro marked i entry used b listed
    rw [named i entry used] at listed
    obtain ⟨slot,member,rfl⟩ := List.mem_map.mp listed
    rw [blockUsed,testShift_member (by decide)]
    exact marked slot (slots_owned entry member).1

theorem perform_table (table : Table f rows) (call : Call) (sized : Sized call) : ∃ now,Table (perform f call).2 now := by
  cases call with
  | create name data =>
    rcases fsCreate_parts table name data sized with ⟨_,_,_,_,_,final⟩ | ⟨_,final⟩
    · exact ⟨_,final⟩
    · exact ⟨_,final⟩
  | append name data =>
    rcases fsAppend_parts table name data with ⟨_,_,_,_,_,final⟩ | ⟨_,final⟩
    · exact ⟨_,final⟩
    · exact ⟨_,final⟩
  | delete name =>
    rcases fsDelete_parts table name with ⟨_,_,_,_,_,final⟩ | ⟨_,final⟩
    · exact ⟨_,final⟩
    · exact ⟨_,final⟩
  | read name limit => exact ⟨rows,table⟩

theorem performAll_table {calls : List Call} (sized : ∀ call ∈ calls,Sized call) (table : Table f rows) :
    ∃ now,Table (performAll f calls) now := by
  induction calls generalizing f rows with
  | nil => exact ⟨rows,table⟩
  | cons call rest ih =>
    obtain ⟨next,after⟩ := perform_table table call (sized call (List.mem_cons_self ..))
    exact ih (fun other member => sized other (List.mem_cons_of_mem _ member)) after

theorem table_safe (table : Table f rows) : Safe f := by
  refine ⟨fun i entry used b listed => (((table_consistent table).entries i entry used).inside b listed).2,?_⟩
  intro calls sized
  obtain ⟨now,final⟩ := performAll_table sized table
  exact table_consistent final

section Cut
variable {m : Fs} {call : Call} {i n : Nat}

theorem listed_member : Listed f j ↔ (get f j .indirect ≠ 0 → member (stored f.disk).bitmap (get f j .indirect) = true) := by
  rw [Listed,blockUsed,testShift_member (by decide)]

-- A block taken by this call is not marked on the disk.
theorem fresh_unmarked (durable : Durable f rows)
    (committed : Committed f m rows (Function.update rows i (rowAfter (rows i) call)) i (target call))
    (marked : ∀ slot,Owned m (claims m) slot → holder slot = i → member (stored f.disk).bitmap (slotBlock m slot) = true) :
    claims m i ≤ claims f i := by
  by_contra more
  have free := committed.fresh (claims f i) (Nat.le_refl _) (by omega)
  have known := durable.marks _ (marked (.data i (claims f i)) ⟨committed.entry,by omega⟩ rfl)
  change member f.bitmap (dataBlock m i (claims f i)) = true at known
  rw [free] at known
  cases known

-- Both directories have this slot, so it is an old one.
theorem old_marked (durable : Durable f rows)
    (committed : Committed f m rows (Function.update rows i (rowAfter (rows i) call)) i (target call))
    (claim : Owned m (claims m) slot) (known : Owned (stored f.disk) (claims (stored f.disk)) slot) :
    member (stored f.disk).bitmap (slotBlock m slot) = true := by
  have unread := (unread_stored committed.passes).1
  obtain ⟨r,count,_,_,old,new⟩ := committed.drawn
  rw [←(new slot claim).2,(old slot ((unread_owned unread).mpr known)).2,unread_slot unread known]
  exact (durable.disk.layout.inside slot known).2

theorem fits_claims (durable : Durable f rows)
    (committed : Committed f m rows (Function.update rows i (rowAfter (rows i) call)) i (target call))
    (entry : touched f call = some i) : Fits f i call ↔ claims m i ≤ claims f i := by
  have after : claims m i = rowBlocks (rowAfter (rows i) call) := by
    rw [claims_row committed.table committed.entry,Function.update_self]
  have before := claims_row durable.memory committed.entry
  rw [after,before]
  cases call with
  | create name data =>
    have unused : rows i = none := by
      refine (shows_unused durable.memory committed.entry).mp ?_
      change findFreeEntry f = some i at entry
      unfold findFreeEntry at entry
      simpa using List.find?_some entry
    rw [unused]
    change data = [] ↔ blocks data.length ≤ 0
    rw [←List.length_eq_zero_iff]
    simp only [blocks,fsBlockSize]
    omega
  | append name data =>
    change findEntry f name = some i at entry
    rcases findEntry_parts durable.memory name with ⟨missing,_⟩ | ⟨j,_,old,found,row⟩
    · rw [missing] at entry
      cases entry
    · cases Option.some.inj (found.symm.trans entry)
      have shown := (shows_file durable.memory committed.entry row).1
      have length : old.length = get f i .size := by rw [shown.2.2.2.2,content_length]
      rw [row]
      change _ ↔ blocks (old++data).length ≤ blocks old.length
      rw [List.length_append,length,Fits]
      have least : blocks (get f i .size) ≤ blocks (get f i .size+data.length) := Nat.div_le_div_right (by omega)
      omega
  | delete name => exact ⟨fun _ => Nat.zero_le _,fun _ => trivial⟩
  | read name limit => exact ⟨fun _ => Nat.le_refl _,fun _ => trivial⟩

theorem owned_used (tidy : Tidy f) (claim : Owned f (claims f) slot) : get f (holder slot) .used ≠ 0 := by
  intro unused
  cases slot with
  | data j k =>
    have below : k < claims f j := claim.2
    have none : claims f j = 0 := if_pos unused
    omega
  | indirect j => exact claim.2 (tidy_indirect tidy claim.1 unused)

theorem removed_unused (committed : Committed f m rows (Function.update rows i (rowAfter (rows i) call)) i (target call))
    (removed : removes call = true) : get m i .used = 0 := by
  refine (shows_unused committed.table committed.entry).mpr ?_
  rw [Function.update_self]
  cases call with
  | delete name => rfl
  | create | append | read => cases removed

-- The entries already on the disk name marked blocks, exactly when each of them was settled.
theorem settled_marked (durable : Durable f rows)
    (committed : Committed f m rows (Function.update rows i (rowAfter (rows i) call)) i (target call))
    (entry : touched f call = some i) (claim : Owned m (claims m) slot) (settled : Settled f call (holder slot)) :
    member (stored f.disk).bitmap (slotBlock m slot) = true := by
  have used := owned_used committed.tidy claim
  have same : claims m (holder slot) ≤ claims f (holder slot) ∧
      get m (holder slot) .indirect = get f (holder slot) .indirect ∧ Listed f (holder slot) := by
    by_cases here : holder slot = i
    · rw [here] at settled used ⊢
      have most := (fits_claims durable committed entry).mp (settled.1 entry)
      refine ⟨most,committed.still used most,settled.2.resolve_right fun removed => ?_⟩
      exact used (removed_unused committed removed.2)
    · have alike := committed.others _ here
      refine ⟨Nat.le_of_eq (alike_claims alike),alike_get alike (by trivial),settled.2.resolve_right fun removed => ?_⟩
      exact here (Option.some.inj (removed.1.symm.trans entry))
  obtain ⟨most,number,listed⟩ := same
  cases slot with
  | data j k =>
    refine old_marked durable committed claim ⟨claim.1,?_⟩
    rw [claims_stored durable claim.1]
    exact Nat.lt_of_lt_of_le claim.2 most
  | indirect j =>
    change get m j .indirect = get f j .indirect at number
    change member _ (get m j .indirect) = true
    rw [number]
    refine listed_member.mp listed ?_
    rw [←number]
    exact claim.2

theorem marked_settled (durable : Durable f rows)
    (committed : Committed f m rows (Function.update rows i (rowAfter (rows i) call)) i (target call))
    (entry : touched f call = some i) (low : j < fsMaxFiles)
    (marked : ∀ slot,Owned m (claims m) slot → holder slot = j → member (stored f.disk).bitmap (slotBlock m slot) = true) :
    Settled f call j := by
  have listed : get m j .indirect = get f j .indirect → Listed f j := by
    intro number
    refine listed_member.mpr fun some => ?_
    rw [←number] at some ⊢
    exact marked (.indirect j) ⟨low,some⟩ rfl
  by_cases here : j = i
  · subst here
    have most := fresh_unmarked durable committed marked
    refine ⟨fun _ => (fits_claims durable committed entry).mpr most,?_⟩
    by_cases removed : removes call = true
    · exact .inr ⟨entry,removed⟩
    · refine .inl ?_
      by_cases used : get m j .used = 0
      · -- nothing was removed, so the entry was free before
        have empty := (shows_unused committed.table low).mp used
        rw [Function.update_self] at empty
        have unused : rows j = none := by
          cases call with
          | create name data => cases empty
          | append name data => exact Option.map_eq_none_iff.mp empty
          | delete name => exact absurd rfl removed
          | read name limit => exact empty
        intro some
        exact absurd (tidy_indirect durable.tidy low ((shows_unused durable.memory low).mpr unused)) some
      · exact listed (committed.still used most)
  · refine ⟨fun other => absurd (Option.some.inj (other.symm.trans entry)) here,.inl (listed ?_)⟩
    exact alike_get (committed.others j here) (by trivial)

-- The state after n of the seventeen sectors.
theorem commit_accounted (durable : Durable f rows)
    (committed : Committed f m rows (Function.update rows i (rowAfter (rows i) call)) i (target call))
    (entry : touched f call = some i) (most : n ≤ fsDirSectors) :
    (∀ slot,Owned (stored (replay m.disk (commits m n))) (claims (stored (replay m.disk (commits m n)))) slot →
      member (stored (replay m.disk (commits m n))).bitmap (slotBlock (stored (replay m.disk (commits m n))) slot) = true) ↔
    ∀ j < fsMaxFiles,j/4 < n → Settled f call j := by
  have unread := (unread_stored committed.passes).1
  have before : Table (stored m.disk) rows := unread_table unread durable.disk
  have bitmap : (stored (replay m.disk (commits m n))).bitmap = (stored f.disk).bitmap := by
    rw [commit_bitmap (by omega),if_neg (by omega),unread.bitmap]
  have same : ∀ b,block (stored (replay m.disk (commits m n))) b = block m b := fun b => commit_block b (by omega)
  rw [bitmap]
  constructor
  · intro marked j low written
    refine marked_settled durable committed entry low fun slot claim here => ?_
    have alike : Alike (holder slot) m (stored (replay m.disk (commits m n))) := by
      rw [here]
      exact commit_new low written
    obtain ⟨owned,place⟩ := alike_slot alike same
    rw [←place]
    exact marked slot (owned.mpr claim)
  · intro settled slot claim
    have low : holder slot < fsMaxFiles := by cases slot <;> exact claim.1
    by_cases written : holder slot/4 < n
    · obtain ⟨owned,place⟩ := alike_slot (commit_new low written) same
      rw [place]
      exact settled_marked durable committed entry (owned.mp claim) (settled _ low written)
    · obtain ⟨owned,place⟩ := alike_slot (commit_old low written) (fun b => commit_block b (by omega))
      rw [place,←unread.bitmap]
      exact (before.layout.inside slot (owned.mp claim)).2

theorem commit_tidy (durable : Durable f rows)
    (committed : Committed f m rows (Function.update rows i (rowAfter (rows i) call)) i (target call)) :
    Tidy (stored (replay m.disk (commits m n))) := by
  have unread := (unread_stored committed.passes).1
  intro j entry unused x below
  by_cases written : j/4 < n
  · have alike : Alike j m (stored (replay m.disk (commits m n))) := commit_new entry written
    rw [alike x below]
    exact committed.tidy j entry (by rw [←alike_get alike (by trivial)]; exact unused) x below
  · have alike : Alike j (stored m.disk) (stored (replay m.disk (commits m n))) := commit_old entry written
    rw [alike x below,unread.directory]
    refine durable.clean j entry ?_ x below
    rw [←unread_get unread,←alike_get alike (by trivial)]
    exact unused
end Cut

theorem mount_table (magic : (stored d).super.magic = fsMagic) {memory : Fs} (disk : memory.disk = d)
    (table : Table (stored d) rows) : (fsMount memory).1 = true ∧ Table (fsMount memory).2 rows := by
  obtain ⟨ok,bitmap,mounted,ready,super,same,alike⟩ := mount_alike table.layout.ready magic disk
  exact ⟨ok,alike_table table mounted ready (by rw [super]) alike same (fun b marked => by rw [bitmap]; exact marked)⟩

theorem mount_accounted (magic : (stored d).super.magic = fsMagic) {memory : Fs} (disk : memory.disk = d)
    (table : Table (trusting (stored d)) rows) (tidy : Tidy (stored d)) :
    Accounted (fsMount memory).2 ↔
      ∀ slot,Owned (stored d) (claims (stored d)) slot → member (stored d).bitmap (slotBlock (stored d) slot) = true := by
  have ready : Ready (stored d) := ⟨table.layout.ready.present,table.layout.ready.works,table.layout.ready.start,
    table.layout.ready.tracked,table.layout.ready.enough⟩
  obtain ⟨_,bitmap,_,_,_,same,alike⟩ := mount_alike ready magic disk
  have mounted := (mount_reads ready magic disk table).2
  have clean : Tidy (fsMount memory).2 := by
    intro j entry unused x below
    rw [alike j entry x below]
    exact tidy j entry (by rw [←alike_get (alike j entry) (by trivial)]; exact unused) x below
  rw [accounted_iff mounted clean,bitmap]
  constructor
  · intro marked slot claim
    have low : holder slot < fsMaxFiles := by cases slot <;> exact claim.1
    obtain ⟨owned,place⟩ := alike_slot (alike _ low) same
    rw [←place]
    exact marked slot (owned.mpr claim)
  · intro marked slot claim
    have low : holder slot < fsMaxFiles := by cases slot <;> exact claim.1
    obtain ⟨owned,place⟩ := alike_slot (alike _ low) same
    rw [place]
    exact marked slot (owned.mp claim)

-- The sectors that reached the disk, and what they must not have told it.
def Harmless (f : Fs) (call : Call) (done : List (Nat × Sector)) : Prop :=
  fsBitmapSector ∈ done.map Prod.fst ∨ ∀ j < fsMaxFiles,fsDirStart+j/4 ∈ done.map Prod.fst → Settled f call j

theorem crash_safe_iff (durable : Durable f rows) (call : Call) (sized : Sized call)
    (cut : (perform f call).2.disk.log = f.disk.log++(done++missing)) {memory : Fs} (disk : memory.disk = replay f.disk done) :
    (fsMount memory).1 = true ∧ Safe (fsMount memory).2 ↔ Harmless f call done := by
  rcases crash_cases durable call sized cut with ⟨unread,data⟩ | ⟨i,m,n,_,entry,committed,most,same,sectors⟩
  · have magic : (stored (replay f.disk done)).super.magic = fsMagic := by
      rw [unread.super,durable.super]
      exact durable.magic
    obtain ⟨ok,table⟩ := mount_table magic disk (unread_table unread durable.disk)
    refine ⟨fun _ => .inr fun j entry written => ?_,fun _ => ⟨ok,table_safe table⟩⟩
    obtain ⟨write,member,equal⟩ := List.mem_map.mp written
    have far := data write member
    simp only [fsDataStart,fsDirStart,fsMaxFiles] at *
    omega
  · have super := committed_super durable committed
    have magic : (stored (replay m.disk (commits m n))).super.magic = fsMagic := by
      rw [commit_super,super,committed.super]
      exact durable.magic
    rw [same] at disk
    by_cases all : n = fsDirSectors+1
    · subst all
      obtain ⟨ok,table⟩ := mount_table magic disk (commit_table committed.table super)
      exact ⟨fun _ => .inl ((sectors fsDirSectors (Nat.le_refl _)).mpr (Nat.lt_succ_self _)),fun _ => ⟨ok,table_safe table⟩⟩
    · have part : n ≤ fsDirSectors := by omega
      obtain ⟨r,count,valid,total,old,new⟩ := committed.drawn
      have seen := @commit_reads rows m n r count _ i (unread_table (unread_stored committed.passes).1 durable.disk)
        committed.table super valid (by rw [committed.super,total]) old new most committed.only
      have condition : Harmless f call done ↔ ∀ j < fsMaxFiles,j/4 < n → Settled f call j := by
        have absent : fsBitmapSector ∉ done.map Prod.fst := fun written =>
          absurd ((sectors fsDirSectors (Nat.le_refl _)).mp written) (by omega)
        have low : ∀ j < fsMaxFiles,j/4 ≤ fsDirSectors := fun j entry => by
          simp only [fsMaxFiles,fsDirSectors] at *
          omega
        constructor
        · intro harmless j entry written
          exact harmless.resolve_left absent j entry ((sectors (j/4) (low j entry)).mpr written)
        · exact fun settled => .inr fun j entry written => settled j entry ((sectors (j/4) (low j entry)).mp written)
      rw [condition,←commit_accounted durable committed entry part]
      constructor
      · rintro ⟨_,accounted,_⟩
        exact (mount_accounted magic disk seen (commit_tidy durable committed)).mp accounted
      · intro marked
        obtain ⟨ok,table⟩ := mount_table magic disk (table_marked seen marked)
        exact ⟨ok,table_safe table⟩

theorem crash_keeps_accounts (reached : Reached lifetime f) (call : Call) (sized : Sized call)
    (cut : (perform f call).2.disk.log = f.disk.log++(done++missing)) {memory : Fs} (disk : memory.disk = replay f.disk done) :
    (fsMount memory).1 = true ∧ Safe (fsMount memory).2 ↔ Harmless f call done := by
  obtain ⟨rows,durable⟩ := runs_durable reached
  exact crash_safe_iff durable call sized cut disk

theorem crash_keeps_accounts_small : (fsMount (rebooted 1)).1 = true ∧ Safe (fsMount (rebooted 1)).2 := by
  refine (@crash_keeps_accounts _ _ _ small_reached oneByte small_sized (small_log 1) (rebooted 1) rfl).mpr (.inr ?_)
  have written : ((callWrites (fsFormat smallDisk).2 oneByte).take 1).map Prod.fst = [18] := by decide
  rw [written]
  intro j entry listed
  have sector := List.mem_singleton.mp listed
  simp only [fsDirStart,fsMaxFiles] at *
  omega

-- The entry points at block 0 and the bitmap says that block 0 is free.
theorem torn_create_unmarked : Reached lifetime (fsFormat smallDisk).2 ∧ Sized oneByte ∧
    ¬ ((fsMount (rebooted 2)).1 = true ∧ Safe (fsMount (rebooted 2)).2) := by
  refine ⟨small_reached,small_sized,?_⟩
  obtain ⟨rows,durable⟩ := runs_durable small_reached
  rw [@crash_safe_iff _ _ _ _ durable oneByte small_sized (small_log 2) (rebooted 2) rfl]
  have written : ((callWrites (fsFormat smallDisk).2 oneByte).take 2).map Prod.fst = [18,1] := by decide
  have free : findFreeEntry (fsFormat smallDisk).2 = some 0 := by decide
  rw [Harmless,written]
  rintro (bitmap | settled)
  · revert bitmap
    decide
  · have fits := (settled 0 (by decide) (by decide)).1 free
    cases fits

end Arthic.FileCrash
