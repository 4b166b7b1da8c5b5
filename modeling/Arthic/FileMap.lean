import Arthic.FileOperations
import Arthic.Library.Transition

namespace Arthic.FileMap
open BitWords ByteMemory Transition FileSystem FileLayout FileWrites FileTable FileOperations
variable {f after : Fs}

-- What a filesystem is for: names with contents.
abbrev Files := CString → Option (List Byte)

inductive Call where
  | create (name : CString) (data : List Byte)
  | append (name : CString) (data : List Byte)
  | read (name : CString) (max : Nat)
  | delete (name : CString)

-- A call returns 0, or 1, or 1 with what it put in the caller's buffer.
inductive Reply where
  | no
  | yes
  | bytes (n : Nat) (buffer : List Byte)
  deriving DecidableEq

def answer (ok : Bool) : Reply := if ok then .yes else .no

def perform (f : Fs) : Call → Reply × Fs
  | .create name data => (answer (fsCreate f name data).1,(fsCreate f name data).2)
  | .append name data => (answer (fsAppend f name data).1,(fsAppend f name data).2)
  | .delete name => (answer (fsDelete f name).1,(fsDelete f name).2)
  | .read name max => ((fsRead f name max).elim .no fun (n,buffer) => .bytes n buffer,f)

-- Sizes are uint32_t.
def Sized : Call → Prop
  | .create _ data => data.length < 2^32
  | .append _ data => data.length < 2^32
  | _ => True

def Formatted (f : Fs) : Prop :=
  ∃ blank,Works blank.disk ∧ fsDataStart < blank.disk.totalSectors ∧ fsFormat blank = (true,f)

def storage : System Fs (Call × Reply) :=
  ⟨Formatted,fun f said after => Sized said.1 ∧ perform f said.1 = (said.2,after)⟩

-- A conversation as it goes when these calls are made one after another.
def transcript (f : Fs) : List Call → List (Call × Reply)
  | [] => []
  | call::rest => (call,(perform f call).1)::transcript (perform f call).2 rest

def performAll (f : Fs) (calls : List Call) : Fs := calls.foldl (fun f call => (perform f call).2) f

theorem runs_transcript (sized : ∀ call ∈ calls,Sized call) (before : Runs storage origin earlier f) :
    Runs storage origin (earlier++transcript f calls) (performAll f calls) := by
  induction calls generalizing f earlier with
  | nil =>
    rw [transcript,List.append_nil]
    exact before
  | cons call rest ih =>
    have one : Runs storage origin (earlier++[(call,(perform f call).1)]) (perform f call).2 :=
      .step before ⟨sized call (List.mem_cons_self ..),rfl⟩
    have all := ih (fun other member => sized other (List.mem_cons_of_mem _ member)) one
    rwa [List.append_assoc,List.singleton_append] at all

-- The same conversation held with a map.
def Meets (files : Files) : Call → Reply → Files → Prop
  | .create name data,.yes,after => files name = none ∧ after = Function.update files name (some data)
  | .append name data,.yes,after => ∃ old,files name = some old ∧ after = Function.update files name (some (old++data))
  | .delete name,.yes,after => files name ≠ none ∧ after = Function.update files name none
  | .read name max,.bytes n buffer,after =>
    (∃ content,files name = some content ∧ n = min content.length max ∧ buffer = content.take n) ∧ after = files
  | .read name _,.no,after => files name = none ∧ after = files
  | .create _ _,.no,after => after = files
  | .append _ _,.no,after => after = files
  | .delete _,.no,after => after = files
  | _,_,_ => False

def fileMap : System Files (Call × Reply) :=
  ⟨fun files => files = fun _ => none,fun files said after => Meets files said.1 said.2 after⟩

-- A map holds what the rows of the table say.
def Denotes (rows : Nat → Row) (files : Files) : Prop :=
  ∀ name content,files name = some content ↔ ∃ i < fsMaxFiles,rows i = some (name,content)

theorem denotes_absent (denotes : Denotes rows files) (absent : ∀ i < fsMaxFiles,∀ content,rows i ≠ some (name,content)) :
    files name = none := by
  cases held : files name with
  | none => rfl
  | some content =>
    obtain ⟨i,entry,row⟩ := (denotes name content).mp held
    exact absurd row (absent i entry content)

-- The row of one name changes: no other row has the name, and the row before it had that
-- name or none.
theorem denotes_update (denotes : Denotes rows files) (entry : i < fsMaxFiles)
    (alone : ∀ j < fsMaxFiles,j ≠ i → ∀ content,rows j ≠ some (name,content))
    (before : ∀ other content,rows i = some (other,content) → other = name) (now : Option (List Byte)) :
    Denotes (Function.update rows i (now.map fun content => (name,content))) (Function.update files name now) := by
  intro other content
  by_cases equal : other = name
  · subst equal
    rw [Function.update_self]
    constructor
    · rintro rfl
      exact ⟨i,entry,Function.update_self ..⟩
    · rintro ⟨j,slot,row⟩
      by_cases here : j = i
      · rw [here,Function.update_self] at row
        simpa using row
      · rw [Function.update_of_ne here] at row
        exact absurd row (alone j slot here content)
  · rw [Function.update_of_ne equal,denotes other content]
    constructor
    · rintro ⟨j,slot,row⟩
      have different : j ≠ i := by
        rintro rfl
        exact equal (before other content row)
      exact ⟨j,slot,by rw [Function.update_of_ne different]; exact row⟩
    · rintro ⟨j,slot,row⟩
      by_cases here : j = i
      · rw [here,Function.update_self] at row
        obtain ⟨_,_,same⟩ := Option.map_eq_some_iff.mp row
        exact absurd (congrArg Prod.fst same).symm equal
      · exact ⟨j,slot,by rwa [Function.update_of_ne here] at row⟩

theorem alone_named (table : Table f rows) (entry : i < fsMaxFiles) (row : rows i = some (name,old)) :
    (∀ j < fsMaxFiles,j ≠ i → ∀ content,rows j ≠ some (name,content)) ∧
    ∀ other content,rows i = some (other,content) → other = name := by
  refine ⟨?_,?_⟩
  · intro j slot different content taken
    exact different (table.distinct j slot i entry name content old taken row)
  · intro other content taken
    rw [row] at taken
    cases Option.some.inj taken
    rfl

def Holds (f : Fs) (files : Files) : Prop := ∃ rows,Table f rows ∧ Denotes rows files

theorem formatted_holds (formatted : Formatted f) : Holds f fun _ => none := by
  obtain ⟨blank,works,room,equal⟩ := formatted
  obtain ⟨_,table⟩ := fsFormat_parts works room
  rw [equal] at table
  refine ⟨_,table,?_⟩
  intro name content
  simp

theorem perform_meets (holds : Holds f files) (call : Call) (sized : Sized call) :
    ∃ now,Meets files call (perform f call).1 now ∧ Holds (perform f call).2 now := by
  obtain ⟨rows,table,denotes⟩ := holds
  cases call with
  | create name data =>
    dsimp only [perform]
    rcases fsCreate_parts table name data sized with ⟨ok,absent,i,entry,unused,final⟩ | ⟨ok,final⟩
    · rw [ok]
      refine ⟨_,⟨denotes_absent denotes absent,rfl⟩,_,final,denotes_update denotes entry ?_ ?_ (some data)⟩
      · exact fun j slot _ => absent j slot
      · intro other content row
        rw [unused] at row
        cases row
    · rw [ok]
      exact ⟨files,rfl,rows,final,denotes⟩
  | append name data =>
    dsimp only [perform]
    rcases fsAppend_parts table name data with ⟨ok,i,entry,old,row,final⟩ | ⟨ok,final⟩
    · rw [ok]
      obtain ⟨alone,before⟩ := alone_named table entry row
      exact ⟨_,⟨old,(denotes name old).mpr ⟨i,entry,row⟩,rfl⟩,_,final,
        denotes_update denotes entry alone before (some (old++data))⟩
    · rw [ok]
      exact ⟨files,rfl,rows,final,denotes⟩
  | delete name =>
    dsimp only [perform]
    rcases fsDelete_parts table name with ⟨ok,i,entry,old,row,final⟩ | ⟨ok,final⟩
    · rw [ok]
      obtain ⟨alone,before⟩ := alone_named table entry row
      refine ⟨_,⟨?_,rfl⟩,_,final,denotes_update denotes entry alone before none⟩
      rw [(denotes name old).mpr ⟨i,entry,row⟩]
      simp
    · rw [ok]
      exact ⟨files,rfl,rows,final,denotes⟩
  | read name max =>
    dsimp only [perform]
    rcases fsRead_parts table name max with ⟨none,absent⟩ | ⟨i,entry,content,row,found⟩
    · rw [none]
      exact ⟨files,⟨denotes_absent denotes absent,rfl⟩,rows,table,denotes⟩
    · rw [found]
      exact ⟨files,⟨⟨content,(denotes name content).mpr ⟨i,entry,row⟩,rfl,rfl⟩,rfl⟩,rows,table,denotes⟩

theorem storage_simulates : Simulation storage fileMap Holds := by
  refine ⟨fun f formatted => ⟨_,rfl,formatted_holds formatted⟩,?_⟩
  rintro f files ⟨call,reply⟩ after holds ⟨sized,performed⟩
  obtain ⟨now,meets,final⟩ := perform_meets holds call sized
  rw [performed] at meets final
  exact ⟨now,meets,final⟩

-- The map is what a reader sees.
theorem holds_read (holds : Holds f files) (name : CString) (max : Nat) :
    fsRead f name max = (files name).map fun content => (min content.length max,content.take (min content.length max)) := by
  obtain ⟨rows,table,denotes⟩ := holds
  rcases fsRead_parts table name max with ⟨none,absent⟩ | ⟨i,entry,content,row,found⟩
  · rw [none,denotes_absent denotes absent]
    rfl
  · rw [found,(denotes name content).mpr ⟨i,entry,row⟩]
    rfl

theorem storage_is_map (formatted : Formatted f) (run : Runs storage f said after) :
    ∃ files,Runs fileMap (fun _ => none) said files ∧
      ∀ name max,fsRead after name max =
        (files name).map fun content => (min content.length max,content.take (min content.length max)) := by
  obtain ⟨files,runs,holds⟩ := storage_simulates.runs run (formatted_holds formatted)
  exact ⟨files,runs,holds_read holds⟩

-- A disk of forty sectors, and a file that is made, extended, read and removed.
def smallDisk : Fs :=
  ⟨⟨true,40,fun _ => true,fun _ => true,fun _ _ => 0#8,[]⟩,⟨0,0,0,0⟩,false,fun _ => 0#8,fun _ => 0#8⟩

def smallName : CString := ⟨[97#8],by decide⟩
def smallCalls : List Call :=
  [.create smallName [],.append smallName [1#8],.read smallName 9,.delete smallName]

theorem small_formatted : Formatted (fsFormat smallDisk).2 := by
  have works : Works smallDisk.disk := ⟨rfl,fun _ _ => ⟨rfl,rfl⟩⟩
  obtain ⟨ok,_⟩ := fsFormat_parts works (by decide)
  exact ⟨smallDisk,works,by decide,by rw [←ok]⟩

theorem storage_is_map_small :
    (∃ files,Runs fileMap (fun _ => none) (transcript (fsFormat smallDisk).2 smallCalls) files) ∧
    (transcript (fsFormat smallDisk).2 smallCalls).map Prod.snd = [.yes,.yes,.bytes 1 [1#8],.yes] := by
  have run := @runs_transcript _ smallCalls _ _ (by simp [smallCalls,Sized]) (.nil (s:=(fsFormat smallDisk).2))
  obtain ⟨files,runs,_⟩ := storage_is_map small_formatted run
  exact ⟨⟨files,runs⟩,by decide +kernel⟩

-- The representation, in the code's own terms: block_at names the data blocks, block_used
-- reads the bitmap.
def fileBlocks (f : Fs) (i : Nat) : List Nat :=
  (List.range (blocks (get f i .size))).map (blockAt f i)++if get f i .indirect = 0 then [] else [get f i .indirect]

structure Entry (f : Fs) (i : Nat) : Prop where
  named : ∃ name : CString,name.bytes ≠ [] ∧ name.bytes.length < fsNameMax ∧ Spells (nameOf f i) name.bytes
  size : get f i .size ≤ 136*512
  inside : ∀ b ∈ fileBlocks f i,b < f.super.totalBlocks ∧ blockUsed f b = true
  apart : (fileBlocks f i).Nodup
  reach : fsDirectBlocks < blocks (get f i .size) → get f i .indirect ≠ 0

structure Consistent (f : Fs) : Prop where
  entries : ∀ i < fsMaxFiles,get f i .used ≠ 0 → Entry f i
  names : ∀ i < fsMaxFiles,∀ j < fsMaxFiles,i ≠ j → get f i .used ≠ 0 → get f j .used ≠ 0 →
    ∀ name : CString,Spells (nameOf f i) name.bytes → ¬ Spells (nameOf f j) name.bytes
  disjoint : ∀ i < fsMaxFiles,∀ j < fsMaxFiles,i ≠ j → get f i .used ≠ 0 → get f j .used ≠ 0 →
    (fileBlocks f i).Disjoint (fileBlocks f j)

def slots (f : Fs) (i : Nat) : List Slot :=
  (List.range (claims f i)).map (Slot.data i)++if get f i .indirect = 0 then [] else [.indirect i]

theorem slots_owned (entry : i < fsMaxFiles) (listed : slot ∈ slots f i) :
    Owned f (claims f) slot ∧ ((∃ k,slot = .data i k) ∨ slot = .indirect i) := by
  rcases List.mem_append.mp listed with data | indirect
  · obtain ⟨k,below,rfl⟩ := List.mem_map.mp data
    exact ⟨⟨entry,List.mem_range.mp below⟩,.inl ⟨k,rfl⟩⟩
  · split at indirect
    · cases indirect
    · rename_i some
      cases List.mem_singleton.mp indirect
      exact ⟨⟨entry,some⟩,.inr rfl⟩

theorem slots_nodup (f : Fs) (i : Nat) : (slots f i).Nodup := by
  have numbers : ((List.range (claims f i)).map (Slot.data i)).Nodup :=
    List.nodup_range.map (fun k l equal => (Slot.data.inj equal).2)
  refine List.nodup_append'.mpr ⟨numbers,by split <;> simp,?_⟩
  intro slot data indirect
  obtain ⟨k,_,rfl⟩ := List.mem_map.mp data
  split at indirect
  · cases indirect
  · cases List.mem_singleton.mp indirect

theorem fileBlocks_slots (layout : Layout f (claims f)) (entry : i < fsMaxFiles) (used : get f i .used ≠ 0) :
    fileBlocks f i = (slots f i).map (slotBlock f) := by
  have claimed : claims f i = blocks (get f i .size) := by rw [claims,if_neg used]
  rw [fileBlocks,slots,List.map_append,List.map_map,claimed]
  congr 1
  · apply List.map_congr_left
    intro k member
    rw [List.mem_range,←claimed] at member
    exact (blockAt_owned layout entry member).1
  · split <;> rfl

theorem table_entry (table : Table f rows) (entry : i < fsMaxFiles) (used : get f i .used ≠ 0) : Entry f i := by
  have shown := table.shows i entry
  have claimed : claims f i = blocks (get f i .size) := by rw [claims,if_neg used]
  have same := fileBlocks_slots table.layout entry used
  cases row : rows i with
  | none =>
    rw [row] at shown
    exact absurd shown used
  | some pair =>
    obtain ⟨name,content⟩ := pair
    rw [row] at shown
    obtain ⟨_,spelled,nonempty,short,_⟩ := shown
    refine ⟨⟨name,nonempty,short,spelled⟩,?_,?_,?_,?_⟩
    · have bound := table.layout.short i entry
      rw [claimed] at bound
      simp only [blocks,fsBlockSize,fsMaxBlocks,fsDirectBlocks,fsPerIndirect] at bound
      omega
    · intro b listed
      rw [same] at listed
      obtain ⟨slot,member,rfl⟩ := List.mem_map.mp listed
      rw [blockUsed,testShift_member (by decide)]
      exact table.layout.inside slot (slots_owned entry member).1
    · rw [same]
      refine (slots_nodup f i).map_on ?_
      intro slot first other second equal
      exact table.layout.apart slot other (slots_owned entry first).1 (slots_owned entry second).1 equal
    · intro many
      exact table.layout.reach i entry (by rw [claimed]; exact many)

theorem table_consistent (table : Table f rows) : Consistent f := by
  refine ⟨fun i entry used => table_entry table entry used,?_,?_⟩
  · intro i entry j slot different usedI usedJ name first second
    obtain ⟨_,rowI⟩ := (matches_row table entry name).mp ⟨usedI,(kstrcmp_spells name.terminated).mpr first⟩
    obtain ⟨_,rowJ⟩ := (matches_row table slot name).mp ⟨usedJ,(kstrcmp_spells name.terminated).mpr second⟩
    exact different (table.distinct i entry j slot name _ _ rowI rowJ)
  · intro i entry j slot different usedI usedJ b first second
    rw [fileBlocks_slots table.layout entry usedI] at first
    rw [fileBlocks_slots table.layout slot usedJ] at second
    obtain ⟨one,memberOne,rfl⟩ := List.mem_map.mp first
    obtain ⟨two,memberTwo,equal⟩ := List.mem_map.mp second
    obtain ⟨ownOne,kindOne⟩ := slots_owned entry memberOne
    obtain ⟨ownTwo,kindTwo⟩ := slots_owned slot memberTwo
    cases table.layout.apart two one ownTwo ownOne equal
    rcases kindOne with ⟨k,rfl⟩ | rfl <;> rcases kindTwo with ⟨l,same⟩ | same <;> cases same <;> exact different rfl

-- Two allocations in a row: the second never gets block 0, whatever the first did.
theorem second_alloc_nonzero (f : Fs) (taken : (blockAlloc f).1 ≠ noBlock) : (blockAlloc (blockAlloc f).2).1 ≠ 0 := by
  have used : member (blockAlloc f).2.bitmap 0 = true := by
    unfold blockAlloc at *
    split
    · rename_i b found
      apply mark_zero
      intro c lower
      have busy := (List.find?_range_eq_some.mp found).2.2 c lower
      rw [blockUsed,testShift_member (by decide)] at busy
      simpa using busy
    · rename_i none
      rw [none] at taken
      exact absurd rfl taken
  generalize (blockAlloc f).2 = middle at used
  unfold blockAlloc
  split
  · rename_i b found
    rintro rfl
    have free := (List.find?_range_eq_some.mp found).1
    rw [blockUsed,testShift_member (by decide),used] at free
    cases free
  · simp [noBlock]

theorem files_stay_consistent (reached : Reached storage f) :
    Consistent f ∧ ∀ state,(blockAlloc state).1 ≠ noBlock → (blockAlloc (blockAlloc state).2).1 ≠ 0 := by
  refine ⟨?_,second_alloc_nonzero⟩
  obtain ⟨origin,said,formatted,run⟩ := reached
  obtain ⟨_,_,rows,table,_⟩ := storage_simulates.runs run (formatted_holds formatted)
  exact table_consistent table

-- Two files, one past the eight blocks that its entry names, and the other on both sides of it.
def longName : CString := ⟨[108#8],by decide⟩
def mixedCalls : List Call :=
  [.create smallName [1#8],.create longName (List.replicate 4097 7#8),.append smallName (List.replicate 512 2#8)]
def mixedFs : Fs := performAll (fsFormat smallDisk).2 mixedCalls

theorem mixed_sized : ∀ call ∈ mixedCalls,Sized call := by simp [mixedCalls,Sized,-List.reduceReplicate]

theorem files_stay_consistent_mixed : Consistent mixedFs ∧ fileBlocks mixedFs 0 = [0,11] ∧
    fileBlocks mixedFs 1 = [1,2,3,4,5,6,7,8,9,10] := by
  refine ⟨(files_stay_consistent ⟨_,_,small_formatted,runs_transcript mixed_sized .nil⟩).1,?_⟩
  decide +kernel

end Arthic.FileMap
