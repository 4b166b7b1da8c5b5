import Arthic.FileDurable

namespace Arthic.FileRoom
open BitWords ByteMemory Unsigned Transition FileSystem FileLayout FileWrites FileTable FileOperations FileMap FileDisk FileDrafts
open FileDurable
variable {f g m after : Fs} {rows : Nat → Row} {count : Nat → Nat} {i index within : Nat} {bytes data : List Byte}

-- How many blocks the bitmap has left, below the superblock's count.
def clearBits (f : Fs) : Nat := (List.range f.super.totalBlocks).countP fun b => !blockUsed f b

-- The blocks a file takes to grow from one size to another, with the block of numbers when
-- it goes past the direct blocks and has none.
def demand (f : Fs) (i offset total : Nat) : Nat :=
  blocks total-blocks offset+if fsDirectBlocks < blocks total ∧ get f i .indirect = 0 then 1 else 0

theorem countP_take {p q : Nat → Bool} (low : b < n) (held : p b = true) (gone : q b = false) (others : ∀ c,c ≠ b → q c = p c) :
    (List.range n).countP q+1 = (List.range n).countP p := by
  induction n with
  | zero => omega
  | succ n ih =>
    rw [List.range_succ,List.countP_append,List.countP_append,List.countP_singleton,List.countP_singleton]
    by_cases last : b = n
    · subst last
      have same : (List.range b).countP q = (List.range b).countP p :=
        List.countP_congr fun c member => by rw [others c (Nat.ne_of_lt (List.mem_range.mp member))]
      rw [same,held,gone]
      simp
    · rw [others n (Ne.symm last),←ih (by omega)]
      omega

theorem clearBits_set {bitmap : Words 8} (first : Lowest f b) (marked : bitmap = setBit f.bitmap b) (after : Fs)
    (same : after.bitmap = bitmap) (super : after.super = f.super) : clearBits after+1 = clearBits f := by
  unfold clearBits
  rw [super]
  refine countP_take first.inside ?_ ?_ ?_
  · rw [blockUsed,testShift_member (by decide),first.free]
    rfl
  · rw [blockUsed,testShift_member (by decide),same,marked,member_setBit (by decide)]
    simp
  · intro c different
    rw [blockUsed,blockUsed,testShift_member (by decide),testShift_member (by decide),same,marked,member_setBit (by decide)]
    simp [different]

theorem clearBits_full (full : Full f) : clearBits f = 0 := by
  refine List.countP_eq_zero.mpr fun b member => ?_
  rw [blockUsed,testShift_member (by decide),full b (List.mem_range.mp member)]
  decide

-- How far the blocks taken so far have brought the file.
structure Taken (f m : Fs) (i offset written : Nat) : Prop where
  spent : clearBits m+demand f i offset (offset+written) = clearBits f
  number : get m i .indirect = 0 ↔ get f i .indirect = 0 ∧ blocks (offset+written) ≤ fsDirectBlocks

theorem blocks_mono (less : low ≤ high) : blocks low ≤ blocks high := Nat.div_le_div_right (by omega)

theorem taken_start (layout : Layout f count) (entry : i < fsMaxFiles) (claimed : count i = blocks offset) :
    Taken f f i offset 0 := by
  have reach := layout.reach i entry
  rw [claimed] at reach
  refine ⟨?_,?_⟩
  · rw [Nat.add_zero,demand,Nat.sub_self,Nat.zero_add,if_neg fun both => reach both.1 both.2]
    rfl
  · rw [Nat.add_zero]
    exact ⟨fun none => ⟨none,Nat.le_of_not_lt fun far => reach far none⟩,And.left⟩

-- One turn that stored its bytes took what it needed and no more.
theorem taken_turn (taken : Taken f m i offset written) (valid : Layout m count) (entry : i < fsMaxFiles)
    (claimed : count i = blocks (offset+written)) (reached : max (count i) (index+1) = blocks (offset+(written+chunk)))
    (turn : Turn m count i index within bytes true after) : Taken f after i offset (written+chunk) := by
  have super := (turn_parts valid entry turn).1.super
  obtain ⟨spent,number⟩ := taken
  have old : blocks offset ≤ blocks (offset+written) := blocks_mono (Nat.le_add_right _ _)
  rw [claimed] at reached
  unfold demand at spent
  cases turn_takes valid entry turn with
  | none below directory bitmap =>
    rw [claimed] at below
    have same : blocks (offset+(written+chunk)) = blocks (offset+written) := by omega
    have clear : clearBits after = clearBits m := by
      unfold clearBits blockUsed
      rw [super,bitmap]
    have here : get after i .indirect = get m i .indirect := by rw [FileSystem.get,directory,FileSystem.get]
    refine ⟨?_,?_⟩
    · rw [demand,same,clear]
      exact spent
    · rw [same,here]
      exact number
  | one next first bitmap same reach =>
    rw [claimed] at next
    have clear := clearBits_set first bitmap after rfl super
    have grown : blocks (offset+(written+chunk)) = blocks (offset+written)+1 := by omega
    refine ⟨?_,?_⟩
    · rw [demand,grown]
      split <;> split at spent <;> omega
    · rw [grown,same]
      omega
  | two next far none first second bitmap =>
    rw [claimed] at next
    have middle : clearBits (blockMark m (dataBlock after i index) true)+1 = clearBits m := clearBits_set first rfl _ rfl rfl
    have clear := clearBits_set second bitmap after rfl super
    have grown : blocks (offset+(written+chunk)) = blocks (offset+written)+1 := by omega
    have nonzero := lowest_nonzero first second
    obtain ⟨before,edge⟩ := number.mp none
    refine ⟨?_,?_⟩
    · rw [demand,grown,if_pos ⟨by omega,before⟩]
      rw [if_neg (by omega)] at spent
      omega
    · rw [grown]
      omega

-- A turn that stored nothing met a limit.
theorem refused_turn (taken : Taken f m i offset written) (claimed : count i = blocks (offset+written))
    (place : index = (offset+written)/fsBlockSize) (more : written < data.length)
    (turn : Turn m count i index within bytes false after) :
    clearBits f < demand f i offset (offset+data.length) ∨ fsMaxBlocks*fsBlockSize < offset+data.length := by
  obtain ⟨spent,number⟩ := taken
  have old : blocks offset ≤ blocks (offset+written) := blocks_mono (Nat.le_add_right _ _)
  have next : index = count i → blocks (offset+written)+1 ≤ blocks (offset+data.length) := by
    intro next
    rw [claimed,place] at next
    simp only [blocks,fsBlockSize] at *
    omega
  cases turn with
  | ceiling next past =>
    refine .inr ?_
    rw [place] at past
    simp only [fsBlockSize] at *
    omega
  | full last room none =>
    refine .inl ?_
    have grown := next last
    have clear := clearBits_full none
    unfold demand at spent ⊢
    split <;> split at spent <;> omega
  | @stranded b last room far none first full =>
    refine .inl ?_
    have grown := next last
    have clear : clearBits (blockMark m b true)+1 = clearBits m := clearBits_set first rfl _ rfl rfl
    rw [clearBits_full full] at clear
    obtain ⟨before,edge⟩ := number.mp none
    rw [claimed] at last
    unfold demand at spent ⊢
    rw [if_pos ⟨by omega,before⟩]
    rw [if_neg (by omega)] at spent
    omega

-- write_at goes through exactly when the file stays below its ceiling and the bitmap has
-- the blocks for it.
theorem writeAt_room (valid : Layout f count) (entry : i < fsMaxFiles) (claimed : count i = blocks (get f i .size))
    (data : List Byte) : (writeAt f i (get f i .size) data).1 = true ↔
      get f i .size+data.length ≤ fsMaxBlocks*fsBlockSize ∧
        demand f i (get f i .size) (get f i .size+data.length) ≤ clearBits f := by
  have outcome := @writeAt_turns _ _ _ (fun written m => Taken f m i (get f i .size) written)
    (fun _ => clearBits f < demand f i (get f i .size) (get f i .size+data.length) ∨
      fsMaxBlocks*fsBlockSize < get f i .size+data.length) valid entry claimed data (by
        intro middle after written chunk ok progress taken more cut turn
        have claim : Function.update count i (blocks (get f i .size+written)) i = blocks (get f i .size+written) :=
          Function.update_self ..
        refine ⟨fun stored => ?_,fun failed => ?_⟩
        · subst stored
          refine taken_turn taken progress.layout entry claim ?_ turn
          rw [claim,cut,chunkSize]
          simp only [blocks,fsBlockSize] at *
          omega
        · subst failed
          exact refused_turn taken claim rfl more turn)
    (taken_start valid entry claimed)
  rcases outcome with ⟨ok,progress,taken⟩ | ⟨failed,_,limit⟩
  · refine ⟨fun _ => ⟨?_,?_⟩,fun _ => ok⟩
    · have short := progress.layout.short i entry
      rw [Function.update_self] at short
      simp only [blocks,fsBlockSize,fsMaxBlocks,fsDirectBlocks,fsPerIndirect] at *
      omega
    · have spent := taken.spent
      omega
  · rw [failed]
    refine ⟨(fun wrong => by cases wrong),?_⟩
    rintro ⟨ceiling,room⟩
    omega

-- An entry in use with this name.
def Named (f : Fs) (name : CString) (i : Nat) : Prop :=
  i < fsMaxFiles ∧ get f i .used ≠ 0 ∧ Spells (nameOf f i) name.bytes

def CreateRoom (f : Fs) (name : CString) (data : List Byte) : Prop :=
  1 ≤ name.bytes.length ∧ name.bytes.length ≤ 31 ∧ (∀ i,¬ Named f name i) ∧ (∃ i < fsMaxFiles,get f i .used = 0) ∧
    data.length ≤ 136*512 ∧ blocks data.length+(if 8 < blocks data.length then 1 else 0) ≤ clearBits f

def AppendRoom (f : Fs) (name : CString) (data : List Byte) : Prop :=
  ∃ i,Named f name i ∧ get f i .size+data.length ≤ 136*512 ∧
    blocks (get f i .size+data.length)-blocks (get f i .size)+
      (if 8 < blocks (get f i .size+data.length) ∧ get f i .indirect = 0 then 1 else 0) ≤ clearBits f

theorem named_row (table : Table f rows) (name : CString) : Named f name i ↔ i < fsMaxFiles ∧ ∃ content,rows i = some (name,content) := by
  refine and_congr_right fun entry => ?_
  rw [←matches_row table entry name,kstrcmp_spells name.terminated]

theorem findEntry_named (table : Table f rows) (name : CString) : (findEntry f name).isSome ↔ ∃ i,Named f name i := by
  simp only [named_row table]
  rcases findEntry_parts table name with ⟨missing,absent⟩ | ⟨i,entry,content,found,row⟩
  · rw [missing]
    refine ⟨(fun wrong => by cases wrong),?_⟩
    rintro ⟨i,entry,content,row⟩
    exact absurd row (absent i entry content)
  · rw [found]
    exact ⟨fun _ => ⟨i,entry,content,row⟩,fun _ => rfl⟩

theorem denied_named (table : Table f rows) (name : CString) : ¬ Denied f name ↔
    1 ≤ name.bytes.length ∧ name.bytes.length ≤ 31 ∧ (∀ i,¬ Named f name i) ∧ ∃ i < fsMaxFiles,get f i .used = 0 := by
  have free : findFreeEntry f ≠ none ↔ ∃ i < fsMaxFiles,get f i .used = 0 := by
    rw [ne_eq,findFreeEntry,List.find?_eq_none]
    simp
  have some : ¬ name.bytes = [] ↔ 1 ≤ name.bytes.length := List.length_pos_iff.symm
  have short : ¬ fsNameMax ≤ name.bytes.length ↔ name.bytes.length ≤ 31 := by
    simp only [fsNameMax]
    omega
  rw [Denied,findEntry_named table name,not_or,not_or,not_or,←free,not_exists,some,short]

theorem create_room (table : Table f rows) (name : CString) (data : List Byte) :
    (fsCreate f name data).1 = true ↔ CreateRoom f name data := by
  have plain := denied_named table name
  rcases create_form table name data with ⟨form,denied⟩ | ⟨i,entry,unused,allowed,_,_,_,short,form⟩
  · rw [form]
    refine ⟨(fun wrong => by cases wrong),?_⟩
    rintro ⟨some,bound,fresh,slot,_⟩
    exact absurd denied (plain.mpr ⟨some,bound,fresh,slot⟩)
  · obtain ⟨some,bound,fresh,slot⟩ := plain.mp allowed
    have nothing : claims f i = 0 := if_pos ((shows_unused table entry).mpr unused)
    have empty : get (nameEntry f i name name.bytes.length) i .size = 0 := named_head f i name short (by trivial)
    have number : get (nameEntry f i name name.bytes.length) i .indirect = 0 := named_head f i name short (by trivial)
    have layout := @named_layout _ _ _ name _ table nothing short
    have clear : clearBits (nameEntry f i name name.bytes.length) = clearBits f := rfl
    have room := writeAt_room layout entry (by rw [nothing,empty]; rfl) data
    have outcome := writeAt_parts layout entry (by rw [nothing,empty]; rfl) data
    have need : demand (nameEntry f i name name.bytes.length) i 0 data.length =
        blocks data.length+if 8 < blocks data.length then 1 else 0 := by
      rw [demand,number,show blocks 0 = 0 from rfl,Nat.sub_zero]
      simp only [and_true,fsDirectBlocks]
    rw [empty,Nat.zero_add,need,clear] at room
    rw [empty] at outcome
    have written : (fsCreate f name data).1 = (writeAt (nameEntry f i name name.bytes.length) i 0 data).1 := by
      rw [form]
      generalize writeAt (nameEntry f i name name.bytes.length) i 0 data = answer at *
      obtain ⟨written,after⟩ := answer
      rcases outcome with ⟨succeeded,progress⟩ | ⟨failed,_⟩
      · cases succeeded
        rw [if_neg (by simp),save_commits (ready_put (ready_put progress.layout.ready i _ _) i _ _)]
      · cases failed
        rfl
    rw [written,room]
    constructor
    · intro room
      exact ⟨some,bound,fresh,slot,room⟩
    · intro room
      exact room.2.2.2.2

theorem append_room (table : Table f rows) (name : CString) (data : List Byte) :
    (fsAppend f name data).1 = true ↔ AppendRoom f name data := by
  rcases append_form table name data with ⟨form,_,absent⟩ | ⟨i,entry,old,row,_,form⟩
  · rw [form]
    refine ⟨(fun wrong => by cases wrong),?_⟩
    rintro ⟨i,named,_⟩
    obtain ⟨entry,content,row⟩ := (named_row table name).mp named
    exact absurd row (absent i entry content)
  · obtain ⟨_,claimed,_⟩ := shows_file table entry row
    have room := writeAt_room table.layout entry claimed data
    have outcome := writeAt_parts table.layout entry claimed data
    have written : (fsAppend f name data).1 = (writeAt f i (get f i .size) data).1 := by
      rw [form]
      generalize writeAt f i (get f i .size) data = answer at *
      obtain ⟨written,after⟩ := answer
      rcases outcome with ⟨succeeded,progress⟩ | ⟨failed,_⟩
      · cases succeeded
        rw [if_neg (by simp),save_commits (ready_put progress.layout.ready i _ _)]
      · cases failed
        rfl
    rw [written,room]
    constructor
    · rintro ⟨ceiling,enough⟩
      exact ⟨i,(named_row table name).mpr ⟨entry,old,row⟩,ceiling,enough⟩
    · rintro ⟨j,named,ceiling,enough⟩
      obtain ⟨slot,content,other⟩ := (named_row table name).mp named
      cases table.distinct j slot i entry name content old other row
      exact ⟨ceiling,enough⟩

theorem room_decides (reached : Reached lifetime f) (name : CString) (data : List Byte) :
    ((fsCreate f name data).1 = true ↔ CreateRoom f name data) ∧ ((fsAppend f name data).1 = true ↔ AppendRoom f name data) := by
  obtain ⟨rows,durable⟩ := runs_durable reached
  exact ⟨create_room durable.memory name data,append_room durable.memory name data⟩

def newName : CString := ⟨[99#8],by decide⟩

-- Ten of the twenty-two blocks are left, and both files need one of them for numbers.
theorem mixed_entries : clearBits mixedFs = 10 ∧ (get mixedFs 0 .size = 513 ∧ get mixedFs 0 .indirect = 0) ∧
    Named mixedFs smallName 0 ∧ get mixedFs 2 .used = 0 ∧
    ∀ i < fsMaxFiles,get mixedFs i .used ≠ 0 → i = 0 ∧ nameOf mixedFs i 0 = 97#8 ∨ i = 1 ∧ nameOf mixedFs i 0 = 108#8 := by
  unfold Named Spells
  decide +kernel

theorem mixed_named (named : Named mixedFs name i) : i = 0 ∧ nameOf mixedFs i 0 = 97#8 ∨ i = 1 ∧ nameOf mixedFs i 0 = 108#8 :=
  mixed_entries.2.2.2.2 i named.1 named.2.1

theorem room_decides_mixed :
    (fsAppend mixedFs smallName (List.replicate 5119 2#8)).1 = true ∧ (fsAppend mixedFs smallName (List.replicate 5120 2#8)).1 = false ∧
    (fsCreate mixedFs newName (List.replicate 4608 3#8)).1 = true ∧ (fsCreate mixedFs newName (List.replicate 4609 3#8)).1 = false := by
  obtain ⟨clear,size,small,free,_⟩ := mixed_entries
  refine ⟨?_,?_,?_,?_⟩
  · refine (room_decides mixed_reached smallName _).2.mpr ⟨0,small,?_⟩
    rw [size.1,size.2,clear,List.length_replicate]
    decide
  · refine Bool.eq_false_iff.mpr (mt (room_decides mixed_reached smallName _).2.mp ?_)
    rintro ⟨i,named,_,enough⟩
    rcases mixed_named named with ⟨rfl,_⟩ | ⟨rfl,other⟩
    · rw [size.1,size.2,clear,List.length_replicate] at enough
      revert enough
      decide
    · have first := named.2.2.1 0 (by decide)
      rw [other] at first
      exact absurd first (by decide)
  · refine (room_decides mixed_reached newName _).1.mpr ⟨by decide,by decide,?_,⟨2,by decide,free⟩,?_⟩
    · intro i named
      have first := named.2.2.1 0 (by decide)
      rcases mixed_named named with ⟨_,other⟩ | ⟨_,other⟩
      · rw [other] at first
        exact absurd first (by decide)
      · rw [other] at first
        exact absurd first (by decide)
    · rw [clear,List.length_replicate]
      decide
  · refine Bool.eq_false_iff.mpr (mt (room_decides mixed_reached newName _).1.mp ?_)
    rintro ⟨_,_,_,_,_,enough⟩
    rw [clear,List.length_replicate] at enough
    revert enough
    decide

end Arthic.FileRoom
