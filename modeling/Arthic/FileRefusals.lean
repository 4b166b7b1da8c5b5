import Arthic.FileCrash

namespace Arthic.FileRefusals
open BitWords ByteMemory Unsigned Transition FileSystem FileLayout FileWrites FileTable FileOperations FileMap FileDisk FileDrafts
open FileDurable
variable {f g m after : Fs} {rows : Nat → Row} {count : Nat → Nat} {i index within : Nat} {bytes data : List Byte}

-- Blocks a file of this size takes to grow: its data, and a block of numbers if it has none.
def needs (number offset more : Nat) : Nat :=
  blocks (offset+more)-blocks offset+if number = 0 ∧ fsDirectBlocks < blocks (offset+more) then 1 else 0

-- As fs_stats counts them.
def usedBlocks (f : Fs) : Nat := ((List.range f.super.totalBlocks).filter fun b => blockUsed f b).length

theorem used_size (f : Fs) : usedBlocks f = size f.bitmap f.super.totalBlocks := by
  have same : (fun b => blockUsed f b) = fun b => decide (member f.bitmap b = true) := by
    funext b
    rw [blockUsed,testShift_member (by decide)]
    simp
  rw [usedBlocks,same]
  rfl

-- There is room for that many bytes more.
def Room (f : Fs) (number offset more : Nat) : Prop :=
  blocks (offset+more) ≤ fsMaxBlocks ∧ usedBlocks f+needs number offset more ≤ f.super.totalBlocks

-- What write_at has taken so far.
structure Counted (g m : Fs) (i offset written : Nat) : Prop where
  total : m.super.totalBlocks = g.super.totalBlocks
  used : usedBlocks m = usedBlocks g+needs (get g i .indirect) offset written
  number : get m i .indirect = 0 ↔ get g i .indirect = 0 ∧ blocks (offset+written) ≤ fsDirectBlocks
  marks : ∀ b,member g.bitmap b = true → member m.bitmap b = true
  outside : ∀ j,j ≠ i → Alike j g m
  grown : Grown g m i (blocks offset) (blocks (offset+written))

-- The bitmap has changed.
def Leaked (g m : Fs) : Prop := ∃ b,member g.bitmap b = false ∧ member m.bitmap b = true

-- A refusal: nothing was taken, or blocks were and there was no room for all.
inductive Refusal (g m : Fs) (i offset more : Nat) : Prop where
  | clean (directory : m.directory = g.directory) (bitmap : m.bitmap = g.bitmap)
      (cause : Full g ∨ blocks offset = fsMaxBlocks)
  | leak (leaked : Leaked g m) (outside : ∀ j,j ≠ i → Alike j g m) (some : ¬ Full g) (short : blocks offset < fsMaxBlocks)
      (small : ¬ Room g (get g i .indirect) offset more)

theorem mark_used (first : Lowest f b) : usedBlocks (blockMark f b true) = usedBlocks f+1 := by
  rw [used_size,used_size]
  exact size_setBit (by decide) f.bitmap first.inside first.free

theorem full_used (full : Full f) : usedBlocks f = f.super.totalBlocks := by
  rw [used_size]
  exact size_full f.bitmap full

theorem counted_turn (counted : Counted g m i offset written) (entry : i < fsMaxFiles) (now : count i = blocks (offset+written))
    (valid : Layout m count) (turn : Turn m count i index within bytes true after)
    (reached : max (count i) (index+1) = blocks (offset+(written+chunk))) : Counted g after i offset (written+chunk) := by
  obtain ⟨others,_,marks⟩ := turn_keeps valid entry turn
  have super : after.super.totalBlocks = m.super.totalBlocks := by rw [(turn_parts valid entry turn).1.super]
  have least : blocks offset ≤ blocks (offset+written) := Nat.div_le_div_right (by omega)
  have grown := grown_turn (by rw [now]; exact counted.grown) (by rw [now]; exact least) valid entry counted.marks turn
  have used := counted.used
  have number := counted.number
  rw [needs,←now] at used
  rw [←now] at number least
  rw [reached] at grown
  have taken : usedBlocks after = usedBlocks g+needs (get g i .indirect) offset (written+chunk) ∧
      (get after i .indirect = 0 ↔ get g i .indirect = 0 ∧ blocks (offset+(written+chunk)) ≤ fsDirectBlocks) := by
    rw [needs,←reached]
    cases turn_takes valid entry turn with
    | none below directory bitmap =>
      have same : usedBlocks after = usedBlocks m := by rw [used_size,super,bitmap,used_size]
      have kept : get after i .indirect = get m i .indirect := by rw [FileSystem.get,directory,FileSystem.get]
      rw [same,used,kept,Nat.max_eq_left below]
      exact ⟨rfl,number⟩
    | one next first bitmap same reach =>
      have more : usedBlocks after = usedBlocks m+1 := by
        rw [←mark_used first,used_size,used_size,super,bitmap]
        rfl
      rw [more,used,same,number,next,Nat.max_eq_right (Nat.le_succ _)]
      rw [next] at reach
      by_cases zero : get g i .indirect = 0
      · by_cases near : count i < fsDirectBlocks
        · rw [if_neg (by omega),if_neg (by omega)]
          omega
        · have many : fsDirectBlocks < count i := by
            by_contra few
            exact reach (by omega) (number.mpr ⟨zero,by omega⟩)
          rw [if_pos ⟨zero,many⟩,if_pos ⟨zero,by omega⟩]
          omega
      · rw [if_neg (fun both => zero both.1),if_neg (fun both => zero both.1)]
        simp only [zero,false_and,and_true]
        omega
    | two next far none first second bitmap =>
      have more : usedBlocks after = usedBlocks m+2 := by
        rw [show usedBlocks m+2 = usedBlocks m+1+1 from rfl,←mark_used first,←mark_used second,used_size,used_size,super,bitmap]
        rfl
      obtain ⟨zero,few⟩ := number.mp none
      have nonzero := lowest_nonzero first second
      rw [more,used,next,Nat.max_eq_right (Nat.le_succ _),if_neg (by omega),if_pos ⟨zero,by omega⟩]
      exact ⟨by omega,fun other => absurd other nonzero,fun both => by omega⟩
  exact ⟨super.trans counted.total,taken.1,taken.2,fun b marked => marks b (counted.marks b marked),
    fun j different x below => (others j different x below).trans (counted.outside j different x below),grown⟩

theorem needs_more (least : blocks offset ≤ blocks (offset+written)) (beyond : blocks (offset+written) < blocks (offset+more)) :
    needs (get g i .indirect) offset written+1 ≤ needs (get g i .indirect) offset more := by
  rw [needs,needs]
  by_cases number : get g i .indirect = 0 ∧ fsDirectBlocks < blocks (offset+written)
  · rw [if_pos number,if_pos ⟨number.1,by omega⟩]
    omega
  · rw [if_neg number]
    omega

-- A file that has grown holds a block that was free.
theorem grown_leaked (counted : Counted g m i offset written) (valid : Layout m count) (entry : i < fsMaxFiles)
    (now : count i = blocks (offset+written)) (more : blocks offset < blocks (offset+written)) :
    Leaked g m ∧ ¬ Full g ∧ blocks offset < fsMaxBlocks := by
  have free := counted.grown.fresh _ (Nat.le_refl _) more
  have claim : Owned m count (.data i (blocks offset)) := ⟨entry,by rw [now]; exact more⟩
  obtain ⟨inside,marked⟩ := valid.inside _ claim
  refine ⟨⟨_,free,marked⟩,fun full => ?_,?_⟩
  · rw [counted.total] at inside
    have known := full _ inside
    change member g.bitmap (dataBlock m i (blocks offset)) = true at known
    rw [free] at known
    cases known
  · have short := valid.short i entry
    omega

theorem refusal_turn (counted : Counted g m i offset written) (entry : i < fsMaxFiles)
    (now : count i = blocks (offset+written)) (valid : Layout m count) (turn : Turn m count i index within bytes false after)
    (beyond : index < blocks (offset+more)) : Refusal g after i offset more := by
  have least : blocks offset ≤ blocks (offset+written) := Nat.div_le_div_right (by omega)
  have used := counted.used
  cases turn with
  | ceiling next past =>
    have short := valid.short i entry
    by_cases still : blocks (offset+written) = blocks offset
    · obtain ⟨directory,bitmap⟩ := counted.grown.still still
      exact .clean directory bitmap (.inr (by omega))
    · obtain ⟨leaked,some,small⟩ := grown_leaked counted valid entry now (by omega)
      refine .leak leaked counted.outside some small fun room => ?_
      have fits := room.1
      omega
  | full next room none =>
    by_cases still : blocks (offset+written) = blocks offset
    · obtain ⟨directory,bitmap⟩ := counted.grown.still still
      refine .clean directory bitmap (.inl fun b below => ?_)
      rw [←bitmap]
      exact none b (by rw [counted.total]; exact below)
    · obtain ⟨leaked,some,small⟩ := grown_leaked counted valid entry now (by omega)
      refine .leak leaked counted.outside some small fun room => ?_
      have larger := @needs_more g i offset written more least (by omega)
      have fits := room.2
      rw [full_used none,counted.total] at used
      omega
  | @stranded b next room far none first full =>
    obtain ⟨zero,few⟩ := counted.number.mp none
    have free : member g.bitmap b = false := by
      by_contra marked
      have kept := counted.marks b (Bool.eq_true_of_not_eq_false marked)
      rw [first.free] at kept
      cases kept
    refine .leak ⟨b,free,mark_marked m b⟩ counted.outside (fun all => ?_) (by omega) fun room => ?_
    · have known := all b (by rw [←counted.total]; exact first.inside)
      rw [free] at known
      cases known
    · have fits := room.2
      have every : usedBlocks (blockMark m b true) = m.super.totalBlocks := full_used full
      rw [mark_used first,counted.total] at every
      rw [needs,if_neg (by omega)] at used
      rw [needs,if_pos ⟨zero,by omega⟩] at fits
      omega

-- write_at and the room there is.
theorem writeAt_counted (valid : Layout g count) (entry : i < fsMaxFiles) (claimed : count i = blocks (get g i .size))
    (data : List Byte) :
    (writeAt g i (get g i .size) data).1 = true ∧ Room g (get g i .indirect) (get g i .size) data.length ∨
    (writeAt g i (get g i .size) data).1 = false ∧
      Refusal g (writeAt g i (get g i .size) data).2 i (get g i .size) data.length := by
  have few : get g i .indirect = 0 → blocks (get g i .size) ≤ fsDirectBlocks := by
    intro none
    by_contra many
    exact valid.reach i entry (by omega) none
  have start : Counted g g i (get g i .size) 0 := by
    refine ⟨rfl,?_,⟨fun none => ⟨none,few none⟩,And.left⟩,fun _ marked => marked,fun _ _ _ _ => rfl,grown_start g i _⟩
    rw [needs,Nat.add_zero,Nat.sub_self,if_neg (fun both => absurd both.2 (Nat.not_lt.mpr (few both.1)))]
    rfl
  have outcome := @writeAt_turns _ _ _ (fun written m => Counted g m i (get g i .size) written)
    (fun m => Refusal g m i (get g i .size) data.length) valid entry claimed data (by
      intro middle after written chunk ok progress counted more cut turn
      have now : Function.update count i (blocks (get g i .size+written)) i = blocks (get g i .size+written) :=
        Function.update_self ..
      have beyond : (get g i .size+written)/fsBlockSize < blocks (get g i .size+data.length) := by
        simp only [blocks,fsBlockSize]
        omega
      have reached : max (Function.update count i (blocks (get g i .size+written)) i) ((get g i .size+written)/fsBlockSize+1) =
          blocks (get g i .size+(written+chunk)) := by
        rw [now,cut,chunkSize]
        simp only [blocks,fsBlockSize] at *
        omega
      constructor
      · rintro rfl
        exact counted_turn counted entry now progress.layout turn reached
      · rintro rfl
        exact refusal_turn counted entry now progress.layout turn beyond) start
  rcases outcome with ⟨ok,progress,counted⟩ | ⟨failed,_,refusal⟩
  · refine .inl ⟨ok,?_,?_⟩
    · have short := progress.layout.short i entry
      rwa [Function.update_self] at short
    · rw [←counted.used,←counted.total,used_size]
      exact size_le _ _
  · exact .inr ⟨failed,refusal⟩

-- The three things a refused call should leave alone.
def Unchanged (f after : Fs) : Prop :=
  after.bitmap = f.bitmap ∧ fsStats after = fsStats f ∧
  ∀ i < fsMaxFiles,∀ x < entrySize,after.directory (i*entrySize+x) = f.directory (i*entrySize+x)

-- Nothing is taken, or there is room for all that is.
def Spared (f : Fs) : Call → Prop
  | .create name data => Denied f name ∨ Full f ∨ Room f 0 0 data.length
  | .append name data => ∀ i,findEntry f name = some i →
      Full f ∨ blocks (get f i .size) = fsMaxBlocks ∨ Room f (get f i .indirect) (get f i .size) data.length
  | _ => True

theorem leaked_changed (leaked : Leaked f after) : after.bitmap ≠ f.bitmap := by
  obtain ⟨b,free,marked⟩ := leaked
  intro same
  rw [same,free] at marked
  cases marked

theorem unchanged_same (bitmap : after.bitmap = f.bitmap) (mounted : after.mounted = f.mounted) (super : after.super = f.super)
    (alike : ∀ j < fsMaxFiles,Alike j f after) : Unchanged f after := by
  refine ⟨bitmap,?_,alike⟩
  have files : (List.range fsMaxFiles).filter (fun i => get after i .used ≠ 0) =
      (List.range fsMaxFiles).filter (fun i => get f i .used ≠ 0) := by
    apply List.filter_congr
    intro i listed
    rw [alike_get (alike i (List.mem_range.mp listed)) (by trivial)]
  unfold fsStats
  rw [mounted,super,files]
  split
  · rfl
  · simp only [blockUsed,bitmap]

section Refused
variable {name : CString}

theorem create_unchanged (durable : Durable f rows) (name : CString) (data : List Byte) :
    ((fsCreate f name data).1 = false → Unchanged f (fsCreate f name data).2) ↔ Spared f (.create name data) := by
  rcases create_form durable.memory name data with ⟨form,denied⟩ | ⟨i,entry,unused,allowed,_,_,_,short,form⟩
  · rw [form]
    exact ⟨fun _ => .inl denied,fun _ _ => unchanged_same rfl rfl rfl fun _ _ _ _ => rfl⟩
  have zero := (shows_unused durable.memory entry).mpr unused
  have nothing : claims f i = 0 := if_pos zero
  have empty : get (nameEntry f i name name.bytes.length) i .size = 0 := named_head f i name short (by trivial)
  have number : get (nameEntry f i name name.bytes.length) i .indirect = 0 := named_head f i name short (by trivial)
  have layout := @named_layout _ _ _ name _ durable.memory nothing short
  have outcome := writeAt_counted layout entry (by rw [nothing,empty]; rfl) data
  have frame := writeAt_parts layout entry (by rw [nothing,empty]; rfl) data
  rw [empty,number] at outcome
  rw [empty] at frame
  rw [form]
  have others : ∀ j,j ≠ i → Alike j f (nameEntry f i name name.bytes.length) := (named_edited f i name short).outside
  have mounted : (nameEntry f i name name.bytes.length).mounted = f.mounted := rfl
  have super : (nameEntry f i name name.bytes.length).super = f.super := rfl
  have bitmap : (nameEntry f i name name.bytes.length).bitmap = f.bitmap := rfl
  generalize writeAt (nameEntry f i name name.bytes.length) i 0 data = answer at *
  obtain ⟨written,after⟩ := answer
  rcases frame with ⟨succeeded,progress⟩ | ⟨failed,refused⟩
  · cases succeeded
    have ready : Ready (put (put after i .size data.length) i .used 1) := ready_put (ready_put progress.layout.ready _ _ _) _ _ _
    have done : (saveMetadata (put (put after i .size data.length) i .used 1)).1 = true := by rw [save_commits ready]
    rcases outcome with ⟨_,fits⟩ | ⟨failed,_⟩
    · refine ⟨fun _ => .inr (.inr fits),fun _ wrong => ?_⟩
      rw [if_neg (by simp),done] at wrong
      cases wrong
    · cases failed
  · cases failed
    rcases outcome with ⟨succeeded,_⟩ | ⟨_,refusal⟩
    · cases succeeded
    rw [if_pos rfl]
    cases refusal with
    | clean directory marks cause =>
      have none : Full f := cause.resolve_right (by decide)
      refine ⟨fun _ => .inr (.inl none),fun _ _ => ?_⟩
      refine unchanged_same (marks.trans bitmap) (refused.frame.mounted.trans mounted) (refused.frame.super.trans super) ?_
      intro j slot x below
      by_cases here : j = i
      · rw [here,cleared_zero after i below,durable.tidy i entry zero x below]
      · rw [(edited_clear after i).outside j here x below,directory]
        exact others j here x below
    | leak leaked outside some short small =>
      rw [number] at small
      refine ⟨fun kept => absurd (kept rfl).1 (leaked_changed leaked),fun spared => ?_⟩
      rcases spared with denied | none | fits
      · exact absurd denied allowed
      · exact absurd none some
      · exact absurd fits small

theorem append_unchanged (durable : Durable f rows) (name : CString) (data : List Byte) :
    ((fsAppend f name data).1 = false → Unchanged f (fsAppend f name data).2) ↔ Spared f (.append name data) := by
  rcases append_form durable.memory name data with ⟨form,missing,_⟩ | ⟨i,entry,old,row,found,form⟩
  · rw [form]
    refine ⟨fun _ i found => ?_,fun _ _ => unchanged_same rfl rfl rfl fun _ _ _ _ => rfl⟩
    rw [missing] at found
    cases found
  obtain ⟨_,claimed,_⟩ := shows_file durable.memory entry row
  have outcome := writeAt_counted durable.memory.layout entry claimed data
  have frame := writeAt_parts durable.memory.layout entry claimed data
  have condition : Spared f (.append name data) ↔ Full f ∨ blocks (get f i .size) = fsMaxBlocks ∨
      Room f (get f i .indirect) (get f i .size) data.length := by
    constructor
    · exact fun spared => spared i found
    · intro holds j other
      cases Option.some.inj (found.symm.trans other)
      exact holds
  rw [form,condition]
  generalize writeAt f i (get f i .size) data = answer at *
  obtain ⟨written,after⟩ := answer
  rcases frame with ⟨succeeded,progress⟩ | ⟨failed,refused⟩
  · cases succeeded
    have ready : ∀ total,Ready (put after i .size total) := fun total => ready_put progress.layout.ready _ _ _
    rcases outcome with ⟨_,fits⟩ | ⟨failed,_⟩
    · refine ⟨fun _ => .inr (.inr fits),fun _ wrong => ?_⟩
      rw [if_neg (by simp),save_commits (ready _)] at wrong
      cases wrong
    · cases failed
  · cases failed
    rcases outcome with ⟨succeeded,_⟩ | ⟨_,refusal⟩
    · cases succeeded
    rw [if_pos rfl]
    cases refusal with
    | clean directory marks cause =>
      refine ⟨fun _ => cause.imp_right .inl,fun _ _ => ?_⟩
      refine unchanged_same marks refused.frame.mounted refused.frame.super fun j _ x _ => ?_
      rw [directory]
    | leak leaked outside some short small =>
      refine ⟨fun kept => absurd (kept rfl).1 (leaked_changed leaked),fun spared => ?_⟩
      rcases spared with none | ceiling | fits
      · exact absurd none some
      · omega
      · exact absurd fits small
end Refused

theorem refused_calls_unchanged (reached : Reached lifetime f) (name : CString) (data : List Byte) :
    (((fsCreate f name data).1 = false → Unchanged f (fsCreate f name data).2) ↔ Spared f (.create name data)) ∧
    (((fsAppend f name data).1 = false → Unchanged f (fsAppend f name data).2) ↔ Spared f (.append name data)) := by
  obtain ⟨rows,durable⟩ := runs_durable reached
  exact ⟨create_unchanged durable name data,append_unchanged durable name data⟩

-- More than any of the disks here has room for.
def bigFile : List Byte := List.replicate 12000 1#8

-- An append that takes the last block, and the next that needs one.
def fullFs : Fs := performAll mixedFs [.append smallName (List.replicate 5119 2#8)]

theorem full_reached : Reached lifetime fullFs :=
  reached_calls mixed_reached (by simp [Sized,-List.reduceReplicate])

theorem refused_calls_unchanged_mixed :
    ((fsAppend mixedFs smallName bigFile).1 = false ∧ ¬ Unchanged mixedFs (fsAppend mixedFs smallName bigFile).2) ∧
    (fsAppend fullFs longName (List.replicate 512 3#8)).1 = false ∧
      Unchanged fullFs (fsAppend fullFs longName (List.replicate 512 3#8)).2 := by
  have known : findEntry mixedFs smallName = some 0 ∧ mixedFs.super.totalBlocks = 22 ∧ usedBlocks mixedFs = 12 ∧
      member mixedFs.bitmap 12 = false ∧ get mixedFs 0 .size = 513 ∧ get mixedFs 0 .indirect = 0 := by decide +kernel
  obtain ⟨found,total,used,free,size,number⟩ := known
  have length : bigFile.length = 12000 := List.length_replicate
  have refused : (fsAppend fullFs longName (List.replicate 512 3#8)).1 = false := by decide +kernel
  constructor
  · refine Classical.not_imp.mp (mt (refused_calls_unchanged mixed_reached smallName bigFile).2.mp fun spared => ?_)
    rcases spared 0 found with full | ceiling | room
    · have marked := full 12 (by rw [total]; decide)
      rw [free] at marked
      cases marked
    · rw [size] at ceiling
      exact absurd ceiling (by decide)
    · have most := room.2
      rw [total,used,size,number,length] at most
      exact absurd most (by decide)
  · refine ⟨refused,(refused_calls_unchanged full_reached longName _).2.mpr (fun i _ => .inl ?_) refused⟩
    unfold Full
    decide +kernel

-- Twenty-two blocks, and a file of twenty-four: it is refused when all of them are marked.
theorem refused_create_leaks : Reached lifetime (fsFormat smallDisk).2 ∧
    (fsCreate (fsFormat smallDisk).2 smallName bigFile).1 = false ∧
    ¬ Unchanged (fsFormat smallDisk).2 (fsCreate (fsFormat smallDisk).2 smallName bigFile).2 := by
  obtain ⟨rows,durable⟩ := runs_durable FileCrash.small_reached
  have total : (fsFormat smallDisk).2.super.totalBlocks = 22 := by decide
  have length : bigFile.length = 12000 := List.length_replicate
  have crowded : ¬ Spared (fsFormat smallDisk).2 (.create smallName bigFile) := by
    rintro (denied | full | room)
    · revert denied
      unfold Denied
      decide
    · have marked := full 0 (by rw [total]; decide)
      revert marked
      decide
    · have most := room.2
      rw [total,length] at most
      simp only [needs,blocks,fsBlockSize] at most
      omega
  exact ⟨FileCrash.small_reached,Classical.not_imp.mp (mt (create_unchanged durable smallName bigFile).mp crowded)⟩

end Arthic.FileRefusals
