import Arthic.ElfHeaders
import Arthic.ProgramImage

namespace Arthic.LoaderTwins
open AddressSpaces ByteMemory ElfHeaders FileSystem FrameReturns Latest LoadedImage Loader LoaderContents LoaderTraces Loading
  PageTree PageTables Paging Pmm ProgramImage Scheduler SyscallSafety TableGrowth Unsigned
variable {m other : Mmu}

-- Memory that differs in free frames alone, and machines that differ in such memory.
def Twin (frames : State 32) (mem other : Memory) : Prop := ∀ x,Taken frames x → other x = mem x

def Beside (m other : Mmu) : Prop := ∃ mem,other = {m with mem:=mem} ∧ Twin m.frames m.mem mem

theorem entry_twin (space : Space m root) (twin : Twin m.frames m.mem mem) (held : Held pae m.mem root path table)
    (low : k < pae.entries path.length) : entry mem table k = entry m.mem table k := by
  apply entry_congr
  intro x small
  apply twin
  have page := entry_page (x:=table+8*k+x) space held low (by omega) (by omega)
  rw [Taken,page]
  exact space.taken path table held

theorem twin_patch {left right : Memory} (twin : Twin frames left right) (addr count : Nat) (source : Nat → Byte) :
    Twin frames (patch left addr count source) (patch right addr count source) := by
  intro x taken
  by_cases inside : addr ≤ x ∧ x < addr+count
  · rw [patch_inside _ _ inside.1 inside.2,patch_inside _ _ inside.1 inside.2]
  · rw [patch_outside _ _ (by omega),patch_outside _ _ (by omega)]
    exact twin x taken

-- A run that is taken and filled with the same.
theorem twin_claimed {left right newLeft newRight : Memory} (twin : Twin frames left right)
    (inside : ∀ x,start*pageSize ≤ x → x < start*pageSize+count*pageSize → newRight x = newLeft x)
    (outside : ∀ x,x < start*pageSize ∨ start*pageSize+count*pageSize ≤ x → newLeft x = left x ∧ newRight x = right x) :
    Twin (claimRun frames start count) newLeft newRight := by
  intro x taken
  by_cases within : start*pageSize ≤ x ∧ x < start*pageSize+count*pageSize
  · exact inside x within.1 within.2
  · obtain ⟨same,sameToo⟩ := outside x (by omega)
    rw [same,sameToo]
    apply twin
    rcases taken with beyond | marked
    · exact .inl (by rwa [claimRun_total] at beyond)
    · rw [claimRun_test (by decide),if_neg (by simp only [pageSize] at *; omega)] at marked
      exact .inr marked

theorem twin_blank {left right : Memory} (frame : Nat) (twin : Twin frames left right) :
    Twin (claim frames frame) (fill left (frame*pageSize) pageSize 0#8) (fill right (frame*pageSize) pageSize 0#8) := by
  refine @twin_claimed _ frame 1 _ _ _ _ twin ?_ ?_
  · intro x lower upper
    rw [fill,fill,patch_inside _ _ lower (by omega),patch_inside _ _ lower (by omega)]
  · intro x outside
    rw [fill,fill,patch_outside _ _ (by omega),patch_outside _ _ (by omega)]
    exact ⟨rfl,rfl⟩

theorem linkTable_beside (sound : Sound m.frames) (zero : Taken m.frames 0) (beside : Beside m other) (table k : Nat)
    (flags : Entry) : (linkTable other table k flags).1 = (linkTable m table k flags).1 ∧
      Beside (linkTable m table k flags).2 (linkTable other table k flags).2 := by
  obtain ⟨mem,rfl,twin⟩ := beside
  unfold linkTable
  rcases allocFrame_parts sound with full | ⟨frame,below,free,taken⟩
  · dsimp only
    rw [full]
    exact ⟨rfl,mem,rfl,twin⟩
  have real : frame*pageSize ≠ 0 := fun address => by
    have other := frame_free free below 0 zero
    rw [address] at other
    exact other rfl
  dsimp only
  rw [taken]
  dsimp only
  rw [if_neg real,if_neg real]
  exact ⟨rfl,_,rfl,twin_patch (twin_blank frame twin) _ _ _⟩

theorem ensurePd_beside (space : Space m m.active) (zero : Taken m.frames 0) (beside : Beside m other) (low : v < 2^32) :
    (ensurePd other v).1 = (ensurePd m v).1 ∧ Beside (ensurePd m v).2 (ensurePd other v).2 := by
  obtain ⟨top,_,_⟩ := index_bounds low
  have linked := linkTable_beside space.sound zero beside m.active (pdptIndex v) pagePresent
  obtain ⟨mem,rfl,twin⟩ := beside
  have same : entry mem m.active (pdptIndex v) = entry m.mem m.active (pdptIndex v) :=
    entry_twin space twin ((held_nil ..).mpr rfl) top
  unfold ensurePd
  dsimp only
  rw [same]
  split
  · exact ⟨rfl,mem,rfl,twin⟩
  · exact linked

theorem ensurePt_beside (space : Space m root) (zero : Taken m.frames 0) (beside : Beside m other) (low : v < 2^32)
    (here : Held pae m.mem root [pdptIndex v] pd) (flags : Entry) :
    (ensurePt other pd v flags).1 = (ensurePt m pd v flags).1 ∧ Beside (ensurePt m pd v flags).2 (ensurePt other pd v flags).2 := by
  obtain ⟨_,middle,_⟩ := index_bounds low
  have linked := linkTable_beside space.sound zero beside pd (pdIndex v) (pagePresent ||| pageWrite ||| (flags &&& pageUser))
  obtain ⟨mem,rfl,twin⟩ := beside
  have same : entry mem pd (pdIndex v) = entry m.mem pd (pdIndex v) := entry_twin space twin here middle
  unfold ensurePt
  dsimp only
  rw [same]
  split
  · exact linked
  · split
    · exact ⟨rfl,_,rfl,twin_patch twin _ _ _⟩
    · exact ⟨rfl,mem,rfl,twin⟩

theorem pagingMap_beside (space : Space m m.active) (zero : Taken m.frames 0) (beside : Beside m other) (low : v < 2^32)
    (phys : Nat) (flags : Entry) :
    (pagingMap other v phys flags).1 = (pagingMap m v phys flags).1 ∧
      Beside (pagingMap m v phys flags).2 (pagingMap other v phys flags).2 := by
  obtain ⟨top,middle,_⟩ := index_bounds low
  obtain ⟨kept,still,_,directory⟩ := ensurePd_parts space low
  obtain ⟨made,upper⟩ := ensurePd_beside space zero beside low
  unfold pagingMap
  dsimp only
  rw [made]
  split
  · exact ⟨rfl,upper⟩
  rename_i succeeded
  have here := directory (by simpa using succeeded)
  have zeroToo := kept.taken 0 zero
  have active := kept.active
  generalize (ensurePd m v).2 = first at *
  generalize (ensurePd other v).2 = firstOther at *
  obtain ⟨mem,rfl,twin⟩ := upper
  have same : entry mem first.active (pdptIndex v) = entry first.mem first.active (pdptIndex v) := by
    rw [active]
    exact entry_twin still twin ((held_nil ..).mpr rfl) top
  dsimp only
  rw [same]
  rw [←active] at here still
  generalize address (entry first.mem first.active (pdptIndex v)) = pd at *
  obtain ⟨keptToo,stillToo,outcome⟩ := ensurePt_parts still low here flags
  obtain ⟨madeToo,lower⟩ := ensurePt_beside still zeroToo ⟨mem,rfl,twin⟩ low here flags
  rw [madeToo]
  split
  · exact ⟨rfl,lower⟩
  rename_i succeededToo
  obtain ⟨_,tabled⟩ := outcome.resolve_left fun failed => succeededToo failed.1
  have under := tabled.directory
  generalize (ensurePt first pd v flags).2 = second at *
  generalize (ensurePt {first with mem:=mem} pd v flags).2 = secondOther at *
  obtain ⟨mem,rfl,twin⟩ := lower
  have last : entry mem pd (pdIndex v) = entry second.mem pd (pdIndex v) := entry_twin stillToo twin under middle
  dsimp only
  rw [last]
  exact ⟨rfl,_,rfl,twin_patch twin _ _ _⟩

theorem mapRun_beside {indices : List Nat} (space : Space m m.active) (zero : Taken m.frames 0) (beside : Beside m other)
    (aligned : phys % pageSize = 0) (present : has flags pagePresent = true) :
    (mapRun other start phys flags indices).1 = (mapRun m start phys flags indices).1 ∧
      Beside (mapRun m start phys flags indices).2 (mapRun other start phys flags indices).2 := by
  induction indices generalizing m other with
  | nil => exact ⟨rfl,beside⟩
  | cons i rest ih =>
    have physical : wrap 32 (phys+i*pageSize) % pageSize = 0 := by
      simp only [wrap,pageSize] at *
      omega
    have low := wrap_lt 32 (start+i*pageSize)
    obtain ⟨kept,still,_⟩ := @pagingMap_parts _ _ (wrap 32 (phys+i*pageSize)) flags space low physical (wrap_lt 32 _) present
    obtain ⟨made,stepped⟩ := pagingMap_beside space zero beside low (wrap 32 (phys+i*pageSize)) flags
    unfold mapRun
    dsimp only
    rw [made]
    generalize pagingMap m (wrap 32 (start+i*pageSize)) (wrap 32 (phys+i*pageSize)) flags = answer at *
    generalize pagingMap other (wrap 32 (start+i*pageSize)) (wrap 32 (phys+i*pageSize)) flags = answerOther at *
    split
    · rw [←kept.active] at still
      exact ih still (kept.taken 0 zero) stepped
    · exact ⟨rfl,stepped⟩

theorem segment_same {file' : Memory} (bytes : ∀ k < size,file' k = file k) (inside : ph.offset.toNat+ph.filesz.toNat ≤ size)
    (o : Nat) : segmentByte file' ph o = segmentByte file ph o := by
  unfold segmentByte
  split
  · exact bytes _ (by omega)
  · rfl

theorem loadSegment_beside {file' : Memory} (space : Space m m.active) (zero : Taken m.frames 0) (beside : Beside m other)
    (fits : CopyFits ph) (bytes : ∀ k < size,file' k = file k) (done : (loadSegment m prog file size ph).1 = true) :
    (loadSegment other prog file' size ph).1 = true ∧
      (loadSegment other prog file' size ph).2.1 = (loadSegment m prog file size ph).2.1 ∧
      Beside (loadSegment m prog file size ph).2.2 (loadSegment other prog file' size ph).2.2 := by
  obtain ⟨mem,rfl,twin⟩ := beside
  unfold loadSegment at *
  by_cases fine : acceptable prog size ph = false
  · rw [if_pos fine] at done
    cases done
  rw [if_neg fine] at done
  rw [if_neg fine,if_neg fine]
  obtain ⟨_,_,_,_,inFile,_⟩ := acceptable_parts (by simpa using fine)
  rcases allocFrames_cases space.sound zero ph.pages with full | ⟨start,real,room,clear,taken⟩
  · rw [full] at done
    cases done
  dsimp only
  rw [taken] at done ⊢
  simp only [if_neg real] at done ⊢
  have filled : Twin (claimRun m.frames start ph.pages) (copySegment m.mem (start*pageSize) file ph)
      (copySegment mem (start*pageSize) file' ph) := by
    refine twin_claimed twin ?_ ?_
    · intro x lower upper
      obtain ⟨o,rfl⟩ := Nat.exists_eq_add_of_le lower
      rw [copySegment_byte _ _ _ _ (by omega),copySegment_byte _ _ _ _ (by omega)]
      exact segment_same bytes (by omega) o
    · intro x outside
      exact ⟨copySegment_outside fits _ _ _ outside,copySegment_outside fits _ _ _ outside⟩
  have still := free_same space room clear fun x => copySegment_outside fits m.mem (start*pageSize) file
  obtain ⟨made,stepped⟩ := @mapRun_beside
    {m with mem:=copySegment m.mem (start*pageSize) file ph,frames:=claimRun m.frames start ph.pages} _
    (start*pageSize) (flagsForSegment ph.flags) ph.pageStart (List.range ph.pages)
    (space_same space _ (claimRun_sound space.sound room clear) (fun addr => claimRun_taken _ _ _) still)
    (claimRun_taken _ _ _ zero) ⟨_,rfl,filled⟩ (Nat.mul_mod_left _ _) (flags_parts ph.flags).1
  dsimp only at made stepped
  rw [made]
  split at done
  · cases done
  rename_i mapped
  rw [if_neg mapped,if_neg mapped]
  exact ⟨rfl,rfl,stepped⟩

theorem loadHeaders_beside {indices : List Nat} {file' : Memory} {origin : Mmu} (backed : Backed origin m own pieces)
    (beside : Beside m other) (fits : ∀ ph ∈ loadable file phoff phentsize indices,CopyFits ph)
    (bytes : ∀ k < size,file' k = file k)
    (headers : ∀ i ∈ indices,programHeader file' (phoff+i*phentsize) = programHeader file (phoff+i*phentsize))
    (done : (loadHeaders m prog file size phoff phentsize indices).1 = true) :
    (loadHeaders other prog file' size phoff phentsize indices).1 = true ∧
      (loadHeaders other prog file' size phoff phentsize indices).2.1 =
        (loadHeaders m prog file size phoff phentsize indices).2.1 ∧
      Beside (loadHeaders m prog file size phoff phentsize indices).2.2
        (loadHeaders other prog file' size phoff phentsize indices).2.2 := by
  induction indices generalizing m other prog own pieces with
  | nil => exact ⟨rfl,rfl,beside⟩
  | cons i rest ih =>
    rw [loadable_cons] at fits
    have same := headers i (List.mem_cons_self ..)
    have later := fun j member => headers j (List.mem_cons_of_mem i member)
    unfold loadHeaders at done ⊢
    dsimp only at done ⊢
    rw [same]
    by_cases type : (programHeader file (phoff+i*phentsize)).type = ptLoad
    · rw [if_neg (not_not.mpr type)] at done ⊢
      rw [if_neg (not_not.mpr type)]
      rw [if_pos type] at fits
      have small := fits _ (List.mem_append_left _ (List.mem_singleton_self _))
      have segment := @loadSegment_backed _ _ _ _ (programHeader file (phoff+i*phentsize)) prog file size backed small
      split at done
      · rename_i loaded
        obtain ⟨_,next,_⟩ := segment loaded
        obtain ⟨loadedToo,record,following⟩ :=
          loadSegment_beside backed.accounted.space backed.zero beside small bytes loaded
        rw [if_pos loaded,if_pos loadedToo,record]
        exact ih next following (fun ph member => fits ph (List.mem_append_right _ member)) later done
      · cases done
    · rw [if_pos type] at done ⊢
      rw [if_pos type]
      rw [if_neg type,List.nil_append] at fits
      exact ih backed beside fits later done

theorem loadStack_beside (space : Space m m.active) (zero : Taken m.frames 0) (beside : Beside m other)
    (done : (loadStack m prog).1 = true) : (loadStack other prog).1 = true ∧
      (loadStack other prog).2.1 = (loadStack m prog).2.1 ∧ Beside (loadStack m prog).2.2 (loadStack other prog).2.2 := by
  obtain ⟨mem,rfl,twin⟩ := beside
  unfold loadStack at *
  rcases allocFrames_cases space.sound zero (userStackSize/pageSize) with full | ⟨start,real,room,clear,taken⟩
  · rw [full] at done
    cases done
  dsimp only
  rw [taken] at done ⊢
  simp only [if_neg real] at done ⊢
  have filled : Twin (claimRun m.frames start (userStackSize/pageSize)) (fill m.mem (start*pageSize) userStackSize 0#8)
      (fill mem (start*pageSize) userStackSize 0#8) := by
    refine twin_claimed twin ?_ ?_
    · intro x lower upper
      change x < start*pageSize+userStackSize at upper
      rw [fill,fill,patch_inside _ _ lower upper,patch_inside _ _ lower upper]
    · intro x outside
      exact ⟨patch_outside _ _ outside,patch_outside _ _ outside⟩
  have still := @free_same _ _ _ _ space room clear (fill m.mem (start*pageSize) userStackSize 0#8) fun x => patch_outside _ _
  obtain ⟨made,stepped⟩ := @mapRun_beside
    {m with mem:=fill m.mem (start*pageSize) userStackSize 0#8,frames:=claimRun m.frames start (userStackSize/pageSize)} _
    (start*pageSize) stackFlags stackBottom (List.range (userStackSize/pageSize))
    (space_same space _ (claimRun_sound space.sound room clear) (fun addr => claimRun_taken _ _ _) still)
    (claimRun_taken _ _ _ zero) ⟨_,rfl,filled⟩ (Nat.mul_mod_left _ _) (by decide)
  dsimp only at made stepped
  rw [made]
  exact ⟨done,trivial,stepped⟩

theorem loadArgs_beside {now other : Mmu} (sound : Sound now.frames) (zero : Taken now.frames 0)
    (space : Space now now.active) (beside : Beside now other) (prog : Program) (args : Option CString) :
    (loadArgs other prog args).1 = (loadArgs now prog args).1 ∧ Beside (loadArgs now prog args).2 (loadArgs other prog args).2 := by
  obtain ⟨mem,rfl,twin⟩ := beside
  unfold loadArgs
  dsimp only
  rcases allocFrame_parts sound with full | ⟨frame,below,free,taken⟩
  · rw [full]
    exact ⟨rfl,mem,rfl,twin⟩
  have real : frame*pageSize ≠ 0 := fun address => by
    have other := frame_free free below 0 zero
    rw [address] at other
    exact other rfl
  have clear : ∀ other,frame ≤ other → other < frame+1 → frameTest now.frames other = false := by
    intro other lower upper
    rw [show other = frame by omega,free]
  rw [taken]
  simp only [if_neg real]
  have short := text_short args
  generalize ((args.elim [] CString.bytes).take (userArgsMax-1)) = text at *
  have outside := fun (mem : Memory) x => @text_outside x mem frame text short
  have filled : Twin (claim now.frames frame)
      (patch (fill now.mem (frame*pageSize) pageSize 0#8) (frame*pageSize) text.length (fun k => text.getD k 0#8))
      (patch (fill mem (frame*pageSize) pageSize 0#8) (frame*pageSize) text.length (fun k => text.getD k 0#8)) := by
    refine @twin_claimed _ frame 1 _ _ _ _ twin ?_ fun x away => ⟨outside _ x away,outside _ x away⟩
    intro x lower upper
    by_cases within : x < frame*pageSize+text.length
    · rw [patch_inside _ _ lower within,patch_inside _ _ lower within]
    · rw [patch_outside _ _ (by omega),patch_outside _ _ (by omega),fill,fill,patch_inside _ _ lower (by omega),
        patch_inside _ _ lower (by omega)]
  have still := free_same space below clear (outside now.mem)
  obtain ⟨_,stepped⟩ := @pagingMap_beside {now with mem:=_,frames:=claim now.frames frame} _ userArgsAddr
    (space_same space _ (claim_sound sound below free) (fun addr => claim_taken _ _) still) (claim_taken _ _ zero)
    ⟨_,rfl,filled⟩ (by decide) (frame*pageSize) argsFlags
  exact ⟨trivial,stepped⟩

-- The loop that copies the kernel's directory entries.
theorem twin_copied {left right : Memory} (twin : Twin frames left right) (indices : List Nat)
    (taken : ∀ i ∈ indices,∀ x < 8,Taken frames (source+8*i+x)) :
    Twin frames (indices.foldl (fun mem i => setEntry mem pd i (entry mem source i)) left)
      (indices.foldl (fun mem i => setEntry mem pd i (entry mem source i)) right) := by
  induction indices generalizing left right with
  | nil => exact twin
  | cons i rest ih =>
    have same : entry right source i = entry left source i :=
      entry_congr fun x small => twin _ (taken i (List.mem_cons_self ..) x small)
    rw [List.foldl_cons,List.foldl_cons,same]
    exact ih (twin_patch twin _ _ _) fun j member => taken j (List.mem_cons_of_mem i member)

theorem create_beside (kernel : KernelSpace m) (zero : Taken m.frames 0) (beside : Beside m other)
    (made : (pagingCreateAddressSpace m).1 ≠ 0) :
    (pagingCreateAddressSpace other).1 = (pagingCreateAddressSpace m).1 ∧
      Beside (pagingCreateAddressSpace m).2 (pagingCreateAddressSpace other).2 := by
  obtain ⟨mem,rfl,twin⟩ := beside
  have real : ∀ frame,frame < m.frames.totalFrames → frameTest m.frames frame = false → frame*pageSize ≠ 0 := by
    intro frame below free address
    have other := frame_free free below 0 zero
    rw [address] at other
    exact other rfl
  unfold pagingCreateAddressSpace at *
  dsimp only at *
  rcases allocFrame_parts kernel.space.sound with full | ⟨one,below,free,taken⟩
  · rw [full] at made
    exact absurd rfl made
  rw [taken] at made ⊢
  dsimp only at *
  rw [if_neg (real one below free)] at made ⊢
  rw [if_neg (real one below free)]
  have sound := claim_sound kernel.space.sound below free
  rcases allocFrame_parts sound with full | ⟨two,belowToo,freeToo,takenToo⟩
  · rw [full] at made
    exact absurd rfl made
  rw [takenToo] at made ⊢
  dsimp only at *
  have other := freeToo
  rw [claim_test (by decide),Bool.or_eq_false_iff] at other
  rw [if_neg (real two belowToo other.2),if_neg (real two belowToo other.2)]
  refine ⟨rfl,_,rfl,twin_patch (twin_copied (twin_blank two (twin_blank one twin)) _ ?_) _ _ _⟩
  intro i member x small
  have few := kernel.entries
  have low := List.mem_range.mp member
  have page := entry_page (x:=m.image.kernelPd+8*i+x) kernel.space kernel.directory (show i < tableEntries by omega)
    (by omega) (by omega)
  have before := kernel.space.taken _ _ kernel.directory
  rw [Taken,←page] at before
  exact claim_taken _ _ (claim_taken _ _ before)

-- Two files loader_run cannot tell apart: the same as far as they go, and no header lies
-- behind that.
structure Matches (file file' : Memory) (size : Nat) : Prop where
  bytes : ∀ k < size,file' k = file k
  fields : elfPhoff file' = elfPhoff file ∧ elfPhentsize file' = elfPhentsize file ∧ elfPhnum file' = elfPhnum file
  headers : ∀ i < elfPhnum file,programHeader file' (headerStart file i) = programHeader file (headerStart file i)

theorem loadImage_beside (ready : Ready m) (beside : Beside m other) (fits : ∀ ph ∈ fileHeaders file,CopyFits ph)
    (matched : Matches file file' size) (done : (loadImage m file size args).1 = some prog) :
    (loadImage other file' size args).1 = some prog ∧
      Beside (loadImage m file size args).2 (loadImage other file' size args).2 := by
  obtain ⟨bytes,⟨offset,stride,count⟩,same⟩ := matched
  have begun := created_backed ready
  have created := create_beside ready.kernel ready.zero beside
  have image := fun made => (create_parts ready.kernel made).1.image
  unfold loadImage at done ⊢
  rw [offset,stride,count]
  dsimp only at done ⊢
  by_cases none : (pagingCreateAddressSpace m).1 = 0
  · rw [if_pos none] at done
    cases done
  obtain ⟨made,fresh⟩ := created none
  have backed := begun none
  rw [made,if_neg none,if_neg none]
  rw [if_neg none] at done
  have switched : Beside (pagingSwitch (pagingCreateAddressSpace m).2 (pagingCreateAddressSpace m).1)
      (pagingSwitch (pagingCreateAddressSpace other).2 (pagingCreateAddressSpace m).1) := by
    obtain ⟨mem,equal,twin⟩ := fresh
    rw [equal]
    exact ⟨mem,rfl,twin⟩
  have home : pagingKernelDirectory (pagingCreateAddressSpace other).2 = pagingKernelDirectory (pagingCreateAddressSpace m).2 := by
    obtain ⟨mem,equal,_⟩ := fresh
    rw [equal]
    rfl
  rw [home]
  generalize pagingKernelDirectory (pagingCreateAddressSpace m).2 = saved at *
  generalize pagingSwitch (pagingCreateAddressSpace m).2 (pagingCreateAddressSpace m).1 = base at *
  generalize pagingSwitch (pagingCreateAddressSpace other).2 (pagingCreateAddressSpace m).1 = baseOther at *
  generalize (pagingCreateAddressSpace m).1 = dir at *
  have segments := @loadHeaders_backed _ _ _ _ file (elfPhoff file) (elfPhentsize file) {pageDir:=dir} size
    (List.range (elfPhnum file)) backed fits
  have headers := @loadHeaders_beside _ _ _ _ _ (elfPhoff file) (elfPhentsize file) size {pageDir:=dir}
    (List.range (elfPhnum file)) file' _ backed switched fits bytes fun i member => same i (List.mem_range.mp member)
  generalize loadHeaders base _ _ _ _ _ _ = answer at *
  generalize loadHeaders baseOther _ _ _ _ _ _ = answerOther at *
  split at done
  · cases done
  rename_i going
  obtain ⟨loaded,record,mapped⟩ := headers (by simpa using fun failed => going (.inl failed))
  obtain ⟨_,segmented,_⟩ := segments (by simpa using fun failed => going (.inl failed))
  rw [record,loaded,if_neg (by rintro (failed | empty); cases failed; exact going (.inr empty)),if_neg going]
  have stack := @loadStack_backed _ _ _ _ answer.2.1 segmented
  have beside := @loadStack_beside _ _ answer.2.1 segmented.accounted.space segmented.zero mapped
  generalize loadStack answer.2.2 answer.2.1 = ended at *
  generalize loadStack answerOther.2.2 answer.2.1 = endedOther at *
  split at done
  · cases done
  rename_i enough
  obtain ⟨stacked,recordToo,standing⟩ := beside (by simpa using enough)
  obtain ⟨_,withStack,_⟩ := stack (by simpa using enough)
  rw [recordToo,stacked,if_neg (by simp),if_neg enough]
  obtain ⟨last,final⟩ := loadArgs_beside withStack.accounted.space.sound withStack.zero withStack.accounted.space standing
    ended.2.1 args
  rw [last]
  refine ⟨done,?_⟩
  obtain ⟨mem,equal,twin⟩ := final
  rw [equal]
  exact ⟨mem,rfl,twin⟩

-- What loading leaves of the frame allocator where it needs no page table of its own.
def framesAfter (frames : State 32) (headers : List ProgramHeader) : State 32 :=
  let frames := (pmmAllocFrame (pmmAllocFrame frames).2).2
  let frames := headers.foldl (fun frames ph => (pmmAllocFrames frames ph.pages).2) frames
  (pmmAllocFrame (pmmAllocFrames frames (userStackSize/pageSize)).2).2

def Window (v : Nat) : Prop := userLoadAddr ≤ v ∧ v < userStackTop

theorem pagingMap_frames (low : v < 2^32) (two : Held pae m.mem m.active [pdptIndex v,pdIndex v] pt) (phys : Nat)
    (flags : Entry) : (pagingMap m v phys flags).2.frames = m.frames := by
  obtain ⟨top,middle,_⟩ := index_bounds low
  obtain ⟨pd,one,_⟩ := (held_two middle).mp two
  have leads := (held_one top).mp one
  have upper : has (entry m.mem m.active (pdptIndex v)) pagePresent = true := by
    unfold next at leads
    split at leads
    · assumption
    · cases leads
  rw [next_present upper] at leads
  have directory := Option.some.inj leads
  have lower := held_present two middle one
  unfold pagingMap ensurePd
  simp only [if_pos upper,directory,ensurePt,lower]
  by_cases user : has flags pageUser = true
  · simp [user]
  · simp [user]

section Frames
variable {first : State 32} (wide : pdIndex userLoadAddr < m.kernelPdEntries)
include wide

theorem window_table (accounted : Accounted first m m.active own) (inside : Window v) :
    ∃ pt,Held pae m.mem m.active [pdptIndex v,pdIndex v] pt := by
  obtain ⟨low,top,middle⟩ := window_index inside.1 inside.2
  obtain ⟨pt,held⟩ := accounted.complete (pdIndex userLoadAddr) wide
  rw [top,middle]
  exact ⟨pt,held⟩

theorem mapRun_frames (start phys : Nat) (flags : Entry) {indices : List Nat} (accounted : Accounted first m m.active own)
    (zero : Taken m.frames 0) (inside : ∀ i ∈ indices,Window (wrap 32 (start+i*pageSize))) : (mapRun m start phys flags indices).2.frames = m.frames := by
  induction indices generalizing m with
  | nil => rfl
  | cons i rest ih =>
    have low := wrap_lt 32 (start+i*pageSize)
    obtain ⟨pt,held⟩ := window_table wide accounted (inside i (List.mem_cons_self ..))
    have frames := pagingMap_frames low held (wrap 32 (phys+i*pageSize)) flags
    obtain ⟨next,kept⟩ := @pagingMap_rule _ _ (fun now => Accounted first now now.active own ∧ Kept m now) low
      (fun _ _ _ holds edit => ⟨accounted_edit holds.1 edit,kept_trans holds.2 (edit_kept edit)⟩) accounted.space zero
      ⟨accounted,kept_refl m⟩ (wrap 32 (phys+i*pageSize)) flags
    unfold mapRun
    dsimp only
    split
    · rw [←frames]
      exact ih (by rw [kept.entries]; exact wide) next (kept.taken 0 zero)
        fun j member => inside j (List.mem_cons_of_mem i member)
    · exact frames

theorem loadSegment_frames {origin : Mmu} (backed : Backed origin m own pieces)
    (small : ph.vaddr.toNat+ph.memsz.toNat < 2^32) (done : (loadSegment m prog file size ph).1 = true) :
    (loadSegment m prog file size ph).2.2.frames = (pmmAllocFrames m.frames ph.pages).2 := by
  unfold loadSegment at *
  by_cases fine : acceptable prog size ph = false
  · rw [if_pos fine] at done
    cases done
  rw [if_neg fine] at done ⊢
  have contained := (contained_exact (by simpa using fine)).mpr small
  rcases allocFrames_cases backed.accounted.space.sound backed.zero ph.pages with full | ⟨start,real,room,clear,taken⟩
  · rw [full] at done
    cases done
  rw [taken] at done ⊢
  simp only [if_neg real] at done ⊢
  have fits : CopyFits ph := contained.inFrames
  have grown := (backed_take backed room clear fun x => copySegment_outside fits m.mem (start*pageSize) file).1
  have entries : pdIndex userLoadAddr < Mmu.kernelPdEntries
    {m with mem:=copySegment m.mem (start*pageSize) file ph,frames:=claimRun m.frames start ph.pages} := wide
  have inside : ∀ i ∈ List.range ph.pages,Window (wrap 32 (ph.pageStart+i*pageSize)) := by
    intro i member
    obtain ⟨above,below⟩ := contained.mapped i (List.mem_range.mp member)
    exact ⟨above,Nat.lt_of_lt_of_le (Nat.lt_add_of_pos_right (by decide)) below⟩
  have frames := mapRun_frames entries ph.pageStart (start*pageSize) (flagsForSegment ph.flags) grown.accounted grown.zero inside
  split at done
  · cases done
  rename_i mapped
  rw [if_neg mapped]
  exact frames

theorem loadHeaders_frames {indices : List Nat} {origin : Mmu} (backed : Backed origin m own pieces)
    (small : ∀ ph ∈ loadable file phoff phentsize indices,ph.vaddr.toNat+ph.memsz.toNat < 2^32)
    (done : (loadHeaders m prog file size phoff phentsize indices).1 = true) :
    (loadHeaders m prog file size phoff phentsize indices).2.2.frames =
      (loadable file phoff phentsize indices).foldl (fun frames ph => (pmmAllocFrames frames ph.pages).2) m.frames := by
  have accepted := headers_accepted done
  induction indices generalizing m prog own pieces with
  | nil => rfl
  | cons i rest ih =>
    rw [loadable_cons] at small accepted ⊢
    unfold loadHeaders at done ⊢
    dsimp only at done ⊢
    by_cases type : (programHeader file (phoff+i*phentsize)).type = ptLoad
    · rw [if_neg (not_not.mpr type)] at done ⊢
      rw [if_pos type] at small accepted ⊢
      have member := List.mem_append_left (loadable file phoff phentsize rest)
        (List.mem_singleton_self (programHeader file (phoff+i*phentsize)))
      have here := small _ member
      have fits := (header_small (accepted _ member) (Nat.le_of_lt here)).2
      have segment := @loadSegment_backed _ _ _ _ (programHeader file (phoff+i*phentsize)) prog file size backed fits
      split at done
      · rename_i loaded
        obtain ⟨_,next,_,kept⟩ := segment loaded
        rw [if_pos loaded,List.singleton_append,List.foldl_cons,←loadSegment_frames wide backed here loaded]
        exact ih (by rw [kept.entries]; exact wide) next (fun ph member => small ph (List.mem_append_right _ member)) done
          (fun ph member => accepted ph (List.mem_append_right _ member))
      · cases done
    · rw [if_pos type] at done ⊢
      rw [if_neg type,List.nil_append] at small accepted ⊢
      exact ih wide backed small done accepted

theorem loadStack_frames {origin : Mmu} (backed : Backed origin m own pieces) (done : (loadStack m prog).1 = true) :
    (loadStack m prog).2.2.frames = (pmmAllocFrames m.frames (userStackSize/pageSize)).2 := by
  unfold loadStack at *
  rcases allocFrames_cases backed.accounted.space.sound backed.zero (userStackSize/pageSize) with
    full | ⟨start,real,room,clear,taken⟩
  · rw [full] at done
    cases done
  rw [taken] at done ⊢
  simp only [if_neg real] at done ⊢
  have grown := (@backed_take _ _ _ _ _ _ backed room clear (fill m.mem (start*pageSize) userStackSize 0#8)
    fun x outside => patch_outside _ _ outside).1
  have entries : pdIndex userLoadAddr < Mmu.kernelPdEntries
    {m with mem:=fill m.mem (start*pageSize) userStackSize 0#8,frames:=claimRun m.frames start (userStackSize/pageSize)} := wide
  have inside : ∀ i ∈ List.range (userStackSize/pageSize),Window (wrap 32 (stackBottom+i*pageSize)) := by
    unfold Window
    decide
  exact mapRun_frames entries stackBottom (start*pageSize) stackFlags grown.accounted grown.zero inside

theorem loadArgs_frames {origin : Mmu} (backed : Backed origin m own pieces) (prog : Program) (args : Option CString) :
    (loadArgs m prog args).2.frames = (pmmAllocFrame m.frames).2 := by
  unfold loadArgs
  rcases allocFrame_parts backed.accounted.space.sound with full | ⟨frame,below,free,taken⟩
  · rw [full]
    rfl
  have clear : ∀ other,frame ≤ other → other < frame+1 → frameTest m.frames other = false := by
    intro other lower upper
    rw [show other = frame by omega,free]
  have short := text_short args
  have outside := fun x => @text_outside x m.mem frame _ short
  obtain ⟨grown,_⟩ := backed_take backed below clear outside
  obtain ⟨pt,held⟩ := window_table (m:={m with mem:=_,frames:=claimRun m.frames frame 1}) wide grown.accounted
    (show Window userArgsAddr by unfold Window; decide)
  rw [taken]
  dsimp only
  split
  · rfl
  · exact pagingMap_frames (by decide) held _ _
end Frames

theorem create_frames (made : (pagingCreateAddressSpace m).1 ≠ 0) :
    (pagingCreateAddressSpace m).2.frames = (pmmAllocFrame (pmmAllocFrame m.frames).2).2 := by
  unfold pagingCreateAddressSpace at *
  dsimp only at *
  split
  · rename_i none
    rw [if_pos none] at made
    exact absurd rfl made
  · rename_i one
    rw [if_neg one] at made
    split
    · rename_i none
      rw [if_pos none] at made
      exact absurd rfl made
    · rfl

theorem loadImage_frames (ready : Ready m) (wide : pdIndex userLoadAddr < m.kernelPdEntries)
    (small : ∀ ph ∈ fileHeaders file,ph.vaddr.toNat+ph.memsz.toNat < 2^32)
    (done : (loadImage m file size args).1 = some prog) :
    (loadImage m file size args).2.frames = framesAfter m.frames (fileHeaders file) := by
  have accepted := image_accepted done
  have fits := fun ph member => (header_small (accepted ph member) (Nat.le_of_lt (small ph member))).2
  have begun := created_backed ready
  have created := @create_frames m
  have entries := fun made => (create_parts ready.kernel made).1.entries
  unfold loadImage at done ⊢
  dsimp only at done ⊢
  by_cases none : (pagingCreateAddressSpace m).1 = 0
  · rw [if_pos none] at done
    cases done
  rw [if_neg none] at done ⊢
  have backed := begun none
  have wideFirst : pdIndex userLoadAddr < (pagingSwitch (pagingCreateAddressSpace m).2 (pagingCreateAddressSpace m).1).kernelPdEntries := by
    change _ < (pagingCreateAddressSpace m).2.kernelPdEntries
    rw [entries none]
    exact wide
  have given : (pagingSwitch (pagingCreateAddressSpace m).2 (pagingCreateAddressSpace m).1).frames =
    (pmmAllocFrame (pmmAllocFrame m.frames).2).2 := created none
  generalize pagingKernelDirectory (pagingCreateAddressSpace m).2 = saved at *
  generalize pagingSwitch (pagingCreateAddressSpace m).2 (pagingCreateAddressSpace m).1 = base at *
  generalize (pagingCreateAddressSpace m).1 = dir at *
  split at done
  · cases done
  rename_i going
  have loaded : (loadHeaders base {pageDir:=dir} file size (elfPhoff file) (elfPhentsize file)
      (List.range (elfPhnum file))).1 = true := by simpa using fun failed => going (.inl failed)
  have framesOne := loadHeaders_frames wideFirst backed small loaded
  obtain ⟨_,segmented,_,keptOne⟩ := loadHeaders_backed backed fits loaded
  rw [if_neg going]
  generalize loadHeaders base _ _ _ _ _ _ = answer at *
  split at done
  · cases done
  rename_i enough
  have stacked : (loadStack answer.2.2 answer.2.1).1 = true := by simpa using enough
  have wideSecond : pdIndex userLoadAddr < answer.2.2.kernelPdEntries := by rw [keptOne.entries]; exact wideFirst
  have framesTwo := loadStack_frames wideSecond segmented stacked
  obtain ⟨_,withStack,_,keptTwo⟩ := loadStack_backed segmented stacked
  rw [if_neg enough]
  have framesThree := loadArgs_frames (by rw [keptTwo.entries]; exact wideSecond) withStack
    (loadStack answer.2.2 answer.2.1).2.1 args
  change (loadArgs (loadStack answer.2.2 answer.2.1).2.2 (loadStack answer.2.2 answer.2.1).2.1 args).2.frames = _
  rw [framesThree,framesTwo,framesOne,given]
  rfl

end Arthic.LoaderTwins
