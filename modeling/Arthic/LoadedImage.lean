import Arthic.AddressSpaces
import Arthic.Loader

namespace Arthic.LoadedImage
open AddressSpaces ByteMemory Loader PageTree PageTables Paging Pmm Unsigned
variable {m now after : Mmu}

-- A page number and the flags it is to be mapped with. A later request for a page
-- replaces an earlier one.
abbrev Request := Nat × Entry

def granted (requests : List Request) (number : Nat) : Option Entry :=
  (requests.filter fun r => r.1 = number).getLast?.map Prod.snd

theorem granted_snoc (requests : List Request) (r : Request) (number : Nat) :
    granted (requests++[r]) number = if r.1 = number then some r.2 else granted requests number := by
  unfold granted
  rw [List.filter_append]
  by_cases here : r.1 = number
  · rw [if_pos here,List.filter_cons_of_pos (by simpa using here),List.filter_nil,List.getLast?_concat,Option.map_some]
  · rw [if_neg here,List.filter_cons_of_neg (by simpa using here),List.filter_nil,List.append_nil]

theorem granted_mem (found : granted requests number = some flags) : ∃ r ∈ requests,r.1 = number ∧ r.2 = flags := by
  obtain ⟨r,last,rfl⟩ := Option.map_eq_some_iff.mp found
  have member := List.mem_filter.mp (List.mem_of_getLast? last)
  exact ⟨r,member.1,by simpa using member.2,rfl⟩

-- An address space under construction: what was asked for is there as asked, the rest is
-- what it started with.
structure Laid (first : Nat → Option Page) (now : Mmu) (requests : List Request) : Prop where
  space : Space now now.active
  broad : Broad now.mem now.active
  asked : ∀ v < 2^32,∀ flags,granted requests (v/pageSize) = some flags → ∃ page,walk now.mem now.active v = some page ∧
    has page.leaf pageUser = has flags pageUser ∧ has page.leaf pageWrite = has flags pageWrite ∧
    (has flags pageUser = true → has page.directory pageUser = true)
  rest : ∀ v < 2^32,granted requests (v/pageSize) = none →
    (walk now.mem now.active v).map Page.leaf = (first v).map Page.leaf
  execute : ∀ v < 2^32,∀ flags,granted requests (v/pageSize) = some flags → ∀ page,walk now.mem now.active v = some page →
    has page.leaf pageNx = has (dropNx now flags) pageNx

theorem laid_map (laid : Laid first now requests) (low : v < 2^32) (aligned : phys % pageSize = 0) (small : phys < 2^32)
    (present : has flags pagePresent = true) (done : (pagingMap now v phys flags).1 = true) :
    Laid first (pagingMap now v phys flags).2 (requests++[(v/pageSize,flags)]) ∧
      Kept now (pagingMap now v phys flags).2 := by
  obtain ⟨kept,space,broad,outcome⟩ := pagingMap_parts laid.space low aligned small present
  obtain ⟨_,mapped⟩ := outcome.resolve_left fun failed => by rw [done] at failed; cases failed.1
  generalize pagingMap now v phys flags = answer at *
  obtain ⟨made,after⟩ := answer
  dsimp only at *
  have active := kept.active
  refine ⟨⟨by rw [active]; exact space,by rw [active]; exact broad laid.broad,?_,?_,?_⟩,kept⟩
  · intro w inside asked found
    rw [active]
    rw [granted_snoc] at found
    split at found
    · rename_i here
      cases Option.some.inj found
      obtain ⟨directory,translated,_,user⟩ := mapped.here
      refine ⟨_,(walk_page here.symm _ _).trans translated,?_,?_,user⟩
      · rw [frame_has aligned small (by decide),dropNx_has now flags (by decide)]
      · rw [frame_has aligned small (by decide),dropNx_has now flags (by decide)]
    · rename_i elsewhere
      obtain ⟨page,translated,user,write,wide⟩ := laid.asked w inside asked found
      obtain ⟨leaf,directory⟩ := widened_parts v w flags page
      refine ⟨_,by rw [mapped.others w inside (Ne.symm elsewhere),translated,Option.map_some],?_,?_,?_⟩
      · rw [leaf,user]
      · rw [leaf,write]
      · exact fun on => directory (wide on)
  · intro w inside found
    rw [active]
    rw [granted_snoc] at found
    split at found
    · cases found
    · rename_i elsewhere
      rw [mapped.others w inside (Ne.symm elsewhere),Option.map_map,←laid.rest w inside found]
      congr 1
      funext page
      exact (widened_parts v w flags page).1
  · intro w inside asked found page there
    rw [active] at there
    rw [granted_snoc] at found
    rw [dropNx,kept.nx]
    split at found
    · rename_i here
      cases Option.some.inj found
      obtain ⟨directory,translated,_⟩ := mapped.here
      cases Option.some.inj (((walk_page here.symm _ _).trans translated).symm.trans there)
      exact frame_has aligned small (by decide) _
    · rename_i elsewhere
      rw [mapped.others w inside (Ne.symm elsewhere)] at there
      obtain ⟨old,before,rfl⟩ := Option.map_eq_some_iff.mp there
      rw [(widened_parts v w flags old).1]
      exact laid.execute w inside asked found old before

theorem mapRun_laid {indices : List Nat} (laid : Laid first now requests) (aligned : phys % pageSize = 0)
    (present : has flags pagePresent = true) (done : (mapRun now start phys flags indices).1 = true) :
    Laid first (mapRun now start phys flags indices).2
        (requests++indices.map fun i => (wrap 32 (start+i*pageSize)/pageSize,flags)) ∧
      Kept now (mapRun now start phys flags indices).2 := by
  induction indices generalizing now requests with
  | nil =>
    rw [List.map_nil,List.append_nil]
    exact ⟨laid,kept_refl now⟩
  | cons i rest ih =>
    have physical : wrap 32 (phys+i*pageSize) % pageSize = 0 := by
      simp only [wrap,pageSize] at *
      omega
    have step := laid_map (v:=wrap 32 (start+i*pageSize)) laid (wrap_lt 32 _) physical (wrap_lt 32 _) present
    unfold mapRun at done ⊢
    generalize pagingMap now (wrap 32 (start+i*pageSize)) (wrap 32 (phys+i*pageSize)) flags = answer at *
    obtain ⟨mapped,middle⟩ := answer
    cases mapped with
    | false => cases done
    | true =>
      obtain ⟨next,kept⟩ := step rfl
      obtain ⟨last,more⟩ := ih next done
      rw [List.map_cons,List.append_cons]
      exact ⟨last,kept_trans kept more⟩

-- Frames that were free lie apart from every table.
theorem free_bytes (space : Space m root) (fits : start+count ≤ m.frames.totalFrames)
    (clear : ∀ frame,start ≤ frame → frame < start+count → frameTest m.frames frame = false)
    (held : Held pae m.mem root path table) (inside : x < span pae path) :
    table+x < start*pageSize ∨ (start+count)*pageSize ≤ table+x := by
  by_contra within
  have frame : start ≤ (table+x)/pageSize ∧ (table+x)/pageSize < start+count := by
    simp only [pageSize] at *
    omega
  have apart := @free_apart _ _ _ _ ((table+x)/pageSize*pageSize) space held
    (frame_free (clear _ frame.1 frame.2) (by omega)) (Nat.mul_mod_left _ _)
  simp only [Apart,pageSize] at apart
  omega

-- Writing into new frames leaves the address space as it is.
theorem laid_written {mem : Memory} {frames : State 32} (laid : Laid first now requests) (sound : Sound frames)
    (more : ∀ addr,Taken now.frames addr → Taken frames addr)
    (same : ∀ path table,Held pae now.mem now.active path table → ∀ x < span pae path,mem (table+x) = now.mem (table+x)) :
    Laid first {now with mem:=mem,frames:=frames} requests := by
  refine ⟨space_same laid.space frames sound more same,directories_same (fun e => has e pageWrite = true) laid.broad same,?_,?_,?_⟩
  · intro v low flags found
    dsimp only
    rw [walk_congr same low]
    exact laid.asked v low flags found
  · intro v low found
    dsimp only
    rw [walk_congr same low]
    exact laid.rest v low found
  · intro v low flags found page
    dsimp only
    rw [walk_congr same low]
    exact laid.execute v low flags found page

-- What the loader asks of the frame allocator, and what it may then write.
theorem written_same (laid : Laid first now requests) (fits : start+count ≤ now.frames.totalFrames)
    (clear : ∀ frame,start ≤ frame → frame < start+count → frameTest now.frames frame = false) {mem : Memory}
    (outside : ∀ x,x < start*pageSize ∨ start*pageSize+count*pageSize ≤ x → mem x = now.mem x) :
    ∀ path table,Held pae now.mem now.active path table → ∀ x < span pae path,mem (table+x) = now.mem (table+x) := by
  intro path table held x inside
  apply outside
  rw [←Nat.add_mul]
  exact free_bytes laid.space fits clear held inside

theorem laid_claimed (laid : Laid first now requests) (fits : start+count ≤ now.frames.totalFrames)
    (clear : ∀ frame,start ≤ frame → frame < start+count → frameTest now.frames frame = false) (mem : Memory)
    (outside : ∀ x,x < start*pageSize ∨ start*pageSize+count*pageSize ≤ x → mem x = now.mem x) :
    Laid first {now with mem:=mem,frames:=claimRun now.frames start count} requests ∧
      Kept now {now with mem:=mem,frames:=claimRun now.frames start count} := by
  have more := fun addr => @claimRun_taken addr now.frames start count
  exact ⟨laid_written laid (claimRun_sound laid.space.sound fits clear) more (written_same laid fits clear outside),
    rfl,rfl,rfl,rfl,rfl,more⟩

theorem laid_alloc (laid : Laid first now requests) (count : Nat) (mem : Memory)
    (real : (pmmAllocFrames now.frames count).1 ≠ 0)
    (outside : ∀ x,x < (pmmAllocFrames now.frames count).1 ∨ (pmmAllocFrames now.frames count).1+count*pageSize ≤ x →
      mem x = now.mem x) :
    Laid first {now with mem:=mem,frames:=(pmmAllocFrames now.frames count).2} requests ∧
      Kept now {now with mem:=mem,frames:=(pmmAllocFrames now.frames count).2} ∧
      (pmmAllocFrames now.frames count).1 % pageSize = 0 := by
  rcases allocFrames_parts laid.space.sound count with full | ⟨start,_,fits,clear,taken⟩
  · rw [full] at real
    exact absurd rfl real
  · rw [taken] at outside ⊢
    obtain ⟨written,kept⟩ := laid_claimed laid fits clear mem outside
    exact ⟨written,kept,Nat.mul_mod_left _ _⟩

-- What a program header asks for, and when its bytes stay in the frames it gets.
def segmentRequests (ph : ProgramHeader) : List Request :=
  (List.range ph.pages).map fun i => (wrap 32 (ph.pageStart+i*pageSize)/pageSize,flagsForSegment ph.flags)

def CopyFits (ph : ProgramHeader) : Prop := ph.within+ph.filesz.toNat ≤ ph.pages*pageSize

theorem flags_parts (elfFlags : BitVec 32) :
    has (flagsForSegment elfFlags) pagePresent = true ∧ has (flagsForSegment elfFlags) pageUser = true := by
  unfold flagsForSegment
  dsimp only
  split
  · split
    · decide
    · decide
  · split
    · decide
    · decide

theorem copySegment_outside (fits : CopyFits ph) (mem : Memory) (phys : Nat) (file : Memory)
    (outside : x < phys ∨ phys+ph.pages*pageSize ≤ x) : copySegment mem phys file ph x = mem x := by
  unfold CopyFits at fits
  refine (@patch_outside _ (phys+ph.within) ph.filesz.toNat _ _ (by omega)).trans ?_
  exact @patch_outside _ phys (ph.pages*pageSize) _ _ outside

theorem loadSegment_laid (laid : Laid first now requests) (fits : CopyFits ph)
    (done : (loadSegment now prog file size ph).1 = true) :
    Laid first (loadSegment now prog file size ph).2.2 (requests++segmentRequests ph) ∧
      Kept now (loadSegment now prog file size ph).2.2 ∧
      (loadSegment now prog file size ph).2.1.pageDir = prog.pageDir ∧
      (loadSegment now prog file size ph).2.1.argsPhys = prog.argsPhys := by
  unfold loadSegment at *
  by_cases fine : acceptable prog size ph = false
  · rw [if_pos fine] at done
    cases done
  rw [if_neg fine] at *
  have room := laid_alloc laid ph.pages (copySegment now.mem (pmmAllocFrames now.frames ph.pages).1 file ph)
  generalize pmmAllocFrames now.frames ph.pages = answer at *
  obtain ⟨phys,frames⟩ := answer
  dsimp only at *
  by_cases zero : phys = 0
  · rw [if_pos zero] at done
    cases done
  rw [if_neg zero] at *
  obtain ⟨written,kept,aligned⟩ := room zero fun x => copySegment_outside fits _ _ _
  have run := @mapRun_laid _ _ _ _ _ ph.pageStart (List.range ph.pages) written aligned (flags_parts ph.flags).1
  generalize mapRun _ _ _ _ _ = answer at *
  obtain ⟨mapped,last⟩ := answer
  cases mapped with
  | false => cases done
  | true =>
    obtain ⟨complete,more⟩ := run rfl
    exact ⟨complete,kept_trans kept more,rfl,rfl⟩

def headerRequests (file : Memory) (phoff phentsize : Nat) (indices : List Nat) : List Request :=
  indices.flatMap fun i =>
    let ph := programHeader file (phoff+i*phentsize)
    if ph.type = ptLoad then segmentRequests ph else []

theorem loadHeaders_laid {indices : List Nat} (laid : Laid first now requests)
    (fits : ∀ i ∈ indices,(programHeader file (phoff+i*phentsize)).type = ptLoad → CopyFits (programHeader file (phoff+i*phentsize)))
    (done : (loadHeaders now prog file size phoff phentsize indices).1 = true) :
    Laid first (loadHeaders now prog file size phoff phentsize indices).2.2
        (requests++headerRequests file phoff phentsize indices) ∧
      Kept now (loadHeaders now prog file size phoff phentsize indices).2.2 ∧
      (loadHeaders now prog file size phoff phentsize indices).2.1.pageDir = prog.pageDir ∧
      (loadHeaders now prog file size phoff phentsize indices).2.1.argsPhys = prog.argsPhys := by
  induction indices generalizing now prog requests with
  | nil =>
    rw [headerRequests,List.flatMap_nil,List.append_nil]
    exact ⟨laid,kept_refl now,rfl,rfl⟩
  | cons i rest ih =>
    have here := fits i (by simp)
    have later := fun j member => fits j (List.mem_cons_of_mem i member)
    unfold loadHeaders at done ⊢
    rw [headerRequests,List.flatMap_cons]
    by_cases other : (programHeader file (phoff+i*phentsize)).type = ptLoad
    · have segment := @loadSegment_laid _ _ _ _ prog file size laid (here other)
      simp only [if_neg (not_not.mpr other),if_pos other] at done ⊢
      generalize loadSegment now prog file size (programHeader file (phoff+i*phentsize)) = answer at *
      obtain ⟨loaded,next,middle⟩ := answer
      cases loaded with
      | false => cases done
      | true =>
        obtain ⟨complete,kept,dir,args⟩ := segment rfl
        obtain ⟨last,more,dirs,argss⟩ := ih complete later done
        rw [←List.append_assoc]
        exact ⟨last,kept_trans kept more,dirs.trans dir,argss.trans args⟩
    · simp only [if_pos other,if_neg other] at done ⊢
      exact ih laid later done

def stackRequests : List Request :=
  (List.range (userStackSize/pageSize)).map fun i => (wrap 32 (stackBottom+i*pageSize)/pageSize,stackFlags)

theorem loadStack_laid (laid : Laid first now requests) (done : (loadStack now prog).1 = true) :
    Laid first (loadStack now prog).2.2 (requests++stackRequests) ∧ Kept now (loadStack now prog).2.2 ∧
      (loadStack now prog).2.1.pageDir = prog.pageDir ∧ (loadStack now prog).2.1.argsPhys = prog.argsPhys := by
  have room := laid_alloc laid (userStackSize/pageSize)
    (fill now.mem (pmmAllocFrames now.frames (userStackSize/pageSize)).1 userStackSize 0#8)
  unfold loadStack at *
  generalize pmmAllocFrames now.frames (userStackSize/pageSize) = answer at *
  obtain ⟨phys,frames⟩ := answer
  dsimp only at *
  by_cases zero : phys = 0
  · rw [if_pos zero] at done
    cases done
  rw [if_neg zero] at *
  obtain ⟨written,kept,aligned⟩ := room zero fun x outside => patch_outside _ _ outside
  have run := @mapRun_laid _ _ _ _ stackFlags stackBottom (List.range (userStackSize/pageSize))
    written aligned (by decide)
  generalize mapRun _ _ _ _ _ = answer at *
  obtain ⟨mapped,last⟩ := answer
  dsimp only at *
  obtain ⟨complete,more⟩ := run done
  exact ⟨complete,kept_trans kept more,rfl,rfl⟩

-- Where a page table is already, paging_map needs no frame and cannot fail.
theorem pagingMap_there (low : v < 2^32) (two : Held pae m.mem m.active [pdptIndex v,pdIndex v] pt) (phys : Nat)
    (flags : Entry) : (pagingMap m v phys flags).1 = true := by
  obtain ⟨top,middle,_⟩ := index_bounds low
  obtain ⟨pd,one,_⟩ := (held_two middle).mp two
  have leads := (held_one top).mp one
  have upper : has (entry m.mem m.active (pdptIndex v)) pagePresent = true := by
    unfold next at leads
    split at leads
    · assumption
    · cases leads
  rw [next_present upper] at leads
  have directory := Option.some.inj leads
  have lower := held_present two middle one
  unfold pagingMap ensurePd
  simp only [if_pos upper,directory,ensurePt,lower]
  by_cases user : has flags pageUser = true
  · simp [user]
  · simp [user]

def argsRequests (prog : Program) : List Request :=
  if prog.argsPhys = 0 then [] else [(userArgsAddr/pageSize,argsFlags)]

theorem loadArgs_laid (laid : Laid first now requests) (none : prog.argsPhys = 0)
    (two : Held pae now.mem now.active [pdptIndex userArgsAddr,pdIndex userArgsAddr] pt) (args : Option FileSystem.CString) :
    Laid first (loadArgs now prog args).2 (requests++argsRequests (loadArgs now prog args).1) ∧
      Kept now (loadArgs now prog args).2 ∧ (loadArgs now prog args).1.pageDir = prog.pageDir := by
  have nothing : requests++argsRequests prog = requests := by rw [argsRequests,if_pos none,List.append_nil]
  unfold loadArgs
  rcases allocFrame_parts laid.space.sound with full | ⟨frame,below,free,taken⟩
  · rw [full]
    dsimp only
    rw [if_pos rfl,nothing]
    exact ⟨laid,kept_refl now,rfl⟩
  rw [taken]
  dsimp only
  have clear : ∀ other,frame ≤ other → other < frame+1 → frameTest now.frames other = false := by
    intro other lower upper
    rw [show other = frame by omega,free]
  generalize list : ((args.elim [] FileSystem.CString.bytes).take (userArgsMax-1)) = text
  have short : text.length ≤ userArgsMax-1 := by
    rw [←list,List.length_take]
    omega
  have same : ∀ x,x < frame*pageSize ∨ frame*pageSize+1*pageSize ≤ x →
      patch (fill now.mem (frame*pageSize) pageSize 0#8) (frame*pageSize) text.length (fun k => text.getD k 0#8) x = now.mem x := by
    intro x outside
    rw [patch_outside _ _ (by simp only [userArgsMax,pageSize] at *; omega)]
    exact @patch_outside _ (frame*pageSize) pageSize _ _ (by simp only [pageSize] at *; omega)
  obtain ⟨written,kept⟩ := laid_claimed laid below clear _ same
  change Laid first {now with mem:=_,frames:=claim now.frames frame} requests at written
  change Kept now {now with mem:=_,frames:=claim now.frames frame} at kept
  by_cases zero : frame*pageSize = 0
  · rw [if_pos zero,nothing]
    have untouched := laid_claimed laid below clear now.mem fun _ _ => rfl
    exact ⟨untouched.1,untouched.2,rfl⟩
  rw [if_neg zero]
  have still := (held_congr (written_same laid below clear same) _ _).mpr two
  have step := @laid_map _ _ _ userArgsAddr (frame*pageSize) argsFlags written (by decide)
    (Nat.mul_mod_left _ _) (laid.space.sound.address_small below) (by decide)
    (pagingMap_there (by decide) still _ _)
  refine ⟨?_,kept_trans kept step.2,rfl⟩
  rw [argsRequests,if_neg zero]
  exact step.1

-- Everything loader_run maps, in order.
def imageRequests (file : Memory) (prog : Program) : List Request :=
  headerRequests file (elfPhoff file) (elfPhentsize file) (List.range (elfPhnum file))++stackRequests++argsRequests prog

def CopiesFit (file : Memory) : Prop :=
  ∀ i < elfPhnum file,(programHeader file (elfPhoff file+i*elfPhentsize file)).type = ptLoad →
    CopyFits (programHeader file (elfPhoff file+i*elfPhentsize file))

theorem created_laid (kernel : KernelSpace m) (made : (pagingCreateAddressSpace m).1 ≠ 0) :
    Laid (inherited m) (pagingSwitch (pagingCreateAddressSpace m).2 (pagingCreateAddressSpace m).1) [] := by
  obtain ⟨_,_,space,broad,translates⟩ := create_parts kernel made
  unfold pagingSwitch
  rw [if_neg made]
  refine ⟨⟨space.sound,space.tree,space.home,space.real,space.taken⟩,broad,nofun,?_,nofun⟩
  intro v low _
  rw [translates v low]

theorem create_nx (m : Mmu) : (pagingCreateAddressSpace m).2.nxSupported = m.nxSupported := by
  unfold pagingCreateAddressSpace
  dsimp only
  split
  · rfl
  split
  · rfl
  · rfl

theorem granted_stack (requests : List Request) (prog : Program) :
    granted (requests++stackRequests++argsRequests prog) (stackBottom/pageSize) = some stackFlags := by
  have bottom : granted (requests++stackRequests) (stackBottom/pageSize) = some stackFlags := by
    rw [show stackRequests = [(stackBottom/pageSize,stackFlags)]++[(stackBottom/pageSize+1,stackFlags)] by decide,
      ←List.append_assoc,granted_snoc,granted_snoc,if_neg (by decide),if_pos rfl]
  unfold argsRequests
  split
  · rw [List.append_nil,bottom]
  · rw [granted_snoc,if_neg (by decide),bottom]

theorem stack_there (laid : Laid first now requests) (bottom : granted requests (stackBottom/pageSize) = some stackFlags) :
    ∃ page pt,walk now.mem now.active stackBottom = some page ∧ has page.directory pageUser = true ∧
      Held pae now.mem now.active [pdptIndex userArgsAddr,pdIndex userArgsAddr] pt := by
  obtain ⟨page,found,_,_,user⟩ := laid.asked stackBottom (by decide) stackFlags bottom
  obtain ⟨_,pt,_,two,_⟩ := (walk_iff (by decide)).mp found
  exact ⟨page,pt,found,user (by decide),two⟩

theorem loadImage_laid (kernel : KernelSpace m) (fits : CopiesFit file)
    (done : (loadImage m file size args).1 = some prog) :
    Laid (inherited m) {(loadImage m file size args).2 with active:=prog.pageDir} (imageRequests file prog) ∧
      (loadImage m file size args).2.nxSupported = m.nxSupported := by
  have begun := created_laid kernel
  have nx := create_nx m
  unfold loadImage at *
  generalize pagingCreateAddressSpace m = answer at *
  obtain ⟨dir,fresh⟩ := answer
  dsimp only at *
  by_cases zero : dir = 0
  · rw [if_pos zero] at done
    cases done
  rw [if_neg zero] at *
  have active : (pagingSwitch fresh dir).active = dir := if_neg zero
  have headers := @loadHeaders_laid _ _ _ _ _ _ {pageDir:=dir} size (List.range (elfPhnum file)) (begun zero)
    fun i member => fits i (List.mem_range.mp member)
  generalize loadHeaders _ _ _ _ _ _ _ = answer at *
  obtain ⟨loaded,read,mapped⟩ := answer
  dsimp only at *
  split at done
  · cases done
  rename_i accepted
  rw [if_neg accepted]
  obtain ⟨segments,keptOne,dirOne,argsOne⟩ := headers (by simpa using fun failed => accepted (.inl failed))
  rw [List.nil_append] at segments
  have stack := @loadStack_laid _ _ _ read segments
  generalize loadStack mapped read = answer at *
  obtain ⟨stacked,ready,standing⟩ := answer
  dsimp only at *
  split at done
  · cases done
  rename_i enough
  rw [if_neg enough]
  obtain ⟨withStack,keptTwo,dirTwo,argsTwo⟩ := stack (by simpa using enough)
  have none := argsTwo.trans argsOne
  have bottom := granted_stack (headerRequests file (elfPhoff file) (elfPhentsize file) (List.range (elfPhnum file))) ready
  rw [argsRequests,if_pos none,List.append_nil] at bottom
  obtain ⟨_,pt,_,_,two⟩ := stack_there withStack bottom
  obtain ⟨whole,keptThree,dirThree⟩ := loadArgs_laid withStack none two args
  generalize loadArgs standing ready args = answer at *
  obtain ⟨complete,end_⟩ := answer
  dsimp only at *
  cases Option.some.inj done
  have home : end_.active = prog.pageDir := by
    rw [keptThree.active,keptTwo.active,keptOne.active,active,dirThree,dirTwo,dirOne]
  have supports : end_.nxSupported = m.nxSupported :=
    keptThree.nx.trans (keptTwo.nx.trans (keptOne.nx.trans nx))
  unfold pagingSwitch
  dsimp only
  rw [←home]
  exact ⟨whole,supports⟩

-- The file loader_run finds under a name, as its buffer shows it.
def fileIn (k : Kernel) (name : FileSystem.CString) : Option (Nat × Memory) :=
  let (ptr,heap) := Kheap.kmalloc .i386 k.sched.heap maxProgram
  if ptr = 0 then none else
  (FileSystem.fsRead k.fs name maxProgram).map fun (size,bytes) =>
    (size,buffer {heap with mem:=patch heap.mem ptr bytes.length fun i => bytes.getD i 0#8} ptr)

-- A program that was started: its record, and memory as loading left it.
structure Started (k after : Kernel) (slot : Nat) (file : Memory) (size : Nat) (args : Option FileSystem.CString)
    (prog : Program) : Prop where
  loaded : (loadImage k.mmu file size args).1 = some prog
  mem : after.mem = (loadImage k.mmu file size args).2.mem
  dir : (after.programs slot).pageDir = prog.pageDir
  argsPhys : (after.programs slot).argsPhys = prog.argsPhys
  used : (after.programs slot).inUse = true

theorem runFile_parts (run : (runFile k slot file freed size args).1 = true) :
    ∃ prog,Started k (runFile k slot file freed size args).2 slot file size args prog := by
  unfold runFile at *
  split at run
  · cases run
  rename_i good
  rw [if_neg good]
  generalize image : loadImage k.mmu file size args = answer at *
  obtain ⟨loaded,m⟩ := answer
  cases loaded with
  | none => cases run
  | some prog =>
    dsimp only at *
    split at run
    · cases run
    rename_i created
    rw [if_neg created]
    have record (j : Kernel) (p : Program) : (setProgram j slot p).programs slot = p := by
      simp [setProgram]
    refine ⟨prog,by rw [image],by rw [image]; rfl,?_,?_,?_⟩
    · dsimp only
      rw [record]
    · dsimp only
      rw [record]
    · dsimp only
      rw [record]

theorem loaderRun_parts (run : (loaderRun k name args).1 = true) : ∃ slot size file prog,
    freeSlot k = some slot ∧ fileIn k name = some (size,file) ∧
    Started k (loaderRun k name args).2 slot file size args prog := by
  unfold loaderRun fileIn at *
  generalize freeSlot k = found at *
  cases found with
  | none => cases run
  | some slot =>
    have heap : (setProgram k slot {}).sched.heap = k.sched.heap := rfl
    dsimp only at *
    rw [heap] at run ⊢
    generalize Kheap.kmalloc .i386 k.sched.heap maxProgram = answer at *
    obtain ⟨ptr,heap⟩ := answer
    dsimp only at *
    by_cases none : ptr = 0
    · rw [if_pos none] at run
      cases run
    simp only [if_neg none] at run ⊢
    have fs : ((setProgram k slot {}).setHeap heap).fs = k.fs := rfl
    rw [fs] at run ⊢
    generalize FileSystem.fsRead k.fs name maxProgram = read at *
    cases read with
    | none => cases run
    | some read =>
      obtain ⟨size,bytes⟩ := read
      dsimp only at *
      obtain ⟨prog,started⟩ := runFile_parts run
      exact ⟨slot,size,_,prog,rfl,rfl,started.loaded,started.mem,started.dir,started.argsPhys,started.used⟩

end Arthic.LoadedImage
