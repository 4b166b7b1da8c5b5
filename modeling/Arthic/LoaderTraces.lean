import Arthic.Loading

namespace Arthic.LoaderTraces
open AddressSpaces ByteMemory FileSystem FrameReturns LoadedImage Loader Loading PageTree PageTables Paging Pmm Scheduler
  TableGrowth Unsigned

-- The calls of paging_map and pmm_free_frame that loader_run leads to, in order, each with
-- the state it finds. The functions below follow those of Loader.
inductive Event where
  | map (m : Mmu) (virtual physical : Nat) (flags : Entry)
  | free (frames : State 32) (addr : Nat)

def freeTrace (frames : State 32) : List Nat → List Event
  | [] => []
  | addr::rest => .free frames addr::freeTrace (pmmFreeFrame frames addr) rest

def mapRunTrace (m : Mmu) (start phys : Nat) (flags : Entry) : List Nat → List Event
  | [] => []
  | i::rest =>
    let virtual := wrap 32 (start+i*pageSize)
    let physical := wrap 32 (phys+i*pageSize)
    .map m virtual physical flags::
      (if (pagingMap m virtual physical flags).1 = true then
        mapRunTrace (pagingMap m virtual physical flags).2 start phys flags rest
      else [])

def segmentTrace (m : Mmu) (prog : Program) (file : Memory) (fileSize : Nat) (ph : ProgramHeader) : List Event :=
  if acceptable prog fileSize ph = false then [] else
  let (phys,frames) := pmmAllocFrames m.frames ph.pages
  let m := {m with frames:=frames}
  if phys = 0 then [] else
  let m := {m with mem:=copySegment m.mem phys file ph}
  let (mapped,after) := mapRun m ph.pageStart phys (flagsForSegment ph.flags) (List.range ph.pages)
  mapRunTrace m ph.pageStart phys (flagsForSegment ph.flags) (List.range ph.pages)++
    (if mapped = false then freeTrace after.frames (runAddrs phys ph.pages) else [])

def headersTrace (m : Mmu) (prog : Program) (file : Memory) (size phoff phentsize : Nat) : List Nat → List Event
  | [] => []
  | i::rest =>
    let ph := programHeader file (phoff+i*phentsize)
    if ph.type ≠ ptLoad then headersTrace m prog file size phoff phentsize rest else
    let (loaded,next,after) := loadSegment m prog file size ph
    segmentTrace m prog file size ph++
      (if loaded = true then headersTrace after next file size phoff phentsize rest else [])

def stackTrace (m : Mmu) : List Event :=
  let (phys,frames) := pmmAllocFrames m.frames (userStackSize/pageSize)
  let m := {m with frames:=frames}
  if phys = 0 then [] else
  let m := {m with mem:=fill m.mem phys userStackSize 0#8}
  mapRunTrace m stackBottom phys stackFlags (List.range (userStackSize/pageSize))

def argsTrace (m : Mmu) (args : Option CString) : List Event :=
  let (phys,frames) := pmmAllocFrame m.frames
  let m := {m with frames:=frames}
  if phys = 0 then [] else
  let text := (args.elim [] CString.bytes).take (userArgsMax-1)
  let m := {m with mem:=patch (fill m.mem phys pageSize 0#8) phys text.length fun k => text.getD k 0#8}
  [.map m userArgsAddr phys argsFlags]

def createTrace (m : Mmu) : List Event :=
  let (pdpt,frames) := pmmAllocFrame m.frames
  if pdpt = 0 then [] else
  let (pd,frames) := pmmAllocFrame frames
  if pd = 0 then [.free frames pdpt] else []

def unloadTrace (m : Mmu) (prog : Program) : List Event := freeTrace m.frames (unloadAddrs m prog)

def imageTrace (m : Mmu) (file : Memory) (size : Nat) (args : Option CString) : List Event :=
  let (dir,fresh) := pagingCreateAddressSpace m
  createTrace m++
  (if dir = 0 then [] else
    let saved := pagingKernelDirectory fresh
    let m := pagingSwitch fresh dir
    let (loaded,prog,mapped) := loadHeaders m {pageDir:=dir} file size (elfPhoff file) (elfPhentsize file)
      (List.range (elfPhnum file))
    headersTrace m {pageDir:=dir} file size (elfPhoff file) (elfPhentsize file) (List.range (elfPhnum file))++
    (if loaded = false ∨ prog.segments = [] then unloadTrace (pagingSwitch mapped saved) prog else
      let (stacked,ready,standing) := loadStack mapped prog
      stackTrace mapped++
      (if stacked = false then unloadTrace (pagingSwitch standing saved) ready else argsTrace standing args)))

def runFileTrace (k : Kernel) (slot : Nat) (file freed : Memory) (size : Nat) (args : Option CString) : List Event :=
  if size < elfHeaderSize ∨ isElf file = false ∨ isExecutable386 file = false ∨ headersFit file size = false then [] else
  let (loaded,m) := loadImage k.mmu file size args
  imageTrace k.mmu file size args++
  (match loaded with
  | none => []
  | some prog =>
    let prog := {prog with entry:=elfEntry freed,inUse:=true}
    let k := setProgram (k.setMmu m) slot prog
    let (id,sched) := taskCreateEx k.sched prog.pageDir (programAddr slot) programCleanup
    if id = 0 then unloadTrace ({k with sched:=sched} : Kernel).mmu prog else [])

def loaderTrace (k : Kernel) (name : CString) (args : Option CString) : List Event :=
  match freeSlot k with
  | none => []
  | some slot =>
    let k := setProgram k slot {}
    let (ptr,heap) := Kheap.kmalloc .i386 k.sched.heap maxProgram
    let k := k.setHeap heap
    if ptr = 0 then [] else
    match fsRead k.fs name maxProgram with
    | none => []
    | some (size,bytes) =>
      let heap := {heap with mem:=patch heap.mem ptr bytes.length fun i => bytes.getD i 0#8}
      let freed := (Kheap.kfree .i386 heap ptr).2
      runFileTrace (k.setHeap freed) slot (buffer heap ptr) (buffer freed ptr) size args

def freed (trace : List Event) : List Nat := trace.filterMap fun
  | .map _ _ _ _ => none
  | .free _ addr => some addr

-- No frame is given back that is not marked at that moment, and none is given back twice.
structure FreedOnce (trace : List Event) : Prop where
  marked : ∀ frames addr,.free frames addr ∈ trace → addr/pageSize < frames.totalFrames ∧
    frameTest frames (addr/pageSize) = true
  distinct : (numbers (freed trace)).Nodup

variable {m base whole : Mmu} {first frames : State 32} {permits : Nat → Prop} {prog : Program}

theorem freeTrace_append (frames : State 32) (left right : List Nat) :
    freeTrace frames (left++right) = freeTrace frames left++freeTrace (freeAll frames left) right := by
  induction left generalizing frames with
  | nil => rfl
  | cons addr left ih =>
    rw [List.cons_append,freeTrace,freeTrace,ih,List.cons_append]
    rfl

theorem freed_freeTrace (frames : State 32) (addrs : List Nat) : freed (freeTrace frames addrs) = addrs := by
  induction addrs generalizing frames with
  | nil => rfl
  | cons addr addrs ih =>
    rw [freeTrace,freed,List.filterMap_cons]
    exact congrArg (List.cons addr) (ih _)

theorem freeTrace_once (returnable : Returnable frames addrs) : FreedOnce (freeTrace frames addrs) := by
  refine ⟨?_,by rw [freed_freeTrace]; exact returnable.distinct⟩
  induction addrs generalizing frames with
  | nil => nofun
  | cons addr addrs ih =>
    obtain ⟨distinct,marked⟩ := returnable
    have rest : Returnable (pmmFreeFrame frames addr) addrs := by
      refine ⟨(List.nodup_cons.mp distinct).2,?_⟩
      intro frame member
      obtain ⟨below,before⟩ := marked frame (List.mem_cons_of_mem _ member)
      rw [free_total,free_test (by decide)]
      refine ⟨below,before,fun _ equal => ?_⟩
      rw [equal] at member
      exact (List.nodup_cons.mp distinct).1 member
    intro state other member
    rcases List.mem_cons.mp member with here | later
    · cases here
      exact marked _ (List.mem_cons_self ..)
    · exact ih rest state other later

theorem once_maps {maps trace : List Event} (plain : ∀ e ∈ maps,∀ frames addr,e ≠ .free frames addr)
    (once : FreedOnce trace) : FreedOnce (maps++trace) := by
  have none : freed maps = [] := by
    rw [freed,List.filterMap_eq_nil_iff]
    intro e member
    cases e with
    | map _ _ _ _ => rfl
    | free frames addr => exact absurd rfl (plain _ member frames addr)
  refine ⟨?_,?_⟩
  · intro frames addr member
    rcases List.mem_append.mp member with early | late
    · exact absurd rfl (plain _ early frames addr)
    · exact once.marked frames addr late
  · rw [freed,List.filterMap_append]
    change (numbers (freed maps++freed trace)).Nodup
    rw [none]
    exact once.distinct

-- A call of paging_map on the way.
def Asked (permits : Nat → Prop) (base : Mmu) (e : Event) : Prop :=
  ∃ m own v phys flags,e = .map m v phys flags ∧ Loads permits base m own ∧ Loads permits base (pagingMap m v phys flags).2 own

theorem asked_plain (asked : Asked permits base e) (frames : State 32) (addr : Nat) : e ≠ .free frames addr := by
  obtain ⟨m,own,v,phys,flags,rfl,_⟩ := asked
  nofun

theorem mapRun_loads {indices : List Nat} (loads : Loads permits base m own)
    (permitted : ∀ i ∈ indices,permits (wrap 32 (start+i*pageSize))) (aligned : phys % pageSize = 0)
    (mine : ∀ i ∈ indices,wrap 32 (phys+i*pageSize)/pageSize ∈ own) (present : has flags pagePresent = true)
    (clear : (flags &&& addressMask) = 0#64) :
    Loads permits base (mapRun m start phys flags indices).2 own ∧
      ∀ e ∈ mapRunTrace m start phys flags indices,Asked permits base e := by
  induction indices generalizing m with
  | nil => exact ⟨loads,nofun⟩
  | cons i rest ih =>
    have physical : wrap 32 (phys+i*pageSize) % pageSize = 0 := by
      simp only [wrap,pageSize] at *
      omega
    have step := loads.map (wrap_lt 32 _) (permitted i (by simp)) physical (wrap_lt 32 _) (mine i (by simp)) present clear
    have here : Asked permits base (.map m (wrap 32 (start+i*pageSize)) (wrap 32 (phys+i*pageSize)) flags) :=
      ⟨m,own,_,_,_,rfl,loads,step⟩
    have later := ih step (fun j member => permitted j (List.mem_cons_of_mem i member))
      (fun j member => mine j (List.mem_cons_of_mem i member))
    unfold mapRun mapRunTrace
    dsimp only
    generalize pagingMap m (wrap 32 (start+i*pageSize)) (wrap 32 (phys+i*pageSize)) flags = answer at *
    obtain ⟨mapped,next⟩ := answer
    cases mapped with
    | true => exact ⟨later.1,List.forall_mem_cons.mpr ⟨here,later.2⟩⟩
    | false => exact ⟨step,List.forall_mem_cons.mpr ⟨here,fun _ none => by cases none⟩⟩

-- Loading under way: the program's record names exactly the frames that were taken.
structure Drafted (permits : Nat → Prop) (base m : Mmu) (prog : Program) : Prop where
  loads : ∃ own,Loads permits base m own ∧ own.Perm (numbers (holdings prog))
  dir : prog.pageDir = base.active

-- What a part of loading comes to: calls of paging_map as far as `whole`, then calls of
-- pmm_free_frame if it failed.
def Came (permits : Nat → Prop) (base m : Mmu) (prog : Program) (done : Bool) (trace : List Event) : Prop :=
  ∃ whole addrs maps own,Loads permits base whole own ∧ own.Perm (numbers (addrs++holdings prog)) ∧
    m = {whole with frames:=freeAll whole.frames addrs} ∧ prog.pageDir = base.active ∧
    trace = maps++freeTrace whole.frames addrs ∧ (∀ e ∈ maps,Asked permits base e) ∧ (done = true → addrs = [])

theorem drafted_came (draft : Drafted permits base m prog) {trace : List Event} (asked : ∀ e ∈ trace,Asked permits base e)
    (done : Bool) : Came permits base m prog done trace := by
  obtain ⟨own,loads,perm⟩ := draft.loads
  exact ⟨m,[],trace,own,loads,perm,rfl,draft.dir,(List.append_nil _).symm,asked,fun _ => rfl⟩

theorem came_drafted (came : Came permits base m prog true trace) :
    Drafted permits base m prog ∧ ∀ e ∈ trace,Asked permits base e := by
  obtain ⟨whole,addrs,maps,own,loads,perm,given,dir,shape,asked,none⟩ := came
  cases none rfl
  cases given
  rw [shape]
  exact ⟨⟨⟨own,loads,perm⟩,dir⟩,by rw [freeTrace,List.append_nil]; exact asked⟩

-- The calls made before come first.
theorem came_after (came : Came permits base m prog done trace) {earlier : List Event}
    (asked : ∀ e ∈ earlier,Asked permits base e) : Came permits base m prog done (earlier++trace) := by
  obtain ⟨whole,addrs,maps,own,loads,perm,given,dir,shape,later,none⟩ := came
  refine ⟨whole,addrs,earlier++maps,own,loads,perm,given,dir,by rw [shape,List.append_assoc],?_,none⟩
  intro e member
  rcases List.mem_append.mp member with early | late
  · exact asked e early
  · exact later e late

theorem flags_clear (elfFlags : BitVec 32) : (flagsForSegment elfFlags &&& addressMask) = 0#64 := by
  unfold flagsForSegment
  dsimp only
  split
  · split
    · decide
    · decide
  · split
    · decide
    · decide

theorem run_member (fits : (start+count)*pageSize ≤ 2^32) (below : i < count) :
    wrap 32 (start*pageSize+i*pageSize)/pageSize ∈ List.range' start count := by
  rw [←runAddrs_numbers fits]
  exact List.mem_map_of_mem (List.mem_map_of_mem (List.mem_range.mpr below))

-- The program headers that name something to load, and of these the ones load_segment's
-- checks let through, as far as the first that they do not or that finds the array full.
def loadable (file : Memory) (phoff phentsize : Nat) (indices : List Nat) : List ProgramHeader :=
  (indices.map fun i => programHeader file (phoff+i*phentsize)).filter fun ph => ph.type = ptLoad

def admitted (size room : Nat) (headers : List ProgramHeader) : List ProgramHeader :=
  (headers.takeWhile (acceptable {} size)).take room

theorem acceptable_room (prog : Program) (size : Nat) (ph : ProgramHeader) :
    acceptable prog size ph = true ↔ acceptable {} size ph = true ∧ prog.segments.length < maxSegments := by
  simp only [acceptable,Bool.and_eq_true,decide_eq_true_eq,List.length_nil]
  constructor
  · rintro ⟨⟨⟨⟨⟨⟨some,room⟩,a⟩,b⟩,c⟩,d⟩,e⟩
    exact ⟨⟨⟨⟨⟨⟨⟨some,by decide⟩,a⟩,b⟩,c⟩,d⟩,e⟩,room⟩
  · rintro ⟨⟨⟨⟨⟨⟨⟨some,_⟩,a⟩,b⟩,c⟩,d⟩,e⟩,room⟩
    exact ⟨⟨⟨⟨⟨⟨some,room⟩,a⟩,b⟩,c⟩,d⟩,e⟩

theorem loadSegment_record (m : Mmu) (prog : Program) (file : Memory) (size : Nat) (ph : ProgramHeader) :
    (loadSegment m prog file size ph).2.1.stackPhys = prog.stackPhys ∧
    (loadSegment m prog file size ph).2.1.argsPhys = prog.argsPhys ∧
    (loadSegment m prog file size ph).2.1.pageDir = prog.pageDir := by
  unfold loadSegment
  split
  · exact ⟨rfl,rfl,rfl⟩
  dsimp only
  split
  · exact ⟨rfl,rfl,rfl⟩
  split
  · exact ⟨rfl,rfl,rfl⟩
  · exact ⟨rfl,rfl,rfl⟩

theorem loadHeaders_record (m : Mmu) (prog : Program) (file : Memory) (size phoff phentsize : Nat) (indices : List Nat) :
    (loadHeaders m prog file size phoff phentsize indices).2.1.stackPhys = prog.stackPhys ∧
    (loadHeaders m prog file size phoff phentsize indices).2.1.argsPhys = prog.argsPhys ∧
    (loadHeaders m prog file size phoff phentsize indices).2.1.pageDir = prog.pageDir := by
  induction indices generalizing m prog with
  | nil => exact ⟨rfl,rfl,rfl⟩
  | cons i rest ih =>
    unfold loadHeaders
    dsimp only
    split
    · exact ih m prog
    obtain ⟨stack,args,dir⟩ := loadSegment_record m prog file size (programHeader file (phoff+i*phentsize))
    generalize loadSegment _ _ _ _ _ = answer at *
    obtain ⟨loaded,read,next⟩ := answer
    dsimp only at *
    split
    · obtain ⟨laterStack,laterArgs,laterDir⟩ := ih next read
      exact ⟨laterStack.trans stack,laterArgs.trans args,laterDir.trans dir⟩
    · exact ⟨stack,args,dir⟩

theorem loadStack_record (m : Mmu) (prog : Program) :
    (loadStack m prog).2.1.argsPhys = prog.argsPhys ∧ (loadStack m prog).2.1.pageDir = prog.pageDir := by
  unfold loadStack
  dsimp only
  split <;> exact ⟨rfl,rfl⟩

section Parts
variable (begun : Accounted first base base.active []) (zero : Taken base.frames 0)
include begun zero

theorem loadSegment_came (draft : Drafted permits base m prog) (fits : CopyFits ph)
    (permitted : acceptable prog size ph = true → ∀ i < ph.pages,permits (wrap 32 (ph.pageStart+i*pageSize))) :
    Came permits base (loadSegment m prog file size ph).2.2 (loadSegment m prog file size ph).2.1
      (loadSegment m prog file size ph).1 (segmentTrace m prog file size ph) := by
  obtain ⟨own,loads,perm⟩ := draft.loads
  obtain ⟨accounted,kept⟩ := loads_accounted begun zero loads
  unfold loadSegment segmentTrace
  by_cases fine : acceptable prog size ph = false
  · rw [if_pos fine,if_pos fine]
    exact drafted_came draft (List.forall_mem_nil _) false
  rw [if_neg fine,if_neg fine]
  have pages := permitted (by simpa using fine)
  rcases allocFrames_cases accounted.space.sound (kept.taken 0 zero) ph.pages with full | ⟨start,real,room,clear,taken⟩
  · rw [full]
    exact drafted_came draft (List.forall_mem_nil _) false
  rw [taken]
  simp only [if_neg real]
  have short := fits_addressable accounted.space.sound room
  have grown := loads.take room clear fun x => copySegment_outside fits m.mem (start*pageSize) file
  obtain ⟨mapped,asked⟩ := @mapRun_loads _ _ _ _ ph.pageStart (start*pageSize) (flagsForSegment ph.flags)
    (List.range ph.pages) grown (fun i member => pages i (List.mem_range.mp member)) (Nat.mul_mod_left _ _)
    (fun i member => List.mem_append_right _ (run_member short (List.mem_range.mp member))) (flags_parts ph.flags).1
    (flags_clear ph.flags)
  generalize mapRunTrace _ _ _ _ _ = maps at *
  generalize mapRun _ _ _ _ _ = answer at *
  obtain ⟨made,after⟩ := answer
  dsimp only at *
  have numbered : numbers (runAddrs (start*pageSize) ph.pages) = List.range' start ph.pages := runAddrs_numbers short
  cases made with
  | true =>
    rw [if_neg (by simp),if_neg (by simp),List.append_nil]
    refine drafted_came ⟨⟨_,mapped,?_⟩,?_⟩ asked true
    rotate_left
    · exact draft.dir
    have shape : holdings {prog with segments:=prog.segments++[⟨ph.pageStart,start*pageSize,ph.pages⟩]} =
        (prog.segments.flatMap fun segment => runAddrs segment.phys segment.pages)++(runAddrs (start*pageSize) ph.pages++
          ((if prog.argsPhys = 0 then [] else [prog.argsPhys])++
          (if prog.stackPhys = 0 then [] else runAddrs prog.stackPhys (userStackSize/pageSize)))) := by
      simp [holdings]
    rw [shape,numbers,List.map_append,List.map_append]
    rw [holdings,numbers,List.map_append] at perm
    change (own++List.range' start ph.pages).Perm (_++(numbers (runAddrs (start*pageSize) ph.pages)++_))
    rw [numbered]
    refine (perm.append_right _).trans ?_
    rw [List.append_assoc]
    exact List.Perm.append_left _ List.perm_append_comm
  | false =>
    rw [if_pos rfl,if_pos rfl,freeRun_frees]
    refine ⟨after,runAddrs (start*pageSize) ph.pages,maps,_,mapped,?_,rfl,draft.dir,rfl,asked,fun empty => by cases empty⟩
    rw [numbers,List.map_append]
    change (own++List.range' start ph.pages).Perm (numbers (runAddrs (start*pageSize) ph.pages)++_)
    rw [numbered]
    exact List.perm_append_comm.trans (List.Perm.append_left _ perm)

theorem loadHeaders_came {indices : List Nat} (draft : Drafted permits base m prog)
    (fits : ∀ i ∈ indices,(programHeader file (phoff+i*phentsize)).type = ptLoad → CopyFits (programHeader file (phoff+i*phentsize)))
    (permitted : ∀ ph ∈ admitted size (maxSegments-prog.segments.length) (loadable file phoff phentsize indices),
      ∀ i < ph.pages,permits (wrap 32 (ph.pageStart+i*pageSize))) :
    Came permits base (loadHeaders m prog file size phoff phentsize indices).2.2
      (loadHeaders m prog file size phoff phentsize indices).2.1 (loadHeaders m prog file size phoff phentsize indices).1
      (headersTrace m prog file size phoff phentsize indices) := by
  induction indices generalizing m prog with
  | nil => exact drafted_came draft (List.forall_mem_nil _) true
  | cons i rest ih =>
    have here := fits i (by simp)
    have later := fun j member => fits j (List.mem_cons_of_mem i member)
    unfold loadHeaders headersTrace
    dsimp only
    by_cases other : (programHeader file (phoff+i*phentsize)).type = ptLoad
    · rw [if_neg (not_not.mpr other),if_neg (not_not.mpr other)]
      have shape : loadable file phoff phentsize (i::rest) =
          programHeader file (phoff+i*phentsize)::loadable file phoff phentsize rest := by
        rw [loadable,List.map_cons,List.filter_cons_of_pos (by simpa using other),loadable]
      rw [shape] at permitted
      generalize programHeader file (phoff+i*phentsize) = ph at *
      have accepted : acceptable prog size ph = true → ∀ headers,admitted size (maxSegments-prog.segments.length) (ph::headers) =
          ph::admitted size (maxSegments-prog.segments.length-1) headers := by
        intro fine headers
        obtain ⟨good,room⟩ := (acceptable_room prog size ph).mp fine
        rw [admitted,List.takeWhile_cons_of_pos good,
          show maxSegments-prog.segments.length = maxSegments-prog.segments.length-1+1 by omega,List.take_succ_cons]
        rfl
      have segment : Came permits base (loadSegment m prog file size ph).2.2 (loadSegment m prog file size ph).2.1
          (loadSegment m prog file size ph).1 (segmentTrace m prog file size ph) := by
        refine loadSegment_came begun zero draft (here other) fun fine => ?_
        rw [accepted fine] at permitted
        exact permitted ph (List.mem_cons_self ..)
      have parts := @loadSegment_parts m prog file size ph
      generalize segmentTrace m prog file size ph = maps at *
      generalize loadSegment m prog file size ph = answer at *
      obtain ⟨loaded,read,next⟩ := answer
      dsimp only at *
      cases loaded with
      | false =>
        rw [if_neg (by simp),if_neg (by simp),List.append_nil]
        exact segment
      | true =>
        obtain ⟨fine,phys,_,_,grown⟩ := parts rfl
        obtain ⟨drafted,asked⟩ := came_drafted segment
        rw [if_pos rfl,if_pos rfl]
        refine came_after (ih drafted later ?_) asked
        rw [grown,List.length_append,List.length_singleton,←Nat.sub_sub]
        rw [accepted fine] at permitted
        exact fun other member => permitted other (List.mem_cons_of_mem _ member)
    · rw [if_pos other,if_pos other]
      refine ih draft later ?_
      rw [loadable,List.map_cons,List.filter_cons_of_neg (by simpa using other)] at permitted
      exact permitted

theorem loadStack_came (draft : Drafted permits base m prog) (none : prog.stackPhys = 0)
    (permitted : ∀ i < userStackSize/pageSize,permits (wrap 32 (stackBottom+i*pageSize))) :
    Drafted permits base (loadStack m prog).2.2 (loadStack m prog).2.1 ∧ ∀ e ∈ stackTrace m,Asked permits base e := by
  obtain ⟨own,loads,perm⟩ := draft.loads
  obtain ⟨accounted,kept⟩ := loads_accounted begun zero loads
  unfold loadStack stackTrace
  rcases allocFrames_cases accounted.space.sound (kept.taken 0 zero) (userStackSize/pageSize) with
    full | ⟨start,real,room,clear,taken⟩
  · rw [full]
    exact ⟨draft,List.forall_mem_nil _⟩
  rw [taken]
  simp only [if_neg real]
  have short := fits_addressable accounted.space.sound room
  have grown := @Loads.take _ _ _ _ _ _ (fill m.mem (start*pageSize) userStackSize 0#8) loads room clear
    fun x outside => patch_outside _ _ outside
  obtain ⟨mapped,asked⟩ := @mapRun_loads _ _ _ _ stackBottom (start*pageSize) stackFlags
    (List.range (userStackSize/pageSize)) grown (fun i member => permitted i (List.mem_range.mp member))
    (Nat.mul_mod_left _ _) (fun i member => List.mem_append_right _ (run_member short (List.mem_range.mp member)))
    (by decide) (by decide)
  refine ⟨⟨⟨_,mapped,?_⟩,?_⟩,asked⟩
  rotate_left
  · exact draft.dir
  have shape : holdings {prog with stackPhys:=start*pageSize} = holdings prog++runAddrs (start*pageSize) (userStackSize/pageSize) := by
    simp only [holdings,if_neg real,if_pos none,List.append_nil,List.append_assoc]
  rw [shape,numbers,List.map_append]
  change (own++List.range' start _).Perm (_++numbers (runAddrs (start*pageSize) (userStackSize/pageSize)))
  rw [runAddrs_numbers short]
  exact perm.append_right _

theorem loadArgs_came (draft : Drafted permits base m prog) (none : prog.argsPhys = 0) (permitted : permits userArgsAddr)
    (args : Option CString) : Drafted permits base (loadArgs m prog args).2 (loadArgs m prog args).1 ∧
      ∀ e ∈ argsTrace m args,Asked permits base e := by
  obtain ⟨own,loads,perm⟩ := draft.loads
  obtain ⟨accounted,kept⟩ := loads_accounted begun zero loads
  unfold loadArgs argsTrace
  rcases allocFrame_parts accounted.space.sound with full | ⟨frame,below,free,taken⟩
  · rw [full]
    exact ⟨draft,List.forall_mem_nil _⟩
  have real : frame*pageSize ≠ 0 := fun address => by
    have other := frame_free free below 0 (kept.taken 0 zero)
    rw [address] at other
    exact other rfl
  rw [taken]
  simp only [if_neg real]
  generalize list : ((args.elim [] CString.bytes).take (userArgsMax-1)) = text
  have short : text.length ≤ userArgsMax-1 := by
    rw [←list,List.length_take]
    omega
  generalize written : patch (fill m.mem (frame*pageSize) pageSize 0#8) (frame*pageSize) text.length
    (fun k => text.getD k 0#8) = mem
  have grown : Loads permits base {m with mem:=mem,frames:=claim m.frames frame} (own++List.range' frame 1) := by
    refine @Loads.take _ _ _ _ frame 1 _ loads (by omega) ?_ ?_
    · intro other lower upper
      rw [show other = frame by omega,free]
    · intro x outside
      rw [←written,patch_outside _ _ (by simp only [userArgsMax,pageSize] at *; omega)]
      exact @patch_outside _ (frame*pageSize) pageSize _ _ (by simp only [pageSize] at *; omega)
  have mine : frame*pageSize/pageSize ∈ own++List.range' frame 1 := by
    rw [frame_number]
    simp
  have step := @Loads.map _ _ _ _ userArgsAddr (frame*pageSize) argsFlags grown (by decide) permitted (Nat.mul_mod_left _ _)
    (accounted.space.sound.address_small below) mine (by decide) (by decide)
  refine ⟨⟨⟨_,step,?_⟩,?_⟩,?_⟩
  rotate_left
  · exact draft.dir
  · intro e member
    cases List.mem_singleton.mp member
    exact ⟨_,_,_,_,_,rfl,grown,step⟩
  have shape : holdings {prog with argsPhys:=frame*pageSize} =
      (prog.segments.flatMap fun segment => runAddrs segment.phys segment.pages)++([frame*pageSize]++
        (if prog.stackPhys = 0 then [] else runAddrs prog.stackPhys (userStackSize/pageSize))) := by
    simp only [holdings,if_neg real]
  rw [shape,numbers,List.map_append,List.map_append,List.map_singleton,frame_number]
  rw [holdings,if_pos none,List.nil_append,numbers,List.map_append] at perm
  refine (perm.append_right _).trans ?_
  rw [List.append_assoc]
  exact List.Perm.append_left _ List.perm_append_comm
end Parts

-- An address space as paging_create_address_space made it, now the active one.
structure Begun (m base : Mmu) : Prop where
  made : (pagingCreateAddressSpace m).1 ≠ 0
  dir : base.active = (pagingCreateAddressSpace m).1
  accounted : Accounted m.frames base base.active []
  kept : base.image = m.image ∧ base.kernelPdEntries = m.kernelPdEntries
  zero : Taken base.frames 0
  other : base.active ≠ base.image.kernelPdpt
  untouched : ∀ x,Taken m.frames x → base.mem x = m.mem x
  inherits : ∀ v < 2^32,walk base.mem base.active v = inherited m v
  shared : ∀ path table,Shared m path → Held pae base.mem base.active path table → Held pae m.mem m.image.kernelPdpt path table

theorem accounted_switch (accounted : Accounted first m root own) (dir : Nat) : Accounted first {m with active:=dir} root own :=
  ⟨⟨accounted.space.sound,accounted.space.tree,accounted.space.home,accounted.space.real,accounted.space.taken⟩,
    accounted.total,accounted.complete,accounted.distinct,accounted.fresh,accounted.tables,accounted.marks⟩

theorem created_begun (kernel : KernelSpace m) (zero : Taken m.frames 0) (complete : Complete m)
    (made : (pagingCreateAddressSpace m).1 ≠ 0) :
    Begun m (pagingSwitch (pagingCreateAddressSpace m).2 (pagingCreateAddressSpace m).1) := by
  have accounted := created_accounted kernel zero complete made
  obtain ⟨kept,_,_,_,translates⟩ := create_parts kernel made
  obtain ⟨mem,frames,pd,equal,fresh⟩ := create_fresh kernel made
  unfold pagingSwitch
  rw [if_neg made]
  refine ⟨made,rfl,accounted_switch accounted _,⟨kept.image,kept.entries⟩,kept.taken 0 zero,?_,?_,translates,?_⟩
  · intro same
    dsimp only at same
    rw [kept.image] at same
    have taken := kernel.space.taken [] _ ((held_nil ..).mpr rfl)
    rw [←same] at taken
    exact (fresh.free _ taken).1 rfl
  · intro x taken
    rw [equal]
    exact fresh.outside x (fresh.free x taken).1 (fresh.free x taken).2
  · rintro path table ⟨j,below,rfl⟩ there
    rw [equal] at there
    rcases fresh_held kernel fresh there with ⟨long,_⟩ | ⟨long,_⟩ | ⟨l,_,long,held⟩
    · cases long
    · cases long
    · rw [long]
      exact held

-- How loading an image ends.
inductive Imaged (permits : Nat → Prop) (m : Mmu) : Option Program × Mmu → List Event → Prop where
  | refused (none : (pagingCreateAddressSpace m).1 = 0) (once : FreedOnce trace) (plain : ∀ a b c d,Event.map a b c d ∉ trace) :
    Imaged permits m (.none,m) trace
  | failed {base whole : Mmu} {prog : Program} (begun : Begun m base) (loads : Loads permits base whole own)
      (perm : own.Perm (numbers (addrs++holdings prog))) (dir : prog.pageDir = base.active) (asked : ∀ e ∈ maps,Asked permits base e) :
      Imaged permits m
        (none,{whole with active:=m.image.kernelPdpt,frames:=freeAll whole.frames (addrs++unloadAddrs whole prog)})
        (maps++freeTrace whole.frames (addrs++unloadAddrs whole prog))
  | loaded {base whole : Mmu} {prog : Program} (begun : Begun m base) (draft : Drafted permits base whole prog)
      (asked : ∀ e ∈ trace,Asked permits base e) :
      Imaged permits m (some prog,{whole with active:=m.image.kernelPdpt}) trace

theorem createTrace_made (made : (pagingCreateAddressSpace m).1 ≠ 0) : createTrace m = [] := by
  unfold pagingCreateAddressSpace at made
  unfold createTrace
  generalize pmmAllocFrame m.frames = answer at *
  obtain ⟨pdpt,frames⟩ := answer
  dsimp only at *
  split
  · rfl
  · rename_i real
    rw [if_neg real] at made
    generalize pmmAllocFrame frames = answer at *
    obtain ⟨pd,later⟩ := answer
    dsimp only at *
    split
    · rename_i zero
      rw [if_pos zero] at made
      exact absurd rfl made
    · rfl

theorem createTrace_refused (kernel : KernelSpace m) :
    FreedOnce (createTrace m) ∧ ∀ a b c d,Event.map a b c d ∉ createTrace m := by
  have nothing : FreedOnce [] ∧ ∀ a b c d,Event.map a b c d ∉ ([] : List Event) :=
    ⟨⟨fun _ _ member => absurd member List.not_mem_nil,List.nodup_nil⟩,fun _ _ _ _ => List.not_mem_nil⟩
  unfold createTrace
  rcases allocFrame_parts kernel.space.sound with full | ⟨one,below,free,taken⟩
  · rw [full]
    exact nothing
  rw [taken]
  dsimp only
  split
  · exact nothing
  have sound := claim_sound kernel.space.sound below free
  rcases allocFrame_parts sound with full | ⟨two,_,_,takenToo⟩
  · rw [full]
    dsimp only
    rw [if_pos rfl]
    refine ⟨⟨?_,List.nodup_singleton _⟩,fun _ _ _ _ member => by cases List.mem_singleton.mp member⟩
    intro frames addr member
    cases List.mem_singleton.mp member
    rw [frame_number]
    refine ⟨below,?_⟩
    rw [claim_test (by decide)]
    simp
  · rw [takenToo]
    dsimp only
    split
    · rename_i zero
      refine ⟨⟨?_,List.nodup_singleton _⟩,fun _ _ _ _ member => by cases List.mem_singleton.mp member⟩
      intro frames addr member
      cases List.mem_singleton.mp member
      rw [frame_number]
      refine ⟨below,?_⟩
      rw [claim_test (by decide),claim_test (by decide)]
      simp
    · exact nothing

-- Everything loader_run may map: the pages of the headers it gets as far as, the stack and
-- the argument page.
def admits (file : Memory) (size : Nat) : List ProgramHeader :=
  admitted size maxSegments (loadable file (elfPhoff file) (elfPhentsize file) (List.range (elfPhnum file)))

structure Permits (permits : Nat → Prop) (file : Memory) (size : Nat) : Prop where
  segments : ∀ ph ∈ admits file size,∀ i < ph.pages,permits (wrap 32 (ph.pageStart+i*pageSize))
  stack : ∀ i < userStackSize/pageSize,permits (wrap 32 (stackBottom+i*pageSize))
  args : permits userArgsAddr

theorem switch_home {now : Mmu} (image : now.image = m.image) :
    pagingSwitch now m.image.kernelPdpt = {now with active:=m.image.kernelPdpt} := by
  rw [pagingSwitch,image,ite_self]

-- Whatever was reached is undone from there.
theorem came_failed {now : Mmu} (begun : Begun m base) (came : Came permits base now prog done trace) :
    Imaged permits m (none,unload (pagingSwitch now m.image.kernelPdpt) prog)
      (trace++unloadTrace (pagingSwitch now m.image.kernelPdpt) prog) := by
  obtain ⟨whole,addrs,maps,own,loads,perm,rfl,dir,rfl,asked,_⟩ := came
  have kept := (loads_accounted begun.accounted begun.zero loads).2
  have ended := Imaged.failed begun loads perm dir asked
  rw [freeTrace_append,freeAll_append,←List.append_assoc] at ended
  rw [@switch_home m {whole with frames:=freeAll whole.frames addrs} (kept.image.trans begun.kept.1),unload_frees]
  exact ended

theorem loadImage_came (kernel : KernelSpace m) (zero : Taken m.frames 0) (complete : Complete m) (fits : CopiesFit file)
    (permitted : Permits permits file size) (args : Option CString) :
    Imaged permits m (loadImage m file size args) (imageTrace m file size args) := by
  have begun := created_begun kernel zero complete
  have empty := @createTrace_made m
  have refused := createTrace_refused kernel
  have outcome := create_cases kernel zero
  have kept := fun made => (create_parts kernel made).1.image
  unfold loadImage imageTrace
  generalize createTrace m = freeing at *
  generalize created : pagingCreateAddressSpace m = answer at *
  obtain ⟨dir,fresh⟩ := answer
  dsimp only at *
  by_cases none : dir = 0
  · rw [if_pos none,if_pos none,List.append_nil]
    rcases outcome with failed | ⟨one,_,_,_,_,_,real,first,_⟩
    · rw [(Prod.mk.inj failed).2]
      exact .refused (by rw [created]; exact none) refused.1 refused.2
    · exact absurd (first.symm.trans none) real
  rw [if_neg none,if_neg none,empty none,List.nil_append]
  have begun := begun none
  have image := kept none
  have active : (pagingSwitch fresh dir).active = dir := if_neg none
  generalize pagingSwitch fresh dir = base at *
  have draft : Drafted permits base base {pageDir:=dir} := ⟨⟨[],.start,.refl _⟩,active.symm⟩
  have headers := loadHeaders_came begun.accounted begun.zero draft (fun i member => fits i (List.mem_range.mp member))
    permitted.segments
  have record := loadHeaders_record base {pageDir:=dir} file size (elfPhoff file) (elfPhentsize file) (List.range (elfPhnum file))
  generalize headersTrace _ _ _ _ _ _ _ = calls at *
  generalize loadHeaders _ _ _ _ _ _ _ = answer at *
  obtain ⟨loaded,read,mapped⟩ := answer
  dsimp only at *
  rw [pagingKernelDirectory,image]
  by_cases stops : loaded = false ∨ read.segments = []
  · rw [if_pos stops,if_pos stops]
    exact came_failed begun headers
  rw [if_neg stops,if_neg stops]
  have complete_ : loaded = true := by simpa using fun failed => stops (.inl failed)
  rw [complete_] at headers
  obtain ⟨draftOne,askedOne⟩ := came_drafted headers
  obtain ⟨draftTwo,askedTwo⟩ := loadStack_came begun.accounted begun.zero draftOne record.1 permitted.stack
  have argless : (loadStack mapped read).2.1.argsPhys = 0 := (loadStack_record mapped read).1.trans record.2.1
  generalize stackTrace mapped = stacking at *
  generalize loadStack mapped read = answer at *
  obtain ⟨stacked,ready,standing⟩ := answer
  dsimp only at *
  by_cases short : stacked = false
  · rw [if_pos short,if_pos short,←List.append_assoc]
    exact came_failed begun (came_after (drafted_came draftTwo askedTwo false) askedOne)
  rw [if_neg short,if_neg short]
  obtain ⟨draftThree,askedThree⟩ := loadArgs_came begun.accounted begun.zero draftTwo argless permitted.args args
  generalize argsTrace standing args = arguing at *
  generalize loadArgs standing ready args = answer at *
  obtain ⟨whole,final⟩ := answer
  dsimp only at *
  obtain ⟨own,loads,_⟩ := draftThree.loads
  have kept := (loads_accounted begun.accounted begun.zero loads).2
  rw [switch_home (kept.image.trans begun.kept.1)]
  refine .loaded begun draftThree ?_
  intro e member
  rcases List.mem_append.mp member with early | late
  · exact askedOne e early
  · rcases List.mem_append.mp late with middle | last
    · exact askedTwo e middle
    · exact askedThree e last

theorem asked_once {trace : List Event} (asked : ∀ e ∈ trace,Asked permits base e) : FreedOnce trace := by
  have nothing : FreedOnce [] := ⟨fun _ _ member => absurd member List.not_mem_nil,List.nodup_nil⟩
  have once := once_maps (fun e member => asked_plain (asked e member)) nothing
  rwa [List.append_nil] at once

end Arthic.LoaderTraces
