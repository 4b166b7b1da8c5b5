import Arthic.LoadedImage
import Arthic.SchedulerRuns

namespace Arthic.Processes
open ByteMemory Kheap KheapBlocks KheapInvariant Loader LoadedImage Paging PageTree Pmm Scheduler SchedulerRing Transition
variable {s after : Sched} {ring others : List Nat} {m : Mmu} {k : Kernel} {prog : Program}

-- program_cleanup on &programs[arg-1].
def programCleanup (k : Kernel) (arg : Nat) : Kernel :=
  if arg = 0 then k else setProgram (k.setMmu (unload k.mmu (k.programs (arg-1)))) (arg-1) {}

def onExit (k : Kernel) (call : Nat × Nat) : Kernel := if call.1 = Loader.programCleanup then programCleanup k call.2 else k

-- The on_exit calls of the tasks reaped since `seen` of them were made. Each comes from
-- the middle of reap; nothing is allocated between it and reap's end.
def settle (k : Kernel) (seen : Nat) : Kernel := (k.sched.exits.drop seen).foldl onExit k

-- The kernel and the heap blocks that code outside task.c and loader.c holds.
structure Host where
  kernel : Kernel
  others : List Nat

inductive Act where
  | call (call : SchedulerRuns.Call)
  | loaderRun (name : FileSystem.CString) (args : Option FileSystem.CString)
  | files (fs : FileSystem.Fs)

def Allowed (h : Host) : Act → Prop
  | .call call => SchedulerRuns.Allowed ⟨h.kernel.sched,h.others⟩ call
  | _ => True

def apply (h : Host) : Act → Host
  | .call call =>
    let m := SchedulerRuns.apply ⟨h.kernel.sched,h.others⟩ call
    ⟨settle {h.kernel with sched:=m.sched} h.kernel.sched.exits.length,m.others⟩
  | .loaderRun name args => {h with kernel:=(loaderRun h.kernel name args).2}
  | .files fs => {h with kernel:={h.kernel with fs:=fs}}

-- task_init is done and the kernel's own directory is the active one.
def Started (kernelEnd : Nat) (mbi : MultibootInfo) (h : Host) : Prop :=
  SchedulerRuns.Started kernelEnd mbi ⟨h.kernel.sched,h.others⟩ ∧ h.kernel.mmu.active = h.kernel.image.kernelPdpt

-- What loading leaves alone, wherever it stops.
def Same (m after : Mmu) : Prop := after.image = m.image ∧ after.active = m.active ∧ after.kernelPdEntries = m.kernelPdEntries

theorem same_trans {middle after : Mmu} (first : Same m middle) (second : Same middle after) : Same m after :=
  ⟨second.1.trans first.1,second.2.1.trans first.2.1,second.2.2.trans first.2.2⟩

theorem linkTable_same (m : Mmu) (table k : Nat) (flags : Entry) : Same m (linkTable m table k flags).2 := by
  unfold linkTable
  dsimp only
  split <;> exact ⟨rfl,rfl,rfl⟩

theorem ensurePd_same (m : Mmu) (v : Nat) : Same m (ensurePd m v).2 := by
  unfold ensurePd
  split
  · exact ⟨rfl,rfl,rfl⟩
  · exact linkTable_same ..

theorem ensurePt_same (m : Mmu) (pd v : Nat) (flags : Entry) : Same m (ensurePt m pd v flags).2 := by
  unfold ensurePt
  split
  · exact linkTable_same ..
  · split <;> exact ⟨rfl,rfl,rfl⟩

theorem pagingMap_same (m : Mmu) (v phys : Nat) (flags : Entry) : Same m (pagingMap m v phys flags).2 := by
  unfold pagingMap
  have upper := ensurePd_same m v
  generalize ensurePd m v = answer at *
  obtain ⟨made,first⟩ := answer
  dsimp only at *
  split
  · exact upper
  have lower := ensurePt_same first (address (entry first.mem first.active (pdptIndex v))) v flags
  generalize ensurePt _ _ _ _ = answer at *
  obtain ⟨made,second⟩ := answer
  dsimp only at *
  split <;> exact same_trans upper lower

theorem mapRun_same (m : Mmu) (start phys : Nat) (flags : Entry) (indices : List Nat) :
    Same m (mapRun m start phys flags indices).2 := by
  induction indices generalizing m with
  | nil => exact ⟨rfl,rfl,rfl⟩
  | cons i rest ih =>
    unfold mapRun
    have here := pagingMap_same m (Unsigned.wrap 32 (start+i*pageSize)) (Unsigned.wrap 32 (phys+i*pageSize)) flags
    generalize pagingMap _ _ _ _ = answer at *
    obtain ⟨mapped,next⟩ := answer
    dsimp only at *
    split
    · exact same_trans here (ih next)
    · exact here

theorem loadSegment_same (m : Mmu) (prog : Program) (file : Memory) (size : Nat) (ph : ProgramHeader) :
    Same m (loadSegment m prog file size ph).2.2 := by
  unfold loadSegment
  split
  · exact ⟨rfl,rfl,rfl⟩
  dsimp only
  split
  · exact ⟨rfl,rfl,rfl⟩
  have mapped := mapRun_same
    {m with
      frames:=(pmmAllocFrames m.frames ph.pages).2
      mem:=copySegment m.mem (pmmAllocFrames m.frames ph.pages).1 file ph}
    ph.pageStart (pmmAllocFrames m.frames ph.pages).1 (flagsForSegment ph.flags) (List.range ph.pages)
  split <;> exact mapped

theorem loadHeaders_same (m : Mmu) (prog : Program) (file : Memory) (size phoff phentsize : Nat) (indices : List Nat) :
    Same m (loadHeaders m prog file size phoff phentsize indices).2.2 := by
  induction indices generalizing m prog with
  | nil => exact ⟨rfl,rfl,rfl⟩
  | cons i rest ih =>
    unfold loadHeaders
    dsimp only
    split
    · exact ih m prog
    have here := loadSegment_same m prog file size (programHeader file (phoff+i*phentsize))
    generalize loadSegment _ _ _ _ _ = answer at *
    obtain ⟨loaded,read,next⟩ := answer
    dsimp only at *
    split
    · exact same_trans here (ih next read)
    · exact here

theorem loadStack_same (m : Mmu) (prog : Program) : Same m (loadStack m prog).2.2 := by
  unfold loadStack
  dsimp only
  split
  · exact ⟨rfl,rfl,rfl⟩
  · exact mapRun_same
      {m with
        frames:=(pmmAllocFrames m.frames (userStackSize/pageSize)).2
        mem:=fill m.mem (pmmAllocFrames m.frames (userStackSize/pageSize)).1 userStackSize 0#8}
      stackBottom (pmmAllocFrames m.frames (userStackSize/pageSize)).1 stackFlags _

theorem loadArgs_same (m : Mmu) (prog : Program) (args : Option FileSystem.CString) : Same m (loadArgs m prog args).2 := by
  unfold loadArgs
  generalize pmmAllocFrame m.frames = answer
  obtain ⟨phys,frames⟩ := answer
  dsimp only
  split
  · exact ⟨rfl,rfl,rfl⟩
  · generalize patch _ _ _ _ = mem
    exact pagingMap_same {m with frames:=frames,mem:=mem} userArgsAddr phys argsFlags

theorem destroy_same (m : Mmu) (pdpt : Nat) : Same m (pagingDestroyAddressSpace m pdpt) := by
  unfold pagingDestroyAddressSpace
  split
  · exact ⟨rfl,rfl,rfl⟩
  · dsimp only
    split <;> exact ⟨rfl,rfl,rfl⟩

theorem unload_same (m : Mmu) (prog : Program) : Same m (unload m prog) := by
  unfold unload
  dsimp only
  split
  · exact ⟨rfl,rfl,rfl⟩
  · exact destroy_same {m with frames:=_} prog.pageDir

theorem create_same (m : Mmu) : Same m (pagingCreateAddressSpace m).2 := by
  unfold pagingCreateAddressSpace
  dsimp only
  split
  · exact ⟨rfl,rfl,rfl⟩
  · split <;> exact ⟨rfl,rfl,rfl⟩

-- Whatever happens in between, loading ends under the kernel's directory once it has
-- made one of its own.
theorem loadImage_active (m : Mmu) (file : Memory) (size : Nat) (args : Option FileSystem.CString) :
    (loadImage m file size args).2.image = m.image ∧ (loadImage m file size args).2.active =
      if (pagingCreateAddressSpace m).1 = 0 then m.active else m.image.kernelPdpt := by
  have created := create_same m
  unfold loadImage
  generalize pagingCreateAddressSpace m = answer at *
  obtain ⟨dir,fresh⟩ := answer
  dsimp only at *
  by_cases zero : dir = 0
  · simp only [if_pos zero]
    exact ⟨created.1,created.2.1⟩
  simp only [if_neg zero]
  have home : ∀ now : Mmu,now.image = m.image → (pagingSwitch now (pagingKernelDirectory fresh)).image = m.image ∧
      (pagingSwitch now (pagingKernelDirectory fresh)).active = m.image.kernelPdpt := by
    intro now image
    refine ⟨image,?_⟩
    rw [pagingSwitch,pagingKernelDirectory,created.1,image]
    split <;> rfl
  have left : ∀ (now : Mmu) (prog : Program),now.image = m.image →
      (unload (pagingSwitch now (pagingKernelDirectory fresh)) prog).image = m.image ∧
      (unload (pagingSwitch now (pagingKernelDirectory fresh)) prog).active = m.image.kernelPdpt := by
    intro now prog image
    have same := unload_same (pagingSwitch now (pagingKernelDirectory fresh)) prog
    exact ⟨same.1.trans (home now image).1,same.2.1.trans (home now image).2⟩
  have headers := loadHeaders_same (pagingSwitch fresh dir) {pageDir:=dir} file size (elfPhoff file) (elfPhentsize file)
    (List.range (elfPhnum file))
  generalize loadHeaders _ _ _ _ _ _ _ = answer at *
  obtain ⟨loaded,read,mapped⟩ := answer
  dsimp only at *
  have image : mapped.image = m.image := headers.1.trans created.1
  split
  · exact left mapped read image
  have stack := loadStack_same mapped read
  generalize loadStack mapped read = answer at *
  obtain ⟨stacked,ready,standing⟩ := answer
  dsimp only at *
  split
  · exact left standing ready (stack.1.trans image)
  have final := loadArgs_same standing ready args
  generalize loadArgs standing ready args = answer at *
  obtain ⟨complete,end_⟩ := answer
  exact home end_ (final.1.trans (stack.1.trans image))

-- No directory changes hands.
def Steady (s after : Sched) : Prop :=
  (∀ t,(after.tasks t).pageDir = (s.tasks t).pageDir) ∧ after.directory = s.directory ∧ after.current = s.current

theorem steady_refl (s : Sched) : Steady s s := ⟨fun _ => rfl,rfl,rfl⟩

theorem steady_trans {middle : Sched} (first : Steady s middle) (second : Steady middle after) : Steady s after :=
  ⟨fun t => (second.1 t).trans (first.1 t),second.2.1.trans first.2.1,second.2.2.trans first.2.2⟩

theorem setTask_steady (s : Sched) (t : Nat) {record : Task} (kept : record.pageDir = (s.tasks t).pageDir) :
    Steady s (setTask s t record) := by
  refine ⟨?_,rfl,rfl⟩
  intro x
  by_cases equal : x = t
  · rw [equal]; simpa [setTask] using kept
  · simp [setTask,equal]

theorem setState_steady (s : Sched) (t : Nat) (state : TaskState) : Steady s (setState s t state) := setTask_steady s t rfl

theorem flush_steady (s : Sched) (t : Nat) : Steady s (taskFlushOutput s t) := by
  unfold taskFlushOutput
  split
  · exact steady_refl s
  · exact setTask_steady s t rfl

theorem wakeFrom_steady (s : Sched) (rounds t : Nat) : Steady s (wakeFrom s rounds t) := by
  induction rounds generalizing s t with
  | zero =>
    unfold wakeFrom
    dsimp only
    split
    · exact setTask_steady s t rfl
    · exact steady_refl s
  | succ rounds ih =>
    unfold wakeFrom
    dsimp only
    have here : Steady s (if (s.tasks t).state = .sleeping ∧ (s.tasks t).wakeTick ≤ s.ticks then setState s t .ready else s) := by
      split
      · exact setTask_steady s t rfl
      · exact steady_refl s
    generalize (if (s.tasks t).state = .sleeping ∧ (s.tasks t).wakeTick ≤ s.ticks then setState s t .ready else s) = woken at *
    split
    · exact here
    · exact steady_trans here (ih woken _)

theorem reap_steady (s : Sched) (prev dead : Nat) : Steady s (reap s prev dead) := by
  have linked : Steady s (setNext s prev (s.tasks dead).next) := setTask_steady s prev rfl
  have flushed := steady_trans linked (flush_steady _ dead)
  unfold reap
  dsimp only
  split <;> exact flushed

theorem scanFrom_steady (s : Sched) (guard scan : Nat) : Steady s (scanFrom s guard scan).1 := by
  induction guard generalizing s scan with
  | zero => exact steady_refl s
  | succ guard ih =>
    unfold scanFrom
    dsimp only
    split
    · exact steady_refl s
    · split
      · exact steady_trans (reap_steady s scan _) (ih _ _)
      · exact steady_refl s
      · exact ih _ _

-- The directory a value of page_dir names.
def spaceOf (kernel dir : Nat) : Nat := if dir = 0 then kernel else dir

def Under (kernel : Nat) (s : Sched) : Prop :=
  spaceOf kernel s.directory = spaceOf kernel (s.tasks s.current).pageDir

theorem under_steady (under : Under kernel s) (steady : Steady s after) : Under kernel after := by
  rw [Under,steady.2.1,steady.2.2,steady.1]
  exact under

-- The switch may be left out when both tasks have one directory.
theorem switchTo_under (under : Under kernel s) (next : Nat) : Under kernel (switchTo s next) := by
  have pages : ∀ t,((switchTo s next).tasks t).pageDir = (s.tasks t).pageDir := by
    intro t
    rw [(switchTo_parts s next).1]
    unfold exchanged
    split
    · exact (steady_trans (setState_steady s s.current _) (setState_steady _ next _)).1 t
    · exact (setState_steady s next _).1 t
  have directory : (switchTo s next).directory =
      if (s.tasks next).pageDir ≠ (s.tasks s.current).pageDir then (s.tasks next).pageDir else s.directory := by
    have moved := pages
    rw [(switchTo_parts s next).1] at moved
    unfold exchanged at moved
    unfold switchTo
    dsimp only
    rw [moved,moved]
    split <;> split <;> split <;> rfl
  rw [Under,(switchTo_parts s next).2.1,pages,directory]
  split
  · rfl
  · rename_i equal
    rw [not_not.mp equal]
    exact under

theorem schedule_under (under : Under kernel s) : Under kernel (taskSchedule s) := by
  unfold taskSchedule
  split
  · exact under
  · have woken := under_steady under (wakeFrom_steady s ringGuard s.taskRing)
    have scanned := under_steady woken (scanFrom_steady (wakeSleepers s) ringGuard (wakeSleepers s).current)
    unfold resume
    dsimp only
    split
    · exact switchTo_under scanned _
    · split
      · exact scanned
      · exact switchTo_under scanned _

theorem kill_under (under : Under kernel s) (id : Nat) : Under kernel (taskKill s id).2 := by
  unfold taskKill
  split
  · exact under
  · dsimp only
    split
    · exact under
    · split
      · exact under
      · have killed := under_steady under (setState_steady s (taskById s id) .finished)
        dsimp only
        split
        · unfold taskTerminate
          split
          · exact killed
          · exact schedule_under (under_steady killed (steady_trans (flush_steady _ _) (setState_steady _ _ _)))
        · exact killed

theorem create_steady (valid : Ring s ring others) (pageDir arg onExit : Nat) :
    (taskCreateEx s pageDir arg onExit).2.directory = s.directory ∧
    (taskCreateEx s pageDir arg onExit).2.current = s.current ∧
    ((taskCreateEx s pageDir arg onExit).2.tasks s.current).pageDir = (s.tasks s.current).pageDir ∧
    ((taskCreateEx s pageDir arg onExit).2.births = s.births ∧ (taskCreateEx s pageDir arg onExit).2.tasks = s.tasks ∨
      ((taskCreateEx s pageDir arg onExit).2.tasks s.current).next ≠ s.current) := by
  obtain ⟨blocks,held⟩ := valid.heap
  unfold taskCreateEx
  rw [if_neg (by simp [valid.enabled])]
  rcases held_kmalloc held sizeofTask with refused | ⟨nonzero,after,grown⟩
  · rw [refused]
    exact ⟨rfl,rfl,rfl,.inl ⟨rfl,rfl⟩⟩
  · generalize kmalloc .i386 s.heap sizeofTask = answer at *
    obtain ⟨t,heap⟩ := answer
    dsimp only at *
    rw [if_neg nonzero]
    split
    · exact ⟨rfl,rfl,rfl,.inl ⟨rfl,rfl⟩⟩
    · have different : s.current ≠ t := by
        rintro rfl
        exact (List.nodup_cons.mp grown.distinct).1 (List.mem_append_left _ valid.current)
      refine ⟨rfl,rfl,?_,.inr ?_⟩
      · simp [setNext,setTask,different]
      · simpa [setNext,setTask] using different.symm

theorem call_under (valid : Ring s ring others) (under : Under kernel s) (call : SchedulerRuns.Call) :
    Under kernel (SchedulerRuns.apply ⟨s,others⟩ call).sched := by
  cases call with
  | taskCreateEx pageDir arg onExit =>
    obtain ⟨directory,current,dir,_⟩ := create_steady valid pageDir arg onExit
    simp only [SchedulerRuns.apply]
    rw [Under,directory,current,dir]
    exact under
  | taskSchedule => exact schedule_under under
  | taskSleep ticks =>
    simp only [SchedulerRuns.apply,taskSleep]
    split
    · exact under
    · refine schedule_under (under_steady under (setTask_steady s s.current ?_))
      rfl
  | taskBlock =>
    simp only [SchedulerRuns.apply,taskBlock]
    split
    · exact under
    · unfold leave
      split
      · exact schedule_under under
      · exact schedule_under (under_steady under (setState_steady s _ _))
  | taskUnblock t =>
    simp only [SchedulerRuns.apply,taskUnblock]
    split
    · exact under_steady under (setState_steady s _ _)
    · exact under
  | taskKill id => exact kill_under under id
  | taskExit =>
    simp only [SchedulerRuns.apply,taskExit]
    split
    · exact under
    · exact schedule_under (under_steady under (setState_steady s _ _))
  | taskTerminate =>
    simp only [SchedulerRuns.apply,taskTerminate]
    split
    · exact under
    · exact schedule_under (under_steady under (steady_trans (flush_steady _ _) (setState_steady _ _ _)))
  | taskSetAddressSpace pageDir =>
    simp only [SchedulerRuns.apply,taskSetAddressSpace]
    rw [if_neg (valid.nonzero valid.current)]
    simp [Under,setTask]
  | tick => exact under
  | heap call => exact under
  | frames next => exact under

-- loader.c changes frames, memory and its own records; of the scheduler's variables it
-- only moves CR3.
structure Placed (kernel : Nat) (k : Kernel) (ring others : List Nat) : Prop where
  image : k.image.kernelPdpt = kernel
  ring : Ring k.sched ring others
  running : Running k.sched

theorem placed_setMmu {now : Mmu} (placed : Placed kernel k ring others) : Placed kernel (k.setMmu now) ring others :=
  ⟨placed.image,{placed.ring with},placed.running⟩

theorem spaceOf_twice (kernel dir : Nat) : spaceOf kernel (spaceOf kernel dir) = spaceOf kernel dir := by
  unfold spaceOf
  split <;> simp_all

theorem setMmu_under {now : Mmu} (image : k.image.kernelPdpt = kernel) (under : Under kernel k.sched) (same : now.active = k.mmu.active) :
    Under kernel (k.setMmu now).sched := by
  have active : (k.setMmu now).sched.directory = spaceOf kernel k.sched.directory := by
    rw [←image]
    exact same
  rw [Under,active,spaceOf_twice]
  exact under

theorem onExit_placed (placed : Placed kernel k ring others) (call : Nat × Nat) :
    Placed kernel (onExit k call) ring others ∧ (onExit k call).sched.current = k.sched.current := by
  unfold onExit programCleanup
  split
  · split
    · exact ⟨placed,rfl⟩
    · have freed := @placed_setMmu _ _ _ _ (unload k.mmu (k.programs (call.2-1))) placed
      exact ⟨⟨freed.image,freed.ring,freed.running⟩,rfl⟩
  · exact ⟨placed,rfl⟩

theorem onExit_under (placed : Placed kernel k ring others) (under : Under kernel k.sched) (call : Nat × Nat) :
    Under kernel (onExit k call).sched := by
  unfold onExit programCleanup
  split
  · split
    · exact under
    · exact setMmu_under placed.image under (unload_same k.mmu (k.programs (call.2-1))).2.1
  · exact under

theorem settle_placed (placed : Placed kernel k ring others) (seen : Nat) :
    Placed kernel (settle k seen) ring others ∧ (settle k seen).sched.current = k.sched.current := by
  unfold settle
  generalize k.sched.exits.drop seen = calls
  induction calls generalizing k with
  | nil => exact ⟨placed,rfl⟩
  | cons call calls ih =>
    obtain ⟨next,current⟩ := onExit_placed placed call
    obtain ⟨last,same⟩ := ih next
    exact ⟨last,same.trans current⟩

theorem settle_under (placed : Placed kernel k ring others) (under : Under kernel k.sched) (seen : Nat) :
    Under kernel (settle k seen).sched := by
  unfold settle
  generalize k.sched.exits.drop seen = calls
  induction calls generalizing k with
  | nil => exact under
  | cons call calls ih => exact ih (onExit_placed placed call).1 (onExit_under placed under call)

-- The file is one loader_run goes on with.
def Executable (file : Memory) (size : Nat) : Prop :=
  elfHeaderSize ≤ size ∧ isElf file = true ∧ isExecutable386 file = true ∧ headersFit file size = true

theorem executable_iff (file : Memory) (size : Nat) :
    Executable file size ↔ ¬ (size < elfHeaderSize ∨ isElf file = false ∨ isExecutable386 file = false ∨
      headersFit file size = false) := by
  simp [Executable]

-- Where the scheduler stands after loader_run: the same task runs, and CR3 is what
-- `active` says.
structure Returned (kernel active : Nat) (k after : Kernel) (others : List Nat) : Prop where
  placed : ∃ ring,Placed kernel after ring others
  current : after.sched.current = k.sched.current
  pageDir : (after.sched.tasks k.sched.current).pageDir = (k.sched.tasks k.sched.current).pageDir
  active : spaceOf kernel after.sched.directory = spaceOf kernel active
  fresh : after.sched.births = k.sched.births ∨ (after.sched.tasks k.sched.current).next ≠ k.sched.current

theorem returned_refl (placed : Placed kernel k ring others) : Returned kernel k.sched.directory k k others :=
  ⟨⟨ring,placed⟩,rfl,rfl,rfl,.inl rfl⟩

-- The directory loading ends under, as page_dir would name it.
def homeOf (k : Kernel) : Nat := if (pagingCreateAddressSpace k.mmu).1 = 0 then k.sched.directory else k.image.kernelPdpt

theorem image_home (k : Kernel) (file : Memory) (size : Nat) (args : Option FileSystem.CString) :
    spaceOf k.image.kernelPdpt (loadImage k.mmu file size args).2.active = spaceOf k.image.kernelPdpt (homeOf k) := by
  rw [(loadImage_active k.mmu file size args).2,homeOf]
  split
  · exact spaceOf_twice _ _
  · rfl

theorem returned_setMmu {now : Mmu} {later : Kernel} (returned : Returned kernel active k later others)
    (same : now.active = later.mmu.active) : Returned kernel active k (later.setMmu now) others := by
  obtain ⟨⟨ring,placed⟩,current,pageDir,home,fresh⟩ := returned
  refine ⟨⟨ring,placed_setMmu placed⟩,current,pageDir,?_,fresh⟩
  have directory : (later.setMmu now).sched.directory = spaceOf kernel later.sched.directory := by
    rw [←placed.image]
    exact same
  rw [directory,spaceOf_twice]
  exact home

theorem returned_create {later : Kernel} (returned : Returned kernel active k later others) (pageDir arg onExit : Nat) :
    Returned kernel active k {later with sched:=(taskCreateEx later.sched pageDir arg onExit).2} others := by
  obtain ⟨⟨ring,placed⟩,current,dir,home,fresh⟩ := returned
  obtain ⟨directory,sameCurrent,sameDir,next⟩ := create_steady placed.ring pageDir arg onExit
  obtain ⟨longer,valid,running⟩ := ring_create placed.ring placed.running pageDir arg onExit
  rw [current] at sameDir next
  refine ⟨⟨longer,placed.image,valid,running⟩,sameCurrent.trans current,sameDir.trans dir,?_,?_⟩
  · rw [←home,←directory]
  · rcases next with ⟨births,tasks⟩ | next
    · dsimp only
      rw [births,tasks]
      exact fresh
    · exact .inr next

theorem runFile_returned (placed : Placed kernel k ring others) (slot : Nat) (file freed : Memory) (size : Nat)
    (args : Option FileSystem.CString) : ∃ active,Returned kernel active k (runFile k slot file freed size args).2 others ∧
      (Executable file size → active = homeOf k) ∧ (¬ Executable file size → active = k.sched.directory) := by
  rw [executable_iff]
  unfold runFile
  by_cases bad : size < elfHeaderSize ∨ isElf file = false ∨ isExecutable386 file = false ∨ headersFit file size = false
  · rw [if_pos bad]
    exact ⟨_,returned_refl placed,fun good => absurd bad good,fun _ => rfl⟩
  rw [if_neg bad]
  refine ⟨homeOf k,?_,fun _ => rfl,fun good => absurd bad good⟩
  have home := image_home k file size args
  rw [placed.image] at home
  generalize loadImage k.mmu file size args = answer at *
  obtain ⟨loaded,m⟩ := answer
  have begun : Returned kernel (homeOf k) k (k.setMmu m) others :=
    ⟨⟨ring,placed_setMmu placed⟩,rfl,rfl,home,.inl rfl⟩
  cases loaded with
  | none => exact begun
  | some prog =>
    have recorded : ∀ (j : Kernel) (p : Program),Returned kernel (homeOf k) k j others →
        Returned kernel (homeOf k) k (setProgram j slot p) others := by
      rintro j p ⟨⟨ring,placed⟩,current,dir,home,fresh⟩
      exact ⟨⟨ring,placed.image,placed.ring,placed.running⟩,current,dir,home,fresh⟩
    have made := returned_create (recorded _ {prog with entry:=elfEntry freed,inUse:=true} begun) prog.pageDir
      (programAddr slot) Loader.programCleanup
    dsimp only
    split
    · exact recorded _ _ (returned_setMmu made (unload_same _ _).2.1)
    · exact made

theorem readFrom_length (f : FileSystem.Fs) (i size turns index : Nat) (out : List Byte) {bytes : List Byte}
    (short : out.length ≤ size) (read : FileSystem.readFrom f i size turns index out = some bytes) : bytes.length ≤ size := by
  induction turns generalizing index out with
  | zero => cases read; exact short
  | succ turns ih =>
    unfold FileSystem.readFrom at read
    dsimp only at read
    split at read
    · cases read; exact short
    · split at read
      · cases read
      · split at read
        · cases read
        · refine ih _ _ ?_ read
          rw [List.length_append,List.length_map,List.length_range]
          omega

-- A block brings at least one byte, so there are turns enough.
theorem readFrom_whole (f : FileSystem.Fs) (i size turns index : Nat) (out : List Byte) {bytes : List Byte}
    (enough : size ≤ out.length+turns) (read : FileSystem.readFrom f i size turns index out = some bytes) :
    size ≤ bytes.length := by
  induction turns generalizing index out with
  | zero => cases read; exact enough
  | succ turns ih =>
    unfold FileSystem.readFrom at read
    dsimp only at read
    split at read
    · cases read; assumption
    · split at read
      · cases read
      · split at read
        · cases read
        · refine ih _ _ ?_ read
          rw [List.length_append,List.length_map,List.length_range]
          simp only [FileSystem.fsBlockSize]
          omega

theorem fsRead_whole {limit : Nat} (read : FileSystem.fsRead f name limit = some (size,bytes)) : size ≤ bytes.length := by
  unfold FileSystem.fsRead at read
  split at read
  · cases read
  · split at read
    · cases read
    · rename_i i _
      simp only [Option.map_eq_some_iff,Prod.mk.injEq] at read
      obtain ⟨out,found,rfl,rfl⟩ := read
      exact readFrom_whole f i _ _ 0 [] (by simp) found

theorem fsRead_short {limit : Nat} (read : FileSystem.fsRead f name limit = some (size,bytes)) :
    bytes.length ≤ limit := by
  unfold FileSystem.fsRead at read
  split at read
  · cases read
  · split at read
    · cases read
    · rename_i i _
      simp only [Option.map_eq_some_iff,Prod.mk.injEq] at read
      obtain ⟨out,found,_,rfl⟩ := read
      have short := readFrom_length f i _ _ 0 [] (Nat.zero_le _) found
      exact Nat.le_trans short (Nat.min_le_right _ _)

-- The file buffer is borrowed from the heap, filled and given back.
theorem held_buffer {heap : Heap} (held : Held .i386 heap blocks live) (given : (kmalloc .i386 heap maxProgram).1 ≠ 0)
    (bytes : List Byte) (short : bytes.length ≤ maxProgram) :
    Held .i386 (kfree .i386 {(kmalloc .i386 heap maxProgram).2 with
      mem:=patch (kmalloc .i386 heap maxProgram).2.mem (kmalloc .i386 heap maxProgram).1 bytes.length
        fun i => bytes.getD i 0#8} (kmalloc .i386 heap maxProgram).1).2 blocks live := by
  obtain ⟨after,taken,wide,start,back⟩ := held_return held given
  have room : maxProgram ≤ alignUp .i386 maxProgram := by decide
  have filled := @KheapRuns.held_patch _ _ _ _ _ _ bytes.length (fun i => bytes.getD i 0#8) taken (List.mem_cons_self ..)
    (Nat.le_refl _) (by omega)
  exact back _ start filled

theorem placed_buffer (placed : Placed kernel k ring others) (given : (kmalloc .i386 k.sched.heap maxProgram).1 ≠ 0)
    (bytes : List Byte) (short : bytes.length ≤ maxProgram) :
    Placed kernel (k.setHeap (kfree .i386 {(kmalloc .i386 k.sched.heap maxProgram).2 with
      mem:=patch (kmalloc .i386 k.sched.heap maxProgram).2.mem (kmalloc .i386 k.sched.heap maxProgram).1 bytes.length
        fun i => bytes.getD i 0#8} (kmalloc .i386 k.sched.heap maxProgram).1).2) ring others := by
  obtain ⟨blocks,held⟩ := placed.ring.heap
  exact ⟨placed.image,{placed.ring with heap:=⟨blocks,held_buffer held given bytes short⟩},placed.running⟩

theorem patch_nothing (mem : Memory) (addr : Nat) (source : Nat → Byte) : patch mem addr 0 source = mem := by
  funext x
  exact patch_outside mem source (by omega)

-- loader_run gets as far as paging_switch.
def Switches (k : Kernel) (name : FileSystem.CString) : Prop :=
  freeSlot k ≠ none ∧ (∃ size file,fileIn k name = some (size,file) ∧ Executable file size) ∧
  (pagingCreateAddressSpace k.mmu).1 ≠ 0

theorem loaderRun_returned (placed : Placed kernel k ring others) (name : FileSystem.CString)
    (args : Option FileSystem.CString) : ∃ active,Returned kernel active k (loaderRun k name args).2 others ∧
      (Switches k name → active = kernel) ∧ (¬ Switches k name → active = k.sched.directory) := by
  unfold loaderRun Switches fileIn
  generalize freeSlot k = found
  cases found with
  | none => exact ⟨_,returned_refl placed,fun good => absurd rfl good.1,fun _ => rfl⟩
  | some slot =>
    have recorded : Placed kernel (setProgram k slot {}) ring others := ⟨placed.image,placed.ring,placed.running⟩
    have heap : (setProgram k slot {}).sched.heap = k.sched.heap := rfl
    dsimp only
    rw [heap]
    obtain ⟨blocks,held⟩ := placed.ring.heap
    by_cases given : (kmalloc .i386 k.sched.heap maxProgram).1 = 0
    · have refused : kmalloc .i386 k.sched.heap maxProgram = (0,k.sched.heap) :=
        (held_kmalloc held maxProgram).resolve_right fun taken => taken.1 given
      rw [if_pos given,refused]
      refine ⟨_,⟨⟨ring,placed.image,placed.ring,placed.running⟩,rfl,rfl,rfl,.inl rfl⟩,?_,fun _ => rfl⟩
      rintro ⟨_,⟨size,file,found,_⟩,_⟩
      rw [if_pos rfl] at found
      cases found
    · simp only [if_neg given]
      have buffered := placed_buffer recorded given
      simp only [heap] at buffered
      have fs : ((setProgram k slot {}).setHeap (kmalloc .i386 k.sched.heap maxProgram).2).fs = k.fs := rfl
      rw [fs]
      generalize answered : FileSystem.fsRead k.fs name maxProgram = answer
      cases answer with
      | none =>
        have back := buffered [] (Nat.zero_le _)
        rw [List.length_nil,patch_nothing] at back
        refine ⟨_,⟨⟨ring,back⟩,rfl,rfl,rfl,.inl rfl⟩,?_,fun _ => rfl⟩
        rintro ⟨_,⟨size,file,found,_⟩,_⟩
        cases found
      | some read =>
        obtain ⟨size,bytes⟩ := read
        have back := buffered bytes (fsRead_short answered)
        generalize kmalloc .i386 k.sched.heap maxProgram = answer at *
        obtain ⟨ptr,heap⟩ := answer
        simp only [Option.map_some] at *
        generalize {heap with mem:=patch heap.mem ptr bytes.length fun i => bytes.getD i 0#8} = filled at *
        obtain ⟨active,returned,good,bad⟩ := runFile_returned back slot (buffer filled ptr)
          (buffer (kfree .i386 filled ptr).2 ptr) size args
        have again : ((setProgram k slot {}).setHeap heap).setHeap (kfree .i386 filled ptr).2 =
            (setProgram k slot {}).setHeap (kfree .i386 filled ptr).2 := rfl
        rw [again]
        refine ⟨active,⟨returned.placed,returned.current,returned.pageDir,returned.active,returned.fresh⟩,?_,?_⟩
        · rintro ⟨_,⟨_,_,found,executable⟩,made⟩
          cases found
          rw [good executable,homeOf]
          exact (if_neg made).trans placed.image
        · intro stops
          by_cases executable : Executable (buffer filled ptr) size
          · rw [good executable,homeOf]
            exact if_pos (not_not.mp fun made => stops ⟨nofun,⟨_,_,rfl,executable⟩,made⟩)
          · exact bad executable

def Own (k : Kernel) : Prop := k.mmu.active = spaceOf k.image.kernelPdpt (k.sched.tasks k.sched.current).pageDir

-- loader_run returns under the kernel's directory, so the current task must be one that
-- has no other, or loader_run must give up before it switches.
def Suited (h : Host) : Act → Prop
  | .loaderRun name _ => spaceOf h.kernel.image.kernelPdpt (h.kernel.sched.tasks h.kernel.sched.current).pageDir =
      h.kernel.image.kernelPdpt ∨ ¬ Switches h.kernel name
  | _ => True

def hosting (kernelEnd : Nat) (mbi : MultibootInfo) : System Host Act :=
  guarded (Started kernelEnd mbi) Allowed apply

def suited (kernelEnd : Nat) (mbi : MultibootInfo) : System Host Act :=
  guarded (Started kernelEnd mbi) (fun h act => Allowed h act ∧ Suited h act) apply

def Kept (h : Host) : Prop :=
  (∃ ring,Placed h.kernel.image.kernelPdpt h.kernel ring h.others) ∧ Under h.kernel.image.kernelPdpt h.kernel.sched

theorem own_iff (k : Kernel) : Own k ↔ Under k.image.kernelPdpt k.sched := Iff.rfl

theorem started_kept {h : Host} (started : Started kernelEnd mbi h) : Kept h := by
  obtain ⟨started,active⟩ := started
  obtain ⟨ring,valid,running⟩ := SchedulerRuns.started_kept started
  refine ⟨⟨ring,rfl,valid,running⟩,?_⟩
  obtain ⟨⟨before,espNow,made,off,_⟩,enabled⟩ := started
  have dir : (h.kernel.sched.tasks h.kernel.sched.current).pageDir = 0 := by
    dsimp only at made enabled
    rw [made] at enabled ⊢
    unfold taskInit at *
    generalize kmalloc .i386 before.heap sizeofTask = answer at *
    obtain ⟨t,heap⟩ := answer
    dsimp only at *
    split
    · rename_i zero
      rw [if_pos zero] at enabled
      rw [off] at enabled
      cases enabled
    · simp [setTask]
  rw [Under,dir]
  exact active

theorem call_kept {h : Host} (kept : Kept h) (allowed : Allowed h (.call call)) : Kept (apply h (.call call)) := by
  obtain ⟨⟨ring,placed⟩,under⟩ := kept
  obtain ⟨longer,valid,running⟩ := SchedulerRuns.kept_step ⟨ring,placed.ring,placed.running⟩ allowed
  have moved := call_under placed.ring under call
  have before : Placed h.kernel.image.kernelPdpt
      {h.kernel with sched:=(SchedulerRuns.apply ⟨h.kernel.sched,h.others⟩ call).sched} longer
      (SchedulerRuns.apply ⟨h.kernel.sched,h.others⟩ call).others := ⟨rfl,valid,running⟩
  have settled := (settle_placed before h.kernel.sched.exits.length).1
  have still := settle_under before moved h.kernel.sched.exits.length
  have image := settled.image
  refine ⟨⟨longer,?_⟩,?_⟩
  · rw [apply]
    dsimp only
    rw [image]
    exact settled
  · rw [apply]
    dsimp only
    rw [image]
    exact still

theorem loaderRun_kept {h : Host} (kept : Kept h) (name : FileSystem.CString) (args : Option FileSystem.CString) :
    (Own (apply h (.loaderRun name args)).kernel ↔ Suited h (.loaderRun name args)) ∧
    (∃ ring,Placed h.kernel.image.kernelPdpt (apply h (.loaderRun name args)).kernel ring h.others) := by
  obtain ⟨⟨ring,placed⟩,under⟩ := kept
  obtain ⟨active,returned,good,bad⟩ := loaderRun_returned placed name args
  obtain ⟨longer,after⟩ := returned.placed
  refine ⟨?_,longer,after⟩
  rw [own_iff,apply]
  dsimp only
  rw [after.image,Under,returned.active,returned.current,returned.pageDir,Suited]
  by_cases switches : Switches h.kernel name
  · rw [good switches]
    have here : spaceOf h.kernel.image.kernelPdpt h.kernel.image.kernelPdpt = h.kernel.image.kernelPdpt := by
      unfold spaceOf
      split <;> rfl
    rw [here]
    simp only [switches,not_true_eq_false,or_false]
    exact eq_comm
  · rw [bad switches]
    simp only [switches,not_false_eq_true,or_true,iff_true]
    exact under

theorem kept_step {h : Host} (kept : Kept h) (allowed : Allowed h act) :
    (Own (apply h act).kernel ↔ Suited h act) ∧ (Suited h act → Kept (apply h act)) := by
  cases act with
  | call call =>
    have after := call_kept kept allowed
    exact ⟨⟨fun _ => trivial,fun _ => after.2⟩,fun _ => after⟩
  | loaderRun name args =>
    obtain ⟨exact_,ring,placed⟩ := loaderRun_kept kept name args
    refine ⟨exact_,fun suits => ?_⟩
    have own := exact_.mpr suits
    rw [own_iff] at own
    refine ⟨⟨ring,?_⟩,own⟩
    rw [placed.image]
    exact placed
  | files fs =>
    obtain ⟨⟨ring,placed⟩,under⟩ := kept
    exact ⟨⟨fun _ => trivial,fun _ => under⟩,fun _ => ⟨⟨ring,placed.image,placed.ring,placed.running⟩,under⟩⟩

theorem runs_kept {h : Host} (path : Reached (suited kernelEnd mbi) h) : Kept h := by
  apply path.invariant
  · exact fun _ => started_kept
  · rintro h act next kept ⟨⟨allowed,suits⟩,rfl⟩
    exact (kept_step kept allowed).2 suits

theorem active_space_owned {h : Host} (path : Reached (suited kernelEnd mbi) h) :
    Own h.kernel ∧ ∀ act,Allowed h act → (Own (apply h act).kernel ↔ Suited h act) :=
  ⟨(runs_kept path).2,fun _ allowed => (kept_step (runs_kept path) allowed).1⟩

-- Task 0 has taken a directory of its own when somebody runs a file that is an ELF header
-- and nothing else.
def stubElf : Memory :=
  [(0,4,0x464C457F),(4,1,1),(5,1,1),(16,2,2),(18,2,3)].foldl (fun m (addr,width,value) => store m addr width value)
    fun _ => 0#8

def stubDisk : FileSystem.Fs :=
  ⟨⟨true,40,fun _ => true,fun _ => true,fun lba => if lba = 18 then stubElf else fun _ => 0#8,[]⟩,
    ⟨FileSystem.fsMagic,22,18,64⟩,true,fun word => if word = 0 then 1#8 else 0#8,
    store (store (store (fun _ => 0#8) 0 1 0x73) 32 4 52) 36 4 1⟩
def stubName : FileSystem.CString := ⟨[0x73#8],by decide⟩

def stubKernel : Kernel :=
  ⟨taskInit (SchedulerRuns.blankSched (KheapRuns.freshHeap .i386 0x102000)) 0x200000,smallImage,fun _ => 0#8,0,0,true,
    stubDisk,fun _ => {}⟩
def stubHost : Host := ⟨stubKernel,[]⟩
def movedHost : Host := apply stubHost (.call (.taskSetAddressSpace 0x110000))

theorem stub_started : Started 0x101000 KheapRuns.roomyMap stubHost := by
  have heap : Reached (KheapRuns.allocator .i386 0x101000 KheapRuns.roomyMap) ⟨KheapRuns.freshHeap .i386 0x102000,[]⟩ := by
    rw [←KheapRuns.roomyHeap_fresh]
    exact ⟨KheapRuns.roomyHeap,[],KheapRuns.roomyHeap_initial,.nil⟩
  have given : (kmalloc .i386 (KheapRuns.freshHeap .i386 0x102000) sizeofTask).1 ≠ 0 := by decide
  exact ⟨@SchedulerRuns.blank_started _ _ ⟨KheapRuns.freshHeap .i386 0x102000,[]⟩ heap given,by decide⟩

theorem moved_reached : Reached (suited 0x101000 KheapRuns.roomyMap) movedHost :=
  ⟨stubHost,[.call (.taskSetAddressSpace 0x110000)],stub_started,.act .nil ⟨trivial,trivial⟩⟩

theorem active_space_owned_small : movedHost.kernel.mmu.active = 0x110000 ∧ Own movedHost.kernel :=
  ⟨by decide,(active_space_owned moved_reached).1⟩

theorem stub_read : (fileIn movedHost.kernel stubName).isSome = true := by decide
def stubFile : Nat × Memory := (fileIn movedHost.kernel stubName).get stub_read
theorem stub_found : fileIn movedHost.kernel stubName = some (stubFile.1,stubFile.2) := (Option.some_get stub_read).symm

theorem loader_leaves_kernel_space : Reached (hosting 0x101000 KheapRuns.roomyMap) (apply movedHost (.loaderRun stubName none)) ∧
    ¬ Own (apply movedHost (.loaderRun stubName none)).kernel := by
  refine ⟨⟨stubHost,[.call (.taskSetAddressSpace 0x110000),.loaderRun stubName none],stub_started,?_⟩,?_⟩
  · exact .act (.act .nil trivial) trivial
  · have allowed : Allowed movedHost (.loaderRun stubName none) := trivial
    rw [(kept_step (runs_kept moved_reached) allowed).1]
    rintro (home | stops)
    · exact absurd home (by decide)
    · refine stops ⟨by decide +kernel,⟨_,_,stub_found,?_⟩,by decide +kernel⟩
      unfold Executable
      decide

end Arthic.Processes
