import Arthic.KheapRequests
import Arthic.LoaderTraces
import Arthic.Processes
import Arthic.TaskLifetimes

namespace Arthic.LoaderOutcomes
open AddressSpaces ByteMemory FileSystem FrameReturns Kheap KheapBlocks KheapInvariant
open LoadedImage Loader Loading LoaderTraces PageTree
  PageTables Paging Pmm Processes Scheduler SchedulerRing TableGrowth TaskLifetimes Transition Unsigned

-- What loader_run relies on. Frame 0 is not for the allocator to give, the kernel's
-- directory has a table wherever it is shared, and a record not in use is blank.
structure Sane (k : Kernel) (blocks : List Block) (ring others : List Nat) : Prop where
  kernel : KernelSpace k.mmu
  zero : Taken k.sched.frames 0
  complete : Complete k.mmu
  valid : Ring k.sched ring others
  running : Running k.sched
  heap : Held .i386 k.sched.heap blocks (ring++others)
  blank : ∀ slot,(k.programs slot).inUse = false → k.programs slot = {}

-- Loading came to nothing: the heap has the blocks it had, and of the scheduler only CR3
-- may have moved.
structure Undone (k after : Kernel) (frames : State 32) (mem : Memory) (blocks : List Block) (live : List Nat) :
    Prop where
  image : after.image = k.image
  entries : after.kernelPdEntries = k.kernelPdEntries
  programs : after.programs = k.programs
  mem : after.mem = mem
  sched : ∃ heap directory,after.sched = {k.sched with heap:=heap,frames:=frames,directory:=directory} ∧
    Held .i386 heap blocks live

-- A program was loaded into `whole` and has a task, t, whose stack begins at frame `start`.
structure Launched (k after : Kernel) (whole : Mmu) (prog : Program) (slot t start : Nat) (blocks : List Block)
    (ring others : List Nat) : Prop where
  image : after.image = k.image
  entries : after.kernelPdEntries = k.kernelPdEntries
  mem : after.mem = whole.mem
  programs : ∃ entry,after.programs = Function.update k.programs slot {prog with entry:=entry,inUse:=true}
  sched : ∃ heap directory,Joined {k.sched with heap:=heap,frames:=whole.frames,directory:=directory} after.sched ring others t
    start (programAddr slot) Loader.programCleanup
  heap : Held .i386 (kfree .i386 after.sched.heap t).2 blocks (ring++others)

-- The image is loaded and there is a stack for its task.
def Equipped (m : Mmu) (file : Memory) (size : Nat) (args : Option CString) : Prop :=
  (loadImage m file size args).1.isSome = true ∧ (pmmAllocFrames (loadImage m file size args).2.frames stackFrames).1 ≠ 0

-- How loader_run ends, with the calls of paging_map and pmm_free_frame on the way. It either
-- gave up before the new address space was switched to or is undone from there.
inductive Outcome (permits : Nat → Prop) (k : Kernel) (blocks : List Block) (ring others : List Nat)
    (switched equipped : Prop) : Bool × Kernel → List Event → Prop where
  | refused (early : ¬ switched) (undone : Undone k after k.sched.frames k.mem blocks (ring++others)) (once : FreedOnce trace)
      (plain : ∀ a b c d,Event.map a b c d ∉ trace) : Outcome permits k blocks ring others switched equipped (false,after) trace
  | failed {base whole : Mmu} {prog : Program} (started : switched) (short : ¬ equipped) (begun : Begun k.mmu base)
      (loads : Loads permits base whole own) (perm : own.Perm (numbers (addrs++holdings prog))) (dir : prog.pageDir = base.active)
      (asked : ∀ e ∈ maps,Asked permits base e)
      (undone : Undone k after (freeAll whole.frames (addrs++unloadAddrs whole prog)) whole.mem blocks (ring++others)) :
      Outcome permits k blocks ring others switched equipped (false,after)
        (maps++freeTrace whole.frames (addrs++unloadAddrs whole prog))
  | launched {base whole : Mmu} {prog : Program} (started : switched) (fresh : k.sched.nextId ≠ 0) (begun : Begun k.mmu base)
      (draft : Drafted permits base whole prog) (asked : ∀ e ∈ trace,Asked permits base e) (free : freeSlot k = some slot)
      (launched : Launched k after whole prog slot t start blocks ring others) :
      Outcome permits k blocks ring others switched equipped (true,after) trace

-- The task was made, and under id 0, which loader_run takes for a refusal: the program is
-- unloaded, the task stays.
structure Stranded (permits : Nat → Prop) (k : Kernel) (switched equipped : Prop) (answer : Bool × Kernel)
    (trace : List Event) :
    Prop where
  started : switched
  wrapped : k.sched.nextId = 0
  ready : equipped
  failed : answer.1 = false
  unloaded : ∃ base whole prog start maps,Begun k.mmu base ∧ Drafted permits base whole prog ∧
    start+stackFrames ≤ whole.frames.totalFrames ∧
    (∀ frame,start ≤ frame → frame < start+stackFrames → frameTest whole.frames frame = false) ∧
    answer.2.sched.frames = freeAll (claimRun whole.frames start stackFrames) (unloadAddrs whole prog) ∧
    trace = maps++freeTrace (claimRun whole.frames start stackFrames) (unloadAddrs whole prog) ∧ ∀ e ∈ maps,Asked permits base e

variable {k after : Kernel} {h : Host} {blocks : List Block} {ring others : List Nat} {permits : Nat → Prop}
  {switched equipped : Prop}

theorem undone_same (sane : Sane k blocks ring others) : Undone k k k.sched.frames k.mem blocks (ring++others) :=
  ⟨rfl,rfl,rfl,rfl,_,_,rfl,sane.heap⟩

-- What unload gives back can be read off the tables and the record.
theorem unloadAddrs_same {m now : Mmu} (mem : now.mem = m.mem) (image : now.image = m.image)
    (entries : now.kernelPdEntries = m.kernelPdEntries) (prog : Program) (entry : Nat) (inUse : Bool) :
    unloadAddrs now {prog with entry:=entry,inUse:=inUse} = unloadAddrs m prog := by
  unfold unloadAddrs tableAddrs
  rw [mem,image,entries]
  rfl

theorem joined_task {s before : Sched} (joined : Joined before s ring others t start arg exit) :
    stackAddrs (s.tasks t) = runAddrs (start*pageSize) stackFrames ∧ (s.tasks t).arg = arg ∧ (s.tasks t).onExit = exit := by
  obtain ⟨bottom,rest⟩ := Prod.mk.inj joined.will
  obtain ⟨count,rest⟩ := Prod.mk.inj rest
  obtain ⟨argument,function⟩ := Prod.mk.inj rest
  exact ⟨by rw [stackAddrs,bottom,count],argument,function⟩

theorem freeSlot_unused (free : freeSlot k = some slot) : slot < maxPrograms ∧ (k.programs slot).inUse = false := by
  unfold freeSlot at free
  exact ⟨List.mem_range.mp (List.mem_of_find?_eq_some free),by simpa using List.find?_some free⟩

-- The heap may be another one with the same blocks.
theorem undone_heap {heap : Kheap.Heap} (undone : Undone (k.setHeap heap) after frames mem blocks live) :
    Undone k after frames mem blocks live := by
  obtain ⟨image,entries,programs,same,other,directory,sched,held⟩ := undone
  exact ⟨image,entries,programs,same,other,directory,sched,held⟩

theorem outcome_heap {heap : Kheap.Heap}
    (outcome : Outcome permits (k.setHeap heap) blocks ring others switched equipped answer trace) :
    Outcome permits k blocks ring others switched equipped answer trace := by
  cases outcome with
  | refused early undone once plain => exact .refused early (undone_heap undone) once plain
  | failed started short begun loads perm dir asked undone =>
    exact .failed started short begun loads perm dir asked (undone_heap undone)
  | launched started fresh begun draft asked free launched =>
    obtain ⟨image,entries,mem,programs,⟨other,directory,joined⟩,held⟩ := launched
    exact .launched started fresh begun draft asked free ⟨image,entries,mem,programs,⟨other,directory,joined⟩,held⟩

-- Where the file's buffer was there is room for the task.
theorem held_room {heap : Kheap.Heap} (held : Held .i386 heap blocks live)
    (given : (Kheap.kmalloc .i386 heap maxProgram).1 ≠ 0) :
    ∃ block ∈ blocks,Fits (Kheap.alignUp .i386 sizeofTask) block := by
  rcases KheapRequests.kmalloc_search held (show maxProgram ≠ 0 by decide) with ⟨_,refused⟩ | ⟨front,block,back,rfl,_,fits,_⟩
  · rw [refused] at given
    exact absurd rfl given
  · have smaller : Kheap.alignUp .i386 sizeofTask ≤ Kheap.alignUp .i386 maxProgram := by decide
    exact ⟨block,by simp,fits.1,Nat.le_trans smaller fits.2⟩

theorem task_fits {heap : Kheap.Heap} (held : Held .i386 heap blocks live)
    (room : ∃ block ∈ blocks,Fits (Kheap.alignUp .i386 sizeofTask) block) :
    (Kheap.kmalloc .i386 heap sizeofTask).1 ≠ 0 := by
  obtain ⟨block,member,fits⟩ := room
  rcases KheapRequests.kmalloc_search held (show sizeofTask ≠ 0 by decide) with ⟨none,_⟩ | ⟨front,_,_,_,_,_,taken⟩
  · exact absurd fits (none block member)
  · have started := held.started
    rw [taken]
    simp only [payloadOf]
    omega

theorem runFile_ends (sane : Sane k blocks ring others) (free : freeSlot k = some slot) (fits : CopiesFit file)
    (permitted : Permits permits file size) (room : ∃ block ∈ blocks,Fits (Kheap.alignUp .i386 sizeofTask) block) (freed : Memory)
    (args : Option CString) :
    Outcome permits k blocks ring others (Executable file size ∧ (pagingCreateAddressSpace k.mmu).1 ≠ 0)
        (Equipped k.mmu file size args) (runFile k slot file freed size args) (runFileTrace k slot file freed size args) ∨
      Stranded permits k (Executable file size ∧ (pagingCreateAddressSpace k.mmu).1 ≠ 0) (Equipped k.mmu file size args)
        (runFile k slot file freed size args) (runFileTrace k slot file freed size args) := by
  have nothing : FreedOnce [] := ⟨fun _ _ member => absurd member List.not_mem_nil,List.nodup_nil⟩
  have came := loadImage_came sane.kernel sane.zero sane.complete fits permitted args
  obtain ⟨_,unused⟩ := freeSlot_unused free
  unfold runFile runFileTrace
  split
  · rename_i bad
    exact .inl (.refused (fun both => (executable_iff ..).mp both.1 bad) (undone_same sane) nothing
      fun _ _ _ _ => List.not_mem_nil)
  rename_i good
  have good := (executable_iff ..).mpr good
  generalize imageTrace k.mmu file size args = trace at *
  generalize image : loadImage k.mmu file size args = answer at *
  cases came with
  | refused none once plain =>
    dsimp only
    rw [List.append_nil]
    exact .inl (.refused (fun both => both.2 none) ⟨rfl,rfl,rfl,rfl,_,_,rfl,sane.heap⟩ once plain)
  | failed begun loads perm dir asked =>
    have kept := (loads_accounted begun.accounted begun.zero loads).2
    have short : ¬ Equipped k.mmu file size args := fun ready => by
      rw [Equipped,image] at ready
      cases ready.1
    dsimp only
    rw [List.append_nil]
    exact .inl (.failed ⟨good,begun.made⟩ short begun loads perm dir asked
      ⟨rfl,kept.entries.trans begun.kept.2,rfl,rfl,_,_,rfl,sane.heap⟩)
  | @loaded _ base whole prog begun draft asked =>
    obtain ⟨own,loads,perm⟩ := draft.loads
    obtain ⟨accounted,kept⟩ := loads_accounted begun.accounted begun.zero loads
    have image_ := kept.image.trans begun.kept.1
    have entries := kept.entries.trans begun.kept.2
    have valid : Ring {k.sched with frames:=whole.frames,directory:=k.image.kernelPdpt} ring others := {sane.valid with}
    have created := create_outcome valid sane.running sane.heap accounted.space.sound (kept.taken 0 begun.zero) prog.pageDir
      (programAddr slot) Loader.programCleanup
    dsimp only
    generalize named : setProgram (k.setMmu {whole with active:=k.mmu.image.kernelPdpt}) slot
      {prog with entry:=elfEntry freed,inUse:=true} = ready
    have begins : ready.sched = {k.sched with frames:=whole.frames,directory:=k.image.kernelPdpt} := by rw [←named]; rfl
    -- what unload gives back once the task was asked for
    have given : ∀ sched : Sched,unloadAddrs ({ready with sched:=sched} : Kernel).mmu {prog with entry:=elfEntry freed,inUse:=true} =
        unloadAddrs whole prog := by
      intro sched
      refine unloadAddrs_same ?_ ?_ ?_ prog (elfEntry freed) true
      · rw [←named]; rfl
      · rw [←named]; exact image_.symm
      · rw [←named]; rfl
    rw [begins]
    generalize taskCreateEx _ _ _ _ = answer at *
    obtain ⟨id,sched⟩ := answer
    dsimp only at *
    rcases created with ⟨heap,refused,held,lacking⟩ | ⟨stacked,t,start,numbered,joined,held⟩
    · cases refused
      have short : ¬ Equipped k.mmu file size args := fun ready => by
        rw [Equipped,image] at ready
        exact lacking.elim (task_fits sane.heap room) ready.2
      rw [if_pos rfl,if_pos rfl]
      generalize back : ({ready with sched:={k.sched with frames:=whole.frames,directory:=k.image.kernelPdpt,heap:=heap}} : Kernel).mmu = now
      have same := given {k.sched with frames:=whole.frames,directory:=k.image.kernelPdpt,heap:=heap}
      rw [back] at same
      have frames : now.frames = whole.frames := by rw [←back]; rfl
      rw [unloadTrace,unload_frees,same,frames]
      have record : own.Perm (numbers ([]++holdings prog)) := perm
      refine .inl (.failed ⟨good,begun.made⟩ short begun loads record draft.dir asked ⟨?_,?_,?_,?_,heap,now.active,rfl,held⟩)
      · rw [←named]; rfl
      · rw [←back,←named]; exact entries
      · rw [←named,setProgram]
        change Function.update (Function.update k.programs slot _) slot {} = _
        rw [Function.update_idem,←sane.blank slot unused,Function.update_eq_self]
      · rw [←back,←named]; rfl
    · by_cases wrapped : k.sched.nextId = 0
      · have ready_ : Equipped k.mmu file size args := by
          rw [Equipped,image]
          exact ⟨rfl,stacked⟩
        rw [if_pos (by rw [numbered]; exact wrapped),if_pos (by rw [numbered]; exact wrapped),unloadTrace,unload_frees,given]
        have frames : ({ready with sched:=sched} : Kernel).mmu.frames = claimRun whole.frames start stackFrames := joined.frames
        rw [frames]
        exact .inr ⟨⟨good,begun.made⟩,wrapped,ready_,rfl,base,whole,prog,start,trace,begun,draft,joined.fits,joined.clear,
          rfl,rfl,asked⟩
      · rw [if_neg (by rw [numbered]; exact wrapped),if_neg (by rw [numbered]; exact wrapped),List.append_nil]
        refine .inl (@Outcome.launched _ _ _ _ _ _ _ _ _ _ t start _ _ _ ⟨good,begun.made⟩ wrapped begun draft asked free ?_)
        refine ⟨?_,?_,?_,⟨elfEntry freed,?_⟩,⟨_,_,joined⟩,held⟩
        · rw [←named]; rfl
        · rw [←named]; exact entries
        · rw [←named]; rfl
        · rw [←named]; rfl

-- The file was read and its image loaded, and there is a stack for the task.
def Prepared (k : Kernel) (name : CString) (args : Option CString) : Prop :=
  ∃ size file,fileIn k name = some (size,file) ∧ Equipped k.mmu file size args

theorem loaderRun_ends (sane : Sane k blocks ring others) (name : CString) (args : Option CString)
    (fits : ∀ size file,fileIn k name = some (size,file) → CopiesFit file ∧ Permits permits file size) :
    Outcome permits k blocks ring others (Switches k name) (Prepared k name args) (loaderRun k name args) (loaderTrace k name args) ∨
      Stranded permits k (Switches k name) (Prepared k name args) (loaderRun k name args) (loaderTrace k name args) := by
  have nothing : FreedOnce [] := ⟨fun _ _ member => absurd member List.not_mem_nil,List.nodup_nil⟩
  have plain : ∀ a b c d,Event.map a b c d ∉ ([] : List Event) := fun _ _ _ _ => List.not_mem_nil
  unfold loaderRun loaderTrace
  generalize found : freeSlot k = answer
  cases answer with
  | none => exact .inl (.refused (fun switches => switches.1 found) (undone_same sane) nothing plain)
  | some slot =>
    obtain ⟨_,unused⟩ := freeSlot_unused found
    have cleared : setProgram k slot {} = k := by
      rw [setProgram,←sane.blank slot unused,Function.update_eq_self]
    have unread : fileIn k name = none → ¬ Switches k name := by
      rintro none ⟨_,⟨_,_,read,_⟩,_⟩
      rw [none] at read
      cases read
    dsimp only
    rw [cleared]
    by_cases given : (kmalloc .i386 k.sched.heap maxProgram).1 = 0
    · have refused : kmalloc .i386 k.sched.heap maxProgram = (0,k.sched.heap) :=
        (held_kmalloc sane.heap maxProgram).resolve_right fun taken => taken.1 given
      have early := unread (if_pos given)
      rw [if_pos given,if_pos given,refused]
      exact .inl (.refused early (undone_same sane) nothing plain)
    rw [if_neg given,if_neg given]
    have returned := held_buffer sane.heap given
    have room := held_room sane.heap given
    have read : fileIn k name = (fsRead k.fs name maxProgram).map fun file =>
        (file.1,buffer {(kmalloc .i386 k.sched.heap maxProgram).2 with
          mem:=patch (kmalloc .i386 k.sched.heap maxProgram).2.mem (kmalloc .i386 k.sched.heap maxProgram).1 file.2.length
            fun i => file.2.getD i 0#8} (kmalloc .i386 k.sched.heap maxProgram).1) := if_neg given
    generalize kmalloc .i386 k.sched.heap maxProgram = answer at *
    obtain ⟨ptr,heap⟩ := answer
    dsimp only at *
    have fs : (k.setHeap heap).fs = k.fs := rfl
    rw [fs]
    generalize answered : fsRead k.fs name maxProgram = answer at *
    cases answer with
    | none =>
      have back := returned [] (Nat.zero_le _)
      rw [List.length_nil,patch_nothing] at back
      exact .inl (.refused (unread read) ⟨rfl,rfl,rfl,rfl,_,_,rfl,back⟩ nothing plain)
    | some answer =>
      obtain ⟨size,bytes⟩ := answer
      have back := returned bytes (fsRead_short answered)
      rw [Option.map_some] at read
      dsimp only at read ⊢
      generalize {heap with mem:=patch heap.mem ptr bytes.length fun i => bytes.getD i 0#8} = filled at *
      obtain ⟨copies,permitted⟩ := fits _ _ read
      have ready : Sane (k.setHeap (kfree .i386 filled ptr).2) blocks ring others :=
        ⟨sane.kernel,sane.zero,sane.complete,{sane.valid with heap:=⟨blocks,back⟩},sane.running,back,sane.blank⟩
      -- which file it is, is settled
      have switches : Switches k name = (Executable (buffer filled ptr) size ∧ (pagingCreateAddressSpace k.mmu).1 ≠ 0) := by
        rw [Switches,read,found]
        simp
      have prepared : Prepared k name args = Equipped k.mmu (buffer filled ptr) size args := by
        rw [Prepared,read]
        simp
      rw [switches,prepared]
      rcases runFile_ends ready found copies permitted room (buffer (kfree .i386 filled ptr).2 ptr) args with outcome | stranded
      · exact .inl (outcome_heap outcome)
      · obtain ⟨started,wrapped,equipped,failed,unloaded⟩ := stranded
        exact .inr ⟨started,wrapped,equipped,failed,unloaded⟩

theorem loaderRun_outcome (sane : Sane k blocks ring others) (name : CString) (args : Option CString)
    (fits : ∀ size file,fileIn k name = some (size,file) → CopiesFit file ∧ Permits permits file size)
    (fresh : k.sched.nextId ≠ 0) :
    Outcome permits k blocks ring others (Switches k name) (Prepared k name args) (loaderRun k name args) (loaderTrace k name args) :=
  (loaderRun_ends sane name args fits).resolve_right fun stranded => fresh stranded.wrapped

-- The file loader_run reads, if it gets that far, is of a kind.
def FileIs (kind : Memory → Nat → Prop) (k : Kernel) (name : CString) : Prop :=
  ∀ size file,fileIn k name = some (size,file) → kind file size

theorem fileIs_found {kind : Memory → Nat → Prop} {file : Nat × Memory} (found : fileIn k name = some file)
    (good : kind file.2 file.1) : FileIs kind k name := by
  intro size bytes read
  cases Option.some.inj (found.symm.trans read)
  exact good

instance {kind : Memory → Nat → Prop} [∀ file size,Decidable (kind file size)] (k : Kernel) (name : CString) :
    Decidable (FileIs kind k name) :=
  decidable_of_iff (∀ x ∈ fileIn k name,kind x.2 x.1)
    ⟨fun all size file found => all (size,file) found,fun all x found => all x.1 x.2 found⟩

-- Tasks run, sleep, end in any way and are reaped; nothing is asked of the allocators.
def Settling (h : Host) (call : SchedulerRuns.Call) : Prop := Processes.Allowed h (.call call) ∧ Quiet call
def living : System Host SchedulerRuns.Call :=
  guarded (fun _ => True) Settling fun h call => Processes.apply h (.call call)

-- on_exit touches the frames, the records and CR3.
theorem onExit_rest (k : Kernel) (call : Nat × Nat) :
    ∃ frames directory,(onExit k call).sched = {k.sched with frames:=frames,directory:=directory} := by
  unfold onExit Processes.programCleanup
  split
  · split
    · exact ⟨_,_,rfl⟩
    · exact ⟨_,_,rfl⟩
  · exact ⟨_,_,rfl⟩

theorem exits_rest (k : Kernel) (calls : List (Nat × Nat)) :
    ∃ frames directory,(calls.foldl onExit k).sched = {k.sched with frames:=frames,directory:=directory} := by
  induction calls generalizing k with
  | nil => exact ⟨_,_,rfl⟩
  | cons call calls ih =>
    obtain ⟨frames,directory,here⟩ := onExit_rest k call
    obtain ⟨later,dir,rest⟩ := ih (onExit k call)
    refine ⟨later,dir,?_⟩
    rw [List.foldl_cons,rest,here]

-- A call that takes nothing: some finished tasks are reaped, then their exit functions run.
theorem quiet_parts (valid : Ring h.kernel.sched ring h.others) (running : Running h.kernel.sched)
    (settling : Settling h call) : ∃ dead left s,Course h.kernel.sched s dead ∧ Ring s left h.others ∧ Running s ∧
      ring.Perm (dead++left) ∧ Processes.apply h (.call call) =
        ⟨(dead.filterMap fun t => exitCall (h.kernel.sched.tasks t)).foldl onExit {h.kernel with sched:=s},h.others⟩ := by
  obtain ⟨allowed,quiet⟩ := settling
  obtain ⟨⟨dead,left,course,after,perm,_⟩,same⟩ := call_passes valid running allowed quiet
  obtain ⟨_,_,still⟩ := SchedulerRuns.kept_step (m:=⟨h.kernel.sched,h.others⟩) ⟨ring,valid,running⟩ allowed
  refine ⟨dead,left,_,course,after,still,perm,?_⟩
  unfold Processes.apply settle
  dsimp only
  rw [same,course.exits,List.drop_left]

end Arthic.LoaderOutcomes
