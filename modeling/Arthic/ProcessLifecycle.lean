import Arthic.LoaderOutcomes
import Arthic.LoaderRehearsal
import Arthic.ProgramImage

namespace Arthic.ProcessLifecycle
open AddressSpaces ByteMemory FileSystem FrameReturns Kheap KheapBlocks KheapInvariant LoadedImage Loader LoaderContents
  LoaderOutcomes LoaderRehearsal Loading LoaderTraces PageTree PageTables Paging Pmm Processes ProgramImage Scheduler SchedulerRing SyscallSafety TableGrowth
  TaskLifetimes Transition Unsigned
variable {k after : Kernel} {h : Host} {blocks : List Block} {ring others : List Nat}

def reapedTasks (s : Sched) : List Nat := s.reaped.map Reaping.task

-- As long as nobody is reaped everything stands.
structure Unchanged (k now : Kernel) : Prop where
  image : now.image = k.image
  entries : now.kernelPdEntries = k.kernelPdEntries
  mem : now.mem = k.mem
  programs : now.programs = k.programs
  frames : now.sched.frames = k.sched.frames
  heap : now.sched.heap = k.sched.heap
  wills : ∀ t,will (now.sched.tasks t) = will (k.sched.tasks t)

-- What reaping task t gives back, its program's frames by program_cleanup.
def reapAddrs (k : Kernel) (t : Nat) : List Nat :=
  stackAddrs (k.sched.tasks t)++unloadAddrs k.mmu (k.programs ((k.sched.tasks t).arg-1))

-- A run from k in which at most t is reaped.
structure Stage (k : Kernel) (others : List Nat) (t : Nat) (h : Host) : Prop where
  same : h.others = others
  ring : ∃ ring,Ring h.kernel.sched ring others ∧ Running h.kernel.sched
  reaped : ∃ dead,reapedTasks h.kernel.sched = reapedTasks k.sched++dead ∧ (dead = [] → Unchanged k h.kernel) ∧
    (dead = [t] → h.kernel.sched.frames = freeAll k.sched.frames (reapAddrs k t) ∧
      h.kernel.sched.heap = (kfree .i386 k.sched.heap t).2)

theorem program_cleaned (k : Kernel) (slot : Nat) :
    (Processes.programCleanup k (programAddr slot)).sched.frames =
      freeAll k.sched.frames (unloadAddrs k.mmu (k.programs slot)) := by
  unfold Processes.programCleanup programAddr
  rw [if_neg (Nat.succ_ne_zero slot),Nat.add_sub_cancel,unload_frees]
  rfl

theorem stage_step (cleaner : exitCall (k.sched.tasks t) = some (Loader.programCleanup,programAddr slot))
    (stage : Stage k others t h) (settling : Settling h call) : Stage k others t (Processes.apply h (.call call)) := by
  obtain ⟨rfl,⟨ring,valid,running⟩,dead,reaped,before,done⟩ := stage
  obtain ⟨more,left,s,course,next,still,_,answer⟩ := quiet_parts valid running settling
  rw [answer]
  obtain ⟨frames,directory,rest⟩ := exits_rest {h.kernel with sched:=s} (more.filterMap fun t => exitCall (h.kernel.sched.tasks t))
  refine ⟨rfl,⟨left,?_,?_⟩,dead++more,?_,?_,?_⟩
  · rw [rest]
    exact {next with}
  · rw [rest]
    exact still
  · rw [rest,←List.append_assoc,←reaped]
    exact course.reaped
  · intro none
    obtain ⟨rfl,rfl⟩ := List.append_eq_nil_iff.mp none
    obtain ⟨image,entries,mem,programs,framesSame,heap,wills⟩ := before rfl
    exact ⟨image,entries,mem,programs,course.frames.trans framesSame,course.heap.trans heap,
      fun t => (course.wills t).trans (wills t)⟩
  · intro one
    rcases List.append_eq_singleton_iff.mp one with ⟨rfl,rfl⟩ | ⟨rfl,rfl⟩
    · have unchanged := before rfl
      have same := will_same (unchanged.wills t)
      have call : exitCall (h.kernel.sched.tasks t) = some (Loader.programCleanup,programAddr slot) := same.2.trans cleaner
      have target : (k.sched.tasks t).arg-1 = slot := by
        unfold exitCall at cleaner
        split at cleaner
        · cases cleaner
        · rw [(Prod.mk.inj (Option.some.inj cleaner)).2,programAddr,Nat.add_sub_cancel]
      have frames := course.frames
      have heap := course.heap
      rw [List.flatMap_singleton,same.1,unchanged.frames] at frames
      rw [List.foldl_cons,List.foldl_nil,unchanged.heap] at heap
      rw [List.filterMap_cons,call] at rest ⊢
      refine ⟨?_,?_⟩
      · change (onExit {h.kernel with sched:=s} (Loader.programCleanup,programAddr slot)).sched.frames = _
        unfold onExit
        rw [if_pos rfl,program_cleaned,reapAddrs,freeAll_append,target]
        change freeAll s.frames (unloadAddrs _ (h.kernel.programs slot)) = _
        rw [frames,unchanged.programs]
        congr 1
        exact unloadAddrs_same (m:=k.mmu) unchanged.mem unchanged.image unchanged.entries (k.programs slot) _ _
      · rw [rest]
        exact heap
    · obtain ⟨frames,heap⟩ := done rfl
      exact ⟨course.frames.trans frames,course.heap.trans heap⟩

theorem stage_runs (cleaner : exitCall (k.sched.tasks t) = some (Loader.programCleanup,programAddr slot))
    (start : Stage k others t origin) (path : Runs living origin calls h) : Stage k others t h := by
  apply path.guarded_invariant _ start
  intro middle call stage settling
  exact stage_step cleaner stage settling

-- The task loader_run makes stands right behind the one that called it.
def newTask (after : Kernel) : Nat := (after.sched.tasks after.sched.current).next

-- What follows a load until its task, and no other, has been reaped.
structure Reaps (after : Kernel) (others : List Nat) (h : Host) : Prop where
  path : ∃ calls,Runs living ⟨after,others⟩ calls h
  reaped : reapedTasks h.kernel.sched = reapedTasks after.sched++[newTask after]

-- The bitmap, the count of used frames and the heap's block list are what they were.
structure Restored (k now : Kernel) (blocks : List Block) (live : List Nat) : Prop where
  frames : now.sched.frames = k.sched.frames
  heap : Held .i386 now.sched.heap blocks live

variable {permits : Nat → Prop} {base whole : Mmu} {prog : Program}

-- All that was taken is in the record.
theorem unload_whole (accounted : Accounted first whole root own) (perm : own.Perm (numbers (holdings prog)))
    (other : root ≠ whole.image.kernelPdpt) (dir : prog.pageDir = root) (sound : Sound first) :
    Returnable whole.frames (unloadAddrs whole prog) ∧
      (freeAll whole.frames (unloadAddrs whole prog) = first ↔ Flat whole.mem root) := by
  have record : own.Perm (numbers ([]++holdings prog)) := perm
  exact unload_parts accounted record other dir sound

theorem returnable_claimed {frames : State 32} (returnable : Returnable frames addrs) (start count : Nat) :
    Returnable (claimRun frames start count) addrs := by
  refine ⟨returnable.distinct,fun frame member => ?_⟩
  obtain ⟨below,used⟩ := returnable.marked frame member
  rw [claimRun_total,claimRun_test (by decide)]
  refine ⟨below,?_⟩
  rw [used,ite_self]

section Launched
variable (begun : Begun k.mmu base) (draft : Drafted permits base whole prog)
  (launched : Launched k after whole prog slot t start blocks ring others)
include begun draft launched

theorem launched_task : newTask after = t ∧ stackAddrs (after.sched.tasks t) = runAddrs (start*pageSize) stackFrames ∧
    exitCall (after.sched.tasks t) = some (Loader.programCleanup,programAddr slot) ∧
    reapAddrs after t = runAddrs (start*pageSize) stackFrames++unloadAddrs whole prog := by
  obtain ⟨_,_,joined⟩ := launched.sched
  obtain ⟨own,loads,_⟩ := draft.loads
  have kept := (loads_accounted begun.accounted begun.zero loads).2
  obtain ⟨stack,arg,exit⟩ := joined_task joined
  obtain ⟨entry,programs⟩ := launched.programs
  refine ⟨joined.next,stack,?_,?_⟩
  · rw [exitCall,exit,arg,if_neg (by decide)]
  · rw [reapAddrs,stack,arg,programAddr,Nat.add_sub_cancel,programs,Function.update_self]
    congr 1
    exact unloadAddrs_same launched.mem (launched.image.trans (kept.image.trans begun.kept.1).symm)
      (launched.entries.trans (kept.entries.trans begun.kept.2).symm) prog entry true

-- Nothing reaping gives back is free then, and nothing is given back twice.
theorem launched_returnable (sound : Sound k.sched.frames) : Returnable after.sched.frames (reapAddrs after (newTask after)) := by
  obtain ⟨new,_,_,addrs⟩ := launched_task begun draft launched
  obtain ⟨_,_,joined⟩ := launched.sched
  obtain ⟨own,loads,perm⟩ := draft.loads
  obtain ⟨accounted,kept⟩ := loads_accounted begun.accounted begun.zero loads
  have other : whole.active ≠ whole.image.kernelPdpt := by
    rw [kept.active,kept.image]
    exact begun.other
  have whole_ := (unload_whole accounted perm other (draft.dir.trans kept.active.symm) sound).1
  obtain ⟨_,still⟩ := returnable_claimed whole_ start stackFrames
  obtain ⟨distinct,marked⟩ := whole_
  have stack : numbers (runAddrs (start*pageSize) stackFrames) = List.range' start stackFrames :=
    runAddrs_numbers (fits_addressable accounted.space.sound joined.fits)
  rw [new,addrs,joined.frames]
  refine ⟨?_,?_⟩
  · rw [numbers,List.map_append]
    refine List.nodup_append.mpr ⟨?_,distinct,?_⟩
    · change (numbers _).Nodup
      rw [stack]
      exact List.nodup_range'
    · rintro frame mine other program rfl
      change frame ∈ numbers _ at mine
      rw [stack,List.mem_range'_1] at mine
      have clear := joined.clear frame mine.1 mine.2
      rw [(marked frame program).2] at clear
      cases clear
  · intro frame member
    rw [numbers,List.map_append,List.mem_append] at member
    rcases member with mine | program
    · change frame ∈ numbers _ at mine
      rw [stack,List.mem_range'_1] at mine
      rw [claimRun_total,claimRun_test (by decide)]
      exact ⟨Nat.lt_of_lt_of_le mine.2 joined.fits,if_pos mine⟩
    · exact still frame program

theorem launched_reaped (reaps : Reaps after others h) : Held .i386 h.kernel.sched.heap blocks (ring++others) ∧
    h.kernel.sched.frames = freeAll after.sched.frames (reapAddrs after (newTask after)) := by
  obtain ⟨new,_,cleaner,_⟩ := launched_task begun draft launched
  obtain ⟨⟨calls,path⟩,reaped⟩ := reaps
  obtain ⟨_,_,joined⟩ := launched.sched
  obtain ⟨longer,valid,running,_⟩ := joined.ring
  have begins : Stage after others t ⟨after,others⟩ :=
    ⟨rfl,⟨longer,valid,running⟩,[],(List.append_nil _).symm,fun _ => ⟨rfl,rfl,rfl,rfl,rfl,rfl,fun _ => rfl⟩,nofun⟩
  obtain ⟨_,_,dead,grown,_,done⟩ := stage_runs cleaner begins path
  rw [reaped,new] at grown
  obtain ⟨frames,heap⟩ := done (List.append_cancel_left grown).symm
  rw [heap,frames,new]
  exact ⟨launched.heap,rfl⟩

theorem launched_flat (sound : Sound k.sched.frames) :
    freeAll after.sched.frames (reapAddrs after (newTask after)) = k.sched.frames ↔ Flat after.mem prog.pageDir := by
  obtain ⟨new,_,_,addrs⟩ := launched_task begun draft launched
  obtain ⟨_,_,joined⟩ := launched.sched
  obtain ⟨own,loads,perm⟩ := draft.loads
  obtain ⟨accounted,kept⟩ := loads_accounted begun.accounted begun.zero loads
  have other : whole.active ≠ whole.image.kernelPdpt := by
    rw [kept.active,kept.image]
    exact begun.other
  have dir := draft.dir.trans kept.active.symm
  have back := claimRun_back accounted.space.sound joined.fits joined.clear
  rw [new,addrs,freeAll_append,joined.frames]
  change freeAll (freeAll (claimRun whole.frames start stackFrames) _) _ = _ ↔ _
  rw [back,launched.mem,dir]
  exact (unload_whole accounted perm other dir sound).2
end Launched

-- No call of pmm_free_frame on the way, nor when the task is reaped, names a frame that is
-- free or was given back before.
structure ReturnedOnce (answer : Bool × Kernel) (trace : List Event) (others : List Nat) : Prop where
  loading : FreedOnce trace
  none : answer.1 = true → freed trace = []
  reaping : answer.1 = true → Returnable answer.2.sched.frames (reapAddrs answer.2 (newTask answer.2))
  exactly : answer.1 = true → ∀ h,Reaps answer.2 others h →
    h.kernel.sched.frames = freeAll answer.2.sched.frames (reapAddrs answer.2 (newTask answer.2))

-- The kernel when loader_run has returned 0, or when the task it made has been reaped.
inductive Ended (answer : Bool × Kernel) (others : List Nat) : Kernel → Prop where
  | refused (failed : answer.1 = false) : Ended answer others answer.2
  | reaped {final : Host} (ran : answer.1 = true) (reaps : Reaps answer.2 others final) : Ended answer others final.kernel

theorem asked_freed {trace : List Event} (asked : ∀ e ∈ trace,Asked permits base e) : freed trace = [] := by
  refine List.filterMap_eq_nil_iff.mpr fun e member => ?_
  obtain ⟨_,_,_,_,_,rfl,_⟩ := asked e member
  rfl

theorem undone_restored (undone : Undone k after frames mem blocks live) (same : frames = k.sched.frames) :
    Restored k after blocks live := by
  obtain ⟨heap,directory,sched,held⟩ := undone.sched
  refine ⟨?_,?_⟩
  · rw [sched]
    exact same
  · rw [sched]
    exact held

theorem outcome_once (sound : Sound k.sched.frames)
    (outcome : Outcome permits k blocks ring others switched equipped answer trace) :
    ReturnedOnce answer trace others := by
  cases outcome with
  | refused _ undone once plain => exact ⟨once,nofun,nofun,nofun⟩
  | failed _ _ begun loads perm dir asked undone =>
    obtain ⟨accounted,kept⟩ := loads_accounted begun.accounted begun.zero loads
    have other := begun.other
    rw [←kept.active,←kept.image] at other
    have returnable := (unload_parts accounted perm other (dir.trans kept.active.symm) sound).1
    exact ⟨once_maps (fun e member => asked_plain (asked e member)) (freeTrace_once returnable),nofun,nofun,nofun⟩
  | launched _ _ begun draft asked free launched =>
    exact ⟨asked_once asked,fun _ => asked_freed asked,fun _ => launched_returnable begun draft launched sound,
      fun _ h reaps => (launched_reaped begun draft launched reaps).2⟩

-- It all comes back if and only if nothing was mapped where paging_destroy_address_space
-- does not look.
theorem outcome_restored (sound : Sound k.sched.frames)
    (outcome : Outcome permits k blocks ring others switched equipped answer trace) (ended : Ended answer others now) :
    Restored k now blocks (ring++others) ↔ (switched → Flat answer.2.mem (pagingCreateAddressSpace k.mmu).1) := by
  cases outcome with
  | refused early undone once plain =>
    cases ended with
    | refused _ => exact iff_of_true (undone_restored undone rfl) fun started => absurd started early
    | reaped ran _ => cases ran
  | failed started _ begun loads perm dir asked undone =>
    cases ended with
    | reaped ran _ => cases ran
    | refused _ =>
      obtain ⟨accounted,kept⟩ := loads_accounted begun.accounted begun.zero loads
      have other := begun.other
      rw [←kept.active,←kept.image] at other
      have back := (unload_parts accounted perm other (dir.trans kept.active.symm) sound).2
      rw [kept.active,begun.dir] at back
      rw [forall_prop_of_true started,undone.mem,←back]
      refine ⟨fun restored => ?_,undone_restored undone⟩
      obtain ⟨heap,directory,sched,_⟩ := undone.sched
      have frames := restored.frames
      rw [sched] at frames
      exact frames
  | launched started _ begun draft asked free launched =>
    cases ended with
    | refused failed => cases failed
    | reaped _ reaps =>
      obtain ⟨heap,frames⟩ := launched_reaped begun draft launched reaps
      have back := launched_flat begun draft launched sound
      rw [draft.dir,begun.dir] at back
      rw [forall_prop_of_true started,←back,←frames]
      exact ⟨fun restored => restored.frames,fun same => ⟨same,heap⟩⟩

-- Where everything is there for a task that has an id, it is launched.
theorem outcome_fresh (outcome : Outcome permits k blocks ring others switched equipped answer trace) (started : switched)
    (ready : equipped) : k.sched.nextId ≠ 0 := by
  cases outcome with
  | refused early undone once plain => exact absurd started early
  | failed _ short begun loads perm dir asked undone => exact absurd ready short
  | launched _ fresh begun draft asked free launched => exact fresh

theorem stranded_unrestored (sound : Sound k.sched.frames) (stranded : Stranded permits k switched equipped answer trace) :
    FreedOnce trace ∧ answer.2.sched.frames ≠ k.sched.frames := by
  obtain ⟨_,_,_,_,base,whole,prog,start,maps,begun,draft,fits,clear,frames,rfl,asked⟩ := stranded
  obtain ⟨own,loads,perm⟩ := draft.loads
  obtain ⟨accounted,kept⟩ := loads_accounted begun.accounted begun.zero loads
  have other := begun.other
  rw [←kept.active,←kept.image] at other
  have returnable := (unload_whole accounted perm other (draft.dir.trans kept.active.symm) sound).1
  refine ⟨once_maps (fun e member => asked_plain (asked e member)) (freeTrace_once (returnable_claimed returnable ..)),fun same => ?_⟩
  -- the first frame of the stack is still marked
  have below : start < start+stackFrames := by simp [stackFrames]
  have free := clear start (Nat.le_refl _) below
  obtain ⟨_,_,tests⟩ := freeAll_parts (claimRun_sound accounted.space.sound fits clear) (unloadAddrs whole prog)
  have marked : frameTest answer.2.sched.frames start = true := by
    rw [frames,tests,claimRun_test (by decide),if_pos ⟨Nat.le_refl _,below⟩]
    refine ⟨rfl,fun _ given => ?_⟩
    rw [(returnable.marked start given).2] at free
    cases free
  rw [same] at marked
  rw [(accounted.marks start).mpr (.inl marked)] at free
  cases free

-- loader_run comes to read the file, and the file is of a kind.
def Reads (kind : Memory → Nat → Prop) (k : Kernel) (name : CString) : Prop :=
  freeSlot k ≠ none ∧ ∃ size file,fileIn k name = some (size,file) ∧ Executable file size ∧ kind file size

theorem reads_found {kind : Memory → Nat → Prop} {file : Nat × Memory} (free : freeSlot k ≠ none)
    (found : fileIn k name = some file) (good : Executable file.2 file.1) (shown : kind file.2 file.1) : Reads kind k name :=
  ⟨free,file.1,file.2,found,good,shown⟩

-- Loading, as far as the frames last, makes a table for an address of 1 GB or above.
def Spills : Kernel → CString → Prop := fun k =>
  Reads (fun file size => Strays (reach (rehearsal k.mmu) (imageSteps file size)).2) k

-- The frames last until the task is made.
def Launches : Kernel → CString → Prop := fun k =>
  Reads (fun file size => Whole file size ∧ (reach (rehearsal k.mmu) (imageSteps file size++[.run stackFrames])).1 = true) k

theorem straight_contained (straight : FileIs (fun file size => ¬ Strays (reach (rehearsal k.mmu) (imageSteps file size)).2) k name) :
    ¬ Spills k name := by
  rintro ⟨_,size,file,found,_,strays⟩
  exact straight size file found strays

theorem low_contained (low : FileIs Low k name) : ¬ Spills k name :=
  straight_contained fun size file found => low_strays (low size file found) k.mmu

theorem spills_switches (spills : Spills k name) : Switches k name := by
  obtain ⟨slot,size,file,found,good,strays⟩ := spills
  refine ⟨slot,⟨size,file,found,good⟩,fun none => ?_⟩
  rw [imageSteps,List.append_assoc,reach_stops (create_fails none)] at strays
  exact space_strays k.mmu strays

theorem launches_switches (launches : Launches k name) : Switches k name := by
  obtain ⟨slot,size,file,found,good,_,lasts⟩ := launches
  refine ⟨slot,⟨size,file,found,good⟩,fun none => ?_⟩
  have short := create_fails none
  rw [imageSteps,List.append_assoc,List.append_assoc,reach_stops short,short] at lasts
  cases lasts

theorem runFile_mem (slot : Nat) (good : Executable file size) (freed : Memory) (args : Option CString) :
    (runFile k slot file freed size args).2.mem = (loadImage k.mmu file size args).2.mem := by
  unfold runFile
  rw [if_neg ((executable_iff ..).mp good)]
  generalize loadImage k.mmu file size args = answer
  obtain ⟨loaded,m⟩ := answer
  cases loaded with
  | none => rfl
  | some prog =>
    dsimp only
    split
    · rw [unload_frees]
      rfl
    · rfl

theorem loaderRun_mem (free : freeSlot k ≠ none) (found : fileIn k name = some (size,file)) (good : Executable file size)
    (args : Option CString) : (loaderRun k name args).2.mem = (loadImage k.mmu file size args).2.mem := by
  unfold loaderRun
  unfold fileIn at found
  generalize freeSlot k = answer at *
  cases answer with
  | none => exact absurd rfl free
  | some slot =>
    have heap : (setProgram k slot {}).sched.heap = k.sched.heap := rfl
    dsimp only at found ⊢
    rw [heap]
    generalize kmalloc .i386 k.sched.heap maxProgram = answer at *
    obtain ⟨ptr,heap⟩ := answer
    dsimp only at found ⊢
    split at found
    · cases found
    rename_i given
    rw [if_neg given]
    have fs : ((setProgram k slot {}).setHeap heap).fs = k.fs := rfl
    rw [fs]
    generalize fsRead k.fs name maxProgram = answer at *
    cases answer with
    | none => cases found
    | some answer =>
      cases Option.some.inj found
      exact runFile_mem slot good _ args

theorem loaderRun_flat (sane : Sane k blocks ring others) (fits : FileIs (fun file _ => CopiesFit file) k name)
    (args : Option CString) :
    (Switches k name → Flat (loaderRun k name args).2.mem (pagingCreateAddressSpace k.mmu).1) ↔ ¬ Spills k name := by
  by_cases switches : Switches k name
  · rw [forall_prop_of_true switches]
    obtain ⟨free,⟨size,file,found,good⟩,made⟩ := switches
    have retraced := @loadImage_retraced k.mmu file size sane.kernel sane.zero sane.complete (fits size file found) made args
    rw [loaderRun_mem free found good args,charts_flat retraced.charts]
    refine not_congr ⟨fun strays => ⟨free,size,file,found,good,strays⟩,?_⟩
    rintro ⟨_,otherSize,other,same,_,strays⟩
    cases Option.some.inj (found.symm.trans same)
    exact strays
  · exact iff_of_true (fun started => absurd started switches) fun spills => switches (spills_switches spills)

theorem prepared_launches (sane : Sane k blocks ring others) (fits : FileIs (fun file _ => CopiesFit file) k name)
    (switches : Switches k name) (args : Option CString) : Prepared k name args ↔ Launches k name := by
  obtain ⟨free,⟨size,file,found,good⟩,made⟩ := switches
  have retraced := @loadImage_retraced k.mmu file size sane.kernel sane.zero sane.complete (fits size file found) made args
  have equipped : Equipped k.mmu file size args ↔
      Whole file size ∧ (reach (rehearsal k.mmu) (imageSteps file size++[.run stackFrames])).1 = true := by
    rw [Equipped,reach_run]
    constructor
    · rintro ⟨loaded,stack⟩
      obtain ⟨reached,whole⟩ := retraced.ends.mp loaded
      exact ⟨whole,reached,by rw [retraced.frames loaded]; exact stack⟩
    · rintro ⟨whole,reached,stack⟩
      have loaded := retraced.ends.mpr ⟨reached,whole⟩
      rw [retraced.frames loaded] at stack
      exact ⟨loaded,stack⟩
  constructor
  · rintro ⟨otherSize,other,same,ready⟩
    cases Option.some.inj (found.symm.trans same)
    exact ⟨free,size,file,found,good,equipped.mp ready⟩
  · rintro ⟨_,otherSize,other,same,_,lasts⟩
    cases Option.some.inj (found.symm.trans same)
    exact ⟨size,file,found,equipped.mpr lasts⟩

theorem lifecycle_ends (sane : Sane k blocks ring others) (fits : FileIs (fun file _ => CopiesFit file) k name)
    (args : Option CString) :
    Outcome (fun _ => True) k blocks ring others (Switches k name) (Prepared k name args) (loaderRun k name args)
      (loaderTrace k name args) ∨
    Stranded (fun _ => True) k (Switches k name) (Prepared k name args) (loaderRun k name args) (loaderTrace k name args) :=
  loaderRun_ends sane name args fun size file found =>
    ⟨fits size file found,fun _ _ _ _ => trivial,fun _ _ => trivial,trivial⟩

theorem ended_restored (sane : Sane k blocks ring others) (fits : FileIs (fun file _ => CopiesFit file) k name)
    (ended : Ended (loaderRun k name args) others now) :
    Restored k now blocks (ring++others) ↔ ¬ Spills k name ∧ ¬ (k.sched.nextId = 0 ∧ Launches k name) := by
  have sound := sane.kernel.space.sound
  rcases lifecycle_ends sane fits args with outcome | stranded
  · rw [outcome_restored sound outcome ended,loaderRun_flat sane fits args]
    refine (and_iff_left ?_).symm
    rintro ⟨wrapped,launches⟩
    have switches := launches_switches launches
    exact outcome_fresh outcome switches ((prepared_launches sane fits switches args).mpr launches) wrapped
  · have failed := stranded.failed
    have launches := (prepared_launches sane fits stranded.started args).mp stranded.ready
    refine iff_of_false ?_ fun both => both.2 ⟨stranded.wrapped,launches⟩
    cases ended with
    | refused _ => exact fun restored => (stranded_unrestored sound stranded).2 restored.frames
    | reaped ran _ =>
      rw [failed] at ran
      cases ran

theorem sane_files (sane : Sane k blocks ring others) (fs : Fs) : Sane {k with fs:=fs} blocks ring others :=
  ⟨sane.kernel,sane.zero,sane.complete,sane.valid,sane.running,sane.heap,sane.blank⟩

theorem boot_sane : ∃ blocks ring,Sane bootKernel blocks ring [] := by
  have header : header .i386 bootHeap 0x108000 = ⟨blockMagic,heapSize-headerSize .i386,1,0,0⟩ := by
    rw [KheapBlocks.header,Header.mk.injEq]
    decide
  have held := KheapRuns.held_single (h:=bootHeap) (t:=.i386) (by decide) rfl header (by decide) (by decide)
  obtain ⟨ring,valid,running⟩ := @SchedulerRuns.ring_init ⟨fun _ => {},0,0,0,false,0,0,bootHeap,bootFrames,[],0,0,0,[],0,[]⟩
    _ _ 0x90000 held rfl rfl rfl (by decide) rfl
  obtain ⟨blocks,heap⟩ := valid.heap
  exact ⟨blocks,ring,boot_ready.kernel,boot_ready.zero,boot_ready.complete,valid,running,heap,fun _ _ => rfl⟩

-- The same machine with other frames taken behind the kernel.
theorem boot_framed {frames : State 32} (sane : Sane bootKernel blocks ring []) (sound : Sound frames)
    (low : ∀ n < 0x108,frameTest frames n = true) (fs : Fs) :
    Sane {bootKernel with fs:=fs,sched:={bootKernel.sched with frames:=frames}} blocks ring [] :=
  ⟨boot_space sound low _,.inr (low 0 (by decide)),sane.complete,{sane.valid with},sane.running,sane.heap,sane.blank⟩

-- A segment of one page below 4 GB, whose end is address 0, and one that is refused: the two
-- tables for the first stay behind.
def leakElf : Memory :=
  [(44,2,2),(56,4,116),(60,4,0xFFFFF000),(72,4,0x1000),(84,4,1),(88,4,116),(92,4,0),(100,4,0),(104,4,4),(108,4,6),
    (116,4,0xFEEB)].foldl (fun m (addr,width,value) => store m addr width value) tinyElf

def leakKernel : Kernel :=
  {bootKernel with fs:={tinyDisk with
    disk:={tinyDisk.disk with sectors:=fun lba => if lba = 18 then leakElf else fun _ => 0#8},
    directory:=store tinyDisk.directory 32 4 120}}

theorem leak_read : (fileIn leakKernel tinyName).isSome = true := by decide +kernel
def leakFile : Nat × Memory := (fileIn leakKernel tinyName).get leak_read

theorem leak_found : fileIn leakKernel tinyName = some leakFile := (Option.some_get leak_read).symm
theorem leak_run : CopiesFit leakFile.2 ∧ Executable leakFile.2 leakFile.1 ∧
    (loaderRun leakKernel tinyName none).1 = false ∧
    Strays (reach (rehearsal leakKernel.mmu) (imageSteps leakFile.2 leakFile.1)).2 := by
  unfold CopiesFit CopyFits Executable
  decide +kernel

-- Two frames are left, which the address space takes: nothing is mapped.
def shortFrames : State 32 := ⟨fun word => if word < 19 then 0xFFFFFFFF#32 else 0x3FFFFFFF#32,640,638⟩
def shortKernel : Kernel := {leakKernel with sched:={leakKernel.sched with frames:=shortFrames}}
theorem short_found : fileIn shortKernel tinyName = some leakFile := leak_found

-- The shell starts the program, kills it and goes on; the next round reaps it.
def tinyLoaded : Kernel := (loaderRun bootKernel tinyName none).2
def tinyEnd : List SchedulerRuns.Call := [.taskKill 1,.taskSchedule]
def tinyReaped : Host := tinyEnd.foldl (fun h call => Processes.apply h (.call call)) ⟨tinyLoaded,[]⟩

theorem tinyEnd_permitted (h : Host) : Permitted Settling (fun h call => Processes.apply h (.call call)) h tinyEnd :=
  ⟨⟨trivial,trivial⟩,⟨trivial,trivial⟩,trivial⟩

theorem tiny_reaps : Reaps tinyLoaded [] tinyReaped :=
  ⟨⟨_,Runs.nil.extend (tinyEnd_permitted _)⟩,by decide +kernel⟩

end Arthic.ProcessLifecycle
