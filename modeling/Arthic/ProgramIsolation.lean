import Arthic.BootedTables
import Arthic.Tenancy

namespace Arthic.ProgramIsolation
open AddressSpaces BootedTables ByteMemory Division FileSystem FrameReturns Kheap KheapBlocks KheapInvariant LoadedImage Loader
  LoaderOutcomes Loading LoaderTraces PageTree PageTables Paging Pmm PointerWindow Processes Scheduler SchedulerRing SyscallSafety
  TableGrowth TaskLifetimes Tenancy Transition Unsigned
variable {k after : Kernel} {h : Host} {blocks : List Block} {ring others : List Nat} {permits : Nat → Prop}

theorem housed_zero (housed : Housed k ring pending) : Taken k.sched.frames 0 := housed.divided.taken .kernel 0 (.inl rfl)

theorem housed_sane (housed : Housed k ring []) (valid : Ring k.sched ring others) (running : Running k.sched)
    (heap : Held .i386 k.sched.heap blocks (ring++others)) : Sane k blocks ring others :=
  ⟨housed.kernel,housed_zero housed,housed.complete,valid,running,heap,housed.blank⟩

-- What a load that failed gives back was not taken before it.
theorem failed_marked {base whole : Mmu} {prog : Program} (begun : Begun k.mmu base) (loads : Loads permits base whole own)
    (perm : own.Perm (numbers (addrs++holdings prog))) (dir : prog.pageDir = base.active) (n : Nat)
    (marked : Marked k.sched.frames n) : Marked (freeAll whole.frames (addrs++unloadAddrs whole prog)) n := by
  obtain ⟨accounted,kept⟩ := loads_accounted begun.accounted begun.zero loads
  have other := begun.other
  rw [←kept.active,←kept.image] at other
  obtain ⟨_,total,tests⟩ := freeAll_parts accounted.space.sound (addrs++unloadAddrs whole prog)
  cases marked with
  | inl outside => exact .inl ((total.trans accounted.total).trans_le outside)
  | inr test =>
    refine .inr ((tests n).mpr ⟨(accounted.marks n).mpr (.inl test),fun _ given => ?_⟩)
    cases (unload_members accounted perm other (dir.trans kept.active.symm) n).mp given with
    | inl mine =>
      have clear := (accounted.fresh n mine).2
      exact absurd (test.symm.trans clear) nofun
    | inr table =>
      obtain ⟨path,table,there,single,_,rfl⟩ := table
      obtain ⟨_,_,clear,_⟩ := accounted.tables path table there single
      exact absurd (test.symm.trans clear) nofun

-- Whatever comes of it, loading writes nothing where frames are taken.
theorem outcome_still (apart : ∀ v < 2^32,permits v → ¬ Shared k.mmu [pdptIndex v,pdIndex v])
    (outcome : Outcome permits k blocks ring others switched equipped answer trace) : Still k.mmu answer.2.mmu := by
  cases outcome with
  | refused _ undone once plain => exact ⟨undone.image,undone.entries,fun x _ => congrFun undone.mem x⟩
  | failed _ _ begun loads perm dir asked undone =>
    have still := loads_still begun loads apart
    exact ⟨undone.image,undone.entries,fun x taken => (congrFun undone.mem x).trans (still.mem x taken)⟩
  | launched _ _ begun draft asked free launched =>
    obtain ⟨own,loads,_⟩ := draft.loads
    have still := loads_still begun loads apart
    exact ⟨launched.image,launched.entries,fun x taken => (congrFun launched.mem x).trans (still.mem x taken)⟩

theorem housed_outcome (housed : Housed k ring []) (valid : Ring k.sched ring others) (running : Running k.sched)
    (apart : ∀ v < 2^32,permits v → ¬ Shared k.mmu [pdptIndex v,pdIndex v])
    (outcome : Outcome permits k blocks ring others switched equipped answer trace) :
    ∃ longer,Ring answer.2.sched longer others ∧ Running answer.2.sched ∧ Housed answer.2 longer [] := by
  have sound := housed.kernel.space.sound
  have still := outcome_still apart outcome
  cases outcome with
  | @refused after trace _ undone once plain =>
    obtain ⟨image,entries,programs,mem,heap,directory,sched,held⟩ := undone
    refine ⟨ring,?_,?_,?_⟩
    · rw [sched]
      exact {valid with heap:=⟨blocks,held⟩}
    · rw [sched]
      exact running
    · refine housed_same housed still programs ?_ ?_ ?_
      · rw [sched]
        exact sound
      · rw [sched]
        exact fun _ _ => rfl
      · rw [sched]
        exact housed.divided.taken
  | @failed own addrs maps after base whole prog _ _ begun loads perm dir asked undone =>
    obtain ⟨image,entries,programs,mem,heap,directory,sched,held⟩ := undone
    have accounted := (loads_accounted begun.accounted begun.zero loads).1
    refine ⟨ring,?_,?_,?_⟩
    · rw [sched]
      exact {valid with heap:=⟨blocks,held⟩}
    · rw [sched]
      exact running
    · refine housed_same housed still programs ?_ ?_ ?_
      · rw [sched]
        exact (freeAll_parts accounted.space.sound _).1
      · rw [sched]
        exact fun _ _ => rfl
      · rw [sched]
        exact fun i n held => failed_marked begun loads perm dir n (housed.divided.taken i n held)
  | @launched trace slot after t start base whole prog _ _ begun draft asked free launched =>
    obtain ⟨image,entries,mem,programs,⟨heap,directory,joined⟩,_⟩ := launched
    -- the program is there before its task is
    have installed : Housed {after with sched:={k.sched with heap:=heap,frames:=whole.frames,directory:=directory}} ring
        [(Loader.programCleanup,programAddr slot)] :=
      housed_installed housed begun draft apart free image entries mem rfl programs fun _ => rfl
    refine housed_joined installed joined ?_
    rw [joined_duties joined,owed,if_pos rfl]
    exact (duties_waiting _ ring (programAddr slot) []).symm

-- No program is loaded yet, and the identity map ends at or below the window of programs.
structure Begins (kernelEnd : Nat) (mbi : MultibootInfo) (h : Host) : Prop where
  started : Processes.Started kernelEnd mbi h
  prepared : Prepared h.kernel.mmu
  blank : ∀ slot,h.kernel.programs slot = {}
  window : h.kernel.kernelPdEntries ≤ 256

-- Segment copies stay inside their frames. Only loader.c passes program_cleanup to
-- task_create_ex, and other code gives back no frame of the kernel's tables, a program or a
-- task.
def Presumed (h : Host) : Act → Prop
  | .loaderRun name _ => FileIs (fun file _ => CopiesFit file) h.kernel name
  | .files _ => True
  | .call (.taskCreateEx _ _ onExit) => onExit ≠ Loader.programCleanup
  | .call (.frames next) => Sound next ∧
      ∀ ring,Ring h.kernel.sched ring h.others → ∀ i n,holds h.kernel ring i n → Marked next n
  | .call call => Processes.Allowed h (.call call)

-- No page of a segment that load_segment accepts lies where the kernel's tables are shared.
def Unshared (m : Mmu) (file : Memory) (size : Nat) : Prop :=
  ∀ ph ∈ admits file size,∀ i < ph.pages,
    ¬ Shared m [pdptIndex (wrap 32 (ph.pageStart+i*pageSize)),pdIndex (wrap 32 (ph.pageStart+i*pageSize))]

def Clean (h : Host) : Act → Prop
  | .loaderRun name _ => FileIs (Unshared h.kernel.mmu) h.kernel name ∧ h.kernel.sched.nextId ≠ 0
  | _ => True

def presuming (kernelEnd : Nat) (mbi : MultibootInfo) : System Host Act :=
  guarded (Begins kernelEnd mbi) Presumed Processes.apply

def isolating (kernelEnd : Nat) (mbi : MultibootInfo) : System Host Act :=
  guarded (Begins kernelEnd mbi) (fun h act => Presumed h act ∧ Clean h act) Processes.apply

def Kept (h : Host) : Prop :=
  ∃ ring,Ring h.kernel.sched ring h.others ∧ Running h.kernel.sched ∧ Housed h.kernel ring []

-- Stack and argument page lie above the kernel's part of the directory.
theorem window_unshared (few : k.kernelPdEntries ≤ 256) (unshared : Unshared k.mmu file size) :
    Permits (fun v => ¬ Shared k.mmu [pdptIndex v,pdIndex v]) file size := by
  have above : ∀ v,256 ≤ pdIndex v → ¬ Shared k.mmu [pdptIndex v,pdIndex v] := by
    rintro v high ⟨j,below,same⟩
    have index := (List.cons_eq_cons.mp (List.cons_eq_cons.mp same).2).1
    change j < k.kernelPdEntries at below
    omega
  refine ⟨unshared,?_,above _ (by decide)⟩
  intro i below
  refine above _ ?_
  have few : i < 2 := below
  rw [wrap_small (by simp only [stackBottom,userStackTop,userStackSize,pageSize]; omega)]
  simp only [pdIndex,tableEntries,stackBottom,userStackTop,userStackSize,pageSize]
  omega

-- No task is reaped, so no exit function runs.
theorem settle_none (k : Kernel) : settle k k.sched.exits.length = k := by
  unfold settle
  rw [List.drop_length]
  rfl

theorem quiet_kept (kept : Kept h) (settling : Settling h call) : Kept (Processes.apply h (.call call)) := by
  obtain ⟨ring,valid,running,housed⟩ := kept
  obtain ⟨dead,left,s,course,next,still,perm,answer⟩ := quiet_parts valid running settling
  have settled := housed_exits (housed_reaped housed valid.distinct course perm)
  obtain ⟨frames,directory,rest⟩ := exits_rest {h.kernel with sched:=s} (dead.filterMap fun t => exitCall (h.kernel.sched.tasks t))
  rw [answer]
  refine ⟨left,?_,?_,settled⟩
  · rw [rest]
    exact {next with}
  · rw [rest]
    exact still

theorem load_outcome (housed : Housed h.kernel ring []) (valid : Ring h.kernel.sched ring h.others) (running : Running h.kernel.sched)
    (presumed : Presumed h (.loaderRun name args)) (clean : Clean h (.loaderRun name args)) :
    ∃ blocks,Outcome (fun v => ¬ Shared h.kernel.mmu [pdptIndex v,pdIndex v]) h.kernel blocks ring h.others
      (Switches h.kernel name) (Prepared h.kernel name args) (loaderRun h.kernel name args) (loaderTrace h.kernel name args) := by
  obtain ⟨blocks,heap⟩ := valid.heap
  have permitted : ∀ size file,fileIn h.kernel name = some (size,file) →
      CopiesFit file ∧ Permits (fun v => ¬ Shared h.kernel.mmu [pdptIndex v,pdIndex v]) file size :=
    fun size file found => ⟨presumed size file found,window_unshared housed.few (clean.1 size file found)⟩
  exact ⟨blocks,loaderRun_outcome (housed_sane housed valid running heap) name args permitted clean.2⟩

theorem load_kept (kept : Kept h) (name : CString) (args : Option CString) (presumed : Presumed h (.loaderRun name args))
    (clean : Clean h (.loaderRun name args)) : Kept (Processes.apply h (.loaderRun name args)) := by
  obtain ⟨ring,valid,running,housed⟩ := kept
  obtain ⟨_,outcome⟩ := load_outcome housed valid running presumed clean
  exact housed_outcome housed valid running (fun _ _ => id) outcome

theorem settle_quiet {s : Sched} (same : s.exits = k.sched.exits) : settle {k with sched:=s} k.sched.exits.length = {k with sched:=s} := by
  rw [←same]
  exact settle_none {k with sched:=s}

theorem create_kept (kept : Kept h) (foreign : exit ≠ Loader.programCleanup) :
    Kept (Processes.apply h (.call (.taskCreateEx pageDir arg exit))) := by
  obtain ⟨ring,valid,running,housed⟩ := kept
  obtain ⟨blocks,heap⟩ := valid.heap
  have created := create_outcome valid running heap housed.kernel.space.sound (housed_zero housed) pageDir arg exit
  unfold Processes.apply SchedulerRuns.apply
  dsimp only
  generalize taskCreateEx h.kernel.sched pageDir arg exit = answer at *
  obtain ⟨id,s⟩ := answer
  dsimp only at *
  rcases created with ⟨heap,refused,held,_⟩ | ⟨_,t,start,_,joined,_⟩
  · cases refused
    rw [settle_quiet (k:=h.kernel) (s:={h.kernel.sched with heap:=heap}) rfl]
    exact ⟨ring,{valid with heap:=⟨blocks,held⟩},running,housed_same housed ⟨rfl,rfl,fun _ _ => rfl⟩ rfl
      housed.kernel.space.sound (fun _ _ => rfl) housed.divided.taken⟩
  · rw [settle_quiet joined.rest.1]
    refine housed_joined housed joined ?_
    rw [joined_duties joined,owed,if_neg foreign]
    exact .refl _

theorem frames_kept (kept : Kept h) (presumed : Presumed h (.call (.frames frames))) :
    Kept (Processes.apply h (.call (.frames frames))) := by
  obtain ⟨ring,valid,running,housed⟩ := kept
  unfold Processes.apply SchedulerRuns.apply
  dsimp only
  rw [settle_quiet (k:=h.kernel) (s:={h.kernel.sched with frames:=frames}) rfl]
  exact ⟨ring,{valid with},running,housed_same housed ⟨rfl,rfl,fun _ _ => rfl⟩ rfl presumed.1 (fun _ _ => rfl)
    (presumed.2 ring valid)⟩

theorem heap_kept (kept : Kept h) (allowed : Processes.Allowed h (.call (.heap call))) :
    Kept (Processes.apply h (.call (.heap call))) := by
  obtain ⟨ring,valid,running,housed⟩ := kept
  have heaped := SchedulerRuns.ring_heap valid allowed
  unfold Processes.apply SchedulerRuns.apply SchedulerRuns.applyHeap
  unfold SchedulerRuns.applyHeap at heaped
  dsimp only at *
  generalize KheapRuns.apply .i386 ⟨h.kernel.sched.heap,h.others⟩ call = moved at *
  rw [settle_quiet (k:=h.kernel) (s:={h.kernel.sched with heap:=moved.heap}) rfl]
  exact ⟨ring,heaped,running,housed_same housed ⟨rfl,rfl,fun _ _ => rfl⟩ rfl housed.kernel.space.sound (fun _ _ => rfl)
    housed.divided.taken⟩

theorem kept_step (kept : Kept h) (presumed : Presumed h act) (clean : Clean h act) : Kept (Processes.apply h act) := by
  cases act with
  | loaderRun name args => exact load_kept kept name args presumed clean
  | files fs =>
    obtain ⟨ring,valid,running,housed⟩ := kept
    exact ⟨ring,valid,running,housed_same housed ⟨rfl,rfl,fun _ _ => rfl⟩ rfl housed.kernel.space.sound (fun _ _ => rfl)
      housed.divided.taken⟩
  | call call =>
    cases call with
    | taskCreateEx pageDir arg exit => exact create_kept kept presumed
    | heap call => exact heap_kept kept presumed
    | frames frames => exact frames_kept kept presumed
    | taskSchedule => exact quiet_kept kept ⟨presumed,trivial⟩
    | taskSleep ticks => exact quiet_kept kept ⟨presumed,trivial⟩
    | taskBlock => exact quiet_kept kept ⟨presumed,trivial⟩
    | taskUnblock t => exact quiet_kept kept ⟨presumed,trivial⟩
    | taskKill id => exact quiet_kept kept ⟨presumed,trivial⟩
    | taskExit => exact quiet_kept kept ⟨presumed,trivial⟩
    | taskTerminate => exact quiet_kept kept ⟨presumed,trivial⟩
    | taskSetAddressSpace pageDir => exact quiet_kept kept ⟨presumed,trivial⟩
    | tick => exact quiet_kept kept ⟨presumed,trivial⟩

-- task_init leaves one task, without a stack of its own.
theorem started_alone {m : SchedulerRuns.Machine} (started : SchedulerRuns.Started kernelEnd mbi m)
    (valid : Ring m.sched ring m.others) : ∀ t ∈ ring,stackAddrs (m.sched.tasks t) = [] ∧ duty (m.sched.tasks t) = none := by
  obtain ⟨⟨before,espNow,made,off,_⟩,enabled⟩ := started
  obtain ⟨s,others⟩ := m
  dsimp only at *
  subst made
  have path := valid.path
  have distinct := valid.distinct
  unfold taskInit at *
  generalize kmalloc .i386 before.heap sizeofTask = answer at *
  obtain ⟨root,heap⟩ := answer
  dsimp only at *
  by_cases none : root = 0
  · rw [if_pos none] at enabled
    exact absurd (enabled.symm.trans off) nofun
  rw [if_neg none] at path ⊢
  have alone : ring = [root] := by
    cases ring with
    | nil => exact absurd rfl valid.some
    | cons t rest =>
      obtain ⟨rfl,rest_⟩ := path
      cases rest with
      | nil => rfl
      | cons x rest =>
        have again : x = root := by
          rw [←rest_.1]
          simp [nextOf,setTask]
        subst again
        simp at distinct
  intro t member
  rw [alone] at member
  cases List.mem_singleton.mp member
  simp [setTask,stackAddrs,runAddrs,duty,Loader.programCleanup]

theorem begins_kept (begins : Begins kernelEnd mbi h) : Kept h := by
  obtain ⟨⟨started,active⟩,prepared,blank,window⟩ := begins
  obtain ⟨ring,valid,running⟩ := SchedulerRuns.started_kept started
  have alone := started_alone started valid
  have idle : ∀ slot,(h.kernel.programs slot).inUse = false := by
    intro slot
    rw [blank]
  have nobody : duties h.kernel.sched ring [] = [] := by
    unfold duties
    rw [List.filterMap_nil,List.append_nil,List.filterMap_eq_nil_iff]
    exact fun t member => (alone t member).2
  have only : ∀ i n,holds h.kernel ring i n → i = .kernel ∧ KernelPage h.kernel.mmu n := by
    intro i n held
    cases i with
    | kernel => exact ⟨rfl,held⟩
    | program slot => exact absurd ((idle slot).symm.trans held.1) nofun
    | stack t =>
      obtain ⟨member,frame⟩ := held
      change t ∈ ring at member
      rw [show h.kernel.sched.tasks t = _ from rfl,(alone t member).1] at frame
      cases frame
  refine ⟨ring,valid,running,prepared.kernel,prepared.complete,window,fun slot _ => blank slot,?_,⟨?_,?_⟩,?_,?_⟩
  · intro slot used
    exact absurd ((idle slot).symm.trans used) nofun
  · intro i n held
    obtain ⟨_,page⟩ := only i n held
    rcases page with rfl | ⟨path,table,there,rfl⟩ | ⟨v,low,page,found,user,rfl⟩
    · exact prepared.zero
    · exact prepared.kernel.space.taken path table there
    · exact prepared.opened v low page found user
  · intro i j n first second
    exact (only i n first).1.trans (only j n second).1.symm
  · rw [nobody]
    exact List.nodup_nil
  · intro a
    rw [nobody]
    refine ⟨nofun,?_⟩
    rintro ⟨slot,_,used⟩
    exact absurd ((idle slot).symm.trans used) nofun

theorem runs_kept (path : Reached (isolating kernelEnd mbi) h) : Kept h := by
  apply path.invariant
  · exact fun _ => begins_kept
  · rintro h act after kept ⟨⟨presumed,clean⟩,rfl⟩
    exact kept_step kept presumed clean

-- Who ends a program: the task whose exit function is program_cleanup with its record.
def Ends (k : Kernel) (t slot : Nat) : Prop :=
  (k.sched.tasks t).onExit = Loader.programCleanup ∧ (k.sched.tasks t).arg = programAddr slot

-- A frame that a directory shows to ring 3.
def Reaches (k : Kernel) (root n : Nat) : Prop :=
  ∃ v < 2^32,∃ page,walk k.mem root v = some page ∧ page.user = true ∧ address page.leaf/pageSize = n

-- The records in use are those of the programs that have not been reaped, one task each;
-- their frames are out of reach of everybody else.
structure Isolated (k : Kernel) (ring : List Nat) : Prop where
  recorded : ∀ t ∈ ring,(k.sched.tasks t).onExit = Loader.programCleanup →
    ∃ slot < maxPrograms,Ends k t slot ∧ (k.programs slot).inUse = true
  ended : ∀ slot,(k.programs slot).inUse = true → ∃ t ∈ ring,Ends k t slot ∧ ∀ other ∈ ring,Ends k other slot → other = t
  kernel : ∀ slot,(k.programs slot).inUse = true → ∀ n ∈ numbers (holdings (k.programs slot)),¬ Reaches k k.image.kernelPdpt n
  others : ∀ slot other,slot ≠ other → (k.programs slot).inUse = true → (k.programs other).inUse = true →
    ∀ n ∈ numbers (holdings (k.programs slot)),¬ Reaches k (k.programs other).pageDir n

-- No call of paging_map on the way changes what the kernel or a program in use sees.
def Undisturbed (k : Kernel) (trace : List Event) : Prop :=
  ∀ m v phys flags,.map m v phys flags ∈ trace → ∀ w < 2^32,
    walk (pagingMap m v phys flags).2.mem k.image.kernelPdpt w = walk m.mem k.image.kernelPdpt w ∧
    ∀ slot,(k.programs slot).inUse = true →
      walk (pagingMap m v phys flags).2.mem (k.programs slot).pageDir w = walk m.mem (k.programs slot).pageDir w

theorem duty_ends (k : Kernel) (t slot : Nat) : duty (k.sched.tasks t) = some (programAddr slot) ↔ Ends k t slot := by
  unfold duty Ends
  by_cases cleaner : (k.sched.tasks t).onExit = Loader.programCleanup
  · rw [if_pos cleaner,Option.some.injEq]
    exact ⟨fun arg => ⟨cleaner,arg⟩,And.right⟩
  · rw [if_neg cleaner]
    exact ⟨nofun,fun ends => absurd ends.1 cleaner⟩

-- A page another program or the kernel shows to ring 3 is theirs.
theorem tenant_reaches (housed : Housed k ring []) (used : (k.programs slot).inUse = true)
    (reaches : Reaches k (k.programs slot).pageDir n) : holds k ring .kernel n ∨ holds k ring (.program slot) n := by
  obtain ⟨v,low,page,found,user,rfl⟩ := reaches
  obtain ⟨_,tenant⟩ := housed.tenants slot used
  by_cases shared : Shared k.mmu [pdptIndex v,pdIndex v]
  · have same := tenant.shows v low shared
    exact .inl (.inr (.inr ⟨v,low,page,same.symm.trans found,user,rfl⟩))
  · exact .inr ⟨used,.inl (tenant.leaves v low shared page found)⟩

theorem housed_isolated (housed : Housed k ring []) : Isolated k ring := by
  have duties_ring : duties k.sched ring [] = ring.filterMap fun t => duty (k.sched.tasks t) := by
    rw [duties,List.filterMap_nil,List.append_nil]
  have staffed := housed.staffed
  have single := housed.single
  rw [duties_ring] at staffed single
  refine ⟨?_,?_,?_,?_⟩
  · intro t member cleaner
    have mine : duty (k.sched.tasks t) = some (k.sched.tasks t).arg := if_pos cleaner
    obtain ⟨slot,named,used⟩ := (staffed _).mp (List.mem_filterMap.mpr ⟨t,member,mine⟩)
    exact ⟨slot,(housed.tenants slot used).1,⟨cleaner,named⟩,used⟩
  · intro slot used
    obtain ⟨t,member,mine⟩ := List.mem_filterMap.mp ((staffed (programAddr slot)).mpr ⟨slot,rfl,used⟩)
    refine ⟨t,member,(duty_ends k t slot).mp mine,?_⟩
    intro other there ends
    by_contra different
    have apart := List.pairwise_filterMap.mp single
    have yours := (duty_ends k other slot).mpr ends
    have symmetric : Std.Symm fun a b => ∀ x,duty (k.sched.tasks a) = some x → ∀ y,duty (k.sched.tasks b) = some y → x ≠ y :=
      ⟨fun a b distinct x first y second same => distinct y second x first same.symm⟩
    exact apart.forall there member different _ yours _ mine rfl
  · intro slot used n mine reaches
    have page : holds k ring .kernel n := .inr (.inr reaches)
    exact absurd (housed.divided.single .kernel (.program slot) n page ⟨used,.inl mine⟩) nofun
  · intro slot other different used busy n mine reaches
    cases tenant_reaches housed busy reaches with
    | inl page => exact absurd (housed.divided.single .kernel (.program slot) n page ⟨used,.inl mine⟩) nofun
    | inr page =>
      cases housed.divided.single (.program other) (.program slot) n page ⟨used,.inl mine⟩
      exact different rfl

theorem freeTrace_plain (frames : State 32) (addrs : List Nat) (m : Mmu) (v phys : Nat) (flags : Entry) :
    Event.map m v phys flags ∉ freeTrace frames addrs := by
  induction addrs generalizing frames with
  | nil => exact List.not_mem_nil
  | cons addr addrs ih =>
    intro member
    cases member with
    | tail _ rest => exact ih _ rest

theorem outcome_undisturbed (housed : Housed k ring []) (apart : ∀ v < 2^32,permits v → ¬ Shared k.mmu [pdptIndex v,pdIndex v])
    (outcome : Outcome permits k blocks ring others switched equipped answer trace) : Undisturbed k trace := by
  have asked_same : ∀ base,Begun k.mmu base → ∀ m v phys flags,Asked permits base (.map m v phys flags) → ∀ w < 2^32,
      ∀ root,Space k.mmu root → walk (pagingMap m v phys flags).2.mem root w = walk m.mem root w := by
    rintro base begun m v phys flags ⟨_,own,_,_,_,same,before,later⟩ w low root space
    cases same
    exact (still_walk (loads_still begun later apart) space low).trans (still_walk (loads_still begun before apart) space low).symm
  have spaces : ∀ slot,(k.programs slot).inUse = true → Space k.mmu (k.programs slot).pageDir :=
    fun slot used => (housed.tenants slot used).2.space
  intro m v phys flags member w low
  cases outcome with
  | refused _ undone once plain => exact absurd member (plain m v phys flags)
  | failed _ _ begun loads perm dir asked undone =>
    cases List.mem_append.mp member with
    | inl mapped =>
      have same := asked_same _ begun m v phys flags (asked _ mapped) w low
      exact ⟨same _ housed.kernel.space,fun slot used => same _ (spaces slot used)⟩
    | inr given => exact absurd given (freeTrace_plain _ _ m v phys flags)
  | launched _ _ begun draft asked free launched =>
    have same := asked_same _ begun m v phys flags (asked _ member) w low
    exact ⟨same _ housed.kernel.space,fun slot used => same _ (spaces slot used)⟩

theorem programs_isolated (path : Reached (isolating kernelEnd mbi) h) :
    (∃ ring,Ring h.kernel.sched ring h.others ∧ Isolated h.kernel ring) ∧
    ∀ name args,Presumed h (.loaderRun name args) → Clean h (.loaderRun name args) →
      Undisturbed h.kernel (loaderTrace h.kernel name args) := by
  obtain ⟨ring,valid,running,housed⟩ := runs_kept path
  refine ⟨⟨ring,valid,housed_isolated housed⟩,?_⟩
  intro name args presumed clean
  obtain ⟨_,outcome⟩ := load_outcome housed valid running presumed clean
  exact outcome_undisturbed housed (fun _ _ => id) outcome

instance (m : Mmu) (path : List Nat) : Decidable (Shared m path) := inferInstanceAs (Decidable (∃ j < m.kernelPdEntries,path = [0,j]))
instance (m : Mmu) (file : Memory) (size : Nat) : Decidable (Unshared m file size) :=
  inferInstanceAs (Decidable (∀ ph ∈ admits file size,∀ i < ph.pages,¬ Shared m [_,_]))
instance (h : Host) (name : CString) (args : Option CString) : Decidable (Presumed h (.loaderRun name args)) :=
  inferInstanceAs (Decidable (FileIs _ _ _))
instance (h : Host) (name : CString) (args : Option CString) : Decidable (Clean h (.loaderRun name args)) :=
  inferInstanceAs (Decidable (FileIs _ _ _ ∧ _ ≠ _))

theorem prepared_begins {m : Mmu} (started : Processes.Started kernelEnd mbi h) (same : h.kernel.mmu = m) (prepared : Prepared m)
    (few : m.kernelPdEntries ≤ 256) (blank : ∀ slot,h.kernel.programs slot = {}) : Begins kernelEnd mbi h := by
  subst same
  exact ⟨started,prepared,blank,few⟩

theorem hostOf_begins (fs : Fs) : Begins 0x105000 bootMap (hostOf bootDemo fs) :=
  prepared_begins (hostOf_started bootDemo fs bootDemo_home) (hostOf_mmu bootDemo fs bootDemo_home) bootDemo_prepared
    (by decide +kernel) fun _ => rfl

-- The shell starts the program twice.
def tinyStart : Act := .loaderRun tinyName none
def single : Host := Processes.apply (hostOf bootDemo tinyDisk) tinyStart
def double : Host := Processes.apply single tinyStart

theorem double_ran : ((Presumed (hostOf bootDemo tinyDisk) tinyStart ∧ Clean (hostOf bootDemo tinyDisk) tinyStart) ∧
    Presumed single tinyStart ∧ Clean single tinyStart) ∧
    (double.kernel.programs 0).inUse = true ∧ (double.kernel.programs 1).inUse = true := by
  unfold tinyStart
  decide +kernel

theorem single_reached : Reached (isolating 0x105000 bootMap) single :=
  ⟨_,_,hostOf_begins tinyDisk,Runs.nil.act double_ran.1.1⟩

theorem programs_isolated_small :
    (∃ ring,Ring single.kernel.sched ring single.others ∧ Isolated single.kernel ring) ∧ Undisturbed single.kernel (loaderTrace single.kernel tinyName none) :=
  ⟨(programs_isolated single_reached).1,(programs_isolated single_reached).2 _ _ double_ran.1.2.1 double_ran.1.2.2⟩

-- A segment from 4 KB below 4 GB on, of two pages: the second is page 0, whose table is the
-- kernel's.
def wrapElf : Memory := [(60,4,0xFFFFF000),(72,4,0x2000)].foldl (fun m (addr,width,value) => store m addr width value) tinyElf
def wrapDisk : Fs := {tinyDisk with disk:={tinyDisk.disk with sectors:=fun lba => if lba = 18 then wrapElf else fun _ => 0#8}}
def wrapped : Host := hostOf bootDemo wrapDisk

def remapped (k : Kernel) (v : Nat) : Event → Bool
  | .map m virtual phys flags => (walk (pagingMap m virtual phys flags).2.mem k.image.kernelPdpt v).map Page.leaf ≠
      (walk m.mem k.image.kernelPdpt v).map Page.leaf
  | _ => false

theorem wrapped_ran : Presumed wrapped tinyStart ∧ (loaderTrace wrapped.kernel tinyName none).any (remapped wrapped.kernel 0) = true := by
  unfold tinyStart
  decide +kernel

theorem kernel_page_remapped : ∃ h name args,Reached (presuming 0x105000 bootMap) h ∧ Presumed h (.loaderRun name args) ∧
    ¬ Undisturbed h.kernel (loaderTrace h.kernel name args) := by
  obtain ⟨presumed,some⟩ := wrapped_ran
  refine ⟨wrapped,tinyName,none,⟨_,_,hostOf_begins wrapDisk,.nil⟩,presumed,fun undisturbed => ?_⟩
  obtain ⟨event,member,changed⟩ := List.any_eq_true.mp some
  cases event with
  | map m v phys flags =>
    have same := (undisturbed m v phys flags member 0 (by decide)).1
    simp [remapped,same] at changed
  | free frames addr => cases changed

end Arthic.ProgramIsolation
