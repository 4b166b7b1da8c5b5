import Arthic.SchedulerRing

namespace Arthic.SchedulerRuns
open Scheduler SchedulerRing Linked KheapInvariant Transition Unsigned
variable {s : Sched} {ring others : List Nat}

theorem ring_init (held : Held .i386 s.heap blocks others) (first : s.nextId = 0) (none : s.births = 0)
    (unreaped : s.reaped = []) (started : (taskInit s espNow).enabled = true) (off : s.enabled = false) :
    ∃ ring,Ring (taskInit s espNow) ring others ∧ Running (taskInit s espNow) := by
  unfold taskInit at *
  rcases held_kmalloc held sizeofTask with refused | ⟨nonzero,after,grown⟩
  · rw [refused] at started
    simp [off] at started
  · generalize allocated : Kheap.kmalloc .i386 s.heap sizeofTask = answer at *
    obtain ⟨t,heap⟩ := answer
    dsimp only at *
    rw [if_neg nonzero]
    refine ⟨[t],⟨rfl,?_,by simp,by simp,?_,?_,?_,?_,⟨after,grown⟩,?_,?_⟩,?_⟩
    · refine ⟨rfl,?_⟩
      simp [Linked.Path,nextOf,setTask]
    · intro x member _
      exact List.mem_singleton.mp member
    · exact .inr (by simp [setTask])
    · intro _
      simp [setTask]
    · simp [setTask,first]
    · simp [serialOf,setTask,reapedSerials,unreaped,none]
    · rw [show ({setTask {s with heap:=heap} t _ with
        nextId:=_,current:=_,taskRing:=_,enabled:=_,uctx:=_,births:=_} : Sched).reaped = s.reaped from rfl,unreaped]
      simp
    · simp [Running,setTask]

-- Other kernel code goes on using the heap and the frames. It frees and writes only
-- what it holds itself: nobody but reap frees a task. on_exit is such code, too.
structure Machine where
  sched : Sched
  others : List Nat

inductive Call where
  | taskCreateEx (pageDir arg onExit : Nat)
  | taskSchedule
  | taskSleep (ticks : Nat)
  | taskBlock
  | taskUnblock (t : Nat)
  | taskKill (id : Nat)
  | taskExit
  | taskTerminate
  | taskSetAddressSpace (pageDir : Nat)
  | tick
  | heap (call : KheapRuns.Call)
  | frames (next : Pmm.State 32)

-- task_exit and task_terminate are reached by created tasks only.
def Allowed (m : Machine) : Call → Prop
  | .taskExit => m.sched.current ≠ m.sched.taskRing
  | .taskTerminate => m.sched.current ≠ m.sched.taskRing
  | .heap call => KheapRuns.Allowed .i386 ⟨m.sched.heap,m.others⟩ call
  | _ => True

def applyHeap (m : Machine) (call : KheapRuns.Call) : Machine :=
  let after := KheapRuns.apply .i386 ⟨m.sched.heap,m.others⟩ call
  ⟨{m.sched with heap:=after.heap},after.live⟩

def apply (m : Machine) : Call → Machine
  | .taskCreateEx pageDir arg onExit => {m with sched:=(taskCreateEx m.sched pageDir arg onExit).2}
  | .taskSchedule => {m with sched:=taskSchedule m.sched}
  | .taskSleep ticks => {m with sched:=taskSleep m.sched ticks}
  | .taskBlock => {m with sched:=taskBlock m.sched}
  | .taskUnblock t => {m with sched:=taskUnblock m.sched t}
  | .taskKill id => {m with sched:=(taskKill m.sched id).2}
  | .taskExit => {m with sched:=taskExit m.sched}
  | .taskTerminate => {m with sched:=taskTerminate m.sched}
  | .taskSetAddressSpace pageDir => {m with sched:=taskSetAddressSpace m.sched pageDir}
  | .tick => {m with sched:={m.sched with ticks:=wrap 32 (m.sched.ticks+1)}}
  | .heap call => applyHeap m call
  | .frames next => {m with sched:={m.sched with frames:=next}}

-- task_init that got its record, over a heap in any state the kernel can have brought
-- it to. Until then the variables of task.c are zero.
structure Started (kernelEnd : Nat) (mbi : Pmm.MultibootInfo) (m : Machine) : Prop where
  init : ∃ before espNow,m.sched = taskInit before espNow ∧ before.enabled = false ∧ before.nextId = 0 ∧
    before.births = 0 ∧ before.reaped = [] ∧
    Reached (KheapRuns.allocator .i386 kernelEnd mbi) ⟨before.heap,m.others⟩
  enabled : m.sched.enabled = true

def scheduler (kernelEnd : Nat) (mbi : Pmm.MultibootInfo) : System Machine Call :=
  guarded (Started kernelEnd mbi) Allowed apply

def Kept (m : Machine) : Prop := ∃ ring,Ring m.sched ring m.others ∧ Running m.sched

theorem started_kept (started : Started kernelEnd mbi m) : Kept m := by
  obtain ⟨⟨before,espNow,made,off,first,none,unreaped,heap⟩,enabled⟩ := started
  obtain ⟨sched,others⟩ := m
  dsimp only at *
  subst made
  rcases KheapRuns.runs_kept heap with ⟨blank,_⟩ | ⟨blocks,held⟩
  · exfalso
    change before.heap.heapStart = 0 at blank
    have refused : Kheap.kmalloc .i386 before.heap sizeofTask = (0,before.heap) := by simp [Kheap.kmalloc,blank]
    simp [taskInit,refused,off] at enabled
  · exact ring_init held first none unreaped enabled off

theorem ring_heap (valid : Ring s ring others) (allowed : KheapRuns.Allowed .i386 ⟨s.heap,others⟩ call) :
    Ring (applyHeap ⟨s,others⟩ call).sched ring (applyHeap ⟨s,others⟩ call).others := by
  obtain ⟨blocks,held⟩ := valid.heap
  cases call with
  | kmalloc size =>
    simp only [applyHeap,KheapRuns.apply]
    rcases held_kmalloc held size with refused | ⟨nonzero,after,grown⟩
    · rw [refused]
      exact {valid with heap:=⟨blocks,held⟩}
    · rw [if_neg nonzero]
      exact {valid with heap:=⟨after,held_perm grown List.perm_middle.symm⟩}
  | kfree ptr =>
    have member : ptr ∈ others := allowed
    obtain ⟨_,after,freed⟩ := held_kfree held (List.mem_append_right _ member)
    have foreign : ptr ∉ ring := by
      intro own
      exact (List.nodup_append.mp held.distinct).2.2 ptr own ptr member rfl
    rw [List.erase_append_right _ foreign] at freed
    exact {valid with heap:=⟨after,freed⟩}
  | write addr value =>
    obtain ⟨ptr,member,lower,upper⟩ := allowed
    have written := @KheapRuns.held_write _ _ _ _ _ _ value held (List.mem_append_right _ member) lower upper
    exact {valid with heap:=⟨blocks,written⟩}

theorem kept_step (kept : Kept m) (allowed : Allowed m call) : Kept (apply m call) := by
  obtain ⟨ring,valid,running⟩ := kept
  cases call with
  | taskCreateEx pageDir arg onExit => exact ring_create valid running pageDir arg onExit
  | taskSchedule => exact ring_schedule valid
  | taskSleep ticks => exact ring_sleep valid running ticks
  | taskBlock => exact ring_block valid
  | taskUnblock t => exact ring_unblock valid running t
  | taskKill id => exact ring_kill valid running id
  | taskExit => exact ring_exit valid allowed
  | taskTerminate => exact ring_terminate valid allowed
  | taskSetAddressSpace pageDir =>
    refine ⟨ring,?_,?_⟩
    · simp only [apply,taskSetAddressSpace]
      rw [if_neg (valid.nonzero valid.current)]
      have changed := @ring_setTask _ _ _ _ {m.sched.tasks m.sched.current with pageDir:=pageDir} valid rfl rfl rfl
        (fun _ => rfl) (fun root => by rw [root]; exact valid.idle) (fun _ _ => running)
      exact {changed with}
    · simp only [apply,taskSetAddressSpace]
      rw [if_neg (valid.nonzero valid.current)]
      simpa [Running,setTask] using running
  | tick => exact ⟨ring,{valid with},running⟩
  | heap call => exact ⟨ring,ring_heap valid allowed,running⟩
  | frames next => exact ⟨ring,{valid with},running⟩

theorem runs_kept (path : Reached (scheduler kernelEnd mbi) m) : Kept m := by
  apply path.invariant
  · exact fun _ => started_kept
  · rintro m call next kept ⟨allowed,rfl⟩
    exact kept_step kept allowed

structure Valid (s : Sched) (ring : List Nat) : Prop where
  cycle : Path (nextOf s) s.taskRing ring s.taskRing
  simple : ring.Nodup
  complete : ∀ n,n ∈ ring.map (serialOf s) ↔ n < s.births ∧ n ∉ reapedSerials s
  once : (ring.map (serialOf s)).Nodup
  task0 : s.taskRing ∈ ring
  current : s.current ∈ ring
  running : ∀ t ∈ ring,(s.tasks t).state = .running ↔ t = s.current
  idle : (s.tasks s.taskRing).state = .ready ∨ (s.tasks s.taskRing).state = .running
  reapedFinished : ∀ r ∈ s.reaped,r.record.state = .finished ∧ r.task ≠ r.current ∧ r.task ≠ r.ring
  reapedOnce : (reapedSerials s).Nodup

theorem ring_valid (valid : Ring s ring others) (running : Running s) : Valid s ring := by
  have distinct : (ring.map (serialOf s)++reapedSerials s).Nodup := valid.accounts.nodup_iff.mpr List.nodup_range
  obtain ⟨once,reapedOnce,apart⟩ := List.nodup_append.mp distinct
  refine ⟨valid.path,valid.distinct,?_,once,valid.first,valid.current,?_,valid.idle,valid.reaps,reapedOnce⟩
  · intro n
    have all := valid.accounts.mem_iff (a:=n)
    rw [List.mem_range,List.mem_append] at all
    constructor
    · exact fun here => ⟨all.mp (.inl here),fun gone => apart n here n gone rfl⟩
    · rintro ⟨born,alive⟩
      exact (all.mpr born).resolve_right alive
  · intro t member
    refine ⟨valid.single t member,?_⟩
    rintro rfl
    exact running

theorem ring_stays_valid (path : Reached (scheduler kernelEnd mbi) m) : ∃ ring,Valid m.sched ring := by
  obtain ⟨ring,valid,running⟩ := runs_kept path
  exact ⟨ring,ring_valid valid running⟩

theorem init_enabled (s : Sched) (given : (Kheap.kmalloc .i386 s.heap sizeofTask).1 ≠ 0) :
    (taskInit s espNow).enabled = true := by
  unfold taskInit
  split
  rename_i t heap allocated
  rw [allocated] at given
  dsimp only
  rw [if_neg given]

-- The kernel starts one thread, task 0 waits and then kills it.
def blankSched (heap : Kheap.Heap) : Sched :=
  ⟨fun _ => {},0,0,0,false,0,0,heap,PmmOwnership.smallStart,[],0,0,0,[],0,[]⟩

theorem blank_started {m : KheapRuns.Machine} (heap : Reached (KheapRuns.allocator .i386 kernelEnd mbi) m)
    (given : (Kheap.kmalloc .i386 m.heap sizeofTask).1 ≠ 0) :
    Started kernelEnd mbi ⟨taskInit (blankSched m.heap) 0x200000,m.live⟩ := by
  exact ⟨⟨blankSched m.heap,0x200000,rfl,rfl,rfl,rfl,rfl,heap⟩,init_enabled (blankSched m.heap) given⟩

-- The same on a heap that is written out, for runs that are to be computed.
def freshStart : Machine := ⟨taskInit (blankSched (KheapRuns.freshHeap .i386 0x102000)) 0x200000,[]⟩

theorem freshStart_started : Started 0x101000 KheapRuns.roomyMap freshStart := by
  have heap : Reached (KheapRuns.allocator .i386 0x101000 KheapRuns.roomyMap) ⟨KheapRuns.freshHeap .i386 0x102000,[]⟩ := by
    rw [←KheapRuns.roomyHeap_fresh]
    exact ⟨KheapRuns.roomyHeap,[],KheapRuns.roomyHeap_initial,.nil⟩
  have given : (Kheap.kmalloc .i386 (KheapRuns.freshHeap .i386 0x102000) sizeofTask).1 ≠ 0 := by decide
  exact @blank_started _ _ ⟨KheapRuns.freshHeap .i386 0x102000,[]⟩ heap given

def smallStart : Machine := ⟨taskInit (blankSched KheapRuns.roomyHeap.heap) 0x200000,KheapRuns.roomyHeap.live⟩
def smallCalls : List Call := [.taskCreateEx 0 0 0,.taskBlock,.tick,.taskKill 1]
def smallKilled : Machine := apply (apply (apply (apply smallStart (.taskCreateEx 0 0 0)) .taskBlock) .tick) (.taskKill 1)

theorem refused_live (m : KheapRuns.Machine) (refused : (Kheap.kmalloc .i386 m.heap size).1 = 0) :
    (KheapRuns.apply .i386 m (.kmalloc size)).live = m.live := if_pos refused

theorem kmalloc_length (m : KheapRuns.Machine) (size : Nat) :
    (KheapRuns.apply .i386 m (.kmalloc size)).live.length ≤ m.live.length+1 := by
  simp only [KheapRuns.apply]
  split <;> simp

theorem smallStart_given : (Kheap.kmalloc .i386 KheapRuns.roomyHeap.heap sizeofTask).1 ≠ 0 := by
  intro refused
  have live := KheapRuns.roomyTaken_live
  have none : KheapRuns.roomyHeap.live = [] := rfl
  unfold KheapRuns.roomyTaken at live
  have short := kmalloc_length (KheapRuns.apply .i386 KheapRuns.roomyHeap (.kmalloc 328)) 0xFFFFFFFF
  rw [live,@refused_live 328 _ refused,none] at short
  simp at short

theorem smallKilled_reached : Reached (scheduler 0x101000 KheapRuns.roomyMap) smallKilled := by
  have heap : Reached (KheapRuns.allocator .i386 0x101000 KheapRuns.roomyMap) KheapRuns.roomyHeap :=
    ⟨KheapRuns.roomyHeap,[],KheapRuns.roomyHeap_initial,.nil⟩
  have started := blank_started heap smallStart_given
  have path : Runs (scheduler 0x101000 KheapRuns.roomyMap) smallStart smallCalls smallKilled :=
    (((Runs.nil.act trivial).act trivial).act trivial).act trivial
  exact ⟨smallStart,smallCalls,started,path⟩

theorem ring_stays_valid_small : ∃ ring,Valid smallKilled.sched ring := ring_stays_valid smallKilled_reached

end Arthic.SchedulerRuns
