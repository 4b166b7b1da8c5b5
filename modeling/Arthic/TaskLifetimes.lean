import Arthic.FrameReturns
import Arthic.SchedulerRuns

namespace Arthic.TaskLifetimes
open FrameReturns KheapInvariant PageTables Pmm Scheduler SchedulerRing Unsigned
variable {s after : Sched} {ring others : List Nat}

-- What a task's record says about the end of the task.
def will (record : Task) : Nat × Nat × Nat × Nat := (record.stackBase,record.stackFrames,record.arg,record.onExit)

def stackAddrs (record : Task) : List Nat := runAddrs record.stackBase record.stackFrames
def exitCall (record : Task) : Option (Nat × Nat) := if record.onExit = 0 then none else some (record.onExit,record.arg)

theorem will_same {a b : Task} (same : will a = will b) : stackAddrs a = stackAddrs b ∧ exitCall a = exitCall b := by
  simp only [will,Prod.mk.injEq] at same
  obtain ⟨base,count,arg,onExit⟩ := same
  simp only [stackAddrs,exitCall,base,count,arg,onExit,and_self]

-- What scheduling does to the allocators: the tasks `dead` are reaped in this order, and
-- nothing else is taken or given back.
structure Course (s after : Sched) (dead : List Nat) : Prop where
  wills : ∀ t,will (after.tasks t) = will (s.tasks t)
  frames : after.frames = freeAll s.frames (dead.flatMap fun t => stackAddrs (s.tasks t))
  heap : after.heap = dead.foldl (fun heap t => (Kheap.kfree .i386 heap t).2) s.heap
  exits : after.exits = s.exits++dead.filterMap fun t => exitCall (s.tasks t)
  reaped : after.reaped.map Reaping.task = s.reaped.map Reaping.task++dead

theorem course_trans {middle : Sched} (first : Course s middle dead) (second : Course middle after more) :
    Course s after (dead++more) := by
  have same := fun t => will_same (first.wills t)
  refine ⟨fun t => (second.wills t).trans (first.wills t),?_,?_,?_,?_⟩
  · rw [second.frames,first.frames,List.flatMap_append,freeAll_append]
    simp only [(same _).1]
  · rw [second.heap,first.heap,List.foldl_append]
  · rw [second.exits,first.exits,List.filterMap_append,List.append_assoc]
    simp only [(same _).2]
  · rw [second.reaped,first.reaped,List.append_assoc]

theorem course_quiet (wills : ∀ t,will (after.tasks t) = will (s.tasks t))
    (rest : (after.frames,after.heap,after.exits,after.reaped) = (s.frames,s.heap,s.exits,s.reaped)) : Course s after [] := by
  simp only [Prod.mk.injEq] at rest
  obtain ⟨frames,heap,exits,reaped⟩ := rest
  exact ⟨wills,frames,heap,by rw [exits]; simp,by rw [reaped]; simp⟩

theorem course_refl (s : Sched) : Course s s [] := course_quiet (fun _ => rfl) rfl

theorem setTask_course (s : Sched) (t : Nat) {record : Task} (same : will record = will (s.tasks t)) :
    Course s (setTask s t record) [] := by
  refine course_quiet ?_ rfl
  intro x
  by_cases equal : x = t
  · rw [equal]
    simpa [setTask] using same
  · simp [setTask,equal]

theorem setState_course (s : Sched) (t : Nat) (state : TaskState) : Course s (setState s t state) [] := setTask_course s t rfl

theorem flush_course (s : Sched) (t : Nat) : Course s (taskFlushOutput s t) [] := by
  unfold taskFlushOutput
  split
  · exact course_refl s
  · generalize Function.update (s.tasks t).outBuf (s.tasks t).outLen 0#8 = text
    have quiet := @setTask_course s t {s.tasks t with outBuf:=text,outLen:=0} rfl
    exact ⟨quiet.wills,quiet.frames,quiet.heap,quiet.exits,quiet.reaped⟩

theorem wakeFrom_course (s : Sched) (rounds t : Nat) : Course s (wakeFrom s rounds t) [] := by
  have woken : ∀ (s : Sched) (t : Nat),Course s
      (if (s.tasks t).state = .sleeping ∧ (s.tasks t).wakeTick ≤ s.ticks then setState s t .ready else s) [] := by
    intro s t
    split
    · exact setState_course s t _
    · exact course_refl s
  induction rounds generalizing s t with
  | zero =>
    unfold wakeFrom
    exact woken s t
  | succ rounds ih =>
    have here := woken s t
    unfold wakeFrom
    dsimp only
    generalize (if (s.tasks t).state = .sleeping ∧ (s.tasks t).wakeTick ≤ s.ticks then setState s t .ready else s) = next at *
    split
    · exact here
    · exact course_trans here (ih next _)

theorem freeStack_frees (frames : State 32) (base count : Nat) : freeStack frames base count = freeAll frames (runAddrs base count) := by
  rw [freeStack,freeAll,runAddrs,List.foldl_map]

theorem reap_course (s : Sched) (prev dead : Nat) : Course s (reap s prev dead) [dead] := by
  have linked : Course s (setNext s prev (s.tasks dead).next) [] := setTask_course s prev rfl
  have flushed := course_trans linked (flush_course _ dead)
  unfold reap
  dsimp only
  generalize taskFlushOutput (setNext s prev (s.tasks dead).next) dead = now at *
  obtain ⟨wills,frames,heap,exits,reaped⟩ := flushed
  simp only [List.flatMap_nil,List.foldl_nil,List.filterMap_nil,List.append_nil] at frames heap exits reaped
  change now.frames = s.frames at frames
  obtain ⟨stack,exit⟩ := will_same (wills dead)
  have freed : freeStack now.frames (now.tasks dead).stackBase (now.tasks dead).stackFrames =
      freeAll s.frames (stackAddrs (s.tasks dead)) := by
    rw [freeStack_frees,frames,←stack]
    rfl
  split
  · rename_i silent
    rw [exitCall,if_pos silent] at exit
    refine ⟨wills,?_,?_,?_,?_⟩
    · rw [List.flatMap_singleton]
      exact freed
    · rw [List.foldl_cons,List.foldl_nil,←heap]
    · rw [List.filterMap_cons,←exit,List.filterMap_nil,List.append_nil]
      exact exits
    · rw [List.map_append,reaped]
      rfl
  · rename_i called
    rw [exitCall,if_neg called] at exit
    refine ⟨wills,?_,?_,?_,?_⟩
    · rw [List.flatMap_singleton]
      exact freed
    · rw [List.foldl_cons,List.foldl_nil,←heap]
    · rw [List.filterMap_cons,←exit,List.filterMap_nil,←exits]
    · rw [List.map_append,reaped]
      rfl

theorem switchTo_course (s : Sched) (next : Nat) : Course s (switchTo s next) [] := by
  have exchanging : Course s (exchanged s next) [] := by
    unfold exchanged
    split
    · exact course_trans (setState_course s s.current _) (setState_course _ next _)
    · exact setState_course s next _
  have tasks := (switchTo_parts s next).1
  refine course_quiet (fun t => by rw [tasks]; exact exchanging.wills t) ?_
  unfold switchTo
  dsimp only
  split <;> split <;> split <;> rfl

theorem resume_course (s : Sched) (next : Nat) : Course s (resume s next) [] := by
  unfold resume
  split
  · exact switchTo_course s next
  · split
    · exact course_refl s
    · exact switchTo_course s _

-- The same, with what becomes of the ring.
def Passes (s after : Sched) (ring others : List Nat) : Prop :=
  ∃ dead left,Course s after dead ∧ Ring after left others ∧ ring.Perm (dead++left) ∧
    ∀ t ∈ dead,(after.tasks t).state = .finished

theorem passes_quiet (valid : Ring after ring others) (course : Course s after []) : Passes s after ring others :=
  ⟨[],ring,course,valid,.refl _,List.forall_mem_nil _⟩

theorem passes_after {middle : Sched} (course : Course s middle []) (passes : Passes middle after ring others) :
    Passes s after ring others := by
  obtain ⟨dead,left,more,valid,perm,finished⟩ := passes
  exact ⟨dead,left,course_trans course more,valid,perm,finished⟩

theorem scan_passes (valid : Ring s ring others) (member : scan ∈ ring) (guard : Nat) :
    ∃ dead left,Course s (scanFrom s guard scan).1 dead ∧ Ring (scanFrom s guard scan).1 left others ∧
      ring.Perm (dead++left) ∧ ((scanFrom s guard scan).2 ≠ 0 → (scanFrom s guard scan).2 ∈ left ∧
        (scanFrom s guard scan).2 ≠ (scanFrom s guard scan).1.current) ∧ ∀ t ∈ dead,(s.tasks t).state = .finished := by
  induction guard generalizing s ring scan with
  | zero => exact ⟨[],ring,course_refl s,valid,.refl _,fun found => absurd rfl found,List.forall_mem_nil _⟩
  | succ guard ih =>
    unfold scanFrom
    dsimp only
    split
    · exact ⟨[],ring,course_refl s,valid,.refl _,fun found => absurd rfl found,List.forall_mem_nil _⟩
    · rename_i other
      split
      · rename_i finished
        obtain ⟨rest,reaped,stays,perm⟩ := ring_reap valid member finished other
        obtain ⟨dead,left,course,last,split,chosen,gone⟩ := ih reaped stays
        refine ⟨_::dead,left,course_trans (reap_course s scan _) course,last,perm.trans (split.cons _),chosen,?_⟩
        refine List.forall_mem_cons.mpr ⟨finished,fun t later => ?_⟩
        rw [←(reap_parts s scan (s.tasks scan).next).2.2.1]
        exact gone t later
      · exact ⟨[],ring,course_refl s,valid,.refl _,fun _ => ⟨ring_next valid member,other⟩,List.forall_mem_nil _⟩
      · exact ih valid (ring_next valid member)

-- Whoever is not on the ring is not touched by the switch.
theorem resume_state (valid : Ring s ring others) (chosen : next ≠ 0 → next ∈ ring ∧ next ≠ s.current) (outside : t ∉ ring) :
    ((resume s next).tasks t).state = (s.tasks t).state := by
  have switched : ∀ target ∈ ring,((switchTo s target).tasks t).state = (s.tasks t).state := by
    intro target member
    have other : t ≠ target := fun equal => outside (equal ▸ member)
    have current : t ≠ s.current := fun equal => outside (equal ▸ valid.current)
    rw [(switchTo_parts s target).1,(exchanged_parts s target).2.2.1,if_neg other,if_neg fun both => current both.1]
  unfold resume
  split
  · rename_i found
    exact switched next (chosen found).1
  · split
    · rfl
    · exact switched s.taskRing valid.first

theorem schedule_passes (valid : Ring s ring others) : Passes s (taskSchedule s) ring others := by
  have woken := ring_wakeFrom valid ringGuard s.taskRing
  obtain ⟨dead,left,course,scanned,perm,chosen,gone⟩ := scan_passes woken woken.current ringGuard
  have states := fun t => (scan_state (wakeFrom s ringGuard s.taskRing) ringGuard (wakeFrom s ringGuard s.taskRing).current t).1
  unfold taskSchedule
  rw [if_neg (by simp [valid.enabled,valid.nonzero valid.current])]
  dsimp only [wakeSleepers]
  generalize scanFrom (wakeFrom s ringGuard s.taskRing) ringGuard (wakeFrom s ringGuard s.taskRing).current = answer at *
  obtain ⟨now,next⟩ := answer
  have whole := course_trans (course_trans (wakeFrom_course s ringGuard s.taskRing) course) (resume_course now next)
  rw [List.nil_append,List.append_nil] at whole
  refine ⟨dead,left,whole,(ring_resume scanned chosen).1,perm,?_⟩
  intro t member
  have outside : t ∉ left := by
    intro stays
    exact (List.nodup_append.mp (perm.nodup_iff.mp valid.distinct)).2.2 t member t stays rfl
  rw [resume_state scanned chosen outside]
  exact (states t).trans (gone t member)

-- A task stops itself, by any of the four routes.
theorem stop_passes (valid : Ring s ring others) (created : s.current ≠ s.taskRing) {record : Task}
    (same : {record with state:=(s.tasks s.current).state,wakeTick:=(s.tasks s.current).wakeTick} = s.tasks s.current)
    (stopped : record.state ≠ .running) : Passes s (taskSchedule (setTask s s.current record)) ring others := by
  have fields : record.next = nextOf s s.current ∧ record.id = (s.tasks s.current).id ∧
      record.serial = serialOf s s.current ∧ will record = will (s.tasks s.current) := by
    rw [nextOf,serialOf,←same]
    exact ⟨rfl,rfl,rfl,rfl⟩
  obtain ⟨next,id,serial,wills⟩ := fields
  exact passes_after (setTask_course s s.current wills)
    (schedule_passes (ring_stopped valid created next id serial stopped))

theorem terminate_passes (valid : Ring s ring others) (created : s.current ≠ s.taskRing) :
    Passes s (taskTerminate s) ring others := by
  obtain ⟨_,_,_,_,current,taskRing,_⟩ := flush_same s s.current
  unfold taskTerminate
  rw [if_neg (valid.nonzero valid.current)]
  refine passes_after (flush_course s s.current) ?_
  have flushed := ring_flush valid s.current
  generalize taskFlushOutput s s.current = now at *
  rw [←current,←taskRing] at created
  rw [←current]
  exact stop_passes flushed created rfl nofun

theorem kill_passes (valid : Ring s ring others) (id : Nat) : Passes s (taskKill s id).2 ring others := by
  unfold taskKill
  split
  · exact passes_quiet valid (course_refl s)
  · rename_i named
    dsimp only
    split
    · exact passes_quiet valid (course_refl s)
    · rename_i found
      split
      · exact passes_quiet valid (course_refl s)
      · simp only [not_or] at found
        have created := victim_created valid named found.1
        have killed := @ring_setState _ _ _ .finished (taskById s id) valid nofun (fun root => absurd root created)
          (fun root => absurd root created)
        have marked := setState_course s (taskById s id) .finished
        dsimp only
        split
        · rename_i own
          refine passes_after marked (terminate_passes killed ?_)
          rw [←own]
          exact created
        · exact passes_quiet killed marked

-- Calls that take nothing from the allocators; what they give back are reaped tasks.
def Quiet : SchedulerRuns.Call → Prop
  | .taskSchedule => True
  | .taskSleep _ => True
  | .taskBlock => True
  | .taskUnblock _ => True
  | .taskKill _ => True
  | .taskExit => True
  | .taskTerminate => True
  | .taskSetAddressSpace _ => True
  | .tick => True
  | _ => False

theorem call_passes (valid : Ring s ring others) (running : Running s) (allowed : SchedulerRuns.Allowed ⟨s,others⟩ call)
    (quiet : Quiet call) :
    Passes s (SchedulerRuns.apply ⟨s,others⟩ call).sched ring others ∧
      (SchedulerRuns.apply ⟨s,others⟩ call).others = others := by
  have unchanged := passes_quiet valid (course_refl s)
  cases call with
  | taskSchedule => exact ⟨schedule_passes valid,rfl⟩
  | taskSleep ticks =>
    refine ⟨?_,rfl⟩
    simp only [SchedulerRuns.apply,taskSleep]
    split
    · exact unchanged
    · rename_i created
      simp only [not_or] at created
      exact stop_passes valid created.2.2 rfl fun same => by cases same
  | taskBlock =>
    refine ⟨?_,rfl⟩
    simp only [SchedulerRuns.apply,taskBlock]
    split
    · exact unchanged
    · unfold leave
      split
      · exact schedule_passes valid
      · rename_i created
        exact stop_passes valid created rfl fun same => by cases same
  | taskUnblock t =>
    refine ⟨?_,rfl⟩
    simp only [SchedulerRuns.apply,taskUnblock]
    split
    · rename_i blocked
      exact passes_quiet (ring_woken valid (.inr blocked.2)) (setState_course s t .ready)
    · exact unchanged
  | taskKill id => exact ⟨kill_passes valid id,rfl⟩
  | taskExit =>
    refine ⟨?_,rfl⟩
    simp only [SchedulerRuns.apply,taskExit]
    rw [if_neg (valid.nonzero valid.current)]
    exact stop_passes valid allowed rfl fun same => by cases same
  | taskTerminate => exact ⟨terminate_passes valid allowed,rfl⟩
  | taskSetAddressSpace pageDir =>
    refine ⟨?_,rfl⟩
    simp only [SchedulerRuns.apply,taskSetAddressSpace]
    rw [if_neg (valid.nonzero valid.current)]
    have moved : Course s (setTask s s.current {s.tasks s.current with pageDir:=pageDir}) [] := setTask_course s s.current rfl
    have changed := @ring_setTask _ _ _ _ {s.tasks s.current with pageDir:=pageDir} valid rfl rfl rfl (fun _ => rfl)
      (fun root => by rw [root]; exact valid.idle) (fun _ _ => running)
    exact passes_quiet {changed with} ⟨moved.wills,moved.frames,moved.heap,moved.exits,moved.reaped⟩
  | tick => exact ⟨passes_quiet {valid with} (course_quiet (fun _ => rfl) rfl),rfl⟩
  | taskCreateEx pageDir arg onExit => cases quiet
  | heap call => cases quiet
  | frames next => cases quiet

theorem joined_tasks (different : t ≠ s.current) (heap : Kheap.Heap) (frames : State 32) (record : Task) :
    will ((joined s t heap frames record).tasks t) = will record ∧
    (∀ x,x ≠ t → will ((joined s t heap frames record).tasks x) = will (s.tasks x)) ∧
    ((joined s t heap frames record).tasks (joined s t heap frames record).current).next = t ∧
    ((joined s t heap frames record).tasks t).id = record.id := by
  refine ⟨?_,?_,?_,?_⟩
  · simp [joined,setNext,setTask,will,different]
  · intro x elsewhere
    by_cases current : x = s.current
    · subst current
      simp [joined,setNext,setTask,will,different.symm]
    · simp [joined,setNext,setTask,will,elsewhere,current]
  · simp [joined,setNext,setTask]
  · simp [joined,setNext,setTask,different]

-- A task was made: behind the current one, with a stack that was free and a record that
-- goes back to the heap as it came.
structure Joined (s after : Sched) (ring others : List Nat) (t start arg onExit : Nat) : Prop where
  real : start*pageSize ≠ 0
  fits : start+stackFrames ≤ s.frames.totalFrames
  clear : ∀ frame,start ≤ frame → frame < start+stackFrames → frameTest s.frames frame = false
  frames : after.frames = claimRun s.frames start stackFrames
  new : t ∉ ring
  will : will (after.tasks t) = (start*pageSize,stackFrames,arg,onExit)
  wills : ∀ x,x ≠ t → TaskLifetimes.will (after.tasks x) = TaskLifetimes.will (s.tasks x)
  ring : ∃ longer,Ring after longer others ∧ Running after ∧ longer.Perm (t::ring)
  next : (after.tasks after.current).next = t
  rest : after.exits = s.exits ∧ after.reaped = s.reaped ∧ after.directory = s.directory

theorem create_outcome (valid : Ring s ring others) (running : Running s) (held : Held .i386 s.heap blocks (ring++others))
    (sound : Sound s.frames) (zero : Taken s.frames 0) (pageDir arg onExit : Nat) :
    (∃ heap,taskCreateEx s pageDir arg onExit = (0,{s with heap:=heap}) ∧ Held .i386 heap blocks (ring++others) ∧
      ((Kheap.kmalloc .i386 s.heap sizeofTask).1 = 0 ∨ (pmmAllocFrames s.frames stackFrames).1 = 0)) ∨
    (pmmAllocFrames s.frames stackFrames).1 ≠ 0 ∧ ∃ t start,(taskCreateEx s pageDir arg onExit).1 = s.nextId ∧
      Joined s (taskCreateEx s pageDir arg onExit).2 ring others t start arg onExit ∧
      Held .i386 (Kheap.kfree .i386 (taskCreateEx s pageDir arg onExit).2.heap t).2 blocks (ring++others) := by
  unfold taskCreateEx
  rw [if_neg (by simp [valid.enabled])]
  by_cases given : (Kheap.kmalloc .i386 s.heap sizeofTask).1 = 0
  · have refused := (held_kmalloc held sizeofTask).resolve_right fun taken => taken.1 given
    rw [refused]
    exact .inl ⟨s.heap,rfl,held,.inl rfl⟩
  obtain ⟨after,taken,_,start,back⟩ := held_return held given
  generalize Kheap.kmalloc .i386 s.heap sizeofTask = answer at *
  obtain ⟨t,heap⟩ := answer
  dsimp only at *
  rw [if_neg given]
  have returned := back heap start taken
  have outside : t ∉ ring := fun member => (List.nodup_cons.mp taken.distinct).1 (List.mem_append_left _ member)
  have different : t ≠ s.current := by
    rintro rfl
    exact outside valid.current
  rcases allocFrames_cases sound zero stackFrames with full | ⟨base,real,fits,clear,allocated⟩
  · rw [full]
    exact .inl ⟨_,rfl,returned,.inr rfl⟩
  rw [allocated]
  dsimp only
  rw [if_neg real]
  obtain ⟨own,others_,next,id⟩ := joined_tasks different heap (claimRun s.frames base stackFrames)
    (newTask s (base*pageSize) pageDir arg onExit)
  have longer := @joined_ring _ _ _ _ _ _ valid running different (claimRun s.frames base stackFrames) taken
    (newTask s (base*pageSize) pageDir arg onExit) rfl rfl
  exact .inr ⟨real,t,base,id,⟨real,fits,clear,rfl,outside,own,others_,longer,next,rfl,rfl,rfl⟩,returned⟩

end Arthic.TaskLifetimes
