import Arthic.Mutexes
import Arthic.TaskLifetimes

namespace Arthic.WaitQueues
open ByteMemory Scheduler SchedulerRing Pipes Mutexes PipeWakeups Linked Transition TaskLifetimes

-- A wait queue: that of a mutex, or one of the two of a pipe.
inductive Place where
  | mutex (i : Nat)
  | readers (i : Nat)
  | writers (i : Nat)
  deriving DecidableEq

-- Where a task stands between sections of a call. `resting` is the point inside
-- task_block: the task has joined the queue and has not tested the object since.
inductive Control where
  | idle
  | locking (i : Nat) (resting : Bool)
  | writing (i : Nat) (data : List Byte) (sent : Nat) (resting : Bool)
  | reading (i max : Nat) (out : List Byte) (resting : Bool)
  deriving DecidableEq

-- Any number of mutexes and pipes over the real scheduler. `others` are the heap blocks
-- that code outside task.c holds.
structure World where
  sched : Sched
  others : List Nat
  mutexes : Nat → Mutex
  pipes : Nat → Pipe
  control : Nat → Control

def World.ends (w : World) : Place → Nat × Nat
  | .mutex i => ((w.mutexes i).waitHead,(w.mutexes i).waitTail)
  | .readers i => ((w.pipes i).readersHead,(w.pipes i).readersTail)
  | .writers i => ((w.pipes i).writersHead,(w.pipes i).writersTail)

def setControl (w : World) (control : Control) : World :=
  {w with control:=Function.update w.control w.sched.current control}

def setMutex (w : World) (i : Nat) (lock : Mutex) : World := {w with mutexes:=Function.update w.mutexes i lock}
def setPipe (w : World) (i : Nat) (pipe : Pipe) : World := {w with pipes:=Function.update w.pipes i pipe}

-- One section of the current task's call. task_block ends in task_schedule.
def lockStep (w : World) (i : Nat) : World :=
  let (taken,sched,lock) := lockSection w.sched (w.mutexes i)
  {setMutex (setControl w (if taken then .idle else .locking i true)) i lock with
    sched:=if taken then sched else taskSchedule sched}

def writeStep (w : World) (i : Nat) (data : List Byte) (sent : Nat) : World :=
  if sent < data.length then
    let (outcome,sched,pipe) := writeSection w.sched (w.pipes i) (data.getD sent 0#8)
    match outcome with
    | .moved _ => {setPipe (setControl w (.writing i data (sent+1) false)) i pipe with sched:=sched}
    | _ => {setPipe (setControl w (.writing i data sent true)) i pipe with sched:=taskSchedule sched}
  else setControl w .idle

def readStep (w : World) (i max : Nat) (out : List Byte) : World :=
  if out.length < max then
    let (outcome,sched,pipe) := readSection w.sched (w.pipes i) out.length
    match outcome with
    | .moved byte => {setPipe (setControl w (.reading i max (out++[byte]) false)) i pipe with sched:=sched}
    | .stopped => setControl w .idle
    | .parked => {setPipe (setControl w (.reading i max out true)) i pipe with sched:=taskSchedule sched}
  else setControl w .idle

inductive Label where
  | call (call : SchedulerRuns.Call)
  | mutexLock (i : Nat)
  | mutexUnlock (i : Nat)
  | pipeWrite (i : Nat) (data : List Byte)
  | pipeRead (i max : Nat)
  | proceed

-- Nobody but lock.c and pipe.c calls these two.
def Foreign : SchedulerRuns.Call → Prop
  | .taskBlock => False
  | .taskUnblock _ => False
  | _ => True

-- Timer and keyboard may come between any two sections, so every call of task.c is
-- possible then. Task 0 uses neither mutexes nor pipes.
def Allowed (w : World) : Label → Prop
  | .call call => Foreign call ∧ SchedulerRuns.Allowed ⟨w.sched,w.others⟩ call
  | .proceed => w.control w.sched.current ≠ .idle ∧ w.sched.current ≠ w.sched.taskRing
  | .pipeWrite _ data => w.control w.sched.current = .idle ∧ w.sched.current ≠ w.sched.taskRing ∧ data.length < 2^32
  | .pipeRead _ max => w.control w.sched.current = .idle ∧ w.sched.current ≠ w.sched.taskRing ∧ max < 2^32
  | _ => w.control w.sched.current = .idle ∧ w.sched.current ≠ w.sched.taskRing

-- A new task starts outside all calls, also when its record lies where another's was.
def callStep (w : World) (call : SchedulerRuns.Call) : World :=
  let m := SchedulerRuns.apply ⟨w.sched,w.others⟩ call
  let control := match call with
    | .taskCreateEx _ _ _ => if m.sched.births = w.sched.births then w.control
      else Function.update w.control (nextOf m.sched m.sched.current) .idle
    | _ => w.control
  {w with sched:=m.sched,others:=m.others,control:=control}

def apply (w : World) : Label → World
  | .call call => callStep w call
  | .mutexLock i => setControl w (.locking i false)
  | .mutexUnlock i =>
    let (sched,lock) := Mutexes.mutexUnlock w.sched (w.mutexes i)
    {setMutex w i lock with sched:=sched}
  | .pipeWrite i data => setControl w (.writing i data 0 false)
  | .pipeRead i max => setControl w (.reading i max [] false)
  | .proceed =>
    match w.control w.sched.current with
    | .idle => w
    | .locking i _ => lockStep w i
    | .writing i data sent _ => writeStep w i data sent
    | .reading i max out _ => readStep w i max out

-- The scheduler has started; mutex_init and pipe_init are done and nobody is in a call.
structure Started (kernelEnd : Nat) (mbi : Pmm.MultibootInfo) (w : World) : Prop where
  sched : SchedulerRuns.Started kernelEnd mbi ⟨w.sched,w.others⟩
  mutexes : ∀ i,w.mutexes i = mutexInit
  pipes : ∀ i,w.pipes i = pipeInit
  idle : ∀ t,w.control t = .idle

def sharing (kernelEnd : Nat) (mbi : Pmm.MultibootInfo) : System World Label :=
  guarded (Started kernelEnd mbi) Allowed apply

variable {s after : Sched} {w : World} {ring others : List Nat}

-- Nobody comes into the state or leaves it, and no wait_next changes.
structure Calm (value : TaskState) (s after : Sched) : Prop where
  wait : waitOf after = waitOf s
  keeps : ∀ t,(after.tasks t).state = value ↔ (s.tasks t).state = value

variable {value : TaskState}

theorem calm_refl (s : Sched) : Calm value s s := ⟨rfl,fun _ => Iff.rfl⟩

theorem calm_trans {middle : Sched} (first : Calm value s middle) (second : Calm value middle after) : Calm value s after :=
  ⟨second.wait.trans first.wait,fun t => (second.keeps t).trans (first.keeps t)⟩

theorem setTask_calm {record : Task} (wait : record.waitNext = waitOf s t) (before : (s.tasks t).state ≠ value)
    (now : record.state ≠ value) : Calm value s (setTask s t record) := by
  refine ⟨?_,?_⟩
  · funext x
    by_cases equal : x = t
    · subst equal
      simpa [waitOf,setTask] using wait
    · simp [waitOf,setTask,equal]
  · intro x
    by_cases equal : x = t
    · subst equal
      rw [show (setTask s x record).tasks x = record by simp [setTask]]
      exact ⟨fun is => absurd is now,fun was => absurd was before⟩
    · simp [setTask,equal]

theorem flush_calm (s : Sched) (t : Nat) : Calm value s (taskFlushOutput s t) := by
  refine ⟨?_,fun x => by rw [(flush_same s t).2.2.1]⟩
  unfold taskFlushOutput
  split
  · rfl
  · funext x
    by_cases equal : x = t <;> simp [waitOf,setTask,equal,Function.update]

theorem reap_calm (s : Sched) (prev dead : Nat) : Calm value s (reap s prev dead) := by
  have linked : waitOf (setNext s prev (s.tasks dead).next) = waitOf s := by
    funext x
    by_cases equal : x = prev <;> simp [waitOf,setNext,setTask,equal,Function.update]
  have flushed := (@flush_calm value (setNext s prev (s.tasks dead).next) dead).wait.trans linked
  refine ⟨?_,fun t => by rw [(reap_parts s prev dead).2.2.1]⟩
  unfold reap
  dsimp only
  split <;> exact flushed

-- The states that task_schedule neither ends nor brings about.
def Lasting (value : TaskState) : Prop := value = .blocked ∨ value = .finished

section Schedule
variable (lasting : Lasting value)
include lasting

theorem lasting_passing : value ≠ .sleeping ∧ value ≠ .ready ∧ value ≠ .running := by
  rcases lasting with rfl | rfl <;> exact ⟨nofun,nofun,nofun⟩

theorem wakeFrom_calm (s : Sched) (rounds t : Nat) : Calm value s (wakeFrom s rounds t) := by
  obtain ⟨sleeping,ready,_⟩ := lasting_passing lasting
  have woken : ∀ (s : Sched) (t : Nat),Calm value s
      (if (s.tasks t).state = .sleeping ∧ (s.tasks t).wakeTick ≤ s.ticks then setState s t .ready else s) := by
    intro s t
    split
    · rename_i due
      refine setTask_calm rfl ?_ ready.symm
      rw [due.1]
      exact sleeping.symm
    · exact calm_refl s
  induction rounds generalizing s t with
  | zero =>
    unfold wakeFrom
    exact woken s t
  | succ rounds ih =>
    have here := woken s t
    unfold wakeFrom
    dsimp only
    generalize (if (s.tasks t).state = .sleeping ∧ (s.tasks t).wakeTick ≤ s.ticks then setState s t .ready else s) = next at *
    split
    · exact here
    · exact calm_trans here (ih next _)

theorem scan_calm (s : Sched) (guard scan : Nat) : Calm value s (scanFrom s guard scan).1 ∧
    ((scanFrom s guard scan).2 ≠ 0 → ((scanFrom s guard scan).1.tasks (scanFrom s guard scan).2).state ≠ value) := by
  induction guard generalizing s scan with
  | zero => exact ⟨calm_refl s,fun found => absurd rfl found⟩
  | succ guard ih =>
    unfold scanFrom
    dsimp only
    split
    · exact ⟨calm_refl s,fun found => absurd rfl found⟩
    · split
      · obtain ⟨calm,chosen⟩ := ih (reap s scan (s.tasks scan).next) scan
        exact ⟨calm_trans (reap_calm s scan _) calm,chosen⟩
      · rename_i ready
        refine ⟨calm_refl s,fun _ => ?_⟩
        rw [ready]
        exact (lasting_passing lasting).2.1.symm
      · exact ih s _

theorem switchTo_calm (other : (s.tasks t).state ≠ value) : Calm value s (switchTo s t) := by
  obtain ⟨_,ready,running⟩ := lasting_passing lasting
  have tasks := (switchTo_parts s t).1
  have state := (exchanged_parts s t).2.2.1
  refine ⟨?_,?_⟩
  · funext x
    rw [waitOf,tasks]
    change waitOf (exchanged s t) x = _
    unfold exchanged
    rw [setState_wait]
    split
    · rw [setState_wait]
    · rfl
  · intro x
    rw [tasks,state]
    split
    · rename_i equal
      rw [equal]
      exact ⟨fun now => absurd now.symm running,fun was => absurd was other⟩
    · split
      · rename_i runs
        rw [runs.2]
        exact ⟨fun now => absurd now.symm ready,fun was => absurd was.symm running⟩
      · exact Iff.rfl

theorem resume_calm (idle : (s.tasks s.taskRing).state ≠ value) (chosen : next ≠ 0 → (s.tasks next).state ≠ value) :
    Calm value s (resume s next) := by
  unfold resume
  split
  · rename_i found
    exact switchTo_calm lasting (chosen found)
  · split
    · exact calm_refl s
    · exact switchTo_calm lasting idle

omit lasting in
theorem wakeFrom_ring (s : Sched) (rounds t : Nat) : (wakeFrom s rounds t).taskRing = s.taskRing := by
  induction rounds generalizing s t with
  | zero => unfold wakeFrom; split <;> rfl
  | succ rounds ih =>
    unfold wakeFrom
    dsimp only
    split <;> split
    · rfl
    · exact ih ..
    · rfl
    · exact ih ..

theorem schedule_calm (idle : (s.tasks s.taskRing).state ≠ value) : Calm value s (taskSchedule s) := by
  have woken := wakeFrom_calm lasting s ringGuard s.taskRing
  obtain ⟨scanned,chosen⟩ := scan_calm lasting (wakeFrom s ringGuard s.taskRing) ringGuard
    (wakeFrom s ringGuard s.taskRing).current
  have ring := (scan_state (wakeFrom s ringGuard s.taskRing) ringGuard (wakeFrom s ringGuard s.taskRing).current 0).2
  rw [wakeFrom_ring] at ring
  unfold taskSchedule
  split
  · exact calm_refl s
  · dsimp only [wakeSleepers]
    have calm := calm_trans woken scanned
    refine calm_trans calm (resume_calm lasting ?_ chosen)
    rw [ring,ne_eq,calm.keeps]
    exact idle

theorem idle_passing (valid : Ring s ring others) : (s.tasks s.taskRing).state ≠ value := by
  obtain ⟨_,ready,running⟩ := lasting_passing lasting
  rcases valid.idle with idle | idle
  · rw [idle]
    exact ready.symm
  · rw [idle]
    exact running.symm

-- The current task comes into another state and gives the processor away.
theorem stop_calm (valid : Ring s ring others) (before : (s.tasks s.current).state ≠ value) {record : Task}
    (wait : record.waitNext = waitOf s s.current) (now : record.state ≠ value) :
    Calm value s (taskSchedule (setTask s s.current record)) := by
  have stopped := setTask_calm wait before now
  refine calm_trans stopped (schedule_calm lasting ?_)
  rw [ne_eq,stopped.keeps]
  exact idle_passing lasting valid
end Schedule

theorem running_awake (running : Running s) : ¬ Blocked s s.current := by
  intro blocked
  rw [Blocked,running] at blocked
  cases blocked

theorem terminate_calm (valid : Ring s ring others) (awake : ¬ Blocked s s.current) : Calm .blocked s (taskTerminate s) := by
  obtain ⟨_,_,_,_,current,_⟩ := flush_same s s.current
  have flushed : Calm .blocked s (taskFlushOutput s s.current) := flush_calm s s.current
  have valid := ring_flush valid s.current
  unfold taskTerminate
  split
  · exact calm_refl s
  · generalize taskFlushOutput s s.current = now at *
    refine calm_trans flushed ?_
    rw [Blocked,←flushed.keeps,←current] at awake
    rw [←current]
    exact stop_calm (.inl rfl) valid awake rfl fun same => by cases same

theorem kill_calm (valid : Ring s ring others) (id : Nat) : Calm .blocked s (taskKill s id).2 := by
  unfold taskKill
  split
  · exact calm_refl s
  · rename_i named
    dsimp only
    split
    · exact calm_refl s
    · rename_i found
      split
      · exact calm_refl s
      · rename_i awake
        simp only [not_or] at found
        have created := victim_created valid named found.1
        have marked : Calm .blocked s (setState s (taskById s id) .finished) := setTask_calm rfl awake nofun
        have killed := @ring_setState _ _ _ .finished (taskById s id) valid nofun (fun root => absurd root created)
          (fun root => absurd root created)
        dsimp only
        split
        · rename_i own
          refine calm_trans marked (terminate_calm killed ?_)
          rw [Blocked,marked.keeps,←own]
          exact awake
        · exact marked

theorem call_calm (valid : Ring s ring others) (running : Running s) (foreign : Foreign call) (quiet : Quiet call) :
    Calm .blocked s (SchedulerRuns.apply ⟨s,others⟩ call).sched := by
  have awake := running_awake running
  have blocked : Lasting .blocked := .inl rfl
  cases call with
  | taskSchedule => exact schedule_calm blocked (idle_passing blocked valid)
  | taskSleep ticks =>
    simp only [SchedulerRuns.apply,taskSleep]
    split
    · exact calm_refl s
    · exact stop_calm blocked valid awake rfl fun same => by cases same
  | taskKill id => exact kill_calm valid id
  | taskExit =>
    simp only [SchedulerRuns.apply,taskExit]
    split
    · exact calm_refl s
    · exact stop_calm blocked valid awake rfl fun same => by cases same
  | taskTerminate => exact terminate_calm valid awake
  | taskSetAddressSpace pageDir =>
    simp only [SchedulerRuns.apply,taskSetAddressSpace]
    split
    · exact calm_refl s
    · have moved : Calm .blocked s (setTask s s.current {s.tasks s.current with pageDir:=pageDir}) :=
        setTask_calm rfl awake awake
      exact ⟨moved.wait,moved.keeps⟩
  | tick => exact ⟨rfl,fun _ => Iff.rfl⟩
  | taskBlock => cases foreign
  | taskUnblock t => cases foreign
  | taskCreateEx pageDir arg onExit => cases quiet
  | heap call => cases quiet
  | frames next => cases quiet

-- The queue in whose task_block a task is.
def rests : Control → Option Place
  | .locking i true => some (.mutex i)
  | .writing i _ _ true => some (.writers i)
  | .reading i _ _ true => some (.readers i)
  | _ => none

-- Every queue with its members. Each is BLOCKED in that queue's task_block, and whoever
-- is BLOCKED is a member.
structure Waits (s : Sched) (ends : Place → Nat × Nat) (control : Nat → Control) (ring others : List Nat)
    (waiting : Place → List Nat) : Prop where
  valid : Ring s ring others
  queue : ∀ p,Queue (waitOf s) (ends p).1 (ends p).2 (waiting p)
  inside : ∀ p,∀ t ∈ waiting p,t ∈ ring ∧ Blocked s t ∧ rests (control t) = some p
  blocked : ∀ t ∈ ring,Blocked s t → ∃ p,t ∈ waiting p

variable {ends : Place → Nat × Nat} {control now : Nat → Control} {waiting : Place → List Nat}

theorem waits_calm (kept : Waits s ends control ring others waiting) (valid : Ring after left held)
    (wait : ∀ t ∈ ring,waitOf after t = waitOf s t) (blocked : ∀ t ∈ ring,Blocked after t ↔ Blocked s t)
    (stays : ∀ t ∈ ring,Blocked s t → t ∈ left) (new : ∀ t ∈ left,t ∉ ring → ¬ Blocked after t)
    (same : ∀ t ∈ ring,Blocked s t → rests (now t) = rests (control t)) :
    Waits after ends now left held waiting := by
  refine ⟨valid,?_,?_,?_⟩
  · intro p
    exact queue_congr (fun t member => wait t (kept.inside p t member).1) (kept.queue p)
  · intro p t member
    obtain ⟨onRing,waits,resting⟩ := kept.inside p t member
    exact ⟨stays t onRing waits,(blocked t onRing).mpr waits,(same t onRing waits).trans resting⟩
  · intro t member waits
    by_cases old : t ∈ ring
    · exact kept.blocked t old ((blocked t old).mp waits)
    · exact absurd waits (new t member old)

def Kept (w : World) : Prop :=
  ∃ ring waiting,Waits w.sched w.ends w.control ring w.others waiting ∧ Running w.sched

theorem waits_passes (kept : Waits s ends control ring others waiting) (calm : Calm .blocked s after)
    (passes : Passes s after ring others) : ∃ left,Waits after ends control left others waiting := by
  obtain ⟨dead,left,_,valid,perm,finished⟩ := passes
  refine ⟨left,waits_calm kept valid (fun t _ => congrFun calm.wait t) (fun t _ => calm.keeps t) ?_ ?_ (fun _ _ _ => rfl)⟩
  · intro t member blocked
    rcases List.mem_append.mp (perm.mem_iff.mp member) with gone | stays
    · rw [Blocked,←calm.keeps,finished t gone] at blocked
      cases blocked
    · exact stays
  · intro t member outside
    exact absurd (perm.mem_iff.mpr (List.mem_append_right _ member)) outside

theorem waits_schedule (kept : Waits s ends control ring others waiting) :
    ∃ left,Waits (taskSchedule s) ends control left others waiting ∧ Running (taskSchedule s) := by
  obtain ⟨left,after⟩ := waits_passes kept (schedule_calm (.inl rfl) (idle_passing (.inl rfl) kept.valid))
    (schedule_passes kept.valid)
  obtain ⟨_,_,running⟩ := ring_schedule kept.valid
  exact ⟨left,after,running⟩

theorem joined_calm (different : t ≠ s.current) (heap : Kheap.Heap) (frames : Pmm.State 32) {record : Task}
    (ready : record.state = .ready) :
    (∀ x,x ≠ t → waitOf (joined s t heap frames record) x = waitOf s x ∧
      (Blocked (joined s t heap frames record) x ↔ Blocked s x)) ∧
    ¬ Blocked (joined s t heap frames record) t ∧
    nextOf (joined s t heap frames record) (joined s t heap frames record).current = t := by
  refine ⟨?_,?_,?_⟩
  · intro x elsewhere
    by_cases current : x = s.current
    · subst current
      simp [joined,setNext,setTask,waitOf,Blocked,elsewhere]
    · simp [joined,setNext,setTask,waitOf,Blocked,elsewhere,current]
  · simp [joined,setNext,setTask,Blocked,different,ready]
  · simp [joined,setNext,setTask,nextOf]

theorem kept_create (kept : Kept w) (pageDir arg onExit : Nat) : Kept (callStep w (.taskCreateEx pageDir arg onExit)) := by
  obtain ⟨ring,waiting,waits,running⟩ := kept
  change Kept {w with
    sched:=(taskCreateEx w.sched pageDir arg onExit).2
    control:=if (taskCreateEx w.sched pageDir arg onExit).2.births = w.sched.births then w.control
      else Function.update w.control
        (nextOf (taskCreateEx w.sched pageDir arg onExit).2 (taskCreateEx w.sched pageDir arg onExit).2.current) .idle}
  rcases create_joins waits.valid running pageDir arg onExit with
    ⟨heap,frames,same,valid⟩ | ⟨t,heap,frames,stack,longer,same,outside,valid,runs,perm⟩
  · rw [same] at valid ⊢
    dsimp only
    rw [if_pos rfl]
    exact ⟨ring,waiting,waits_calm waits valid (fun _ _ => rfl) (fun _ _ => Iff.rfl) (fun _ member _ => member)
      (fun t member old => absurd member old) (fun _ _ _ => rfl),running⟩
  · rw [same] at valid runs ⊢
    have different : t ≠ w.sched.current := by
      rintro rfl
      exact outside waits.valid.current
    obtain ⟨calm,fresh,next⟩ := joined_calm different heap frames
      (show (newTask w.sched stack pageDir arg onExit).state = .ready from rfl)
    have grown : (joined w.sched t heap frames (newTask w.sched stack pageDir arg onExit)).births ≠ w.sched.births :=
      Nat.succ_ne_self _
    rw [if_neg grown,next]
    have away : ∀ x ∈ ring,x ≠ t := by
      rintro x member rfl
      exact outside member
    refine ⟨longer,waiting,waits_calm waits valid (fun x member => (calm x (away x member)).1)
      (fun x member => (calm x (away x member)).2) ?_ ?_ ?_,runs⟩
    · exact fun x member _ => perm.mem_iff.mpr (List.mem_cons_of_mem _ member)
    · intro x member old
      rcases List.mem_cons.mp (perm.mem_iff.mp member) with rfl | older
      · exact fresh
      · exact absurd older old
    · intro x member _
      exact congrArg rests (Function.update_of_ne (away x member) _ _)

theorem kept_call (kept : Kept w) (allowed : Allowed w (.call call)) : Kept (callStep w call) := by
  obtain ⟨foreign,permitted⟩ := allowed
  by_cases quiet : Quiet call
  · obtain ⟨ring,waiting,waits,running⟩ := kept
    obtain ⟨passes,_⟩ := call_passes waits.valid running permitted quiet
    obtain ⟨left,after⟩ := waits_passes waits (call_calm waits.valid running foreign quiet) passes
    obtain ⟨_,_,runs⟩ := SchedulerRuns.kept_step ⟨ring,waits.valid,running⟩ permitted
    refine ⟨left,waiting,?_,runs⟩
    cases call with
    | taskCreateEx pageDir arg onExit => cases quiet
    | heap call => cases quiet
    | frames next => cases quiet
    | _ => exact after
  · cases call with
    | taskCreateEx pageDir arg onExit => exact kept_create kept pageDir arg onExit
    | heap call =>
      obtain ⟨ring,waiting,waits,running⟩ := kept
      have valid := SchedulerRuns.ring_heap waits.valid permitted
      exact ⟨ring,waiting,waits_calm waits valid (fun _ _ => rfl) (fun _ _ => Iff.rfl) (fun _ member _ => member)
        (fun t member old => absurd member old) (fun _ _ _ => rfl),running⟩
    | frames next =>
      obtain ⟨ring,waiting,waits,running⟩ := kept
      exact ⟨ring,waiting,waits_calm waits {waits.valid with} (fun _ _ => rfl) (fun _ _ => Iff.rfl)
        (fun _ member _ => member) (fun t member old => absurd member old) (fun _ _ _ => rfl),running⟩
    | taskBlock => cases foreign
    | taskUnblock t => cases foreign
    | _ => exact absurd trivial quiet

-- The current task is BLOCKED nowhere, so where it stands does not matter.
theorem waits_control (kept : Waits s ends control ring others waiting) (awake : ¬ Blocked s s.current) (call : Control) :
    Waits s ends (Function.update control s.current call) ring others waiting := by
  refine waits_calm kept kept.valid (fun _ _ => rfl) (fun _ _ => Iff.rfl) (fun _ member _ => member)
    (fun t member old => absurd member old) ?_
  intro t _ blocked
  rw [Function.update_of_ne]
  rintro rfl
  exact awake blocked

theorem ring_waitNext (valid : Ring s ring others) (t value : Nat) : Ring (setWaitNext s t value) ring others := by
  have same : ∀ x,((setWaitNext s t value).tasks x).next = (s.tasks x).next ∧
      ((setWaitNext s t value).tasks x).state = (s.tasks x).state ∧ ((setWaitNext s t value).tasks x).id = (s.tasks x).id ∧
      ((setWaitNext s t value).tasks x).serial = (s.tasks x).serial := by
    intro x
    by_cases equal : x = t <;> simp [setWaitNext,setTask,equal,Function.update]
  exact ring_same valid (funext fun x => (same x).1) (fun x => (same x).2.1) (fun x => (same x).2.2.1)
    (funext fun x => (same x).2.2.2) rfl rfl rfl

theorem ring_wakeOne (valid : Ring s ring others) (head tail : Nat) : Ring (wakeOne s head tail).1 ring others := by
  unfold wakeOne
  split
  · exact valid
  · have linked := ring_waitNext valid head 0
    dsimp only
    unfold taskUnblock
    split
    · rename_i blocked
      exact ring_woken linked (.inr blocked.2)
    · exact linked

theorem ring_enqueue (valid : Ring s ring others) (head tail t : Nat) : Ring (Pipes.enqueue s head tail t).1 ring others := by
  unfold Pipes.enqueue
  dsimp only
  split
  · exact ring_waitNext (ring_waitNext valid t 0) tail t
  · exact ring_waitNext valid t 0

theorem wakeOne_running (running : Running s) (head tail : Nat) : Running (wakeOne s head tail).1 := by
  by_cases zero : head = 0
  · rw [wakeOne,if_pos zero]
    exact running
  · rw [Running,(wakeOne_parts s head tail zero).2.2.1,wakeOne_state s head tail zero,if_neg]
    · exact running
    · rintro ⟨same,blocked⟩
      rw [←same,running] at blocked
      cases blocked

theorem waits_wake (kept : Waits s ends control ring others waiting) (p : Place) :
    Waits (wakeOne s (ends p).1 (ends p).2).1 (Function.update ends p (wakeOne s (ends p).1 (ends p).2).2) control ring others
      (Function.update waiting p (waiting p).tail) := by
  have queue := kept.queue p
  have valid := ring_wakeOne kept.valid (ends p).1 (ends p).2
  by_cases zero : (ends p).1 = 0
  · have none := (queue_head queue).mp zero
    have same : Function.update waiting p (waiting p).tail = waiting := by
      rw [none,List.tail_nil,←none,Function.update_eq_self]
    rw [same,wakeOne,if_pos zero,Function.update_eq_self]
    exact kept
  obtain ⟨wait,blocked,_,_,ended⟩ := wakeOne_parts s (ends p).1 (ends p).2 zero
  obtain ⟨first,rest,shape⟩ := List.exists_cons_of_ne_nil fun none => zero ((queue_head queue).mpr none)
  rw [shape] at queue
  obtain ⟨here,popped⟩ := queue_pop queue
  have member : first ∈ waiting p := by
    rw [shape]
    exact List.mem_cons_self ..
  -- only the head of this queue is touched, and it is in no other queue
  have elsewhere : ∀ q,q ≠ p → first ∉ waiting q := by
    intro q different inside
    have one := (kept.inside q first inside).2.2
    rw [(kept.inside p first member).2.2] at one
    exact different (Option.some.inj one).symm
  have alone : first ∉ rest := (List.nodup_cons.mp queue.distinct).1
  rw [here] at wait blocked ended valid ⊢
  refine ⟨valid,?_,?_,?_⟩
  · intro q
    by_cases equal : q = p
    · subst equal
      rw [Function.update_self,Function.update_self,ended,wait,shape]
      exact popped
    · rw [Function.update_of_ne equal,Function.update_of_ne equal,wait]
      refine queue_congr (fun t inside => Function.update_of_ne ?_ _ _) (kept.queue q)
      rintro rfl
      exact elsewhere q equal inside
  · intro q t inside
    have old : t ∈ waiting q ∧ t ≠ first := by
      by_cases equal : q = p
      · subst equal
        rw [Function.update_self,shape,List.tail_cons] at inside
        rw [shape]
        refine ⟨List.mem_cons_of_mem _ inside,?_⟩
        rintro rfl
        exact alone inside
      · rw [Function.update_of_ne equal] at inside
        refine ⟨inside,?_⟩
        rintro rfl
        exact elsewhere q equal inside
    obtain ⟨onRing,waits,resting⟩ := kept.inside q t old.1
    exact ⟨onRing,(blocked t).mpr ⟨old.2,waits⟩,resting⟩
  · intro t onRing waits
    obtain ⟨other,before⟩ := (blocked t).mp waits
    obtain ⟨q,inside⟩ := kept.blocked t onRing before
    refine ⟨q,?_⟩
    by_cases equal : q = p
    · subst equal
      rw [shape] at inside
      rw [Function.update_self,shape]
      exact (List.mem_cons.mp inside).resolve_left other
    · rw [Function.update_of_ne equal]
      exact inside

theorem waits_park (kept : Waits s ends control ring others waiting) (awake : ¬ Blocked s s.current)
    (created : s.current ≠ s.taskRing) (p : Place) (resting : rests (now s.current) = some p)
    (same : ∀ t,t ≠ s.current → now t = control t) :
    Waits (leave (Pipes.enqueue s (ends p).1 (ends p).2 s.current).1)
      (Function.update ends p (Pipes.enqueue s (ends p).1 (ends p).2 s.current).2) now ring others
      (Function.update waiting p (waiting p++[s.current])) := by
  obtain ⟨wait,state,current,first,ended⟩ := enqueue_parts s (ends p).1 (ends p).2 s.current
  have joins := ring_enqueue kept.valid (ends p).1 (ends p).2 s.current
  obtain ⟨leftWait,leftBlocked,_,_⟩ := leave_parts (Pipes.enqueue s (ends p).1 (ends p).2 s.current).1
    (by rw [current,first]; exact created)
  have fresh : ∀ q,s.current ∉ waiting q := fun q inside => awake (kept.inside q _ inside).2.1
  have blocked : ∀ t,Blocked (leave (Pipes.enqueue s (ends p).1 (ends p).2 s.current).1) t ↔ t = s.current ∨ Blocked s t := by
    intro t
    rw [leftBlocked,current,Blocked,state,Blocked]
  have links : ∀ q,q ≠ p → ∀ t ∈ waiting q,pushLink (waitOf s) (ends p).2 s.current t = waitOf s t := by
    intro q different t inside
    have other : t ≠ s.current := fun equal => fresh q (equal ▸ inside)
    unfold pushLink
    split
    · exact Function.update_of_ne other _ _
    · rename_i some
      have last : t ≠ (ends p).2 := by
        rintro rfl
        have member : (ends p).2 ∈ waiting p := (queue_links (kept.queue p)).2.1.resolve_left some
        have one := (kept.inside q _ inside).2.2
        rw [(kept.inside p _ member).2.2] at one
        exact different (Option.some.inj one).symm
      rw [Function.update_of_ne last,Function.update_of_ne other]
  refine ⟨?_,?_,?_,?_⟩
  · unfold leave
    rw [if_neg (by rw [current,first]; exact created),current]
    refine ring_setState joins (fun same => by cases same) (fun root => absurd root ?_) (fun root => absurd root ?_)
    · rw [first]
      exact created
    · rw [first]
      exact created
  · intro q
    rw [leftWait,wait]
    by_cases equal : q = p
    · subst equal
      rw [Function.update_self,Function.update_self,ended]
      exact queue_push (kept.queue q) (fresh q) (kept.valid.nonzero kept.valid.current)
    · rw [Function.update_of_ne equal,Function.update_of_ne equal]
      exact queue_congr (links q equal) (kept.queue q)
  · intro q t inside
    rw [blocked]
    by_cases caller : t = s.current
    · subst caller
      refine ⟨kept.valid.current,.inl rfl,?_⟩
      by_cases equal : q = p
      · rw [equal]
        exact resting
      · rw [Function.update_of_ne equal] at inside
        exact absurd inside (fresh q)
    · have old : t ∈ waiting q := by
        by_cases equal : q = p
        · subst equal
          rw [Function.update_self,List.mem_append,List.mem_singleton] at inside
          exact inside.resolve_right caller
        · rw [Function.update_of_ne equal] at inside
          exact inside
      obtain ⟨onRing,waits,rest⟩ := kept.inside q t old
      rw [same t caller]
      exact ⟨onRing,.inr waits,rest⟩
  · intro t onRing waits
    rcases (blocked t).mp waits with rfl | before
    · exact ⟨p,by rw [Function.update_self]; simp⟩
    · obtain ⟨q,inside⟩ := kept.blocked t onRing before
      refine ⟨q,?_⟩
      by_cases equal : q = p
      · subst equal
        rw [Function.update_self]
        exact List.mem_append_left _ inside
      · rw [Function.update_of_ne equal]
        exact inside

theorem ends_mutex (w : World) (i : Nat) (lock : Mutex) :
    (setMutex w i lock).ends = Function.update w.ends (.mutex i) (lock.waitHead,lock.waitTail) := by
  funext p
  cases p with
  | mutex j =>
    by_cases equal : j = i
    · subst equal
      simp [World.ends,setMutex]
    · simp [World.ends,setMutex,equal]
  | readers j => simp [World.ends,setMutex]
  | writers j => simp [World.ends,setMutex]

theorem ends_readers (w : World) (i : Nat) {pipe : Pipe} (same : pipe.writersHead = (w.pipes i).writersHead)
    (sameToo : pipe.writersTail = (w.pipes i).writersTail) :
    (setPipe w i pipe).ends = Function.update w.ends (.readers i) (pipe.readersHead,pipe.readersTail) := by
  funext p
  cases p with
  | mutex j => simp [World.ends,setPipe]
  | readers j =>
    by_cases equal : j = i
    · subst equal
      simp [World.ends,setPipe]
    · simp [World.ends,setPipe,equal]
  | writers j =>
    by_cases equal : j = i
    · subst equal
      simp [World.ends,setPipe,same,sameToo]
    · simp [World.ends,setPipe,equal]

theorem ends_writers (w : World) (i : Nat) {pipe : Pipe} (same : pipe.readersHead = (w.pipes i).readersHead)
    (sameToo : pipe.readersTail = (w.pipes i).readersTail) :
    (setPipe w i pipe).ends = Function.update w.ends (.writers i) (pipe.writersHead,pipe.writersTail) := by
  funext p
  cases p with
  | mutex j => simp [World.ends,setPipe]
  | readers j =>
    by_cases equal : j = i
    · subst equal
      simp [World.ends,setPipe,same,sameToo]
    · simp [World.ends,setPipe,equal]
  | writers j =>
    by_cases equal : j = i
    · subst equal
      simp [World.ends,setPipe]
    · simp [World.ends,setPipe,equal]

-- What a section comes to: it serves the head of a queue and goes on, or it joins one and
-- gives the processor away.
theorem kept_wake (kept : Waits w.sched w.ends w.control ring w.others waiting) (running : Running w.sched) (p : Place)
    (call : Control) {next : World} (sched : next.sched = (wakeOne w.sched (w.ends p).1 (w.ends p).2).1)
    (ends : next.ends = Function.update w.ends p (wakeOne w.sched (w.ends p).1 (w.ends p).2).2)
    (control : next.control = Function.update w.control w.sched.current call) (others : next.others = w.others) :
    Kept next := by
  have woken := waits_wake (waits_control kept (running_awake running) call) p
  refine ⟨ring,Function.update waiting p (waiting p).tail,?_,?_⟩
  · rw [sched,ends,control,others]
    exact woken
  · rw [sched]
    exact wakeOne_running running _ _

theorem kept_park (kept : Waits w.sched w.ends w.control ring w.others waiting) (running : Running w.sched)
    (created : w.sched.current ≠ w.sched.taskRing) (p : Place) {call : Control} (resting : rests call = some p) {next : World}
    (sched : next.sched = taskSchedule (leave (Pipes.enqueue w.sched (w.ends p).1 (w.ends p).2 w.sched.current).1))
    (ends : next.ends = Function.update w.ends p (Pipes.enqueue w.sched (w.ends p).1 (w.ends p).2 w.sched.current).2)
    (control : next.control = Function.update w.control w.sched.current call) (others : next.others = w.others) :
    Kept next := by
  have parked := @waits_park _ _ _ _ _ (Function.update w.control w.sched.current call) _ kept (running_awake running) created p
    (by rw [Function.update_self]; exact resting) (fun t different => Function.update_of_ne different _ _)
  obtain ⟨left,after,runs⟩ := waits_schedule parked
  refine ⟨left,Function.update waiting p (waiting p++[w.sched.current]),?_,?_⟩
  · rw [sched,ends,control,others]
    exact after
  · rw [sched]
    exact runs

theorem kept_control (kept : Waits w.sched w.ends w.control ring w.others waiting) (running : Running w.sched)
    (call : Control) : Kept (setControl w call) :=
  ⟨ring,waiting,waits_control kept (running_awake running) call,running⟩

theorem kept_lock (kept : Waits w.sched w.ends w.control ring w.others waiting) (running : Running w.sched)
    (created : w.sched.current ≠ w.sched.taskRing) (i : Nat) : Kept (lockStep w i) := by
  unfold lockStep lockSection
  dsimp only
  by_cases free : (w.mutexes i).locked = 0
  · rw [if_pos free]
    refine ⟨ring,waiting,?_,running⟩
    change Waits w.sched (setMutex (setControl w .idle) i {w.mutexes i with locked:=1}).ends
      (Function.update w.control w.sched.current .idle) ring w.others waiting
    rw [ends_mutex]
    have same : Function.update (setControl w .idle).ends (.mutex i) ((w.mutexes i).waitHead,(w.mutexes i).waitTail) = w.ends :=
      Function.update_eq_self (Place.mutex i) w.ends
    rw [same]
    exact waits_control kept (running_awake running) .idle
  · rw [if_neg free]
    exact kept_park kept running created (.mutex i) rfl rfl (ends_mutex _ _ _) rfl rfl

theorem kept_write (kept : Waits w.sched w.ends w.control ring w.others waiting) (running : Running w.sched)
    (created : w.sched.current ≠ w.sched.taskRing) (i : Nat) (data : List Byte) (sent : Nat) :
    Kept (writeStep w i data sent) := by
  unfold writeStep writeSection
  split
  · by_cases room : (w.pipes i).count < pipeCapacity
    · simp only [if_pos room]
      exact kept_wake kept running (.readers i) (.writing i data (sent+1) false) rfl
        (ends_readers (setControl w _) i rfl rfl) rfl rfl
    · simp only [if_neg room]
      exact kept_park kept running created (.writers i) rfl rfl (ends_writers (setControl w _) i rfl rfl) rfl rfl
  · exact kept_control kept running .idle

theorem kept_read (kept : Waits w.sched w.ends w.control ring w.others waiting) (running : Running w.sched)
    (created : w.sched.current ≠ w.sched.taskRing) (i max : Nat) (out : List Byte) : Kept (readStep w i max out) := by
  unfold readStep readSection
  split
  · by_cases some : 0 < (w.pipes i).count
    · simp only [if_pos some]
      exact kept_wake kept running (.writers i) _ rfl (ends_writers (setControl w _) i rfl rfl) rfl rfl
    · simp only [if_neg some]
      by_cases got : 0 < out.length
      · simp only [if_pos got]
        exact kept_control kept running .idle
      · simp only [if_neg got]
        exact kept_park kept running created (.readers i) rfl rfl (ends_readers (setControl w _) i rfl rfl) rfl rfl
  · exact kept_control kept running .idle

theorem kept_unlock (kept : Waits w.sched w.ends w.control ring w.others waiting) (running : Running w.sched) (i : Nat) :
    Kept (apply w (.mutexUnlock i)) := by
  have same : Function.update w.control w.sched.current (w.control w.sched.current) = w.control := Function.update_eq_self _ _
  simp only [apply,unlock_parts]
  exact kept_wake kept running (.mutex i) (w.control w.sched.current) rfl (ends_mutex _ _ _) same.symm rfl

theorem kept_step (kept : Kept w) (allowed : Allowed w label) : Kept (apply w label) := by
  cases label with
  | call call => exact kept_call kept allowed
  | mutexLock i =>
    obtain ⟨ring,waiting,waits,running⟩ := kept
    exact kept_control waits running _
  | mutexUnlock i =>
    obtain ⟨ring,waiting,waits,running⟩ := kept
    exact kept_unlock waits running i
  | pipeWrite i data =>
    obtain ⟨ring,waiting,waits,running⟩ := kept
    exact kept_control waits running _
  | pipeRead i max =>
    obtain ⟨ring,waiting,waits,running⟩ := kept
    exact kept_control waits running _
  | proceed =>
    obtain ⟨ring,waiting,waits,running⟩ := kept
    simp only [apply]
    split
    · exact ⟨ring,waiting,waits,running⟩
    · exact kept_lock waits running allowed.2 _
    · exact kept_write waits running allowed.2 _ _ _
    · exact kept_read waits running allowed.2 _ _ _

theorem init_births (s : Sched) (espNow : Nat) : (taskInit s espNow).births ≤ s.births+1 := by
  unfold taskInit
  dsimp only
  split
  · exact Nat.le_succ _
  · exact Nat.le_refl _

-- Task 0 is alone.
theorem started_alone {m : SchedulerRuns.Machine} (started : SchedulerRuns.Started kernelEnd mbi m)
    (valid : Ring m.sched ring m.others) (member : t ∈ ring) : t = m.sched.current := by
  obtain ⟨before,espNow,made,_,_,none,_⟩ := started.init
  have births := init_births before espNow
  rw [←made,none] at births
  have total := valid.accounts.length_eq
  rw [List.length_append,List.length_map,List.length_range] at total
  obtain ⟨only,rfl⟩ := List.length_eq_one_iff.mp (show ring.length = 1 by
    have some := List.length_pos_of_mem member
    omega)
  rw [List.mem_singleton.mp member,List.mem_singleton.mp valid.current]

theorem kept_start (started : Started kernelEnd mbi w) : Kept w := by
  obtain ⟨ring,valid,running⟩ := SchedulerRuns.started_kept started.sched
  refine ⟨ring,fun _ => [],⟨valid,?_,fun _ => List.forall_mem_nil _,?_⟩,running⟩
  · intro p
    cases p with
    | mutex i =>
      rw [World.ends,started.mutexes]
      exact queue_empty _
    | readers i =>
      rw [World.ends,started.pipes]
      exact queue_empty _
    | writers i =>
      rw [World.ends,started.pipes]
      exact queue_empty _
  · intro t member blocked
    have alone : t = w.sched.current := started_alone started.sched valid member
    rw [alone] at blocked
    exact absurd blocked (running_awake running)

theorem runs_kept (path : Reached (sharing kernelEnd mbi) w) : Kept w := by
  apply path.invariant
  · exact fun _ => kept_start
  · rintro w label next kept ⟨allowed,rfl⟩
    exact kept_step kept allowed

-- Where a queue's head, its tail or the wait_next of one of its members leads.
def Leads (w : World) (p : Place) (members : List Nat) (x : Nat) : Prop :=
  x = (w.ends p).1 ∨ x = (w.ends p).2 ∨ ∃ t ∈ members,x = waitOf w.sched t

theorem blocked_queued (path : Reached (sharing kernelEnd mbi) w) :
    ∃ (ring : List Nat) (waiting : Place → List Nat),SchedulerRuns.Valid w.sched ring ∧
      (∀ p,Queue (waitOf w.sched) (w.ends p).1 (w.ends p).2 (waiting p)) ∧
      (∀ t ∈ ring,Blocked w.sched t ↔ ∃ p,(waiting p).count t = 1 ∧ ∀ q,q ≠ p → t ∉ waiting q) ∧
      ∀ p x,Leads w p (waiting p) x → x ≠ 0 → x ∈ ring ∧ serialOf w.sched x ∉ reapedSerials w.sched := by
  obtain ⟨ring,waiting,waits,running⟩ := runs_kept path
  have valid := SchedulerRuns.ring_valid waits.valid running
  refine ⟨ring,waiting,valid,waits.queue,?_,?_⟩
  · intro t member
    constructor
    · intro blocked
      obtain ⟨p,inside⟩ := waits.blocked t member blocked
      refine ⟨p,List.count_eq_one_of_mem (waits.queue p).distinct inside,fun q different other => ?_⟩
      have one := (waits.inside q t other).2.2
      rw [(waits.inside p t inside).2.2] at one
      exact different (Option.some.inj one).symm
    · rintro ⟨p,once,_⟩
      have inside : t ∈ waiting p := List.count_pos_iff.mp (by rw [once]; exact Nat.one_pos)
      exact (waits.inside p t inside).2.1
  · intro p x leads nonzero
    obtain ⟨head,tail,links⟩ := queue_links (waits.queue p)
    have inside : x ∈ waiting p := by
      rcases leads with rfl | rfl | ⟨t,member,rfl⟩
      · exact head.resolve_left nonzero
      · exact tail.resolve_left nonzero
      · exact (links t member).resolve_left nonzero
    have onRing := (waits.inside p x inside).1
    exact ⟨onRing,((valid.complete _).mp (List.mem_map_of_mem onRing)).2⟩

-- Two tasks want one mutex: the second to come waits.
def quiet : World where
  sched := taskInit (SchedulerRuns.blankSched (KheapRuns.freshHeap .i386 0x102000)) 0x200000
  others := []
  mutexes := fun _ => mutexInit
  pipes := fun _ => pipeInit
  control := fun _ => .idle

def contending : List Label :=
  [.call (.frames ⟨fun _ => 1#32,32,1⟩),.call (.taskCreateEx 0 0 0),.call (.taskCreateEx 0 0 0),.call .taskSchedule,
    .mutexLock 0,.proceed,.call .taskSchedule,.mutexLock 0,.proceed]
def contended : World := contending.foldl apply quiet

theorem quiet_started : Started 0x101000 KheapRuns.roomyMap quiet :=
  ⟨SchedulerRuns.freshStart_started,fun _ => rfl,fun _ => rfl,fun _ => rfl⟩

theorem contended_reached : Reached (sharing 0x101000 KheapRuns.roomyMap) contended := by
  refine @reached_by _ _ _ _ _ quiet contending quiet_started ?_
  refine ⟨⟨trivial,trivial⟩,⟨trivial,trivial⟩,⟨trivial,trivial⟩,⟨trivial,trivial⟩,⟨?_,?_⟩,⟨?_,?_⟩,⟨trivial,trivial⟩,⟨?_,?_⟩,⟨?_,?_⟩,
    trivial⟩
  all_goals decide +kernel

theorem blocked_queued_small : Blocked contended.sched (contended.mutexes 0).waitHead ∧
    ∃ ring,SchedulerRuns.Valid contended.sched ring ∧ (contended.mutexes 0).waitHead ∈ ring := by
  have head : (contended.mutexes 0).waitHead ≠ 0 := by decide +kernel
  obtain ⟨ring,waiting,valid,queue,exact_,live⟩ := blocked_queued contended_reached
  have leads : Leads contended (.mutex 0) (waiting (.mutex 0)) (contended.mutexes 0).waitHead := .inl (by rw [World.ends])
  exact ⟨by unfold Blocked; decide +kernel,ring,valid,(live _ _ leads head).1⟩

end Arthic.WaitQueues
