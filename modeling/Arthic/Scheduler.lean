import Arthic.Kheap

namespace Arthic.Scheduler
open ByteMemory Unsigned

inductive TaskState where
  | ready
  | running
  | sleeping
  | blocked
  | finished
  deriving DecidableEq,Repr

-- struct task, less what only the assembly switch and task_list look at. A record is
-- zeroed when it is allocated, and TASK_READY is 0. outBuf and outLen are out_buf and
-- out_len, which task.c uses; lineBuf and lineLen are outbuf and outlen, which syscall.c
-- uses. `serial` is no field of the source: it tells tasks apart whose addresses or ids
-- are used again.
structure Task where
  id : Nat := 0
  state : TaskState := .ready
  stackBase : Nat := 0
  stackFrames : Nat := 0
  kernelStackTop : Nat := 0
  wakeTick : Nat := 0
  pageDir : Nat := 0
  arg : Nat := 0
  onExit : Nat := 0
  outBuf : Nat → Byte := fun _ => 0#8
  outLen : Nat := 0
  lineBuf : Nat → Byte := fun _ => 0#8
  lineLen : Nat := 0
  next : Nat := 0
  waitNext : Nat := 0
  serial : Nat := 0

def sizeofTask : Nat := 328
def stackFrames : Nat := 2

-- One entry for every call of reap: which task, what its record said, and who was
-- current and task 0 at that moment.
structure Reaping where
  task : Nat
  record : Task
  current : Nat
  ring : Nat

-- One call of terminal_write, with the serial of the task it is made for, if any.
structure Printed where
  speaker : Option Nat
  text : List Byte

-- The variables of task.c and what its functions reach: the heap and the frames, the
-- tick counter, the screen, the directory in CR3, the stack in the TSS and the task
-- current_uctx points into. A task is known by its address. `births` counts the tasks
-- made, `exits` lists the on_exit calls with their argument.
structure Sched where
  tasks : Nat → Task
  current : Nat
  taskRing : Nat
  nextId : Nat
  enabled : Bool
  switches : Nat
  ticks : Nat
  heap : Kheap.Heap
  frames : Pmm.State 32
  console : List Printed
  directory : Nat
  kernelStack : Nat
  uctx : Nat
  exits : List (Nat × Nat)
  births : Nat
  reaped : List Reaping

def setTask (s : Sched) (t : Nat) (record : Task) : Sched := {s with tasks:=Function.update s.tasks t record}
def setState (s : Sched) (t : Nat) (state : TaskState) : Sched := setTask s t {s.tasks t with state:=state}
def setNext (s : Sched) (t next : Nat) : Sched := setTask s t {s.tasks t with next:=next}

def taskInit (s : Sched) (espNow : Nat) : Sched :=
  let (t,heap) := Kheap.kmalloc .i386 s.heap sizeofTask
  let s := {s with heap:=heap}
  if t = 0 then s else
  let record : Task :=
    {id:=s.nextId,state:=.running,kernelStackTop:=wrapSub 32 espNow 256,next:=t,serial:=s.births}
  {setTask s t record with
    nextId:=wrap 32 (s.nextId+1),current:=t,taskRing:=t,enabled:=true,uctx:=t,births:=s.births+1}

def taskCreateEx (s : Sched) (pageDir arg onExit : Nat) : Nat × Sched :=
  if s.enabled = false then (0,s) else
  let (t,heap) := Kheap.kmalloc .i386 s.heap sizeofTask
  let s := {s with heap:=heap}
  if t = 0 then (0,s) else
  let (stack,frames) := Pmm.pmmAllocFrames s.frames stackFrames
  let s := {s with frames:=frames}
  if stack = 0 then (0,{s with heap:=(Kheap.kfree .i386 s.heap t).2}) else
  let record : Task :=
    {id:=s.nextId,state:=.ready,stackBase:=stack,stackFrames:=stackFrames,
      kernelStackTop:=wrap 32 (stack+stackFrames*Pmm.pageSize),pageDir:=pageDir,arg:=arg,onExit:=onExit,serial:=s.births}
  let s := {setTask s t record with nextId:=wrap 32 (s.nextId+1),births:=s.births+1}
  -- The splice, with interrupts off.
  let s := setNext s t (s.tasks s.current).next
  let s := setNext s s.current t
  ((s.tasks t).id,s)

def taskFlushOutput (s : Sched) (t : Nat) : Sched :=
  if t = 0 ∨ (s.tasks t).outLen = 0 then s else
  let text := Function.update (s.tasks t).outBuf (s.tasks t).outLen 0#8
  let shown := ((List.range (s.tasks t).outLen).map text).takeWhile (· ≠ 0#8)
  {setTask s t {s.tasks t with outBuf:=text,outLen:=0} with
    console:=s.console++[⟨some (s.tasks t).serial,shown⟩]}

def freeStack (frames : Pmm.State 32) (base count : Nat) : Pmm.State 32 :=
  (List.range count).foldl (fun frames i => Pmm.pmmFreeFrame frames (wrap 32 (base+i*Pmm.pageSize))) frames

def reap (s : Sched) (prev dead : Nat) : Sched :=
  let s := setNext s prev (s.tasks dead).next
  let s := taskFlushOutput s dead
  let record := s.tasks dead
  let s := if record.onExit = 0 then s else {s with exits:=s.exits++[(record.onExit,record.arg)]}
  {s with
    frames:=freeStack s.frames record.stackBase record.stackFrames,heap:=(Kheap.kfree .i386 s.heap dead).2,
    reaped:=s.reaped++[⟨dead,record,s.current,s.taskRing⟩]}

-- The guards of the ring walks: a do-while that tests guard++ < 64 runs its body at
-- most 65 times, the while in task_schedule 64 times.
def ringGuard : Nat := 64

def wakeFrom (s : Sched) (rounds t : Nat) : Sched :=
  let s := if (s.tasks t).state = .sleeping ∧ (s.tasks t).wakeTick ≤ s.ticks then setState s t .ready else s
  match rounds with
  | 0 => s
  | rounds+1 => if (s.tasks t).next = s.taskRing then s else wakeFrom s rounds (s.tasks t).next

def wakeSleepers (s : Sched) : Sched := wakeFrom s ringGuard s.taskRing

-- Who runs next, 0 when the walk found nobody; corpses are reaped on the way.
def scanFrom (s : Sched) : Nat → Nat → Sched × Nat
  | 0,_ => (s,0)
  | guard+1,scan =>
    let candidate := (s.tasks scan).next
    if candidate = s.current then (s,0) else
    match (s.tasks candidate).state with
    | .finished => scanFrom (reap s scan candidate) guard scan
    | .ready => (s,candidate)
    | _ => scanFrom s guard candidate

def switchTo (s : Sched) (next : Nat) : Sched :=
  let prev := s.current
  let s := if (s.tasks s.current).state = .running then setState s s.current .ready else s
  let s := setState s next .running
  let s := {s with current:=next,switches:=wrap 32 (s.switches+1)}
  let s := if (s.tasks next).pageDir ≠ (s.tasks prev).pageDir then {s with directory:=(s.tasks next).pageDir} else s
  let s := if (s.tasks next).kernelStackTop ≠ 0 then {s with kernelStack:=(s.tasks next).kernelStackTop} else s
  {s with uctx:=next}

-- Nothing else can run: carry on, or fall back to task 0 when the current task cannot.
def resume (s : Sched) (next : Nat) : Sched :=
  if next ≠ 0 then switchTo s next
  else if (s.tasks s.current).state = .running then s
  else switchTo s s.taskRing

def taskSchedule (s : Sched) : Sched :=
  if s.enabled = false ∨ s.current = 0 then s else
  let scanned := scanFrom (wakeSleepers s) ringGuard (wakeSleepers s).current
  resume scanned.1 scanned.2

def taskYield (s : Sched) : Sched := taskSchedule s

-- task_block up to the point where it gives the processor away. Task 0 never blocks.
def leave (s : Sched) : Sched := if s.current = s.taskRing then s else setState s s.current .blocked

def taskBlock (s : Sched) : Sched := if s.enabled = false ∨ s.current = 0 then s else taskSchedule (leave s)

def taskUnblock (s : Sched) (t : Nat) : Sched :=
  if t ≠ 0 ∧ (s.tasks t).state = .blocked then setState s t .ready else s

def byIdFrom (s : Sched) (id rounds t : Nat) : Nat :=
  if (s.tasks t).id = id then t else
  match rounds with
  | 0 => 0
  | rounds+1 => if (s.tasks t).next = s.taskRing then 0 else byIdFrom s id rounds (s.tasks t).next

def taskById (s : Sched) (id : Nat) : Nat := byIdFrom s id ringGuard s.taskRing

-- task_terminate and task_exit call task_schedule for ever, but a finished task is not
-- run again, so the first call is the only one that happens.
def taskTerminate (s : Sched) : Sched :=
  if s.current = 0 then s else taskSchedule (setState (taskFlushOutput s s.current) s.current .finished)

def taskExit (s : Sched) : Sched := if s.current = 0 then s else taskSchedule (setState s s.current .finished)

def taskKill (s : Sched) (id : Nat) : Int × Sched :=
  if id = 0 then (0,s) else
  let t := taskById s id
  if t = 0 ∨ (s.tasks t).state = .finished then (0,s)
  else if (s.tasks t).state = .blocked then (-1,s)
  else
    let s := setState s t .finished
    (1,if t = s.current then taskTerminate s else s)

-- Task 0 waits in a loop of its own; nothing here changes while it does.
def taskSleep (s : Sched) (ticks : Nat) : Sched :=
  if s.enabled = false ∨ s.current = 0 ∨ s.current = s.taskRing then s else
  taskSchedule (setTask s s.current
    {s.tasks s.current with wakeTick:=wrap 32 (s.ticks+ticks),state:=.sleeping})

def taskSetAddressSpace (s : Sched) (pageDir : Nat) : Sched :=
  if s.current = 0 then s else
  {setTask s s.current {s.tasks s.current with pageDir:=pageDir} with directory:=pageDir}

end Arthic.Scheduler
