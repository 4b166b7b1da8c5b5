import Arthic.Library.Linked
import Arthic.Library.RingBuffer
import Arthic.Library.Transition
import Arthic.Scheduler

namespace Arthic.Pipes
open ByteMemory Scheduler Transition Unsigned

def pipeCapacity : Nat := 256

structure Pipe where
  buffer : Nat → Byte
  readPos : Nat
  writePos : Nat
  count : Nat
  readersHead : Nat
  readersTail : Nat
  writersHead : Nat
  writersTail : Nat
  blockedReads : Nat
  blockedWrites : Nat

def pipeInit : Pipe := ⟨fun _ => 0#8,0,0,0,0,0,0,0,0,0⟩

def setWaitNext (s : Sched) (t value : Nat) : Sched := setTask s t {s.tasks t with waitNext:=value}

-- The two list operations return the new head and tail with the tasks they changed.
def enqueue (s : Sched) (head tail t : Nat) : Sched × Nat × Nat :=
  let s := setWaitNext s t 0
  if tail ≠ 0 then (setWaitNext s tail t,head,t) else (s,t,t)

def wakeOne (s : Sched) (head tail : Nat) : Sched × Nat × Nat :=
  if head = 0 then (s,head,tail) else
  let next := (s.tasks head).waitNext
  (taskUnblock (setWaitNext s head 0) head,next,if next = 0 then 0 else tail)

-- One interrupts-off section of each call. What it found decides how the loop around it
-- goes on: a byte was moved, the caller has to wait, or a reader leaves with what it got.
inductive Outcome where
  | moved (byte : Byte)
  | parked
  | stopped
  deriving DecidableEq

def putByte (p : Pipe) (byte : Byte) : Pipe :=
  {p with
    buffer:=Function.update p.buffer p.writePos byte,writePos:=(p.writePos+1) % pipeCapacity,count:=p.count+1}

def takeByte (p : Pipe) : Byte × Pipe :=
  (p.buffer p.readPos,{p with readPos:=(p.readPos+1) % pipeCapacity,count:=p.count-1})

def writeSection (s : Sched) (p : Pipe) (byte : Byte) : Outcome × Sched × Pipe :=
  if p.count < pipeCapacity then
    let p := putByte p byte
    let (s,head,tail) := wakeOne s p.readersHead p.readersTail
    (.moved byte,s,{p with readersHead:=head,readersTail:=tail})
  else
    let (s,head,tail) := enqueue s p.writersHead p.writersTail s.current
    (.parked,leave s,{p with writersHead:=head,writersTail:=tail,blockedWrites:=wrap 32 (p.blockedWrites+1)})

def readSection (s : Sched) (p : Pipe) (got : Nat) : Outcome × Sched × Pipe :=
  if 0 < p.count then
    let (byte,p) := takeByte p
    let (s,head,tail) := wakeOne s p.writersHead p.writersTail
    (.moved byte,s,{p with writersHead:=head,writersTail:=tail})
  else if 0 < got then (.stopped,s,p)
  else
    let (s,head,tail) := enqueue s p.readersHead p.readersTail s.current
    (.parked,leave s,{p with readersHead:=head,readersTail:=tail,blockedReads:=wrap 32 (p.blockedReads+1)})

def pipeAvailable (p : Pipe) : Nat := p.count
def pipeStats (p : Pipe) : Nat × Nat := (p.blockedReads,p.blockedWrites)

-- Where a task stands between sections. `resting` is the point inside task_block: the
-- task has joined a queue and has not tested the pipe since.
inductive Control where
  | idle
  | writing (call : Nat) (data : List Byte) (i : Nat) (resting : Bool)
  | reading (call max : Nat) (out : List Byte) (resting : Bool)

inductive Answer where
  | write (call : Nat) (data : List Byte) (length : Nat)
  | read (call max : Nat) (out : List Byte) (got : Nat)

-- Any number of tasks and one pipe. Calls are numbered; `inserted` and `removed` say in
-- order which call moved which byte, and `returned` what every finished call answered.
structure World where
  sched : Sched
  pipe : Pipe
  control : Nat → Control
  calls : Nat
  inserted : List (Nat × Byte)
  removed : List (Nat × Byte)
  returned : List Answer

def setControl (w : World) (control : Control) : World :=
  {w with control:=Function.update w.control w.sched.current control}

def answer (w : World) (reply : Answer) : World := {setControl w .idle with returned:=w.returned++[reply]}

def writeStep (w : World) (call : Nat) (data : List Byte) (i : Nat) : World :=
  if i < data.length then
    let byte := data.getD i 0#8
    let (outcome,sched,pipe) := writeSection w.sched w.pipe byte
    match outcome with
    | .moved byte => {setControl w (.writing call data (i+1) false) with
        sched:=sched,pipe:=pipe,inserted:=w.inserted++[(call,byte)]}
    | _ => {setControl w (.writing call data i true) with sched:=sched,pipe:=pipe}
  else answer w (.write call data data.length)

def readStep (w : World) (call max : Nat) (out : List Byte) : World :=
  if out.length < max then
    let (outcome,sched,pipe) := readSection w.sched w.pipe out.length
    match outcome with
    | .moved byte => {setControl w (.reading call max (out++[byte]) false) with
        sched:=sched,pipe:=pipe,removed:=w.removed++[(call,byte)]}
    | .stopped => answer w (.read call max out out.length)
    | .parked => {setControl w (.reading call max out true) with sched:=sched,pipe:=pipe}
  else answer w (.read call max out out.length)

-- The processor goes to any ready task, whichever one task_schedule picks; the current
-- task calls, or runs its call's next section.
inductive Label where
  | dispatch (t : Nat)
  | pipeWrite (data : List Byte)
  | pipeRead (max : Nat)
  | proceed

def Executing (w : World) : Prop := (w.sched.tasks w.sched.current).state = .running

def Allowed (users : Sched → Nat → Prop) (w : World) : Label → Prop
  | .dispatch t => (w.sched.tasks t).state = .ready
  | .pipeWrite data =>
    Executing w ∧ w.control w.sched.current = .idle ∧ users w.sched w.sched.current ∧ data.length < 2^32
  | .pipeRead max => Executing w ∧ w.control w.sched.current = .idle ∧ users w.sched w.sched.current ∧ max < 2^32
  | .proceed => Executing w ∧ w.control w.sched.current ≠ .idle

def apply (w : World) : Label → World
  | .dispatch t => {w with sched:=switchTo w.sched t}
  | .pipeWrite data => {setControl w (.writing w.calls data 0 false) with calls:=w.calls+1}
  | .pipeRead max => {setControl w (.reading w.calls max [] false) with calls:=w.calls+1}
  | .proceed =>
    match w.control w.sched.current with
    | .idle => w
    | .writing call data i _ => writeStep w call data i
    | .reading call max out _ => readStep w call max out

def Started (w : World) : Prop :=
  w.pipe = pipeInit ∧ (∀ t,w.control t = .idle) ∧ w.calls = 0 ∧ w.inserted = [] ∧ w.removed = [] ∧ w.returned = []

-- `users` says which tasks may use the pipe.
def traffic (users : Sched → Nat → Prop) : System World Label := guarded Started (Allowed users) apply

end Arthic.Pipes
