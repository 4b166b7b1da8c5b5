import Mathlib.Data.List.TakeWhile
import Arthic.SyscallSafety
import Arthic.TaskLifetimes

namespace Arthic.ProgramOutput
open ByteMemory Pmm Scheduler SchedulerRing Syscalls SyscallSafety TaskLifetimes Transition Unsigned
variable {s after : Sched} {ring others : List Nat}

-- What ring 3 did that concerns its output: a string that SYS_WRITE accepted, or SYS_EXIT.
inductive Utterance where
  | wrote (text : List Byte)
  | exit

def said : List Utterance → List Byte
  | [] => []
  | .wrote text::rest => text++said rest
  | .exit::rest => said rest

-- The line that is not complete yet when one more byte has come.
def grow (line : List Byte) (byte : Byte) : List Byte :=
  if byte = 10#8 ∨ sizeofOutbuf-1 ≤ line.length+1 then [] else line++[byte]

def hear (line : List Byte) : Utterance → List Byte
  | .wrote text => text.foldl grow line
  | .exit => []

-- What the calls leave unfinished: the bytes since the last newline, the last line cut
-- off at 127 bytes, or SYS_EXIT.
def unfinished (calls : List Utterance) : List Byte := calls.foldl hear []

-- What terminal_write was given for the task with that serial.
def shown (s : Sched) (serial : Nat) : List Byte :=
  (s.console.filter fun p => p.speaker == some serial).flatMap Printed.text

-- The scheduler, the blocks of other code, syscall.c's variables, and for every serial
-- what its task has called for so far.
structure World where
  sched : Sched
  others : List Nat
  gate : Gate
  calls : Nat → List Utterance

inductive Label where
  | call (call : SchedulerRuns.Call)
  | syscall (bytes : Memory) (moved : Nat) (regs : Registers)
  | fault (resume : Nat) (f : Fault)
  | window (start end_ : Nat)
  | kprintf (text : String)

def heard (g : Gate) (bytes : Memory) (regs : Registers) : List Utterance :=
  if regs.eax = sysWrite then
    if (userStringOk g bytes regs.ebx 256).1 then [.wrote (textFrom bytes regs.ebx.toNat 256 0).1] else []
  else if regs.eax = sysExit then [.exit]
  else []

def syscallStep (w : World) (bytes : Memory) (moved : Nat) (regs : Registers) : World :=
  let served := syscallDispatch w.gate w.sched bytes moved regs
  let speaker := (w.sched.tasks w.sched.current).serial
  {w with
    sched:=served.sched,gate:=served.gate
    calls:=Function.update w.calls speaker (w.calls speaker++heard w.gate bytes regs)}

def faultStep (w : World) (resume : Nat) (f : Fault) : World :=
  let (text,end_) := pageFaultHandler resume ((w.sched.tasks w.sched.current).onExit != 0) f
  let s := kprintf w.sched text
  {w with sched:=if end_ = .terminated then taskTerminate s else s}

-- loader_run makes its task with task_create_ex; on the way it uses the heap and the
-- frames. What a pipe operation does to the scheduler are calls of its own.
def apply (w : World) : Label → World
  | .call call =>
    let m := SchedulerRuns.apply ⟨w.sched,w.others⟩ call
    {w with sched:=m.sched,others:=m.others}
  | .syscall bytes moved regs => syscallStep w bytes moved regs
  | .fault resume f => faultStep w resume f
  | .window start end_ => {w with gate:=syscallSetUserRange w.gate start end_}
  | .kprintf text => {w with sched:=kprintf w.sched text}

def Allowed (w : World) : Label → Prop
  | .call call => SchedulerRuns.Allowed ⟨w.sched,w.others⟩ call
  | _ => True

-- task_init is done, nothing was said, and memory that was never a record counts as zero.
structure Started (kernelEnd : Nat) (mbi : MultibootInfo) (w : World) : Prop where
  sched : SchedulerRuns.Started kernelEnd mbi ⟨w.sched,w.others⟩
  blank : ∀ t,(w.sched.tasks t).outLen = 0 ∧ (w.sched.tasks t).lineLen = 0
  silent : ∀ p ∈ w.sched.console,p.speaker = none
  unheard : ∀ n,w.calls n = []

def speaking (kernelEnd : Nat) (mbi : MultibootInfo) : System World Label := guarded (Started kernelEnd mbi) Allowed apply

-- The two buffers, whose they are, and how the task ends.
def voice (record : Task) : Nat × (Nat → Byte) × Nat × Nat × Nat :=
  (record.outLen,record.lineBuf,record.lineLen,record.serial,record.onExit)

-- Nothing is said, as long as the buffer that task.c flushes is empty; it always is.
structure Hushed (s after : Sched) : Prop where
  voices : ∀ t,voice (after.tasks t) = voice (s.tasks t)
  console : after.console = s.console
  fixed : after.births = s.births ∧ after.taskRing = s.taskRing
  reaped : ∃ more,after.reaped = s.reaped++more ∧ ∀ r ∈ more,voice r.record = voice (s.tasks r.task)

def Mute (s : Sched) : Prop := ∀ t,(s.tasks t).outLen = 0

theorem hushed_quiet (voices : ∀ t,voice (after.tasks t) = voice (s.tasks t))
    (rest : (after.console,after.births,after.taskRing,after.reaped) = (s.console,s.births,s.taskRing,s.reaped)) :
    Hushed s after := by
  simp only [Prod.mk.injEq] at rest
  obtain ⟨console,births,taskRing,reaped⟩ := rest
  exact ⟨voices,console,⟨births,taskRing⟩,[],by rw [reaped,List.append_nil],List.forall_mem_nil _⟩

theorem hushed_refl (s : Sched) : Hushed s s := hushed_quiet (fun _ => rfl) rfl

theorem hushed_trans {middle : Sched} (first : Hushed s middle) (second : Hushed middle after) : Hushed s after := by
  obtain ⟨early,earlier,own⟩ := first.reaped
  obtain ⟨late,later,others⟩ := second.reaped
  refine ⟨fun t => (second.voices t).trans (first.voices t),second.console.trans first.console,
    ⟨second.fixed.1.trans first.fixed.1,second.fixed.2.trans first.fixed.2⟩,early++late,
    by rw [later,earlier,List.append_assoc],?_⟩
  intro r member
  rcases List.mem_append.mp member with old | new
  · exact own r old
  · exact (others r new).trans (first.voices r.task)

theorem Hushed.mute (hushed : Hushed s after) (mute : Mute s) : Mute after := by
  intro t
  have same := congrArg Prod.fst (hushed.voices t)
  exact same.trans (mute t)

theorem setTask_hushed (s : Sched) (t : Nat) {record : Task} (same : voice record = voice (s.tasks t)) :
    Hushed s (setTask s t record) := by
  refine hushed_quiet ?_ rfl
  intro x
  by_cases equal : x = t
  · rw [equal]
    simpa [setTask] using same
  · simp [setTask,equal]

theorem setState_hushed (s : Sched) (t : Nat) (state : TaskState) : Hushed s (setState s t state) := setTask_hushed s t rfl

theorem flush_mute (mute : Mute s) (t : Nat) : taskFlushOutput s t = s := by
  unfold taskFlushOutput
  rw [if_pos (.inr (mute t))]

theorem reap_hushed (mute : Mute s) (prev dead : Nat) : Hushed s (reap s prev dead) := by
  have linked : Hushed s (setNext s prev (s.tasks dead).next) := setTask_hushed s prev rfl
  unfold reap
  dsimp only
  rw [flush_mute (linked.mute mute)]
  generalize setNext s prev (s.tasks dead).next = now at *
  obtain ⟨more,reaped,own⟩ := linked.reaped
  have gone : ∀ r ∈ more++[⟨dead,now.tasks dead,now.current,now.taskRing⟩],voice r.record = voice (s.tasks r.task) := by
    intro r member
    rcases List.mem_append.mp member with old | new
    · exact own r old
    · cases List.mem_singleton.mp new
      exact linked.voices dead
  split
  all_goals
    refine ⟨linked.voices,linked.console,linked.fixed,_,?_,gone⟩
    rw [←List.append_assoc,←reaped]

theorem wakeFrom_hushed (s : Sched) (rounds t : Nat) : Hushed s (wakeFrom s rounds t) := by
  have woken : ∀ (s : Sched) (t : Nat),Hushed s
      (if (s.tasks t).state = .sleeping ∧ (s.tasks t).wakeTick ≤ s.ticks then setState s t .ready else s) := by
    intro s t
    split
    · exact setState_hushed s t .ready
    · exact hushed_refl s
  induction rounds generalizing s t with
  | zero =>
    unfold wakeFrom
    exact woken s t
  | succ rounds ih =>
    have here := woken s t
    unfold wakeFrom
    dsimp only
    generalize (if (s.tasks t).state = .sleeping ∧ (s.tasks t).wakeTick ≤ s.ticks then setState s t .ready else s) = next at *
    split
    · exact here
    · exact hushed_trans here (ih next _)

theorem scan_hushed (mute : Mute s) (guard scan : Nat) : Hushed s (scanFrom s guard scan).1 := by
  induction guard generalizing s scan with
  | zero => exact hushed_refl s
  | succ guard ih =>
    unfold scanFrom
    dsimp only
    split
    · exact hushed_refl s
    · split
      · have here := reap_hushed mute scan (s.tasks scan).next
        exact hushed_trans here (ih (here.mute mute) scan)
      · exact hushed_refl s
      · exact ih mute _

theorem switchTo_hushed (s : Sched) (next : Nat) : Hushed s (switchTo s next) := by
  have exchanging : Hushed s (exchanged s next) := by
    unfold exchanged
    split
    · exact hushed_trans (setState_hushed s s.current .ready) (setState_hushed _ next .running)
    · exact setState_hushed s next .running
  have tasks := (switchTo_parts s next).1
  refine hushed_quiet (fun t => by rw [tasks]; exact exchanging.voices t) ?_
  unfold switchTo
  dsimp only
  split <;> split <;> split <;> rfl

theorem schedule_hushed (mute : Mute s) : Hushed s (taskSchedule s) := by
  unfold taskSchedule
  split
  · exact hushed_refl s
  · have woken := wakeFrom_hushed s ringGuard s.taskRing
    have scanned := hushed_trans woken (scan_hushed (woken.mute mute) ringGuard (wakeSleepers s).current)
    unfold resume
    dsimp only
    split
    · exact hushed_trans scanned (switchTo_hushed _ _)
    · split
      · exact scanned
      · exact hushed_trans scanned (switchTo_hushed _ _)

-- The current task stops in some way and the next one runs.
theorem stop_hushed (mute : Mute s) {record : Task} (same : voice record = voice (s.tasks t)) :
    Hushed s (taskSchedule (setTask s t record)) := by
  have stopped := setTask_hushed s t same
  exact hushed_trans stopped (schedule_hushed (stopped.mute mute))

theorem terminate_hushed (mute : Mute s) : Hushed s (taskTerminate s) := by
  unfold taskTerminate
  split
  · exact hushed_refl s
  · rw [flush_mute mute]
    exact stop_hushed mute rfl

theorem call_hushed (others : List Nat) (mute : Mute s) (quiet : Quiet call) : Hushed s (SchedulerRuns.apply ⟨s,others⟩ call).sched := by
  cases call with
  | taskSchedule => exact schedule_hushed mute
  | taskSleep ticks =>
    simp only [SchedulerRuns.apply,taskSleep]
    split
    · exact hushed_refl s
    · exact stop_hushed mute rfl
  | taskBlock =>
    simp only [SchedulerRuns.apply,taskBlock]
    split
    · exact hushed_refl s
    · unfold leave
      split
      · exact schedule_hushed mute
      · exact stop_hushed mute rfl
  | taskUnblock t =>
    simp only [SchedulerRuns.apply,taskUnblock]
    split
    · exact setState_hushed s t .ready
    · exact hushed_refl s
  | taskKill id =>
    simp only [SchedulerRuns.apply,taskKill]
    split
    · exact hushed_refl s
    · split
      · exact hushed_refl s
      · split
        · exact hushed_refl s
        · have marked : Hushed s (setState s (taskById s id) .finished) := setState_hushed ..
          dsimp only
          split
          · exact hushed_trans marked (terminate_hushed (marked.mute mute))
          · exact marked
  | taskExit =>
    simp only [SchedulerRuns.apply,taskExit]
    split
    · exact hushed_refl s
    · exact stop_hushed mute rfl
  | taskTerminate => exact terminate_hushed mute
  | taskSetAddressSpace pageDir =>
    simp only [SchedulerRuns.apply,taskSetAddressSpace]
    split
    · exact hushed_refl s
    · have moved : Hushed s (setTask s s.current {s.tasks s.current with pageDir:=pageDir}) := setTask_hushed s _ rfl
      exact ⟨moved.voices,moved.console,moved.fixed,moved.reaped⟩
  | tick => exact hushed_quiet (fun _ => rfl) rfl
  | taskCreateEx pageDir arg onExit => cases quiet
  | heap call => cases quiet
  | frames next => cases quiet

-- What a record holds of the line its task is writing.
def line (record : Task) : List Byte := (List.range record.lineLen).map record.lineBuf

structure Sane (record : Task) : Prop where
  short : record.lineLen < sizeofOutbuf-1
  text : ∀ byte ∈ line record,byte ≠ 0#8

-- Only this task's line moves, to the record or from there to the screen.
structure Voiced (t : Nat) (s after : Sched) : Prop where
  others : ∀ x,x ≠ t → after.tasks x = s.tasks x
  own : {after.tasks t with lineBuf:=(s.tasks t).lineBuf,lineLen:=(s.tasks t).lineLen} = s.tasks t
  rest : {after with tasks:=s.tasks,console:=s.console} = s

theorem voiced_refl (t : Nat) (s : Sched) : Voiced t s s := ⟨fun _ _ => rfl,rfl,rfl⟩

theorem voiced_trans {middle : Sched} (first : Voiced t s middle) (second : Voiced t middle after) : Voiced t s after := by
  refine ⟨fun x other => (second.others x other).trans (first.others x other),?_,?_⟩
  · rw [←first.own,←second.own]
  · rw [←first.rest,←second.rest]

theorem setLine_voiced (s : Sched) (t : Nat) (buf : Nat → Byte) (length : Nat) (console : List Printed) :
    Voiced t s {setTask s t {s.tasks t with lineBuf:=buf,lineLen:=length} with console:=console} := by
  refine ⟨?_,?_,rfl⟩
  · intro x other
    simp [setTask,other]
  · simp [setTask]

theorem showLine_line (sane : ∀ byte ∈ line (s.tasks t),byte ≠ 0#8) :
    showLine s t = {setTask s t {s.tasks t with
        lineBuf:=Function.update (s.tasks t).lineBuf (s.tasks t).lineLen 0#8,lineLen:=0} with
      console:=s.console++[⟨some (s.tasks t).serial,line (s.tasks t)⟩]} := by
  have same : (List.range (s.tasks t).lineLen).map (Function.update (s.tasks t).lineBuf (s.tasks t).lineLen 0#8) =
      line (s.tasks t) := by
    apply List.map_congr_left
    intro i below
    rw [List.mem_range] at below
    exact Function.update_of_ne (by omega) _ _
  unfold showLine
  dsimp only
  rw [same,List.takeWhile_eq_self_iff.mpr (by simpa using sane)]

-- A task says something: what of it is not on the screen yet is in its record.
structure Speech (t : Nat) (s after : Sched) (text : List Byte) : Prop extends Voiced t s after where
  sane : Sane (after.tasks t)
  told : shown after (serialOf s t)++line (after.tasks t) = shown s (serialOf s t)++line (s.tasks t)++text
  alone : ∀ n,n ≠ serialOf s t → shown after n = shown s n

theorem Voiced.serial (voiced : Voiced t s after) : serialOf after t = serialOf s t := by
  rw [serialOf,serialOf,←voiced.own]

theorem speech_trans {middle : Sched} (first : Speech t s middle text) (second : Speech t middle after more) :
    Speech t s after (text++more) := by
  have same := first.serial
  refine ⟨voiced_trans first.toVoiced second.toVoiced,second.sane,?_,?_⟩
  · have own := second.told
    rw [same,first.told,List.append_assoc] at own
    exact own
  · intro n other
    rw [second.alone n (by rw [same]; exact other),first.alone n other]

theorem shown_spoken (buf : Nat → Byte) (length : Nat) (text : List Byte) (n : Nat) :
    shown {setTask s t {s.tasks t with lineBuf:=buf,lineLen:=length} with console:=s.console++[⟨some (serialOf s t),text⟩]} n =
      shown s n++if n = serialOf s t then text else [] := by
  by_cases own : n = serialOf s t
  · simp [shown,own]
  · simp [shown,own,Ne.symm own]

theorem show_speech (sane : ∀ byte ∈ line (s.tasks t),byte ≠ 0#8) :
    Speech t s (showLine s t) [] ∧ line ((showLine s t).tasks t) = [] := by
  have empty : line ((showLine s t).tasks t) = [] := by
    rw [showLine_line sane]
    simp [line,setTask]
  refine ⟨⟨?_,⟨?_,?_⟩,?_,?_⟩,empty⟩
  · rw [showLine_line sane]
    exact setLine_voiced ..
  · rw [showLine_line sane]
    simp [setTask,sizeofOutbuf]
  · rw [empty]
    exact List.forall_mem_nil _
  · rw [empty,showLine_line sane]
    change shown {setTask s t _ with console:=s.console++[⟨some (serialOf s t),_⟩]} _++_ = _
    rw [shown_spoken,if_pos rfl,List.append_nil]
  · intro n other
    rw [showLine_line sane]
    change shown {setTask s t _ with console:=s.console++[⟨some (serialOf s t),_⟩]} _ = _
    rw [shown_spoken,if_neg other,List.append_nil]

theorem flush_speech (real : t ≠ 0) (sane : Sane (s.tasks t)) :
    Speech t s (syscallFlushOutput s t) [] ∧ line ((syscallFlushOutput s t).tasks t) = [] := by
  unfold syscallFlushOutput
  split
  · rename_i none
    refine ⟨⟨voiced_refl t s,sane,by rw [List.append_nil],fun _ _ => rfl⟩,?_⟩
    rw [line,none.resolve_left real]
    rfl
  · exact show_speech sane.text

-- The record with one more byte, before it is asked whether the line is complete.
def taken (s : Sched) (t : Nat) (byte : Byte) : Sched :=
  setTask s t {s.tasks t with
    lineBuf:=Function.update (s.tasks t).lineBuf (s.tasks t).lineLen byte,lineLen:=wrap 32 ((s.tasks t).lineLen+1)}

theorem taken_line (sane : Sane (s.tasks t)) (byte : Byte) :
    ((taken s t byte).tasks t).lineLen = (s.tasks t).lineLen+1 ∧ line ((taken s t byte).tasks t) = line (s.tasks t)++[byte] := by
  have short := sane.short
  have small : wrap 32 ((s.tasks t).lineLen+1) = (s.tasks t).lineLen+1 := by
    apply wrap_small
    simp only [sizeofOutbuf] at short
    omega
  refine ⟨by simp [taken,setTask,small],?_⟩
  have before : ∀ i ∈ List.range (s.tasks t).lineLen,
      Function.update (s.tasks t).lineBuf (s.tasks t).lineLen byte i = (s.tasks t).lineBuf i := by
    intro i below
    rw [List.mem_range] at below
    exact Function.update_of_ne (by omega) _ _
  simp only [line,taken,setTask,Function.update_self,small,List.range_succ,List.map_append,List.map_cons,List.map_nil]
  rw [List.map_congr_left before]

theorem line_length (record : Task) : (line record).length = record.lineLen := by simp [line]

theorem byte_speech (sane : Sane (s.tasks t)) (text : byte ≠ 0#8) :
    Speech t s (bufferByte t s byte) [byte] ∧ line ((bufferByte t s byte).tasks t) = grow (line (s.tasks t)) byte := by
  obtain ⟨length,grown⟩ := taken_line sane byte
  have voiced : Voiced t s (taken s t byte) := setLine_voiced s t _ _ s.console
  have printable : ∀ other ∈ line ((taken s t byte).tasks t),other ≠ 0#8 := by
    rw [grown]
    intro other member
    rcases List.mem_append.mp member with old | new
    · exact sane.text other old
    · rw [List.mem_singleton.mp new]
      exact text
  have shows : ∀ n,shown (taken s t byte) n = shown s n := fun _ => rfl
  change Speech t s (if byte = 10#8 ∨ sizeofOutbuf-1 ≤ ((taken s t byte).tasks t).lineLen then
      showLine (taken s t byte) t else taken s t byte) _ ∧ line ((if byte = 10#8 ∨
      sizeofOutbuf-1 ≤ ((taken s t byte).tasks t).lineLen then showLine (taken s t byte) t else taken s t byte).tasks t) = _
  rw [length,grow,line_length]
  generalize taken s t byte = now at *
  split
  · obtain ⟨speech,empty⟩ := show_speech printable
    refine ⟨⟨voiced_trans voiced speech.toVoiced,speech.sane,?_,?_⟩,empty⟩
    · have own := speech.told
      rw [voiced.serial,shows,grown,List.append_nil,←List.append_assoc] at own
      exact own
    · intro n other
      rw [speech.alone n (by rw [voiced.serial]; exact other),shows]
  · rename_i open_
    simp only [not_or,not_le] at open_
    refine ⟨⟨voiced,⟨?_,printable⟩,?_,fun n _ => shows n⟩,grown⟩
    · rw [length]
      exact open_.2
    · rw [shows,grown,List.append_assoc]

theorem text_speech (sane : Sane (s.tasks t)) (printable : ∀ byte ∈ text,byte ≠ 0#8) :
    Speech t s (text.foldl (bufferByte t) s) text ∧
      line ((text.foldl (bufferByte t) s).tasks t) = text.foldl grow (line (s.tasks t)) := by
  induction text generalizing s with
  | nil => exact ⟨⟨voiced_refl t s,sane,by rw [List.foldl_nil,List.append_nil],fun _ _ => rfl⟩,rfl⟩
  | cons byte rest ih =>
    obtain ⟨head,tail⟩ := List.forall_mem_cons.mp printable
    obtain ⟨first,grown⟩ := byte_speech sane head
    obtain ⟨later,final⟩ := ih first.sane tail
    rw [List.foldl_cons,List.foldl_cons]
    refine ⟨speech_trans first later,?_⟩
    rw [final,grown]

theorem textFrom_text (bytes : Memory) (ptr left i : Nat) : ∀ byte ∈ (textFrom bytes ptr left i).1,byte ≠ 0#8 := by
  induction left generalizing i with
  | zero => exact List.forall_mem_nil _
  | succ left ih =>
    unfold textFrom
    dsimp only
    split
    · exact List.forall_mem_nil _
    · rename_i more
      exact List.forall_mem_cons.mpr ⟨more,ih (i+1)⟩

-- What the dispatcher does to the scheduler, with what it has accepted.
inductive Dispatched (s : Sched) : Sched → List Utterance → Prop where
  | unchanged : Dispatched s s []
  | refused (text : String) : Dispatched s (kprintf s text) []
  | wrote : (∀ byte ∈ text,byte ≠ 0#8) → Dispatched s (bufferedWrite s s.current text) [.wrote text]
  | slept (ticks : Nat) : Dispatched s (taskSleep s ticks) []
  | terminated : ((syscallFlushOutput s s.current).tasks (syscallFlushOutput s s.current).current).onExit ≠ 0 →
      Dispatched s (taskTerminate (syscallFlushOutput s s.current)) [.exit]
  | unwound : Dispatched s (syscallFlushOutput s s.current) [.exit]

theorem dispatch_cases (g : Gate) (s : Sched) (bytes : Memory) (moved : Nat) (regs : Registers) :
    Dispatched s (syscallDispatch g s bytes moved regs).sched (heard g bytes regs) := by
  unfold syscallDispatch heard
  by_cases write : regs.eax = sysWrite
  · simp only [if_pos write]
    generalize userStringOk g bytes regs.ebx 256 = answer
    obtain ⟨ok,checked⟩ := answer
    cases ok with
    | false => exact .refused _
    | true => exact .wrote (textFrom_text bytes regs.ebx.toNat 256 0)
  simp only [if_neg write]
  by_cases exits : regs.eax = sysExit
  · simp only [exits,sysExit,sysTicks,sysSleep,sysId,sysPipeWrite,sysPipeRead,BitVec.reduceEq,reduceIte]
    split
    · rename_i ends
      exact .terminated ends.2
    · exact .unwound
  simp only [if_neg exits]
  split
  · exact .unchanged
  split
  · exact .slept _
  split
  · exact .unchanged
  split
  · split
    · exact .refused _
    · exact .unchanged
  split
  · split
    · exact .refused _
    · exact .unchanged
  · exact .refused _

section Accounts
variable {w next : World}

-- A task's record accounts for its calls: what is not on the screen is its unfinished line.
structure Accounted (w : World) (record : Task) : Prop where
  sane : Sane record
  rest : line record = unfinished (w.calls record.serial)
  told : shown w.sched record.serial++line record = said (w.calls record.serial)

structure Told (w : World) (ring : List Nat) : Prop where
  valid : Ring w.sched ring w.others
  running : Running w.sched
  mute : Mute w.sched
  root : (w.sched.tasks w.sched.taskRing).onExit = 0
  alive : ∀ t ∈ ring,Accounted w (w.sched.tasks t)
  dead : ∀ r ∈ w.sched.reaped,Accounted w r.record
  unborn : ∀ n,w.sched.births ≤ n → w.calls n = [] ∧ shown w.sched n = []

theorem accounted_voice (accounted : Accounted w record) (same : voice other = voice record) (calls : next.calls = w.calls)
    (shows : shown next.sched = shown w.sched) : Accounted next other := by
  simp only [voice,Prod.mk.injEq] at same
  obtain ⟨_,buf,length,serial,_⟩ := same
  have lines : line other = line record := by rw [line,line,buf,length]
  refine ⟨⟨by rw [length]; exact accounted.sane.short,by rw [lines]; exact accounted.sane.text⟩,?_,?_⟩
  · rw [lines,serial,calls]
    exact accounted.rest
  · rw [lines,serial,calls,shows]
    exact accounted.told

-- A step in which nothing is said. Every record is an old one, or that of a new task.
theorem told_quiet (told : Told w ring) (valid : Ring next.sched left next.others) (running : Running next.sched)
    (mute : Mute next.sched) (root : (next.sched.tasks next.sched.taskRing).onExit = 0) (calls : next.calls = w.calls)
    (shows : shown next.sched = shown w.sched) (births : w.sched.births ≤ next.sched.births)
    (alive : ∀ t ∈ left,(∃ x ∈ ring,voice (next.sched.tasks t) = voice (w.sched.tasks x)) ∨
      (next.sched.tasks t).lineLen = 0 ∧ w.sched.births ≤ (next.sched.tasks t).serial)
    (dead : ∀ r ∈ next.sched.reaped,r ∈ w.sched.reaped ∨ ∃ x ∈ ring,voice r.record = voice (w.sched.tasks x)) :
    Told next left := by
  refine ⟨valid,running,mute,root,?_,?_,?_⟩
  · intro t member
    rcases alive t member with ⟨x,old,same⟩ | ⟨length,new⟩
    · exact accounted_voice (told.alive x old) same calls shows
    · obtain ⟨uncalled,unseen⟩ := told.unborn _ new
      have empty : line (next.sched.tasks t) = [] := by
        rw [line,length]
        rfl
      refine ⟨⟨by rw [length]; decide,by rw [empty]; exact List.forall_mem_nil _⟩,?_,?_⟩
      · rw [empty,calls,uncalled]
        rfl
      · rw [empty,calls,uncalled,shows,unseen]
        rfl
  · intro r member
    rcases dead r member with old | ⟨x,here,same⟩
    · exact accounted_voice (told.dead r old) rfl calls shows
    · exact accounted_voice (told.alive x here) same calls shows
  · intro n late
    rw [calls,shows]
    exact told.unborn n (births.trans late)

theorem shown_console (same : after.console = s.console) : shown after = shown s := by
  funext n
  rw [shown,shown,same]

theorem told_hushed (told : Told w ring) (hushed : Hushed w.sched after) (passes : Passes w.sched after ring w.others)
    (running : Running after) : ∃ left,Told {w with sched:=after} left := by
  obtain ⟨dead,left,course,valid,perm,_⟩ := passes
  obtain ⟨more,grown,own⟩ := hushed.reaped
  have gone : more.map Reaping.task = dead := by
    have all := course.reaped
    rw [grown,List.map_append] at all
    exact List.append_cancel_left all
  refine ⟨left,told_quiet told valid running (hushed.mute told.mute) ?_ rfl (shown_console hushed.console)
    hushed.fixed.1.ge ?_ ?_⟩
  · have same := hushed.voices w.sched.taskRing
    simp only [voice,Prod.mk.injEq] at same
    dsimp only
    rw [hushed.fixed.2,same.2.2.2.2]
    exact told.root
  · intro t member
    exact .inl ⟨t,perm.mem_iff.mpr (List.mem_append_right _ member),hushed.voices t⟩
  · intro r member
    dsimp only at member
    rw [grown] at member
    rcases List.mem_append.mp member with old | new
    · exact .inl old
    · refine .inr ⟨r.task,perm.mem_iff.mpr (List.mem_append_left _ ?_),own r new⟩
      rw [←gone]
      exact List.mem_map_of_mem new

-- The tasks and what was printed stay, whatever else changes.
theorem told_same (told : Told w ring) (valid : Ring next.sched ring next.others) (tasks : next.sched.tasks = w.sched.tasks)
    (rest : (next.sched.current,next.sched.taskRing,next.sched.births,next.sched.reaped,next.calls) =
      (w.sched.current,w.sched.taskRing,w.sched.births,w.sched.reaped,w.calls))
    (shows : shown next.sched = shown w.sched) : Told next ring := by
  simp only [Prod.mk.injEq] at rest
  obtain ⟨current,taskRing,births,reaped,calls⟩ := rest
  refine told_quiet told valid ?_ ?_ ?_ calls shows births.ge ?_ ?_
  · rw [Running,current,tasks]
    exact told.running
  · rw [Mute,tasks]
    exact told.mute
  · rw [taskRing,tasks]
    exact told.root
  · intro t member
    exact .inl ⟨t,member,by rw [tasks]⟩
  · intro r member
    rw [reaped] at member
    exact .inl member

theorem told_kprintf (told : Told w ring) (text : String) : Told {w with sched:=kprintf w.sched text} ring := by
  refine told_same told {told.valid with} rfl rfl ?_
  funext n
  simp [shown,kprintf]

theorem joined_voice (different : t ≠ s.current) (heap : Kheap.Heap) (frames : State 32) (record : Task) :
    voice ((joined s t heap frames record).tasks t) = voice record ∧
    ∀ x,x ≠ t → voice ((joined s t heap frames record).tasks x) = voice (s.tasks x) := by
  refine ⟨by simp [joined,setNext,setTask,voice,different],?_⟩
  intro x elsewhere
  by_cases current : x = s.current
  · subst current
    simp [joined,setNext,setTask,voice,different.symm]
  · simp [joined,setNext,setTask,voice,elsewhere,current]

theorem told_create (told : Told w ring) (pageDir arg onExit : Nat) :
    ∃ longer,Told {w with sched:=(taskCreateEx w.sched pageDir arg onExit).2} longer := by
  rcases create_joins told.valid told.running pageDir arg onExit with
    ⟨heap,frames,same,valid⟩ | ⟨t,heap,frames,stack,longer,made,new,valid,running,perm⟩
  · refine ⟨ring,told_same told valid ?_ ?_ ?_⟩ <;> dsimp only <;> rw [same]
    rfl
  · have different : t ≠ w.sched.current := by
      rintro rfl
      exact new told.valid.current
    obtain ⟨own,elsewhere⟩ := joined_voice different heap frames (newTask w.sched stack pageDir arg onExit)
    rw [made] at valid running ⊢
    have outside : ∀ x ∈ ring,x ≠ t := by
      rintro x member rfl
      exact new member
    have apart : voice ((joined w.sched t heap frames (newTask w.sched stack pageDir arg onExit)).tasks
        w.sched.taskRing) = voice (w.sched.tasks w.sched.taskRing) := elsewhere _ (outside _ told.valid.first)
    simp only [voice,Prod.mk.injEq] at own apart
    refine ⟨longer,told_quiet told valid running ?_ ?_ rfl (shown_console rfl) (Nat.le_succ _) ?_ fun r member => .inl member⟩
    · intro x
      by_cases equal : x = t
      · rw [equal]
        exact own.1
      · exact (congrArg Prod.fst (elsewhere x equal)).trans (told.mute x)
    · exact apart.2.2.2.2.trans told.root
    · intro x member
      rcases List.mem_cons.mp (perm.mem_iff.mp member) with rfl | old
      · exact .inr ⟨own.2.2.1,own.2.2.2.1.ge⟩
      · exact .inl ⟨x,old,elsewhere x (outside x old)⟩

theorem said_append (first second : List Utterance) : said (first++second) = said first++said second := by
  induction first with
  | nil => rfl
  | cons call rest ih => cases call <;> simp [said,ih]

-- Who is on the ring has a serial of its own, also among those who are gone.
theorem serial_apart (valid : Ring s ring others) (member : t ∈ ring) :
    (∀ x ∈ ring,x ≠ t → serialOf s x ≠ serialOf s t) ∧ (∀ r ∈ s.reaped,r.record.serial ≠ serialOf s t) ∧
      serialOf s t < s.births := by
  have distinct : (ring.map (serialOf s)++reapedSerials s).Nodup := valid.accounts.nodup_iff.mpr List.nodup_range
  obtain ⟨once,_,apart⟩ := List.nodup_append.mp distinct
  have here : serialOf s t ∈ ring.map (serialOf s) := List.mem_map_of_mem member
  refine ⟨?_,?_,?_⟩
  · intro x there other same
    exact other (List.inj_on_of_nodup_map once there member same)
  · intro r gone same
    exact apart _ here _ (List.mem_map_of_mem (f:=fun r => r.record.serial) gone) same.symm
  · exact List.mem_range.mp (valid.accounts.mem_iff.mp (List.mem_append_left _ here))

theorem voiced_ring (valid : Ring s ring others) (voiced : Voiced t s after) : Ring after ring others := by
  have fields : ∀ x,(after.tasks x).next = (s.tasks x).next ∧ (after.tasks x).state = (s.tasks x).state ∧
      (after.tasks x).id = (s.tasks x).id ∧ (after.tasks x).serial = (s.tasks x).serial := by
    intro x
    by_cases equal : x = t
    · rw [equal,←voiced.own]
      exact ⟨rfl,rfl,rfl,rfl⟩
    · rw [voiced.others x equal]
      exact ⟨rfl,rfl,rfl,rfl⟩
  have rest := voiced.rest
  refine ring_same valid (funext fun x => (fields x).1) (fun x => (fields x).2.1) (fun x => (fields x).2.2.1)
    (funext fun x => (fields x).2.2.2) ?_ ?_ ?_ <;> rw [←rest]

def spoken (w : World) (after : Sched) (calls : List Utterance) : World :=
  let speaker := serialOf w.sched w.sched.current
  {w with sched:=after,calls:=Function.update w.calls speaker (w.calls speaker++calls)}

theorem spoken_nothing (w : World) (after : Sched) : spoken w after [] = {w with sched:=after} := by
  rw [spoken,List.append_nil,Function.update_eq_self]

-- The current task says something, or has the kernel show what is left.
theorem told_speech (call : Utterance) (told : Told w ring) (speech : Speech w.sched.current w.sched after (said [call]))
    (rest : line (after.tasks w.sched.current) = hear (line (w.sched.tasks w.sched.current)) call) :
    Told (spoken w after [call]) ring := by
  obtain ⟨apart,gone,born⟩ := serial_apart told.valid told.valid.current
  have current := told.alive _ told.valid.current
  have fixed := speech.rest
  have untouched : ∀ record,Accounted w record → record.serial ≠ serialOf w.sched w.sched.current →
      Accounted (spoken w after [call]) record := by
    intro record accounted other
    refine ⟨accounted.sane,?_,?_⟩
    · dsimp only [spoken]
      rw [Function.update_of_ne other]
      exact accounted.rest
    · dsimp only [spoken]
      rw [Function.update_of_ne other,speech.alone _ other]
      exact accounted.told
  refine ⟨voiced_ring told.valid speech.toVoiced,?_,?_,?_,?_,?_,?_⟩
  · have same : after.current = w.sched.current := by rw [←fixed]
    change (after.tasks after.current).state = _
    rw [same]
    have state := congrArg Task.state speech.own
    exact state.trans told.running
  · intro x
    by_cases equal : x = w.sched.current
    · rw [equal]
      exact (congrArg Task.outLen speech.own).trans (told.mute _)
    · dsimp only [spoken]
      rw [speech.others x equal]
      exact told.mute x
  · have same : after.taskRing = w.sched.taskRing := by rw [←fixed]
    dsimp only [spoken]
    rw [same]
    by_cases equal : w.sched.taskRing = w.sched.current
    · rw [equal]
      have kept := congrArg Task.onExit speech.own
      rw [←equal] at kept ⊢
      exact kept.trans told.root
    · rw [speech.others _ equal]
      exact told.root
  · intro x member
    by_cases equal : x = w.sched.current
    · have serial : (after.tasks w.sched.current).serial = serialOf w.sched w.sched.current := speech.serial
      rw [equal]
      refine ⟨speech.sane,?_,?_⟩
      · dsimp only [spoken]
        rw [serial,Function.update_self,unfinished,List.foldl_append,List.foldl_cons,List.foldl_nil,rest,current.rest]
        rfl
      · dsimp only [spoken]
        rw [serial,Function.update_self,said_append,speech.told]
        exact congrArg (·++said [call]) current.told
    · dsimp only [spoken]
      rw [speech.others x equal]
      exact untouched _ (told.alive x member) (apart x member equal)
  · intro r member
    have same : after.reaped = w.sched.reaped := by rw [←fixed]
    dsimp only [spoken] at member
    rw [same] at member
    exact untouched _ (told.dead r member) (gone r member)
  · intro n late
    have same : after.births = w.sched.births := by rw [←fixed]
    dsimp only [spoken] at late ⊢
    rw [same] at late
    have other : n ≠ serialOf w.sched w.sched.current := by omega
    rw [Function.update_of_ne other,speech.alone n other]
    exact told.unborn n late

theorem told_call (call : SchedulerRuns.Call) (told : Told w ring) (allowed : SchedulerRuns.Allowed ⟨w.sched,w.others⟩ call) :
    ∃ left,Told (apply w (.call call)) left := by
  have running : Running (SchedulerRuns.apply ⟨w.sched,w.others⟩ call).sched := by
    obtain ⟨_,_,running⟩ := SchedulerRuns.kept_step ⟨ring,told.valid,told.running⟩ allowed
    exact running
  by_cases quiet : Quiet call
  · obtain ⟨passes,others⟩ := call_passes told.valid told.running allowed quiet
    have hushed := told_hushed told (call_hushed w.others told.mute quiet) passes running
    simp only [apply]
    rwa [others]
  · cases call with
    | taskCreateEx pageDir arg onExit => exact told_create told pageDir arg onExit
    | heap call => exact ⟨ring,told_same told (SchedulerRuns.ring_heap told.valid allowed) rfl rfl rfl⟩
    | frames next => exact ⟨ring,told_same told {told.valid with} rfl rfl rfl⟩
    | _ => exact absurd trivial quiet

theorem told_terminate (told : Told w ring) (ends : (w.sched.tasks w.sched.current).onExit ≠ 0) :
    ∃ left,Told {w with sched:=taskTerminate w.sched} left := by
  have created : w.sched.current ≠ w.sched.taskRing := by
    intro root
    rw [root] at ends
    exact ends told.root
  exact told_call .taskTerminate told created

theorem told_dispatched (told : Told w ring) (dispatched : Dispatched w.sched after calls) :
    ∃ left,Told (spoken w after calls) left := by
  have real := told.valid.nonzero told.valid.current
  have sane := (told.alive _ told.valid.current).sane
  cases dispatched with
  | unchanged =>
    rw [spoken_nothing]
    exact ⟨ring,told⟩
  | refused text =>
    rw [spoken_nothing]
    exact ⟨ring,told_kprintf told text⟩
  | slept ticks =>
    rw [spoken_nothing]
    exact told_call (.taskSleep ticks) told trivial
  | @wrote text printable =>
    rw [bufferedWrite,if_neg real]
    obtain ⟨speech,rest⟩ := text_speech sane printable
    refine ⟨ring,told_speech (.wrote text) told ?_ rest⟩
    rwa [said,said,List.append_nil]
  | terminated ends =>
    obtain ⟨speech,rest⟩ := flush_speech real sane
    exact told_terminate (told_speech .exit told speech rest) ends
  | unwound =>
    obtain ⟨speech,rest⟩ := flush_speech real sane
    exact ⟨ring,told_speech .exit told speech rest⟩

theorem told_gate (told : Told w ring) (gate : Gate) : Told {w with gate:=gate} ring := told_same told told.valid rfl rfl rfl

theorem told_fault (told : Told w ring) (resume : Nat) (f : Fault) : ∃ left,Told (faultStep w resume f) left := by
  have terminates : (pageFaultHandler resume ((w.sched.tasks w.sched.current).onExit != 0) f).2 = .terminated →
      (w.sched.tasks w.sched.current).onExit ≠ 0 := by
    intro ends zero
    rw [zero,pageFaultHandler] at ends
    by_cases resumes : resume = 0
    · rw [if_neg (not_not.mpr resumes)] at ends
      cases user : f.bit 4#32 <;> simp [user] at ends
    · rw [if_pos resumes] at ends
      cases ends
  unfold faultStep
  generalize pageFaultHandler resume _ f = answer at *
  obtain ⟨text,end_⟩ := answer
  have printed := told_kprintf told text
  dsimp only at *
  split
  · rename_i ends
    exact told_terminate printed (terminates ends)
  · exact ⟨ring,printed⟩

theorem told_step (told : Told w ring) (allowed : Allowed w label) : ∃ left,Told (apply w label) left := by
  cases label with
  | call call => exact told_call call told allowed
  | syscall bytes moved regs =>
    have dispatched := dispatch_cases w.gate w.sched bytes moved regs
    exact told_dispatched (told_gate told (syscallDispatch w.gate w.sched bytes moved regs).gate) dispatched
  | fault resume f => exact told_fault told resume f
  | window start end_ => exact ⟨ring,told_gate told _⟩
  | kprintf text => exact ⟨ring,told_kprintf told text⟩

theorem init_root (started : (taskInit s espNow).enabled = true) (off : s.enabled = false) :
    ((taskInit s espNow).tasks (taskInit s espNow).taskRing).onExit = 0 := by
  unfold taskInit at *
  generalize Kheap.kmalloc .i386 s.heap sizeofTask = answer at *
  obtain ⟨t,heap⟩ := answer
  dsimp only at *
  by_cases refused : t = 0
  · rw [if_pos refused] at started
    change s.enabled = true at started
    rw [started] at off
    cases off
  · rw [if_neg refused]
    simp [setTask]

theorem started_told (started : Started kernelEnd mbi w) : ∃ ring,Told w ring := by
  obtain ⟨ring,valid,running⟩ := SchedulerRuns.started_kept started.sched
  have unseen : ∀ n,shown w.sched n = [] := by
    intro n
    rw [shown,List.filter_eq_nil_iff.mpr]
    · rfl
    · intro p member
      rw [started.silent p member]
      simp
  obtain ⟨⟨before,espNow,made,off,_,none,unreaped,_⟩,enabled⟩ := started.sched
  dsimp only at made enabled
  refine ⟨ring,valid,running,fun t => (started.blank t).1,?_,?_,?_,fun n _ => ⟨started.unheard n,unseen n⟩⟩
  · rw [made] at enabled ⊢
    exact init_root enabled off
  · intro t _
    have empty : line (w.sched.tasks t) = [] := by
      rw [line,(started.blank t).2]
      rfl
    refine ⟨⟨by rw [(started.blank t).2]; decide,by rw [empty]; exact List.forall_mem_nil _⟩,?_,?_⟩
    · rw [empty,started.unheard]
      rfl
    · rw [empty,unseen,started.unheard]
      rfl
  · have nobody : w.sched.reaped = [] := by
      rw [made]
      unfold taskInit
      dsimp only
      split
      · exact unreaped
      · exact unreaped
    rw [nobody]
    exact List.forall_mem_nil _

theorem runs_told (path : Reached (speaking kernelEnd mbi) w) : ∃ ring,Told w ring := by
  apply path.invariant
  · exact fun _ => started_told
  · rintro w label next ⟨ring,told⟩ ⟨allowed,rfl⟩
    exact told_step told allowed

-- task.c flushes a buffer that nobody fills, so the end of a task shows nothing. What a
-- reaped task called for is all there exactly if it left no line unfinished.
theorem output_complete (path : Reached (speaking kernelEnd mbi) w) (gone : r ∈ w.sched.reaped) :
    shown w.sched r.record.serial = said (w.calls r.record.serial) ↔ unfinished (w.calls r.record.serial) = [] := by
  obtain ⟨_,told⟩ := runs_told path
  obtain ⟨_,rest,all⟩ := told.dead r gone
  rw [←rest,←all]
  constructor
  · exact fun same => List.append_right_eq_self.mp same.symm
  · intro empty
    rw [empty,List.append_nil]

end Accounts

-- A program writes one string and then touches a page it does not have; task 0 reaps it.
def silence : World where
  sched := SchedulerRuns.freshStart.sched
  others := []
  gate := {}
  calls := fun _ => []

def dying (text : List Byte) : List Label :=
  [.call (.frames ⟨fun _ => 1#32,32,1⟩),.call (.taskCreateEx 0 1 Loader.programCleanup),
    .window Loader.userLoadAddr Loader.userStackTop,.call .taskSchedule,
    .syscall (fun addr => text.getD (addr-Loader.userLoadAddr) 0#8) 0 ⟨sysWrite,.ofNat 32 Loader.userLoadAddr,0#32⟩,
    .fault 0 ⟨4#32,0#32,0x20000000#32⟩,.call .taskSchedule]

def died (text : List Byte) : World := (dying text).foldl apply silence

theorem init_blank (s : Sched) (espNow : Nat) (blank : ∀ t,(s.tasks t).outLen = 0 ∧ (s.tasks t).lineLen = 0) :
    (∀ t,((taskInit s espNow).tasks t).outLen = 0 ∧ ((taskInit s espNow).tasks t).lineLen = 0) ∧
      (taskInit s espNow).console = s.console := by
  unfold taskInit
  dsimp only
  split
  · exact ⟨blank,rfl⟩
  · refine ⟨fun t => ?_,rfl⟩
    by_cases equal : t = (Kheap.kmalloc .i386 s.heap sizeofTask).1
    · simp [setTask,equal]
    · simpa [setTask,equal] using blank t

theorem silence_started : Started 0x101000 KheapRuns.roomyMap silence := by
  obtain ⟨blank,console⟩ := init_blank (SchedulerRuns.blankSched (KheapRuns.freshHeap .i386 0x102000)) 0x200000
    fun _ => ⟨rfl,rfl⟩
  refine ⟨SchedulerRuns.freshStart_started,blank,?_,fun _ => rfl⟩
  intro p member
  change p ∈ (taskInit (SchedulerRuns.blankSched (KheapRuns.freshHeap .i386 0x102000)) 0x200000).console at member
  rw [console] at member
  cases member

theorem died_reached (text : List Byte) : Reached (speaking 0x101000 KheapRuns.roomyMap) (died text) := by
  refine @reached_by _ _ _ _ _ silence (dying text) silence_started ?_
  exact ⟨trivial,trivial,trivial,trivial,trivial,trivial,trivial,trivial⟩

-- With a newline at its end the string is seen.
theorem output_complete_small : ∃ r ∈ (died [97#8,10#8]).sched.reaped,r.record.onExit = Loader.programCleanup ∧
    shown (died [97#8,10#8]).sched r.record.serial = said ((died [97#8,10#8]).calls r.record.serial) := by
  have reaped : (died [97#8,10#8]).sched.reaped.head?.map (fun r => (r.record.onExit,r.record.serial,
      unfinished ((died [97#8,10#8]).calls r.record.serial))) = some (1,1,[]) := by decide +kernel
  obtain ⟨r,first,facts⟩ := Option.map_eq_some_iff.mp reaped
  simp only [Prod.mk.injEq] at facts
  have gone := List.mem_of_mem_head? first
  exact ⟨r,gone,facts.1,(output_complete (died_reached _) gone).mpr facts.2.2⟩

-- Without one nothing of it is.
theorem last_line_lost : Reached (speaking 0x101000 KheapRuns.roomyMap) (died [97#8]) ∧
    ∃ r ∈ (died [97#8]).sched.reaped,r.record.onExit = Loader.programCleanup ∧
      said ((died [97#8]).calls r.record.serial) = [97#8] ∧ shown (died [97#8]).sched r.record.serial = [] := by
  have reaped : (died [97#8]).sched.reaped.head?.map (fun r => (r.record.onExit,
      said ((died [97#8]).calls r.record.serial),shown (died [97#8]).sched r.record.serial)) = some (1,[97#8],[]) := by
    decide
  obtain ⟨r,first,facts⟩ := Option.map_eq_some_iff.mp reaped
  simp only [Prod.mk.injEq] at facts
  exact ⟨died_reached _,r,List.mem_of_mem_head? first,facts.1,facts.2.1,facts.2.2⟩

end Arthic.ProgramOutput
