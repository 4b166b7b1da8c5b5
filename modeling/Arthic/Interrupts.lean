import Mathlib.Data.List.TakeWhile
import Arthic.Processes

namespace Arthic.Interrupts
open ByteMemory FileSystem Loader Processes Scheduler SchedulerRing Transition Unsigned

def text (s : String) : List Byte := s.toList.map fun c => BitVec.ofNat 8 c.toNat

def scLshift : BitVec 8 := 0x2A#8
def scRshift : BitVec 8 := 0x36#8
def scCapslock : BitVec 8 := 0x3A#8
def scReleased : BitVec 8 := 0x80#8

def scancodeToAscii : List Byte :=
  text "\x00\x001234567890-=\x08\tqwertyuiop[]\n\x00asdfghjkl;'`\x00\\zxcvbnm,./\x00*\x00 "
def scancodeToAsciiShift : List Byte :=
  text "\x00\x00!@#$%^&*()_+\x08\tQWERTYUIOP\x7b\x7d\n\x00ASDFGHJKL:\"~\x00|ZXCVBNM<>?\x00*\x00 "

structure Keys where
  shiftHeld : Bool
  capsLock : Bool

def flipCase (c : Byte) : Byte :=
  if 0x61#8 ≤ c ∧ c ≤ 0x7A#8 then c-0x20#8 else if 0x41#8 ≤ c ∧ c ≤ 0x5A#8 then c+0x20#8 else c

-- keyboard_irq up to its callback, which gets the character if there is one.
def keyboardIrq (keys : Keys) (scancode : BitVec 8) : Keys × Option Byte :=
  if scancode &&& scReleased ≠ 0#8 then
    let key := scancode &&& ~~~scReleased
    (if key = scLshift ∨ key = scRshift then {keys with shiftHeld:=false} else keys,none)
  else if scancode = scLshift ∨ scancode = scRshift then ({keys with shiftHeld:=true},none)
  else if scancode = scCapslock then ({keys with capsLock:=!keys.capsLock},none)
  else
    let table := if keys.shiftHeld then scancodeToAsciiShift else scancodeToAscii
    let c := table.getD scancode.toNat 0#8
    (keys,if c = 0#8 then none else some (if keys.capsLock then flipCase c else c))

def shellBufferSize : Nat := 128

-- The new buffer, and the line that Enter hands to execute. buffer_length goes to 0 only
-- when execute returns, but nobody looks at it before that.
def shellInput (buffer : List Byte) (c : Byte) : List Byte × Option (List Byte) :=
  if c = 0x0A#8 then ([],some buffer)
  else if c = 0x08#8 then (buffer.dropLast,none)
  else if buffer.length < shellBufferSize-1 then (buffer++[c],none)
  else (buffer,none)

inductive Purpose where
  | single
  | pipes
  | counters
  deriving DecidableEq

-- What is left to do in the keyboard handler, as far as it calls task.c, loader.c or
-- usermode.c. All other commands print, allocate or use the disk; see `storage` below.
inductive Command where
  | done
  | create (left : Nat) (purpose : Purpose)
  | pipetest
  | counterTest
  | wait
  | run (name args : CString)
  | kill (id : Nat)
  | user
  | ring3
  | halt

def cstring (line : List Byte) : CString :=
  ⟨line.takeWhile (· ≠ 0#8),fun member => by simpa using List.mem_takeWhile_imp member⟩

def argumentAfter (line : List Byte) : Option (List Byte) :=
  let rest := (line.dropWhile (· ≠ 0x20#8)).dropWhile (· = 0x20#8)
  if rest = [] then none else some rest

def parseNumber (line : List Byte) : Nat :=
  (line.takeWhile fun c => 0x30#8 ≤ c ∧ c ≤ 0x39#8).foldl (fun value c => wrap 32 (value*10+(c.toNat-0x30))) 0

def commandRun (line : List Byte) : Command :=
  match argumentAfter line with
  | none => .done
  | some rest =>
    let name := (rest.takeWhile (· ≠ 0x20#8)).take (fsNameMax-1)
    .run (cstring name) (cstring ((rest.drop name.length).dropWhile (· = 0x20#8)))

def commandKill (line : List Byte) : Command := (argumentAfter line).elim .done fun arg => .kill (parseNumber arg)

def execute (line : List Byte) : Command :=
  if line = [] then .done
  else if line = text "ssptest" then .halt
  else if (text "run ").isPrefixOf line then commandRun line
  else if line = text "spin" then .create 1 .single
  else if (text "kill ").isPrefixOf line then commandKill line
  else if line = text "pipetest" then .pipetest
  else if line = text "racetest" ∨ line = text "locktest" then .counterTest
  else if line = text "spawn" then .create 1 .single
  else if line = text "user" then .user
  else .done

-- The lines in service in the master PIC, one bit each, IRQ 0 first in priority. An
-- acknowledgement ends the first of them; a line gets through when no line at or above it
-- is in service.
abbrev Pic := BitVec 8
def raise (pic : Pic) (irq : Nat) : Pic := pic ||| 1#8 <<< irq
def eoi (pic : Pic) : Pic := pic &&& (pic-1#8)
def admits (pic : Pic) (irq : Nat) : Bool := pic &&& ((2#8 <<< irq)-1#8) = 0#8

-- What waits on a task's kernel stack: an unfinished keyboard handler, and the interrupt
-- flag it goes on with.
structure Context where
  handler : Option Command := none
  flag : Bool := true

structure Machine where
  kernel : Kernel
  others : List Nat
  pic : Pic
  flag : Bool
  contexts : Nat → Context
  keys : Keys
  buffer : List Byte
  workersDone : Nat
  pipeRunning : Int
  userReady : Bool
  transfers : List Pic

def current (m : Machine) : Nat := m.kernel.sched.current

def setHandler (m : Machine) (handler : Option Command) : Machine :=
  {m with contexts:=Function.update m.contexts (current m) {m.contexts (current m) with handler:=handler}}

-- The new task is the one behind the current task; task_create_ex has turned interrupts
-- on to put it there.
def adopt (m : Machine) (kernel : Kernel) : Machine :=
  if kernel.sched.births = m.kernel.sched.births then {m with kernel:=kernel} else
  {m with
    kernel:=kernel,flag:=true,
    contexts:=Function.update m.contexts (kernel.sched.tasks kernel.sched.current).next {}}

-- A call that may end in task_schedule. Control goes to another task with what the PIC
-- has in service at that moment.
def resumeAs (m : Machine) (sched : Sched) : Machine :=
  let kernel := settle {m.kernel with sched:=sched} m.kernel.sched.exits.length
  if sched.current = current m then {m with kernel:=kernel} else
  {m with
    kernel:=kernel,transfers:=m.transfers++[m.pic],flag:=(m.contexts sched.current).flag,
    contexts:=Function.update m.contexts (current m) {m.contexts (current m) with flag:=m.flag}}

-- irq_handler for the timer: the handler, the acknowledgement, the scheduler.
def timerInterrupt (m : Machine) : Machine :=
  let sched := {m.kernel.sched with ticks:=wrap 32 (m.kernel.sched.ticks+1)}
  let m := {m with kernel:={m.kernel with sched:=sched},pic:=eoi (raise m.pic 0)}
  resumeAs m (taskSchedule sched)

-- irq_handler for the keyboard, up to the first command that is more than a loop of its own.
def keyboardInterrupt (m : Machine) (scancode : BitVec 8) : Machine :=
  let (keys,c) := keyboardIrq m.keys scancode
  let (buffer,line) := c.elim (m.buffer,none) (shellInput m.buffer)
  setHandler {m with pic:=raise m.pic 1,flag:=false,keys:=keys,buffer:=buffer} (some (line.elim .done execute))

def createNext (left : Nat) (purpose : Purpose) : Command :=
  if 1 < left then .create (left-1) purpose else if purpose = .counters then .wait else .done

def proceed (m : Machine) : Command → Machine
  | .done => setHandler {m with pic:=eoi m.pic,flag:=true} none
  | .create left purpose =>
    let (id,sched) := taskCreateEx m.kernel.sched 0 0 0
    let m := adopt m {m.kernel with sched:=sched}
    if id = 0 then setHandler {m with pipeRunning:=if purpose = .pipes then 0 else m.pipeRunning} (some .done)
    else setHandler m (some (createNext left purpose))
  | .pipetest => if m.pipeRunning ≠ 0 then setHandler m (some .done) else
    setHandler {m with pipeRunning:=2} (some (.create 2 .pipes))
  | .counterTest => setHandler {m with workersDone:=0} (some (.create 2 .counters))
  | .wait => if m.workersDone < 2 then resumeAs m (taskYield m.kernel.sched) else setHandler m (some .done)
  | .run name args => setHandler (adopt m (loaderRun m.kernel name (some args)).2) (some .done)
  | .kill id => resumeAs (setHandler m (some .done)) (taskKill m.kernel.sched id).2
  | .user => if m.userReady then setHandler {m with flag:=true} (some .ring3) else setHandler m (some .done)
  -- SYS_EXIT of the demo, which runs on whatever task is current.
  | .ring3 =>
    if (m.kernel.sched.tasks (current m)).onExit ≠ 0 then resumeAs m (taskTerminate m.kernel.sched)
    else setHandler {m with flag:=true} (some .done)
  | .halt => m

inductive Label where
  | timer
  | keyboard (scancode : BitVec 8)
  | proceed
  | call (call : SchedulerRuns.Call)
  | workerDone
  | pipeDone
  | storage (fs : Fs) (frames : Pmm.State 32)

-- A task outside the handler calls what it likes, and the demo threads count down. Frames
-- and files may change at any time.
def Allowed (m : Machine) : Label → Prop
  | .timer => m.flag = true ∧ admits m.pic 0 = true
  | .keyboard _ => m.flag = true ∧ admits m.pic 1 = true
  | .proceed => (m.contexts (current m)).handler.isSome = true
  | .call call => (m.contexts (current m)).handler = none ∧ SchedulerRuns.Allowed ⟨m.kernel.sched,m.others⟩ call
  | .workerDone => (m.contexts (current m)).handler = none
  | .pipeDone => (m.contexts (current m)).handler = none
  | .storage .. => True

def applyCall (m : Machine) (call : SchedulerRuns.Call) : Machine :=
  let after := SchedulerRuns.apply ⟨m.kernel.sched,m.others⟩ call
  match call with
  | .taskCreateEx .. => {adopt m {m.kernel with sched:=after.sched} with others:=after.others}
  | _ => {resumeAs m after.sched with others:=after.others}

def apply (m : Machine) : Label → Machine
  | .timer => timerInterrupt m
  | .keyboard scancode => keyboardInterrupt m scancode
  | .proceed => (m.contexts (current m)).handler.elim m (proceed m)
  | .call call => applyCall m call
  | .workerDone => {m with workersDone:=wrap 32 (m.workersDone+1)}
  | .pipeDone => {m with pipeRunning:=m.pipeRunning-1}
  | .storage fs frames => {m with kernel:={m.kernel with fs:=fs,sched:={m.kernel.sched with frames:=frames}}}

structure Started (kernelEnd : Nat) (mbi : Pmm.MultibootInfo) (m : Machine) : Prop where
  tasks : SchedulerRuns.Started kernelEnd mbi ⟨m.kernel.sched,m.others⟩
  pic : m.pic = 0#8
  flag : m.flag = true
  contexts : ∀ t,m.contexts t = {}
  keys : m.keys = ⟨false,false⟩
  buffer : m.buffer = []
  transfers : m.transfers = []

def interrupts (kernelEnd : Nat) (mbi : Pmm.MultibootInfo) : System Machine Label :=
  guarded (Started kernelEnd mbi) Allowed apply

-- Nothing was in service whenever a task gave the processor to another.
def Acknowledged (m : Machine) : Prop := ∀ pic ∈ m.transfers,pic = 0#8

-- The scheduler is not called before the keyboard's acknowledgement: no timer interrupt
-- comes in between, and the command neither waits for the counter threads, nor kills the
-- task it runs on, nor leaves ring 3 on a program's task.
def Orderly (m : Machine) : Label → Prop
  | .timer => m.pic = 0#8
  | .proceed =>
    match (m.contexts (current m)).handler with
    | some .wait => 2 ≤ m.workersDone
    | some (.kill id) => taskById m.kernel.sched id = current m → id = 0
    | some .ring3 => (m.kernel.sched.tasks (current m)).onExit = 0
    | _ => True
  | _ => True

def orderly (kernelEnd : Nat) (mbi : Pmm.MultibootInfo) : System Machine Label :=
  guarded (Started kernelEnd mbi) (fun m label => Allowed m label ∧ Orderly m label) apply

variable {m : Machine} {ring : List Nat}

-- At most one keyboard handler is unfinished, and it runs on the current task.
def Calm (m : Machine) : Prop :=
  m.pic = 0#8 ∧ (∀ t,(m.contexts t).handler = none) ∨
  m.pic = 2#8 ∧ (m.contexts (current m)).handler.isSome = true ∧ ∀ t,t ≠ current m → (m.contexts t).handler = none

structure Kept (m : Machine) : Prop where
  placed : ∃ ring,Placed m.kernel.image.kernelPdpt m.kernel ring m.others
  calm : Calm m
  acknowledged : Acknowledged m

theorem kept_start (started : Started kernelEnd mbi m) : Kept m := by
  obtain ⟨ring,valid,running⟩ := SchedulerRuns.started_kept started.tasks
  refine ⟨⟨ring,rfl,valid,running⟩,.inl ⟨started.pic,?_⟩,?_⟩
  · intro t
    rw [started.contexts]
  · intro pic member
    rw [started.transfers] at member
    cases member

-- The handler's task is still the current one, and so is its handler.
theorem kept_handler {after : Machine} (placed : ∃ ring,Placed after.kernel.image.kernelPdpt after.kernel ring after.others)
    (busy : after.pic = 2#8) (others : ∀ t,t ≠ current after → (after.contexts t).handler = none)
    (acknowledged : Acknowledged after) (command : Command) : Kept (setHandler after (some command)) := by
  refine ⟨placed,.inr ⟨busy,?_,?_⟩,acknowledged⟩
  · change ((Function.update after.contexts (current after) _) (current after)).handler.isSome = true
    rw [Function.update_self]
    rfl
  · intro t different
    change t ≠ current after at different
    change ((Function.update after.contexts (current after) _) t).handler = none
    rw [Function.update_of_ne different]
    exact others t different

theorem placed_settle {sched : Sched} (placed : Placed kernel {m.kernel with sched:=sched} ring others) :
    Placed kernel (settle {m.kernel with sched:=sched} m.kernel.sched.exits.length) ring others ∧
    (settle {m.kernel with sched:=sched} m.kernel.sched.exits.length).sched.current = sched.current :=
  settle_placed placed _

-- Nobody is in a handler: the processor may go anywhere.
theorem resumeAs_kept {sched : Sched} (placed : Placed kernel {m.kernel with sched:=sched} ring others) (quiet : m.pic = 0#8)
    (idle : ∀ t,(m.contexts t).handler = none) (acknowledged : Acknowledged m) :
    Kept {resumeAs m sched with others:=others} := by
  obtain ⟨settled,_⟩ := placed_settle placed
  have image := settled.image
  unfold resumeAs
  dsimp only
  split
  · exact ⟨⟨ring,by rw [image]; exact settled⟩,.inl ⟨quiet,idle⟩,acknowledged⟩
  · refine ⟨⟨ring,by dsimp only; rw [image]; exact settled⟩,.inl ⟨quiet,?_⟩,?_⟩
    · intro t
      by_cases equal : t = current m
      · subst equal
        simpa using idle (current m)
      · simpa [equal] using idle t
    · intro pic member
      rcases List.mem_append.mp member with earlier | last
      · exact acknowledged pic earlier
      · rw [List.mem_singleton.mp last]; exact quiet

theorem resumeAs_goes {sched : Sched} (placed : Placed kernel {m.kernel with sched:=sched} ring m.others) (quiet : m.pic = 0#8)
    (idle : ∀ t,(m.contexts t).handler = none) (acknowledged : Acknowledged m) : Kept (resumeAs m sched) := by
  have kept := resumeAs_kept placed quiet idle acknowledged
  have same : {resumeAs m sched with others:=m.others} = resumeAs m sched := by
    unfold resumeAs
    dsimp only
    split <;> rfl
  rwa [same] at kept

theorem resumeAs_stays {sched : Sched} (placed : Placed kernel {m.kernel with sched:=sched} ring m.others) (stays : sched.current = current m)
    (calm : Calm m) (acknowledged : Acknowledged m) : Kept (resumeAs m sched) := by
  obtain ⟨settled,same⟩ := placed_settle placed
  have image := settled.image
  unfold resumeAs
  dsimp only
  rw [if_pos stays]
  refine ⟨⟨ring,by dsimp only; rw [image]; exact settled⟩,?_,acknowledged⟩
  unfold Calm current at *
  dsimp only
  rw [same,stays]
  exact calm

theorem adopt_parts {after : Kernel} (same : after.sched.current = current m)
    (fresh : after.sched.births = m.kernel.sched.births ∨ (after.sched.tasks (current m)).next ≠ current m) :
    (adopt m after).kernel = after ∧ (adopt m after).others = m.others ∧ (adopt m after).pic = m.pic ∧
    (adopt m after).transfers = m.transfers ∧ (∀ t,(m.contexts t).handler = none → ((adopt m after).contexts t).handler = none) ∧
    ((adopt m after).contexts (current m)).handler = (m.contexts (current m)).handler := by
  unfold adopt
  split
  · exact ⟨rfl,rfl,rfl,rfl,fun _ idle => idle,rfl⟩
  · rename_i born
    have different := fresh.resolve_left born
    refine ⟨rfl,rfl,rfl,rfl,?_,?_⟩
    · intro t idle
      by_cases equal : t = (after.sched.tasks after.sched.current).next
      · simp [equal]
      · simpa [equal] using idle
    · dsimp only
      rw [same,Function.update_of_ne different.symm]

theorem placed_sched {sched : Sched} (placed : Placed kernel m.kernel ring others) (valid : Ring sched longer after)
    (running : Running sched) : Placed kernel {m.kernel with sched:=sched} longer after := ⟨placed.image,valid,running⟩

theorem kept_timer (kept : Kept m) (quiet : m.pic = 0#8) : Kept (timerInterrupt m) := by
  obtain ⟨ring,placed⟩ := kept.placed
  have idle : ∀ t,(m.contexts t).handler = none := by
    rcases kept.calm with ⟨_,idle⟩ | ⟨busy,_⟩
    · exact idle
    · rw [quiet] at busy
      cases busy
  have ticked : Ring {m.kernel.sched with ticks:=wrap 32 (m.kernel.sched.ticks+1)} ring m.others := {placed.ring with}
  obtain ⟨after,valid,awake⟩ := ring_schedule ticked
  have served : eoi (raise m.pic 0) = 0#8 := by rw [quiet]; decide
  have moved := placed_sched placed valid awake
  unfold timerInterrupt
  dsimp only
  generalize {m.kernel.sched with ticks:=wrap 32 (m.kernel.sched.ticks+1)} = sched at *
  exact resumeAs_goes (m:={m with kernel:={m.kernel with sched:=sched},pic:=eoi (raise m.pic 0)}) moved served idle
    kept.acknowledged

theorem kept_keyboard (kept : Kept m) (open_ : admits m.pic 1 = true) (scancode : BitVec 8) :
    Kept (keyboardInterrupt m scancode) := by
  have quiet : m.pic = 0#8 ∧ ∀ t,(m.contexts t).handler = none := by
    rcases kept.calm with idle | ⟨busy,_⟩
    · exact idle
    · rw [busy] at open_
      cases open_
  have raised : raise m.pic 1 = 2#8 := by rw [quiet.1]; decide
  unfold keyboardInterrupt
  dsimp only
  refine kept_handler ?_ ?_ ?_ ?_ _
  · exact kept.placed
  · exact raised
  · exact fun t _ => quiet.2 t
  · exact kept.acknowledged

theorem kept_call (kept : Kept m) (idle : (m.contexts (current m)).handler = none)
    (allowed : SchedulerRuns.Allowed ⟨m.kernel.sched,m.others⟩ call) : Kept (applyCall m call) := by
  obtain ⟨ring,placed⟩ := kept.placed
  have quiet : m.pic = 0#8 ∧ ∀ t,(m.contexts t).handler = none := by
    rcases kept.calm with idle | ⟨_,busy,_⟩
    · exact idle
    · rw [idle] at busy
      cases busy
  obtain ⟨longer,valid,running⟩ := SchedulerRuns.kept_step ⟨ring,placed.ring,placed.running⟩ allowed
  have after := placed_sched placed valid running
  unfold applyCall
  split
  · rename_i pageDir arg onExit
    obtain ⟨_,same,_,fresh⟩ := create_steady placed.ring pageDir arg onExit
    obtain ⟨kernel,_,pic,transfers,handlers,_⟩ := @adopt_parts m {m.kernel with sched:=(taskCreateEx m.kernel.sched pageDir arg onExit).2}
      same (fresh.imp_left And.left)
    simp only [SchedulerRuns.apply] at *
    refine ⟨⟨longer,by rw [kernel]; exact after⟩,.inl ⟨pic.trans quiet.1,fun t => handlers t (quiet.2 t)⟩,?_⟩
    intro bits member
    rw [transfers] at member
    exact kept.acknowledged bits member
  · exact resumeAs_kept after quiet.1 quiet.2 kept.acknowledged

theorem kill_stays (s : Sched) (id : Nat) (other : taskById s id = s.current → id = 0) :
    (taskKill s id).2.current = s.current := by
  unfold taskKill
  split
  · rfl
  · rename_i named
    dsimp only
    split
    · rfl
    · split
      · rfl
      · rw [if_neg]
        · rfl
        · exact fun own => named (other own)

-- One step of the handler, wherever it stands.
theorem kept_proceed (kept : Kept m) (here : (m.contexts (current m)).handler = some command)
    (careful : Orderly m .proceed) : Kept (proceed m command) := by
  obtain ⟨ring,placed⟩ := kept.placed
  obtain ⟨busy,others⟩ : m.pic = 2#8 ∧ ∀ t,t ≠ current m → (m.contexts t).handler = none := by
    rcases kept.calm with ⟨_,idle⟩ | ⟨busy,_,others⟩
    · rw [idle] at here
      cases here
    · exact ⟨busy,others⟩
  simp only [Orderly,here] at careful
  have onward : ∀ (after : Machine) (command : Command),after.kernel = m.kernel → after.others = m.others → after.pic = m.pic →
      after.contexts = m.contexts → after.transfers = m.transfers → Kept (setHandler after (some command)) := by
    intro after command kernel held pic contexts transfers
    refine kept_handler ?_ (pic.trans busy) ?_ ?_ command
    · rw [kernel,held]; exact kept.placed
    · rw [contexts,current,kernel]; exact others
    · intro bits member
      rw [transfers] at member
      exact kept.acknowledged bits member
  have adopted : ∀ (after : Kernel) (pipeRunning : Int) (command : Command),
      (∃ ring,Placed after.image.kernelPdpt after ring m.others) → after.sched.current = current m →
      (after.sched.births = m.kernel.sched.births ∨ (after.sched.tasks (current m)).next ≠ current m) →
      Kept (setHandler {adopt m after with pipeRunning:=pipeRunning} (some command)) := by
    intro after pipeRunning command placed same fresh
    obtain ⟨kernel,held,pic,transfers,handlers,_⟩ := adopt_parts same fresh
    refine @kept_handler {adopt m after with pipeRunning:=pipeRunning} ?_ (pic.trans busy) ?_ ?_ command
    · dsimp only
      rw [kernel,held]
      exact placed
    · intro t different
      rw [current] at different
      dsimp only at different
      rw [kernel,same] at different
      exact handlers t (others t different)
    · intro bits member
      change bits ∈ (adopt m after).transfers at member
      rw [transfers] at member
      exact kept.acknowledged bits member
  cases command with
  | done =>
    refine ⟨kept.placed,.inl ⟨?_,?_⟩,kept.acknowledged⟩
    · change eoi m.pic = 0#8
      rw [busy]
      decide
    · intro t
      change ((Function.update m.contexts (current m) _) t).handler = none
      by_cases equal : t = current m
      · rw [equal,Function.update_self]
      · rw [Function.update_of_ne equal]; exact others t equal
  | create left purpose =>
    obtain ⟨_,same,_,fresh⟩ := create_steady placed.ring 0 0 0
    obtain ⟨longer,valid,running⟩ := ring_create placed.ring placed.running 0 0 0
    have step := fun pipeRunning command => adopted {m.kernel with sched:=(taskCreateEx m.kernel.sched 0 0 0).2} pipeRunning command
      ⟨longer,placed_sched placed valid running⟩ same (fresh.imp_left And.left)
    unfold proceed
    dsimp only
    split
    · exact step _ _
    · exact step _ _
  | pipetest =>
    unfold proceed
    dsimp only
    split
    · exact onward _ _ rfl rfl rfl rfl rfl
    · exact onward _ _ rfl rfl rfl rfl rfl
  | counterTest => exact onward _ _ rfl rfl rfl rfl rfl
  | wait =>
    unfold proceed
    dsimp only
    rw [if_neg (Nat.not_lt.mpr careful)]
    exact onward _ _ rfl rfl rfl rfl rfl
  | run name args =>
    obtain ⟨_,returned,_⟩ := loaderRun_returned placed name (some args)
    obtain ⟨longer,after⟩ := returned.placed
    exact adopted _ _ _ ⟨longer,by rw [after.image]; exact after⟩ returned.current returned.fresh
  | kill id =>
    obtain ⟨longer,valid,running⟩ := ring_kill placed.ring placed.running id
    have ready := onward m .done rfl rfl rfl rfl rfl
    exact resumeAs_stays (m:=setHandler m (some .done)) (placed_sched placed valid running)
      (kill_stays m.kernel.sched id careful) ready.calm ready.acknowledged
  | user =>
    unfold proceed
    dsimp only
    split
    · exact onward _ _ rfl rfl rfl rfl rfl
    · exact onward _ _ rfl rfl rfl rfl rfl
  | ring3 =>
    unfold proceed
    dsimp only
    rw [if_neg (not_not.mpr careful)]
    exact onward _ _ rfl rfl rfl rfl rfl
  | halt => exact kept

theorem kept_step (kept : Kept m) (allowed : Allowed m label) (careful : Orderly m label) : Kept (apply m label) := by
  cases label with
  | timer => exact kept_timer kept careful
  | keyboard scancode => exact kept_keyboard kept allowed.2 scancode
  | proceed =>
    obtain ⟨command,here⟩ := Option.isSome_iff_exists.mp allowed
    rw [apply,here]
    exact kept_proceed kept here careful
  | call call => exact kept_call kept allowed.1 allowed.2
  | workerDone => exact ⟨kept.placed,kept.calm,kept.acknowledged⟩
  | pipeDone => exact ⟨kept.placed,kept.calm,kept.acknowledged⟩
  | storage fs frames =>
    obtain ⟨ring,placed⟩ := kept.placed
    exact ⟨⟨ring,placed.image,{placed.ring with},placed.running⟩,kept.calm,kept.acknowledged⟩

theorem runs_kept (path : Reached (orderly kernelEnd mbi) m) : Kept m := by
  apply path.invariant
  · exact fun _ => kept_start
  · rintro m label next kept ⟨⟨allowed,careful⟩,rfl⟩
    exact kept_step kept allowed careful

theorem transfers_acknowledged (path : Reached (orderly kernelEnd mbi) m) : Acknowledged m := (runs_kept path).acknowledged

-- The shell's machine, and the keys of a word and Enter with the end of each handler.
def shellSched : Sched :=
  taskInit {SchedulerRuns.blankSched (KheapRuns.freshHeap .i386 0x102000) with frames:=smallFrames} 0x200000
def shellMachine : Machine := ⟨{stubKernel with sched:=shellSched},[],0#8,true,fun _ => {},⟨false,false⟩,[],0,0,true,[]⟩

theorem shell_started : Started 0x101000 KheapRuns.roomyMap shellMachine := by
  have heap : Reached (KheapRuns.allocator .i386 0x101000 KheapRuns.roomyMap) ⟨KheapRuns.freshHeap .i386 0x102000,[]⟩ := by
    rw [←KheapRuns.roomyHeap_fresh]
    exact ⟨KheapRuns.roomyHeap,[],KheapRuns.roomyHeap_initial,.nil⟩
  have given : (Kheap.kmalloc .i386 (KheapRuns.freshHeap .i386 0x102000) sizeofTask).1 ≠ 0 := by decide
  refine ⟨⟨⟨{SchedulerRuns.blankSched (KheapRuns.freshHeap .i386 0x102000) with frames:=smallFrames},0x200000,rfl,rfl,rfl,
    rfl,rfl,heap⟩,SchedulerRuns.init_enabled _ ?_⟩,rfl,rfl,fun _ => rfl,rfl,rfl,rfl⟩
  exact given

-- A thread is made, and the next tick switches to it.
def switched : Machine := [.call (.taskCreateEx 0 0 0),.timer].foldl apply shellMachine

theorem switched_reached : Reached (orderly 0x101000 KheapRuns.roomyMap) switched := by
  refine @reached_by _ _ _ _ _ shellMachine _ shell_started ?_
  refine ⟨⟨⟨rfl,trivial⟩,trivial⟩,⟨⟨?_,?_⟩,?_⟩,trivial⟩
  · decide +kernel
  · decide +kernel
  · unfold Orderly; decide +kernel

theorem transfers_acknowledged_small : switched.transfers = [0#8] ∧ Acknowledged switched :=
  ⟨by decide +kernel,transfers_acknowledged switched_reached⟩

def accepts (m : Machine) : Label → Bool
  | .timer => m.flag && admits m.pic 0
  | .keyboard _ => m.flag && admits m.pic 1
  | .proceed => (m.contexts (current m)).handler.isSome
  | _ => false

def acceptsAll : Machine → List Label → Bool
  | _,[] => true
  | m,label::rest => accepts m label && acceptsAll (apply m label) rest

theorem acceptsAll_permitted {labels : List Label} (accepted : acceptsAll m labels = true) : Permitted Allowed apply m labels := by
  induction labels generalizing m with
  | nil => trivial
  | cons label labels ih =>
    obtain ⟨here,rest⟩ := Bool.and_eq_true_iff.mp accepted
    refine ⟨?_,ih rest⟩
    cases label with
    | timer => exact Bool.and_eq_true_iff.mp here
    | keyboard scancode => exact Bool.and_eq_true_iff.mp here
    | proceed => exact here
    | call call => cases here
    | workerDone => cases here
    | pipeDone => cases here
    | storage fs frames => cases here

def typed (scancodes : List (BitVec 8)) : List Label := scancodes.flatMap fun scancode => [.keyboard scancode,.proceed]

-- racetest typed at the shell: the handler makes its two threads and yields to them with
-- the keyboard in service.
def racetest : List Label :=
  typed [0x13#8,0x1E#8,0x2E#8,0x12#8,0x14#8,0x12#8,0x1F#8,0x14#8]++[.keyboard 0x1C#8,.proceed,.proceed,.proceed,.proceed]

theorem racetest_yields_unacknowledged :
    Reached (interrupts 0x101000 KheapRuns.roomyMap) (racetest.foldl apply shellMachine) ∧
    (racetest.foldl apply shellMachine).transfers = [2#8] ∧ ¬ Acknowledged (racetest.foldl apply shellMachine) := by
  have yields : (racetest.foldl apply shellMachine).transfers = [2#8] := by decide +kernel
  have accepted : acceptsAll shellMachine racetest = true := by decide +kernel
  refine ⟨reached_by shell_started (acceptsAll_permitted accepted),yields,fun acknowledged => ?_⟩
  have bad := acknowledged 2#8 (by rw [yields]; exact List.mem_singleton_self _)
  cases bad

end Arthic.Interrupts
