import Arthic.Library.InterruptFlag

namespace Arthic.SavedFlags
open InterruptFlag Transition

-- The kernel's services as far as the interrupt flag goes. What reads and writes data,
-- kmalloc and the frame allocator among it, is .compute.
abbrev Body := Code → Code

-- terminal.c. console_lock and console_unlock are irq_save and irq_restore again.
def terminalPutchar : Body := .compute
def terminalWrite : Body := called (locked (loop terminalPutchar))
def terminalWriteInt : Body := loop terminalPutchar
def kprintf : Body := called (locked (loop (either terminalPutchar (either terminalWriteInt terminalWrite))))

-- task.c. program_cleanup of loader.c is the only on_exit there is.
def taskFlushOutput : Body := either skip (seq .compute terminalWrite)
def programCleanup : Body := .compute
def reap : Body := seq .compute (seq taskFlushOutput (seq (either skip programCleanup) .compute))

-- Without anybody else to run the caller carries on, or the fallback is switched to.
def taskSchedule : Body :=
  called (either skip (locked (seq .compute (seq (loop (either reap .compute)) (either skip (seq .compute .switch))))))

def taskBlock : Body := called (either skip (either taskSchedule (seq .compute taskSchedule)))
def taskTerminate : Body := fun _ => seq taskFlushOutput (seq .compute (loop taskSchedule)) .halt
def taskExit : Body := fun _ => seq .compute (loop taskSchedule) .halt
def taskKill : Body :=
  called (either skip (either (locked .compute) (seq (locked .compute) (either taskTerminate skip))))

-- The splice into the ring, after which the new task can be switched to.
def taskCreateEx : Body :=
  called (either skip (seq .compute (either skip (seq .compute (either .compute (seq .compute (spliced .spawn)))))))

-- lock.c and pipe.c: a caller that has to wait blocks with the flag off and looks again.
def await : Body := loop (locked (seq .compute taskBlock))
def mutexLock : Body := called (seq await (locked .compute))
def mutexUnlock : Body := called (locked .compute)
def pipeWrite : Body := called (loop (seq await (locked .compute)))
def pipeRead : Body :=
  called (seq (loop (either (locked .compute) (locked (seq .compute taskBlock)))) (either skip (locked .compute)))

inductive Service where
  | taskCreateEx
  | taskSchedule
  | taskBlock
  | taskKill
  | mutexLock
  | mutexUnlock
  | pipeRead
  | pipeWrite
  | terminalWrite
  | kprintf

def Service.body : Service → Body
  | .taskCreateEx => SavedFlags.taskCreateEx
  | .taskSchedule => SavedFlags.taskSchedule
  | .taskBlock => SavedFlags.taskBlock
  | .taskKill => SavedFlags.taskKill
  | .mutexLock => SavedFlags.mutexLock
  | .mutexUnlock => SavedFlags.mutexUnlock
  | .pipeRead => SavedFlags.pipeRead
  | .pipeWrite => SavedFlags.pipeWrite
  | .terminalWrite => SavedFlags.terminalWrite
  | .kprintf => SavedFlags.kprintf

-- What a task, an interrupt handler or a command of the shell may do: call the services
-- in any order, inside sections of its own too, and outside of them turn the flag on and
-- off as it likes, as kernel_main does and the way into ring 3 and back.
inductive Routine where
  | compute
  | set (flag : Bool)
  | call (service : Service)
  | seq (a b : Routine)
  | either (a b : Routine)
  | loop (a : Routine)
  | locked (a : Routine)
  | exit

def Routine.body : Routine → Body
  | .compute => .compute
  | .set flag => .set flag
  | .call service => service.body
  | .seq a b => InterruptFlag.seq a.body b.body
  | .either a b => InterruptFlag.either a.body b.body
  | .loop a => InterruptFlag.loop a.body
  | .locked a => InterruptFlag.locked a.body
  | .exit => taskTerminate

def Routine.Quiet : Routine → Prop
  | .set _ => False
  | .seq a b => a.Quiet ∧ b.Quiet
  | .either a b => a.Quiet ∧ b.Quiet
  | .loop a => a.Quiet
  | .locked a => a.Quiet
  | _ => True

def Routine.Proper : Routine → Prop
  | .seq a b => a.Proper ∧ b.Proper
  | .either a b => a.Proper ∧ b.Proper
  | .loop a => a.Proper
  | .locked a => a.Quiet
  | _ => True

-- An entry point returns to task_exit; an interrupt or a system call to where it came
-- from, through gates that turn the flag off.
def entries (code : Code) : Prop := ∃ routine : Routine,routine.Proper ∧ code = routine.body (taskExit .halt)
def handlers (handler : Body) : Prop := ∃ routine : Routine,routine.Proper ∧ handler = routine.body

theorem terminalWrite_keeps : Keeps terminalWrite := keeps_called (keeps_locked (keeps_loop keeps_compute))

theorem kprintf_keeps : Keeps kprintf :=
  keeps_called (keeps_locked (keeps_loop (keeps_either keeps_compute (keeps_either (keeps_loop keeps_compute) terminalWrite_keeps))))

theorem flush_keeps : Keeps taskFlushOutput := keeps_either keeps_skip (keeps_seq keeps_compute terminalWrite_keeps)

theorem reap_keeps : Keeps reap :=
  keeps_seq keeps_compute (keeps_seq flush_keeps (keeps_seq (keeps_either keeps_skip keeps_compute) keeps_compute))

theorem schedule_keeps : Keeps taskSchedule := by
  have walk := keeps_loop (keeps_either reap_keeps keeps_compute)
  have turn := keeps_either keeps_skip (keeps_seq keeps_compute keeps_switch)
  exact keeps_called (keeps_either keeps_skip (keeps_locked (keeps_seq keeps_compute (keeps_seq walk turn))))

theorem block_keeps : Keeps taskBlock :=
  keeps_called (keeps_either keeps_skip (keeps_either schedule_keeps (keeps_seq keeps_compute schedule_keeps)))

theorem terminate_keeps : Keeps taskTerminate :=
  keeps_never (keeps_seq flush_keeps (keeps_seq keeps_compute (keeps_loop schedule_keeps)))

theorem exit_keeps : Keeps taskExit := keeps_never (keeps_seq keeps_compute (keeps_loop schedule_keeps))

theorem await_keeps : Keeps await := keeps_loop (keeps_locked (keeps_seq keeps_compute block_keeps))

theorem service_keeps (service : Service) : Keeps service.body := by
  have section_ := keeps_locked keeps_compute
  cases service with
  | taskCreateEx =>
    have build := keeps_seq keeps_compute (keeps_spliced keeps_spawn)
    exact keeps_called (keeps_either keeps_skip (keeps_seq keeps_compute (keeps_either keeps_skip
      (keeps_seq keeps_compute (keeps_either keeps_compute build)))))
  | taskSchedule => exact schedule_keeps
  | taskBlock => exact block_keeps
  | taskKill =>
    exact keeps_called (keeps_either keeps_skip (keeps_either section_ (keeps_seq section_ (keeps_either terminate_keeps keeps_skip))))
  | mutexLock => exact keeps_called (keeps_seq await_keeps section_)
  | mutexUnlock => exact keeps_called section_
  | pipeRead =>
    have rounds := keeps_loop (keeps_either section_ (keeps_locked (keeps_seq keeps_compute block_keeps)))
    exact keeps_called (keeps_seq rounds (keeps_either keeps_skip section_))
  | pipeWrite => exact keeps_called (keeps_loop (keeps_seq await_keeps section_))
  | terminalWrite => exact terminalWrite_keeps
  | kprintf => exact kprintf_keeps

theorem quiet_keeps {routine : Routine} (quiet : routine.Quiet) : Keeps routine.body := by
  induction routine with
  | compute => exact keeps_compute
  | set => exact quiet.elim
  | call service => exact service_keeps service
  | seq a b first second => exact keeps_seq (first quiet.1) (second quiet.2)
  | either a b first second => exact keeps_either (first quiet.1) (second quiet.2)
  | loop a body => exact keeps_loop (body quiet)
  | locked a body => exact keeps_locked (body quiet)
  | exit => exact terminate_keeps

theorem proper_handles {routine : Routine} (proper : routine.Proper) : Handles routine.body := by
  induction routine with
  | compute => exact handles_keeps keeps_compute
  | set flag => exact handles_set flag
  | call service => exact handles_keeps (service_keeps service)
  | seq a b first second => exact handles_seq (first proper.1) (second proper.2)
  | either a b first second => exact handles_either (first proper.1) (second proper.2)
  | loop a body => exact handles_loop (body proper)
  | locked a _ => exact handles_keeps (keeps_locked (quiet_keeps proper))
  | exit => exact handles_keeps terminate_keeps

variable {Task : Type} [DecidableEq Task] {origin m : Machine Task}

def kernel (Task : Type) [DecidableEq Task] : System (Machine Task) (Event Task) := machine entries handlers

-- Every service gives the flag back as it found it, in every run in which task_create_ex
-- comes to its splice with the flag on.
theorem services_keep_flag (fresh : (kernel Task).initial origin) (visits : Visits (kernel Task) origin visited m)
    (condition : ∀ s ∈ visited,Spliced s) : Preserved m := by
  refine runs_preserved ?_ ?_ fresh visits condition
  · rintro code ⟨routine,proper,rfl⟩ flag
    have shut : Open [] := List.not_mem_nil
    exact proper_handles proper _ _ shut (fun flag => exit_keeps .halt flag [] ⟨trivial,fun _ => shut⟩) flag
  · rintro handler ⟨routine,proper,rfl⟩
    exact proper_handles proper

-- A machine with one task, and one more once it is made.
def lone (flag : Bool) (code : Code) (marks : List Mark) (made : Option Thread) : Machine Nat :=
  ⟨0,flag,fun t => if t = 0 then some ⟨code,marks,false⟩ else if t = 1 then made else none⟩

theorem lone_put (flag now : Bool) (code later : Code) (marks after : List Mark) (made : Option Thread) :
    put (lone flag code marks made) ⟨later,after,false⟩ = (lone now later after made).threads := by
  funext t
  by_cases zero : t = 0
  · subst zero
    exact put_current (lone flag code marks made) _
  · rw [put_other (m:=lone flag code marks made) _ zero]
    simp only [lone,if_neg zero]

variable {flag now : Bool} {code later : Code} {marks after : List Mark} {made : Option Thread} {holds : Machine Nat → Prop}
  {start state reached : Machine Nat}

def Comes (start : Machine Nat) (holds : Machine Nat → Prop) (m : Machine Nat) : Prop :=
  ∃ visited,Visits (kernel Nat) start visited m ∧ ∀ s ∈ visited,holds s

theorem comes_step (comes : Comes start holds state) (step : (kernel Nat).step state event reached) (next : holds reached) :
    Comes start holds reached := by
  obtain ⟨visited,visits,all⟩ := comes
  refine ⟨_,.step visits step,fun s member => ?_⟩
  rcases List.mem_append.mp member with old | new
  · exact all s old
  · cases List.mem_singleton.mp new
    exact next

theorem lone_run (pick : Nat) (ran : advance flag marks pick code = some (later,after,now)) :
    (kernel Nat).step (lone flag code marks made) (.run pick) (lone now later after made) := by
  refine ⟨_,rfl,later,after,now,ran,?_⟩
  rw [lone_put flag now]
  rfl

theorem lone_spawn (entry : Code) (allowed : entries entry) : (kernel Nat).step (lone flag (.spawn later) marks none) (.spawn 1 entry)
    (lone flag later marks (some ⟨entry,[],true⟩)) := by
  refine ⟨_,rfl,later,rfl,rfl,allowed,?_⟩
  rw [lone_put flag flag]
  refine congrArg (Machine.mk 0 flag) (funext fun t => ?_)
  by_cases one : t = 1
  · subst one
    rfl
  · rw [Function.update_of_ne one]
    simp only [lone,if_neg one]

theorem lone_interrupt (handler : Body) (allowed : handlers handler) : (kernel Nat).step (lone true code marks made) (.interrupt handler)
    (lone false (handler (.iret true code)) marks made) := by
  refine ⟨_,rfl,rfl,allowed,?_⟩
  rw [lone_put true false]
  rfl

def idle : Code := Routine.compute.body (taskExit .halt)

theorem idle_entry : entries idle := ⟨.compute,trivial,rfl⟩

-- task_create_ex from its first line to its return, past every test.
theorem create_comes (next : Code) (comes : Comes start holds (lone flag (taskCreateEx next) [] none))
    (all : ∀ now code marks made,(∀ next,code = .cli next → now = flag) → holds (lone now code marks made)) :
    Comes start holds (lone true (.leave next) [.call flag] (some ⟨idle,[],true⟩)) := by
  have entered := comes_step comes (lone_run 0 rfl) (all _ _ _ _ nofun)
  have enabled := comes_step entered (lone_run 1 rfl) (all _ _ _ _ nofun)
  have allocated := comes_step enabled (lone_run 1 rfl) (all _ _ _ _ nofun)
  have block := comes_step allocated (lone_run 1 rfl) (all _ _ _ _ nofun)
  have cleared := comes_step block (lone_run 1 rfl) (all _ _ _ _ nofun)
  have stack := comes_step cleared (lone_run 1 rfl) (all _ _ _ _ nofun)
  have built := comes_step stack (lone_run 1 rfl) (all _ _ _ _ fun _ _ => rfl)
  have off := comes_step built (lone_run 0 rfl) (all _ _ _ _ nofun)
  have spliced := comes_step off (lone_spawn idle idle_entry) (all _ _ _ _ nofun)
  exact comes_step spliced (lone_run 0 rfl) (all _ _ _ _ nofun)

theorem lone_fresh (allowed : entries code) : (kernel Nat).initial (lone flag code [] none) := by
  intro t thread there
  unfold lone at there
  dsimp only at there
  split at there
  · cases there
    exact ⟨allowed,rfl⟩
  · split at there
    · cases there
    · cases there

theorem services_keep_flag_made : ∃ visited,
    Visits (kernel Nat) (lone true (taskCreateEx idle) [] none) visited (lone true (.leave idle) [.call true] (some ⟨idle,[],true⟩)) ∧
    Preserved (lone true (.leave idle) [.call true] (some ⟨idle,[],true⟩)) := by
  have allowed : entries (taskCreateEx idle) := ⟨.seq (.call .taskCreateEx) .compute,⟨trivial,trivial⟩,rfl⟩
  have all : ∀ now code marks made,(∀ next,code = .cli next → now = true) → Spliced (lone now code marks made) := by
    intro now code marks made on thread next running cli
    cases running
    exact on next cli
  have comes : Comes (lone true (taskCreateEx idle) [] none) Spliced (lone true (taskCreateEx idle) [] none) := by
    refine ⟨_,.start,fun s member => ?_⟩
    cases List.mem_singleton.mp member
    exact all _ _ _ _ nofun
  obtain ⟨visited,visits,condition⟩ := create_comes idle comes all
  exact ⟨visited,visits,services_keep_flag (lone_fresh allowed) visits condition⟩

-- A command of the shell makes a task while the keyboard interrupt is served.
theorem create_turns_flag_on : ∃ visited m,(kernel Nat).initial (lone true idle [] none) ∧
    Visits (kernel Nat) (lone true idle [] none) visited m ∧ ¬ Preserved m := by
  have handler : handlers (Routine.call .taskCreateEx).body := ⟨.call .taskCreateEx,trivial,rfl⟩
  have pressed : (kernel Nat).step (lone true idle [] none) (.interrupt (Routine.call .taskCreateEx).body)
      (lone false (taskCreateEx (.iret true idle)) [] none) := lone_interrupt _ handler
  have comes : Comes (lone true idle [] none) (fun _ => True) (lone false (taskCreateEx (.iret true idle)) [] none) :=
    ⟨_,.step .start pressed,fun _ _ => trivial⟩
  obtain ⟨visited,visits,_⟩ := create_comes (.iret true idle) comes fun _ _ _ _ _ => trivial
  refine ⟨visited,_,lone_fresh idle_entry,visits,fun preserved => ?_⟩
  obtain ⟨_,marks⟩ := (preserved 0 _ rfl).1 _ rfl
  cases marks

end Arthic.SavedFlags
