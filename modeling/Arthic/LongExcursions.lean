import Arthic.Library.Transition
import Arthic.LongInterrupts
import Arthic.LongSyscalls

namespace Arthic.LongExcursions
open ByteMemory MachineStack Amd64 Transition LongSyscalls

-- Where the linker put kernel_saved_rsp, kernel_saved_rbp, cpu0 and syscall_entry.
structure Linked where
  savedRsp : Nat
  savedRbp : Nat
  cpu0 : Word
  syscallAt : Word

def setLow (m : Cpu) (r : Reg) (value : Selector) : Cpu := setReg m r ((m.regs r).extractLsb' 16 48++value)
def loadSegments (m : Cpu) : Cpu := {m with ds:=low (m.regs .rax),es:=low (m.regs .rax),fs:=low (m.regs .rax)}

-- The frame usermode_jump builds for iretq; orq sets IF in the flags on the stack.
def jumpFrame (m : Cpu) : Cpu :=
  let m := pushq m 0x1B#64
  let m := pushq m (m.regs .rsi)
  let m := pushq m m.rflags
  let m := {m with mem:=setWord 8 m.mem m.rsp.toNat (word 8 m.mem m.rsp.toNat ||| 0x200#64)}
  let m := pushq m 0x23#64
  pushq m (m.regs .rdi)

-- usermode_jump and usermode_return. %gs is not among the segments they load.
def usermodeJump (dpl : Selector → Nat) (l : Linked) (m : Cpu) : Cpu :=
  let m := {m with mem:=setWord 8 m.mem l.savedRsp m.rsp}
  let m := {m with mem:=setWord 8 m.mem l.savedRbp (m.regs .rbp)}
  let m := LongInterrupts.cli m
  let m := loadSegments (setLow m .rax 0x1B#16)
  iretq dpl (jumpFrame m)

def usermodeReturn (l : Linked) (m : Cpu) : Cpu :=
  let m := LongInterrupts.cli m
  let m := {m with rsp:=word 8 m.mem l.savedRsp}
  let m := setReg m .rbp (word 8 m.mem l.savedRbp)
  let m := loadSegments (setLow m .rax 0x10#16)
  let m := LongInterrupts.sti m
  {m with rip:=word 8 m.mem m.rsp.toNat,rsp:=m.rsp+8#64}

-- The kernel and the programs it runs in ring 3, one at a time.
structure World where
  cpu : Cpu
  user : Bool

inductive Event where
  | kernel
  | enters
  | runs
  | loadsGs
  | interrupted
  | answered
  | exits
  | faults
deriving DecidableEq

def SameBases (m other : Cpu) : Prop := other.gsBase = m.gsBase ∧ other.kernelGsBase = m.kernelGsBase

def called (l : Linked) (m : Cpu) : Cpu := syscallEntry (syscall (installed l.syscallAt) m)

-- C code never writes the two bases once syscall_install has. A program can only load %gs
-- with a selector, and every segment of the GDT starts at 0.
def excursions (dpl : Selector → Nat) (l : Linked) (rsp0 : Word) : System World Event where
  initial s := s.user = false ∧ s.cpu.gsBase = 0#64 ∧ s.cpu.kernelGsBase = l.cpu0
  step s event after := match event with
    | .kernel => s.user = false ∧ after.user = false ∧ SameBases s.cpu after.cpu
    | .enters => s.user = false ∧ after = ⟨usermodeJump dpl l s.cpu,true⟩
    | .runs => s.user = true ∧ after.user = true ∧ SameBases s.cpu after.cpu
    | .loadsGs => s.user = true ∧ after.user = true ∧ after.cpu.gsBase = 0#64 ∧ after.cpu.kernelGsBase = s.cpu.kernelGsBase
    | .interrupted => after.user = s.user ∧ ∃ gate code vector c,
        SameBases (LongInterrupts.stub vector (deliver rsp0 gate code s.cpu)) c ∧ after.cpu = LongInterrupts.commonExit dpl c
    | .answered => s.user = true ∧ after.user = true ∧ ∃ c,
        SameBases (called l s.cpu) c ∧ after.cpu = syscallExit (installed l.syscallAt) c
    | .exits => s.user = true ∧ after.user = false ∧ ∃ c,SameBases (called l s.cpu) c ∧ after.cpu = usermodeReturn l c
    | .faults => s.user = true ∧ after.user = false ∧ ∃ gate code c,
        SameBases (LongInterrupts.stub 14 (deliver rsp0 gate (some code) s.cpu)) c ∧ after.cpu = usermodeReturn l c

variable {dpl : Selector → Nat} {l : Linked} {rsp0 : Word} {s first after origin : World} {m : Cpu} {event : Event} {events : List Event}

theorem SameBases.trans {one two three : Cpu} (left : SameBases one two) (right : SameBases two three) : SameBases one three :=
  ⟨right.1.trans left.1,right.2.trans left.2⟩

theorem jump_bases (dpl : Selector → Nat) (l : Linked) (m : Cpu) : SameBases m (usermodeJump dpl l m) := by
  unfold usermodeJump jumpFrame iretq
  dsimp only
  split
  · exact ⟨rfl,rfl⟩
  · exact ⟨rfl,rfl⟩

theorem return_bases (l : Linked) (m : Cpu) : SameBases m (usermodeReturn l m) := ⟨rfl,rfl⟩

theorem popRegs_bases (rs : List Reg) (m : Cpu) : SameBases m (popRegs rs m) := by
  rw [popRegs_result]
  exact ⟨rfl,rfl⟩

theorem pushes_bases (values : List Word) (m : Cpu) : SameBases m (values.foldl pushq m) := by
  rw [pushes_result]
  exact ⟨rfl,rfl⟩

theorem iretq_bases (dpl : Selector → Nat) (m : Cpu) : SameBases m (iretq dpl m) := by
  unfold iretq
  dsimp only
  split
  · exact ⟨rfl,rfl⟩
  · exact ⟨rfl,rfl⟩

theorem commonEntry_bases (m : Cpu) : SameBases m (LongInterrupts.commonEntry m) := by
  rw [LongInterrupts.commonEntry_result]
  exact ⟨rfl,rfl⟩

theorem isrNoerrcode_bases (num : Nat) (m : Cpu) : SameBases m (LongInterrupts.isrNoerrcode num m) := by
  have pushed := pushes_bases [0#64,BitVec.ofNat 64 num] (LongInterrupts.cli m)
  exact SameBases.trans pushed (commonEntry_bases _)

theorem isrErrcode_bases (num : Nat) (m : Cpu) : SameBases m (LongInterrupts.isrErrcode num m) := by
  have pushed := pushes_bases [BitVec.ofNat 64 num] (LongInterrupts.cli m)
  exact SameBases.trans pushed (commonEntry_bases _)

theorem stub_bases (vector : Nat) (m : Cpu) : SameBases m (LongInterrupts.stub vector m) := by
  unfold LongInterrupts.stub
  split
  · exact isrNoerrcode_bases _ m
  · split
    · exact isrErrcode_bases vector m
    · exact isrNoerrcode_bases vector m

theorem deliver_bases (gate : Gate) (code : Option Word) (m : Cpu) : SameBases m (deliver rsp0 gate code m) := by
  rw [delivered]
  exact ⟨rfl,rfl⟩

theorem commonExit_bases (dpl : Selector → Nat) (m : Cpu) : SameBases m (LongInterrupts.commonExit dpl m) := by
  unfold LongInterrupts.commonExit
  refine SameBases.trans ?_ (iretq_bases _ _)
  exact SameBases.trans (popRegs_bases LongInterrupts.popAll {m with rsp:=m.regs .rbx}) ⟨rfl,rfl⟩

-- The stub swaps the bases on its way in and, for an answer, on its way out.
theorem called_bases (l : Linked) (m : Cpu) : (called l m).gsBase = m.kernelGsBase ∧ (called l m).kernelGsBase = m.gsBase := by
  rw [called,entry_result]
  exact ⟨rfl,rfl⟩

theorem exit_bases (msrs : Msrs) (m : Cpu) :
    (syscallExit msrs m).gsBase = m.kernelGsBase ∧ (syscallExit msrs m).kernelGsBase = m.gsBase := by
  have popped := popRegs_bases [.rcx,.r11] (drop (popq m .rax) 48)
  exact ⟨popped.2,popped.1⟩

-- Where the address of cpu0 is: parked for the next SYSCALL, in use, or in neither place.
inductive Place where
  | parked
  | active
  | lost
deriving DecidableEq

def follow : Place → Event → Place
  | .parked,.exits => .active
  | .active,.exits => .parked
  | .active,.loadsGs => .lost
  | place,_ => place

theorem follow_still (place : Place) (exit : event ≠ .exits) (load : event ≠ .loadsGs) : follow place event = place := by
  cases event with
  | exits => exact absurd rfl exit
  | loadsGs => exact absurd rfl load
  | kernel | enters | runs | interrupted | answered | faults =>
    cases place with
    | parked | active | lost => rfl

def Held (cpu0 : Word) (m : Cpu) : Place → Prop
  | .parked => m.gsBase = 0#64 ∧ m.kernelGsBase = cpu0
  | .active => m.gsBase = cpu0 ∧ m.kernelGsBase = 0#64
  | .lost => m.gsBase = 0#64 ∧ m.kernelGsBase = 0#64

theorem held_same {other : Cpu} {place : Place} (held : Held l.cpu0 m place) (same : SameBases m other) : Held l.cpu0 other place := by
  cases place with
  | parked | active | lost => exact ⟨same.1.trans held.1,same.2.trans held.2⟩

-- An exit leaves the bases as the stub swapped them.
theorem held_swapped {other : Cpu} {place : Place} (held : Held l.cpu0 m place)
    (swapped : other.gsBase = m.kernelGsBase ∧ other.kernelGsBase = m.gsBase) : Held l.cpu0 other (follow place .exits) := by
  cases place with
  | parked | active | lost => exact ⟨swapped.1.trans held.2,swapped.2.trans held.1⟩

theorem held_kept {other : Cpu} {place : Place} (held : Held l.cpu0 m place) (same : SameBases m other)
    (exit : event ≠ .exits) (load : event ≠ .loadsGs) : Held l.cpu0 other (follow place event) := by
  rw [follow_still place exit load]
  exact held_same held same

theorem step_held {place : Place} (held : Held l.cpu0 s.cpu place) (step : (excursions dpl l rsp0).step s event after) :
    Held l.cpu0 after.cpu (follow place event) := by
  cases event with
  | kernel => exact held_kept held step.2.2 (by decide) (by decide)
  | enters =>
    have bases := jump_bases dpl l s.cpu
    rw [show usermodeJump dpl l s.cpu = after.cpu by rw [step.2]] at bases
    exact held_kept held bases (by decide) (by decide)
  | runs => exact held_kept held step.2.2 (by decide) (by decide)
  | loadsGs =>
    obtain ⟨_,_,zero,parked⟩ := step
    cases place with
    | parked | active | lost => exact ⟨zero,parked.trans held.2⟩
  | interrupted =>
    obtain ⟨_,gate,code,vector,c,same,result⟩ := step
    have bases := (deliver_bases gate code s.cpu).trans (stub_bases vector _) |>.trans same |>.trans (commonExit_bases dpl c)
    rw [←result] at bases
    exact held_kept held bases (by decide) (by decide)
  | answered =>
    obtain ⟨_,_,c,same,result⟩ := step
    have entered := called_bases l s.cpu
    have left := exit_bases (installed l.syscallAt) c
    have bases : SameBases s.cpu after.cpu := by
      rw [result]
      exact ⟨left.1.trans (same.2.trans entered.2),left.2.trans (same.1.trans entered.1)⟩
    exact held_kept held bases (by decide) (by decide)
  | exits =>
    obtain ⟨_,_,c,same,result⟩ := step
    have entered := called_bases l s.cpu
    have bases := same.trans (return_bases l c)
    rw [←result] at bases
    exact held_swapped held ⟨bases.1.trans entered.1,bases.2.trans entered.2⟩
  | faults =>
    obtain ⟨_,_,gate,code,c,same,result⟩ := step
    have bases := (deliver_bases gate (some code) s.cpu).trans (stub_bases 14 _) |>.trans same |>.trans (return_bases l c)
    rw [←result] at bases
    exact held_kept held bases (by decide) (by decide)

def place (events : List Event) : Place := events.foldl follow .parked

theorem run_held (started : (excursions dpl l rsp0).initial origin) (path : Runs (excursions dpl l rsp0) origin events s) :
    Held l.cpu0 s.cpu (place events) := by
  induction path with
  | nil => exact started.2
  | step earlier step ih =>
    rw [place,List.foldl_append]
    exact step_held ih step

-- Without a load of %gs the exits alone decide, by their number.
theorem place_parity (quiet : Event.loadsGs ∉ events) : place events = if events.count .exits%2 = 0 then .parked else .active := by
  induction events using List.reverseRecOn with
  | nil => rfl
  | append_singleton events event ih =>
    have earlier := ih fun member => quiet (List.mem_append_left _ member)
    rw [place,List.foldl_append,List.foldl_cons,List.foldl_nil]
    change follow (place events) event = _
    rw [earlier,List.count_append]
    by_cases exit : event = .exits
    · subst exit
      rw [show List.count Event.exits [.exits] = 1 from rfl]
      split
      · rw [if_neg (by omega)]
        rfl
      · rw [if_pos (by omega)]
        rfl
    · have load : event ≠ .loadsGs := fun same => quiet (List.mem_append_right _ (List.mem_singleton.mpr same.symm))
      rw [follow_still _ exit load,List.count_eq_zero_of_not_mem (l:=[event]) (by simpa using Ne.symm exit),Nat.add_zero]

theorem syscall_mem (msrs : Msrs) (m : Cpu) : (syscall msrs m).mem = m.mem := rfl
theorem syscall_rsp (msrs : Msrs) (m : Cpu) : (syscall msrs m).rsp = m.rsp := rfl
theorem syscall_parked (msrs : Msrs) (m : Cpu) : (syscall msrs m).kernelGsBase = m.kernelGsBase := rfl

-- Which stack the next system call stands on, in any state of any run. The stub takes its
-- stack pointer from the word at `base` and parks the program's at the next one: cpu0 while
-- the exits so far are even in number, and the first words of memory otherwise.
theorem system_call_stack (dpl : Selector → Nat) (rsp0 : Word) (started : (excursions dpl l rsp0).initial origin)
    (path : Runs (excursions dpl l rsp0) origin events s) :
    let base := if place events = .parked then l.cpu0 else 0#64
    let parked := setWord 8 s.cpu.mem (base+8#64).toNat s.cpu.rsp
    let stack := (pushed.map (syscall (installed l.syscallAt) s.cpu).regs).foldl (push 8) (parked,word 8 parked base.toNat)
    (called l s.cpu).gsBase = base ∧ ((called l s.cpu).mem,(called l s.cpu).rsp) = stack ∧
    (Event.loadsGs ∉ events → (place events = .parked ↔ events.count .exits%2 = 0)) := by
  have held := run_held started path
  have base : s.cpu.kernelGsBase = if place events = .parked then l.cpu0 else 0#64 := by
    cases same : place events with
    | parked | active | lost =>
      rw [same] at held
      exact held.2
  refine ⟨(called_bases l s.cpu).1.trans base,?_,fun quiet => ?_⟩
  · rw [←base,called,entry_result]
    dsimp only
    rw [syscall_mem,syscall_rsp,syscall_parked]
  · rw [place_parity quiet]
    split
    · exact ⟨fun _ => ‹_›,fun _ => rfl⟩
    · exact ⟨nofun,fun even => absurd even ‹_›⟩

-- The second program the demo kernel runs after one that called SYS_EXIT.
def demoLinked : Linked := ⟨0x130000,0x130008,0x140000#64,0x102000#64⟩
def booted : World := ⟨{demoProgram with cs:=0x08#16,ss:=0x10#16,rsp:=0x107FE0#64},false⟩
def entered (s : World) : World := ⟨usermodeJump (fun _ => 3) demoLinked s.cpu,true⟩
def exited (s : World) : World := ⟨usermodeReturn demoLinked (called demoLinked s.cpu),false⟩

theorem demo_entered (rsp0 : Word) (s : World) (kernel : s.user = false) : (excursions (fun _ => 3) demoLinked rsp0).step s .enters (entered s) :=
  ⟨kernel,rfl⟩

theorem demo_exited (rsp0 : Word) (s : World) (user : s.user = true) : (excursions (fun _ => 3) demoLinked rsp0).step s .exits (exited s) :=
  ⟨user,rfl,called demoLinked s.cpu,⟨rfl,rfl⟩,rfl⟩

theorem system_call_stack_demo : (called demoLinked (entered (exited (entered booted))).cpu).gsBase = 0#64 := by
  have first := demo_entered 0#64 booted rfl
  have second := demo_exited 0#64 (entered booted) rfl
  have third := demo_entered 0#64 (exited (entered booted)) rfl
  exact (system_call_stack (fun _ => 3) 0#64 ⟨rfl,rfl,rfl⟩ (.step (.step (.step .nil first) second) third)).1

end Arthic.LongExcursions
