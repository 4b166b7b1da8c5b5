import Arthic.ContextSwitch
import Arthic.InterruptStubs

namespace Arthic.Preemption
open ByteMemory Transition Ia32 InterruptStubs

variable {Task : Type} {L : ContextSwitch.Layout Task} {s first final : ContextSwitch.World Task} {m e : Cpu}
  {tss : Tss} {gate : Gate} {dpl : Selector → Nat} {back : ContextSwitch.Machine → Cpu} {other : Task}

-- irq_handler on its way to task_switch and back, as the stub sees it. Its frames are below
-- the stub's, and it leaves the stub's frame and what lies above alone. If task_switch gives
-- it back its registers, its stack pointer and its stack, it returns to the stub.
structure Compiled (L : ContextSwitch.Layout Task) (s : ContextSwitch.World Task) (e : Cpu)
    (back : ContextSwitch.Machine → Cpu) : Prop where
  below : s.machine.esp.toNat ≤ e.esp.toNat+4
  before : ∀ x,e.esp.toNat+4 ≤ x → x < (L.top s.current).toNat → s.machine.mem x = e.mem x
  returns : ∀ machine,ContextSwitch.Resumed machine (ContextSwitch.frameOf s.machine) (s.machine.esp.toNat+4) →
    (∀ x,s.machine.esp.toNat ≤ x → x < (L.top s.current).toNat → machine.mem x = s.machine.mem x) →
    Returned e (back machine) ∧
    ∀ x,e.esp.toNat+4 ≤ x → x < (L.top s.current).toNat → (back machine).mem x = machine.mem x

-- What task_switch promises its caller: when the task is switched to again it has its
-- registers, its stack pointer and its stack.
theorem called_back (reached : Reached (ContextSwitch.switching L) s) (step : (ContextSwitch.switching L).step s (.switch other) first)
    (away : ContextSwitch.Away L first final s.current) :
    ContextSwitch.Resumed final.machine (ContextSwitch.frameOf s.machine) (s.machine.esp.toNat+4) ∧
    ∀ x,s.machine.esp.toNat ≤ x → x < (L.top s.current).toNat → final.machine.mem x = s.machine.mem x := by
  have standing := ContextSwitch.step_standing (ContextSwitch.reached_standing reached) step
  have present := ContextSwitch.reached_present reached
  obtain ⟨_,different,calling,rfl⟩ := step
  obtain ⟨lower,_⟩ := calling.room
  obtain ⟨words,pointer,untouched⟩ := ContextSwitch.calling_parks calling
  rw [←ContextSwitch.switch_saves] at words pointer untouched
  have mine := L.apart s.current s.current
  obtain ⟨resumed,kept⟩ := ContextSwitch.away_resumed standing present different.symm away (pointer.symm ▸ words)
  dsimp only at resumed kept
  rw [ContextSwitch.saved,pointer,show s.machine.esp.toNat-20+24 = s.machine.esp.toNat+4 by omega] at resumed
  refine ⟨resumed,fun x above below => ?_⟩
  rw [kept x (.inr ⟨by rw [ContextSwitch.saved,pointer]; omega,below⟩)]
  exact untouched x (by omega) (by omega)

-- A task that the timer interrupts, in ring 3 or in the kernel, and that is switched away from
-- goes on in the state it was interrupted in, with the stack it had, whatever the other tasks
-- did in between.
theorem preemption_transparent (tss : Tss) (gate : Gate) (reached : Reached (ContextSwitch.switching L) s) (room : 68 ≤ (base tss gate m).toNat)
    (stack : (base tss gate m).toNat ≤ (L.top s.current).toNat) (usable : outer gate m → ring m.cs ≤ dpl m.ds)
    (compiled : Compiled L s (stub 32 (deliver tss gate none m)) back)
    (step : (ContextSwitch.switching L).step s (.switch other) first) (away : ContextSwitch.Away L first final s.current) :
    let resumed := commonExit dpl (back final.machine)
    Continues m resumed ∧
    ∀ x,(base tss gate m).toNat ≤ x → x < (L.top s.current).toNat → resumed.mem x = m.mem x := by
  obtain ⟨_,_,called⟩ := stub_called tss gate none 32 m rfl
  obtain ⟨framed,shows,_,_⟩ := called_framed called room
  generalize stub 32 (deliver tss gate none m) = e at framed shows compiled
  obtain ⟨resumed,stackKept⟩ := called_back reached step away
  obtain ⟨returned,after⟩ := compiled.returns final.machine resumed stackKept
  have above := framed.above
  have below := compiled.below
  have same : ∀ x,e.esp.toNat+4 ≤ x → x < (L.top s.current).toNat → (back final.machine).mem x = e.mem x := by
    intro x lower upper
    rw [after x lower upper,stackKept x (by omega) upper,compiled.before x lower upper]
  constructor
  · refine frame_continues framed returned ⟨rfl,usable,fun _ => ⟨rfl,rfl⟩⟩ (shows_kept shows fun x lower upper => same x lower ?_)
    omega
  · intro x lower upper
    rw [exit_mem,same x (by omega) upper,framed.untouched x (.inr lower)]

-- A kernel thread is interrupted, makes way for another task and gets the processor back.
def thread : Cpu := {demoCpu with cs:=0x08#16,ss:=0x10#16,ds:=0x10#16,esp:=0x1F00#32}
def entered : Cpu := stub 32 (deliver kernelTss kernelGate none thread)
def returning (e : Cpu) (machine : ContextSwitch.Machine) : Cpu := {e with mem:=machine.mem}

theorem returning_keeps (e : Cpu) (machine : ContextSwitch.Machine) :
    Returned e (returning e machine) ∧ ∀ x,e.esp.toNat+4 ≤ x → x < count → (returning e machine).mem x = machine.mem x :=
  ⟨⟨rfl,rfl,rfl⟩,fun _ _ _ => rfl⟩

open ContextSwitch in
def alone : World Bool :=
  ⟨⟨callArguments entered.mem 0x1800 0x100#32 0x3FE4#32,0x1800#32,1#32,2#32,3#32,4#32,0#32,0#32,0x246#32,0#32⟩,false,[false]⟩

open ContextSwitch in
def paired : World Bool :=
  {alone with machine:={alone.machine with mem:=createdMemory pairLayout alone.machine.mem true 0x500#32},created:=[true,false]}

open ContextSwitch in
def switched : World Bool := {paired with machine:=taskSwitch paired.machine,current:=true}

open ContextSwitch in
def worked : World Bool :=
  {switched with machine:={switched.machine with mem:=callArguments switched.machine.mem 0x3F00 0x200#32 0x17EC#32,esp:=0x3F00#32}}

open ContextSwitch in
def regained : World Bool := {worked with machine:=taskSwitch worked.machine,current:=false}

theorem call_words : ContextSwitch.peek paired.machine 0x1804#32 = 0x100#32 ∧
    ContextSwitch.peek paired.machine 0x1808#32 = WordStack.word paired.machine.mem 0x200 ∧
    ContextSwitch.peek worked.machine 0x3F04#32 = 0x200#32 ∧
    ContextSwitch.peek worked.machine 0x3F08#32 = WordStack.word worked.machine.mem 0x100 ∧ entered.esp = 0x1EC4#32 := by
  decide +kernel

theorem preemption_transparent_thread : Continues thread (commonExit (fun _ => 3) (returning entered regained.machine)) := by
  obtain ⟨one,two,three,four,place⟩ := call_words
  have created : (ContextSwitch.switching ContextSwitch.pairLayout).step alone (.create true 0x500#32) paired := ⟨by decide,by decide,rfl⟩
  have called : (ContextSwitch.switching ContextSwitch.pairLayout).step paired (.switch true) switched :=
    ⟨by decide,by decide,⟨⟨by decide,by decide⟩,one,two⟩,rfl⟩
  have work : (ContextSwitch.switching ContextSwitch.pairLayout).step switched .work worked := by
    refine ⟨rfl,rfl,fun i member other x reserved => ?_⟩
    cases i with
    | true => exact absurd rfl other
    | false =>
      have inside : x < 0x2000 := by
        rcases reserved with ⟨_,cell⟩ | ⟨_,stack⟩
        · change x < 0x104 at cell
          omega
        · exact stack
      change ContextSwitch.callArguments switched.machine.mem 0x3F00 0x200#32 0x17EC#32 x = _
      rw [ContextSwitch.callArguments,WordStack.set_outside _ _ (by omega),WordStack.set_outside _ _ (by omega),
        WordStack.set_outside _ _ (by omega)]
  have returns : (ContextSwitch.switching ContextSwitch.pairLayout).step worked (.switch false) regained :=
    ⟨by decide,by decide,⟨⟨by decide,by decide⟩,three,four⟩,rfl⟩
  have compiled : Compiled ContextSwitch.pairLayout paired entered (returning entered) := by
    refine ⟨by rw [place]; decide,fun x lower upper => ?_,fun machine _ _ => returning_keeps entered machine⟩
    rw [place] at lower
    change 0x1EC8 ≤ x at lower
    change x < 0x2000 at upper
    have built : ContextSwitch.Built alone.machine.mem 0x4000#32 0x700#32 0x500#32 _ := ContextSwitch.stack_built _ _ _ (by decide)
    change WordStack.setWord _ 0x200 _ x = _
    rw [WordStack.set_outside _ _ (by omega)]
    refine (built.outside x (.inl (Nat.lt_trans upper (by decide)))).trans ?_
    change ContextSwitch.callArguments entered.mem 0x1800 0x100#32 0x3FE4#32 x = _
    rw [ContextSwitch.callArguments,WordStack.set_outside _ _ (by omega),WordStack.set_outside _ _ (by omega),
      WordStack.set_outside _ _ (by omega)]
  have reached : Reached (ContextSwitch.switching ContextSwitch.pairLayout) paired := ⟨alone,_,rfl,.step .nil created⟩
  have away : ContextSwitch.Away ContextSwitch.pairLayout switched regained paired.current := by
    refine ⟨⟨_,worked,.step .nil work,fun next member => ?_,returns⟩⟩
    cases List.mem_singleton.mp member
  have usable : outer kernelGate thread → ring thread.cs ≤ 3 := fun change => absurd change (by decide)
  exact (preemption_transparent kernelTss kernelGate reached (m:=thread) (by decide) (by decide) usable compiled called away).1

end Arthic.Preemption
