import Arthic.InterruptStubs
import Arthic.Library.Transition

namespace Arthic.UsermodeReturns
open ByteMemory MachineStack Ia32 Transition InterruptStubs

-- The frame usermode_jump builds for iret; pushfl, popl and orl take the flags through eax.
def jumpFrame (m : Cpu) : Cpu :=
  let m := pushl m 0x23#32
  let m := pushl m (m.regs .edx)
  let m := popl (pushl m m.eflags) .eax
  let m := {m with regs:=Function.update m.regs .eax (m.regs .eax ||| 0x200#32)}
  let m := pushl m (m.regs .eax)
  let m := pushl m 0x1B#32
  pushl m (m.regs .ecx)

-- `uctx` is what current_uctx points at, the two words of the running task.
def usermodeJump (dpl : Selector → Nat) (uctx : Word) (m : Cpu) : Cpu :=
  let m := {m with regs:=Function.update m.regs .eax uctx}
  let m := {m with mem:=setWord 4 m.mem (m.regs .eax).toNat m.esp}
  let m := {m with mem:=setWord 4 m.mem (m.regs .eax+4#32).toNat (m.regs .ebp)}
  let m := {m with regs:=Function.update m.regs .ecx (word 4 m.mem (m.esp+4#32).toNat)}
  let m := {m with regs:=Function.update m.regs .edx (word 4 m.mem (m.esp+8#32).toNat)}
  iret dpl (jumpFrame (loadSegments (setLow (cli m) .eax 0x23#16)))

def usermodeReturn (uctx : Word) (m : Cpu) : Cpu :=
  let m := cli m
  let m := {m with regs:=Function.update m.regs .eax uctx}
  let m := {m with esp:=word 4 m.mem (m.regs .eax).toNat}
  let m := {m with regs:=Function.update m.regs .ebp (word 4 m.mem (m.regs .eax+4#32).toNat)}
  let m := sti (loadSegments (setLow m .eax 0x10#16))
  {m with eip:=word 4 m.mem m.esp.toNat,esp:=m.esp+4#32}

-- A task about to enter ring 3: the state at usermode_jump, the end of its callers' frames,
-- the stack usermode_run put into the TSS and kernel_stack_top, which the scheduler puts there.
structure Ground where
  uctx : Word
  ss0 : Selector
  esp0 : Word
  stackTop : Word
  start : Cpu
  ceiling : Nat
  upper : start.esp.toNat+4 ≤ ceiling
  room : ∀ top ∈ [esp0,stackTop],68 ≤ top.toNat
  jumps : 20 ≤ start.esp.toNat
  headroom : esp0.toNat ≤ start.esp.toNat
  save : uctx.toNat+8 < 2^32
  apart : uctx.toNat+8 ≤ start.esp.toNat-20 ∨ ceiling ≤ uctx.toNat
  uctxApart : ∀ top ∈ [esp0,stackTop],uctx.toNat+8 ≤ top.toNat-68 ∨ top.toNat ≤ uctx.toNat

-- What C leaves alone while the task is in ring 3: the two words, and the callers' frames
-- as far as they lie above its own.
def Kept (g : Ground) (limit : Nat) (mem after : Memory) : Prop := ∀ x,
  limit ≤ x ∧ g.start.esp.toNat ≤ x ∧ x < g.ceiling ∨ g.uctx.toNat ≤ x ∧ x < g.uctx.toNat+8 → after x = mem x

structure World where
  cpu : Cpu
  esp0 : Word

-- A program in ring 3 runs, is interrupted, or is interrupted and gets the processor back
-- only after other tasks had it.
inductive Event where
  | runs
  | interrupted
  | preempted
  deriving DecidableEq

-- The stub, and the C code behind it: it returns to a frame that shows some state of ring 3.
def Served (dpl : Selector → Nat) (g : Ground) (w : World) (after : Cpu) : Prop :=
  ∃ gate code vector c other,code.isSome = pushesCode vector ∧ ring gate.selector < 3 ∧
    let e := stub vector (deliver ⟨g.ss0,w.esp0⟩ gate code w.cpu)
    Returned e c ∧ Possible dpl gate w.cpu other ∧ Shows gate other (registersAt c.mem (e.esp.toNat+4)) ∧
    Kept g w.esp0.toNat e.mem c.mem ∧ after = commonExit dpl c

def excursion (dpl : Selector → Nat) (g : Ground) : System World Event where
  initial w := w = ⟨usermodeJump dpl g.uctx g.start,g.esp0⟩
  step w event after := match event with
    | .runs => ring after.cpu.cs = ring w.cpu.cs ∧ Kept g 0 w.cpu.mem after.cpu.mem ∧ after.esp0 = w.esp0
    | .interrupted => Served dpl g w after.cpu ∧ after.esp0 = w.esp0
    | .preempted => Served dpl g w after.cpu ∧ after.esp0 = g.stackTop

-- SYS_EXIT or a fault, and usermode_return behind it; the frame's last two words are read by nobody.
def Leaves (g : Ground) (w : World) (final : Cpu) : Prop :=
  ∃ gate code vector c,code.isSome = pushesCode vector ∧ ring gate.selector < 3 ∧
    Kept g (w.esp0.toNat-8) (stub vector (deliver ⟨g.ss0,w.esp0⟩ gate code w.cpu)).mem c.mem ∧
      final = usermodeReturn g.uctx c

variable {g : Ground} {dpl : Selector → Nat} {w after : World} {m final : Cpu} {event : Event} {events : List Event}
  {gate : Gate} {code : Option Word} {vector limit : Nat} {mem other : Memory}

structure Parked (g : Ground) (mem : Memory) : Prop where
  esp : word 4 mem g.uctx.toNat = g.start.esp
  ebp : word 4 mem (g.uctx.toNat+4) = g.start.regs .ebp

def Callers (g : Ground) (mem : Memory) : Prop := ∀ x,g.start.esp.toNat ≤ x → x < g.ceiling → mem x = g.start.mem x

theorem parked_kept (parked : Parked g mem) (kept : Kept g limit mem other) : Parked g other := by
  constructor
  · rw [word_congr fun x above below => kept x (.inr ⟨above,by omega⟩),parked.esp]
  · rw [word_congr fun x above below => kept x (.inr ⟨by omega,by omega⟩),parked.ebp]

theorem callers_kept (callers : Callers g mem) (kept : Kept g limit mem other) (below : limit ≤ g.start.esp.toNat) :
    Callers g other := by
  intro x above inside
  rw [kept x (.inl ⟨by omega,above,inside⟩),callers x above inside]

-- An interrupt of ring 3 starts at the stack in the TSS.
theorem entry_framed (level : ring w.cpu.cs = 3) (kernel : ring gate.selector < 3)
    (given : code.isSome = pushesCode vector) (room : 68 ≤ w.esp0.toNat) :
    let e := stub vector (deliver ⟨g.ss0,w.esp0⟩ gate code w.cpu)
    Framed ⟨g.ss0,w.esp0⟩ gate w.cpu e ∧ Shows gate w.cpu (registersAt e.mem (e.esp.toNat+4)) ∧ outer gate w.cpu ∧
    base ⟨g.ss0,w.esp0⟩ gate w.cpu = w.esp0 ∧ e.esp.toNat+68 = w.esp0.toNat := by
  have change : outer gate w.cpu := by
    unfold outer
    rw [level]
    exact kernel
  have start : base ⟨g.ss0,w.esp0⟩ gate w.cpu = w.esp0 := if_pos change
  obtain ⟨esp,pointer,called⟩ := stub_called ⟨g.ss0,w.esp0⟩ gate code vector w.cpu given
  obtain ⟨framed,shows,_⟩ := called_framed called (by rw [start]; exact room)
  refine ⟨framed,shows,change,start,?_⟩
  have above := framed.above
  rw [size,if_pos change,start] at above
  omega

-- It writes below that stack and nowhere else.
theorem entry_kept (level : ring w.cpu.cs = 3) (kernel : ring gate.selector < 3) (given : code.isSome = pushesCode vector)
    (room : 68 ≤ w.esp0.toNat) (apart : g.uctx.toNat+8 ≤ w.esp0.toNat-68 ∨ w.esp0.toNat ≤ g.uctx.toNat) :
    Kept g w.esp0.toNat w.cpu.mem (stub vector (deliver ⟨g.ss0,w.esp0⟩ gate code w.cpu)).mem := by
  obtain ⟨framed,_,_,start,place⟩ := entry_framed (g:=g) level kernel given room
  intro x reserved
  refine framed.untouched x ?_
  rw [start]
  rcases reserved with ⟨above,_⟩ | ⟨above,inside⟩
  · exact .inr above
  · omega

-- What holds while the program is out, once it was preempted and before.
structure Grounded (g : Ground) (preempted : Prop) (w : World) : Prop where
  level : ring w.cpu.cs = 3
  among : w.esp0 ∈ [g.esp0,g.stackTop]
  moved : preempted → w.esp0 = g.stackTop
  resting : ¬preempted → w.esp0 = g.esp0
  parked : Parked g w.cpu.mem
  callers : (preempted → g.stackTop.toNat ≤ g.start.esp.toNat) → w.esp0.toNat ≤ g.start.esp.toNat ∧ Callers g w.cpu.mem

theorem served_grounded {preempted : Prop} (grounded : Grounded g preempted w) (served : Served dpl g w m) :
    ring m.cs = 3 ∧ Parked g m.mem ∧ ((preempted → g.stackTop.toNat ≤ g.start.esp.toNat) → Callers g m.mem) := by
  obtain ⟨gate,code,vector,c,other,given,kernel,returned,possible,shows,kept,rfl⟩ := served
  have room := g.room w.esp0 grounded.among
  obtain ⟨framed,_⟩ := entry_framed (g:=g) grounded.level kernel given room
  have pushed := entry_kept (g:=g) grounded.level kernel given room (g.uctxApart w.esp0 grounded.among)
  rw [exit_mem]
  refine ⟨?_,parked_kept (parked_kept grounded.parked pushed) kept,fun safe => ?_⟩
  · rw [(frame_continues framed returned possible shows).cs]
    exact possible.level.trans grounded.level
  · obtain ⟨below,callers⟩ := grounded.callers safe
    exact callers_kept (callers_kept callers pushed below) kept below

theorem step_grounded {preempted : Prop} (grounded : Grounded g preempted w)
    (step : (excursion dpl g).step w event after) :
    Grounded g (preempted ∨ event = .preempted) after := by
  cases event with
  | runs =>
    obtain ⟨level,kept,same⟩ := step
    refine ⟨level.trans grounded.level,by rw [same]; exact grounded.among,fun either => ?_,fun neither => ?_,
      parked_kept grounded.parked kept,fun safe => ?_⟩
    · rw [same]
      exact grounded.moved (either.resolve_right nofun)
    · rw [same]
      exact grounded.resting fun before => neither (.inl before)
    · obtain ⟨below,callers⟩ := grounded.callers fun before => safe (.inl before)
      rw [same]
      exact ⟨below,callers_kept callers kept (Nat.zero_le _)⟩
  | interrupted =>
    obtain ⟨served,same⟩ := step
    obtain ⟨level,parked,callers⟩ := served_grounded grounded served
    refine ⟨level,by rw [same]; exact grounded.among,fun either => ?_,fun neither => ?_,parked,fun safe => ?_⟩
    · rw [same]
      exact grounded.moved (either.resolve_right nofun)
    · rw [same]
      exact grounded.resting fun before => neither (.inl before)
    · rw [same]
      exact ⟨(grounded.callers fun before => safe (.inl before)).1,callers fun before => safe (.inl before)⟩
  | preempted =>
    obtain ⟨served,switched⟩ := step
    obtain ⟨level,parked,callers⟩ := served_grounded grounded served
    refine ⟨level,by rw [switched]; exact List.mem_cons_of_mem _ (List.mem_singleton_self _),fun _ => switched,
      fun neither => absurd (.inr rfl) neither,parked,fun safe => ?_⟩
    rw [switched]
    exact ⟨safe (.inr rfl),callers fun before => safe (.inl before)⟩

-- The frame of usermode_jump, in the words that stay.
def jumpWords (m : Cpu) : List Word := [0x23#32,m.regs .edx,m.eflags ||| 0x200#32,0x1B#32,m.regs .ecx]

theorem popl_pushed (m : Cpu) (value : Word) (r : Reg) :
    popl (pushl m value) r = {m with mem:=(pushl m value).mem,regs:=Function.update m.regs r value} := by
  have read : word 4 (pushl m value).mem (pushl m value).esp.toNat = value := word_set word_fits _ _ _
  have place : (pushl m value).esp+BitVec.ofNat 32 4 = m.esp := BitVec.sub_add_cancel ..
  unfold popl pop
  dsimp only
  rw [read,place]
  rfl

-- The word popped into eax is pushed again, with the interrupt flag set.
theorem pushed_flags (m : Cpu) :
    let c := popl (pushl m m.eflags) .eax
    let c := {c with regs:=Function.update c.regs .eax (c.regs .eax ||| 0x200#32)}
    pushl c (c.regs .eax) = {pushl m (m.eflags ||| 0x200#32) with regs:=Function.update m.regs .eax (m.eflags ||| 0x200#32)} := by
  have written := set_push 4 (m.mem,m.esp) m.eflags (m.eflags ||| 0x200#32)
  rw [popl_pushed]
  dsimp only
  rw [Function.update_self,Function.update_self,Function.update_idem]
  unfold pushl
  dsimp only
  rw [show (push 4 ((push 4 (m.mem,m.esp) m.eflags).1,m.esp) (m.eflags ||| 0x200#32)).1 = _ from written]
  rfl

theorem jumpFrame_result (m : Cpu) :
    ((jumpFrame m).mem,(jumpFrame m).esp) = (jumpWords m).foldl (push 4) (m.mem,m.esp) ∧ (jumpFrame m).cs = m.cs := by
  have flags := pushed_flags (pushl (pushl m 0x23#32) (m.regs .edx))
  dsimp only at flags
  have frame : jumpFrame m = _ := congrArg (fun c => pushl (pushl c 0x1B#32) (c.regs .ecx)) flags
  rw [frame]
  exact ⟨rfl,rfl⟩

theorem iret_parts (dpl : Selector → Nat) (m : Cpu) : (iret dpl m).cs = low (word 4 m.mem (m.esp+4#32).toNat) ∧
    (iret dpl m).mem = m.mem := by
  unfold iret
  dsimp only
  split
  · exact ⟨rfl,rfl⟩
  · exact ⟨rfl,rfl⟩

-- The state in which the frame is built: the two words are written and the stack is the caller's.
def prepared (uctx : Word) (m : Cpu) : Cpu :=
  let m := {m with regs:=Function.update m.regs .eax uctx}
  let m := {m with mem:=setWord 4 m.mem (m.regs .eax).toNat m.esp}
  let m := {m with mem:=setWord 4 m.mem (m.regs .eax+4#32).toNat (m.regs .ebp)}
  let m := {m with regs:=Function.update m.regs .ecx (word 4 m.mem (m.esp+4#32).toNat)}
  let m := {m with regs:=Function.update m.regs .edx (word 4 m.mem (m.esp+8#32).toNat)}
  loadSegments (setLow (cli m) .eax 0x23#16)

theorem prepared_parts (uctx : Word) (m : Cpu) : (prepared uctx m).esp = m.esp ∧ (prepared uctx m).cs = m.cs ∧
    (prepared uctx m).mem = setWord 4 (setWord 4 m.mem uctx.toNat m.esp) (uctx+4#32).toNat (m.regs .ebp) := by
  have eax : Function.update m.regs Reg.eax uctx .eax = uctx := Function.update_self ..
  have ebp : Function.update m.regs Reg.eax uctx .ebp = m.regs .ebp := Function.update_of_ne (by decide) ..
  refine ⟨rfl,rfl,?_⟩
  change setWord 4 (setWord 4 m.mem (Function.update m.regs Reg.eax uctx .eax).toNat m.esp)
    (Function.update m.regs Reg.eax uctx .eax+4#32).toNat (Function.update m.regs Reg.eax uctx .ebp) = _
  rw [eax,ebp]

theorem jump_grounded (g : Ground) (dpl : Selector → Nat) :
    Grounded g False ⟨usermodeJump dpl g.uctx g.start,g.esp0⟩ := by
  obtain ⟨esp,privileged,written⟩ := prepared_parts g.uctx g.start
  obtain ⟨cs,mem⟩ := iret_parts dpl (jumpFrame (prepared g.uctx g.start))
  change (usermodeJump dpl g.uctx g.start).cs = _ at cs
  change (usermodeJump dpl g.uctx g.start).mem = _ at mem
  obtain ⟨stack,_⟩ := jumpFrame_result (prepared g.uctx g.start)
  have pushed := push_all word_fits (prepared g.uctx g.start).mem (prepared g.uctx g.start).esp (jumpWords (prepared g.uctx g.start)) (by
    rw [esp]
    exact g.jumps)
  rw [←stack] at pushed
  have pointer := pushed.pointer
  have outside := pushed.outside
  obtain ⟨_,selector,_⟩ := pushed.words
  rw [esp,written] at outside
  rw [esp] at pointer
  dsimp only [jumpWords,List.length] at pointer selector outside
  have start := g.start.esp.isLt
  have place : ((jumpFrame (prepared g.uctx g.start)).esp+4#32).toNat = (jumpFrame (prepared g.uctx g.start)).esp.toNat+4 :=
    sp_higher (by omega)
  rw [place,selector] at cs
  have second : (g.uctx+4#32).toNat = g.uctx.toNat+4 := sp_higher (by have := g.save; omega)
  have apart := g.apart
  have upper := g.upper
  rw [second] at outside
  refine ⟨by rw [cs]; rfl,List.mem_cons_self ..,nofun,fun _ => rfl,⟨?_,?_⟩,fun _ => ⟨g.headroom,fun x above below => ?_⟩⟩
  · dsimp only
    rw [mem,word_congr fun x above below => outside x (by omega),
      word_congr fun x above below => set_outside _ _ (by omega)]
    exact word_set word_fits _ _ _
  · dsimp only
    rw [mem,word_congr fun x above below => outside x (by omega)]
    exact word_set word_fits _ _ _
  · dsimp only
    rw [mem,outside x (by omega),set_outside _ _ (by omega),set_outside _ _ (by omega)]

theorem run_grounded {origin : World} (start : Grounded g False origin) (path : Runs (excursion dpl g) origin events w) :
    Grounded g (.preempted ∈ events) w := by
  induction path with
  | nil => simpa using start
  | step earlier step ih =>
    have grounded := step_grounded ih step
    simpa [eq_comm] using grounded

-- Where usermode_return goes on: behind the call of usermode_jump, in its caller's frame.
structure Back (g : Ground) (final : Cpu) : Prop where
  eip : final.eip = word 4 g.start.mem g.start.esp.toNat
  esp : final.esp = g.start.esp+4#32
  ebp : final.regs .ebp = g.start.regs .ebp
  callers : Callers g final.mem

theorem return_parts (save : g.uctx.toNat+8 < 2^32) (parked : Parked g m.mem) :
    let final := usermodeReturn g.uctx m
    final.eip = word 4 m.mem g.start.esp.toNat ∧ final.esp = g.start.esp+4#32 ∧
    final.regs .ebp = g.start.regs .ebp ∧ final.mem = m.mem := by
  have second : (g.uctx+4#32).toNat = g.uctx.toNat+4 := sp_higher (by omega)
  have eax : Function.update m.regs Reg.eax g.uctx .eax = g.uctx := Function.update_self ..
  have eip : (usermodeReturn g.uctx m).eip = word 4 m.mem (word 4 m.mem (Function.update m.regs Reg.eax g.uctx .eax).toNat : Word).toNat := rfl
  have esp : (usermodeReturn g.uctx m).esp = word 4 m.mem (Function.update m.regs Reg.eax g.uctx .eax).toNat+4#32 := rfl
  have regs : ∃ value,(usermodeReturn g.uctx m).regs = Function.update (Function.update (Function.update m.regs .eax g.uctx) .ebp
      (word 4 m.mem (Function.update m.regs Reg.eax g.uctx .eax+4#32).toNat)) .eax value := ⟨_,rfl⟩
  obtain ⟨value,regs⟩ := regs
  rw [eax,parked.esp] at eip esp
  refine ⟨eip,esp,?_,rfl⟩
  rw [regs,Function.update_of_ne (by decide),Function.update_self,eax,second,parked.ebp]

-- The last interrupt writes the program's stack pointer and segment over whatever is under
-- the stack in the TSS.
theorem leaving_written (level : ring w.cpu.cs = 3) (kernel : ring gate.selector < 3)
    (given : code.isSome = pushesCode vector) (room : 68 ≤ w.esp0.toNat)
    (kept : Kept g (w.esp0.toNat-8) (stub vector (deliver ⟨g.ss0,w.esp0⟩ gate code w.cpu)).mem mem)
    (inside : g.start.esp.toNat+8 ≤ w.esp0.toNat) (below : w.esp0.toNat ≤ g.ceiling) :
    word 4 mem (w.esp0.toNat-8) = w.cpu.esp ∧ word 4 mem (w.esp0.toNat-4) = w.cpu.ss.setWidth 32 := by
  obtain ⟨_,shows,change,_,place⟩ := entry_framed (g:=g) level kernel given room
  obtain ⟨esp,ss⟩ := shows.outside change
  unfold registersAt at esp ss
  dsimp only at esp ss
  rw [show (stub vector (deliver ⟨g.ss0,w.esp0⟩ gate code w.cpu)).esp.toNat+4+56 = w.esp0.toNat-8 by omega] at esp
  rw [show (stub vector (deliver ⟨g.ss0,w.esp0⟩ gate code w.cpu)).esp.toNat+4+60 = w.esp0.toNat-4 by omega] at ss
  constructor
  · rw [word_congr fun x above below => kept x (.inl ⟨above,by omega,by omega⟩),esp]
  · rw [word_congr fun x above below => kept x (.inl ⟨by omega,by omega,by omega⟩),ss]

theorem leaves_parts {preempted : Prop} (grounded : Grounded g preempted w) (left : Leaves g w final) :
    ((preempted → g.stackTop.toNat ≤ g.start.esp.toNat) → Back g final) ∧ final.esp = g.start.esp+4#32 ∧
    final.regs .ebp = g.start.regs .ebp ∧
    (g.start.esp.toNat+8 ≤ w.esp0.toNat → w.esp0.toNat ≤ g.ceiling →
      word 4 final.mem (w.esp0.toNat-8) = w.cpu.esp ∧ word 4 final.mem (w.esp0.toNat-4) = w.cpu.ss.setWidth 32) := by
  obtain ⟨gate,code,vector,c,given,kernel,kept,rfl⟩ := left
  have room := g.room w.esp0 grounded.among
  have pushed := entry_kept (g:=g) grounded.level kernel given room (g.uctxApart w.esp0 grounded.among)
  have parked := parked_kept (parked_kept grounded.parked pushed) kept
  obtain ⟨eip,esp,ebp,mem⟩ := return_parts g.save parked
  refine ⟨fun safe => ?_,esp,ebp,fun inside below => ?_⟩
  · obtain ⟨low,callers⟩ := grounded.callers safe
    have upper := g.upper
    have whole := callers_kept (callers_kept callers pushed low) kept (by omega)
    refine ⟨eip.trans ?_,esp,ebp,mem ▸ whole⟩
    exact word_congr fun x above below => whole x above (by omega)
  · rw [mem]
    exact leaving_written grounded.level kernel given room kept inside below

-- usermode_run comes back from every program, interrupted or not, as long as the task was
-- not preempted. Once it was, interrupts start at kernel_stack_top, and the run comes back
-- only if that lies below the callers' frames: else it goes on in frames with the program's
-- own words in them.
theorem preempted_programs_return (dpl : Selector → Nat) {origin : World} (started : (excursion dpl g).initial origin)
    (path : Runs (excursion dpl g) origin events w) (left : Leaves g w final) :
    ((.preempted ∈ events → g.stackTop.toNat ≤ g.start.esp.toNat) → Back g final) ∧
    (.preempted ∈ events → g.start.esp.toNat+8 ≤ g.stackTop.toNat → g.stackTop.toNat ≤ g.ceiling →
      final.esp = g.start.esp+4#32 ∧ final.regs .ebp = g.start.regs .ebp ∧
      word 4 final.mem (g.stackTop.toNat-8) = w.cpu.esp ∧ word 4 final.mem (g.stackTop.toNat-4) = w.cpu.ss.setWidth 32) := by
  have start : Grounded g False origin := by
    rw [show origin = _ from started]
    exact jump_grounded g dpl
  have grounded := run_grounded start path
  obtain ⟨back,esp,ebp,written⟩ := leaves_parts grounded left
  refine ⟨back,fun preempted inside below => ⟨esp,ebp,?_⟩⟩
  rw [grounded.moved preempted] at written
  exact written inside below

-- The shell runs a program that is preempted once and exits.
def demoGround : Ground where
  uctx := 0x300010#32
  ss0 := 0x10#16
  esp0 := 0x107B00#32
  stackTop := 0x107E80#32
  start := {demoCpu with cs:=0x08#16,ss:=0x10#16,esp:=0x107C00#32}
  ceiling := 0x108000
  upper := by decide
  room := by simp
  jumps := by decide
  headroom := by decide
  save := by decide
  apart := by decide
  uctxApart := by simp

def demoEntered : Cpu := usermodeJump (fun _ => 3) demoGround.uctx demoGround.start
def demoServed : Cpu := commonExit (fun _ => 3) (stub 32 (deliver ⟨0x10#16,0x107B00#32⟩ kernelGate none demoEntered))
def demoLeft : Cpu := usermodeReturn demoGround.uctx (stub 128 (deliver ⟨0x10#16,0x107E80#32⟩ kernelGate none demoServed))

theorem preempted_programs_return_demo :
    demoLeft.esp = 0x107C04#32 ∧ word 4 demoLeft.mem 0x107E78 = demoServed.esp ∧
    word 4 demoLeft.mem 0x107E7C = demoServed.ss.setWidth 32 := by
  have grounded := jump_grounded demoGround (fun _ => 3)
  obtain ⟨_,shows,change,_⟩ :=
    @entry_framed demoGround _ kernelGate none 32 grounded.level (by decide) rfl (by decide)
  have served : (excursion (fun _ => 3) demoGround).step
      ⟨demoEntered,0x107B00#32⟩ .preempted ⟨demoServed,0x107E80#32⟩ := by
    refine ⟨⟨kernelGate,none,32,_,demoEntered,rfl,by decide,⟨rfl,rfl,rfl⟩,⟨rfl,fun _ => ?_,fun inner => ?_⟩,shows,
      fun _ _ => rfl,rfl⟩,rfl⟩
    · rw [show ring demoEntered.cs = 3 from grounded.level]
    · exact absurd change inner
  obtain ⟨_,written⟩ := preempted_programs_return (fun _ => 3) rfl (.step .nil served)
    ⟨kernelGate,none,128,_,rfl,by decide,fun _ _ => rfl,rfl⟩
  obtain ⟨esp,_,pointer,segment⟩ := written (List.mem_singleton_self _) (by decide) (by decide)
  exact ⟨esp,pointer,segment⟩

end Arthic.UsermodeReturns
