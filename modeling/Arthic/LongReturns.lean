import Arthic.LongExcursions

namespace Arthic.LongReturns
open ByteMemory MachineStack Amd64 Transition LongSyscalls LongExcursions

-- What has to stay as it is while a program runs: the stack from usermode_jump's return
-- address up, and the two words that say where that is.
structure Ground where
  linked : Linked
  stackTop : Word
  rsp0 : Word
  start : Cpu
  ceiling : Nat
  ready : Ready linked.cpu0 stackTop start
  upper : start.rsp.toNat+8 ≤ ceiling
  room : 192 ≤ rsp0.toNat ∧ 40 ≤ start.rsp.toNat
  cells : linked.savedRsp+8 ≤ linked.savedRbp ∨ linked.savedRbp+8 ≤ linked.savedRsp
  rspApart : linked.savedRsp+8 ≤ start.rsp.toNat ∨ ceiling ≤ linked.savedRsp
  rbpApart : linked.savedRbp+8 ≤ start.rsp.toNat ∨ ceiling ≤ linked.savedRbp
  rspCpu : linked.savedRsp+8 ≤ linked.cpu0.toNat ∨ linked.cpu0.toNat+8 ≤ linked.savedRsp
  rbpCpu : linked.savedRbp+8 ≤ linked.cpu0.toNat ∨ linked.cpu0.toNat+8 ≤ linked.savedRbp

-- The callers' part of the stack, the two cells and cpu0.kernel_rsp.
def Reserved (g : Ground) (x : Nat) : Prop :=
  g.start.rsp.toNat ≤ x ∧ x < g.ceiling ∨ g.linked.savedRsp ≤ x ∧ x < g.linked.savedRsp+8 ∨
  g.linked.savedRbp ≤ x ∧ x < g.linked.savedRbp+8 ∨ g.linked.cpu0.toNat ≤ x ∧ x < g.linked.cpu0.toNat+8

-- The linker and the allocator keep the system call stack, the slot for the program's stack
-- pointer and the interrupt stack apart from that.
def Apart (g : Ground) : Prop := ∀ x,Reserved g x →
  (x < g.stackTop.toNat-4096 ∨ g.stackTop.toNat ≤ x) ∧ (x < g.linked.cpu0.toNat+8 ∨ g.linked.cpu0.toNat+16 ≤ x) ∧
  (x < g.rsp0.toNat-192 ∨ g.rsp0.toNat ≤ x) ∧ (x < g.start.rsp.toNat-40 ∨ g.start.rsp.toNat ≤ x)

def Same (g : Ground) (mem after : Memory) : Prop := ∀ x,Reserved g x → after x = mem x

inductive Event where
  | runs
  | answered
  | interrupted

-- A program in ring 3. It cannot write what is reserved, and the C code behind the stubs
-- writes elsewhere.
def excursion (dpl : Selector → Nat) (g : Ground) : System Cpu Event where
  initial m := m = usermodeJump dpl g.linked g.start
  step m event after := match event with
    | .runs => ring after.cs = ring m.cs ∧ after.kernelGsBase = m.kernelGsBase ∧ Same g m.mem after.mem
    | .answered => ∃ c,Answered g.linked.cpu0 (called g.linked m) c ∧ Same g (called g.linked m).mem c.mem ∧
        after = syscallExit (installed g.linked.syscallAt) c
    | .interrupted => ∃ gate code vector c other,code.isSome = LongInterrupts.pushesCode vector ∧ ring gate.selector < 3 ∧
        let e := LongInterrupts.stub vector (deliver g.rsp0 gate code m)
        LongInterrupts.Returned e c ∧ LongInterrupts.Possible dpl gate m other ∧
        LongInterrupts.Shows other (LongInterrupts.registersAt c.mem (e.regs .rdi).toNat) ∧
        Same g e.mem c.mem ∧ after = LongInterrupts.commonExit dpl c

-- How it ends: SYS_EXIT or a fault, and usermode_return.
def leaves (g : Ground) (m final : Cpu) : Prop :=
  (∃ c,Same g (called g.linked m).mem c.mem ∧ final = usermodeReturn g.linked c) ∨
  ∃ gate code c,ring gate.selector < 3 ∧ Same g (LongInterrupts.stub 14 (deliver g.rsp0 gate (some code) m)).mem c.mem ∧
    final = usermodeReturn g.linked c

variable {g : Ground} {dpl : Selector → Nat} {m after final : Cpu} {event : Event} {events : List Event}

structure Intact (g : Ground) (mem : Memory) : Prop where
  rsp : word 8 mem g.linked.savedRsp = g.start.rsp
  rbp : word 8 mem g.linked.savedRbp = g.start.regs .rbp
  stack : word 8 mem g.linked.cpu0.toNat = g.stackTop
  callers : ∀ x,g.start.rsp.toNat ≤ x → x < g.ceiling → mem x = g.start.mem x

structure Grounded (g : Ground) (m : Cpu) : Prop where
  ring : ring m.cs = 3
  parked : m.kernelGsBase = g.linked.cpu0
  intact : Intact g m.mem

theorem intact_same {mem other : Memory} (intact : Intact g mem) (same : Same g mem other) : Intact g other := by
  refine ⟨?_,?_,?_,fun x lower upper => ?_⟩
  · rw [word_congr fun x above below => same x (.inr (.inl ⟨above,below⟩)),intact.rsp]
  · rw [word_congr fun x above below => same x (.inr (.inr (.inl ⟨above,below⟩))),intact.rbp]
  · rw [word_congr fun x above below => same x (.inr (.inr (.inr ⟨above,below⟩))),intact.stack]
  · rw [same x (.inl ⟨lower,upper⟩),intact.callers x lower upper]

theorem grounded_same {other : Cpu} (grounded : Grounded g m) (level : Amd64.ring other.cs = 3)
    (parked : other.kernelGsBase = g.linked.cpu0) (same : Same g m.mem other.mem) : Grounded g other :=
  ⟨level,parked,intact_same grounded.intact same⟩

theorem grounded_ready (grounded : Grounded g m) : Ready g.linked.cpu0 g.stackTop m :=
  ⟨grounded.parked,grounded.intact.stack,g.ready.room,g.ready.inside,g.ready.apart⟩

-- A system call and an interrupt push outside what is reserved.
theorem called_same (apart : Apart g) (grounded : Grounded g m) : Same g m.mem (called g.linked m).mem := by
  have entered := call_entered g.linked.syscallAt (grounded_ready grounded)
  have pointer := entered.pointer
  intro x reserved
  obtain ⟨stack,slot,_,_⟩ := apart x reserved
  exact entered.untouched x (by omega) slot

theorem stub_same (apart : Apart g) (grounded : Grounded g m) {gate : Gate} {code : Option Word} {vector : Nat}
    (given : code.isSome = LongInterrupts.pushesCode vector) (kernel : ring gate.selector < 3) :
    176 ≤ (base g.rsp0 gate m).toNat ∧ Same g m.mem (LongInterrupts.stub vector (deliver g.rsp0 gate code m)).mem := by
  have change : outer gate m := by rw [outer,grounded.ring]; exact kernel
  have start : base g.rsp0 gate m = aligned g.rsp0 := by rw [base,if_pos change]
  obtain ⟨below,_,near⟩ := LongInterrupts.aligned_below g.rsp0
  obtain ⟨room,_⟩ := g.room
  have enough : 176 ≤ (base g.rsp0 gate m).toNat := by rw [start]; omega
  obtain ⟨framed,_⟩ := LongInterrupts.stub_framed g.rsp0 gate m given enough
  have above := framed.above
  rw [start] at above
  refine ⟨enough,fun x reserved => ?_⟩
  obtain ⟨_,_,stack,_⟩ := apart x reserved
  refine framed.untouched x ?_
  rw [start]
  omega

theorem step_grounded (apart : Apart g) (grounded : Grounded g m) (step : (excursion dpl g).step m event after) : Grounded g after := by
  cases event with
  | runs =>
    obtain ⟨level,parked,same⟩ := step
    exact grounded_same grounded (level.trans grounded.ring) (parked.trans grounded.parked) same
  | answered =>
    obtain ⟨c,answered,same,rfl⟩ := step
    have ready := grounded_ready grounded
    have resumed := answer_resumed g.linked.syscallAt ready (call_entered g.linked.syscallAt ready) answered
    refine grounded_same grounded ?_ (resumed.bases.2.trans grounded.parked) fun x reserved => ?_
    · rw [resumed.selectors.1]
      rfl
    · rw [resumed.mem,same x reserved,called_same apart grounded x reserved]
  | interrupted =>
    obtain ⟨gate,code,vector,c,other,given,kernel,returned,possible,shows,same,result⟩ := step
    obtain ⟨room,pushed⟩ := stub_same apart grounded given kernel
    obtain ⟨framed,_⟩ := LongInterrupts.stub_framed g.rsp0 gate m given room
    have level : ring other.cs = 3 := possible.level.trans grounded.ring
    have parked : other.kernelGsBase = g.linked.cpu0 := possible.segments.kernelGsBase.trans grounded.parked
    have kept : Same g m.mem c.mem := fun x reserved => (same x reserved).trans (pushed x reserved)
    have goes := LongInterrupts.frame_continues framed returned possible shows
    rw [result,goes]
    exact grounded_same grounded level parked kept

-- A word that is changed right after it was pushed might have been pushed changed.
theorem pushq_or (m : Cpu) (value other : Word) :
    let c := pushq m value
    {c with mem:=setWord 8 c.mem c.rsp.toNat (word 8 c.mem c.rsp.toNat ||| other)} = pushq m (value ||| other) := by
  dsimp only
  have read : word 8 (pushq m value).mem (pushq m value).rsp.toNat = value := word_set word_fits _ _ _
  rw [read]
  have written := set_push 8 (m.mem,m.rsp) value (value ||| other)
  unfold pushq
  dsimp only
  rw [written]
  rfl

-- usermode_jump writes the two cells and pushes below its return address.
def jumpWords (m : Cpu) : List Word := [0x1B#64,m.regs .rsi,m.rflags ||| 0x200#64,0x23#64,m.regs .rdi]

theorem jumpFrame_result (m : Cpu) : jumpFrame m = (jumpWords m).foldl pushq m := by
  have flags := pushq_or (pushq (pushq m 0x1B#64) (m.regs .rsi)) m.rflags 0x200#64
  exact congrArg (fun c => pushq (pushq c 0x23#64) (m.regs .rdi)) flags

-- The state in which the frame is built: the cells are written and the stack is the caller's.
def prepared (l : Linked) (m : Cpu) : Cpu :=
  loadSegments (setLow (LongInterrupts.cli
    {m with mem:=setWord 8 (setWord 8 m.mem l.savedRsp m.rsp) l.savedRbp (m.regs .rbp)}) .rax 0x1B#16)

theorem jump_grounded (dpl : Selector → Nat) (apart : Apart g) : Grounded g (usermodeJump dpl g.linked g.start) := by
  obtain ⟨_,room⟩ := g.room
  have upper := g.upper
  have rspCpu := g.rspCpu
  have rbpCpu := g.rbpCpu
  have cells := g.cells
  have rspApart := g.rspApart
  have rbpApart := g.rbpApart
  obtain ⟨cs,mem,bases⟩ := iretq_parts dpl (jumpFrame (prepared g.linked g.start))
  change (usermodeJump dpl g.linked g.start).cs = _ at cs
  change (usermodeJump dpl g.linked g.start).mem = _ at mem
  change (usermodeJump dpl g.linked g.start).kernelGsBase = _ at bases
  rw [jumpFrame_result,pushes_result] at cs mem bases
  have pushed := push_all word_fits (prepared g.linked g.start).mem (prepared g.linked g.start).rsp (jumpWords (prepared g.linked g.start)) (by
    change 8*5 ≤ g.start.rsp.toNat
    omega)
  generalize (jumpWords (prepared g.linked g.start)).foldl (push 8) _ = frame at pushed cs mem
  dsimp only at cs mem bases
  have pointer : frame.2.toNat+40 = g.start.rsp.toNat := pushed.pointer
  obtain ⟨_,selector,_⟩ := pushed.words
  have place : (frame.2+8#64).toNat = frame.2.toNat+8 := sp_higher (by omega)
  rw [place,selector,show low (0x23#64) = 0x23#16 by decide] at cs
  have outside : ∀ x,x < g.start.rsp.toNat-40 ∨ g.start.rsp.toNat ≤ x → (usermodeJump dpl g.linked g.start).mem x =
      setWord 8 (setWord 8 g.start.mem g.linked.savedRsp g.start.rsp) g.linked.savedRbp (g.start.regs .rbp) x := by
    intro x far
    rw [mem]
    exact pushed.outside x (by change _ ∨ g.start.rsp.toNat ≤ x; omega)
  refine ⟨by rw [cs]; rfl,bases.trans g.ready.parked,?_,?_,?_,fun x above below => ?_⟩
  · rw [word_congr fun x above below => outside x (apart x (.inr (.inl ⟨above,below⟩))).2.2.2,
      word_congr fun x above below => set_outside _ _ (by omega)]
    exact word_set word_fits _ _ _
  · rw [word_congr fun x above below => outside x (apart x (.inr (.inr (.inl ⟨above,below⟩)))).2.2.2]
    exact word_set word_fits _ _ _
  · refine Eq.trans (word_congr fun x above below => ?_) g.ready.stack
    obtain ⟨_,_,_,far⟩ := apart x (.inr (.inr (.inr ⟨above,below⟩)))
    rw [outside x far,set_outside _ _ (by omega),set_outside _ _ (by omega)]
  · rw [outside x (.inr above),set_outside _ _ (by omega),set_outside _ _ (by omega)]

theorem run_grounded (apart : Apart g) (start : Grounded g m) (path : Runs (excursion dpl g) m events after) : Grounded g after :=
  path.invariant (fun _ _ _ grounded step => step_grounded apart grounded step) start

-- Where usermode_return goes on: behind the call of usermode_jump, in its caller's frame.
structure Back (g : Ground) (final : Cpu) : Prop where
  rip : final.rip = word 8 g.start.mem g.start.rsp.toNat
  rsp : final.rsp = g.start.rsp+8#64
  rbp : final.regs .rbp = g.start.regs .rbp
  callers : ∀ x,g.start.rsp.toNat ≤ x → x < g.ceiling → final.mem x = g.start.mem x

theorem return_back (intact : Intact g m.mem) : Back g (usermodeReturn g.linked m) := by
  have room := g.upper
  have rip : (usermodeReturn g.linked m).rip = word 8 m.mem (word 8 m.mem g.linked.savedRsp : Word).toNat := rfl
  have rsp : (usermodeReturn g.linked m).rsp = word 8 m.mem g.linked.savedRsp+8#64 := rfl
  have regs : ∃ rax,(usermodeReturn g.linked m).regs =
      Function.update (Function.update m.regs .rbp (word 8 m.mem g.linked.savedRbp)) .rax rax := ⟨_,rfl⟩
  obtain ⟨rax,regs⟩ := regs
  rw [intact.rsp] at rip rsp
  refine ⟨?_,rsp,?_,intact.callers⟩
  · rw [rip]
    exact word_congr fun x above below => intact.callers x above (by omega)
  · rw [regs,Function.update_of_ne (by decide),Function.update_self,intact.rbp]

-- usermode_run comes back from every program, however many system calls it makes, however
-- often it is interrupted and whether it exits or faults.
theorem excursion_returns (dpl : Selector → Nat) (apart : Apart g) (reached : Reached (excursion dpl g) m) (left : leaves g m final) : Back g final := by
  obtain ⟨origin,events,started,path⟩ := reached
  have start : Grounded g origin := by
    rw [show origin = usermodeJump dpl g.linked g.start from started]
    exact jump_grounded dpl apart
  have grounded := run_grounded apart start path
  rcases left with ⟨c,same,result⟩ | ⟨gate,code,c,kernel,same,result⟩
  · rw [result]
    exact return_back (intact_same (intact_same grounded.intact (called_same apart grounded)) same)
  · obtain ⟨_,pushed⟩ := stub_same apart grounded (show (some code).isSome = LongInterrupts.pushesCode 14 from rfl) kernel
    rw [result]
    exact return_back (intact_same (intact_same grounded.intact pushed) same)

-- A kernel that runs a program which exits at once.
def demoGround : Ground where
  linked := ⟨0x130000,0x130008,0x140000#64,0x102000#64⟩
  stackTop := 0x150000#64
  rsp0 := 0x107F00#64
  start := {demoProgram with cs:=0x08#16,ss:=0x10#16,rsp:=0x107FE0#64}
  ceiling := 0x108000
  ready := ⟨rfl,word_set word_fits _ _ _,by decide,by decide,.inl (by decide)⟩
  upper := by decide
  room := by decide
  cells := by decide
  rspApart := by decide
  rbpApart := by decide
  rspCpu := by decide
  rbpCpu := by decide

theorem demo_apart : Apart demoGround := by
  intro x reserved
  change 0x107FE0 ≤ x ∧ x < 0x108000 ∨ 0x130000 ≤ x ∧ x < 0x130008 ∨ 0x130008 ≤ x ∧ x < 0x130010 ∨
    0x140000 ≤ x ∧ x < 0x140008 at reserved
  change (x < 0x14F000 ∨ 0x150000 ≤ x) ∧ (x < 0x140008 ∨ 0x140010 ≤ x) ∧ (x < 0x107E40 ∨ 0x107F00 ≤ x) ∧
    (x < 0x107FB8 ∨ 0x107FE0 ≤ x)
  omega

theorem excursion_returns_demo :
    let m := usermodeJump (fun _ => 3) demoGround.linked demoGround.start
    Back demoGround (usermodeReturn demoGround.linked (called demoGround.linked m)) := by
  have reached : Reached (excursion (fun _ => 3) demoGround) (usermodeJump (fun _ => 3) demoGround.linked demoGround.start) :=
    ⟨_,[],rfl,.nil⟩
  exact excursion_returns (fun _ => 3) demo_apart reached (.inl ⟨_,fun _ _ => rfl,rfl⟩)

end Arthic.LongReturns
