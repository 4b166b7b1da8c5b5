import Arthic.Library.Amd64

namespace Arthic.LongSyscalls
open ByteMemory MachineStack Amd64

-- struct syscall_frame, from the lowest address up.
structure SyscallFrame where
  rax : Word
  rdi : Word
  rsi : Word
  rdx : Word
  r10 : Word
  r8 : Word
  r9 : Word

def frameAt (mem : Memory) (p : Nat) : SyscallFrame where
  rax := word 8 mem p
  rdi := word 8 mem (p+8)
  rsi := word 8 mem (p+16)
  rdx := word 8 mem (p+24)
  r10 := word 8 mem (p+32)
  r8 := word 8 mem (p+40)
  r9 := word 8 mem (p+48)

-- What syscall_install writes to STAR, LSTAR and FMASK.
def installed (syscallEntry : Word) : Msrs where
  star := (0x10#64 <<< 48) ||| (0x08#64 <<< 32)
  lstar := syscallEntry
  fmask := 0x200#64

-- The registers the stub pushes, in its order.
def pushed : List Reg := [.r11,.rcx,.r9,.r8,.r10,.rdx,.rsi,.rdi,.rax]

-- syscall_entry up to the call of syscall_dispatch, and after it.
def syscallEntry (m : Cpu) : Cpu :=
  let m := swapgs m
  let m := {m with mem:=setWord 8 m.mem (m.gsBase+8#64).toNat m.rsp}
  let m := {m with rsp:=word 8 m.mem m.gsBase.toNat}
  let m := pushRegs pushed m
  setReg m .rdi m.rsp

def syscallExit (msrs : Msrs) (m : Cpu) : Cpu :=
  let m := popq m .rax
  let m := drop m 48
  let m := popRegs [.rcx,.r11] m
  let m := {m with rsp:=word 8 m.mem (m.gsBase+8#64).toNat}
  sysretq msrs (swapgs m)

variable {m e after : Cpu} {cpu0 top : Word} {entry : Word} {mem : Memory} {p : Nat}

-- KERNEL_GS_BASE has the address of cpu0, whose kernel_rsp is the top of syscall_stack. The
-- linker puts the two apart.
structure Ready (cpu0 top : Word) (m : Cpu) : Prop where
  parked : m.kernelGsBase = cpu0
  stack : word 8 m.mem cpu0.toNat = top
  room : 4096 ≤ top.toNat
  inside : cpu0.toNat+16 < 2^64
  apart : cpu0.toNat+16 ≤ top.toNat-4096 ∨ top.toNat ≤ cpu0.toNat

-- What syscall_dispatch finds, and what the stub has put away.
structure Entered (cpu0 top : Word) (m e : Cpu) : Prop where
  pointer : e.rsp.toNat+72 = top.toNat
  argument : e.regs .rdi = e.rsp
  arguments : let f := frameAt e.mem e.rsp.toNat
    f.rax = m.regs .rax ∧ f.rdi = m.regs .rdi ∧ f.rsi = m.regs .rsi ∧ f.rdx = m.regs .rdx ∧ f.r10 = m.regs .r10 ∧
    f.r8 = m.regs .r8 ∧ f.r9 = m.regs .r9
  kept : Holds 8 e.mem (e.rsp.toNat+56) [m.regs .rcx,m.regs .r11]
  parked : word 8 e.mem (cpu0.toNat+8) = m.rsp
  untouched : ∀ x,x < e.rsp.toNat ∨ top.toNat ≤ x → x < cpu0.toNat+8 ∨ cpu0.toNat+16 ≤ x → e.mem x = m.mem x
  bases : e.gsBase = cpu0 ∧ e.kernelGsBase = m.gsBase
  others : ∀ r,r ≠ .rdi → e.regs r = m.regs r
  segments : e.ds = m.ds ∧ e.es = m.es ∧ e.fs = m.fs ∧ e.gs = m.gs

theorem entry_result (m : Cpu) : syscallEntry m =
    let parked := setWord 8 m.mem (m.kernelGsBase+8#64).toNat m.rsp
    let stack := (pushed.map m.regs).foldl (push 8) (parked,word 8 parked m.kernelGsBase.toNat)
    {m with
      regs:=Function.update m.regs .rdi stack.2,rsp:=stack.2,mem:=stack.1,gsBase:=m.kernelGsBase,kernelGsBase:=m.gsBase} := by
  unfold syscallEntry swapgs
  dsimp only
  rw [pushRegs_values,pushes_result]
  dsimp only
  generalize (pushed.map m.regs).foldl (push 8) _ = stack
  rfl

theorem entry_entered (ready : Ready cpu0 top m) : Entered cpu0 top m (syscallEntry m) := by
  have room := ready.room
  have inside := ready.inside
  have apart := ready.apart
  have slot : (cpu0+8#64).toNat = cpu0.toNat+8 := sp_higher (by omega)
  have stack : word 8 (setWord 8 m.mem (cpu0.toNat+8) m.rsp) cpu0.toNat = top :=
    (word_congr fun x _ below => set_outside _ _ (.inl below)).trans ready.stack
  have pushes := push_all word_fits (setWord 8 m.mem (cpu0.toNat+8) m.rsp) top (pushed.map m.regs) (by
    change 8*9 ≤ top.toNat
    omega)
  rw [entry_result,ready.parked,slot]
  dsimp only
  rw [stack]
  generalize (pushed.map m.regs).foldl (push 8) (setWord 8 m.mem (cpu0.toNat+8) m.rsp,top) = after at pushes ⊢
  have pointer : after.2.toNat+72 = top.toNat := pushes.pointer
  obtain ⟨rax,rdi,rsi,rdx,r10,r8,r9,rcx,r11,_⟩ := pushes.words
  have argument : Function.update m.regs .rdi after.2 .rdi = after.2 := Function.update_self ..
  refine ⟨pointer,argument,⟨rax,rdi,rsi,rdx,r10,r8,r9⟩,⟨rcx,r11,trivial⟩,?_,?_,⟨rfl,rfl⟩,
    fun r other => Function.update_of_ne other ..,rfl,rfl,rfl,rfl⟩
  · exact (word_congr fun x above below => pushes.outside x (by omega)).trans (word_set word_fits m.mem (cpu0.toNat+8) m.rsp)
  · intro x far outside
    dsimp only at far ⊢
    rw [pushes.outside x far,set_outside _ _ (by omega)]

-- What the stub needs of syscall_dispatch when it returns: the registers every function
-- keeps, the bases, and the three words put away. The frame is its own to change.
def calleeSaved : List Reg := [.rbx,.rbp,.r12,.r13,.r14,.r15]

structure Answered (cpu0 : Word) (e after : Cpu) : Prop where
  rsp : after.rsp = e.rsp
  saved : ∀ r ∈ calleeSaved,after.regs r = e.regs r
  bases : after.gsBase = e.gsBase ∧ after.kernelGsBase = e.kernelGsBase
  segments : after.ds = e.ds ∧ after.es = e.es ∧ after.fs = e.fs ∧ after.gs = e.gs
  kept : ∀ x,e.rsp.toNat+56 ≤ x → x < e.rsp.toNat+72 → after.mem x = e.mem x
  parked : ∀ x,cpu0.toNat+8 ≤ x → x < cpu0.toNat+16 → after.mem x = e.mem x

-- The program goes on behind its SYSCALL, on its own stack, with the answer in rax.
structure Resumed (m after final : Cpu) (answer : Word) : Prop where
  rip : final.rip = m.rip
  rflags : final.rflags = (m.rflags &&& 0x3C7FD7#64) ||| 2#64
  rsp : final.rsp = m.rsp
  rax : final.regs .rax = answer
  saved : ∀ r ∈ calleeSaved,final.regs r = m.regs r
  selectors : final.cs = 0x23#16 ∧ final.ss = 0x1B#16
  bases : final.gsBase = m.gsBase ∧ final.kernelGsBase = m.kernelGsBase
  segments : final.ds = m.ds ∧ final.es = m.es ∧ final.fs = m.fs ∧ final.gs = m.gs
  mem : final.mem = after.mem

-- The registers after the stub's pops.
def popped (regs : Reg → Word) (rax rcx r11 : Word) : Reg → Word :=
  Function.update (Function.update (Function.update regs .rax rax) .rcx rcx) .r11 r11

theorem exit_result (msrs : Msrs) (m : Cpu) {rcx r11 : Word} (holds : Holds 8 m.mem (m.rsp.toNat+56) [rcx,r11])
    (room : m.rsp.toNat+72 < 2^64) : syscallExit msrs m =
    let regs := popped m.regs (word 8 m.mem m.rsp.toNat) rcx r11
    sysretq msrs (swapgs {m with regs:=regs,rsp:=word 8 m.mem (m.gsBase+8#64).toNat}) := by
  obtain ⟨one,two,_⟩ := holds
  have first : (m.rsp+BitVec.ofNat 64 8+BitVec.ofNat 64 48).toNat = m.rsp.toNat+56 := by
    rw [sp_higher (by rw [sp_higher (by omega)]; omega),sp_higher (by omega)]
  have second : (m.rsp+BitVec.ofNat 64 8+BitVec.ofNat 64 48+BitVec.ofNat 64 8).toNat = m.rsp.toNat+56+8 := by
    rw [sp_higher (by omega),first]
  rw [←first] at one
  rw [←second] at two
  unfold syscallExit popRegs popq pop drop
  dsimp only [List.foldl_cons,List.foldl_nil]
  rw [one,two]
  rfl

theorem popped_kept (regs : Reg → Word) (rax rcx r11 : Word) {r : Reg} (member : r ∈ calleeSaved) : popped regs rax rcx r11 r = regs r := by
  have others : r ≠ .r11 ∧ r ≠ .rcx ∧ r ≠ .rax := by
    cases r with
    | rbx | rbp | r12 | r13 | r14 | r15 => decide
    | rax | rcx | rdx | rsi | rdi | r8 | r9 | r10 | r11 => exact absurd member (by decide)
  obtain ⟨one,two,three⟩ := others
  rw [popped,Function.update_of_ne one,Function.update_of_ne two,Function.update_of_ne three]

theorem popped_loaded (regs : Reg → Word) (rax rcx r11 : Word) : popped regs rax rcx r11 .rax = rax ∧
    popped regs rax rcx r11 .rcx = rcx ∧ popped regs rax rcx r11 .r11 = r11 := by
  refine ⟨?_,?_,Function.update_self ..⟩
  · rw [popped,Function.update_of_ne (by decide),Function.update_of_ne (by decide),Function.update_self]
  · rw [popped,Function.update_of_ne (by decide),Function.update_self]

-- SYSCALL leaves the program's rip and rflags in two registers and touches nothing else the
-- stub saves.
theorem syscall_regs (msrs : Msrs) (m : Cpu) : (syscall msrs m).regs .rcx = m.rip ∧ (syscall msrs m).regs .r11 = m.rflags ∧
    ∀ r,r ≠ .rcx → r ≠ .r11 → (syscall msrs m).regs r = m.regs r := by
  have regs : (syscall msrs m).regs = Function.update (Function.update m.regs .rcx m.rip) .r11 m.rflags := rfl
  rw [regs]
  refine ⟨?_,Function.update_self ..,fun r other different => ?_⟩
  · rw [Function.update_of_ne (by decide),Function.update_self]
  · rw [Function.update_of_ne different,Function.update_of_ne other]

theorem calleeSaved_apart {r : Reg} (member : r ∈ calleeSaved) : r ≠ .rcx ∧ r ≠ .r11 ∧ r ≠ .rdi := by
  cases r with
  | rbx | rbp | r12 | r13 | r14 | r15 => decide
  | rax | rcx | rdx | rsi | rdi | r8 | r9 | r10 | r11 => exact absurd member (by decide)

-- STAR's upper field is chosen so that SYSRET loads the user segments of the GDT.
theorem star_selectors (syscallAt : Word) :
    ((installed syscallAt).star.extractLsb' 48 16+16#16) ||| 3#16 = 0x23#16 ∧
    ((installed syscallAt).star.extractLsb' 48 16+8#16) ||| 3#16 = 0x1B#16 := by
  unfold installed
  dsimp only
  decide

theorem call_entered (syscallAt : Word) (ready : Ready cpu0 top m) :
    Entered cpu0 top (syscall (installed syscallAt) m) (syscallEntry (syscall (installed syscallAt) m)) :=
  entry_entered ⟨ready.parked,ready.stack,ready.room,ready.inside,ready.apart⟩

theorem answer_resumed (syscallAt : Word) (ready : Ready cpu0 top m) (entered : Entered cpu0 top (syscall (installed syscallAt) m) e)
    (answered : Answered cpu0 e after) :
    Resumed m after (syscallExit (installed syscallAt) after) (frameAt after.mem e.rsp.toNat).rax := by
  obtain ⟨rcx,r11,others⟩ := syscall_regs (installed syscallAt) m
  have pointer := entered.pointer
  have small := top.isLt
  have inside := ready.inside
  have slot : (cpu0+8#64).toNat = cpu0.toNat+8 := sp_higher (by omega)
  have held := holds_congr entered.kept fun x above below => answered.kept x above (by
    simp only [List.length_cons,List.length_nil] at below
    omega)
  rw [rcx,r11,←answered.rsp] at held
  have stack : word 8 after.mem (after.gsBase+8#64).toNat = m.rsp := by
    rw [answered.bases.1,entered.bases.1,slot,word_congr fun x above below => answered.parked x above (by omega),entered.parked]
    rfl
  have result := exit_result (installed syscallAt) after held (by rw [answered.rsp]; omega)
  rw [result,stack]
  obtain ⟨rax,back,flags⟩ := popped_loaded after.regs (word 8 after.mem after.rsp.toNat) m.rip m.rflags
  refine ⟨back,?_,rfl,?_,fun r member => ?_,star_selectors syscallAt,⟨?_,?_⟩,?_,rfl⟩
  · exact congrArg (fun value => (value &&& 0x3C7FD7#64) ||| 2#64) flags
  · rw [←answered.rsp]
    exact rax
  · obtain ⟨one,two,three⟩ := calleeSaved_apart member
    refine (popped_kept after.regs _ _ _ member).trans ?_
    rw [answered.saved r member,entered.others r three,others r one two]
  · exact answered.bases.2.trans entered.bases.2
  · exact answered.bases.1.trans (entered.bases.1.trans ready.parked.symm)
  · obtain ⟨ds,es,fs,gs⟩ := answered.segments
    obtain ⟨ds',es',fs',gs'⟩ := entered.segments
    exact ⟨ds.trans ds',es.trans es',fs.trans fs',gs.trans gs'⟩

-- A system call that is answered: C reads the program's number and arguments in the frame it
-- is given, and the program goes on with what C left in the frame's rax.
theorem syscalls_round_trip (syscallAt : Word) (ready : Ready cpu0 top m) :
    let e := syscallEntry (syscall (installed syscallAt) m)
    Entered cpu0 top (syscall (installed syscallAt) m) e ∧
    ∀ after,Answered cpu0 e after →
      Resumed m after (syscallExit (installed syscallAt) after) (frameAt after.mem e.rsp.toNat).rax :=
  ⟨call_entered syscallAt ready,fun _ answered => answer_resumed syscallAt ready (call_entered syscallAt ready) answered⟩

-- A program in ring 3, with another value in every register, calls the kernel, which answers 5.
def demoProgram : Cpu where
  regs r := BitVec.ofNat 64 (0x11*(r.ctorIdx+1))
  rsp := 0x500FF8#64
  rip := 0x400012#64
  rflags := 0x202#64
  cs := 0x23#16
  ss := 0x1B#16
  ds := 0x1B#16
  es := 0x1B#16
  fs := 0x1B#16
  gs := 0#16
  gsBase := 0#64
  kernelGsBase := 0x140000#64
  mem := setWord 8 (fun _ => 0#8) 0x140000 0x150000#64

-- What syscall_dispatch does to the frame when it answers.
def answer (e : Cpu) (value : Word) : Cpu := {e with mem:=setWord 8 e.mem e.rsp.toNat value}

theorem answer_answers (e : Cpu) (value : Word) (apart : cpu0.toNat+16 ≤ e.rsp.toNat) : Answered cpu0 e (answer e value) := by
  refine ⟨rfl,fun _ _ => rfl,⟨rfl,rfl⟩,⟨rfl,rfl,rfl,rfl⟩,fun x above _ => ?_,fun x _ below => ?_⟩
  · exact set_outside _ _ (.inr (by omega))
  · exact set_outside _ _ (.inl (by omega))

theorem syscalls_round_trip_demo :
    let e := syscallEntry (syscall (installed 0x102000#64) demoProgram)
    let final := syscallExit (installed 0x102000#64) (answer e 5#64)
    let f := frameAt e.mem e.rsp.toNat
    [f.rax,f.rdi,f.rsi,f.rdx,f.r10,f.r8,f.r9] = [0x11#64,0x66#64,0x55#64,0x44#64,0xAA#64,0x88#64,0x99#64] ∧
    final.rip = 0x400012#64 ∧ final.rsp = 0x500FF8#64 ∧ final.regs .rax = 5#64 ∧
    calleeSaved.map final.regs = [0x22#64,0x77#64,0xCC#64,0xDD#64,0xEE#64,0xFF#64] := by
  have ready : Ready 0x140000#64 0x150000#64 demoProgram :=
    ⟨rfl,word_set word_fits _ _ _,by decide,by decide,.inl (by decide)⟩
  obtain ⟨entered,returns⟩ := syscalls_round_trip 0x102000#64 ready
  generalize syscallEntry (syscall (installed 0x102000#64) demoProgram) = e at entered returns
  have pointer : e.rsp.toNat+72 = 0x150000 := entered.pointer
  have answered : Answered 0x140000#64 e (answer e 5#64) := answer_answers e 5#64 (by
    change 0x140000+16 ≤ e.rsp.toNat
    omega)
  have resumed := returns (answer e 5#64) answered
  obtain ⟨rax,rdi,rsi,rdx,r10,r8,r9⟩ := entered.arguments
  have saved : calleeSaved.map (syscallExit (installed 0x102000#64) (answer e 5#64)).regs = calleeSaved.map demoProgram.regs :=
    List.map_congr_left resumed.saved
  refine ⟨?_,resumed.rip,resumed.rsp,resumed.rax.trans (word_set word_fits _ _ _),saved⟩
  rw [rax,rdi,rsi,rdx,r10,r8,r9]
  rfl

end Arthic.LongSyscalls
