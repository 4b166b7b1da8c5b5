import Arthic.Library.MachineStack

namespace Arthic.Amd64
open ByteMemory MachineStack

abbrev Word := BitVec 64
abbrev Selector := BitVec 16

inductive Reg where
  | rax
  | rbx
  | rcx
  | rdx
  | rsi
  | rdi
  | rbp
  | r8
  | r9
  | r10
  | r11
  | r12
  | r13
  | r14
  | r15
deriving DecidableEq

-- The processor in long mode, as far as interrupts, system calls and stacks are concerned.
structure Cpu where
  regs : Reg → Word
  rsp : Word
  rip : Word
  rflags : Word
  cs : Selector
  ss : Selector
  ds : Selector
  es : Selector
  fs : Selector
  gs : Selector
  gsBase : Word
  kernelGsBase : Word
  mem : Memory

def pushq (m : Cpu) (value : Word) : Cpu :=
  {m with mem:=(push 8 (m.mem,m.rsp) value).1,rsp:=(push 8 (m.mem,m.rsp) value).2}

def popq (m : Cpu) (r : Reg) : Cpu :=
  {m with regs:=(pop 8 m.mem (m.regs,m.rsp) r).1,rsp:=(pop 8 m.mem (m.regs,m.rsp) r).2}

def pushRegs (rs : List Reg) (m : Cpu) : Cpu := rs.foldl (fun c r => pushq c (c.regs r)) m
def popRegs (rs : List Reg) (m : Cpu) : Cpu := rs.foldl popq m
def drop (m : Cpu) (count : Nat) : Cpu := {m with rsp:=m.rsp+BitVec.ofNat 64 count}
def setReg (m : Cpu) (r : Reg) (value : Word) : Cpu := {m with regs:=Function.update m.regs r value}
def swapgs (m : Cpu) : Cpu := {m with gsBase:=m.kernelGsBase,kernelGsBase:=m.gsBase}

def low (value : Word) : Selector := value.extractLsb' 0 16
def ring (s : Selector) : Nat := s.toNat%4

structure Gate where
  selector : Selector
  base : Word

def outer (gate : Gate) (m : Cpu) : Prop := ring gate.selector < ring m.cs
instance : Decidable (outer gate m) := Nat.decLt ..

-- Five words are pushed whichever ring is interrupted, on a stack that is aligned first.
def aligned (sp : Word) : Word := sp &&& ~~~15#64
def gated (rflags : Word) : Word := rflags &&& ~~~0x34300#64
def base (rsp0 : Word) (gate : Gate) (m : Cpu) : Word := aligned (if outer gate m then rsp0 else m.rsp)
def stackSegment (gate : Gate) (m : Cpu) : Selector := if outer gate m then 0#16 else m.ss
def saves (code : Option Word) (m : Cpu) : List Word := [m.ss.setWidth 64,m.rsp,m.rflags,m.cs.setWidth 64,m.rip]++code.toList

def deliver (rsp0 : Word) (gate : Gate) (code : Option Word) (m : Cpu) : Cpu :=
  let pushed := (saves code m).foldl pushq {m with rsp:=base rsp0 gate m,ss:=stackSegment gate m}
  {pushed with cs:=gate.selector,rip:=gate.base,rflags:=gated m.rflags}

def settle (dpl : Selector → Nat) (level : Nat) (s : Selector) : Selector := if dpl s < level then 0#16 else s

def iretq (dpl : Selector → Nat) (m : Cpu) : Cpu :=
  let cs := low (word 8 m.mem (m.rsp+8#64).toNat)
  let inner := {m with
    rip:=word 8 m.mem m.rsp.toNat,cs:=cs,rflags:=word 8 m.mem (m.rsp+16#64).toNat
    rsp:=word 8 m.mem (m.rsp+24#64).toNat,ss:=low (word 8 m.mem (m.rsp+32#64).toNat)}
  if ring m.cs < ring cs then
    {inner with
      ds:=settle dpl (ring cs) m.ds
      es:=settle dpl (ring cs) m.es
      fs:=settle dpl (ring cs) m.fs
      gs:=settle dpl (ring cs) m.gs}
  else inner

-- The registers that say where SYSCALL goes and what SYSRET loads.
structure Msrs where
  star : Word
  lstar : Word
  fmask : Word

def syscall (msrs : Msrs) (m : Cpu) : Cpu :=
  let m := setReg (setReg m .rcx m.rip) .r11 m.rflags
  {m with
    rip:=msrs.lstar,rflags:=m.rflags &&& ~~~msrs.fmask
    cs:=msrs.star.extractLsb' 32 16 &&& 0xFFFC#16,ss:=msrs.star.extractLsb' 32 16+8#16}

def sysretq (msrs : Msrs) (m : Cpu) : Cpu :=
  {m with
    rip:=m.regs .rcx,rflags:=(m.regs .r11 &&& 0x3C7FD7#64) ||| 2#64
    cs:=(msrs.star.extractLsb' 48 16+16#16) ||| 3#16,ss:=(msrs.star.extractLsb' 48 16+8#16) ||| 3#16}

variable {m : Cpu} {values : List Word} {dpl : Selector → Nat} {saved : Reg → Word} {rs : List Reg}

theorem word_fits : 2^64 = 256^8 := by decide

theorem low_word (s : Selector) : low (s.setWidth 64) = s := by
  have small := s.isLt
  apply BitVec.eq_of_toNat_eq
  simp only [low,BitVec.extractLsb'_toNat,BitVec.toNat_setWidth,Nat.shiftRight_zero]
  omega

theorem pushes_result (values : List Word) (m : Cpu) : values.foldl pushq m =
    {m with mem:=(values.foldl (push 8) (m.mem,m.rsp)).1,rsp:=(values.foldl (push 8) (m.mem,m.rsp)).2} := by
  induction values generalizing m with
  | nil => rfl
  | cons value values ih => exact ih (pushq m value)

theorem pushRegs_values (rs : List Reg) (m : Cpu) : pushRegs rs m = (rs.map m.regs).foldl pushq m := by
  induction rs generalizing m with
  | nil => rfl
  | cons r rs ih => exact ih (pushq m (m.regs r))

theorem popRegs_result (rs : List Reg) (m : Cpu) : popRegs rs m =
    {m with regs:=(rs.foldl (pop 8 m.mem) (m.regs,m.rsp)).1,rsp:=(rs.foldl (pop 8 m.mem) (m.regs,m.rsp)).2} := by
  induction rs generalizing m with
  | nil => rfl
  | cons r rs ih => exact ih (popq m r)

-- Registers popped from a stack that holds a value for each of them.
theorem popRegs_loads (holds : Holds 8 m.mem m.rsp.toNat (rs.map saved)) (room : m.rsp.toNat+8*rs.length < 2^64) :
    popRegs rs m = {m with regs:=fun r => if r ∈ rs then saved r else m.regs r,rsp:=m.rsp+BitVec.ofNat 64 (8*rs.length)} := by
  have popped := pop_all rs m.regs saved m.rsp holds room
  rw [popRegs_result]
  generalize rs.foldl (pop 8 m.mem) (m.regs,m.rsp) = c at popped ⊢
  have regs : c.1 = fun r => if r ∈ rs then saved r else m.regs r := by
    funext r
    by_cases member : r ∈ rs
    · rw [if_pos member,popped.loaded r member]
    · rw [if_neg member,popped.others r member]
  have pointer : c.2 = m.rsp+BitVec.ofNat 64 (8*rs.length) := by
    apply BitVec.eq_of_toNat_eq
    rw [popped.pointer,sp_higher room]
  rw [regs,pointer]

theorem delivered (rsp0 : Word) (gate : Gate) (code : Option Word) (m : Cpu) : deliver rsp0 gate code m =
    let stack := (saves code m).foldl (push 8) (m.mem,base rsp0 gate m)
    {m with
      mem:=stack.1,rsp:=stack.2,ss:=stackSegment gate m,cs:=gate.selector,rip:=gate.base,rflags:=gated m.rflags} := by
  rw [deliver,pushes_result]

theorem iretq_loads {rip cs rflags rsp ss : Word} (holds : Holds 8 m.mem m.rsp.toNat [rip,cs,rflags,rsp,ss])
    (room : m.rsp.toNat+40 ≤ 2^64) (usable : ring m.cs < ring (low cs) → ∀ s ∈ [m.ds,m.es,m.fs,m.gs],ring (low cs) ≤ dpl s) :
    iretq dpl m = {m with rip:=rip,cs:=low cs,rflags:=rflags,rsp:=rsp,ss:=low ss} := by
  obtain ⟨first,second,third,fourth,fifth,_⟩ := holds
  have eight : (m.rsp+8#64).toNat = m.rsp.toNat+8 := sp_higher (by omega)
  have sixteen : (m.rsp+16#64).toNat = m.rsp.toNat+16 := sp_higher (by omega)
  have more : (m.rsp+24#64).toNat = m.rsp.toNat+24 := sp_higher (by omega)
  have last : (m.rsp+32#64).toNat = m.rsp.toNat+32 := sp_higher (by omega)
  unfold iretq
  simp only [first,eight,second,sixteen,third,more,fourth,last,fifth]
  split
  · rename_i down
    have kept : ∀ s ∈ [m.ds,m.es,m.fs,m.gs],settle dpl (ring (low cs)) s = s := fun s member =>
      if_neg (Nat.not_lt.mpr (usable down s member))
    rw [kept m.ds (by simp),kept m.es (by simp),kept m.fs (by simp),kept m.gs (by simp)]
  · rfl

theorem iretq_parts (dpl : Selector → Nat) (m : Cpu) : (iretq dpl m).cs = low (word 8 m.mem (m.rsp+8#64).toNat) ∧
    (iretq dpl m).mem = m.mem ∧ (iretq dpl m).kernelGsBase = m.kernelGsBase := by
  unfold iretq
  dsimp only
  split
  · exact ⟨rfl,rfl,rfl⟩
  · exact ⟨rfl,rfl,rfl⟩

end Arthic.Amd64
