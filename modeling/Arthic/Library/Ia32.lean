import Arthic.Library.MachineStack

namespace Arthic.Ia32
open ByteMemory MachineStack

abbrev Word := BitVec 32
abbrev Selector := BitVec 16

inductive Reg where
  | eax
  | ecx
  | edx
  | ebx
  | ebp
  | esi
  | edi
deriving DecidableEq

-- The processor in 32-bit protected mode, as far as interrupts and stacks are concerned.
structure Cpu where
  regs : Reg → Word
  esp : Word
  eip : Word
  eflags : Word
  cs : Selector
  ss : Selector
  ds : Selector
  es : Selector
  fs : Selector
  gs : Selector
  mem : Memory

def pushl (m : Cpu) (value : Word) : Cpu :=
  {m with mem:=(push 4 (m.mem,m.esp) value).1,esp:=(push 4 (m.mem,m.esp) value).2}

def popl (m : Cpu) (r : Reg) : Cpu :=
  {m with regs:=(pop 4 m.mem (m.regs,m.esp) r).1,esp:=(pop 4 m.mem (m.regs,m.esp) r).2}

def drop (m : Cpu) (count : Nat) : Cpu := {m with esp:=m.esp+BitVec.ofNat 32 count}

-- A move into the low half of a register.
def setLow (m : Cpu) (r : Reg) (value : Selector) : Cpu :=
  {m with regs:=Function.update m.regs r ((m.regs r).extractLsb' 16 16++value)}

def low (value : Word) : Selector := value.extractLsb' 0 16

def pusha (m : Cpu) : Cpu :=
  let before := [Reg.eax,.ecx,.edx,.ebx].foldl (fun c r => pushl c (c.regs r)) m
  [Reg.ebp,.esi,.edi].foldl (fun c r => pushl c (c.regs r)) (pushl before m.esp)

-- The word for esp is skipped.
def popa (m : Cpu) : Cpu :=
  [Reg.ebx,.edx,.ecx,.eax].foldl popl (drop ([Reg.edi,.esi,.ebp].foldl popl m) 4)

-- Where an interrupt of outer code starts its stack, and the code a gate leads to.
structure Tss where
  ss0 : Selector
  esp0 : Word

structure Gate where
  selector : Selector
  base : Word

def ring (s : Selector) : Nat := s.toNat%4

def outer (gate : Gate) (m : Cpu) : Prop := ring gate.selector < ring m.cs
instance : Decidable (outer gate m) := Nat.decLt ..

-- IF, TF, NT, RF and VM are cleared on the way through an interrupt gate.
def gated (eflags : Word) : Word := eflags &&& ~~~0x34300#32

def saves (gate : Gate) (code : Option Word) (m : Cpu) : List Word :=
  (if outer gate m then [m.ss.setWidth 32,m.esp] else [])++[m.eflags,m.cs.setWidth 32,m.eip]++code.toList

def deliver (tss : Tss) (gate : Gate) (code : Option Word) (m : Cpu) : Cpu :=
  let start := if outer gate m then {m with ss:=tss.ss0,esp:=tss.esp0} else m
  let pushed := (saves gate code m).foldl pushl start
  {pushed with cs:=gate.selector,eip:=gate.base,eflags:=gated m.eflags}

-- On the way out to a less privileged ring the data segments it may not have are taken
-- away. `dpl` is the privilege level of the segment a selector stands for.
def settle (dpl : Selector → Nat) (level : Nat) (s : Selector) : Selector := if dpl s < level then 0#16 else s

def iret (dpl : Selector → Nat) (m : Cpu) : Cpu :=
  let cs := low (word 4 m.mem (m.esp+4#32).toNat)
  let inner := {m with eip:=word 4 m.mem m.esp.toNat,cs:=cs,eflags:=word 4 m.mem (m.esp+8#32).toNat,esp:=m.esp+12#32}
  if ring m.cs < ring cs then
    {inner with
      esp:=word 4 m.mem (m.esp+12#32).toNat
      ss:=low (word 4 m.mem (m.esp+16#32).toNat)
      ds:=settle dpl (ring cs) m.ds
      es:=settle dpl (ring cs) m.es
      fs:=settle dpl (ring cs) m.fs
      gs:=settle dpl (ring cs) m.gs}
  else inner

variable {m start : Cpu} {values : List Word} {gate : Gate} {tss : Tss} {code : Option Word}

theorem word_fits : 2^32 = 256^4 := by decide

theorem low_word (s : Selector) : low (s.setWidth 32) = s := by
  have small := s.isLt
  apply BitVec.eq_of_toNat_eq
  simp only [low,BitVec.extractLsb'_toNat,BitVec.toNat_setWidth,Nat.shiftRight_zero]
  omega

theorem low_appended (high s : Selector) : low (high++s) = s := by
  have small := s.isLt
  apply BitVec.eq_of_toNat_eq
  rw [low,BitVec.extractLsb'_toNat,Nat.shiftRight_zero,BitVec.toNat_append,Nat.shiftLeft_eq,Nat.mul_comm,←Nat.two_pow_add_eq_or_of_lt small]
  omega

-- Pushes change the stack and nothing else.
theorem pushes_result (values : List Word) (m : Cpu) : values.foldl pushl m =
    {m with mem:=(values.foldl (push 4) (m.mem,m.esp)).1,esp:=(values.foldl (push 4) (m.mem,m.esp)).2} := by
  induction values generalizing m with
  | nil => rfl
  | cons value values ih => exact ih (pushl m value)

theorem pops_result (rs : List Reg) (m : Cpu) : rs.foldl popl m =
    {m with regs:=(rs.foldl (pop 4 m.mem) (m.regs,m.esp)).1,esp:=(rs.foldl (pop 4 m.mem) (m.regs,m.esp)).2} := by
  induction rs generalizing m with
  | nil => rfl
  | cons r rs ih => exact ih (popl m r)

def pushaWords (m : Cpu) : List Word :=
  [m.regs .eax,m.regs .ecx,m.regs .edx,m.regs .ebx,m.esp,m.regs .ebp,m.regs .esi,m.regs .edi]

theorem pusha_result (m : Cpu) : pusha m = (pushaWords m).foldl pushl m := rfl

-- What popa loads, lowest word first; the word between is esp's.
def popaWords (saved : Reg → Word) (skipped : Word) : List Word :=
  [saved .edi,saved .esi,saved .ebp]++[skipped]++[saved .ebx,saved .edx,saved .ecx,saved .eax]

theorem popa_loads (saved : Reg → Word) (skipped : Word) (holds : Holds 4 m.mem m.esp.toNat (popaWords saved skipped))
    (room : m.esp.toNat+32 < 2^32) : popa m = {m with regs:=saved,esp:=m.esp+32#32} := by
  obtain ⟨⟨first,skip⟩,second⟩ := holds_append.mp holds |>.imp holds_append.mp id
  have one := pop_all [Reg.edi,.esi,.ebp] m.regs saved m.esp first (by simp only [List.length_cons,List.length_nil]; omega)
  have popped := pops_result [Reg.edi,.esi,.ebp] m
  rw [popa,popped]
  generalize [Reg.edi,.esi,.ebp].foldl (pop 4 m.mem) (m.regs,m.esp) = c at one popped ⊢
  have pointer : c.2.toNat = m.esp.toNat+12 := one.pointer
  have place : (c.2+4#32).toNat = m.esp.toNat+16 := by
    rw [show (4#32) = BitVec.ofNat 32 4 from rfl,sp_higher (by omega),pointer]
  have two := pop_all [Reg.ebx,.edx,.ecx,.eax] c.1 saved (c.2+4#32) (place ▸ second) (by
    simp only [List.length_cons,List.length_nil]
    omega)
  rw [pops_result]
  change Cpu.mk ([Reg.ebx,.edx,.ecx,.eax].foldl (pop 4 m.mem) (c.1,c.2+4#32)).1 ([Reg.ebx,.edx,.ecx,.eax].foldl (pop 4 m.mem) (c.1,c.2+4#32)).2
    m.eip m.eflags m.cs m.ss m.ds m.es m.fs m.gs m.mem = _
  generalize [Reg.ebx,.edx,.ecx,.eax].foldl (pop 4 m.mem) (c.1,c.2+4#32) = d at two ⊢
  have regs : d.1 = saved := by
    funext r
    cases r with
    | eax | ecx | edx | ebx => exact two.loaded _ (by decide)
    | ebp | esi | edi => exact (two.others _ (by decide)).trans (one.loaded _ (by decide))
  have last : d.2 = m.esp+32#32 := by
    have total : d.2.toNat = (c.2+4#32).toNat+16 := two.pointer
    apply BitVec.eq_of_toNat_eq
    rw [total,place,show (32#32) = BitVec.ofNat 32 32 from rfl,sp_higher room]
  rw [regs,last]

-- Where the frame of an interrupt starts, and what delivery leaves.
def base (tss : Tss) (gate : Gate) (m : Cpu) : Word := if outer gate m then tss.esp0 else m.esp
def stackSegment (tss : Tss) (gate : Gate) (m : Cpu) : Selector := if outer gate m then tss.ss0 else m.ss

theorem delivered (tss : Tss) (gate : Gate) (code : Option Word) (m : Cpu) : deliver tss gate code m =
    let stack := (saves gate code m).foldl (push 4) (m.mem,base tss gate m)
    {m with mem:=stack.1,esp:=stack.2,ss:=stackSegment tss gate m,cs:=gate.selector,eip:=gate.base,eflags:=gated m.eflags} := by
  rw [deliver,pushes_result,base,stackSegment]
  split
  · rfl
  · rfl

-- An interrupt return to the same ring, and one to an outer ring.
theorem iret_inner (dpl : Selector → Nat) {eip cs eflags : Word} (holds : Holds 4 m.mem m.esp.toNat [eip,cs,eflags]) (room : m.esp.toNat+12 < 2^32)
    (same : ¬ring m.cs < ring (low cs)) : iret dpl m = {m with eip:=eip,cs:=low cs,eflags:=eflags,esp:=m.esp+12#32} := by
  obtain ⟨first,second,third,_⟩ := holds
  have four : (m.esp+4#32).toNat = m.esp.toNat+4 := sp_higher (by omega)
  have eight : (m.esp+8#32).toNat = m.esp.toNat+8 := sp_higher (by omega)
  unfold iret
  simp only [first,four,second,eight,third,same,ite_false]

theorem iret_outer (dpl : Selector → Nat) {eip cs eflags esp ss : Word} (holds : Holds 4 m.mem m.esp.toNat [eip,cs,eflags,esp,ss])
    (room : m.esp.toNat+20 ≤ 2^32) (down : ring m.cs < ring (low cs)) : iret dpl m =
      {m with
        eip:=eip,cs:=low cs,eflags:=eflags,esp:=esp,ss:=low ss
        ds:=settle dpl (ring (low cs)) m.ds
        es:=settle dpl (ring (low cs)) m.es
        fs:=settle dpl (ring (low cs)) m.fs
        gs:=settle dpl (ring (low cs)) m.gs} := by
  obtain ⟨first,second,third,fourth,fifth,_⟩ := holds
  have four : (m.esp+4#32).toNat = m.esp.toNat+4 := sp_higher (by omega)
  have eight : (m.esp+8#32).toNat = m.esp.toNat+8 := sp_higher (by omega)
  have twelve : (m.esp+12#32).toNat = m.esp.toNat+12 := sp_higher (by omega)
  have sixteen : (m.esp+16#32).toNat = m.esp.toNat+16 := sp_higher (by omega)
  unfold iret
  simp only [first,four,second,eight,third,twelve,fourth,sixteen,fifth,down,ite_true]

end Arthic.Ia32
