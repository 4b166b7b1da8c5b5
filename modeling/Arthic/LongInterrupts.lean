import Arthic.Library.Amd64

namespace Arthic.LongInterrupts
open ByteMemory MachineStack Amd64

-- struct registers of the 64-bit idt.h, from the lowest address up.
structure Registers where
  r15 : Word
  r14 : Word
  r13 : Word
  r12 : Word
  r11 : Word
  r10 : Word
  r9 : Word
  r8 : Word
  rbp : Word
  rdi : Word
  rsi : Word
  rdx : Word
  rcx : Word
  rbx : Word
  rax : Word
  intNo : Word
  errCode : Word
  rip : Word
  cs : Word
  rflags : Word
  rsp : Word
  ss : Word

def registersAt (mem : Memory) (p : Nat) : Registers where
  r15 := word 8 mem p
  r14 := word 8 mem (p+8)
  r13 := word 8 mem (p+16)
  r12 := word 8 mem (p+24)
  r11 := word 8 mem (p+32)
  r10 := word 8 mem (p+40)
  r9 := word 8 mem (p+48)
  r8 := word 8 mem (p+56)
  rbp := word 8 mem (p+64)
  rdi := word 8 mem (p+72)
  rsi := word 8 mem (p+80)
  rdx := word 8 mem (p+88)
  rcx := word 8 mem (p+96)
  rbx := word 8 mem (p+104)
  rax := word 8 mem (p+112)
  intNo := word 8 mem (p+120)
  errCode := word 8 mem (p+128)
  rip := word 8 mem (p+136)
  cs := word 8 mem (p+144)
  rflags := word 8 mem (p+152)
  rsp := word 8 mem (p+160)
  ss := word 8 mem (p+168)

def Registers.general (r : Registers) : Reg → Word
  | .rax => r.rax
  | .rbx => r.rbx
  | .rcx => r.rcx
  | .rdx => r.rdx
  | .rsi => r.rsi
  | .rdi => r.rdi
  | .rbp => r.rbp
  | .r8 => r.r8
  | .r9 => r.r9
  | .r10 => r.r10
  | .r11 => r.r11
  | .r12 => r.r12
  | .r13 => r.r13
  | .r14 => r.r14
  | .r15 => r.r15

-- PUSH_ALL and POP_ALL.
def pushAll : List Reg := [.rax,.rbx,.rcx,.rdx,.rsi,.rdi,.rbp,.r8,.r9,.r10,.r11,.r12,.r13,.r14,.r15]
def popAll : List Reg := [.r15,.r14,.r13,.r12,.r11,.r10,.r9,.r8,.rbp,.rdi,.rsi,.rdx,.rcx,.rbx,.rax]

def cli (m : Cpu) : Cpu := {m with rflags:=m.rflags &&& ~~~0x200#64}
def sti (m : Cpu) : Cpu := {m with rflags:=m.rflags ||| 0x200#64}

-- isr_common_stub and irq_common_stub up to the call of C, and after it. rbx carries the
-- stack pointer across the call.
def commonEntry (m : Cpu) : Cpu :=
  let m := pushRegs pushAll m
  let m := setReg m .rdi m.rsp
  let m := setReg m .rbx m.rsp
  {m with rsp:=m.rsp &&& ~~~15#64}

def commonExit (dpl : Selector → Nat) (m : Cpu) : Cpu :=
  let m := {m with rsp:=m.regs .rbx}
  let m := drop (popRegs popAll m) 16
  iretq dpl (sti m)

def isrNoerrcode (num : Nat) (m : Cpu) : Cpu :=
  commonEntry (pushq (pushq (cli m) 0#64) (BitVec.ofNat 64 num))

def isrErrcode (num : Nat) (m : Cpu) : Cpu := commonEntry (pushq (cli m) (BitVec.ofNat 64 num))
def irqStub (num : Nat) (m : Cpu) : Cpu := isrNoerrcode (num+32) m

def pushesCode (vector : Nat) : Bool := [8,10,11,12,13,14,17].contains vector

def stub (vector : Nat) (m : Cpu) : Cpu :=
  if 32 ≤ vector then irqStub (vector-32) m
  else if pushesCode vector then isrErrcode vector m
  else isrNoerrcode vector m

variable {m e after other : Cpu} {rsp0 : Word} {gate : Gate} {code : Option Word} {vector p : Nat} {dpl : Selector → Nat} {mem : Memory}

theorem popAll_member (r : Reg) : r ∈ popAll := by cases r <;> decide

def Registers.returned (r : Registers) : List Word := [r.rip,r.cs,r.rflags,r.rsp,r.ss]

theorem registersAt_held (mem : Memory) (p : Nat) :
    let r := registersAt mem p
    Holds 8 mem p (popAll.map r.general) ∧ Holds 8 mem (p+136) r.returned := by
  have held : Holds 8 mem p (words 8 mem p 15 : List Word) := words_held ..
  have rest : Holds 8 mem (p+136) (words 8 mem (p+136) 5 : List Word) := words_held ..
  exact ⟨held,rest⟩

def codeWords (code : Option Word) : List Word := match code with | none => [0#64] | some _ => []

theorem noerrcode_eq (vector : Nat) (m : Cpu) (plain : code.isSome = false) :
    isrNoerrcode vector m = commonEntry ((codeWords code++[BitVec.ofNat 64 vector]).foldl pushq (cli m)) := by
  cases code with
  | none => rfl
  | some value => cases plain

theorem stub_eq (vector : Nat) (m : Cpu) (given : code.isSome = pushesCode vector) :
    stub vector m = commonEntry ((codeWords code++[BitVec.ofNat 64 vector]).foldl pushq (cli m)) := by
  unfold stub
  split
  · rename_i upper
    have plain : pushesCode vector = false := by
      by_contra listed
      rw [Bool.not_eq_false,pushesCode,List.contains_iff_mem] at listed
      simp only [List.mem_cons,List.not_mem_nil,or_false] at listed
      omega
    rw [irqStub,Nat.sub_add_cancel upper]
    exact noerrcode_eq vector m (given.trans plain)
  · split
    · rename_i listed
      rw [listed] at given
      cases code with
      | none => cases given
      | some value => rfl
    · rename_i plain
      rw [Bool.not_eq_true] at plain
      exact noerrcode_eq vector m (given.trans plain)

-- The words of a frame in the order they are pushed.
def frameWords (code : Option Word) (vector : Nat) (m : Cpu) : List Word :=
  saves code m++(codeWords code++[BitVec.ofNat 64 vector])++pushAll.map m.regs

theorem frame_reversed (code : Option Word) (vector : Nat) (m : Cpu) : (frameWords code vector m).reverse =
    popAll.map m.regs++[BitVec.ofNat 64 vector,code.getD 0#64,m.rip,m.cs.setWidth 64,m.rflags,m.rsp,m.ss.setWidth 64] := by
  cases code with
  | none => rfl
  | some value => rfl

theorem frame_length (code : Option Word) (vector : Nat) (m : Cpu) : (frameWords code vector m).length = 22 := by
  rw [←List.length_reverse,frame_reversed]
  rfl

theorem commonEntry_result (m : Cpu) :
    let stack := (pushAll.map m.regs).foldl (push 8) (m.mem,m.rsp)
    let regs := Function.update (Function.update m.regs .rdi stack.2) .rbx stack.2
    commonEntry m = {m with regs:=regs,rsp:=stack.2 &&& ~~~15#64,mem:=stack.1} := by
  unfold commonEntry
  rw [pushRegs_values,pushes_result]
  generalize (pushAll.map m.regs).foldl (push 8) (m.mem,m.rsp) = stack
  rfl

-- The state in which C is called: the frame starts where rdi points, and rbx points there too.
theorem stub_called (rsp0 : Word) (gate : Gate) (m : Cpu) (given : code.isSome = pushesCode vector) :
    let stack := (frameWords code vector m).foldl (push 8) (m.mem,base rsp0 gate m)
    let regs := Function.update (Function.update m.regs .rdi stack.2) .rbx stack.2
    stub vector (deliver rsp0 gate code m) = {m with
      regs:=regs,rsp:=aligned stack.2,mem:=stack.1,ss:=stackSegment gate m,cs:=gate.selector,rip:=gate.base
      rflags:=gated m.rflags &&& ~~~0x200#64} := by
  rw [stub_eq vector _ given,delivered]
  generalize same : (saves code m).foldl (push 8) (m.mem,base rsp0 gate m) = stack
  rw [pushes_result,commonEntry_result]
  simp only [frameWords,List.foldl_append,same,cli,aligned]

-- What neither the processor nor the stubs change on the way in.
structure SameSegments (m other : Cpu) : Prop where
  ds : other.ds = m.ds
  es : other.es = m.es
  fs : other.fs = m.fs
  gs : other.gs = m.gs
  gsBase : other.gsBase = m.gsBase
  kernelGsBase : other.kernelGsBase = m.kernelGsBase

-- A frame that is a picture of a state: what C reads in it is what the state has.
structure Shows (m : Cpu) (r : Registers) : Prop where
  general : r.general = m.regs
  rip : r.rip = m.rip
  cs : r.cs = m.cs.setWidth 64
  rflags : r.rflags = m.rflags
  rsp : r.rsp = m.rsp
  ss : r.ss = m.ss.setWidth 64

structure Framed (rsp0 : Word) (gate : Gate) (m e : Cpu) (p : Nat) : Prop where
  argument : (e.regs .rdi).toNat = p
  carried : (e.regs .rbx).toNat = p
  above : p+176 = (base rsp0 gate m).toNat
  stack : e.rsp.toNat ≤ p ∧ e.rsp.toNat%16 = 0
  untouched : ∀ x,x < p ∨ (base rsp0 gate m).toNat ≤ x → e.mem x = m.mem x
  cs : e.cs = gate.selector
  segments : SameSegments m e

theorem fifteen_bit : ∀ k : Fin 64,(15#64)[k.val] = decide (k.val < 4) := by decide

theorem aligned_below (sp : Word) :
    (aligned sp).toNat ≤ sp.toNat ∧ (aligned sp).toNat%16 = 0 ∧ sp.toNat < (aligned sp).toNat+16 := by
  have shifted : aligned sp = (sp >>> 4) <<< 4 := by
    rw [aligned]
    ext k inside
    have bit := fifteen_bit ⟨k,inside⟩
    dsimp only at bit
    rw [BitVec.getElem_and,BitVec.getElem_not,bit,BitVec.getElem_shiftLeft]
    by_cases lower : k < 4
    · simp [lower]
    · rw [BitVec.getElem_ushiftRight,Nat.add_sub_cancel' (Nat.not_lt.mp lower)]
      simp [lower,BitVec.getLsbD_eq_getElem inside]
  have masked : (aligned sp).toNat = sp.toNat/16*16 := by
    have bound := sp.isLt
    rw [shifted,BitVec.toNat_shiftLeft,BitVec.toNat_ushiftRight,Nat.shiftRight_eq_div_pow,Nat.shiftLeft_eq]
    omega
  omega

theorem stub_framed (rsp0 : Word) (gate : Gate) (m : Cpu) (given : code.isSome = pushesCode vector)
    (room : 176 ≤ (base rsp0 gate m).toNat) :
    let e := stub vector (deliver rsp0 gate code m)
    let p := (e.regs .rdi).toNat
    Framed rsp0 gate m e p ∧ Shows m (registersAt e.mem p) ∧
    (registersAt e.mem p).intNo = BitVec.ofNat 64 vector ∧ (registersAt e.mem p).errCode = code.getD 0#64 := by
  have length := frame_length code vector m
  have pushed := push_all word_fits m.mem (base rsp0 gate m) (frameWords code vector m) (by omega)
  rw [stub_called rsp0 gate m given]
  dsimp only
  generalize (frameWords code vector m).foldl (push 8) (m.mem,base rsp0 gate m) = stack at pushed ⊢
  have rdi : Function.update (Function.update m.regs .rdi stack.2) Reg.rbx stack.2 .rdi = stack.2 :=
    (Function.update_of_ne (by decide) ..).trans (Function.update_self ..)
  have rbx : Function.update (Function.update m.regs .rdi stack.2) Reg.rbx stack.2 .rbx = stack.2 := Function.update_self ..
  have pointer := pushed.pointer
  have held := pushed.words
  rw [length] at pointer
  rw [frame_reversed] at held
  rw [rdi]
  obtain ⟨below,even,_⟩ := aligned_below stack.2
  obtain ⟨first,second⟩ := holds_append.mp held
  obtain ⟨r15,r14,r13,r12,r11,r10,r9,r8,rbp,rdi',rsi,rdx,rcx,rbx',rax,_⟩ := first
  obtain ⟨intNo,errCode,rip,cs,rflags,rsp,ss,_⟩ := second
  refine ⟨⟨congrArg BitVec.toNat rdi,congrArg BitVec.toNat rbx,by omega,⟨below,even⟩,pushed.outside,rfl,⟨rfl,rfl,rfl,rfl,rfl,rfl⟩⟩,
    ⟨?_,rip,cs,rflags,rsp,ss⟩,intNo,errCode⟩
  funext r
  cases r with
  | rax => exact rax
  | rbx => exact rbx'
  | rcx => exact rcx
  | rdx => exact rdx
  | rsi => exact rsi
  | rdi => exact rdi'
  | rbp => exact rbp
  | r8 => exact r8
  | r9 => exact r9
  | r10 => exact r10
  | r11 => exact r11
  | r12 => exact r12
  | r13 => exact r13
  | r14 => exact r14
  | r15 => exact r15

-- What the stubs need of isr_handler and irq_handler: rbx comes back, as of every function,
-- and the segments are as they were. Memory is theirs to change.
structure Returned (e after : Cpu) : Prop where
  rbx : after.regs .rbx = e.regs .rbx
  cs : after.cs = e.cs
  segments : SameSegments e after

-- A state that can go on after an interrupt of m: of its ring and with its data segments.
structure Possible (dpl : Selector → Nat) (gate : Gate) (m other : Cpu) : Prop where
  level : ring other.cs = ring m.cs
  usable : outer gate m → ∀ s ∈ [m.ds,m.es,m.fs,m.gs],ring other.cs ≤ dpl s
  segments : SameSegments m other

theorem exit_result (m : Cpu) (room : (m.regs .rbx).toNat+136 < 2^64) :
    let r := registersAt m.mem (m.regs .rbx).toNat
    commonExit dpl m = iretq dpl {m with regs:=r.general,rsp:=m.regs .rbx+136#64,rflags:=m.rflags ||| 0x200#64} := by
  obtain ⟨saved,_⟩ := registersAt_held m.mem (m.regs .rbx).toNat
  dsimp only at saved ⊢
  generalize registersAt m.mem (m.regs .rbx).toNat = r at saved ⊢
  unfold commonExit
  dsimp only
  rw [popRegs_loads (m:={m with rsp:=m.regs .rbx}) saved (by change (m.regs .rbx).toNat+8*15 < 2^64; omega)]
  have regs : (fun x => if x ∈ popAll then r.general x else m.regs x) = r.general := funext fun x => if_pos (popAll_member x)
  have place : m.regs .rbx+BitVec.ofNat 64 (8*popAll.length)+BitVec.ofNat 64 16 = m.regs .rbx+136#64 := BitVec.add_assoc ..
  unfold drop sti
  dsimp only
  rw [regs,place]

theorem frame_continues (framed : Framed rsp0 gate m e p) (returned : Returned e after) (possible : Possible dpl gate m other)
    (shows : Shows other (registersAt after.mem p)) : commonExit dpl after = {other with mem:=after.mem} := by
  have above := framed.above
  have small := (base rsp0 gate m).isLt
  have place : (after.regs .rbx).toNat = p := by rw [returned.rbx,framed.carried]
  rw [exit_result after (by omega),place]
  obtain ⟨_,held⟩ := registersAt_held after.mem p
  generalize registersAt after.mem p = r at shows held ⊢
  have last : (after.regs .rbx+136#64).toNat = p+136 := by rw [←place]; exact sp_higher (by omega)
  have cs : low r.cs = other.cs := by rw [shows.cs,low_word]
  have enters := returned.segments
  have first := framed.segments
  have same := possible.segments
  have ds : after.ds = m.ds := by rw [enters.ds,first.ds]
  have es : after.es = m.es := by rw [enters.es,first.es]
  have fs : after.fs = m.fs := by rw [enters.fs,first.fs]
  have gs : after.gs = m.gs := by rw [enters.gs,first.gs]
  have usable : ring after.cs < ring (low r.cs) → ∀ s ∈ [after.ds,after.es,after.fs,after.gs],ring (low r.cs) ≤ dpl s := by
    rw [cs,returned.cs,framed.cs,ds,es,fs,gs]
    intro down
    rw [possible.level] at down
    exact possible.usable down
  rw [←last] at held
  rw [iretq_loads (m:={after with regs:=r.general,rsp:=after.regs .rbx+136#64,rflags:=after.rflags ||| 0x200#64}) held
    (by dsimp only; omega) usable]
  dsimp only
  rw [shows.general,shows.rip,cs,shows.rflags,shows.rsp,shows.ss,low_word,ds,es,fs,gs,enters.gsBase,first.gsBase,
    enters.kernelGsBase,first.kernelGsBase,←same.ds,←same.es,←same.fs,←same.gs,←same.gsBase,←same.kernelGsBase]

-- Every interrupt is entered and left through its stub: C is called on an aligned stack and
-- reads the interrupted state in the frame it is given, and whatever state the frame shows
-- when C returns is the one that goes on.
theorem long_interrupts_transparent (rsp0 : Word) (gate : Gate) (code : Option Word) (vector : Nat) (m : Cpu) (dpl : Selector → Nat)
    (given : code.isSome = pushesCode vector) (room : 176 ≤ (base rsp0 gate m).toNat) :
    let e := stub vector (deliver rsp0 gate code m)
    let p := (e.regs .rdi).toNat
    Framed rsp0 gate m e p ∧ Shows m (registersAt e.mem p) ∧
    (registersAt e.mem p).intNo = BitVec.ofNat 64 vector ∧ (registersAt e.mem p).errCode = code.getD 0#64 ∧
    ∀ after other,Returned e after → Possible dpl gate m other → Shows other (registersAt after.mem p) →
      commonExit dpl after = {other with mem:=after.mem} := by
  obtain ⟨framed,shows,intNo,errCode⟩ := stub_framed rsp0 gate m given room
  exact ⟨framed,shows,intNo,errCode,fun _ _ returned possible pictured => frame_continues framed returned possible pictured⟩

-- A timer interrupt of ring 3 whose handler changes nothing; no two registers hold the same.
def demoCpu : Cpu where
  regs r := BitVec.ofNat 64 (0x11*(r.ctorIdx+1))
  rsp := 0x500FF8#64
  rip := 0x400010#64
  rflags := 0x202#64
  cs := 0x23#16
  ss := 0x1B#16
  ds := 0x1B#16
  es := 0x1B#16
  fs := 0x1B#16
  gs := 0#16
  gsBase := 0#64
  kernelGsBase := 0x140000#64
  mem _ := 0#8

def kernelGate : Gate := ⟨0x08#16,0x101000#64⟩

theorem long_interrupts_transparent_demo :
    let e := stub 32 (deliver 0x9000#64 kernelGate none demoCpu)
    commonExit (fun _ => 3) e = {demoCpu with mem:=e.mem} := by
  obtain ⟨_,shows,_,_,goes⟩ := long_interrupts_transparent 0x9000#64 kernelGate none 32 demoCpu (fun _ => 3) rfl (by decide)
  exact goes _ demoCpu ⟨rfl,rfl,⟨rfl,rfl,rfl,rfl,rfl,rfl⟩⟩ ⟨rfl,fun _ _ _ => by decide,⟨rfl,rfl,rfl,rfl,rfl,rfl⟩⟩ shows

end Arthic.LongInterrupts
