import Arthic.Library.Ia32

namespace Arthic.InterruptStubs
open ByteMemory MachineStack Ia32

-- struct registers of idt.h, from the lowest address up.
structure Registers where
  ds : Word
  edi : Word
  esi : Word
  ebp : Word
  esp : Word
  ebx : Word
  edx : Word
  ecx : Word
  eax : Word
  intNo : Word
  errCode : Word
  eip : Word
  cs : Word
  eflags : Word
  useresp : Word
  ss : Word

def registersAt (mem : Memory) (p : Nat) : Registers where
  ds := word 4 mem p
  edi := word 4 mem (p+4)
  esi := word 4 mem (p+8)
  ebp := word 4 mem (p+12)
  esp := word 4 mem (p+16)
  ebx := word 4 mem (p+20)
  edx := word 4 mem (p+24)
  ecx := word 4 mem (p+28)
  eax := word 4 mem (p+32)
  intNo := word 4 mem (p+36)
  errCode := word 4 mem (p+40)
  eip := word 4 mem (p+44)
  cs := word 4 mem (p+48)
  eflags := word 4 mem (p+52)
  useresp := word 4 mem (p+56)
  ss := word 4 mem (p+60)

def Registers.general (r : Registers) : Reg → Word
  | .eax => r.eax
  | .ecx => r.ecx
  | .edx => r.edx
  | .ebx => r.ebx
  | .ebp => r.ebp
  | .esi => r.esi
  | .edi => r.edi

def cli (m : Cpu) : Cpu := {m with eflags:=m.eflags &&& ~~~0x200#32}
def sti (m : Cpu) : Cpu := {m with eflags:=m.eflags ||| 0x200#32}

-- mov of one selector into the four data segment registers, through ax.
def loadSegments (m : Cpu) : Cpu :=
  {m with ds:=low (m.regs .eax),es:=low (m.regs .eax),fs:=low (m.regs .eax),gs:=low (m.regs .eax)}

-- isr_common_stub and irq_common_stub are the same text but for the function they call:
-- what they do up to the call, and what they do after it.
def commonEntry (m : Cpu) : Cpu :=
  let m := pusha m
  let m := setLow m .eax m.ds
  let m := pushl m (m.regs .eax)
  let m := loadSegments (setLow m .eax 0x10#16)
  pushl m m.esp

def commonExit (dpl : Selector → Nat) (m : Cpu) : Cpu :=
  let m := drop m 4
  let m := loadSegments (popl m .eax)
  let m := drop (popa m) 8
  iret dpl (sti m)

def isrNoerrcode (num : Nat) (m : Cpu) : Cpu :=
  commonEntry (pushl (pushl (cli m) 0#32) (BitVec.ofNat 32 num))

def isrErrcode (num : Nat) (m : Cpu) : Cpu := commonEntry (pushl (cli m) (BitVec.ofNat 32 num))

-- irq0 to irq15 push the vector their line was remapped to.
def irqStub (num : Nat) (m : Cpu) : Cpu := isrNoerrcode (num+32) m
def isr128 (m : Cpu) : Cpu := isrNoerrcode 128 m

-- The stub each gate leads to, up to its call of C.
def pushesCode (vector : Nat) : Bool := [8,10,11,12,13,14,17].contains vector

def stub (vector : Nat) (m : Cpu) : Cpu :=
  if vector = 128 then isr128 m
  else if 32 ≤ vector then irqStub (vector-32) m
  else if pushesCode vector then isrErrcode vector m
  else isrNoerrcode vector m

variable {m e after final : Cpu} {tss : Tss} {gate : Gate} {code : Option Word} {vector p : Nat} {dpl : Selector → Nat} {mem : Memory}

-- The part of a frame the stubs put there, and the part the processor did.
def Registers.saved (r : Registers) : List Word := r.ds::popaWords r.general r.esp
def Registers.returned (r : Registers) : List Word := [r.eip,r.cs,r.eflags]
def Registers.outside (r : Registers) : List Word := [r.useresp,r.ss]

theorem registersAt_held (mem : Memory) (p : Nat) :
    let r := registersAt mem p
    Holds 4 mem p r.saved ∧ Holds 4 mem (p+44) (r.returned++r.outside) := by
  have held : Holds 4 mem p (words 4 mem p 9 : List Word) := words_held ..
  have rest : Holds 4 mem (p+44) (words 4 mem (p+44) 5 : List Word) := words_held ..
  exact ⟨held,rest⟩

-- Both kinds of stub push the same words where the processor pushed a code or none.
def codeWords (code : Option Word) : List Word := match code with | none => [0#32] | some _ => []

theorem noerrcode_eq (vector : Nat) (m : Cpu) (plain : code.isSome = false) :
    isrNoerrcode vector m = commonEntry ((codeWords code++[BitVec.ofNat 32 vector]).foldl pushl (cli m)) := by
  cases code with
  | none => rfl
  | some value => cases plain

theorem stub_eq (vector : Nat) (m : Cpu) (given : code.isSome = pushesCode vector) :
    stub vector m = commonEntry ((codeWords code++[BitVec.ofNat 32 vector]).foldl pushl (cli m)) := by
  unfold stub
  split
  · rename_i same
    subst same
    exact noerrcode_eq 128 m given
  · split
    · rename_i upper
      have plain : pushesCode vector = false := by
        by_contra listed
        rw [Bool.not_eq_false,pushesCode,List.contains_iff_mem] at listed
        simp only [List.mem_cons,List.not_mem_nil,or_false] at listed
        omega
      rw [irqStub,Nat.sub_add_cancel upper]
      exact noerrcode_eq vector m (given.trans plain)
    · split
      · rename_i listed
        rw [listed] at given
        cases code with
        | none => cases given
        | some value => rfl
      · rename_i plain
        rw [Bool.not_eq_true] at plain
        exact noerrcode_eq vector m (given.trans plain)

-- The word the stub pushes for ds: the low half of eax is overwritten, the rest stays.
def dsWord (m : Cpu) : Word := (m.regs .eax).extractLsb' 16 16++m.ds

-- The words of a frame in the order they are pushed, and the stack the call of C finds.
def frameWords (gate : Gate) (code : Option Word) (vector : Nat) (m : Cpu) (esp : Word) : List Word :=
  saves gate code m++(codeWords code++[BitVec.ofNat 32 vector])++
    [m.regs .eax,m.regs .ecx,m.regs .edx,m.regs .ebx,esp,m.regs .ebp,m.regs .esi,m.regs .edi]++[dsWord m]

structure Called (tss : Tss) (gate : Gate) (code : Option Word) (vector : Nat) (m e : Cpu) (esp pointer : Word) : Prop where
  stack : (e.mem,e.esp) = (frameWords gate code vector m esp++[pointer]).foldl (push 4) (m.mem,base tss gate m)
  argument : pointer = ((frameWords gate code vector m esp).foldl (push 4) (m.mem,base tss gate m)).2
  cs : e.cs = gate.selector
  ss : e.ss = stackSegment tss gate m

theorem commonEntry_result (m : Cpu) : ∃ esp,
    let words := [m.regs .eax,m.regs .ecx,m.regs .edx,m.regs .ebx,esp,m.regs .ebp,m.regs .esi,m.regs .edi]++[dsWord m]
    let stack := words.foldl (push 4) (m.mem,m.esp)
    ((commonEntry m).mem,(commonEntry m).esp) = push 4 stack stack.2 ∧
    (commonEntry m).cs = m.cs ∧ (commonEntry m).ss = m.ss := by
  refine ⟨m.esp,?_⟩
  have pushed := pushes_result (pushaWords m) m
  rw [←pusha_result] at pushed
  unfold commonEntry
  rw [pushed]
  dsimp only
  rw [List.foldl_append]
  exact ⟨rfl,rfl,rfl⟩

-- What the call of C finds: the frame from the pointer on, last word pushed first.
theorem stub_called (tss : Tss) (gate : Gate) (code : Option Word) (vector : Nat) (m : Cpu) (given : code.isSome = pushesCode vector) :
    ∃ esp pointer,Called tss gate code vector m (stub vector (deliver tss gate code m)) esp pointer := by
  rw [stub_eq vector _ given,delivered]
  generalize same : (saves gate code m).foldl (push 4) (m.mem,base tss gate m) = stack
  rw [pushes_result]
  dsimp only [cli]
  obtain ⟨esp,result,cs,ss⟩ := commonEntry_result
    {m with
      mem:=((codeWords code++[BitVec.ofNat 32 vector]).foldl (push 4) stack).1
      esp:=((codeWords code++[BitVec.ofNat 32 vector]).foldl (push 4) stack).2
      ss:=stackSegment tss gate m,cs:=gate.selector,eip:=gate.base,eflags:=gated m.eflags &&& ~~~0x200#32}
  refine ⟨esp,_,?_,rfl,cs,ss⟩
  simp only [frameWords,List.foldl_append,same] at result ⊢
  exact result

theorem frame_reversed (gate : Gate) (code : Option Word) (vector : Nat) (m : Cpu) (esp : Word) :
    (frameWords gate code vector m esp).reverse =
      [dsWord m,m.regs .edi,m.regs .esi,m.regs .ebp,esp,m.regs .ebx,m.regs .edx,m.regs .ecx,m.regs .eax,
        BitVec.ofNat 32 vector,code.getD 0#32,m.eip,m.cs.setWidth 32,m.eflags]++
      if outer gate m then [m.esp,m.ss.setWidth 32] else [] := by
  cases code with
  | none =>
    unfold frameWords saves
    split
    · rfl
    · rfl
  | some value =>
    unfold frameWords saves
    split
    · rfl
    · rfl

-- A frame that is a picture of a state: what C reads in it is what the state has.
structure Shows (gate : Gate) (m : Cpu) (r : Registers) : Prop where
  ds : low r.ds = m.ds
  general : r.general = m.regs
  eip : r.eip = m.eip
  cs : r.cs = m.cs.setWidth 32
  eflags : r.eflags = m.eflags
  outside : outer gate m → r.useresp = m.esp ∧ r.ss = m.ss.setWidth 32

-- The size of a frame is 56 bytes, and 64 where the processor changed the stack.
def size (gate : Gate) (m : Cpu) : Nat := if outer gate m then 64 else 56

structure Framed (tss : Tss) (gate : Gate) (m e : Cpu) : Prop where
  argument : (word 4 e.mem e.esp.toNat : Word).toNat = e.esp.toNat+4
  above : e.esp.toNat+4+size gate m = (base tss gate m).toNat
  untouched : ∀ x,x < e.esp.toNat ∨ (base tss gate m).toNat ≤ x → e.mem x = m.mem x
  cs : e.cs = gate.selector
  ss : e.ss = stackSegment tss gate m

theorem saves_length (gate : Gate) (code : Option Word) (vector : Nat) (m : Cpu) (esp : Word) :
    4*(frameWords gate code vector m esp).length = size gate m := by
  rw [←List.length_reverse,frame_reversed,size,List.length_append]
  split
  · rfl
  · rfl

theorem called_framed {esp pointer : Word} (called : Called tss gate code vector m e esp pointer)
    (room : 68 ≤ (base tss gate m).toNat) :
    Framed tss gate m e ∧ Shows gate m (registersAt e.mem (e.esp.toNat+4)) ∧
    (registersAt e.mem (e.esp.toNat+4)).intNo = BitVec.ofNat 32 vector ∧
    (registersAt e.mem (e.esp.toNat+4)).errCode = code.getD 0#32 := by
  have length := saves_length gate code vector m esp
  have small : size gate m ≤ 64 := by unfold size; split <;> decide
  have whole := push_all word_fits m.mem (base tss gate m) (frameWords gate code vector m esp++[pointer]) (by
    rw [List.length_append,List.length_singleton]
    omega)
  have part := push_all word_fits m.mem (base tss gate m) (frameWords gate code vector m esp) (by omega)
  rw [←called.stack] at whole
  have place := whole.pointer
  have above := part.pointer
  have held := whole.words
  rw [List.reverse_append,frame_reversed,List.reverse_singleton,List.singleton_append] at held
  rw [List.length_append,List.length_singleton] at place
  rw [←called.argument] at above
  obtain ⟨argument,frame⟩ := held
  obtain ⟨first,second⟩ := holds_append.mp frame
  obtain ⟨ds,edi,esi,ebp,_,ebx,edx,ecx,eax,intNo,errCode,eip,cs,eflags,_⟩ := first
  refine ⟨?_,?_,intNo,errCode⟩
  · refine ⟨?_,?_,whole.outside,called.cs,called.ss⟩
    · rw [argument]
      dsimp only at place
      omega
    · dsimp only at place
      omega
  · refine ⟨?_,?_,eip,cs,eflags,?_⟩
    · exact (congrArg low ds).trans (low_appended ..)
    · funext r
      cases r with
      | eax => exact eax
      | ecx => exact ecx
      | edx => exact edx
      | ebx => exact ebx
      | ebp => exact ebp
      | esi => exact esi
      | edi => exact edi
    · intro change
      rw [if_pos change] at second
      exact ⟨second.1,second.2.1⟩

-- After the call the stub loads what it finds in the frame, changed or not.
def reloaded (m : Cpu) (r : Registers) : Cpu :=
  {m with regs:=r.general,esp:=m.esp+48#32,eflags:=m.eflags ||| 0x200#32,ds:=low r.ds,es:=low r.ds,fs:=low r.ds,gs:=low r.ds}

theorem exit_result (m : Cpu) (room : m.esp.toNat+48 < 2^32) :
    commonExit dpl m = iret dpl (reloaded m (registersAt m.mem (m.esp.toNat+4))) := by
  obtain ⟨saved,_⟩ := registersAt_held m.mem (m.esp.toNat+4)
  generalize registersAt m.mem (m.esp.toNat+4) = r at saved ⊢
  obtain ⟨ds,general⟩ := saved
  have four : (m.esp+4#32).toNat = m.esp.toNat+4 := sp_higher (by omega)
  have eight : (m.esp+4#32+4#32).toNat = m.esp.toNat+8 := by
    rw [show (4#32) = BitVec.ofNat 32 4 from rfl,sp_higher (by omega),four]
  rw [←four] at ds
  have loaded : loadSegments (popl (drop m 4) .eax) =
      {m with regs:=Function.update m.regs .eax r.ds,esp:=m.esp+4#32+4#32,ds:=low r.ds,es:=low r.ds,fs:=low r.ds,gs:=low r.ds} := by
    unfold loadSegments popl drop pop
    dsimp only
    rw [ds,Function.update_self]
  unfold commonExit
  dsimp only
  rw [loaded,popa_loads r.general r.esp (by dsimp only; rw [eight]; exact general) (by dsimp only; omega)]
  unfold drop sti reloaded
  dsimp only
  rw [show m.esp+4#32+4#32+32#32+BitVec.ofNat 32 8 = m.esp+48#32 by simp only [BitVec.add_assoc]; rfl]

-- What goes on after the interrupt, by the frame C left.
structure Resumes (dpl : Selector → Nat) (r : Registers) (after final : Cpu) : Prop where
  regs : final.regs = r.general
  eip : final.eip = r.eip
  cs : final.cs = low r.cs
  eflags : final.eflags = r.eflags
  mem : final.mem = after.mem
  inner : ¬ring after.cs < ring (low r.cs) → final.esp.toNat = after.esp.toNat+60 ∧ final.ss = after.ss ∧
    final.ds = low r.ds ∧ final.es = low r.ds ∧ final.fs = low r.ds ∧ final.gs = low r.ds
  outside : ring after.cs < ring (low r.cs) → final.esp = r.useresp ∧ final.ss = low r.ss ∧
    let segment := settle dpl (ring (low r.cs)) (low r.ds)
    final.ds = segment ∧ final.es = segment ∧ final.fs = segment ∧ final.gs = segment

theorem exit_resumes (dpl : Selector → Nat) (m : Cpu) (room : m.esp.toNat+60 < 2^32)
    (wide : ring m.cs < ring (low (registersAt m.mem (m.esp.toNat+4)).cs) → m.esp.toNat+68 ≤ 2^32) :
    Resumes dpl (registersAt m.mem (m.esp.toNat+4)) m (commonExit dpl m) := by
  obtain ⟨_,returned⟩ := registersAt_held m.mem (m.esp.toNat+4)
  rw [exit_result m (by omega)]
  generalize registersAt m.mem (m.esp.toNat+4) = r at returned wide ⊢
  have place : (reloaded m r).esp.toNat = m.esp.toNat+48 := sp_higher (by omega)
  rw [show m.esp.toNat+4+44 = (reloaded m r).esp.toNat by rw [place]] at returned
  by_cases down : ring m.cs < ring (low r.cs)
  · have result := iret_outer dpl (m:=reloaded m r) returned (by rw [place]; have := wide down; omega) down
    rw [result]
    exact ⟨rfl,rfl,rfl,rfl,rfl,fun up => absurd down up,fun _ => ⟨rfl,rfl,rfl,rfl,rfl,rfl⟩⟩
  · have result := iret_inner dpl (m:=reloaded m r) (holds_append.mp returned).1 (by rw [place]; omega) down
    rw [result]
    refine ⟨rfl,rfl,rfl,rfl,rfl,fun _ => ⟨?_,rfl,rfl,rfl,rfl,rfl⟩,fun up => absurd up down⟩
    change ((reloaded m r).esp+12#32).toNat = _
    rw [show (12#32) = BitVec.ofNat 32 12 from rfl,sp_higher (by omega),place]

-- The processor goes on in a state. Of the data segments the stubs save ds only.
structure Continues (m final : Cpu) : Prop where
  regs : final.regs = m.regs
  esp : final.esp = m.esp
  eip : final.eip = m.eip
  eflags : final.eflags = m.eflags
  cs : final.cs = m.cs
  ss : final.ss = m.ss
  segments : final.ds = m.ds ∧ final.es = m.ds ∧ final.fs = m.ds ∧ final.gs = m.ds

-- What the stubs need of isr_handler and irq_handler: the stack pointer and the kernel's
-- code and stack segments come back, and memory is theirs to change.
structure Returned (e after : Cpu) : Prop where
  esp : after.esp = e.esp
  cs : after.cs = e.cs
  ss : after.ss = e.ss

-- A state of the ring that was interrupted. Without a change of stacks it has the stack
-- pointer of the interrupted code: there is no room for another one in the frame.
structure Possible (dpl : Selector → Nat) (gate : Gate) (m other : Cpu) : Prop where
  level : ring other.cs = ring m.cs
  usable : outer gate m → ring other.cs ≤ dpl other.ds
  stack : ¬outer gate m → other.esp = m.esp ∧ other.ss = m.ss

theorem frame_continues {other : Cpu} (framed : Framed tss gate m e) (returned : Returned e after) (possible : Possible dpl gate m other)
    (shows : Shows gate other (registersAt after.mem (e.esp.toNat+4))) : Continues other (commonExit dpl after) := by
  have above := framed.above
  have small := (base tss gate m).isLt
  have esp := returned.esp
  have place : after.esp.toNat = e.esp.toNat := by rw [esp]
  rw [←place] at shows above
  have cs : low (registersAt after.mem (after.esp.toNat+4)).cs = other.cs := by rw [shows.cs,low_word]
  have inside : ring after.cs = ring gate.selector := by rw [returned.cs,framed.cs]
  have down : ring after.cs < ring (low (registersAt after.mem (after.esp.toNat+4)).cs) ↔ outer gate m := by
    rw [cs,inside,possible.level]
    exact Iff.rfl
  have resumes := exit_resumes dpl after (by unfold size at above; split at above <;> omega) (by
    intro changes
    rw [size,if_pos (down.mp changes)] at above
    omega)
  generalize registersAt after.mem (after.esp.toNat+4) = r at shows cs down resumes
  by_cases change : outer gate m
  · obtain ⟨stack,segment,ds,es,fs,gs⟩ := resumes.outside (down.mpr change)
    obtain ⟨useresp,ss⟩ := shows.outside (possible.level ▸ change : ring gate.selector < ring other.cs)
    have kept : settle dpl (ring (low r.cs)) (low r.ds) = other.ds := by
      rw [cs,shows.ds,settle,if_neg (Nat.not_lt.mpr (possible.usable change))]
    rw [kept] at ds es fs gs
    refine ⟨resumes.regs.trans shows.general,stack.trans useresp,resumes.eip.trans shows.eip,
      resumes.eflags.trans shows.eflags,resumes.cs.trans cs,?_,ds,es,fs,gs⟩
    rw [segment,ss,low_word]
  · obtain ⟨stack,segment,ds,es,fs,gs⟩ := resumes.inner fun up => change (down.mp up)
    obtain ⟨same,sameSegment⟩ := possible.stack change
    rw [shows.ds] at ds es fs gs
    refine ⟨resumes.regs.trans shows.general,?_,resumes.eip.trans shows.eip,resumes.eflags.trans shows.eflags,
      resumes.cs.trans cs,?_,ds,es,fs,gs⟩
    · rw [size,if_neg change,base,if_neg change] at above
      rw [same]
      apply BitVec.eq_of_toNat_eq
      omega
    · rw [segment,returned.ss,framed.ss,stackSegment,if_neg change,sameSegment]

theorem exit_mem (dpl : Selector → Nat) (m : Cpu) : (commonExit dpl m).mem = m.mem := by
  unfold commonExit iret
  dsimp only
  split
  · rfl
  · rfl

-- A frame whose bytes C leaves alone is the same picture.
theorem shows_kept {other : Memory} (shows : Shows gate m (registersAt mem p))
    (same : ∀ x,p ≤ x → x < p+size gate m → other x = mem x) : Shows gate m (registersAt other p) := by
  have large : 56 ≤ size gate m := by unfold size; split <;> decide
  have kept (k : Nat) (inside : k+4 ≤ 56) : (word 4 other (p+k) : Word) = word 4 mem (p+k) :=
    word_congr fun x above below => same x (by omega) (by omega)
  have last (change : outer gate m) (k : Nat) (inside : k+4 ≤ 64) : (word 4 other (p+k) : Word) = word 4 mem (p+k) :=
    word_congr fun x above below => same x (by omega) (by rw [size,if_pos change]; omega)
  refine ⟨?_,?_,?_,?_,?_,fun change => ⟨?_,?_⟩⟩
  · exact (congrArg low (kept 0 (by decide))).trans shows.ds
  · refine Eq.trans (funext fun r => ?_) shows.general
    cases r with
    | eax => exact kept 32 (by decide)
    | ecx => exact kept 28 (by decide)
    | edx => exact kept 24 (by decide)
    | ebx => exact kept 20 (by decide)
    | ebp => exact kept 12 (by decide)
    | esi => exact kept 8 (by decide)
    | edi => exact kept 4 (by decide)
  · exact (kept 44 (by decide)).trans shows.eip
  · exact (kept 48 (by decide)).trans shows.cs
  · exact (kept 52 (by decide)).trans shows.eflags
  · exact (last change 56 (by decide)).trans (shows.outside change).1
  · exact (last change 60 (by decide)).trans (shows.outside change).2

-- Every interrupt is entered and left through its stub: C reads the interrupted state in the
-- frame it is given, the state the frame shows when C returns is the one that goes on, and
-- memory outside the new part of the stack is what C left there.
theorem interrupts_transparent (tss : Tss) (gate : Gate) (code : Option Word) (vector : Nat) (m : Cpu) (dpl : Selector → Nat)
    (given : code.isSome = pushesCode vector) (room : 68 ≤ (base tss gate m).toNat) :
    let e := stub vector (deliver tss gate code m)
    let r := registersAt e.mem (e.esp.toNat+4)
    Framed tss gate m e ∧ Shows gate m r ∧ r.intNo = BitVec.ofNat 32 vector ∧ r.errCode = code.getD 0#32 ∧
    ∀ after,Returned e after → (commonExit dpl after).mem = after.mem ∧
      ∀ other,Possible dpl gate m other → Shows gate other (registersAt after.mem (e.esp.toNat+4)) →
        Continues other (commonExit dpl after) := by
  obtain ⟨esp,pointer,called⟩ := stub_called tss gate code vector m given
  obtain ⟨framed,shows,intNo,errCode⟩ := called_framed called room
  refine ⟨framed,shows,intNo,errCode,fun after returned => ⟨exit_mem dpl after,?_⟩⟩
  intro other possible pictured
  exact frame_continues framed returned possible pictured

-- A system call of ring 3 whose handler changes nothing; no two registers hold the same.
def demoCpu : Cpu where
  regs r := BitVec.ofNat 32 (0x11*(r.ctorIdx+1))
  esp := 0x40000F00#32
  eip := 0x40000010#32
  eflags := 0x202#32
  cs := 0x1B#16
  ss := 0x23#16
  ds := 0x23#16
  es := 0x23#16
  fs := 0x23#16
  gs := 0x23#16
  mem _ := 0#8

def kernelGate : Gate := ⟨0x08#16,0x101000#32⟩
def kernelTss : Tss := ⟨0x10#16,0x9000#32⟩

theorem interrupts_transparent_demo :
    Continues demoCpu (commonExit (fun _ => 3) (stub 128 (deliver kernelTss kernelGate none demoCpu))) := by
  obtain ⟨_,shows,_,_,goes⟩ := interrupts_transparent kernelTss kernelGate none 128 demoCpu (fun _ => 3) rfl (by decide)
  refine (goes _ ⟨rfl,rfl,rfl⟩).2 demoCpu ⟨rfl,fun _ => by decide,fun inner => ?_⟩ shows
  exact absurd (by decide) inner

end Arthic.InterruptStubs
