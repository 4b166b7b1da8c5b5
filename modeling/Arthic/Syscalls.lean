import Arthic.Library.Sentinel
import Arthic.Pipes

namespace Arthic.Syscalls
open ByteMemory Pipes Scheduler Unsigned

def sysWrite : BitVec 32 := 0#32
def sysTicks : BitVec 32 := 1#32
def sysExit : BitVec 32 := 2#32
def sysSleep : BitVec 32 := 3#32
def sysId : BitVec 32 := 4#32
def sysPipeWrite : BitVec 32 := 5#32
def sysPipeRead : BitVec 32 := 6#32

-- struct registers, as far as the dispatcher looks at it.
structure Registers where
  eax : BitVec 32
  ebx : BitVec 32
  ecx : BitVec 32

-- The static variables of syscall.c.
structure Gate where
  userRangeStart : Nat := 0
  userRangeEnd : Nat := 0
  ipcPipe : Pipe := pipeInit
  ipcReady : Bool := false

def syscallSetUserRange (g : Gate) (start end_ : Nat) : Gate := {g with userRangeStart:=start,userRangeEnd:=end_}

-- One use of a pointer that ring 3 passed.
structure Access where
  addr : Nat
  writes : Bool
  deriving DecidableEq

def userBufferOk (g : Gate) (ptr length : BitVec 32) : Bool :=
  if length = 0#32 ∨ 4096#32 < length then false
  else if ptr.toNat < g.userRangeStart ∨ g.userRangeEnd ≤ ptr.toNat then false
  else if wrap 32 (ptr.toNat+length.toNat) < ptr.toNat then false
  else if g.userRangeEnd < wrap 32 (ptr.toNat+length.toNat) then false
  else true

-- The loop of user_string_ok from index i on, with the addresses it reads.
def stringFrom (g : Gate) (bytes : Memory) (ptr : Nat) : Nat → Nat → Bool × List Nat
  | 0,_ => (false,[])
  | left+1,i =>
    let addr := wrap 32 (ptr+i)
    if g.userRangeEnd ≤ addr then (false,[])
    else if bytes addr = 0#8 then (true,[addr])
    else
      let (ok,rest) := stringFrom g bytes ptr left (i+1)
      (ok,addr::rest)

def userStringOk (g : Gate) (bytes : Memory) (ptr : BitVec 32) (maxLength : Nat) : Bool × List Nat :=
  if ptr.toNat < g.userRangeStart ∨ g.userRangeEnd ≤ ptr.toNat then (false,[])
  else stringFrom g bytes ptr.toNat maxLength 0

-- The same pointer walked again for its text. Nothing but the NUL stops the source; the
-- count is for one that user_string_ok has found.
def textFrom (bytes : Memory) (ptr : Nat) : Nat → Nat → List Byte × List Nat
  | 0,_ => ([],[])
  | left+1,i =>
    let addr := wrap 32 (ptr+i)
    if bytes addr = 0#8 then ([],[addr])
    else
      let (text,rest) := textFrom bytes ptr left (i+1)
      (bytes addr::text,addr::rest)

-- sizeof(t->outbuf).
def sizeofOutbuf : Nat := 128

def showLine (s : Sched) (t : Nat) : Sched :=
  let text := Function.update (s.tasks t).lineBuf (s.tasks t).lineLen 0#8
  let shown := ((List.range (s.tasks t).lineLen).map text).takeWhile (· ≠ 0#8)
  {setTask s t {s.tasks t with lineBuf:=text,lineLen:=0} with console:=s.console++[⟨some (s.tasks t).serial,shown⟩]}

def bufferByte (t : Nat) (s : Sched) (byte : Byte) : Sched :=
  let task := s.tasks t
  let s := setTask s t
    {task with lineBuf:=Function.update task.lineBuf task.lineLen byte,lineLen:=wrap 32 (task.lineLen+1)}
  if byte = 10#8 ∨ sizeofOutbuf-1 ≤ (s.tasks t).lineLen then showLine s t else s

def bufferedWrite (s : Sched) (t : Nat) (text : List Byte) : Sched :=
  if t = 0 then {s with console:=s.console++[⟨none,text⟩]} else text.foldl (bufferByte t) s

def syscallFlushOutput (s : Sched) (t : Nat) : Sched := if t = 0 ∨ (s.tasks t).lineLen = 0 then s else showLine s t

def kprintf (s : Sched) (text : String) : Sched :=
  {s with console:=s.console++[⟨none,text.toList.map fun c => BitVec.ofNat 8 c.toNat⟩]}

def hexadecimal (value : BitVec 32) : String := String.ofList (Nat.toDigits 16 value.toNat)
def decimal (value : BitVec 32) : String := String.ofList (Nat.toDigits 10 value.toNat)

-- How a call ends here: with a value in eax, inside a pipe operation whose result will be
-- that value, in the death of the task, or back in the kernel code that entered ring 3.
inductive Reply where
  | value (eax : BitVec 32)
  | pipe (label : Label)
  | terminated
  | unwound

structure Served where
  reply : Reply
  gate : Gate
  sched : Sched
  accesses : List Access

def ipcStart (g : Gate) : Gate := if g.ipcReady then g else {g with ipcPipe:=pipeInit,ipcReady:=true}

-- The first bytes of a buffer, one use each.
def run (ptr : BitVec 32) (count : Nat) (writes : Bool) : List Access :=
  (List.range count).map fun i => ⟨wrap 32 (ptr.toNat+i),writes⟩

-- `bytes` is what ring 3's addresses hold, `moved` how many bytes a pipe operation has
-- got through when one looks.
def syscallDispatch (g : Gate) (s : Sched) (bytes : Memory) (moved : Nat) (regs : Registers) : Served :=
  if regs.eax = sysWrite then
    let (ok,checked) := userStringOk g bytes regs.ebx 256
    let loads := checked.map (Access.mk · false)
    if ok = false then
      ⟨.value (-1),g,kprintf s ("[syscall] rejected bad string pointer 0x"++hexadecimal regs.ebx++"\n"),loads⟩
    else
      let (text,walked) := textFrom bytes regs.ebx.toNat 256 0
      ⟨.value 0#32,g,bufferedWrite s s.current text,loads++walked.map (Access.mk · false)⟩
  else if regs.eax = sysTicks then ⟨.value (.ofNat 32 s.ticks),g,s,[]⟩
  else if regs.eax = sysSleep then
    ⟨.value 0#32,g,taskSleep s (if 200#32 < regs.ebx then 200 else regs.ebx.toNat),[]⟩
  else if regs.eax = sysId then
    ⟨.value (if s.current = 0 then 0#32 else .ofNat 32 (s.tasks s.current).id),g,s,[]⟩
  else if regs.eax = sysPipeWrite then
    let g := ipcStart g
    if userBufferOk g regs.ebx regs.ecx = false then
      ⟨.value (-1),g,kprintf s ("[syscall] rejected bad write buffer 0x"++hexadecimal regs.ebx++" len "++
        decimal regs.ecx++"\n"),[]⟩
    else
      let data := (List.range regs.ecx.toNat).map fun i => bytes (wrap 32 (regs.ebx.toNat+i))
      ⟨.pipe (.pipeWrite data),g,s,run regs.ebx (min moved regs.ecx.toNat) false⟩
  else if regs.eax = sysPipeRead then
    let g := ipcStart g
    if userBufferOk g regs.ebx regs.ecx = false then
      ⟨.value (-1),g,kprintf s ("[syscall] rejected bad read buffer 0x"++hexadecimal regs.ebx++" len "++
        decimal regs.ecx++"\n"),[]⟩
    else ⟨.pipe (.pipeRead regs.ecx.toNat),g,s,run regs.ebx (min moved regs.ecx.toNat) true⟩
  else if regs.eax = sysExit then
    let s := syscallFlushOutput s s.current
    if s.current ≠ 0 ∧ (s.tasks s.current).onExit ≠ 0 then ⟨.terminated,g,taskTerminate s,[]⟩ else ⟨.unwound,g,s,[]⟩
  else ⟨.value (-1),g,kprintf s ("[syscall] unknown call "++decimal regs.eax++"\n"),[]⟩

section Strings
variable {g : Gate} {bytes : Memory}

theorem stringFrom_scan : stringFrom g bytes ptr left i = Sentinel.scan 32 bytes 0#8 g.userRangeEnd ptr left i := by
  induction left generalizing i with
  | zero => rfl
  | succ left ih => rw [stringFrom,Sentinel.scan,ih]

-- Which addresses user_string_ok reads, when the window ends below the top of memory: up
-- to the first NUL, the end of the window or the limit, whichever comes first.
theorem stringFrom_reads (high : g.userRangeEnd < 2^32) (low : ptr+i < 2^32) :
    addr ∈ (stringFrom g bytes ptr left i).2 ↔
      ∃ j < left,addr = ptr+i+j ∧ ptr+i+j < g.userRangeEnd ∧ ∀ k < j,bytes (ptr+i+k) ≠ 0#8 := by
  rw [stringFrom_scan]
  exact Sentinel.scan_reads high low

-- A string that passed the check is walked again over the same addresses, to its NUL.
theorem textFrom_reads (ok : (stringFrom g bytes ptr left i).1 = true) :
    (textFrom bytes ptr left i).2 = (stringFrom g bytes ptr left i).2 := by
  induction left generalizing i with
  | zero => cases ok
  | succ left ih =>
    rw [stringFrom] at ok ⊢
    rw [textFrom]
    dsimp only at ok ⊢
    split at ok
    · cases ok
    rename_i inside
    rw [if_neg inside]
    split
    · rfl
    · rename_i more
      rw [if_neg more] at ok
      rw [ih ok]

end Strings

-- What the arguments and the memory they point at say about which bytes are used.
inductive Touched (g : Gate) (bytes : Memory) (moved : Nat) (regs : Registers) : Access → Prop where
  | text : regs.eax = sysWrite → g.userRangeStart ≤ regs.ebx.toNat → i < 256 → regs.ebx.toNat+i < g.userRangeEnd →
      (∀ j < i,bytes (regs.ebx.toNat+j) ≠ 0#8) → Touched g bytes moved regs ⟨regs.ebx.toNat+i,false⟩
  | sent : regs.eax = sysPipeWrite → userBufferOk g regs.ebx regs.ecx = true → i < regs.ecx.toNat → i < moved →
      Touched g bytes moved regs ⟨regs.ebx.toNat+i,false⟩
  | received : regs.eax = sysPipeRead → userBufferOk g regs.ebx regs.ecx = true → i < regs.ecx.toNat → i < moved →
      Touched g bytes moved regs ⟨regs.ebx.toNat+i,true⟩

theorem userBufferOk_parts (ok : userBufferOk g ptr length = true) (high : g.userRangeEnd < 2^32) :
    g.userRangeStart ≤ ptr.toNat ∧ 0 < length.toNat ∧ ptr.toNat+length.toNat ≤ g.userRangeEnd := by
  unfold userBufferOk at ok
  split at ok
  · cases ok
  rename_i sane
  split at ok
  · cases ok
  split at ok
  · cases ok
  split at ok
  · cases ok
  have small : length.toNat ≤ 4096 := by
    rw [BitVec.lt_def] at sane
    simp only [not_or,not_lt] at sane
    exact sane.2
  have positive : 0 < length.toNat := by
    rcases Nat.eq_zero_or_pos length.toNat with zero | positive
    · exact absurd (.inl (BitVec.eq_of_toNat_eq zero)) sane
    · exact positive
  have := ptr.isLt
  simp only [wrap] at *
  omega

theorem run_mem (inside : ptr.toNat+length ≤ 2^32) :
    x ∈ run ptr (min moved length) writes ↔ ∃ i,i < length ∧ i < moved ∧ x = ⟨ptr.toNat+i,writes⟩ := by
  simp only [run,List.mem_map,List.mem_range]
  constructor
  · rintro ⟨i,below,rfl⟩
    exact ⟨i,by omega,by omega,by rw [wrap_small (by omega)]⟩
  · rintro ⟨i,below,delivered,rfl⟩
    exact ⟨i,by omega,by rw [wrap_small (by omega)]⟩

theorem ipcStart_range (g : Gate) :
    (ipcStart g).userRangeStart = g.userRangeStart ∧ (ipcStart g).userRangeEnd = g.userRangeEnd := by
  unfold ipcStart
  split
  · exact ⟨rfl,rfl⟩
  · exact ⟨rfl,rfl⟩

theorem ipcStart_ok (g : Gate) (ptr length : BitVec 32) : userBufferOk (ipcStart g) ptr length = userBufferOk g ptr length := by
  obtain ⟨start,end_⟩ := ipcStart_range g
  rw [userBufferOk,userBufferOk,start,end_]

section Dispatch
variable {g : Gate} {s : Sched} {bytes : Memory} {moved : Nat} {regs : Registers} {x : Access}

theorem write_touched (call : regs.eax = sysWrite) :
    x ∈ (syscallDispatch g s bytes moved regs).accesses ↔ x.writes = false ∧ x.addr ∈ (userStringOk g bytes regs.ebx 256).2 := by
  have loads (addrs : List Nat) : x ∈ addrs.map (Access.mk · false) ↔ x.writes = false ∧ x.addr ∈ addrs := by
    obtain ⟨addr,writes⟩ := x
    cases writes <;> simp
  unfold syscallDispatch
  rw [if_pos call]
  generalize passed : userStringOk g bytes regs.ebx 256 = answer
  obtain ⟨ok,checked⟩ := answer
  dsimp only
  cases ok with
  | false => exact loads checked
  | true =>
    have again : (textFrom bytes regs.ebx.toNat 256 0).2 = checked := by
      unfold userStringOk at passed
      split at passed
      · cases passed
      · rw [textFrom_reads (g:=g) (by rw [passed]),passed]
    rw [if_neg (by decide),again,List.mem_append,loads]
    exact or_self_iff

theorem userString_reads (high : g.userRangeEnd < 2^32) : addr ∈ (userStringOk g bytes ptr 256).2 ↔
    g.userRangeStart ≤ ptr.toNat ∧ ∃ i < 256,addr = ptr.toNat+i ∧ ptr.toNat+i < g.userRangeEnd ∧
      ∀ j < i,bytes (ptr.toNat+j) ≠ 0#8 := by
  unfold userStringOk
  by_cases outside : ptr.toNat < g.userRangeStart ∨ g.userRangeEnd ≤ ptr.toNat
  · rw [if_pos outside]
    constructor
    · nofun
    · rintro ⟨above,i,_,_,inside,_⟩
      omega
  · have low : ptr.toNat+0 < 2^32 := ptr.isLt
    rw [if_neg outside,stringFrom_reads high low]
    simp only [Nat.add_zero]
    exact ⟨fun reads => ⟨by omega,reads⟩,And.right⟩

theorem pipe_touched (writes : Bool) (call : regs.eax = if writes then sysPipeRead else sysPipeWrite) (high : g.userRangeEnd < 2^32) :
    x ∈ (syscallDispatch g s bytes moved regs).accesses ↔ userBufferOk g regs.ebx regs.ecx = true ∧
      ∃ i < regs.ecx.toNat,i < moved ∧ x = ⟨regs.ebx.toNat+i,writes⟩ := by
  have served : (syscallDispatch g s bytes moved regs).accesses =
      if userBufferOk g regs.ebx regs.ecx = false then [] else run regs.ebx (min moved regs.ecx.toNat) writes := by
    unfold syscallDispatch
    rw [call]
    cases writes <;>
    · simp only [sysWrite,sysTicks,sysSleep,sysId,sysPipeWrite,sysPipeRead,reduceIte,BitVec.reduceEq,Bool.false_eq_true,
        ipcStart_ok]
      split <;> rfl
  rw [served]
  by_cases ok : userBufferOk g regs.ebx regs.ecx = true
  · obtain ⟨_,_,inside⟩ := userBufferOk_parts ok high
    rw [if_neg (by rw [ok]; decide),run_mem (by omega)]
    exact ⟨fun found => ⟨ok,found⟩,And.right⟩
  · rw [if_pos (by simpa using ok)]
    exact ⟨nofun,fun found => absurd found.1 ok⟩

theorem other_touched (write : regs.eax ≠ sysWrite) (send : regs.eax ≠ sysPipeWrite) (receive : regs.eax ≠ sysPipeRead) :
    (syscallDispatch g s bytes moved regs).accesses = [] := by
  unfold syscallDispatch
  simp only [if_neg write,if_neg send,if_neg receive]
  split
  · rfl
  split
  · rfl
  split
  · rfl
  split
  · split
    · rfl
    · rfl
  · rfl

-- The dispatcher uses exactly the bytes that its arguments say.
theorem accesses_touched (high : g.userRangeEnd < 2^32) :
    x ∈ (syscallDispatch g s bytes moved regs).accesses ↔ Touched g bytes moved regs x := by
  obtain ⟨addr,writes⟩ := x
  by_cases write : regs.eax = sysWrite
  · rw [write_touched write,userString_reads high]
    constructor
    · rintro ⟨rfl,start,i,below,rfl,inside,before⟩
      exact .text write start below inside before
    · intro touched
      cases touched with
      | text _ start below inside before => exact ⟨rfl,start,_,below,rfl,inside,before⟩
      | sent call => exact absurd (write.symm.trans call) (by decide)
      | received call => exact absurd (write.symm.trans call) (by decide)
  by_cases send : regs.eax = sysPipeWrite
  · rw [pipe_touched false send high]
    constructor
    · rintro ⟨ok,i,below,reached,same⟩
      cases same
      exact .sent send ok below reached
    · intro touched
      cases touched with
      | text call => exact absurd call write
      | sent _ ok below reached => exact ⟨ok,_,below,reached,rfl⟩
      | received call => exact absurd (send.symm.trans call) (by decide)
  by_cases receive : regs.eax = sysPipeRead
  · rw [pipe_touched true receive high]
    constructor
    · rintro ⟨ok,i,below,reached,same⟩
      cases same
      exact .received receive ok below reached
    · intro touched
      cases touched with
      | text call => exact absurd call write
      | sent call => exact absurd call send
      | received _ ok below reached => exact ⟨ok,_,below,reached,rfl⟩
  rw [other_touched write send receive]
  constructor
  · nofun
  · intro touched
    cases touched with
    | text call => exact absurd call write
    | sent call => exact absurd call send
    | received call => exact absurd call receive

theorem touched_window (high : g.userRangeEnd < 2^32) (touched : Touched g bytes moved regs x) :
    g.userRangeStart ≤ x.addr ∧ x.addr < g.userRangeEnd := by
  cases touched with
  | text _ start _ inside _ => exact ⟨by dsimp only; omega,inside⟩
  | sent _ ok below _ =>
    obtain ⟨start,_,inside⟩ := userBufferOk_parts ok high
    dsimp only
    omega
  | received _ ok below _ =>
    obtain ⟨start,_,inside⟩ := userBufferOk_parts ok high
    dsimp only
    omega

end Dispatch

end Arthic.Syscalls
