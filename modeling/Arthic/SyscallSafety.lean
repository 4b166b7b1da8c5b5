import Arthic.LoadedImage
import Arthic.Usermode

namespace Arthic.SyscallSafety
open AddressSpaces ByteMemory FileSystem LoadedImage Loader PageTree PageTables Paging Pmm Scheduler Syscalls Unsigned Usermode
variable {m now : Mmu}

-- The window program_task sets.
def programGate (g : Gate) : Gate := syscallSetUserRange g userLoadAddr userStackTop

theorem window_index (above : userLoadAddr ≤ v) (below : v < userStackTop) :
    v < 2^32 ∧ pdptIndex v = pdptIndex stackBottom ∧ pdIndex v = pdIndex stackBottom := by
  simp only [userLoadAddr,userStackTop,pdptIndex,pdIndex,stackBottom,userStackSize,tableEntries] at *
  omega

theorem same_directory (lowV : v < 2^32) (lowW : w < 2^32) (top : pdptIndex v = pdptIndex w) (middle : pdIndex v = pdIndex w)
    (first : walk mem root v = some p) (second : walk mem root w = some q) : p.directory = q.directory := by
  obtain ⟨pd,_,one,_,_,rfl⟩ := (walk_iff lowV).mp first
  obtain ⟨pd',_,other,_,_,rfl⟩ := (walk_iff lowW).mp second
  rw [top] at one
  cases held_unique one other
  dsimp only
  rw [middle]

theorem directory_writable (broad : Broad mem root) (low : v < 2^32) (found : walk mem root v = some page) :
    has page.directory pageWrite = true := by
  obtain ⟨pd,pt,one,two,_,rfl⟩ := (walk_iff low).mp found
  have middle := (index_bounds low).2.1
  exact broad _ _ _ one middle (held_present two middle one)

-- page_fault_handler of paging.c: what it prints and where it goes from there.
inductive FaultEnd where
  | resumed (eip : Nat)
  | terminated
  | unwound
  | halted
  deriving DecidableEq

structure Fault where
  errCode : BitVec 32
  address : BitVec 32
  eip : BitVec 32

def Fault.bit (f : Fault) (mask : BitVec 32) : Bool := (f.errCode &&& mask) != 0#32

def pageFaultHandler (faultResumeEip : Nat) (onExit : Bool) (f : Fault) : String × FaultEnd :=
  let present := f.bit 1#32
  let write := f.bit 2#32
  let user := f.bit 4#32
  let reserved := f.bit 8#32
  let fetch := f.bit 16#32
  if faultResumeEip ≠ 0 then ("",.resumed faultResumeEip)
  else if user then
    ("\n*** program terminated: "++(if fetch then "tried to execute non-executable memory"
      else if present then (if write then "wrote to read-only memory" else "protection violation")
      else "touched unmapped memory")++" at 0x"++hexadecimal f.address++" (eip 0x"++hexadecimal f.eip++")\n",
      if onExit then .terminated else .unwound)
  else
    ("\n*** PAGE FAULT at 0x"++hexadecimal f.address++"\n    eip=0x"++hexadecimal f.eip++"  cause: "++
      (if present then "protection violation" else "page not present")++", "++
      (if fetch then "instruction fetch" else if write then "write" else "read")++", "++
      (if user then "ring 3" else "ring 0")++(if reserved then ", reserved bit set" else "")++"\n    system halted.\n",
      .halted)

-- The error code of an access from ring 0, none when there is no fault. CR0.WP is set.
def kernelFault (mem : Memory) (pdpt : Nat) (x : Access) : Option (BitVec 32) :=
  match walk mem pdpt x.addr with
  | none => some (if x.writes then 2#32 else 0#32)
  | some page => if x.writes = true ∧ page.writable = false then some 3#32 else none

def Halts (mem : Memory) (pdpt : Nat) (x : Access) : Prop :=
  ∃ code,kernelFault mem pdpt x = some code ∧ ∀ onExit address eip,(pageFaultHandler 0 onExit ⟨code,address,eip⟩).2 = .halted

-- What is asked of memory when ring 0 uses an address for ring 3.
def Permitted (mem : Memory) (pdpt : Nat) (x : Access) : Prop :=
  ∃ page,walk mem pdpt x.addr = some page ∧ (x.writes = true → page.writable = true)

theorem fault_halts (faulted : kernelFault mem pdpt x = some code) : Halts mem pdpt x := by
  refine ⟨code,faulted,fun onExit address eip => ?_⟩
  have ring : Fault.bit ⟨code,address,eip⟩ 4#32 = false := by
    unfold kernelFault at faulted
    split at faulted
    · cases Option.some.inj faulted
      split
      · simp [Fault.bit]
      · simp [Fault.bit]
    · split at faulted
      · cases Option.some.inj faulted
        simp [Fault.bit]
      · cases faulted
  unfold pageFaultHandler
  simp [ring]

-- There is nothing in between: an access is permitted or the machine stops.
theorem permitted_or_halts (mem : Memory) (pdpt : Nat) (x : Access) : Permitted mem pdpt x ↔ ¬ Halts mem pdpt x := by
  constructor
  · rintro ⟨page,found,allowed⟩ ⟨code,faulted,_⟩
    rw [kernelFault,found] at faulted
    dsimp only at faulted
    split at faulted
    · rename_i both
      rw [allowed both.1] at both
      cases both.2
    · cases faulted
  · intro safe
    cases faulted : kernelFault mem pdpt x with
    | some code => exact absurd (fault_halts faulted) safe
    | none =>
      unfold kernelFault at faulted
      split at faulted
      · cases faulted
      · rename_i page found
        refine ⟨page,found,fun writes => ?_⟩
        by_contra refused
        rw [if_pos ⟨writes,by simpa using refused⟩] at faulted
        cases faulted

-- The same, said of the file: the page was asked for, writable if it is to be written, or
-- it was not and the kernel has one there.
def Usable (m : Mmu) (requests : List Request) (x : Access) : Prop :=
  match granted requests (x.addr/pageSize) with
  | some flags => x.writes = true → has flags pageWrite = true
  | none => ∃ page,inherited m x.addr = some page ∧ (x.writes = true → has page.leaf pageWrite = true)

theorem laid_permitted (laid : Laid (inherited m) now requests) (low : x.addr < 2^32) :
    Permitted now.mem now.active x ↔ Usable m requests x := by
  have writable (page : Page) (found : walk now.mem now.active x.addr = some page) :
      page.writable = has page.leaf pageWrite := by
    rw [Page.writable,directory_writable laid.broad low found,Bool.true_and]
  unfold Permitted Usable
  cases asked : granted requests (x.addr/pageSize) with
  | some flags =>
    obtain ⟨page,found,_,write,_⟩ := laid.asked _ low flags asked
    constructor
    · rintro ⟨other,same,allowed⟩
      rw [writable other same] at allowed
      cases Option.some.inj (found.symm.trans same)
      rwa [write] at allowed
    · intro allowed
      refine ⟨page,found,?_⟩
      rwa [writable page found,write]
  | none =>
    have same := laid.rest _ low asked
    constructor
    · rintro ⟨page,found,allowed⟩
      rw [writable page found] at allowed
      rw [found,Option.map_some] at same
      obtain ⟨old,there,leaf⟩ := Option.map_eq_some_iff.mp same.symm
      exact ⟨old,there,by rwa [leaf]⟩
    · rintro ⟨old,there,allowed⟩
      rw [there,Option.map_some] at same
      obtain ⟨page,found,leaf⟩ := Option.map_eq_some_iff.mp same
      refine ⟨page,found,?_⟩
      rwa [writable page found,leaf]

theorem requests_user (file : Memory) (prog : Program) (member : r ∈ imageRequests file prog) : has r.2 pageUser = true := by
  unfold imageRequests at member
  rw [List.mem_append,List.mem_append] at member
  rcases member with (header | stack) | args
  · obtain ⟨i,_,inside⟩ := List.mem_flatMap.mp header
    dsimp only at inside
    split at inside
    · obtain ⟨_,_,rfl⟩ := List.mem_map.mp inside
      exact (flags_parts _).2
    · cases inside
  · obtain ⟨_,_,rfl⟩ := List.mem_map.mp stack
    exact (by decide : has stackFlags pageUser = true)
  · unfold argsRequests at args
    split at args
    · cases args
    · cases List.mem_singleton.mp args
      decide

-- Ring 3 may use what was asked for; of the rest, what the kernel itself has opened.
def Opened (m : Mmu) (requests : List Request) (v : Nat) : Prop :=
  (granted requests (v/pageSize)).isSome = true ∨ ∀ page,inherited m v = some page → has page.leaf pageUser = true

theorem laid_user (laid : Laid (inherited m) now (imageRequests file prog)) (above : userLoadAddr ≤ v) (below : v < userStackTop) :
    (∀ page,walk now.mem now.active v = some page → page.user = true) ↔ Opened m (imageRequests file prog) v := by
  obtain ⟨low,top,middle⟩ := window_index above below
  obtain ⟨stack,_,standing,wide,_⟩ := stack_there laid (granted_stack _ prog)
  have user (page : Page) (found : walk now.mem now.active v = some page) : page.user = has page.leaf pageUser := by
    rw [Page.user,same_directory low (by decide) top middle found standing,wide,Bool.true_and]
  unfold Opened
  cases asked : granted (imageRequests file prog) (v/pageSize) with
  | some flags =>
    obtain ⟨page,found,leaf,_⟩ := laid.asked _ low flags asked
    obtain ⟨r,member,_,rfl⟩ := granted_mem asked
    constructor
    · exact fun _ => .inl rfl
    · intro _ other same
      rw [user other same]
      cases Option.some.inj (found.symm.trans same)
      rw [leaf,requests_user file prog member]
  | none =>
    have same := laid.rest _ low asked
    constructor
    · intro all
      refine .inr fun old there => ?_
      rw [there,Option.map_some] at same
      obtain ⟨page,found,leaf⟩ := Option.map_eq_some_iff.mp same
      rw [←leaf,←user page found]
      exact all page found
    · rintro (nothing | all) page found
      · cases nothing
      · rw [found,Option.map_some] at same
        obtain ⟨old,there,leaf⟩ := Option.map_eq_some_iff.mp same.symm
        rw [user page found,←leaf]
        exact all old there

-- The address space a started program has, and the calls it makes there.
theorem started_laid (kernel : KernelSpace k.mmu) (free : freeSlot k = some slot) (read : fileIn k name = some (size,file))
    (fits : CopiesFit file) (run : (loaderRun k name args).1 = true) :
    ∃ now,Laid (inherited k.mmu) now (imageRequests file ((loaderRun k name args).2.programs slot)) ∧
      now.mem = (loaderRun k name args).2.mem ∧ now.active = ((loaderRun k name args).2.programs slot).pageDir ∧
      now.nxSupported = k.mmu.nxSupported := by
  obtain ⟨other,length,contents,prog,free',read',started⟩ := loaderRun_parts run
  cases Option.some.inj (free.symm.trans free')
  cases Option.some.inj (read.symm.trans read')
  obtain ⟨laid,nx⟩ := loadImage_laid kernel fits started.loaded
  have requests : imageRequests file ((loaderRun k name args).2.programs slot) = imageRequests file prog := by
    rw [imageRequests,imageRequests,argsRequests,argsRequests,started.argsPhys]
  rw [requests]
  exact ⟨_,laid,started.mem.symm,started.dir.symm,nx⟩

theorem program_confined (kernel : KernelSpace k.mmu) (free : freeSlot k = some slot) (read : fileIn k name = some (size,file))
    (fits : CopiesFit file) (run : (loaderRun k name args).1 = true) :
    Confined (loaderRun k name args).2.mem ((loaderRun k name args).2.programs slot).pageDir
        (syscallDispatch (programGate g) s bytes moved regs).accesses ↔
      ∀ x,Touched (programGate g) bytes moved regs x →
        Opened k.mmu (imageRequests file ((loaderRun k name args).2.programs slot)) x.addr := by
  obtain ⟨now,laid,mem,active,_⟩ := started_laid kernel free read fits run
  have high : (programGate g).userRangeEnd < 2^32 := (by decide : userStackTop < 2^32)
  unfold Confined
  rw [←mem,←active]
  refine forall_congr' fun x => ?_
  rw [accesses_touched high]
  refine forall_congr' fun touched => ?_
  obtain ⟨above,below⟩ := touched_window high touched
  exact laid_user laid above below

-- Where the identity map ends at or below the window, nothing there is the kernel's.
theorem low_memory_confined (few : k.kernelPdEntries ≤ pdIndex userLoadAddr) (kernel : KernelSpace k.mmu)
    (free : freeSlot k = some slot) (read : fileIn k name = some (size,file)) (fits : CopiesFit file)
    (run : (loaderRun k name args).1 = true) :
    Confined (loaderRun k name args).2.mem ((loaderRun k name args).2.programs slot).pageDir
      (syscallDispatch (programGate g) s bytes moved regs).accesses := by
  refine (program_confined kernel free read fits run).mpr fun x touched => .inr fun page found => ?_
  obtain ⟨above,below⟩ := touched_window (g:=programGate g) (by decide : userStackTop < 2^32) touched
  have middle : pdIndex x.addr = pdIndex userLoadAddr := (window_index above below).2.2.trans (by decide)
  have outside : ¬ (pdptIndex x.addr = 0 ∧ pdIndex x.addr < k.mmu.kernelPdEntries) := by
    rintro ⟨_,inside⟩
    change _ < k.kernelPdEntries at inside
    omega
  rw [inherited,if_neg outside] at found
  cases found

-- The configurations in which ring 3 runs, each with the addresses of its window that it
-- may have the kernel use: usermode_init's, and program_task's for a program that was
-- started.
inductive Configured : Memory → Nat → Gate → (Nat → Prop) → Prop where
  | demo : kernelMain image memory mem mbi nx heap = some (demo,kept) →
      Configured demo.mmu.mem demo.mmu.active demo.gate fun v => demo.mmu.mappedLimit ≤ v ∨
        image.userTextStart ≤ v ∧ v < image.userTextEnd ∨ demo.userStackBase ≤ v ∧ v < demo.userStackTop
  | program : KernelSpace k.mmu → freeSlot k = some slot → fileIn k name = some (size,file) → CopiesFit file →
      (loaderRun k name args).1 = true →
      Configured (loaderRun k name args).2.mem ((loaderRun k name args).2.programs slot).pageDir (programGate g)
        (Opened k.mmu (imageRequests file ((loaderRun k name args).2.programs slot)))

-- A machine of 640 frames once it is up: two identity tables, the heap at 0x108000, the
-- shell's task, and a disk with one program of four bytes on one page of text.
def bootFrames : Pmm.State 32 :=
  ⟨fun word => if word < 16 then 0xFFFFFFFF#32 else if word = 16 then 0x3FF#32 else 0#32,640,522⟩

def identityMem : Memory := fun x =>
  if 0x106000 ≤ x ∧ x < 0x108000 then digit ((x-0x106000)/8*pageSize+3) (x % 8) else 0#8

def bootMem : Memory :=
  setEntry (setEntry (setEntry identityMem 0x103000 0 0x104001#64) 0x104000 0 0x106003#64) 0x104000 1 0x107003#64

def bootHeap : Kheap.Heap :=
  Kheap.put .i386 (Kheap.put .i386 (Kheap.put .i386 ⟨fun _ => 0#8,0x108000,Kheap.heapSize⟩ 0x108000 .magic Kheap.blockMagic)
    0x108000 .size (Kheap.heapSize-Kheap.headerSize .i386)) 0x108000 .free 1

def tinyElf : Memory :=
  [(0,4,0x464C457F),(4,1,1),(5,1,1),(16,2,2),(18,2,3),(24,4,0x20000000),(28,4,52),(42,2,32),(44,2,1),(52,4,1),(56,4,84),
    (60,4,0x20000000),(68,4,4),(72,4,4),(76,4,5),(84,4,0xFEEB)].foldl (fun m (addr,width,value) => store m addr width value)
    fun _ => 0#8

def tinyDisk : Fs :=
  ⟨⟨true,40,fun _ => true,fun _ => true,fun lba => if lba = 18 then tinyElf else fun _ => 0#8,[]⟩,⟨fsMagic,22,18,64⟩,true,
    fun word => if word = 0 then 1#8 else 0#8,ByteMemory.store (ByteMemory.store (ByteMemory.store (fun _ => 0#8) 0 1 0x70) 32 4 88) 36 4 1⟩

def bootSched : Sched :=
  taskInit ⟨fun _ => {},0,0,0,false,0,0,bootHeap,bootFrames,[],0,0,0,[],0,[]⟩ 0x90000

def bootKernel : Kernel := ⟨bootSched,smallImage,bootMem,0x400000,2,true,tinyDisk,fun _ => {}⟩
def tinyName : CString := ⟨[0x70#8],by decide⟩

-- The kernel's tables there, whatever else is taken.
theorem boot_space {frames : Pmm.State 32} (sound : Sound frames) (low : ∀ n < 0x108,frameTest frames n = true) (active : Nat) :
    KernelSpace ⟨smallImage,bootMem,frames,active,0x400000,2,true⟩ := by
  have top : next pae bootMem 0x103000 0 = some 0x104000 := by decide
  have rest : ∀ i < pdptEntries,0 < i → next pae bootMem 0x103000 i = none := by decide
  have tables : ∀ j < tableEntries,next pae bootMem 0x104000 j =
      if j = 0 then some 0x106000 else if j = 1 then some 0x107000 else none := by decide +kernel
  have broad : ∀ j < tableEntries,has (entry bootMem 0x104000 j) pagePresent = true →
      has (entry bootMem 0x104000 j) pageWrite = true := by decide +kernel
  have taken (addr : Nat) (below : addr < 0x108000) : Taken frames addr :=
    .inr (low _ (by simp only [pageSize]; omega))
  have few : 2 ≤ tableEntries := by decide
  refine kernel_one ?_ top (fun i later low => rest i low later) broad few
  refine @one_directory ⟨smallImage,bootMem,frames,active,0x400000,2,true⟩ 0x103000 0x104000 bootMem frames sound
    (by decide) (by decide) (by decide) (by decide) ⟨taken _ (by decide),taken _ (by decide)⟩ top (fun i later low => rest i low later) ?_ ?_
  · intro j low pt leads
    rw [tables j low] at leads
    split at leads
    · cases Option.some.inj leads
      exact ⟨by decide,taken _ (by decide),by decide,by decide⟩
    split at leads
    · cases Option.some.inj leads
      exact ⟨by decide,taken _ (by decide),by decide,by decide⟩
    · cases leads
  · intro j low l lowToo pt one two
    rw [tables j low] at one
    rw [tables l lowToo] at two
    split at one
    · split at two
      · omega
      split at two
      · cases Option.some.inj (one.trans two.symm)
      · cases two
    split at one
    · split at two
      · cases Option.some.inj (one.trans two.symm)
      split at two
      · omega
      · cases two
    · cases one

theorem boot_kernelSpace : KernelSpace bootKernel.mmu :=
  @boot_space bootFrames (sound_below bootFrames (by decide) (by decide) (by decide) (by decide +kernel)) (by decide +kernel) _

theorem tiny_read : (fileIn bootKernel tinyName).isSome = true := by decide

def tinyFile : Nat × Memory := (fileIn bootKernel tinyName).get tiny_read

theorem tiny_found : fileIn bootKernel tinyName = some (tinyFile.1,tinyFile.2) := (Option.some_get tiny_read).symm

instance (ph : ProgramHeader) : Decidable (CopyFits ph) := inferInstanceAs (Decidable (_ ≤ _))
instance (file : Memory) : Decidable (CopiesFit file) := inferInstanceAs (Decidable (∀ i < elfPhnum file,_ → _))

-- Its run, worked out once: it starts, its one page is text, and elsewhere in the window
-- nothing is mapped.
theorem tiny_ran : (loaderRun bootKernel tinyName none).1 = true ∧ CopiesFit tinyFile.2 ∧
    granted (imageRequests tinyFile.2 ((loaderRun bootKernel tinyName none).2.programs 0)) 0x20000 =
      some (pagePresent ||| pageUser) ∧
    kernelFault (loaderRun bootKernel tinyName none).2.mem ((loaderRun bootKernel tinyName none).2.programs 0).pageDir
      ⟨0x20050000,false⟩ = some 0#32 := by decide +kernel

theorem tiny_runs : (loaderRun bootKernel tinyName none).1 = true := tiny_ran.1
theorem tiny_fits : CopiesFit tinyFile.2 := tiny_ran.2.1

theorem tiny_text : granted (imageRequests tinyFile.2 ((loaderRun bootKernel tinyName none).2.programs 0)) 0x20000 =
    some (pagePresent ||| pageUser) := tiny_ran.2.2.1

-- The first four bytes of the program, sent to the pipe.
def tinyCall : Registers := ⟨sysPipeWrite,0x20000000#32,4#32⟩

theorem tiny_touched (touched : Touched (programGate {}) (fun _ => 0#8) 4 tinyCall x) :
    x.addr/pageSize = 0x20000 ∧ x.writes = false := by
  cases touched with
  | text call => exact absurd call (by decide)
  | @sent i _ _ below _ =>
    have small : i < 4 := below
    refine ⟨?_,rfl⟩
    change (0x20000000+i)/4096 = 0x20000
    omega
  | received call => exact absurd call (by decide)

-- The demo on a machine of 272 frames: its window runs from the text at 0x101000 to the
-- top of the stack at 0x109000.
def demoMap : MultibootInfo := ⟨0x40#32,[⟨0x100000#64,0x10000#64,1#32⟩]⟩
def noHeap : Kheap.Heap := ⟨fun _ => 0#8,0,0⟩
def demoBoot : Option (Demo × Kheap.Heap) := kernelMain smallImage (fun _ => 0#32) (fun _ => 0#8) demoMap true noHeap

theorem demo_window : demoBoot.map (fun r => (r.1.gate.userRangeStart,r.1.gate.userRangeEnd,r.1.mmu.mappedLimit,
    r.1.userStackBase)) = some (0x101000,0x109000,0x200000,0x107000) := by decide +kernel

end Arthic.SyscallSafety
