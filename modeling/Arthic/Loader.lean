import Arthic.FileSystem
import Arthic.Paging
import Arthic.Scheduler

namespace Arthic.Loader
open ByteMemory FileSystem PageTree Paging Pmm Scheduler Unsigned

def userLoadAddr : Nat := 0x20000000
def userStackTop : Nat := 0x20200000
def userStackSize : Nat := 8192
def userArgsAddr : Nat := 0x20100000
def userArgsMax : Nat := 256
def maxProgram : Nat := 64*1024
def maxSegments : Nat := 8
def maxPrograms : Nat := 4

def ptLoad : BitVec 32 := 1#32
def pfX : BitVec 32 := 1#32
def pfW : BitVec 32 := 2#32

-- struct elf_program_header, less paddr and align, which nothing reads.
structure ProgramHeader where
  type : BitVec 32
  offset : BitVec 32
  vaddr : BitVec 32
  filesz : BitVec 32
  memsz : BitVec 32
  flags : BitVec 32

def programHeader (file : Memory) (start : Nat) : ProgramHeader :=
  ⟨.ofNat 32 (load file start 4),.ofNat 32 (load file (start+4) 4),.ofNat 32 (load file (start+8) 4),
    .ofNat 32 (load file (start+16) 4),.ofNat 32 (load file (start+20) 4),.ofNat 32 (load file (start+24) 4)⟩

-- struct elf_header, as far as loader_run looks at it.
def elfHeaderSize : Nat := 52
def elfEntry (file : Memory) : Nat := load file 24 4
def elfPhoff (file : Memory) : Nat := load file 28 4
def elfPhentsize (file : Memory) : Nat := load file 42 2
def elfPhnum (file : Memory) : Nat := load file 44 2

def isElf (file : Memory) : Bool := file 0 == 0x7F#8 && file 1 == 0x45#8 && file 2 == 0x4C#8 && file 3 == 0x46#8
def isExecutable386 (file : Memory) : Bool :=
  file 4 == 1#8 && file 5 == 1#8 && load file 16 2 == 2 && load file 18 2 == 3
def headersFit (file : Memory) (size : Nat) : Bool :=
  wrap 32 (elfPhoff file+elfPhnum file*elfPhentsize file) ≤ size

def flagsForSegment (elfFlags : BitVec 32) : Entry :=
  let flags := pagePresent ||| pageUser
  let flags := if elfFlags &&& pfW = 0#32 then flags else flags ||| pageWrite
  if elfFlags &&& pfX = 0#32 then flags ||| pageNx else flags

structure Segment where
  vaddr : Nat
  phys : Nat
  pages : Nat

-- struct program. `segments` is the used part of its array; the name is never set.
structure Program where
  pageDir : Nat := 0
  entry : Nat := 0
  segments : List Segment := []
  stackPhys : Nat := 0
  argsPhys : Nat := 0
  inUse : Bool := false

namespace ProgramHeader
variable (ph : ProgramHeader)
def pageStart : Nat := roundDown ph.vaddr.toNat
def within : Nat := ph.vaddr.toNat-ph.pageStart
def pages : Nat := wrap 32 (ph.within+ph.memsz.toNat+pageSize-1)/pageSize
end ProgramHeader

def mapRun (m : Mmu) (start phys : Nat) (flags : Entry) : List Nat → Bool × Mmu
  | [] => (true,m)
  | i::rest =>
    let (mapped,m) := pagingMap m (wrap 32 (start+i*pageSize)) (wrap 32 (phys+i*pageSize)) flags
    if mapped = true then mapRun m start phys flags rest else (false,m)

def freeRun (frames : State 32) (phys pages : Nat) : State 32 :=
  (List.range pages).foldl (fun frames i => pmmFreeFrame frames (wrap 32 (phys+i*pageSize))) frames

-- What load_segment checks before it asks for memory.
def acceptable (prog : Program) (fileSize : Nat) (ph : ProgramHeader) : Bool :=
  ph.pages != 0 && prog.segments.length < maxSegments && ph.filesz.toNat ≤ ph.memsz.toNat &&
  ph.offset.toNat ≤ fileSize && ph.filesz.toNat ≤ fileSize-ph.offset.toNat &&
  userLoadAddr ≤ ph.vaddr.toNat && wrap 32 (ph.vaddr.toNat+ph.memsz.toNat) ≤ userStackTop

-- kmemset over the frames, then kmemcpy of what the file has.
def copySegment (mem : Memory) (phys : Nat) (file : Memory) (ph : ProgramHeader) : Memory :=
  patch (fill mem phys (ph.pages*pageSize) 0#8) (phys+ph.within) ph.filesz.toNat fun k => file (ph.offset.toNat+k)

def loadSegment (m : Mmu) (prog : Program) (file : Memory) (fileSize : Nat) (ph : ProgramHeader) :
    Bool × Program × Mmu :=
  if acceptable prog fileSize ph = false then (false,prog,m) else
  let (phys,frames) := pmmAllocFrames m.frames ph.pages
  let m := {m with frames:=frames}
  if phys = 0 then (false,prog,m) else
  let m := {m with mem:=copySegment m.mem phys file ph}
  let (mapped,m) := mapRun m ph.pageStart phys (flagsForSegment ph.flags) (List.range ph.pages)
  if mapped = false then (false,prog,{m with frames:=freeRun m.frames phys ph.pages}) else
  (true,{prog with segments:=prog.segments++[⟨ph.pageStart,phys,ph.pages⟩]},m)

-- Everything a program has is given back; its record is then as good as new.
def unload (m : Mmu) (prog : Program) : Mmu :=
  let frames := prog.segments.foldl (fun frames segment => freeRun frames segment.phys segment.pages) m.frames
  let frames := if prog.argsPhys = 0 then frames else pmmFreeFrame frames prog.argsPhys
  let frames := if prog.stackPhys = 0 then frames else freeRun frames prog.stackPhys (userStackSize/pageSize)
  let m := {m with frames:=frames}
  if prog.pageDir = 0 then m else pagingDestroyAddressSpace m prog.pageDir

def loadHeaders (m : Mmu) (prog : Program) (file : Memory) (size phoff phentsize : Nat) :
    List Nat → Bool × Program × Mmu
  | [] => (true,prog,m)
  | i::rest =>
    let ph := programHeader file (phoff+i*phentsize)
    if ph.type ≠ ptLoad then loadHeaders m prog file size phoff phentsize rest else
    let (loaded,prog,m) := loadSegment m prog file size ph
    if loaded = true then loadHeaders m prog file size phoff phentsize rest else (false,prog,m)

def stackBottom : Nat := userStackTop-userStackSize
def stackFlags : Entry := pagePresent ||| pageUser ||| pageWrite ||| pageNx
def argsFlags : Entry := pagePresent ||| pageUser ||| pageNx

def loadStack (m : Mmu) (prog : Program) : Bool × Program × Mmu :=
  let (phys,frames) := pmmAllocFrames m.frames (userStackSize/pageSize)
  let m := {m with frames:=frames}
  if phys = 0 then (false,prog,m) else
  let m := {m with mem:=fill m.mem phys userStackSize 0#8}
  let (mapped,m) := mapRun m stackBottom phys stackFlags (List.range (userStackSize/pageSize))
  (mapped,{prog with stackPhys:=phys},m)

-- The argument string, cut to what fits, in a page of zeros. A program runs without one
-- when there is no frame for it.
def loadArgs (m : Mmu) (prog : Program) (args : Option CString) : Program × Mmu :=
  let (phys,frames) := pmmAllocFrame m.frames
  let m := {m with frames:=frames}
  if phys = 0 then (prog,m) else
  let text := (args.elim [] CString.bytes).take (userArgsMax-1)
  let m := {m with mem:=patch (fill m.mem phys pageSize 0#8) phys text.length fun k => text.getD k 0#8}
  ({prog with argsPhys:=phys},(pagingMap m userArgsAddr phys argsFlags).2)

-- loader_run from the new address space to the switch back, and none when it gave up and
-- undid what it had done. kfree of the file happens on the way; it touches none of this.
def loadImage (m : Mmu) (file : Memory) (size : Nat) (args : Option CString) : Option Program × Mmu :=
  let (dir,m) := pagingCreateAddressSpace m
  if dir = 0 then (none,m) else
  let saved := pagingKernelDirectory m
  let m := pagingSwitch m dir
  let (loaded,prog,m) := loadHeaders m {pageDir:=dir} file size (elfPhoff file) (elfPhentsize file)
    (List.range (elfPhnum file))
  if loaded = false ∨ prog.segments = [] then (none,unload (pagingSwitch m saved) prog) else
  let (stacked,prog,m) := loadStack m prog
  if stacked = false then (none,unload (pagingSwitch m saved) prog) else
  let (prog,m) := loadArgs m prog args
  (some prog,pagingSwitch m saved)

-- The kernel as loader_run sees it. The heap's bytes are kept in `sched`, apart from the
-- rest of memory; the frame allocator and CR3 are there too.
structure Kernel where
  sched : Sched
  image : Image
  mem : Memory
  mappedLimit : Nat
  kernelPdEntries : Nat
  nxSupported : Bool
  fs : Fs
  programs : Nat → Program

def Kernel.mmu (k : Kernel) : Mmu :=
  ⟨k.image,k.mem,k.sched.frames,if k.sched.directory = 0 then k.image.kernelPdpt else k.sched.directory,k.mappedLimit,
    k.kernelPdEntries,k.nxSupported⟩

def Kernel.setMmu (k : Kernel) (m : Mmu) : Kernel :=
  {k with
    mem:=m.mem,sched:={k.sched with frames:=m.frames,directory:=m.active},mappedLimit:=m.mappedLimit,
    kernelPdEntries:=m.kernelPdEntries,nxSupported:=m.nxSupported}

def Kernel.setHeap (k : Kernel) (heap : Kheap.Heap) : Kernel := {k with sched:={k.sched with heap:=heap}}
def setProgram (k : Kernel) (slot : Nat) (prog : Program) : Kernel :=
  {k with programs:=Function.update k.programs slot prog}

def freeSlot (k : Kernel) : Option Nat := (List.range maxPrograms).find? fun i => (k.programs i).inUse = false

-- Numbers for &programs[i] and for program_cleanup, neither of which is 0.
def programAddr (slot : Nat) : Nat := slot+1
def programCleanup : Nat := 1

-- The file as the loader sees it: bytes from the buffer on, in the heap's memory.
def buffer (heap : Kheap.Heap) (ptr : Nat) : Memory := fun k => heap.mem (wrap 32 (ptr+k))

-- loader_run once the file is in its buffer. The entry point is read after the buffer was
-- freed, from what is there then.
def runFile (k : Kernel) (slot : Nat) (file freed : Memory) (size : Nat) (args : Option CString) : Bool × Kernel :=
  if size < elfHeaderSize ∨ isElf file = false ∨ isExecutable386 file = false ∨ headersFit file size = false then (false,k)
  else
    let (loaded,m) := loadImage k.mmu file size args
    let k := k.setMmu m
    match loaded with
    | none => (false,k)
    | some prog =>
      let prog := {prog with entry:=elfEntry freed,inUse:=true}
      let k := setProgram k slot prog
      let (id,sched) := taskCreateEx k.sched prog.pageDir (programAddr slot) programCleanup
      let k := {k with sched:=sched}
      if id = 0 then (false,setProgram (k.setMmu (unload k.mmu prog)) slot {}) else (true,k)

def loaderRun (k : Kernel) (name : CString) (args : Option CString) : Bool × Kernel :=
  match freeSlot k with
  | none => (false,k)
  | some slot =>
    let k := setProgram k slot {}
    let (ptr,heap) := Kheap.kmalloc .i386 k.sched.heap maxProgram
    let k := k.setHeap heap
    if ptr = 0 then (false,k) else
    match fsRead k.fs name maxProgram with
    | none => (false,k.setHeap (Kheap.kfree .i386 k.sched.heap ptr).2)
    | some (size,bytes) =>
      let heap := {heap with mem:=patch heap.mem ptr bytes.length fun i => bytes.getD i 0#8}
      let freed := (Kheap.kfree .i386 heap ptr).2
      runFile (k.setHeap freed) slot (buffer heap ptr) (buffer freed ptr) size args

-- What the VALIDATION comment promises of the numbers of one segment, without wraparound.
structure Contained (ph : ProgramHeader) (fileSize pages : Nat) : Prop where
  window : userLoadAddr ≤ ph.vaddr.toNat ∧ ph.vaddr.toNat+ph.memsz.toNat ≤ userStackTop
  covered : ph.within+ph.memsz.toNat ≤ pages*pageSize
  mapped : ∀ i < pages,userLoadAddr ≤ wrap 32 (ph.pageStart+i*pageSize) ∧
    wrap 32 (ph.pageStart+i*pageSize)+pageSize ≤ userStackTop
  inFile : ph.offset.toNat+ph.filesz.toNat ≤ fileSize
  inFrames : ph.within+ph.filesz.toNat ≤ pages*pageSize

theorem acceptable_parts (accepted : acceptable prog fileSize ph = true) :
    ph.pages ≠ 0 ∧ prog.segments.length < maxSegments ∧ ph.filesz.toNat ≤ ph.memsz.toNat ∧
    ph.offset.toNat ≤ fileSize ∧ ph.filesz.toNat ≤ fileSize-ph.offset.toNat ∧ userLoadAddr ≤ ph.vaddr.toNat ∧
    wrap 32 (ph.vaddr.toNat+ph.memsz.toNat) ≤ userStackTop := by
  simpa [acceptable,and_assoc] using accepted

theorem loadSegment_parts (loaded : (loadSegment m prog file fileSize ph).1 = true) :
    acceptable prog fileSize ph = true ∧ ∃ phys,phys ≠ 0 ∧ (pmmAllocFrames m.frames ph.pages).1 = phys ∧
      (loadSegment m prog file fileSize ph).2.1.segments = prog.segments++[⟨ph.pageStart,phys,ph.pages⟩] := by
  unfold loadSegment at *
  by_cases fine : acceptable prog fileSize ph = false
  · rw [if_pos fine] at loaded
    cases loaded
  rw [if_neg fine] at *
  refine ⟨by simpa using fine,(pmmAllocFrames m.frames ph.pages).1,?_⟩
  generalize pmmAllocFrames m.frames ph.pages = answer at *
  obtain ⟨phys,frames⟩ := answer
  dsimp only at *
  by_cases none : phys = 0
  · rw [if_pos none] at loaded
    cases loaded
  rw [if_neg none] at *
  generalize mapRun _ _ _ _ _ = answer at *
  obtain ⟨mapped,after⟩ := answer
  cases mapped with
  | false => cases loaded
  | true => exact ⟨none,rfl,rfl⟩

theorem page_within (ph : ProgramHeader) :
    ph.pageStart % pageSize = 0 ∧ ph.pageStart+ph.within = ph.vaddr.toNat ∧ ph.within < pageSize := by
  simp only [ProgramHeader.pageStart,ProgramHeader.within,roundDown,pageSize]
  omega

-- The checks bound the segment exactly when the end address is computed without wrapping.
theorem contained_exact (accepted : acceptable prog fileSize ph = true) :
    Contained ph fileSize ph.pages ↔ ph.vaddr.toNat+ph.memsz.toNat < 2^32 := by
  obtain ⟨_,_,smaller,before,inside,low,high⟩ := acceptable_parts accepted
  obtain ⟨aligned,start,offset⟩ := page_within ph
  constructor
  · intro contained
    have window := contained.window.2
    simp only [userStackTop] at window
    omega
  · intro small
    rw [wrap_small small] at high
    have pages : ph.pages = (ph.within+ph.memsz.toNat+pageSize-1)/pageSize := by
      rw [ProgramHeader.pages,wrap_small]
      simp only [pageSize,userStackTop,userLoadAddr] at *
      omega
    refine ⟨⟨low,high⟩,?_,?_,by omega,?_⟩
    · rw [pages]
      simp only [pageSize]
      omega
    · intro i below
      rw [pages] at below
      rw [wrap_small]
      all_goals
        simp only [pageSize,userStackTop,userLoadAddr] at *
        omega
    · rw [pages]
      simp only [pageSize]
      omega

-- A machine of 272 frames, the first 262 taken, with an empty directory of its own.
def smallImage : Image where
  kernelTextStart := 0x100000
  userTextStart := 0x101000
  userTextEnd := 0x102000
  kernelRodataEnd := 0x103000
  kernelPdpt := 0x103000
  kernelPd := 0x104000
  kernelEnd := 0x105000
  loaded := rfl
  text := by decide
  user := by decide
  bss := by decide
  aligned := by decide
  apart := by unfold Apart; decide
  fits := by decide

def smallFrames : State 32 := ⟨fun word => if word < 8 then 0xFFFFFFFF#32 else 0x3F#32,272,262⟩

def smallMmu : Mmu :=
  ⟨smallImage,setEntry (fun _ => 0#8) 0x103000 0 0x104001#64,smallFrames,0x103000,0,0,true⟩

end Arthic.Loader
