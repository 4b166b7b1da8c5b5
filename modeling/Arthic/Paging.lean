import Arthic.Library.PageTree
import Arthic.Pmm

namespace Arthic.Paging
open ByteMemory PageTree Pmm Unsigned

def pagePresent : Entry := 0x001#64
def pageWrite : Entry := 0x002#64
def pageUser : Entry := 0x004#64
def pageNx : Entry := 1#64 <<< 63
def addressMask : Entry := 0xFFFFF000#64

def pdptEntries : Nat := 4
def tableEntries : Nat := 512
def pdCoverage : Nat := 2*1024*1024

def has (e flag : Entry) : Bool := (e &&& flag) != 0#64
def address (e : Entry) : Nat := (e &&& addressMask).toNat

-- The three levels: CR3 names a PDPT, its entries directories, theirs page tables.
def pae : Format where
  present e := has e pagePresent
  target := address
  entries level := if level = 0 then pdptEntries else tableEntries
  depth := 2
  absent := by decide

def pdptIndex (virtual : Nat) : Nat := virtual/2^30
def pdIndex (virtual : Nat) : Nat := virtual/2^21 % tableEntries
def ptIndex (virtual : Nat) : Nat := virtual/2^12 % tableEntries

-- What the kernel knows of its own image: the symbols of linker.ld, in the order of its
-- sections, and where the two static tables of paging.c lie in .bss.
structure Image where
  kernelTextStart : Nat
  userTextStart : Nat
  userTextEnd : Nat
  kernelRodataEnd : Nat
  kernelPdpt : Nat
  kernelPd : Nat
  kernelEnd : Nat
  loaded : kernelTextStart = kernelStart
  text : kernelTextStart ≤ userTextStart ∧ userTextStart < userTextEnd ∧ userTextEnd ≤ kernelRodataEnd
  user : userTextStart % pageSize = 0 ∧ userTextEnd % pageSize = 0
  bss : kernelRodataEnd ≤ kernelPdpt ∧ kernelRodataEnd ≤ kernelPd ∧ kernelPdpt+8*pdptEntries ≤ kernelEnd ∧
    kernelPd+8*tableEntries ≤ kernelEnd
  aligned : kernelPdpt % 32 = 0 ∧ kernelPd % pageSize = 0
  apart : Apart kernelPdpt (8*pdptEntries) kernelPd (8*tableEntries)
  fits : kernelEnd+2*pageSize+2^17 ≤ 2^32

-- Physical memory, the frame allocator and the static variables of paging.c. The kernel
-- reaches physical memory at its own address, so a table is read where it lies.
structure Mmu where
  image : Image
  mem : Memory
  frames : State 32
  active : Nat
  mappedLimit : Nat
  kernelPdEntries : Nat
  nxSupported : Bool

def pdFor (m : Mmu) (pdpt virtual : Nat) : Nat :=
  if has (entry m.mem pdpt (pdptIndex virtual)) pagePresent then address (entry m.mem pdpt (pdptIndex virtual)) else 0

-- Where the page table entry is, 0 when there is none.
def entryFor (m : Mmu) (virtual : Nat) : Nat :=
  let pd := pdFor m m.active virtual
  if pd = 0 then 0
  else if has (entry m.mem pd (pdIndex virtual)) pagePresent = false then 0
  else address (entry m.mem pd (pdIndex virtual))+8*ptIndex virtual

def pagingSetFlags (m : Mmu) (virtual : Nat) (flags : Entry) : Mmu :=
  let e := entryFor m virtual
  if e = 0 then m else {m with mem:=setEntry m.mem e 0 ((entry m.mem e 0 &&& addressMask) ||| flags)}

-- The two places where paging_map makes a table: a zeroed frame, then the entry for it.
def linkTable (m : Mmu) (table k : Nat) (flags : Entry) : Bool × Mmu :=
  let (phys,frames) := pmmAllocFrame m.frames
  if phys = 0 then (false,{m with frames:=frames}) else
  (true,{m with mem:=setEntry (fill m.mem phys pageSize 0#8) table k (BitVec.ofNat 64 phys ||| flags),frames:=frames})

def ensurePd (m : Mmu) (virtual : Nat) : Bool × Mmu :=
  if has (entry m.mem m.active (pdptIndex virtual)) pagePresent then (true,m)
  else linkTable m m.active (pdptIndex virtual) pagePresent

def ensurePt (m : Mmu) (pd virtual : Nat) (flags : Entry) : Bool × Mmu :=
  if has (entry m.mem pd (pdIndex virtual)) pagePresent = false then
    linkTable m pd (pdIndex virtual) (pagePresent ||| pageWrite ||| (flags &&& pageUser))
  else if has flags pageUser then
    (true,{m with mem:=setEntry m.mem pd (pdIndex virtual) (entry m.mem pd (pdIndex virtual) ||| pageUser)})
  else (true,m)

def dropNx (m : Mmu) (flags : Entry) : Entry := if m.nxSupported then flags else flags &&& ~~~pageNx

def pagingMap (m : Mmu) (virtual physical : Nat) (flags : Entry) : Bool × Mmu :=
  let (made,m) := ensurePd m virtual
  if made = false then (false,m) else
  let pd := address (entry m.mem m.active (pdptIndex virtual))
  let (made,m) := ensurePt m pd virtual flags
  if made = false then (false,m) else
  let pt := address (entry m.mem pd (pdIndex virtual))
  (true,{m with mem:=setEntry m.mem pt (ptIndex virtual) (BitVec.ofNat 64 physical ||| dropNx m flags)})

def pagingUnmap (m : Mmu) (virtual : Nat) : Mmu :=
  let e := entryFor m virtual
  if e = 0 then m else {m with mem:=setEntry m.mem e 0 0#64}

-- One turn of the loop in paging_init: the page table of 2 MB that map to themselves.
-- Without a frame for it the kernel halts.
def identityTable (m : Mmu) (i : Nat) : Option Mmu :=
  let (pt,frames) := pmmAllocFrame m.frames
  if pt = 0 then none else
  let filled := (List.range tableEntries).foldl (fun mem j => setEntry mem pt j
    (BitVec.ofNat 64 (wrap 32 (i*pdCoverage+j*pageSize)) ||| pagePresent ||| pageWrite)) m.mem
  some {m with
    mem:=setEntry filled m.image.kernelPd i (BitVec.ofNat 64 pt ||| pagePresent ||| pageWrite),frames:=frames}

def roundDown (addr : Nat) : Nat := addr/pageSize*pageSize
def roundUp (addr : Nat) : Nat := wrap 32 (addr+pageSize-1)/pageSize*pageSize

-- The pages a loop from `start` visits while it is below `end_`.
def pagesFrom (start end_ : Nat) : List Nat :=
  (List.range ((end_-start+pageSize-1)/pageSize)).map fun i => start+i*pageSize

-- The last loop of paging_init, on one page: present, not writable.
def readOnly (m : Mmu) (addr : Nat) : Mmu := pagingSetFlags m addr pagePresent

def pdNeeded (frames : State 32) : Nat := min (wrap 32 (pmmMemoryTop frames+pdCoverage-1)/pdCoverage) tableEntries

def blankTables (m : Mmu) (nx : Bool) : Mmu :=
  {m with
    nxSupported:=nx,active:=m.image.kernelPdpt,
    mem:=fill (fill m.mem m.image.kernelPdpt (8*pdptEntries) 0#8) m.image.kernelPd (8*tableEntries) 0#8}

def installDirectory (m : Mmu) (needed : Nat) : Mmu :=
  {m with
    mem:=setEntry m.mem m.image.kernelPdpt 0 (BitVec.ofNat 64 m.image.kernelPd ||| pagePresent),
    mappedLimit:=wrap 32 (needed*pdCoverage),kernelPdEntries:=needed}

-- paging_init, with what cpuid answers; none when it halts.
def pagingInit (m : Mmu) (nx : Bool) : Option Mmu :=
  let needed := pdNeeded m.frames
  ((List.range needed).foldlM identityTable (blankTables m nx)).map fun m =>
    (pagesFrom (roundDown m.image.kernelTextStart) (roundUp m.image.kernelRodataEnd)).foldl readOnly
      (installDirectory m needed)

def pagingMappedLimit (m : Mmu) : Nat := m.mappedLimit
def pagingNxAvailable (m : Mmu) : Bool := m.nxSupported

def makeUserPage (flags : Entry) (m : Mmu) (addr : Nat) : Mmu :=
  let pd := pdFor m m.active addr
  let m := if pd = 0 then m else
    {m with mem:=setEntry m.mem pd (pdIndex addr) (entry m.mem pd (pdIndex addr) ||| pageUser)}
  pagingSetFlags m addr (dropNx m flags)

def pagingMakeUser (m : Mmu) (start end_ : Nat) (writable : Bool) : Mmu :=
  let flags := if writable then pagePresent ||| pageUser ||| pageWrite ||| pageNx else pagePresent ||| pageUser
  (pagesFrom (roundDown start) end_).foldl (makeUserPage flags) m

-- The loop of paging_make_user as the machine counts, for so many turns: none while it
-- has not ended. Where it ends it comes to what pagingMakeUser says.
def makeUserFrom (flags : Entry) (end_ : Nat) : Nat → Mmu → Nat → Option Mmu
  | 0,_,_ => none
  | turns+1,m,addr =>
    if addr < end_ then makeUserFrom flags end_ turns (makeUserPage flags m addr) (wrap 32 (addr+pageSize)) else some m

def makeUserFlags (writable : Bool) : Entry :=
  if writable then pagePresent ||| pageUser ||| pageWrite ||| pageNx else pagePresent ||| pageUser

def pagingMakeUserTurns (turns : Nat) (m : Mmu) (start end_ : Nat) (writable : Bool) : Option Mmu :=
  makeUserFrom (makeUserFlags writable) end_ turns m (roundDown start)

def pagingKernelDirectory (m : Mmu) : Nat := m.image.kernelPdpt

def pagingCreateAddressSpace (m : Mmu) : Nat × Mmu :=
  let (pdpt,frames) := pmmAllocFrame m.frames
  if pdpt = 0 then (0,{m with frames:=frames}) else
  let (pd,frames) := pmmAllocFrame frames
  if pd = 0 then (0,{m with frames:=pmmFreeFrame frames pdpt}) else
  let cleared := fill (fill m.mem pdpt pageSize 0#8) pd pageSize 0#8
  let copied := (List.range m.kernelPdEntries).foldl (fun mem i => setEntry mem pd i (entry mem m.image.kernelPd i)) cleared
  (pdpt,{m with mem:=setEntry copied pdpt 0 (BitVec.ofNat 64 pd ||| pagePresent),frames:=frames})

def pagingDestroyAddressSpace (m : Mmu) (pdpt : Nat) : Mmu :=
  if pdpt = 0 ∨ pdpt = m.image.kernelPdpt then m else
  let m := if has (entry m.mem pdpt 0) pagePresent = false then m else
    let pd := address (entry m.mem pdpt 0)
    let own := List.range' m.kernelPdEntries (tableEntries-m.kernelPdEntries)
    let frames := own.foldl (fun frames i =>
      if has (entry m.mem pd i) pagePresent then pmmFreeFrame frames (address (entry m.mem pd i)) else frames) m.frames
    {m with frames:=pmmFreeFrame frames pd}
  {m with frames:=pmmFreeFrame m.frames pdpt}

def pagingSwitch (m : Mmu) (pdpt : Nat) : Mmu := {m with active:=if pdpt = 0 then m.image.kernelPdpt else pdpt}

-- The processor's own walk: the directory entry and the leaf, when all three levels are
-- present. Permissions are taken from both; CR0.WP holds ring 0 to them too.
structure Page where
  directory : Entry
  leaf : Entry

def walk (mem : Memory) (pdpt virtual : Nat) : Option Page :=
  (next pae mem pdpt (pdptIndex virtual)).bind fun pd =>
  (next pae mem pd (pdIndex virtual)).bind fun pt =>
  if has (entry mem pt (ptIndex virtual)) pagePresent then
    some ⟨entry mem pd (pdIndex virtual),entry mem pt (ptIndex virtual)⟩
  else none

def Page.user (p : Page) : Bool := has p.directory pageUser && has p.leaf pageUser
def Page.writable (p : Page) : Bool := has p.directory pageWrite && has p.leaf pageWrite

end Arthic.Paging
