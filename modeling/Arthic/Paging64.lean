import Arthic.Library.PageTree
import Arthic.Paging
import Arthic.Pmm

namespace Arthic.Paging64
open ByteMemory PageTree Pmm Unsigned
open Paging (has pagePresent pageWrite pageUser pageNx)

-- The flags have the values they have in the 32-bit kernel; addresses are longer and
-- there is one more level.
def entries : Nat := 512
def addressMask : Entry := 0x000FFFFFFFFFF000#64
def address (e : Entry) : Nat := (e &&& addressMask).toNat

theorem zero_absent : has 0#64 pagePresent = false := by decide

def long : Format where
  present e := has e pagePresent
  target := address
  entries _ := entries
  depth := 3
  absent := zero_absent

def pml4Index (v : Nat) : Nat := v/2^39 % entries
def pdptIndex (v : Nat) : Nat := v/2^30 % entries
def pdIndex (v : Nat) : Nat := v/2^21 % entries
def ptIndex (v : Nat) : Nat := v/2^12 % entries

-- Physical memory, the frame allocator and the static variables of arthic64/mm/paging.c.
structure Mmu where
  mem : Memory
  frames : State 64
  pml4 : Nat
  mappedLimit : Nat

-- A null pointer is 0.
def nextLevel (m : Mmu) (table index : Nat) (create : Bool) : Nat × Mmu :=
  if has (entry m.mem table index) pagePresent then (address (entry m.mem table index),m)
  else if create = false then (0,m) else
  let (frame,frames) := pmmAllocFrame m.frames
  let m := {m with frames:=frames}
  if frame = 0 then (0,m) else
  let m := {m with mem:=fill m.mem frame pageSize 0#8}
  let m := {m with mem:=setEntry m.mem table index (BitVec.ofNat 64 frame ||| pagePresent ||| pageWrite ||| pageUser)}
  (address (entry m.mem table index),m)

def pagingMap (m : Mmu) (virtual physical : Nat) (flags : Entry) : Bool × Mmu :=
  let (pdpt,m) := nextLevel m m.pml4 (pml4Index virtual) true
  if pdpt = 0 then (false,m) else
  let (pd,m) := nextLevel m pdpt (pdptIndex virtual) true
  if pd = 0 then (false,m) else
  let (pt,m) := nextLevel m pd (pdIndex virtual) true
  if pt = 0 then (false,m) else
  (true,{m with mem:=setEntry m.mem pt (ptIndex virtual) ((BitVec.ofNat 64 physical &&& addressMask) ||| flags)})

def entryFor (m : Mmu) (virtual : Nat) : Nat :=
  let (pdpt,m) := nextLevel m m.pml4 (pml4Index virtual) false
  if pdpt = 0 then 0 else
  let (pd,m) := nextLevel m pdpt (pdptIndex virtual) false
  if pd = 0 then 0 else
  let (pt,_) := nextLevel m pd (pdIndex virtual) false
  if pt = 0 then 0 else pt+8*ptIndex virtual

def pagingSetFlags (m : Mmu) (virtual : Nat) (flags : Entry) : Mmu :=
  let e := entryFor m virtual
  if e = 0 then m else {m with mem:=setEntry m.mem e 0 ((entry m.mem e 0 &&& addressMask) ||| flags)}

def pagingUnmap (m : Mmu) (virtual : Nat) : Mmu :=
  let e := entryFor m virtual
  if e = 0 then m else {m with mem:=setEntry m.mem e 0 0#64}

-- The addresses of a loop over pages from 0.
def pagesBelow (top : Nat) : List Nat := (List.range ((top+pageSize-1)/pageSize)).map (·*pageSize)

def mapItself (m : Mmu) (addr : Nat) : Option Mmu :=
  let (mapped,m) := pagingMap m addr addr (pagePresent ||| pageWrite)
  if mapped = false then none else some m

def initFlags (textStart roEnd addr : Nat) : Entry :=
  if textStart ≤ addr ∧ addr < roEnd then pagePresent else pagePresent ||| pageWrite ||| pageNx

def roundDown (addr : Nat) : Nat := addr/pageSize*pageSize
def roundUp (addr : Nat) : Nat := wrap 64 (addr+pageSize-1)/pageSize*pageSize

def mappable (frames : State 64) : Nat := min (pmmMemoryTop frames) 0x40000000

-- paging_init; none when it halts. The two addresses are symbols of the linker script.
def pagingInit (m : Mmu) (kernelTextStart kernelRodataEnd : Nat) : Option Mmu :=
  let (root,frames) := pmmAllocFrame m.frames
  if root = 0 then none else
  let m := {m with mem:=fill m.mem root pageSize 0#8,frames:=frames,pml4:=root}
  let top := mappable m.frames
  ((pagesBelow top).foldlM mapItself m).map fun m =>
    (pagesBelow top).foldl
      (fun m addr => pagingSetFlags m addr (initFlags (roundDown kernelTextStart) (roundUp kernelRodataEnd) addr))
      {m with mappedLimit:=top}

def userEntry (m : Mmu) (table index : Nat) : Mmu :=
  {m with mem:=setEntry m.mem table index (entry m.mem table index ||| pageUser)}

-- The body of the loop in paging_make_user. A `continue` goes on with the next page.
def makeUserPage (flags : Entry) (m : Mmu) (addr : Nat) : Mmu :=
  let m := userEntry m m.pml4 (pml4Index addr)
  let pdpt := address (entry m.mem m.pml4 (pml4Index addr))
  if pdpt = 0 then m else
  let m := userEntry m pdpt (pdptIndex addr)
  let pd := address (entry m.mem pdpt (pdptIndex addr))
  if pd = 0 then m else
  let m := userEntry m pd (pdIndex addr)
  pagingSetFlags m addr flags

-- At most so many turns of the loop: it need not end, since addr wraps around before it
-- reaches an end in the last page.
def makeUserFrom (flags : Entry) (end_ : Nat) : Nat → Mmu → Nat → Mmu
  | 0,m,_ => m
  | turns+1,m,addr =>
    if addr < end_ then makeUserFrom flags end_ turns (makeUserPage flags m addr) (wrap 64 (addr+pageSize)) else m

def pagingMakeUser (m : Mmu) (start end_ : Nat) (writable : Bool) (turns : Nat) : Mmu :=
  let flags := if writable then pagePresent ||| pageUser ||| pageWrite ||| pageNx else pagePresent ||| pageUser
  makeUserFrom flags end_ turns m (roundDown start)

-- The processor's walk, down to the leaf. It looks at 48 bits of the address.
def pathOf (v : Nat) : List Nat := [pml4Index v,pdptIndex v,pdIndex v]
def walk (m : Mmu) (v : Nat) : Option Entry := leafAt long m.mem m.pml4 (pathOf v) (ptIndex v)

end Arthic.Paging64
