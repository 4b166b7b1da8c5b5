import Arthic.Library.ByteMemory
import Arthic.Pmm

namespace Arthic.Kheap
open ByteMemory Unsigned

-- mm/kheap.c and arthic64/mm/kheap.c are the same program compiled for two targets;
-- what differs is the word, the alignment and with them the header.
inductive Target where
  | i386
  | amd64
  deriving DecidableEq,Repr

def Target.wordBytes : Target → Nat
  | .i386 => 4
  | .amd64 => 8
def Target.bits (t : Target) : Nat := 8*t.wordBytes
def Target.alignment : Target → Nat
  | .i386 => 8
  | .amd64 => 16

def heapFrames : Nat := 256
def heapSize : Nat := heapFrames*Pmm.pageSize
def blockMagic : Nat := 0xA47C0DE5

-- ALIGN_UP in size_t arithmetic: the sum wraps before the low bits are dropped.
def alignUp (t : Target) (n : Nat) : Nat := wrap t.bits (n+(t.alignment-1))/t.alignment*t.alignment

inductive Field where
  | magic
  | size
  | free
  | next
  | prev
  deriving DecidableEq,Repr

def Field.index : Field → Nat
  | .magic => 0
  | .size => 1
  | .free => 2
  | .next => 3
  | .prev => 4

-- struct block: every field starts on a word boundary, magic and free are four bytes.
def Target.offset (t : Target) (f : Field) : Nat := f.index*t.wordBytes
def Target.width (t : Target) : Field → Nat
  | .magic => 4
  | .free => 4
  | _ => t.wordBytes
def Target.sizeofBlock (t : Target) : Nat := 5*t.wordBytes
def headerSize (t : Target) : Nat := alignUp t t.sizeofBlock

structure Heap where
  mem : Memory
  heapStart : Nat
  heapBytes : Nat

variable {t : Target} {h : Heap}

def get (t : Target) (h : Heap) (b : Nat) (f : Field) : Nat := load h.mem (b+t.offset f) (t.width f)
def put (t : Target) (h : Heap) (b : Nat) (f : Field) (value : Nat) : Heap :=
  {h with mem:=store h.mem (b+t.offset f) (t.width f) value}

def payloadOf (t : Target) (b : Nat) : Nat := b+headerSize t
def headerOf (t : Target) (payload : Nat) : Nat := payload-headerSize t

def kheapInit (t : Target) (h : Heap) (p : Pmm.State w) : Heap × Pmm.State w :=
  let (base,p) := Pmm.pmmAllocFrames p heapFrames
  if base = 0 then (h,p) else
  let h := {h with heapStart:=base,heapBytes:=heapSize}
  let h := put t h base .magic blockMagic
  let h := put t h base .size (heapSize-headerSize t)
  let h := put t h base .free 1
  let h := put t h base .next 0
  (put t h base .prev 0,p)

def split (t : Target) (h : Heap) (b size : Nat) : Heap :=
  if get t h b .size < wrap t.bits (size+headerSize t+t.alignment) then h else
  let rest := payloadOf t b+size
  let h := put t h rest .magic blockMagic
  let h := put t h rest .size (get t h b .size-size-headerSize t)
  let h := put t h rest .free 1
  let h := put t h rest .next (get t h b .next)
  let h := put t h rest .prev b
  let h := if get t h b .next = 0 then h else put t h (get t h b .next) .prev rest
  let h := put t h b .next rest
  put t h b .size size

-- The walk of kmalloc. The list has no more blocks than the region has bytes, so the
-- count of steps never cuts it short.
def kmallocFrom (t : Target) (h : Heap) (size : Nat) : Nat → Nat → Nat × Heap
  | 0,_ => (0,h)
  | steps+1,b =>
    if b = 0 then (0,h)
    else if get t h b .free ≠ 0 ∧ size ≤ get t h b .size then (payloadOf t b,put t (split t h b size) b .free 0)
    else kmallocFrom t h size steps (get t h b .next)

def kmalloc (t : Target) (h : Heap) (size : Nat) : Nat × Heap :=
  if h.heapStart = 0 ∨ size = 0 then (0,h) else
  kmallocFrom t h (alignUp t size) h.heapBytes h.heapStart

def mergeWithNext (t : Target) (h : Heap) (b : Nat) : Heap :=
  let n := get t h b .next
  if n = 0 ∨ get t h n .free = 0 ∨ get t h b .free = 0 then h else
  let h := put t h b .size (wrap t.bits (get t h b .size+headerSize t+get t h n .size))
  let h := put t h b .next (get t h n .next)
  let h := if get t h n .next = 0 then h else put t h (get t h n .next) .prev b
  put t h n .magic 0

-- kfree prints why it ignores a pointer; what it prints is not part of the heap.
inductive Complaint where
  | badBlock (ptr : Nat)
  | doubleFree (ptr : Nat)
  deriving DecidableEq,Repr

def kfree (t : Target) (h : Heap) (ptr : Nat) : Option Complaint × Heap :=
  if ptr = 0 then (none,h) else
  let b := headerOf t ptr
  if get t h b .magic ≠ blockMagic then (some (.badBlock ptr),h)
  else if get t h b .free ≠ 0 then (some (.doubleFree ptr),h)
  else
    let h := put t h b .free 1
    let h := mergeWithNext t h b
    let before := get t h b .prev
    (none,if before ≠ 0 ∧ get t h before .free ≠ 0 then mergeWithNext t h before else h)

end Arthic.Kheap
