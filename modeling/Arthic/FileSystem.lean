import Arthic.Library.BitWords
import Arthic.Library.ByteMemory
import Arthic.Library.Unsigned

namespace Arthic.FileSystem
open BitWords ByteMemory Unsigned

-- drivers/ata.c as fs.c sees it: numbered sectors of 512 bytes, each of which can be
-- read and written or not. `log` keeps the writes in the order they were made.
def sectorSize : Nat := 512
abbrev Sector := Nat → Byte

structure Disk where
  present : Bool
  totalSectors : Nat
  readable : Nat → Bool
  writable : Nat → Bool
  sectors : Nat → Sector
  log : List (Nat × Sector)

-- LBA28: the drive is told the low 28 bits of a sector number.
def lba28 (lba : Nat) : Nat := lba % 2^28

def ataReadSector (d : Disk) (lba : Nat) : Option Sector :=
  if d.present = true ∧ d.readable (lba28 lba) = true then some (d.sectors (lba28 lba)) else none

def ataWriteSector (d : Disk) (lba : Nat) (buffer : Sector) : Bool × Disk :=
  if d.present = true ∧ d.writable (lba28 lba) = true then
    (true,{d with sectors:=Function.update d.sectors (lba28 lba) buffer,log:=d.log++[(lba28 lba,buffer)]})
  else (false,d)

def fsMagic : Nat := 0x41525432
def fsNameMax : Nat := 32
def fsMaxFiles : Nat := 64
def fsDirStart : Nat := 1
def fsDirSectors : Nat := 16
def fsBitmapSector : Nat := 17
def fsDataStart : Nat := 18
def fsDirectBlocks : Nat := 8
def fsBlockSize : Nat := 512
def fsPerIndirect : Nat := fsBlockSize/4
def fsMaxBlocks : Nat := fsDirectBlocks+fsPerIndirect
def noBlock : Nat := 0xFFFFFFFF

structure Superblock where
  magic : Nat
  totalBlocks : Nat
  dataStart : Nat
  maxFiles : Nat

-- A C string: the bytes before the terminator, which none of them is.
structure CString where
  bytes : List Byte
  terminated : 0#8 ∉ bytes
  deriving DecidableEq

-- The static variables of fs.c, the directory as the packed bytes it is on disk. The two
-- scratch buffers are filled before every use and are no state.
structure Fs where
  disk : Disk
  super : Superblock
  mounted : Bool
  bitmap : Words 8
  directory : Memory

inductive Field where
  | size
  | used
  | direct (k : Nat)
  | indirect
  deriving DecidableEq

def entrySize : Nat := 128
def Field.offset : Field → Nat
  | .size => fsNameMax
  | .used => fsNameMax+4
  | .direct k => fsNameMax+8+4*k
  | .indirect => fsNameMax+8+4*fsDirectBlocks

def get (f : Fs) (i : Nat) (field : Field) : Nat := load f.directory (i*entrySize+field.offset) 4
def put (f : Fs) (i : Nat) (field : Field) (value : Nat) : Fs :=
  {f with directory:=store f.directory (i*entrySize+field.offset) 4 value}
def clearEntry (f : Fs) (i : Nat) : Fs := {f with directory:=fill f.directory (i*entrySize) entrySize 0#8}

def readDirectoryFrom (f : Fs) : List Nat → Bool × Fs
  | [] => (true,f)
  | i::rest =>
    match ataReadSector f.disk (fsDirStart+i) with
    | none => (false,f)
    | some sector => readDirectoryFrom {f with directory:=patch f.directory (i*sectorSize) sectorSize sector} rest

def readDirectory (f : Fs) : Bool × Fs := readDirectoryFrom f (List.range fsDirSectors)

def writeDirectoryFrom (f : Fs) : List Nat → Bool × Fs
  | [] => (true,f)
  | i::rest =>
    let (written,disk) := ataWriteSector f.disk (fsDirStart+i) fun k => f.directory (i*sectorSize+k)
    if written = true then writeDirectoryFrom {f with disk:=disk} rest else (false,{f with disk:=disk})

def writeDirectory (f : Fs) : Bool × Fs := writeDirectoryFrom f (List.range fsDirSectors)

def blockUsed (f : Fs) (block : Nat) : Bool := testShift f.bitmap block
def blockMark (f : Fs) (block : Nat) (used : Bool) : Fs :=
  {f with bitmap:=if used then setBit f.bitmap block else clearBit f.bitmap block}

def blockAlloc (f : Fs) : Nat × Fs :=
  match (List.range f.super.totalBlocks).find? fun b => !blockUsed f b with
  | some b => (b,blockMark f b true)
  | none => (noBlock,f)

def lbaOf (f : Fs) (block : Nat) : Nat := wrap 32 (f.super.dataStart+block)

def blockAt (f : Fs) (i index : Nat) : Nat :=
  if index < fsDirectBlocks then get f i (.direct index)
  else if get f i .indirect = 0 then noBlock
  else match ataReadSector f.disk (lbaOf f (get f i .indirect)) with
    | none => noBlock
    | some buffer =>
      if fsPerIndirect ≤ index-fsDirectBlocks then noBlock else load buffer (4*(index-fsDirectBlocks)) 4

-- block_set in its two halves: the indirect block is there, or is taken and zeroed; then
-- one number in it changes.
def newIndirect (f : Fs) (i : Nat) : Bool × Fs :=
  let (b,f) := blockAlloc f
  if b = noBlock then (false,f) else
  let f := put f i .indirect b
  let (written,disk) := ataWriteSector f.disk (lbaOf f b) fun _ => 0#8
  (written,{f with disk:=disk})

def storeSlot (f : Fs) (i slot block : Nat) : Bool × Fs :=
  match ataReadSector f.disk (lbaOf f (get f i .indirect)) with
  | none => (false,f)
  | some buffer =>
    let (written,disk) := ataWriteSector f.disk (lbaOf f (get f i .indirect)) (store buffer (4*slot) 4 block)
    (written,{f with disk:=disk})

def blockSet (f : Fs) (i index block : Nat) : Bool × Fs :=
  if index < fsDirectBlocks then (true,put f i (.direct index) block)
  else if fsPerIndirect ≤ index-fsDirectBlocks then (false,f)
  else
    let (ready,f) := if get f i .indirect = 0 then newIndirect f i else (true,f)
    if ready = true then storeSlot f i (index-fsDirectBlocks) block else (false,f)

def superSector (s : Superblock) : Sector :=
  store (store (store (store (fun _ => 0#8) 0 4 s.magic) 4 4 s.totalBlocks) 8 4 s.dataStart) 12 4 s.maxFiles

def fsMount (f : Fs) : Bool × Fs :=
  let f := {f with mounted:=false}
  match ataReadSector f.disk 0 with
  | none => (false,f)
  | some sector =>
    let f := {f with super:=⟨load sector 0 4,load sector 4 4,load sector 8 4,load sector 12 4⟩}
    if f.super.magic ≠ fsMagic then (false,f) else
    let (found,f) := readDirectory f
    if found = false then (false,f) else
    match ataReadSector f.disk fsBitmapSector with
    | none => (false,f)
    | some sector => (true,{f with bitmap:=sector,mounted:=true})

-- The end of every operation: the directory, then the bitmap.
def saveMetadata (f : Fs) : Bool × Fs :=
  let (written,f) := writeDirectory f
  if written = false then (false,f) else
  let (written,disk) := ataWriteSector f.disk fsBitmapSector f.bitmap
  (written,{f with disk:=disk})

-- The superblock, directory and bitmap of an empty filesystem, still in memory.
def blankFs (f : Fs) : Fs :=
  {f with
    super:=⟨fsMagic,min (f.disk.totalSectors-fsDataStart) (sectorSize*8),fsDataStart,fsMaxFiles⟩,
    directory:=fill f.directory 0 (fsMaxFiles*entrySize) 0#8,bitmap:=fill f.bitmap 0 sectorSize 0#8}

def fsFormat (f : Fs) : Bool × Fs :=
  if f.disk.totalSectors ≤ fsDataStart then (false,f) else
  let f := blankFs f
  let (written,disk) := ataWriteSector f.disk 0 (superSector f.super)
  let f := {f with disk:=disk}
  if written = false then (false,f) else
  let (saved,f) := saveMetadata f
  if saved = true then (true,{f with mounted:=true}) else (false,f)

def fsIsMounted (f : Fs) : Bool := f.mounted

-- kstrcmp of an entry's name with a string: the first runs on through memory until a
-- byte differs or is 0.
def kstrcmp (a : Nat → Byte) : List Byte → Int
  | [] => (a 0).toNat
  | b::rest => if a 0 ≠ 0#8 ∧ a 0 = b then kstrcmp (fun k => a (k+1)) rest else (a 0).toNat-b.toNat

def nameOf (f : Fs) (i : Nat) : Nat → Byte := fun k => f.directory (i*entrySize+k)

def findEntry (f : Fs) (name : CString) : Option Nat :=
  (List.range fsMaxFiles).find? fun i => get f i .used ≠ 0 ∧ kstrcmp (nameOf f i) name.bytes = 0

def findFreeEntry (f : Fs) : Option Nat := (List.range fsMaxFiles).find? fun i => get f i .used = 0

def writeSector (f : Fs) (block : Nat) (sector : Sector) : Bool × Fs :=
  let (written,disk) := ataWriteSector f.disk (lbaOf f block) sector
  (written,{f with disk:=disk})

def overlay (sector : Sector) (within : Nat) (bytes : List Byte) : Sector :=
  patch sector within bytes.length fun k => bytes.getD k 0#8

def blocksFor (size : Nat) : Nat := wrap 32 (size+fsBlockSize-1)/fsBlockSize

-- One turn of the loop in write_at: the part of one block that the data reaches.
def writeChunk (f : Fs) (i position : Nat) (bytes : List Byte) : Bool × Fs :=
  let index := position/fsBlockSize
  let within := position % fsBlockSize
  if fsMaxBlocks ≤ index then (false,f) else
  let block := blockAt f i index
  if blocksFor (get f i .size) ≤ index ∨ block = noBlock then
    let (block,f) := blockAlloc f
    if block = noBlock then (false,f) else
    let (attached,f) := blockSet f i index block
    if attached = false then (false,f) else
    writeSector f block (overlay (fun _ => 0#8) within bytes)
  else match ataReadSector f.disk (lbaOf f block) with
    | none => (false,f)
    | some sector => writeSector f block (overlay sector within bytes)

def chunkSize (position remaining : Nat) : Nat := min (fsBlockSize-position % fsBlockSize) remaining

-- Every turn writes at least one byte, so as many turns as there are bytes are enough.
def writeFrom (f : Fs) (i offset : Nat) (data : List Byte) : Nat → Nat → Bool × Fs
  | 0,_ => (true,f)
  | turns+1,written =>
    if data.length ≤ written then (true,f) else
    let position := wrap 32 (offset+written)
    let chunk := chunkSize position (data.length-written)
    let (stored,f) := writeChunk f i position ((data.drop written).take chunk)
    if stored = true then writeFrom f i offset data turns (written+chunk) else (false,f)

def writeAt (f : Fs) (i offset : Nat) (data : List Byte) : Bool × Fs := writeFrom f i offset data data.length 0

-- kmemset of the entry, then kmemcpy of the name.
def nameEntry (f : Fs) (i : Nat) (name : CString) (nameLength : Nat) : Fs :=
  let f := clearEntry f i
  {f with directory:=patch f.directory (i*entrySize) nameLength fun k => name.bytes.getD k 0#8}

def fsCreate (f : Fs) (name : CString) (data : List Byte) : Bool × Fs :=
  if f.mounted = false ∨ name.bytes = [] then (false,f) else
  let nameLength := min name.bytes.length fsNameMax
  if fsNameMax ≤ nameLength then (false,f) else
  if (findEntry f name).isSome then (false,f) else
  match findFreeEntry f with
  | none => (false,f)
  | some i =>
    let (written,f) := writeAt (nameEntry f i name nameLength) i 0 data
    if written = false then (false,clearEntry f i) else
    saveMetadata (put (put f i .size data.length) i .used 1)

def fsAppend (f : Fs) (name : CString) (data : List Byte) : Bool × Fs :=
  if f.mounted = false then (false,f) else
  match findEntry f name with
  | none => (false,f)
  | some i =>
    let (written,f) := writeAt f i (get f i .size) data
    if written = false then (false,f) else
    saveMetadata (put f i .size (wrap 32 (get f i .size+data.length)))

-- What is copied to the caller's buffer; none when fs_read gives up.
def readFrom (f : Fs) (i size : Nat) : Nat → Nat → List Byte → Option (List Byte)
  | 0,_,out => some out
  | turns+1,index,out =>
    if size ≤ out.length then some out else
    let block := blockAt f i index
    if block = noBlock then none else
    match ataReadSector f.disk (lbaOf f block) with
    | none => none
    | some sector =>
      readFrom f i size turns (index+1) (out++(List.range (min (size-out.length) fsBlockSize)).map sector)

def fsRead (f : Fs) (name : CString) (max : Nat) : Option (Nat × List Byte) :=
  if f.mounted = false then none else
  match findEntry f name with
  | none => none
  | some i =>
    let size := min (get f i .size) max
    (readFrom f i size size 0 []).map fun out => (size,out)

def freeBlock (f : Fs) (i k : Nat) : Fs :=
  if blockAt f i k = noBlock then f else blockMark f (blockAt f i k) false

def fsDelete (f : Fs) (name : CString) : Bool × Fs :=
  if f.mounted = false then (false,f) else
  match findEntry f name with
  | none => (false,f)
  | some i =>
    let f := (List.range (blocksFor (get f i .size))).foldl (fun f k => freeBlock f i k) f
    let f := if get f i .indirect = 0 then f else blockMark f (get f i .indirect) false
    saveMetadata (clearEntry f i)

def fsStats (f : Fs) : Nat × Nat × Nat :=
  if f.mounted = false then (0,0,0) else
  (f.super.totalBlocks,((List.range f.super.totalBlocks).filter fun b => blockUsed f b).length,
    ((List.range fsMaxFiles).filter fun i => get f i .used ≠ 0).length)

end Arthic.FileSystem
