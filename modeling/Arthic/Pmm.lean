import Arthic.Library.BitWords
import Arthic.Library.Unsigned

namespace Arthic.Pmm
open BitWords Unsigned

def pageSize : Nat := 4096
def kernelStart : Nat := 0x100000
def multibootInfoMemMap : BitVec 32 := 0x40#32
def multibootMemoryAvailable : BitVec 32 := 1#32

-- The walk over the boot loader's buffer is kept as the list of entries it visits:
-- the size field only says where the next entry starts.
structure MmapEntry where
  addr : BitVec 64
  len : BitVec 64
  type : BitVec 32

structure MultibootInfo where
  flags : BitVec 32
  mmap : List MmapEntry

-- One model for both kernels: w is 32 in mm/pmm.c and 64 in arthic64/mm/pmm.c.
structure State (w : Nat) where
  bitmap : Words w
  totalFrames : Nat
  usedFrames : Nat

variable {w : Nat} {p : State w}

def frameSet (p : State w) (frame : Nat) : State w := {p with bitmap:=setBit p.bitmap frame}
def frameClear (p : State w) (frame : Nat) : State w := {p with bitmap:=clearBit p.bitmap frame}
def frameTest (p : State w) (frame : Nat) : Bool := testMask p.bitmap frame

def claim (p : State w) (frame : Nat) : State w :=
  {frameSet p frame with usedFrames:=wrap w (p.usedFrames+1)}
def release (p : State w) (frame : Nat) : State w :=
  {frameClear p frame with usedFrames:=wrapSub w p.usedFrames 1}

-- The loop body of mark_region: a frame already in the wanted state is left alone,
-- which is what keeps the counter equal to the number of set bits.
def markFrame (used : Bool) (p : State w) (frame : Nat) : State w :=
  if used then (if frameTest p frame then p else claim p frame)
  else (if frameTest p frame then release p frame else p)

def markRegion (p : State w) (base length : Nat) (used : Bool) : State w :=
  let first := base/pageSize
  let last := wrap w (base+length+pageSize-1)/pageSize
  (List.range' first (min last p.totalFrames-first)).foldl (markFrame used) p

def highestAvailable (mmap : List MmapEntry) : BitVec 64 :=
  mmap.foldl (fun highest entry =>
    if entry.type = multibootMemoryAvailable ∧ highest < entry.addr+entry.len then entry.addr+entry.len else highest) 0#64

-- kmemset(bitmap, 0xFF, bytes): the bits of the first `bytes` bytes are set and the
-- rest of the last word is left as memory had it.
def fillBytes (memory : Words w) (bytes : Nat) : Words w :=
  fun word => memory word ||| (BitVec.allOnes w >>> (w-min w (8*bytes-word*w)))

def freeRegion (region : MmapEntry → Option (Nat × Nat)) (p : State w) (entry : MmapEntry) : State w :=
  match region entry with
  | some (base,length) => markRegion p base length false
  | none => p

-- pmm_init after its flag check. The kernels differ in how many frames they count
-- and in which part of an entry pass two hands to mark_region.
def pmmInitWith (total : Nat) (region : MmapEntry → Option (Nat × Nat)) (kernelEnd : Nat)
    (memory : Words w) (mmap : List MmapEntry) : State w :=
  let bitmapAddr := wrap w (kernelEnd+pageSize-1)/pageSize*pageSize
  let bitmapBytes := (total+7)/8
  let full : State w := ⟨fillBytes memory bitmapBytes,total,total⟩
  let freed := mmap.foldl (freeRegion region) full
  let low := markRegion freed 0 kernelStart true
  let image := markRegion low kernelStart (wrapSub w kernelEnd kernelStart) true
  markRegion image bitmapAddr bitmapBytes true

def totalFrames32 (mmap : List MmapEntry) : Nat := min (highestAvailable mmap).toNat 0xFFFFFFFF/pageSize

def region32 (entry : MmapEntry) : Option (Nat × Nat) :=
  if entry.type = multibootMemoryAvailable ∧ entry.addr.toNat < 0xFFFFFFFF then
    let base := wrap 32 entry.addr.toNat
    some (base,if 0xFFFFFFFF < (entry.addr+entry.len).toNat then wrapSub 32 0xFFFFFFFF base
      else wrap 32 entry.len.toNat)
  else none

-- A missing memory map halts the kernel: none.
def pmmInit32 (kernelEnd : Nat) (memory : Words 32) (mbi : MultibootInfo) : Option (State 32) :=
  if mbi.flags &&& multibootInfoMemMap = 0#32 then none
  else some (pmmInitWith (totalFrames32 mbi.mmap) region32 kernelEnd memory mbi.mmap)

def totalFrames64 (mmap : List MmapEntry) : Nat := (highestAvailable mmap).toNat/pageSize

def region64 (entry : MmapEntry) : Option (Nat × Nat) :=
  if entry.type = multibootMemoryAvailable then some (entry.addr.toNat,entry.len.toNat) else none

def pmmInit64 (kernelEnd : Nat) (memory : Words 64) (mbi : MultibootInfo) : Option (State 64) :=
  if mbi.flags &&& multibootInfoMemMap = 0#32 then none
  else some (pmmInitWith (totalFrames64 mbi.mmap) region64 kernelEnd memory mbi.mmap)

def pmmAllocFrame (p : State w) : Nat × State w :=
  match (List.range p.totalFrames).find? (fun frame => !frameTest p frame) with
  | some frame => (wrap w (frame*pageSize),claim p frame)
  | none => (0,p)

-- The sliding window of pmm_alloc_frames, counting down the frames still to look at.
def findRun (p : State w) (count : Nat) : Nat → Nat → Nat → Nat → Option Nat
  | 0,_,_,_ => none
  | left+1,frame,runStart,runLength =>
    if frameTest p frame then findRun p count left (frame+1) (frame+1) 0
    else if runLength+1 = count then some runStart
    else findRun p count left (frame+1) runStart (runLength+1)

def claimRun (p : State w) (start count : Nat) : State w := (List.range' start count).foldl claim p

def pmmAllocFrames (p : State w) (count : Nat) : Nat × State w :=
  if count = 0 then (0,p) else
  match findRun p count p.totalFrames 0 0 0 with
  | some start => (wrap w (start*pageSize),claimRun p start count)
  | none => (0,p)

def pmmMemoryTop (p : State w) : Nat := wrap w (p.totalFrames*pageSize)

def pmmFreeFrame (p : State w) (addr : Nat) : State w :=
  let frame := addr/pageSize
  if frame < p.totalFrames ∧ frameTest p frame then release p frame else p

-- What every allocator state keeps: addresses of counted frames do not wrap, and the
-- counter agrees with the bitmap.
structure Sound (p : State w) : Prop where
  wide : 0 < w
  addressable : p.totalFrames*pageSize < 2^w
  counted : p.usedFrames = size p.bitmap p.totalFrames

theorem frameTest_member (wide : 0 < w) (p : State w) (frame : Nat) :
    frameTest p frame = member p.bitmap frame := testMask_member wide _ _

-- The counter of a bitmap whose frames are taken up to some frame.
theorem sound_below (p : State w) (wide : 0 < w) (addressable : p.totalFrames*pageSize < 2^w) (fits : p.usedFrames ≤ p.totalFrames)
    (below : ∀ frame < p.totalFrames,frameTest p frame = decide (frame < p.usedFrames)) : Sound p := by
  refine ⟨wide,addressable,(size_below p.bitmap fits fun frame inside => ?_).symm⟩
  rw [←frameTest_member wide,below frame inside]

theorem claim_test (wide : 0 < w) (p : State w) (frame other : Nat) :
    frameTest (claim p frame) other = (decide (other = frame) || frameTest p other) := by
  simp only [frameTest_member wide]
  exact member_setBit wide _ _ _

theorem release_test (wide : 0 < w) (p : State w) (frame other : Nat) :
    frameTest (release p frame) other = (!decide (other = frame) && frameTest p other) := by
  simp only [frameTest_member wide]
  exact member_clearBit wide _ _ _

theorem Sound.total_small (sound : Sound p) : p.totalFrames < 2^w := by
  have bound := sound.addressable
  simp only [pageSize] at bound
  omega

theorem Sound.address_small (sound : Sound p) (below : frame < p.totalFrames) : frame*pageSize < 2^w :=
  Nat.lt_of_le_of_lt (Nat.mul_le_mul_right pageSize (Nat.le_of_lt below)) sound.addressable

theorem claim_sound (sound : Sound p) (below : frame < p.totalFrames) (clear : frameTest p frame = false) :
    Sound (claim p frame) := by
  refine ⟨sound.wide,sound.addressable,?_⟩
  rw [frameTest_member sound.wide] at clear
  have grown : size (setBit p.bitmap frame) p.totalFrames = p.usedFrames+1 := by
    rw [size_setBit sound.wide _ below clear,sound.counted]
  have bound := size_le (setBit p.bitmap frame) p.totalFrames
  have small := sound.total_small
  change wrap w (p.usedFrames+1) = size (setBit p.bitmap frame) p.totalFrames
  rw [wrap_small (by omega),grown]

theorem release_sound (sound : Sound p) (below : frame < p.totalFrames) (marked : frameTest p frame = true) :
    Sound (release p frame) := by
  refine ⟨sound.wide,sound.addressable,?_⟩
  rw [frameTest_member sound.wide] at marked
  have shrunk := size_clearBit sound.wide _ below marked
  have bound := size_le p.bitmap p.totalFrames
  have small := sound.total_small
  have counted := sound.counted
  change wrapSub w p.usedFrames 1 = size (clearBit p.bitmap frame) p.totalFrames
  rw [wrapSub_small (by omega) (by omega)]
  omega

theorem markFrame_test (wide : 0 < w) (used : Bool) (p : State w) (frame other : Nat) :
    frameTest (markFrame used p frame) other = if other = frame then used else frameTest p other := by
  unfold markFrame
  by_cases equal : other = frame
  · subst equal
    cases used <;> split <;> split <;> simp_all [claim_test wide,release_test wide]
  · cases used <;> split <;> split <;> simp_all [claim_test wide,release_test wide]

theorem markFrame_total (used : Bool) (p : State w) (frame : Nat) :
    (markFrame used p frame).totalFrames = p.totalFrames := by
  unfold markFrame
  split <;> split <;> rfl

theorem markFrame_sound (sound : Sound p) (below : frame < p.totalFrames) : Sound (markFrame used p frame) := by
  unfold markFrame
  split
  · split
    · exact sound
    · rename_i clear
      exact claim_sound sound below (by simpa using clear)
  · split
    · rename_i marked
      exact release_sound sound below marked
    · exact sound

-- A loop over a run of frames, each step of which decides one frame and leaves the
-- others: the shape of mark_region and of the claim loop of pmm_alloc_frames.
theorem fold_total {act : State w → Nat → State w} (kept : ∀ p frame, (act p frame).totalFrames = p.totalFrames)
    (p : State w) (frames : List Nat) : (frames.foldl act p).totalFrames = p.totalFrames := by
  induction frames generalizing p with
  | nil => rfl
  | cons frame frames ih => rw [List.foldl_cons,ih,kept]

theorem fold_test {act : State w → Nat → State w} {value : Bool}
    (decides : ∀ p frame other, frameTest (act p frame) other = if other = frame then value else frameTest p other)
    (p : State w) (frames : List Nat) (other : Nat) :
    frameTest (frames.foldl act p) other = if other ∈ frames then value else frameTest p other := by
  induction frames generalizing p with
  | nil => simp
  | cons frame frames ih =>
    rw [List.foldl_cons,ih,decides]
    by_cases equal : other = frame <;> by_cases later : other ∈ frames <;> simp [equal,later]

theorem markRegion_total (p : State w) (base length : Nat) (used : Bool) :
    (markRegion p base length used).totalFrames = p.totalFrames :=
  fold_total (markFrame_total used) _ _

theorem markRegion_test (wide : 0 < w) (p : State w) (base length : Nat) (used : Bool) (frame : Nat) :
    frameTest (markRegion p base length used) frame =
      if base/pageSize ≤ frame ∧ frame < wrap w (base+length+pageSize-1)/pageSize ∧ frame < p.totalFrames
      then used else frameTest p frame := by
  rw [markRegion,fold_test (markFrame_test wide used)]
  congr 1
  rw [List.mem_range'_1,eq_iff_iff]
  omega

theorem markRegion_sound (sound : Sound p) (base length : Nat) (used : Bool) :
    Sound (markRegion p base length used) := by
  have loop : ∀ (frames : List Nat) (q : State w), Sound q → (∀ frame ∈ frames, frame < q.totalFrames) →
      Sound (frames.foldl (markFrame used) q) := by
    intro frames
    induction frames with
    | nil => intro q kept _; exact kept
    | cons frame frames ih =>
      intro q kept bounds
      apply ih
      · exact markFrame_sound kept (bounds frame (List.mem_cons_self ..))
      · intro later member
        rw [markFrame_total]
        exact bounds later (List.mem_cons_of_mem _ member)
  apply loop _ _ sound
  intro frame member
  rw [List.mem_range'_1] at member
  omega

theorem claimRun_total (p : State w) (start count : Nat) : (claimRun p start count).totalFrames = p.totalFrames :=
  fold_total (fun (_ : State w) _ => (rfl : (claim _ _).totalFrames = _)) p _

theorem claimRun_test (wide : 0 < w) (p : State w) (start count frame : Nat) :
    frameTest (claimRun p start count) frame =
      if start ≤ frame ∧ frame < start+count then true else frameTest p frame := by
  have decides : ∀ (q : State w) (frame other : Nat),
      frameTest (claim q frame) other = if other = frame then true else frameTest q other := by
    intro q frame other
    rw [claim_test wide]
    by_cases equal : other = frame <;> simp [equal]
  rw [claimRun,fold_test decides]
  congr 1
  rw [List.mem_range'_1]

theorem claimRun_sound (sound : Sound p) (fits : start+count ≤ p.totalFrames)
    (clear : ∀ frame, start ≤ frame → frame < start+count → frameTest p frame = false) :
    Sound (claimRun p start count) := by
  induction count generalizing p start with
  | zero => exact sound
  | succ count ih =>
    have first : Sound (claim p start) := claim_sound sound (by omega) (clear start (by omega) (by omega))
    have rest : Sound (claimRun (claim p start) (start+1) count) := by
      apply ih first
      · change start+1+count ≤ p.totalFrames
        omega
      · intro frame lower upper
        rw [claim_test sound.wide,clear frame (by omega) (by omega)]
        simp
        omega
    simpa [claimRun,List.range'_succ] using rest

theorem findRun_free (found : findRun p count left frame runStart runLength = some start)
    (adjacent : runStart+runLength = frame) (short : runLength < count)
    (clear : ∀ f, runStart ≤ f → f < frame → frameTest p f = false) :
    start+count ≤ frame+left ∧ ∀ f, start ≤ f → f < start+count → frameTest p f = false := by
  induction left generalizing frame runStart runLength with
  | zero => simp [findRun] at found
  | succ left ih =>
    unfold findRun at found
    split at found
    · have rest := ih found (by omega) (by omega) (by intro f lower upper; omega)
      exact ⟨by omega,rest.2⟩
    · rename_i free
      have extended : ∀ f, runStart ≤ f → f < frame+1 → frameTest p f = false := by
        intro f lower upper
        by_cases last : f = frame
        · subst last; simpa using free
        · exact clear f lower (by omega)
      split at found
      · cases Option.some.inj found
        refine ⟨by omega,?_⟩
        intro f lower upper
        exact extended f lower (by omega)
      · have rest := ih found (by omega) (by omega) extended
        exact ⟨by omega,rest.2⟩

-- One frame: either none is free and nothing changed, or a free frame was claimed and
-- its address identifies it.
theorem allocFrame_parts (sound : Sound p) :
    pmmAllocFrame p = (0,p) ∨
    ∃ frame, frame < p.totalFrames ∧ frameTest p frame = false ∧ pmmAllocFrame p = (frame*pageSize,claim p frame) := by
  unfold pmmAllocFrame
  split
  · rename_i frame found
    have free := List.find?_some found
    have below := List.mem_range.mp (List.mem_of_find?_eq_some found)
    refine .inr ⟨frame,below,by simpa using free,?_⟩
    rw [wrap_small (sound.address_small below)]
  · exact .inl rfl

theorem allocFrames_parts (sound : Sound p) (count : Nat) :
    pmmAllocFrames p count = (0,p) ∨
    ∃ start, 0 < count ∧ start+count ≤ p.totalFrames ∧
      (∀ frame, start ≤ frame → frame < start+count → frameTest p frame = false) ∧
      pmmAllocFrames p count = (start*pageSize,claimRun p start count) := by
  unfold pmmAllocFrames
  split
  · exact .inl rfl
  · rename_i nonzero
    split
    · rename_i start found
      have positive : 0 < count := Nat.pos_of_ne_zero nonzero
      obtain ⟨fits,free⟩ := findRun_free found rfl positive (by intro f lower upper; omega)
      refine .inr ⟨start,positive,by omega,free,?_⟩
      rw [wrap_small (sound.address_small (by omega))]
    · exact .inl rfl

theorem free_clear (clear : frameTest p (addr/pageSize) = false) : pmmFreeFrame p addr = p := by
  simp [pmmFreeFrame,clear]

theorem free_marked (below : addr/pageSize < p.totalFrames) (marked : frameTest p (addr/pageSize) = true) :
    pmmFreeFrame p addr = release p (addr/pageSize) := by
  simp [pmmFreeFrame,below,marked]

end Arthic.Pmm
