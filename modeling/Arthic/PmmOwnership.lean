import Arthic.Library.Transition
import Arthic.Pmm

namespace Arthic.PmmOwnership
open Pmm BitWords Unsigned Transition
variable {w : Nat} {p : Pmm.State w} {mbi : MultibootInfo}

theorem fillBytes_member (wide : 0 < w) (memory : Words w) (bytes frame : Nat) :
    member (fillBytes memory bytes) frame = (member memory frame || decide (frame < 8*bytes)) := by
  have offset : frame % w < w := Nat.mod_lt frame wide
  have position := Nat.div_add_mod frame w
  have covered : decide (w-min w (8*bytes-frame/w*w)+frame % w < w) = decide (frame < 8*bytes) := by
    rw [decide_eq_decide,Nat.mul_comm] at *
    omega
  simp only [member,fillBytes,BitVec.getLsbD_or,BitVec.getLsbD_ushiftRight,BitVec.getLsbD_allOnes,covered]

theorem freeRegions_total (region : MmapEntry → Option (Nat × Nat)) (mmap : List MmapEntry) (p : Pmm.State w) :
    (mmap.foldl (freeRegion region) p).totalFrames = p.totalFrames := by
  induction mmap generalizing p with
  | nil => rfl
  | cons entry mmap ih =>
    rw [List.foldl_cons,ih,freeRegion]
    split
    · exact markRegion_total _ _ _ _
    · rfl

theorem freeRegions_sound (region : MmapEntry → Option (Nat × Nat)) (mmap : List MmapEntry) (sound : Sound p) :
    Sound (mmap.foldl (freeRegion region) p) := by
  induction mmap generalizing p with
  | nil => exact sound
  | cons entry mmap ih =>
    rw [List.foldl_cons]
    apply ih
    unfold freeRegion
    split
    · exact markRegion_sound sound _ _ _
    · exact sound

-- Pass two clears a bit only where some entry's rounded-out range reaches it.
theorem freeRegions_kept (region : MmapEntry → Option (Nat × Nat)) (mmap : List MmapEntry) (wide : 0 < w)
    (marked : frameTest p frame = true)
    (missed : ∀ entry ∈ mmap, ∀ base length, region entry = some (base,length) →
      ¬ (base/pageSize ≤ frame ∧ frame < wrap w (base+length+pageSize-1)/pageSize)) :
    frameTest (mmap.foldl (freeRegion region) p) frame = true := by
  induction mmap generalizing p with
  | nil => exact marked
  | cons entry mmap ih =>
    rw [List.foldl_cons]
    apply ih
    · unfold freeRegion
      split
      · rename_i base length found
        have outside := missed entry (List.mem_cons_self ..) base length found
        rw [markRegion_test wide,if_neg (fun inside => outside ⟨inside.1,inside.2.1⟩)]
        exact marked
      · exact marked
    · exact fun later member => missed later (List.mem_cons_of_mem _ member)

theorem markRegion_kept (wide : 0 < w) (marked : frameTest p frame = true) :
    frameTest (markRegion p base length true) frame = true := by
  rw [markRegion_test wide]
  split
  · rfl
  · exact marked

theorem markRegion_covers (wide : 0 < w) (counted : frame < p.totalFrames) (nowrap : base+length+pageSize ≤ 2^w)
    (ends : base < (frame+1)*pageSize) (starts : frame*pageSize < base+length) :
    frameTest (markRegion p base length true) frame = true := by
  have small : base+length+pageSize-1 < 2^w := by simp only [pageSize] at *; omega
  rw [markRegion_test wide,wrap_small small,if_pos]
  simp only [pageSize] at *
  omega

section Init
variable {total : Nat} {region : MmapEntry → Option (Nat × Nat)} {kernelEnd : Nat} {memory : Words w}
  {mmap : List MmapEntry}

theorem init_total : (pmmInitWith total region kernelEnd memory mmap).totalFrames = total := by
  simp only [pmmInitWith,markRegion_total,freeRegions_total]

theorem full_sound (wide : 0 < w) (addressable : total*pageSize < 2^w) :
    Sound (⟨fillBytes memory ((total+7)/8),total,total⟩ : Pmm.State w) := by
  refine ⟨wide,addressable,(size_full _ ?_).symm⟩
  intro frame below
  have covered : frame < 8*((total+7)/8) := by
    change frame < total at below
    omega
  simp [fillBytes_member wide,covered]

theorem init_sound (wide : 0 < w) (addressable : total*pageSize < 2^w) :
    Sound (pmmInitWith total region kernelEnd memory mmap) := by
  unfold pmmInitWith
  exact markRegion_sound (markRegion_sound (markRegion_sound
    (freeRegions_sound _ _ (full_sound wide addressable)) _ _ _) _ _ _) _ _ _

theorem init_low (wide : 32 ≤ w) (counted : frame < total) (low : frame*pageSize < kernelStart) :
    frameTest (pmmInitWith total region kernelEnd memory mmap) frame = true := by
  have pos : 0 < w := by omega
  have room : 2^32 ≤ 2^w := Nat.pow_le_pow_right (by decide) wide
  unfold pmmInitWith
  apply markRegion_kept pos
  apply markRegion_kept pos
  apply markRegion_covers pos
  · rw [freeRegions_total]; exact counted
  · simp only [kernelStart,pageSize] at *; omega
  · simp only [pageSize]; omega
  · simpa using low

-- The image and the bitmap behind it must lie below the top of the address space for
-- their frames to be claimed: where the linker ends the image is not decided here.
def Linked (w kernelEnd total : Nat) : Prop :=
  kernelStart ≤ kernelEnd ∧ kernelEnd+2*pageSize+(total+7)/8 ≤ 2^w

def bitmapStart (kernelEnd : Nat) : Nat := (kernelEnd+pageSize-1)/pageSize*pageSize

theorem init_image (wide : 32 ≤ w) (linked : Linked w kernelEnd total) (counted : frame < total)
    (ends : kernelStart < (frame+1)*pageSize) (starts : frame*pageSize < kernelEnd) :
    frameTest (pmmInitWith total region kernelEnd memory mmap) frame = true := by
  have pos : 0 < w := by omega
  obtain ⟨ordered,fits⟩ := linked
  have distance : wrapSub w kernelEnd kernelStart = kernelEnd-kernelStart := by
    apply wrapSub_small ordered
    simp only [pageSize] at *
    omega
  unfold pmmInitWith
  apply markRegion_kept pos
  apply markRegion_covers pos
  · rw [markRegion_total,freeRegions_total]; exact counted
  · rw [distance]; omega
  · exact ends
  · rw [distance]; omega

theorem init_bitmap (wide : 32 ≤ w) (linked : Linked w kernelEnd total) (counted : frame < total)
    (ends : bitmapStart kernelEnd < (frame+1)*pageSize)
    (starts : frame*pageSize < bitmapStart kernelEnd+(total+7)/8) :
    frameTest (pmmInitWith total region kernelEnd memory mmap) frame = true := by
  have pos : 0 < w := by omega
  obtain ⟨ordered,fits⟩ := linked
  have start : wrap w (kernelEnd+pageSize-1)/pageSize*pageSize = bitmapStart kernelEnd := by
    rw [wrap_small (by simp only [pageSize] at *; omega),bitmapStart]
  unfold pmmInitWith
  dsimp only
  rw [start]
  apply markRegion_covers pos
  · rw [markRegion_total,markRegion_total,freeRegions_total]; exact counted
  · simp only [bitmapStart,pageSize] at *; omega
  · exact ends
  · exact starts

theorem init_unavailable (wide : 0 < w) (counted : frame < total)
    (missed : ∀ entry ∈ mmap, ∀ base length, region entry = some (base,length) →
      ¬ (base/pageSize ≤ frame ∧ frame < wrap w (base+length+pageSize-1)/pageSize)) :
    frameTest (pmmInitWith total region kernelEnd memory mmap) frame = true := by
  unfold pmmInitWith
  apply markRegion_kept wide
  apply markRegion_kept wide
  apply markRegion_kept wide
  apply freeRegions_kept _ _ wide _ missed
  have covered : frame < 8*((total+7)/8) := by omega
  simp [frameTest_member wide,fillBytes_member wide,covered]
end Init

-- pmm_init of either kernel, run to its end.
inductive Booted (kernelEnd : Nat) (mbi : MultibootInfo) : {w : Nat} → Pmm.State w → Prop where
  | kernel32 : pmmInit32 kernelEnd memory mbi = some started → Booted kernelEnd mbi started
  | kernel64 : pmmInit64 kernelEnd memory mbi = some started → Booted kernelEnd mbi started

-- The entry is usable RAM and reaches the frame, both ends rounded outward.
def Touches (entry : MmapEntry) (frame : Nat) : Prop :=
  entry.type = multibootMemoryAvailable ∧ entry.addr.toNat/pageSize ≤ frame ∧
    frame < (entry.addr.toNat+entry.len.toNat+pageSize-1)/pageSize

theorem region32_touches (found : region32 entry = some (base,length))
    (reached : base/pageSize ≤ frame ∧ frame < wrap 32 (base+length+pageSize-1)/pageSize) : Touches entry frame := by
  unfold region32 at found
  split at found
  · rename_i usable
    obtain ⟨available,low⟩ := usable
    have addrSmall := entry.addr.isLt
    have lenSmall := entry.len.isLt
    have sum := BitVec.toNat_add entry.addr entry.len
    cases Option.some.inj found
    simp only [wrap,wrapSub,pageSize] at reached
    refine ⟨available,?_,?_⟩
    · simp only [pageSize]; omega
    · simp only [pageSize]
      split at reached
      · omega
      · omega
  · cases found

theorem region64_touches (found : region64 entry = some (base,length))
    (reached : base/pageSize ≤ frame ∧ frame < wrap 64 (base+length+pageSize-1)/pageSize) : Touches entry frame := by
  unfold region64 at found
  split at found
  · rename_i available
    cases Option.some.inj found
    refine ⟨available,reached.1,Nat.lt_of_lt_of_le reached.2 ?_⟩
    exact Nat.div_le_div_right (Nat.mod_le _ _)
  · cases found

theorem booted_parts (boot : Booted kernelEnd mbi p) :
    32 ≤ w ∧ ∃ total region memory, p = pmmInitWith total region kernelEnd memory mbi.mmap ∧
      total*pageSize < 2^w ∧ ∀ entry base length frame, region entry = some (base,length) →
        base/pageSize ≤ frame ∧ frame < wrap w (base+length+pageSize-1)/pageSize → Touches entry frame := by
  cases boot with
  | @kernel32 memory _ started =>
    unfold pmmInit32 at started
    split at started
    · cases started
    · refine ⟨by decide,_,_,memory,(Option.some.inj started).symm,?_,fun _ _ _ _ => region32_touches⟩
      simp only [totalFrames32,pageSize]
      omega
  | @kernel64 memory _ started =>
    unfold pmmInit64 at started
    split at started
    · cases started
    · refine ⟨by decide,_,_,memory,(Option.some.inj started).symm,?_,fun _ _ _ _ => region64_touches⟩
      have small := (highestAvailable mbi.mmap).isLt
      simp only [totalFrames64,pageSize]
      omega

theorem booted_sound (boot : Booted kernelEnd mbi p) : Sound p := by
  obtain ⟨wide,total,region,memory,rfl,addressable,_⟩ := booted_parts boot
  exact init_sound (by omega) addressable

-- What pmm_init must not hand out: the first megabyte, whatever no usable entry of
-- the map reaches, the kernel image and the bitmap.
def Reserved (w : Nat) (kernelEnd : Nat) (mbi : MultibootInfo) (total frame : Nat) : Prop :=
  frame*pageSize < kernelStart ∨ (∀ entry ∈ mbi.mmap, ¬ Touches entry frame) ∨
  Linked w kernelEnd total ∧
    (kernelStart < (frame+1)*pageSize ∧ frame*pageSize < kernelEnd ∨
      bitmapStart kernelEnd < (frame+1)*pageSize ∧ frame*pageSize < bitmapStart kernelEnd+(total+7)/8)

theorem booted_reserved (boot : Booted kernelEnd mbi p) (counted : frame < p.totalFrames)
    (reserved : Reserved w kernelEnd mbi p.totalFrames frame) : frameTest p frame = true := by
  obtain ⟨wide,total,region,memory,rfl,_,touches⟩ := booted_parts boot
  rw [init_total] at counted reserved
  rcases reserved with low | unavailable | ⟨linked,image | bitmap⟩
  · exact init_low wide counted low
  · apply init_unavailable (by omega) counted
    intro entry present base length found reached
    exact unavailable entry present (touches _ _ _ _ found reached)
  · exact init_image wide linked counted image.1 image.2
  · exact init_bitmap wide linked counted bitmap.1 bitmap.2

-- The allocator together with who owns what: one list of frames for each live
-- allocation, from which frames leave one by one.
structure Ledger (w : Nat) where
  pmm : Pmm.State w
  live : List (List Nat)

inductive Call where
  | allocFrame
  | allocFrames (count : Nat)
  | freeFrame (addr : Nat)

def record (live : List (List Nat)) (addr count : Nat) : List (List Nat) :=
  if addr = 0 then live else List.range' (addr/pageSize) count::live

-- Only the owner of a frame may free it; allocation is open to everyone.
def Allowed (s : Ledger w) : Call → Prop
  | .freeFrame addr => addr/pageSize ∈ s.live.flatten
  | _ => True

def apply (s : Ledger w) : Call → Ledger w
  | .allocFrame => ⟨(pmmAllocFrame s.pmm).2,record s.live (pmmAllocFrame s.pmm).1 1⟩
  | .allocFrames count => ⟨(pmmAllocFrames s.pmm count).2,record s.live (pmmAllocFrames s.pmm count).1 count⟩
  | .freeFrame addr => ⟨pmmFreeFrame s.pmm addr,s.live.map fun frames => frames.erase (addr/pageSize)⟩

def allocator (w : Nat) (kernelEnd : Nat) (mbi : MultibootInfo) : System (Ledger w) Call :=
  guarded (fun s => Booted kernelEnd mbi s.pmm ∧ s.live = []) Allowed apply

-- `first` is the state pmm_init left. Its set bits are never given out, and every
-- frame that was given out is still marked.
structure Owned (first : Pmm.State w) (s : Ledger w) : Prop where
  sound : Sound s.pmm
  total : s.pmm.totalFrames = first.totalFrames
  disjoint : s.live.flatten.Nodup
  taken : ∀ frame ∈ s.live.flatten,
    frame < first.totalFrames ∧ frameTest first frame = false ∧ frameTest s.pmm frame = true
  kept : ∀ frame, frameTest first frame = true → frameTest s.pmm frame = true

theorem owned_start (sound : Sound p) : Owned p ⟨p,[]⟩ :=
  ⟨sound,rfl,by simp,by simp,fun _ marked => marked⟩

theorem owned_not_zero (low : ∀ frame < p.totalFrames, frame*pageSize < kernelStart → frameTest p frame = true)
    (owned : Owned p s) (below : frame < s.pmm.totalFrames) (clear : frameTest s.pmm frame = false) :
    frame ≠ 0 := by
  intro zero
  subst zero
  rw [owned.total] at below
  have marked := owned.kept 0 (low 0 below (by decide))
  rw [clear] at marked
  cases marked

-- A run of clear frames joins the ledger: the common part of both allocation calls.
theorem owned_claim (owned : Owned p s) (fits : start+count ≤ s.pmm.totalFrames)
    (clear : ∀ frame, start ≤ frame → frame < start+count → frameTest s.pmm frame = false) :
    Owned p ⟨claimRun s.pmm start count,List.range' start count::s.live⟩ := by
  have wide := owned.sound.wide
  have unmarked : ∀ frame ∈ List.range' start count, frameTest s.pmm frame = false := by
    intro frame member
    rw [List.mem_range'_1] at member
    exact clear frame member.1 member.2
  refine ⟨claimRun_sound owned.sound fits clear,?_,?_,?_,?_⟩
  · rw [claimRun_total,owned.total]
  · rw [List.flatten_cons,List.nodup_append]
    refine ⟨List.nodup_range',owned.disjoint,?_⟩
    intro frame fresh other old equal
    subst equal
    have marked := (owned.taken frame old).2.2
    rw [unmarked frame fresh] at marked
    cases marked
  · intro frame member
    rw [List.flatten_cons,List.mem_append] at member
    rw [claimRun_test wide]
    rcases member with fresh | old
    · have range := List.mem_range'_1.mp fresh
      refine ⟨by have := owned.total; omega,?_,by simp [range]⟩
      cases reserved : frameTest p frame with
      | false => rfl
      | true =>
        have marked := owned.kept frame reserved
        rw [unmarked frame fresh] at marked
        cases marked
    · obtain ⟨below,unreserved,marked⟩ := owned.taken frame old
      exact ⟨below,unreserved,by simp [marked]⟩
  · intro frame reserved
    rw [claimRun_test wide,owned.kept frame reserved]
    simp

theorem claimRun_one (p : Pmm.State w) (frame : Nat) : claimRun p frame 1 = claim p frame := rfl

theorem address_frame (frame : Nat) : frame*pageSize/pageSize = frame := by simp [pageSize]

theorem flatten_erase_sublist (frame : Nat) (live : List (List Nat)) :
    (live.map fun frames => frames.erase frame).flatten.Sublist live.flatten := by
  induction live with
  | nil => exact List.Sublist.refl _
  | cons frames live ih => exact List.Sublist.append List.erase_sublist ih

theorem flatten_erase_mem {live : List (List Nat)} (disjoint : live.flatten.Nodup) (member : other ∈ (live.map fun frames =>
    List.erase frames frame).flatten) : other ∈ live.flatten ∧ other ≠ frame := by
  refine ⟨(flatten_erase_sublist frame live).subset member,?_⟩
  intro equal
  subst equal
  obtain ⟨shrunk,present,inside⟩ := List.mem_flatten.mp member
  obtain ⟨frames,original,rfl⟩ := List.mem_map.mp present
  have nodup : frames.Nodup := (List.nodup_flatten.mp disjoint).1 frames original
  exact nodup.not_mem_erase inside

theorem owned_release (owned : Owned p s) (member : addr/pageSize ∈ s.live.flatten) :
    Owned p ⟨pmmFreeFrame s.pmm addr,s.live.map fun frames => frames.erase (addr/pageSize)⟩ := by
  have wide := owned.sound.wide
  obtain ⟨below,unreserved,marked⟩ := owned.taken _ member
  have counted : addr/pageSize < s.pmm.totalFrames := by rw [owned.total]; exact below
  rw [free_marked counted marked]
  refine ⟨release_sound owned.sound counted marked,owned.total,?_,?_,?_⟩
  · exact owned.disjoint.sublist (flatten_erase_sublist _ _)
  · intro frame present
    obtain ⟨old,different⟩ := flatten_erase_mem owned.disjoint present
    obtain ⟨low,free,set⟩ := owned.taken frame old
    refine ⟨low,free,?_⟩
    rw [release_test wide,set]
    simp [different]
  · intro frame reserved
    have different : frame ≠ addr/pageSize := by
      intro equal
      subst equal
      rw [unreserved] at reserved
      cases reserved
    rw [release_test wide,owned.kept frame reserved]
    simp [different]

theorem owned_step (low : ∀ frame < p.totalFrames, frame*pageSize < kernelStart → frameTest p frame = true)
    (owned : Owned p s) (allowed : Allowed s call) : Owned p (apply s call) := by
  cases call with
  | allocFrame =>
    rcases allocFrame_parts owned.sound with failed | ⟨frame,below,clear,taken⟩
    · simpa [apply,failed,record] using owned
    · have nonzero : frame*pageSize ≠ 0 := by
        have := owned_not_zero low owned below clear
        simp [pageSize]
        omega
      have single := @owned_claim _ _ _ frame 1 owned (by omega) (by
        intro other lower upper
        have equal : other = frame := by omega
        rw [equal]
        exact clear)
      simpa only [apply,taken,record,nonzero,if_false,address_frame,claimRun_one] using single
  | allocFrames count =>
    rcases allocFrames_parts owned.sound count with failed | ⟨start,positive,fits,clear,taken⟩
    · simpa [apply,failed,record] using owned
    · have nonzero : start*pageSize ≠ 0 := by
        have := owned_not_zero low owned (by omega) (clear start (by omega) (by omega))
        simp [pageSize]
        omega
      simpa only [apply,taken,record,nonzero,if_false,address_frame] using owned_claim owned fits clear
  | freeFrame addr => exact owned_release owned allowed

-- Ownership over whole runs, from either kernel's pmm_init.
theorem booted_low (boot : Booted kernelEnd mbi p) :
    ∀ frame < p.totalFrames, frame*pageSize < kernelStart → frameTest p frame = true :=
  fun _ counted low => booted_reserved boot counted (.inl low)

theorem runs_owned (boot : Booted kernelEnd mbi p) (path : Runs (allocator w kernelEnd mbi) ⟨p,[]⟩ calls s) :
    Owned p s :=
  path.guarded_invariant (fun _ _ kept allowed => owned_step (booted_low boot) kept allowed)
    (owned_start (booted_sound boot))

-- An allocation that took a frame has an address other than 0: one that answers 0
-- left the allocator as it was.
theorem failed_allocFrame (low : ∀ frame < p.totalFrames, frame*pageSize < kernelStart → frameTest p frame = true)
    (owned : Owned p s) (zero : (pmmAllocFrame s.pmm).1 = 0) : (pmmAllocFrame s.pmm).2 = s.pmm := by
  rcases allocFrame_parts owned.sound with failed | ⟨frame,below,clear,taken⟩
  · rw [failed]
  · rw [taken] at zero
    have nonzero := owned_not_zero low owned below clear
    simp only [pageSize] at zero
    omega

theorem failed_allocFrames (low : ∀ frame < p.totalFrames, frame*pageSize < kernelStart → frameTest p frame = true)
    (owned : Owned p s) (zero : (pmmAllocFrames s.pmm count).1 = 0) : (pmmAllocFrames s.pmm count).2 = s.pmm := by
  rcases allocFrames_parts owned.sound count with failed | ⟨start,positive,fits,clear,taken⟩
  · rw [failed]
  · rw [taken] at zero
    have nonzero := owned_not_zero low owned (by omega) (clear start (by omega) (by omega))
    simp only [pageSize] at zero
    omega

def setBits (p : Pmm.State w) : Nat := ((Finset.range p.totalFrames).filter fun frame => frameTest p frame = true).card

theorem counted_setBits (sound : Sound p) : p.usedFrames = setBits p := by
  rw [sound.counted,size,setBits]
  simp only [frameTest_member sound.wide]

theorem frames_stay_safe (boot : Booted kernelEnd mbi p)
    (path : Runs (allocator w kernelEnd mbi) ⟨p,[]⟩ calls s) :
    s.live.flatten.Nodup ∧
    (∀ frame ∈ s.live.flatten, frame < p.totalFrames ∧ frameTest p frame = false) ∧
    (∀ frame < p.totalFrames, Reserved w kernelEnd mbi p.totalFrames frame →
      frameTest p frame = true ∧ frame ∉ s.live.flatten) ∧
    ((pmmAllocFrame s.pmm).1 = 0 → (pmmAllocFrame s.pmm).2 = s.pmm) ∧
    (∀ count, (pmmAllocFrames s.pmm count).1 = 0 → (pmmAllocFrames s.pmm count).2 = s.pmm) ∧
    s.pmm.usedFrames = setBits s.pmm ∧ s.pmm.totalFrames = p.totalFrames ∧
    (∀ addr, frameTest s.pmm (addr/pageSize) = false → pmmFreeFrame s.pmm addr = s.pmm) := by
  have owned := runs_owned boot path
  have low := booted_low boot
  refine ⟨owned.disjoint,fun frame live => ⟨(owned.taken frame live).1,(owned.taken frame live).2.1⟩,?_,
    failed_allocFrame low owned,fun _ => failed_allocFrames low owned,counted_setBits owned.sound,owned.total,
    fun _ => free_clear⟩
  intro frame counted reserved
  have marked := booted_reserved boot counted reserved
  refine ⟨marked,fun live => ?_⟩
  rw [(owned.taken frame live).2.1] at marked
  cases marked

-- Five usable frames behind the first megabyte, of which the image and the bitmap
-- take one each.
def smallMap : MultibootInfo := ⟨0x40#32,[⟨0x100000#64,0x5000#64,1#32⟩]⟩
def smallStart : Pmm.State 32 := pmmInitWith (totalFrames32 smallMap.mmap) region32 0x101000 (fun _ => 0#32) smallMap.mmap
def smallRun : List Call := [.allocFrame,.allocFrames 2,.freeFrame 0x103004]
def smallTaken : Ledger 32 := smallRun.foldl apply ⟨smallStart,[]⟩

theorem smallTaken_reached : Runs (allocator 32 0x101000 smallMap) ⟨smallStart,[]⟩ smallRun smallTaken := by
  have two : Runs (allocator 32 0x101000 smallMap) ⟨smallStart,[]⟩ [.allocFrame,.allocFrames 2]
      ([.allocFrame,.allocFrames 2].foldl apply ⟨smallStart,[]⟩) := (Runs.nil.act trivial).act trivial
  have owned : Allowed ([.allocFrame,.allocFrames 2].foldl apply ⟨smallStart,[]⟩) (.freeFrame 0x103004) := by
    unfold Allowed
    decide +kernel
  exact two.act owned

theorem frames_stay_safe_small : smallTaken.live = [[0x104],[0x102]] ∧
    smallTaken.live.flatten.Nodup ∧ smallTaken.pmm.usedFrames = setBits smallTaken.pmm := by
  have safe := @frames_stay_safe _ smallStart smallMap _ _ _ (@Booted.kernel32 _ _ (fun _ => 0#32) _ rfl) smallTaken_reached
  exact ⟨by decide +kernel,safe.1,safe.2.2.2.2.2.1⟩

-- Two allocators that answer alike, whatever their bitmaps look like.
structure Alike (p q : Pmm.State w) : Prop where
  total : p.totalFrames = q.totalFrames
  test : ∀ frame < q.totalFrames,frameTest p frame = frameTest q frame

theorem alike_claim (wide : 0 < w) {p q : Pmm.State w} (alike : Alike p q) (frame : Nat) : Alike (claim p frame) (claim q frame) := by
  refine ⟨alike.total,fun other below => ?_⟩
  rw [claim_test wide,claim_test wide,alike.test other below]

theorem alike_claimRun (wide : 0 < w) {p q : Pmm.State w} (alike : Alike p q) (start count : Nat) :
    Alike (claimRun p start count) (claimRun q start count) := by
  unfold claimRun
  generalize List.range' start count = frames
  induction frames generalizing p q with
  | nil => exact alike
  | cons frame frames ih => exact ih (alike_claim wide alike frame)

theorem alike_allocFrame (wide : 0 < w) {p q : Pmm.State w} (alike : Alike p q) :
    (pmmAllocFrame p).1 = (pmmAllocFrame q).1 ∧ Alike (pmmAllocFrame p).2 (pmmAllocFrame q).2 := by
  have found : (List.range p.totalFrames).find? (fun frame => !frameTest p frame) =
      (List.range q.totalFrames).find? (fun frame => !frameTest q frame) := by
    rw [alike.total,←List.head?_filter,←List.head?_filter]
    congr 1
    apply List.filter_congr
    intro frame member
    rw [alike.test frame (List.mem_range.mp member)]
  unfold pmmAllocFrame
  rw [found]
  split
  · exact ⟨rfl,alike_claim wide alike _⟩
  · exact ⟨rfl,alike⟩

theorem alike_findRun {p q : Pmm.State w} (alike : Alike p q) (count left frame start length : Nat)
    (inside : frame+left ≤ q.totalFrames) : findRun p count left frame start length = findRun q count left frame start length := by
  induction left generalizing frame start length with
  | zero => rfl
  | succ left ih =>
    rw [findRun,findRun,alike.test frame (by omega),ih (frame+1) (frame+1) 0 (by omega),
      ih (frame+1) start (length+1) (by omega)]

theorem alike_allocFrames (wide : 0 < w) {p q : Pmm.State w} (alike : Alike p q) (count : Nat) :
    (pmmAllocFrames p count).1 = (pmmAllocFrames q count).1 ∧ Alike (pmmAllocFrames p count).2 (pmmAllocFrames q count).2 := by
  unfold pmmAllocFrames
  rw [alike.total,alike_findRun alike count q.totalFrames 0 0 0 (by omega)]
  split
  · exact ⟨rfl,alike⟩
  · split
    · exact ⟨rfl,alike_claimRun wide alike _ _⟩
    · exact ⟨rfl,alike⟩

-- pmm_init over a memory map of one entry, read frame by frame.
theorem init_one {region : MmapEntry → Option (Nat × Nat)} (found : region entry = some (base,length)) (wide : 0 < w)
    (total kernelEnd : Nat) (memory : Words w) :
    (pmmInitWith total region kernelEnd memory [entry]).totalFrames = total ∧
    ∀ frame,frameTest (pmmInitWith total region kernelEnd memory [entry]) frame =
      if wrap w (kernelEnd+pageSize-1)/pageSize*pageSize/pageSize ≤ frame ∧
        frame < wrap w (wrap w (kernelEnd+pageSize-1)/pageSize*pageSize+(total+7)/8+pageSize-1)/pageSize ∧ frame < total then true
      else if kernelStart/pageSize ≤ frame ∧
        frame < wrap w (kernelStart+wrapSub w kernelEnd kernelStart+pageSize-1)/pageSize ∧ frame < total then true
      else if 0/pageSize ≤ frame ∧ frame < wrap w (0+kernelStart+pageSize-1)/pageSize ∧ frame < total then true
      else if base/pageSize ≤ frame ∧ frame < wrap w (base+length+pageSize-1)/pageSize ∧ frame < total then false
      else frameTest ⟨fillBytes memory ((total+7)/8),total,total⟩ frame := by
  have freed : [entry].foldl (freeRegion region) ⟨fillBytes memory ((total+7)/8),total,total⟩ =
      markRegion ⟨fillBytes memory ((total+7)/8),total,total⟩ base length false := by
    simp only [List.foldl_cons,List.foldl_nil,freeRegion,found]
  unfold pmmInitWith
  dsimp only
  rw [freed]
  refine ⟨by simp only [markRegion_total],fun frame => ?_⟩
  rw [markRegion_test wide,markRegion_test wide,markRegion_test wide,markRegion_test wide]
  simp only [markRegion_total]

end Arthic.PmmOwnership
