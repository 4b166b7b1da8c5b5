import Arthic.PmmOwnership

namespace Arthic.PmmBoot
open BitWords Pmm PmmOwnership Unsigned
variable {w : Nat} {p : State w} {mbi : MultibootInfo}

-- What the memory map says is usable, byte by byte, and what pmm_init keeps for itself.
def Ram (mmap : List MmapEntry) (x : Nat) : Prop :=
  ∃ entry ∈ mmap,entry.type = multibootMemoryAvailable ∧ entry.addr.toNat ≤ x ∧ x < entry.addr.toNat+entry.len.toNat

def Ours (kernelEnd total x : Nat) : Prop :=
  x < kernelStart ∨ kernelStart ≤ x ∧ x < kernelEnd ∨
    bitmapStart kernelEnd ≤ x ∧ x < bitmapStart kernelEnd+(total+7)/8

def Within (frame : Nat) (holds : Nat → Prop) : Prop :=
  ∀ x,frame*pageSize ≤ x → x < (frame+1)*pageSize → holds x

def Outside (kernelEnd total frame : Nat) : Prop := Within frame fun x => ¬ Ours kernelEnd total x

-- What pass two of either kernel makes of an entry, and the frames mark_region visits.
def regionOf (w : Nat) : MmapEntry → Option (Nat × Nat) := if w = 32 then region32 else region64

def Handed (w : Nat) (entry : MmapEntry) (frame : Nat) : Prop :=
  ∃ base length,regionOf w entry = some (base,length) ∧ base/pageSize ≤ frame ∧
    frame < wrap w (base+length+pageSize-1)/pageSize

-- The entry begins or ends inside the frame.
def Cut (entry : MmapEntry) (frame : Nat) : Prop :=
  frame*pageSize < entry.addr.toNat ∧ entry.addr.toNat < (frame+1)*pageSize ∨
    frame*pageSize < entry.addr.toNat+entry.len.toNat ∧ entry.addr.toNat+entry.len.toNat < (frame+1)*pageSize

theorem outside_iff (kernelEnd total frame : Nat) :
    Outside kernelEnd total frame ↔ kernelStart ≤ frame*pageSize ∧
      ¬ (kernelStart < (frame+1)*pageSize ∧ frame*pageSize < kernelEnd) ∧
      ¬ (bitmapStart kernelEnd < (frame+1)*pageSize ∧ frame*pageSize < bitmapStart kernelEnd+(total+7)/8) := by
  constructor
  · intro outside
    refine ⟨?_,?_,?_⟩
    · by_contra low
      exact outside (frame*pageSize) (Nat.le_refl _) (by simp only [pageSize]; omega) (.inl (by omega))
    · rintro ⟨ends,starts⟩
      refine outside (frame*pageSize) (Nat.le_refl _) (by simp only [pageSize]; omega) ?_
      by_cases low : frame*pageSize < kernelStart
      · exact .inl low
      · exact .inr (.inl ⟨by omega,starts⟩)
    · rintro ⟨ends,starts⟩
      -- both begin on a page
      refine outside (frame*pageSize) (Nat.le_refl _) (by simp only [pageSize]; omega) (.inr (.inr ⟨?_,starts⟩))
      simp only [bitmapStart,pageSize] at *
      omega
  · rintro ⟨low,image,bitmap⟩ x lower upper (ours | ⟨first,last⟩ | ⟨first,last⟩)
    · omega
    · exact image ⟨by omega,by omega⟩
    · exact bitmap ⟨by omega,by omega⟩

section Init
variable {total kernelEnd : Nat} {memory : Words w} {mmap : List MmapEntry} {region : MmapEntry → Option (Nat × Nat)}

-- A bit that is clear after pass two was cleared for some entry, or before.
theorem freeRegions_test (wide : 0 < w) (mmap : List MmapEntry) (p : State w) (counted : frame < p.totalFrames) :
    frameTest (mmap.foldl (freeRegion region) p) frame = false ↔ frameTest p frame = false ∨
      ∃ entry ∈ mmap,∃ base length,region entry = some (base,length) ∧ base/pageSize ≤ frame ∧
        frame < wrap w (base+length+pageSize-1)/pageSize := by
  induction mmap generalizing p with
  | nil => simp
  | cons entry mmap ih =>
    rw [List.foldl_cons,ih]
    · unfold freeRegion
      cases found : region entry with
      | none => simp [found]
      | some pair =>
        obtain ⟨base,length⟩ := pair
        dsimp only
        rw [markRegion_test wide]
        by_cases visited : base/pageSize ≤ frame ∧ frame < wrap w (base+length+pageSize-1)/pageSize
        · rw [if_pos ⟨visited.1,visited.2,counted⟩]
          exact ⟨fun _ => .inr ⟨entry,List.mem_cons_self ..,base,length,found,visited⟩,fun _ => .inl rfl⟩
        · rw [if_neg fun inside => visited ⟨inside.1,inside.2.1⟩]
          constructor
          · rintro (old | ⟨other,member,rest⟩)
            · exact .inl old
            · exact .inr ⟨other,List.mem_cons_of_mem _ member,rest⟩
          · rintro (old | ⟨other,member,start,size,here,reached⟩)
            · exact .inl old
            · rcases List.mem_cons.mp member with rfl | later
              · rw [found] at here
                cases here
                exact absurd reached visited
              · exact .inr ⟨other,later,start,size,here,reached⟩
    · have same := freeRegions_total region [entry] p
      rw [List.foldl_cons,List.foldl_nil] at same
      rw [same]
      exact counted

-- After all three passes: clear is what some entry handed over and nobody claimed back.
theorem init_test (wide : 32 ≤ w) (linked : Linked w kernelEnd total) (counted : frame < total) :
    frameTest (pmmInitWith total region kernelEnd memory mmap) frame = false ↔ Outside kernelEnd total frame ∧
      ∃ entry ∈ mmap,∃ base length,region entry = some (base,length) ∧ base/pageSize ≤ frame ∧
        frame < wrap w (base+length+pageSize-1)/pageSize := by
  have pos : 0 < w := by omega
  constructor
  · intro clear
    have unmarked : ¬ frameTest (pmmInitWith total region kernelEnd memory mmap) frame = true := by simp [clear]
    refine ⟨(outside_iff _ _ _).mpr ⟨?_,?_,?_⟩,?_⟩
    · by_contra low
      exact unmarked (init_low wide counted (by omega))
    · exact fun inside => unmarked (init_image wide linked counted inside.1 inside.2)
    · exact fun inside => unmarked (init_bitmap wide linked counted inside.1 inside.2)
    · by_contra missed
      refine unmarked (init_unavailable pos counted fun entry member base length found reached => ?_)
      exact missed ⟨entry,member,base,length,found,reached⟩
  · rintro ⟨outside,handed⟩
    obtain ⟨low,image,bitmap⟩ := (outside_iff _ _ _).mp outside
    obtain ⟨ordered,fits⟩ := linked
    have start : wrap w (kernelEnd+pageSize-1)/pageSize*pageSize = bitmapStart kernelEnd := by
      rw [wrap_small (by simp only [pageSize] at *; omega),bitmapStart]
    have distance : wrapSub w kernelEnd kernelStart = kernelEnd-kernelStart := by
      apply wrapSub_small ordered
      simp only [pageSize] at *
      omega
    have room : 2^32 ≤ 2^w := Nat.pow_le_pow_right (by decide) wide
    unfold pmmInitWith
    dsimp only
    rw [start,distance,markRegion_test pos,if_neg,markRegion_test pos,if_neg,markRegion_test pos,if_neg]
    · refine (freeRegions_test pos mmap _ counted).mpr (.inr handed)
    · rintro ⟨_,reached,_⟩
      rw [wrap_small (by simp only [kernelStart,pageSize] at *; omega)] at reached
      simp only [kernelStart,pageSize] at *
      omega
    · rintro ⟨lower,reached,_⟩
      rw [wrap_small (by simp only [pageSize] at *; omega)] at reached
      refine image ⟨?_,?_⟩
      · simp only [kernelStart,pageSize] at *
        omega
      · simp only [pageSize] at *
        omega
    · rintro ⟨lower,reached,_⟩
      rw [wrap_small (by simp only [bitmapStart,pageSize] at *; omega)] at reached
      refine bitmap ⟨?_,?_⟩
      · simp only [pageSize] at *
        omega
      · simp only [pageSize] at *
        omega
end Init

theorem booted_test (boot : Booted kernelEnd mbi p) (linked : Linked w kernelEnd p.totalFrames) (counted : frame < p.totalFrames) :
    frameTest p frame = false ↔ Outside kernelEnd p.totalFrames frame ∧ ∃ entry ∈ mbi.mmap,Handed w entry frame := by
  cases boot with
  | @kernel32 memory _ started =>
    unfold pmmInit32 at started
    split at started
    · cases started
    · cases Option.some.inj started
      rw [init_total] at linked counted ⊢
      exact init_test (by decide) linked counted
  | @kernel64 memory _ started =>
    unfold pmmInit64 at started
    split at started
    · cases started
    · cases Option.some.inj started
      rw [init_total] at linked counted ⊢
      exact init_test (by decide) linked counted

theorem handed_touches (handed : Handed w entry frame) (wide : w = 32 ∨ w = 64) : Touches entry frame := by
  obtain ⟨base,length,found,reached⟩ := handed
  rcases wide with rfl | rfl
  · exact region32_touches found reached
  · exact region64_touches found reached

theorem booted_width (boot : Booted kernelEnd mbi p) : w = 32 ∨ w = 64 := by
  cases boot with
  | kernel32 _ => exact .inl rfl
  | kernel64 _ => exact .inr rfl

-- An entry that reaches a frame and does not end in it covers it.
theorem touches_covers (touches : Touches entry frame) (whole : ¬ Cut entry frame) :
    entry.type = multibootMemoryAvailable ∧ entry.addr.toNat ≤ frame*pageSize ∧
      (frame+1)*pageSize ≤ entry.addr.toNat+entry.len.toNat := by
  obtain ⟨available,first,last⟩ := touches
  refine ⟨available,?_⟩
  unfold Cut at whole
  simp only [pageSize] at *
  omega

-- No free frame holds anything but usable memory.
def Safe (mbi : MultibootInfo) (kernelEnd : Nat) (p : State w) : Prop :=
  ∀ frame < p.totalFrames,frameTest p frame = false →
    Within frame (Ram mbi.mmap) ∧ Outside kernelEnd p.totalFrames frame

-- A frame that an entry begins or ends in, and that is handed over all the same, is made
-- up of other entries.
def Filled (w : Nat) (mbi : MultibootInfo) (kernelEnd total : Nat) : Prop :=
  ∀ entry ∈ mbi.mmap,∀ frame < total,Handed w entry frame → Cut entry frame → Outside kernelEnd total frame →
    Within frame (Ram mbi.mmap)

theorem free_frames_are_ram (boot : Booted kernelEnd mbi p) (linked : Linked w kernelEnd p.totalFrames) :
    Safe mbi kernelEnd p ↔ Filled w mbi kernelEnd p.totalFrames := by
  constructor
  · intro safe entry member frame counted handed _ outside
    have clear := (booted_test boot linked counted).mpr ⟨outside,entry,member,handed⟩
    exact (safe frame counted clear).1
  · intro filled frame counted clear
    obtain ⟨outside,entry,member,handed⟩ := (booted_test boot linked counted).mp clear
    refine ⟨?_,outside⟩
    by_cases cut : Cut entry frame
    · exact filled entry member frame counted handed cut outside
    · obtain ⟨available,first,last⟩ := touches_covers (handed_touches handed (booted_width boot)) cut
      exact fun x lower upper => ⟨entry,member,available,by omega,by omega⟩

-- Two entries meet in the middle of frame 0x105; of memory up to 4 GB only the entry that
-- ends below the last page is handed over, and it is unaligned at both ends.
def seamMap : MultibootInfo := ⟨0x40#32,[⟨0x100000#64,0x5800#64,1#32⟩,⟨0x105800#64,0x2800#64,1#32⟩,
  ⟨0xFFFFD000#64,0x3000#64,1#32⟩,⟨0xFFFFD800#64,0x1000#64,1#32⟩]⟩
def seamStart : State 32 := pmmInitWith (totalFrames32 seamMap.mmap) region32 0x101000 (fun _ => 0#32) seamMap.mmap

theorem seam_booted : Booted 0x101000 seamMap seamStart := @Booted.kernel32 _ _ (fun _ => 0#32) _ rfl

theorem seam_total : seamStart.totalFrames = 0xFFFFF := by decide +kernel

theorem seam_linked : Linked 32 0x101000 seamStart.totalFrames := by
  rw [seam_total]
  exact ⟨by decide,by decide⟩

theorem seam_cut (entry : MmapEntry) (member : entry ∈ seamMap.mmap) (cut : Cut entry frame) :
    frame = 0x105 ∨ frame = 0xFFFFD ∨ frame = 0xFFFFE := by
  simp only [seamMap,List.mem_cons,List.not_mem_nil,or_false] at member
  unfold Cut at cut
  rcases member with rfl | rfl | rfl | rfl
  all_goals
    simp only [BitVec.toNat_ofNat,Nat.reducePow,Nat.reduceMod,Nat.reduceAdd,pageSize] at cut
    omega

theorem free_frames_are_ram_seam : Safe seamMap 0x101000 seamStart := by
  refine (free_frames_are_ram seam_booted seam_linked).mpr ?_
  intro entry member frame _ _ cut _ x low high
  have inside : ∀ other ∈ seamMap.mmap,other.addr.toNat ≤ x → x < other.addr.toNat+other.len.toNat →
      other.type = multibootMemoryAvailable → Ram seamMap.mmap x :=
    fun other listed first last available => ⟨other,listed,available,first,last⟩
  rcases seam_cut entry member cut with rfl | rfl | rfl
  · by_cases first : x < 0x105800
    · exact inside ⟨0x100000#64,0x5800#64,1#32⟩ (by simp [seamMap]) (by simp [pageSize] at *; omega) (by simp; omega) rfl
    · exact inside ⟨0x105800#64,0x2800#64,1#32⟩ (by simp [seamMap]) (by simp; omega) (by simp [pageSize] at *; omega) rfl
  all_goals exact inside ⟨0xFFFFD000#64,0x3000#64,1#32⟩ (by simp [seamMap]) (by simp [pageSize] at *; omega) (by simp [pageSize] at *; omega) rfl

-- A hole in the map begins in the middle of frame 0x105.
def unevenMap : MultibootInfo := ⟨0x40#32,[⟨0x100000#64,0x5800#64,1#32⟩,⟨0x107000#64,0x1000#64,1#32⟩]⟩
def unevenStart : State 32 :=
  pmmInitWith (totalFrames32 unevenMap.mmap) region32 0x101000 (fun _ => 0#32) unevenMap.mmap

theorem hole_handed_over : pmmInit32 0x101000 (fun _ => 0#32) unevenMap = some unevenStart ∧
    ¬ Safe unevenMap 0x101000 unevenStart := by
  refine ⟨rfl,fun safe => ?_⟩
  have free : 0x105 < unevenStart.totalFrames ∧ frameTest unevenStart 0x105 = false := by decide +kernel
  obtain ⟨entry,member,_,low,high⟩ := (safe 0x105 free.1 free.2).1 0x105800 (by decide) (by decide)
  rcases List.mem_cons.mp member with rfl | later
  · exact absurd high (by decide)
  · cases List.mem_singleton.mp later
    exact absurd low (by decide)

-- The entry holds the whole frame.
def Covers (entry : MmapEntry) (frame : Nat) : Prop :=
  entry.type = multibootMemoryAvailable ∧ entry.addr.toNat ≤ frame*pageSize ∧
    (frame+1)*pageSize ≤ entry.addr.toNat+entry.len.toNat

-- Every frame of usable memory can be allocated, and the others are counted as used.
def Lossless (mbi : MultibootInfo) (kernelEnd : Nat) (p : State 32) : Prop :=
  (∀ frame < p.totalFrames,(∃ entry ∈ mbi.mmap,Covers entry frame) → Outside kernelEnd p.totalFrames frame →
    frameTest p frame = false) ∧ p.usedFrames = setBits p

-- Past this address the rounding in mark_region runs over.
def lastPage : Nat := 0xFFFFF000

-- What an entry hands over can be read off the map: nothing unless it ends, in 64 bits, at
-- or before the last page, and otherwise every frame it touches.
def Reaches (entry : MmapEntry) (frame : Nat) : Prop :=
  entry.type = multibootMemoryAvailable ∧ (entry.addr+entry.len).toNat ≤ lastPage ∧
    entry.addr.toNat < (frame+1)*pageSize ∧ frame*pageSize < (entry.addr+entry.len).toNat

-- Every whole frame of an entry that ends behind the last page is touched by an entry that
-- does not.
def Recovered (mbi : MultibootInfo) (kernelEnd total : Nat) : Prop :=
  ∀ entry ∈ mbi.mmap,lastPage < entry.addr.toNat+entry.len.toNat → ∀ frame < total,Covers entry frame →
    Outside kernelEnd total frame → ∃ other ∈ mbi.mmap,Reaches other frame

-- The length of an entry that goes past 4 GB is cut so that the rounding runs over.
theorem clamped_none (base : Nat) (small : base < 0xFFFFFFFF) :
    wrap 32 (base+wrapSub 32 0xFFFFFFFF base+pageSize-1)/pageSize = 0 := by
  rw [wrapSub_small (by omega) (by decide),show base+(0xFFFFFFFF-base) = 0xFFFFFFFF by omega]
  rfl

-- Otherwise the end of the range is the entry's end, rounded up or run over.
theorem unclamped_last (entry : MmapEntry) (low : entry.addr.toNat < 0xFFFFFFFF)
    (inside : (entry.addr+entry.len).toNat ≤ 0xFFFFFFFF) :
    wrap 32 (wrap 32 entry.addr.toNat+wrap 32 entry.len.toNat+pageSize-1)/pageSize =
      if (entry.addr+entry.len).toNat ≤ lastPage then ((entry.addr+entry.len).toNat+pageSize-1)/pageSize else 0 := by
  have sum := BitVec.toNat_add entry.addr entry.len
  have first := entry.addr.isLt
  have size := entry.len.isLt
  by_cases ends : (entry.addr+entry.len).toNat ≤ lastPage
  · rw [if_pos ends]
    simp only [wrap,lastPage,pageSize] at *
    omega
  · rw [if_neg ends]
    simp only [wrap,lastPage,pageSize] at *
    omega

theorem handed_iff : Handed 32 entry frame ↔ Reaches entry frame := by
  have first := entry.addr.isLt
  have base : entry.addr.toNat < 0xFFFFFFFF → wrap 32 entry.addr.toNat = entry.addr.toNat := fun low => wrap_small (by omega)
  have clamped := @clamped_none entry.addr.toNat
  have unclamped := unclamped_last entry
  unfold Handed Reaches
  rw [show regionOf 32 entry = region32 entry from rfl,region32]
  constructor
  · rintro ⟨start,length,found,above,below⟩
    split at found
    · rename_i usable
      cases Option.some.inj found
      rw [base usable.2] at above below
      split at below
      · rw [clamped usable.2] at below
        cases below
      · rename_i within
        have last := unclamped usable.2 (by omega)
        rw [base usable.2] at last
        rw [last] at below
        split at below
        · rename_i ends
          refine ⟨usable.1,ends,?_,?_⟩
          · simp only [pageSize] at *
            omega
          · simp only [pageSize] at *
            omega
        · cases below
    · cases found
  · rintro ⟨available,ends,above,below⟩
    have low : entry.addr.toNat < 0xFFFFFFFF := by
      simp only [lastPage,pageSize] at *
      omega
    have within : (entry.addr+entry.len).toNat ≤ 0xFFFFFFFF := Nat.le_trans ends (by decide)
    have last := unclamped low within
    rw [if_pos ends,base low] at last
    rw [if_pos ⟨available,low⟩]
    dsimp only
    rw [if_neg (by omega),base low]
    refine ⟨_,_,rfl,?_,?_⟩
    · simp only [pageSize] at *
      omega
    · rw [last]
      simp only [pageSize] at *
      omega

-- So an entry that ends behind the last page, without running past 2^64, hands nothing over.
theorem high_hands_nothing (high : lastPage < entry.addr.toNat+entry.len.toNat)
    (whole : entry.addr.toNat+entry.len.toNat < 2^64) : ¬ Handed 32 entry frame := by
  rw [handed_iff]
  rintro ⟨_,ends,_⟩
  rw [BitVec.toNat_add,Nat.mod_eq_of_lt whole] at ends
  omega

-- An entry below the last page of the address space is handed over whole.
theorem covers_reaches (covers : Covers entry frame) (low : entry.addr.toNat+entry.len.toNat ≤ lastPage) : Reaches entry frame := by
  obtain ⟨available,first,last⟩ := covers
  have sum := BitVec.toNat_add entry.addr entry.len
  simp only [Reaches,lastPage,pageSize] at *
  refine ⟨available,?_,?_,?_⟩
  all_goals omega

theorem ram_is_allocatable {p : State 32} (booted : pmmInit32 kernelEnd memory mbi = some p) (linked : Linked 32 kernelEnd p.totalFrames) :
    Lossless mbi kernelEnd p ↔ Recovered mbi kernelEnd p.totalFrames := by
  have boot : Booted kernelEnd mbi p := .kernel32 booted
  constructor
  · rintro ⟨lossless,_⟩ entry member _ frame counted covers outside
    have clear := lossless frame counted ⟨entry,member,covers⟩ outside
    obtain ⟨_,other,listed,handed⟩ := (booted_test boot linked counted).mp clear
    exact ⟨other,listed,handed_iff.mp handed⟩
  · intro recovered
    refine ⟨?_,counted_setBits (booted_sound boot)⟩
    rintro frame counted ⟨entry,member,covers⟩ outside
    refine (booted_test boot linked counted).mpr ⟨outside,?_⟩
    by_cases low : entry.addr.toNat+entry.len.toNat ≤ lastPage
    · exact ⟨entry,member,handed_iff.mpr (covers_reaches covers low)⟩
    · obtain ⟨other,listed,reaches⟩ := recovered entry member (by omega) frame counted covers outside
      exact ⟨other,listed,handed_iff.mpr reaches⟩

theorem ram_is_allocatable_seam : Lossless seamMap 0x101000 seamStart := by
  have booted : pmmInit32 0x101000 (fun _ => 0#32) seamMap = some seamStart := rfl
  refine (ram_is_allocatable booted seam_linked).mpr ?_
  rw [seam_total]
  intro entry member high frame counted covers _
  refine ⟨⟨0xFFFFD800#64,0x1000#64,1#32⟩,by simp [seamMap],rfl,by decide,?_⟩
  simp only [seamMap,List.mem_cons,List.not_mem_nil,or_false] at member
  obtain ⟨_,first,last⟩ := covers
  rcases member with rfl | rfl | rfl | rfl
  · exact absurd high (by decide)
  · exact absurd high (by decide)
  · simp [pageSize] at *
    omega
  · exact absurd high (by decide)

-- Memory without a hole from 1 MB to 4 GB.
def fullMap : MultibootInfo := ⟨0x40#32,[⟨0x100000#64,0xFFF00000#64,1#32⟩]⟩
def fullStart : State 32 := pmmInitWith (totalFrames32 fullMap.mmap) region32 0x101000 (fun _ => 0#32) fullMap.mmap

theorem memory_lost : pmmInit32 0x101000 (fun _ => 0#32) fullMap = some fullStart ∧ ¬ Lossless fullMap 0x101000 fullStart := by
  refine ⟨rfl,fun lossless => ?_⟩
  have used : 0x200 < fullStart.totalFrames ∧ frameTest fullStart 0x200 = true := by decide +kernel
  have total : fullStart.totalFrames = 0xFFFFF := by decide +kernel
  have outside : Outside 0x101000 fullStart.totalFrames 0x200 := by
    rw [total]
    refine (outside_iff _ _ _).mpr ⟨by decide,by decide,by decide⟩
  have clear := lossless.1 0x200 used.1 ⟨_,List.mem_singleton_self _,rfl,by decide,by decide⟩ outside
  rw [used.2] at clear
  cases clear

end Arthic.PmmBoot
