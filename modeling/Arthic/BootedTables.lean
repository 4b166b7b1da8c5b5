import Arthic.IdentityMap
import Arthic.PointerWindow
import Arthic.TableGrowth

namespace Arthic.BootedTables
open AddressSpaces ByteMemory IdentityMap KernelMap PageTree PageTables Paging Pmm PmmOwnership PointerWindow SyscallSafety
  TableGrowth Unsigned Usermode
variable {m : Mmu} {opened : Nat → Prop} {flags : Nat → Entry}

-- What the page tables and the allocator are before the first program: the kernel's tables
-- are in order and reach as far as they are shared, and what they open to ring 3 is taken.
structure Prepared (m : Mmu) : Prop where
  kernel : KernelSpace m
  complete : Complete m
  zero : Taken m.frames 0
  opened : ∀ v < 2^32,∀ page,walk m.mem m.image.kernelPdpt v = some page → page.user = true → Taken m.frames (address page.leaf)

theorem charted_complete (charted : Charted m opened) : Complete m := by
  intro j below
  have few := charted.kernel.entries
  have limit := charted.limit
  have inside : j*pdCoverage < m.mappedLimit := by
    rw [limit]
    exact Nat.mul_lt_mul_of_pos_right below (by decide)
  obtain ⟨page,found,_⟩ := charted.mapped _ inside
  have low : j*pdCoverage < 2^32 := by
    simp only [tableEntries,pdCoverage] at *
    omega
  obtain ⟨_,table,_,held,_⟩ := (walk_iff low).mp found
  have index : pdptIndex (j*pdCoverage) = 0 ∧ pdIndex (j*pdCoverage) = j := by
    simp only [pdptIndex,pdIndex,tableEntries,pdCoverage] at *
    omega
  rw [index.1,index.2,charted.active] at held
  exact ⟨table,held⟩

-- An open page is its own frame.
theorem charted_prepared (charted : Charted m opened) (leafed : Leafed m flags) (zero : Taken m.frames 0)
    (taken : ∀ n,opened n → Taken m.frames (n*pageSize)) : Prepared m := by
  refine ⟨charted.kernel,charted_complete charted,zero,?_⟩
  intro v low page found user
  rw [←charted.active] at found
  by_cases inside : v < m.mappedLimit
  · obtain ⟨seen,same,open_,_⟩ := charted.mapped v inside
    cases Option.some.inj (same.symm.trans found)
    have leaf := leafed.exact v inside
    rw [found,Option.map_some] at leaf
    rw [Option.some.inj leaf,identity_address low (leafed.plain _)]
    rw [Page.user,Bool.and_eq_true] at user
    exact taken _ (open_.mp user.2)
  · rw [walk_none low (charted.unmapped v low (by omega))] at found
    cases found

theorem makeUser_frames (m : Mmu) (start end_ : Nat) (writable : Bool) : (pagingMakeUser m start end_ writable).frames = m.frames := by
  unfold pagingMakeUser
  dsimp only
  generalize pagesFrom (roundDown start) end_ = pages
  induction pages generalizing m with
  | nil => rfl
  | cons a rest ih =>
    rw [List.foldl_cons,ih,makeUserPage,pagingSetFlags]
    split <;> split <;> rfl

-- The demo's stack, if there were frames for it.
theorem usermodeInit_stack (sound : Sound m.frames) (g : Syscalls.Gate) :
    (usermodeInit m g).userStackBase = 0 ∧ (usermodeInit m g).userStackTop = 0 ∨
    (usermodeInit m g).userStackBase ≠ 0 ∧ ∃ start,(usermodeInit m g).userStackBase = start*pageSize ∧
      (usermodeInit m g).userStackTop = start*pageSize+userStackFrames*pageSize ∧
      start*pageSize+userStackFrames*pageSize < 2^32 ∧
      (usermodeInit m g).mmu.frames = claimRun m.frames start userStackFrames := by
  have base := allocFrames_parts sound userStackFrames
  unfold usermodeInit
  generalize pmmAllocFrames m.frames userStackFrames = answer at *
  obtain ⟨phys,frames⟩ := answer
  dsimp only at *
  by_cases zero : phys = 0
  · simp only [if_pos zero]
    exact .inl ⟨trivial,trivial⟩
  simp only [if_neg zero]
  rcases base with full | ⟨start,_,fits,_,taken⟩
  · exact absurd (Prod.mk.inj full).1 zero
  obtain ⟨rfl,rfl⟩ := Prod.mk.inj taken
  have addressable := sound.addressable
  have below : start*pageSize+userStackFrames*pageSize < 2^32 := by
    rw [←Nat.add_mul]
    exact Nat.lt_of_le_of_lt (Nat.mul_le_mul_right _ fits) addressable
  exact .inr ⟨zero,start,rfl,wrap_small below,below,by rw [makeUser_frames,makeUser_frames]⟩

theorem usermodeInit_taken (sound : Sound m.frames) (g : Syscalls.Gate) (above : (usermodeInit m g).userStackBase ≤ n*pageSize)
    (below : n*pageSize < (usermodeInit m g).userStackTop) : Taken (usermodeInit m g).mmu.frames (n*pageSize) := by
  rcases usermodeInit_stack sound g with ⟨_,top⟩ | ⟨_,start,base,top,_,frames⟩
  · rw [top] at below
    exact absurd below (Nat.not_lt_zero _)
  rw [base] at above
  rw [top] at below
  rw [frames]
  refine .inr ?_
  rw [claimRun_test (by decide),if_pos]
  simp only [pageSize] at *
  omega

theorem usermodeInit_prepared (charted : Charted m fun _ => False) (leafed : Leafed m flags) (zero : Taken m.frames 0)
    (text : ∀ addr < m.image.userTextEnd,Taken m.frames addr) (g : Syscalls.Gate) : Prepared (usermodeInit m g).mmu := by
  obtain ⟨leaves,kept,_⟩ := usermodeInit_leafed charted leafed g
  rcases usermodeInit_parts charted g with ⟨_,_,closed⟩ | ⟨_,_,_,_,_,open_⟩
  · exact charted_prepared closed leaves (kept.taken 0 zero) fun n impossible => impossible.elim
  · refine charted_prepared open_ leaves (kept.taken 0 zero) ?_
    rintro n ((impossible | ⟨_,below⟩) | ⟨above,below⟩)
    · exact impossible.elim
    · exact kept.taken _ (text _ below)
    · exact usermodeInit_taken charted.kernel.space.sound g above below

theorem kernelMain_prepared (booted : kernelMain image memory mem mbi nx heap = some (demo,kept)) : Prepared demo.mmu := by
  obtain ⟨frames,m,left,started,paged,sound,more,rfl⟩ := kernelMain_stages booted
  have boot : Booted image.kernelEnd mbi frames := .kernel32 started
  have seated := booted_seated (m:=⟨image,mem,frames,0,0,0,false⟩) boot
  obtain ⟨charted,same,taken⟩ := init_charted seated paged
  change m.image = image at same
  have kernel (addr : Nat) (below : addr < image.kernelEnd) : Taken left addr :=
    more addr (taken addr (@booted_taken ⟨image,mem,frames,0,0,0,false⟩ _ _ boot below))
  obtain ⟨_,_,_⟩ := image.text
  obtain ⟨_,_,_,_⟩ := image.bss
  refine usermodeInit_prepared (charted_frames charted sound more) (leafed_frames (init_parts seated paged).leafed left)
    (kernel 0 (by omega)) ?_ {}
  intro addr below
  rw [show ({m with frames:=left} : Mmu).image = image from same] at below
  exact kernel addr (by omega)

-- The machine of 640 frames before its shell starts.
theorem boot_identity : IdentityTables bootMmu 2 fun j => 0x106000+j*pageSize := by
  have top : next pae bootMem 0x103000 0 = some 0x104000 := by decide
  have rest : ∀ i < pdptEntries,0 < i → next pae bootMem 0x103000 i = none := by decide
  have tables : ∀ j < tableEntries,next pae bootMem 0x104000 j = if j < 2 then some (0x106000+j*pageSize) else none := by
    decide +kernel
  have leaves : ∀ i < 2,∀ k < tableEntries,entry bootMem (0x106000+i*pageSize) k = identityLeaf i k := by decide +kernel
  exact ⟨by decide,rfl,rfl,rfl,top,fun i later low => rest i low later,tables,leaves⟩

theorem boot_charted : Charted bootMmu fun _ => False :=
  identity_charted boot_identity (@boot_space heapFramesTaken (sound_below heapFramesTaken (by decide) (by decide) (by decide)
    (by decide +kernel)) (by decide +kernel) _)

theorem bootDemo_home : bootDemo.mmu.active = bootDemo.mmu.image.kernelPdpt := by
  obtain ⟨image,active,_⟩ := usermodeInit_fixed bootMmu {}
  rw [bootDemo,active,image]
  rfl

theorem bootDemo_prepared : Prepared bootDemo.mmu := by
  refine usermodeInit_prepared boot_charted (identity_leafed boot_identity) (by decide) ?_ {}
  intro addr below
  have taken : ∀ n < 0x102,frameTest heapFramesTaken n = true := by decide +kernel
  change addr < 0x102000 at below
  exact .inr (taken _ (by simp only [pageSize]; omega))

end Arthic.BootedTables
