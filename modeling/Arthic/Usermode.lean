import Arthic.Kheap
import Arthic.KernelMap
import Arthic.Syscalls

namespace Arthic.Usermode
open AddressSpaces ByteMemory KernelMap PageTree PageTables Paging Pmm PmmOwnership Syscalls Unsigned

def userStackFrames : Nat := 2

-- The two static variables of usermode.c with what usermode_init works on.
structure Demo where
  mmu : Mmu
  gate : Gate
  userStackBase : Nat
  userStackTop : Nat

def usermodeInit (m : Mmu) (g : Gate) : Demo :=
  let (base,frames) := pmmAllocFrames m.frames userStackFrames
  let m := {m with frames:=frames}
  if base = 0 then ⟨m,g,0,0⟩ else
  let top := wrap 32 (base+userStackFrames*pageSize)
  let m := pagingMakeUser m m.image.userTextStart m.image.userTextEnd false
  let m := pagingMakeUser m base top true
  ⟨m,syscallSetUserRange g m.image.userTextStart top,base,top⟩

-- kernel_main from pmm_init to usermode_init. Everything before that lies in the image,
-- which the loader of the kernel has put there; `memory` holds the bytes under the bitmap.
def kernelMain (image : Image) (memory : BitWords.Words 32) (mem : Memory) (mbi : MultibootInfo) (nx : Bool)
    (heap : Kheap.Heap) : Option (Demo × Kheap.Heap) :=
  (pmmInit32 image.kernelEnd memory mbi).bind fun frames =>
  (pagingInit ⟨image,mem,frames,0,0,0,false⟩ nx).map fun m =>
  let (heap,frames) := Kheap.kheapInit .i386 heap m.frames
  (usermodeInit {m with frames:=frames} {},heap)

variable {m after : Mmu}

theorem allocFrames_kept (sound : Sound p) (count : Nat) :
    Sound (pmmAllocFrames p count).2 ∧ ∀ addr,Taken p addr → Taken (pmmAllocFrames p count).2 addr := by
  rcases allocFrames_parts sound count with full | ⟨start,_,fits,clear,taken⟩
  · rw [full]
    exact ⟨sound,fun _ held => held⟩
  · rw [taken]
    exact ⟨claimRun_sound sound fits clear,fun _ => claimRun_taken _ _ _⟩

-- Taking frames changes nothing that is mapped.
theorem charted_frames (charted : Charted m opened) (sound : Sound frames)
    (more : ∀ addr,Taken m.frames addr → Taken frames addr) : Charted {m with frames:=frames} opened := by
  have kernel := charted.kernel
  have space : Space {m with frames:=frames} m.image.kernelPdpt :=
    space_same kernel.space frames sound more (fun _ _ _ _ _ => rfl)
  exact ⟨⟨space,kernel.directory,kernel.broad,kernel.entries⟩,charted.active,charted.limit,charted.mapped,charted.unmapped⟩

-- Either there was no memory for a stack, and the window is what it was, or exactly the
-- text and the stack are open to ring 3.
theorem usermodeInit_parts (charted : Charted m fun _ => False) (g : Gate) :
    (usermodeInit m g).gate = g ∧ Kept m (usermodeInit m g).mmu ∧ Charted (usermodeInit m g).mmu (fun _ => False) ∨
    (usermodeInit m g).gate = syscallSetUserRange g m.image.userTextStart (usermodeInit m g).userStackTop ∧
      (usermodeInit m g).userStackBase % pageSize = 0 ∧
      (usermodeInit m g).userStackTop = (usermodeInit m g).userStackBase+userStackFrames*pageSize ∧
      (usermodeInit m g).userStackTop < 2^32 ∧ Kept m (usermodeInit m g).mmu ∧
      Charted (usermodeInit m g).mmu fun n =>
        (False ∨ m.image.userTextStart ≤ n*pageSize ∧ n*pageSize < m.image.userTextEnd) ∨
        (usermodeInit m g).userStackBase ≤ n*pageSize ∧ n*pageSize < (usermodeInit m g).userStackTop := by
  have sound : Sound m.frames := charted.kernel.space.sound
  obtain ⟨soundAfter,more⟩ := allocFrames_kept sound userStackFrames
  have base := allocFrames_parts sound userStackFrames
  unfold usermodeInit
  generalize pmmAllocFrames m.frames userStackFrames = answer at *
  obtain ⟨phys,frames⟩ := answer
  dsimp only at *
  have started := charted_frames charted soundAfter more
  have claimed : Kept m {m with frames:=frames} := ⟨rfl,rfl,rfl,rfl,rfl,more⟩
  by_cases zero : phys = 0
  · simp only [if_pos zero]
    exact .inl ⟨trivial,claimed,started⟩
  simp only [if_neg zero]
  rcases base with full | ⟨start,_,fits,_,taken⟩
  · exact absurd (Prod.mk.inj full).1 zero
  obtain ⟨rfl,_⟩ := Prod.mk.inj taken
  have addressable := sound.addressable
  have below : start*pageSize+userStackFrames*pageSize < 2^32 := by
    rw [←Nat.add_mul]
    exact Nat.lt_of_le_of_lt (Nat.mul_le_mul_right _ fits) addressable
  have top := wrap_small below
  obtain ⟨_,_,textBelow⟩ := m.image.text
  obtain ⟨_,_,_,_⟩ := m.image.bss
  have imageFits := m.image.fits
  obtain ⟨text,keptText⟩ := makeUser_charted started m.image.user (by omega) false
  have aligned : start*pageSize % pageSize = 0 ∧ (start*pageSize+userStackFrames*pageSize) % pageSize = 0 := by
    simp only [pageSize,userStackFrames]
    omega
  obtain ⟨both,keptStack⟩ := makeUser_charted text aligned (by omega) true
  rw [top]
  refine .inr ⟨?_,aligned.1,rfl,below,?_,both⟩
  · rw [keptStack.image,keptText.image]
  · exact kept_trans claimed (kept_trans keptText keptStack)

-- Pages that ring 3 could not use itself are not used for it.
def Confined (mem : Memory) (pdpt : Nat) (accesses : List Access) : Prop :=
  ∀ x ∈ accesses,∀ page,walk mem pdpt x.addr = some page → page.user = true

theorem charted_user (charted : Charted m opened) (low : v < 2^32) :
    (∀ page,walk m.mem m.active v = some page → page.user = true) ↔ m.mappedLimit ≤ v ∨ opened (v/pageSize) := by
  by_cases below : v < m.mappedLimit
  · obtain ⟨page,found,user,wide⟩ := charted.mapped v below
    constructor
    · intro all
      have both := all page found
      rw [Page.user,Bool.and_eq_true] at both
      exact .inr (user.mp both.2)
    · intro known other same
      cases Option.some.inj (found.symm.trans same)
      have leaf := user.mpr (known.resolve_left (by omega))
      rw [Page.user,wide leaf,leaf,Bool.and_true]
  · constructor
    · intro _
      exact .inl (by omega)
    · intro _ page found
      rw [walk_none low (charted.unmapped v low (by omega))] at found
      cases found

-- The state usermode_init leaves: the kernel's space in order, and inside the window only
-- text and stack open to ring 3.
structure Demonstrated (image : Image) (demo : Demo) : Prop where
  kernel : KernelSpace demo.mmu
  active : demo.mmu.active = demo.mmu.image.kernelPdpt
  same : demo.mmu.image = image
  high : demo.gate.userRangeEnd < 2^32
  user : ∀ v < demo.gate.userRangeEnd,(∀ page,walk demo.mmu.mem demo.mmu.active v = some page → page.user = true) ↔
    demo.mmu.mappedLimit ≤ v ∨ image.userTextStart ≤ v ∧ v < image.userTextEnd ∨
    demo.userStackBase ≤ v ∧ v < demo.userStackTop

theorem page_inside (aligned : start % pageSize = 0 ∧ end_ % pageSize = 0) :
    start ≤ v/pageSize*pageSize ∧ v/pageSize*pageSize < end_ ↔ start ≤ v ∧ v < end_ := by
  simp only [pageSize] at *
  omega

theorem usermodeInit_demonstrated (charted : Charted m fun _ => False) : Demonstrated m.image (usermodeInit m {}) := by
  rcases usermodeInit_parts charted {} with ⟨gate,kept,open_⟩ | ⟨gate,aligned,top,small,kept,open_⟩
  · refine ⟨open_.kernel,open_.active,kept.image,?_,?_⟩
    · rw [gate]
      exact Nat.two_pow_pos 32
    · rw [gate]
      nofun
  · refine ⟨open_.kernel,open_.active,kept.image,by rw [gate]; exact small,?_⟩
    intro v below
    rw [gate] at below
    change v < (usermodeInit m {}).userStackTop at below
    have alignedTop : (usermodeInit m {}).userStackTop % pageSize = 0 := by
      rw [top]
      simp only [pageSize,userStackFrames] at *
      omega
    rw [charted_user open_ (by omega),page_inside m.image.user,page_inside ⟨aligned,alignedTop⟩,false_or]

-- The frames pmm_init left, the tables paging_init left, and the frames left when
-- usermode_init is called.
theorem kernelMain_stages (booted : kernelMain image memory mem mbi nx heap = some (demo,kept)) : ∃ frames m left,
    pmmInit32 image.kernelEnd memory mbi = some frames ∧ pagingInit ⟨image,mem,frames,0,0,0,false⟩ nx = some m ∧
    Sound left ∧ (∀ addr,Taken m.frames addr → Taken left addr) ∧ demo = usermodeInit {m with frames:=left} {} := by
  unfold kernelMain at booted
  obtain ⟨frames,started,rest⟩ := Option.bind_eq_some_iff.mp booted
  obtain ⟨m,paged,last⟩ := Option.map_eq_some_iff.mp rest
  obtain ⟨charted,_⟩ := init_charted (booted_seated (m:=⟨image,mem,frames,0,0,0,false⟩) (.kernel32 started)) paged
  have heapFrames : (Kheap.kheapInit .i386 heap m.frames).2 = (pmmAllocFrames m.frames Kheap.heapFrames).2 := by
    unfold Kheap.kheapInit
    dsimp only
    split
    · rfl
    · rfl
  obtain ⟨sound,more⟩ := allocFrames_kept charted.kernel.space.sound Kheap.heapFrames
  rw [←heapFrames] at sound more
  generalize Kheap.kheapInit .i386 heap m.frames = answer at *
  obtain ⟨heap,left⟩ := answer
  exact ⟨frames,m,left,started,paged,sound,more,(Prod.mk.inj last).1.symm⟩

theorem kernelMain_parts (booted : kernelMain image memory mem mbi nx heap = some (demo,kept)) : Demonstrated image demo := by
  obtain ⟨frames,m,left,started,paged,sound,more,rfl⟩ := kernelMain_stages booted
  obtain ⟨charted,same,_⟩ := init_charted (booted_seated (m:=⟨image,mem,frames,0,0,0,false⟩) (.kernel32 started)) paged
  change m.image = image at same
  rw [←same]
  exact usermodeInit_demonstrated (charted_frames charted sound more)

theorem demo_confined (demonstrated : Demonstrated image demo) :
    Confined demo.mmu.mem demo.mmu.active (syscallDispatch demo.gate s bytes moved regs).accesses ↔
      ∀ x,Touched demo.gate bytes moved regs x → demo.mmu.mappedLimit ≤ x.addr ∨
        image.userTextStart ≤ x.addr ∧ x.addr < image.userTextEnd ∨ demo.userStackBase ≤ x.addr ∧ x.addr < demo.userStackTop := by
  have high := demonstrated.high
  unfold Confined
  refine forall_congr' fun x => ?_
  rw [accesses_touched high]
  refine forall_congr' fun touched => ?_
  exact demonstrated.user x.addr (touched_window high touched).2

end Arthic.Usermode
