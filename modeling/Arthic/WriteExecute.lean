import Arthic.IdentityMap
import Arthic.ProgramImage

namespace Arthic.WriteExecute
open AddressSpaces ByteMemory IdentityMap KernelMap LoadedImage Loader LoaderContents PageTree PageTables Paging Pmm
  ProgramImage SyscallSafety Unsigned Usermode
variable {m : Mmu}

-- No page that can be written can be executed.
def WriteXorExecute (mem : Memory) (pdpt : Nat) : Prop :=
  ∀ v < 2^32,∀ page,walk mem pdpt v = some page → has page.leaf pageWrite = true → has page.leaf pageNx = true

-- Page 0 is neither text nor stack, and paging_init sets no NX.
theorem first_page (image : Image) (demo : Demo) (same : demo.mmu.image = image) (aligned : demo.userStackBase % pageSize = 0) :
    demoFlags demo (initFlags image) 0 = pagePresent ||| pageWrite := by
  obtain ⟨low,_,_⟩ := image.text
  have loaded := image.loaded
  have outside (start end_ : Nat) (above : pageSize ≤ start) : 0 ∉ (pagesFrom start end_).map (·/pageSize) := by
    intro member
    obtain ⟨a,inside,zero⟩ := List.mem_map.mp member
    obtain ⟨i,_,rfl⟩ := mem_pagesFrom.mp inside
    simp only [pageSize] at *
    omega
  have text : initFlags image 0 = pagePresent ||| pageWrite := by
    rw [initFlags,painted,textPages,if_neg (outside _ _ ?_)]
    rw [roundDown,loaded]
    decide
  unfold demoFlags
  split
  · exact text
  · rename_i real
    rw [painted,stackPages,if_neg (outside _ _ ?_),painted,if_neg (outside _ _ ?_),text]
    · rw [same]
      simp only [kernelStart,pageSize] at *
      omega
    · simp only [pageSize] at *
      omega

theorem pdNeeded_none (frames : State 32) (total : frames.totalFrames = totalFrames32 mmap) :
    pdNeeded frames = 0 ↔ (highestAvailable mmap).toNat < pageSize ∨ 0xFFE01000 ≤ (highestAvailable mmap).toNat := by
  have addressable : totalFrames32 mmap*pageSize < 2^32 := by
    simp only [totalFrames32,pageSize]
    omega
  rw [pdNeeded,pmmMemoryTop,total,wrap_small addressable]
  simp only [totalFrames32,wrap,pdCoverage,tableEntries,pageSize] at *
  omega

theorem kernel_exact {demo : Demo} (mapped : Mapped image mbi nx demo) : WriteXorExecute demo.mmu.mem demo.mmu.image.kernelPdpt ↔
    (highestAvailable mbi.mmap).toNat < pageSize ∨ 0xFFE01000 ≤ (highestAvailable mbi.mmap).toNat := by
  obtain ⟨opened,charted⟩ := mapped.charted
  obtain ⟨frames,total,limit⟩ := mapped.limit
  rw [←pdNeeded_none frames total,←charted.active]
  constructor
  · intro strict
    by_contra some
    have below : 0 < demo.mmu.mappedLimit := by
      rw [limit]
      exact Nat.mul_pos (Nat.pos_of_ne_zero some) (by decide)
    obtain ⟨page,found,leaf⟩ := Option.map_eq_some_iff.mp (mapped.leafed.exact 0 below)
    rw [Nat.zero_div,first_page image demo mapped.image mapped.stack] at leaf
    have executable := strict 0 (by decide) page found
    rw [leaf] at executable
    exact absurd executable (by decide)
  · intro none v low page found
    rw [none,Nat.zero_mul] at limit
    rw [walk_none low (charted.unmapped v low (by omega))] at found
    cases found

-- A page of a program is as the last request for it says, or as the kernel has it.
def Strict (m : Mmu) (requests : List Request) : Prop :=
  ∀ v < 2^32,match granted requests (v/pageSize) with
  | some flags => has flags pageWrite = true → has flags pageNx = true
  | none => ∀ page,inherited m v = some page → has page.leaf pageWrite = true → has page.leaf pageNx = true

theorem strict_shown (strict : Strict m requests) (low : v < 2^32) (unasked : granted requests (v/pageSize) = none)
    (found : inherited m v = some page) : has page.leaf pageWrite = true → has page.leaf pageNx = true := by
  have here := strict v low
  rw [unasked] at here
  exact here page found

theorem laid_strict {now : Mmu} (laid : Laid (inherited m) now requests) (nx : now.nxSupported = true) :
    WriteXorExecute now.mem now.active ↔ Strict m requests := by
  refine forall_congr' fun v => forall_congr' fun low => ?_
  cases asked : granted requests (v/pageSize) with
  | some flags =>
    obtain ⟨page,found,_,write,_⟩ := laid.asked v low flags asked
    have execute := laid.execute v low flags asked page found
    rw [dropNx,if_pos nx] at execute
    dsimp only
    rw [←write,←execute]
    constructor
    · exact fun strict => strict page found
    · intro strict other same
      cases Option.some.inj (found.symm.trans same)
      exact strict
  | none =>
    have same := laid.rest v low asked
    dsimp only
    constructor
    · intro strict old there
      rw [there,Option.map_some] at same
      obtain ⟨page,found,leaf⟩ := Option.map_eq_some_iff.mp same
      rw [←leaf]
      exact strict page found
    · intro strict page found
      rw [found,Option.map_some] at same
      obtain ⟨old,there,leaf⟩ := Option.map_eq_some_iff.mp same.symm
      rw [←leaf]
      exact strict old there

-- What loader_run maps, in order, as the file and the free frames have it beforehand: the
-- argument page is asked for if a frame is left for it.
def fileRequests (m : Mmu) (file : Memory) : List Request :=
  headerRequests file (elfPhoff file) (elfPhentsize file) (List.range (elfPhnum file))++stackRequests++
    if ArgsRoom m file then [(userArgsAddr/pageSize,argsFlags)] else []

theorem fits_headers (fits : CopiesFit file) : ∀ ph ∈ fileHeaders file,CopyFits ph := by
  intro ph member
  obtain ⟨listed,type⟩ := List.mem_filter.mp member
  obtain ⟨j,inside,rfl⟩ := List.mem_map.mp listed
  exact fits j (List.mem_range.mp inside) (by simpa using type)

theorem requests_known (ready : Ready k.mmu) (free : freeSlot k = some slot) (read : fileIn k name = some (size,file))
    (fits : CopiesFit file) (run : (loaderRun k name args).1 = true) :
    imageRequests file ((loaderRun k name args).2.programs slot) = fileRequests k.mmu file := by
  obtain ⟨other,length,contents,prog,freeToo,readToo,started⟩ := loaderRun_parts run
  cases Option.some.inj (free.symm.trans freeToo)
  cases Option.some.inj (read.symm.trans readToo)
  obtain ⟨_,room,_⟩ := loadImage_backed ready (fits_headers fits) started.loaded
  rw [imageRequests,fileRequests,argsRequests,started.argsPhys]
  by_cases left : ArgsRoom k.mmu file
  · rw [if_pos left,if_neg (room.mpr left)]
  · rw [if_neg left,if_pos (by simpa using fun given => left (room.mp given))]

-- The address spaces there are with NX, each with when it keeps the rule: the kernel's
-- own when nothing is mapped in it, a program's when no page was last asked for as both
-- and the kernel's pages that show through are no such pages.
inductive Arranged : Memory → Nat → Prop → Prop where
  | kernel : kernelMain image memory mem mbi true heap = some (demo,kept) →
      Arranged demo.mmu.mem demo.mmu.image.kernelPdpt
        ((highestAvailable mbi.mmap).toNat < pageSize ∨ 0xFFE01000 ≤ (highestAvailable mbi.mmap).toNat)
  | program : Ready k.mmu → k.mmu.nxSupported = true → freeSlot k = some slot → fileIn k name = some (size,file) →
      CopiesFit file → (loaderRun k name args).1 = true →
      Arranged (loaderRun k name args).2.mem ((loaderRun k name args).2.programs slot).pageDir
        (Strict k.mmu (fileRequests k.mmu file))

theorem write_xor_execute (arranged : Arranged mem pdpt holds) : WriteXorExecute mem pdpt ↔ holds := by
  cases arranged with
  | kernel booted => exact kernel_exact (kernelMain_mapped booted)
  | program ready supports free read fits run =>
    obtain ⟨now,laid,mem,active,nx⟩ := started_laid ready.kernel free read fits run
    rw [←mem,←active,←requests_known ready free read fits run]
    exact laid_strict laid (nx.trans supports)

theorem four_booted : ∃ demo kept,kernelMain smallImage (fun _ => 0#32) (fun _ => 0#8) fourMap true noHeap = some (demo,kept) := by
  obtain ⟨booted,m,paged,_⟩ := four_gigabytes_started
  rw [kernelMain,booted,Option.bind_some]
  change ∃ demo kept,(pagingInit (startedMmu fourMap) true).map _ = some (demo,kept)
  rw [paged]
  exact ⟨_,_,rfl⟩

-- The kernel's page 0 shows through in a program that does not map it.
theorem tiny_first : granted (fileRequests bootKernel.mmu tinyFile.2) 0 = none ∧
    (inherited bootKernel.mmu 0).map (fun page => (has page.leaf pageWrite,has page.leaf pageNx)) = some (true,false) := by
  decide

theorem write_xor_execute_small :
    (∃ demo kept,kernelMain smallImage (fun _ => 0#32) (fun _ => 0#8) fourMap true noHeap = some (demo,kept) ∧
      WriteXorExecute demo.mmu.mem demo.mmu.image.kernelPdpt) ∧
    ¬ WriteXorExecute (loaderRun bootKernel tinyName none).2.mem ((loaderRun bootKernel tinyName none).2.programs 0).pageDir := by
  refine ⟨?_,?_⟩
  · obtain ⟨demo,kept,booted⟩ := four_booted
    exact ⟨demo,kept,booted,(write_xor_execute (.kernel booted)).mpr (.inr (by decide))⟩
  · have free : freeSlot bootKernel = some 0 := by decide
    rw [write_xor_execute (.program boot_ready rfl free tiny_found tiny_fits tiny_runs)]
    intro strict
    obtain ⟨page,found,leaf⟩ := Option.map_eq_some_iff.mp tiny_first.2
    have executable := strict_shown strict (v:=0) (by decide) tiny_first.1 found (Prod.mk.inj leaf).1
    rw [(Prod.mk.inj leaf).2] at executable
    cases executable

-- A machine of 272 frames with NX, once it is up.
theorem kernel_pages_executable : ∃ demo kept,
    kernelMain smallImage (fun _ => 0#32) (fun _ => 0#8) demoMap true noHeap = some (demo,kept) ∧
    ¬ WriteXorExecute demo.mmu.mem demo.mmu.image.kernelPdpt := by
  obtain ⟨⟨demo,kept⟩,booted,_⟩ := Option.map_eq_some_iff.mp demo_window
  refine ⟨demo,kept,booted,?_⟩
  rw [kernel_exact (kernelMain_mapped booted)]
  decide

end Arthic.WriteExecute
