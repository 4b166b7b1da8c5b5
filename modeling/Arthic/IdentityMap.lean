import Arthic.FrameReturns
import Arthic.Loader
import Arthic.Usermode

namespace Arthic.IdentityMap
open AddressSpaces ByteMemory FrameReturns KernelMap Loader PageTree PageTables Paging Pmm PmmOwnership Unsigned Usermode
variable {m after : Mmu} {flags : Nat → Entry}

def identityEntry (n : Nat) (flags : Entry) : Entry := BitVec.ofNat 64 (n*pageSize) ||| flags

-- The leaves of the kernel's directory, page for page. What is there besides the page's
-- own address are flags.
structure Leafed (m : Mmu) (flags : Nat → Entry) : Prop where
  exact : ∀ v < m.mappedLimit,(walk m.mem m.active v).map Page.leaf =
    some (identityEntry (v/pageSize) (flags (v/pageSize)))
  plain : ∀ n,(flags n &&& addressMask) = 0#64

theorem identity_masked (low : v < 2^32) (plain : (f &&& addressMask) = 0#64) :
    identityEntry (v/pageSize) f &&& addressMask = BitVec.ofNat 64 (v/pageSize*pageSize) := by
  have small : v/pageSize*pageSize < 2^32 := Nat.lt_of_le_of_lt (Nat.div_mul_le_self _ _) low
  rw [identityEntry,BitVec.and_or_distrib_right,plain,BitVec.or_zero,frame_masked (Nat.mul_mod_left _ _) small]

theorem identity_address (low : v < 2^32) (plain : (f &&& addressMask) = 0#64) :
    address (identityEntry (v/pageSize) f) = v/pageSize*pageSize := by
  have small : v/pageSize*pageSize < 2^32 := Nat.lt_of_le_of_lt (Nat.div_mul_le_self _ _) low
  exact address_frame (Nat.mul_mod_left _ _) small plain

-- One page gets other flags.
theorem leafed_page (leafed : Leafed m flags) (charted : Charted m opened) (limit : after.mappedLimit = m.mappedLimit)
    (active : after.active = m.active) (clear : (f &&& addressMask) = 0#64)
    (here : ∀ page,walk m.mem m.active a = some page →
      (walk after.mem m.active a).map Page.leaf = some ((page.leaf &&& addressMask) ||| f))
    (others : ∀ v < 2^32,v/pageSize ≠ a/pageSize →
      (walk after.mem m.active v).map Page.leaf = (walk m.mem m.active v).map Page.leaf) :
    Leafed after (Function.update flags (a/pageSize) f) := by
  refine ⟨?_,?_⟩
  · intro v below
    rw [limit] at below
    have low : v < 2^32 := by
      have := limit_small charted
      omega
    rw [active]
    by_cases equal : v/pageSize = a/pageSize
    · have old := leafed.exact v below
      obtain ⟨page,found,leaf⟩ := Option.map_eq_some_iff.mp old
      rw [walk_page equal] at found ⊢
      rw [here page found,leaf,identity_masked low (leafed.plain _),←equal,Function.update_self]
      rfl
    · rw [others v low equal,Function.update_of_ne equal]
      exact leafed.exact v below
  · intro n
    by_cases equal : n = a/pageSize
    · rw [equal,Function.update_self]
      exact clear
    · rw [Function.update_of_ne equal]
      exact leafed.plain n

theorem leafed_readOnly (leafed : Leafed m flags) (charted : Charted m opened) (low : a < 2^32) :
    Leafed (readOnly m a) (Function.update flags (a/pageSize) pagePresent) := by
  have flagged : Reflagged m (readOnly m a) a pagePresent := setFlags_parts (charted_space charted) low (by decide)
  refine leafed_page leafed charted flagged.kept.limit flagged.kept.active (by decide) ?_ ?_
  · intro page found
    rw [flagged.here page found]
    rfl
  · intro v inside other
    rw [flagged.others v inside other]

theorem leafed_makeUser (leafed : Leafed m flags) (charted : Charted m opened) (low : a < 2^32)
    (present : has f pagePresent = true) (clear : (f &&& addressMask) = 0#64) :
    Leafed (makeUserPage f m a) (Function.update flags (a/pageSize) (dropNx m f)) := by
  have done : Opened m (makeUserPage f m a) a f := makeUserPage_parts (charted_space charted) low present
  have plain : (dropNx m f &&& addressMask) = 0#64 := by
    unfold dropNx
    split
    · exact clear
    · rw [BitVec.and_assoc,BitVec.and_comm (~~~pageNx),←BitVec.and_assoc,clear,BitVec.zero_and]
  refine leafed_page leafed charted done.kept.limit done.kept.active plain ?_ ?_
  · intro page found
    rw [done.here page found]
    rfl
  · intro v inside other
    rw [done.others v inside other,Option.map_map]
    congr 1
    funext page
    exact (widened_parts a v pageUser page).1

theorem dropNx_same (nx : after.nxSupported = m.nxSupported) (f : Entry) : dropNx after f = dropNx m f := by
  rw [dropNx,dropNx,nx]

-- The loops write the same flags everywhere.
def painted (flags : Nat → Entry) (pages : List Nat) (f : Entry) (n : Nat) : Entry :=
  if n ∈ pages.map (·/pageSize) then f else flags n

theorem painted_cons (flags : Nat → Entry) (a : Nat) (rest : List Nat) (f : Entry) :
    painted (Function.update flags (a/pageSize) f) rest f = painted flags (a::rest) f := by
  funext n
  by_cases later : n ∈ rest.map (·/pageSize)
  · rw [painted,painted,if_pos later,if_pos (by rw [List.map_cons]; exact List.mem_cons_of_mem _ later)]
  · by_cases here : n = a/pageSize
    · rw [painted,painted,if_neg later,if_pos (by rw [List.map_cons,here]; exact List.mem_cons_self ..),here,
        Function.update_self]
    · have outside : n ∉ (a::rest).map (·/pageSize) := by
        rw [List.map_cons,List.mem_cons,not_or]
        exact ⟨here,later⟩
      rw [painted,painted,if_neg later,if_neg outside,Function.update_of_ne here]

theorem leafed_readOnlys {pages : List Nat} (leafed : Leafed m flags) (charted : Charted m fun _ => False)
    (low : ∀ a ∈ pages,a < 2^32) : Leafed (pages.foldl readOnly m) (painted flags pages pagePresent) := by
  induction pages generalizing m flags with
  | nil => exact leafed
  | cons a rest ih =>
    have below := low a (List.mem_cons_self ..)
    rw [List.foldl_cons,←painted_cons]
    exact ih (leafed_readOnly leafed charted below) (readOnly_charted charted below nofun)
      fun b member => low b (List.mem_cons_of_mem _ member)

theorem leafed_makeUsers {pages : List Nat} (leafed : Leafed m flags) (charted : Charted m opened)
    (low : ∀ a ∈ pages,a < 2^32) (present : has f pagePresent = true) (user : has f pageUser = true)
    (clear : (f &&& addressMask) = 0#64) :
    Leafed (pages.foldl (makeUserPage f) m) (painted flags pages (dropNx m f)) := by
  induction pages generalizing m flags opened with
  | nil => exact leafed
  | cons a rest ih =>
    have below := low a (List.mem_cons_self ..)
    have opens : Opened m (makeUserPage f m a) a f := makeUserPage_parts (charted_space charted) below present
    have same : dropNx (makeUserPage f m a) f = dropNx m f := dropNx_same opens.kept.nx f
    rw [List.foldl_cons,←painted_cons,←same]
    refine ih ?_ (makeUserPage_charted charted below present user) fun b member => low b (List.mem_cons_of_mem _ member)
    rw [same]
    exact leafed_makeUser leafed charted below present clear

theorem pages_low (low : end_ < 2^32) (member : a ∈ pagesFrom start end_) : a < 2^32 := by
  obtain ⟨i,below,rfl⟩ := mem_pagesFrom.mp member
  omega

theorem rodata_low (image : Image) : roundUp image.kernelRodataEnd < 2^32 := by
  obtain ⟨_,_,_,_⟩ := image.bss
  have fits := image.fits
  rw [roundUp,wrap_small (by simp only [pageSize] at *; omega)]
  simp only [pageSize] at *
  omega

-- The pages paging_init takes the write permission from.
def textPages (image : Image) : List Nat := pagesFrom (roundDown image.kernelTextStart) (roundUp image.kernelRodataEnd)

def initFlags (image : Image) : Nat → Entry := painted (fun _ => pagePresent ||| pageWrite) (textPages image) pagePresent

theorem identity_leafed {n : Nat} {pts : Nat → Nat} (mapped : IdentityTables m n pts) :
    Leafed m fun _ => pagePresent ||| pageWrite := by
  refine ⟨?_,fun _ => by decide⟩
  intro v below
  rw [mapped.limit] at below
  obtain ⟨directory,found⟩ := identity_walk mapped below
  have page : pdIndex v*pdCoverage+ptIndex v*pageSize = v/pageSize*pageSize := by
    have few := mapped.few
    have first := ((limit_index few v).mp below).1
    simp only [pdptIndex,pdIndex,ptIndex,pdCoverage,pageSize,tableEntries] at *
    omega
  rw [mapped.active,found,Option.map_some,identityLeaf,page,BitVec.or_assoc]
  rfl

theorem readOnlys_frames (pages : List Nat) (m : Mmu) : (pages.foldl readOnly m).frames = m.frames := by
  induction pages generalizing m with
  | nil => rfl
  | cons a rest ih =>
    rw [List.foldl_cons,ih,readOnly,pagingSetFlags]
    split
    · rfl
    · rfl

theorem allocFrame_total (p : State 32) : (pmmAllocFrame p).2.totalFrames = p.totalFrames := by
  unfold pmmAllocFrame
  split
  · rfl
  · rfl

theorem identityTables_total {indices : List Nat} (made : indices.foldlM identityTable m = some after) :
    after.frames.totalFrames = m.frames.totalFrames := by
  induction indices generalizing m with
  | nil =>
    cases Option.some.inj made
    rfl
  | cons i rest ih =>
    rw [List.foldlM_cons] at made
    obtain ⟨middle,first,last⟩ := Option.bind_eq_some_iff.mp made
    rw [ih last]
    unfold identityTable at first
    dsimp only at first
    split at first
    · cases first
    · cases Option.some.inj first
      exact allocFrame_total m.frames

-- What paging_init leaves: the leaves, the limit, and as many frames as there were. When
-- it has mapped something, there was a frame to be had.
structure Inited (m after : Mmu) (nx : Bool) : Prop where
  charted : Charted after fun _ => False
  leafed : Leafed after (initFlags m.image)
  image : after.image = m.image
  limit : after.mappedLimit = pdNeeded m.frames*pdCoverage
  nx : after.nxSupported = nx
  total : after.frames.totalFrames = m.frames.totalFrames
  room : 0 < pdNeeded m.frames → ∃ pt,¬ Taken m.frames pt

theorem init_parts (seated : Seated m) (made : pagingInit m nx = some after) : Inited m after nx := by
  obtain ⟨charted,image,_⟩ := init_charted seated made
  unfold pagingInit at made
  dsimp only at made
  rw [Option.map_eq_some_iff] at made
  obtain ⟨built,loops,rfl⟩ := made
  have few : pdNeeded m.frames ≤ tableEntries := Nat.min_le_right _ _
  have blank : Seated (blankTables m nx) := ⟨seated.sound,seated.pdpt,seated.pd⟩
  have total := identityTables_total loops
  rw [List.range_eq_range'] at loops
  obtain ⟨pts,done⟩ := identityTables_parts blank (blank_built m nx seated.sound) (by omega) loops
  rw [Nat.zero_add] at done
  have same : built.image = m.image := done.kept.image
  have low : ∀ a ∈ textPages m.image,a < 2^32 := fun a member => pages_low (rodata_low m.image) member
  have installed := identity_leafed (install_identity blank done few rfl)
  have begun := install_charted blank done few rfl
  rw [same] at charted image ⊢
  obtain ⟨_,kept⟩ := readOnly_fold begun low
  refine ⟨charted,leafed_readOnlys installed begun low,image,kept.limit.trans begun.limit,kept.nx.trans done.kept.nx,?_,?_⟩
  · rw [readOnlys_frames]
    exact total
  · intro some
    obtain ⟨_,_,_,_,new⟩ := done.tables 0 some
    exact ⟨pts 0,new⟩

theorem leafed_frames (leafed : Leafed m flags) (frames : State 32) : Leafed {m with frames:=frames} flags :=
  ⟨leafed.exact,leafed.plain⟩

def stackPages (demo : Demo) : List Nat := pagesFrom demo.userStackBase demo.userStackTop

-- The leaves after usermode_init: unchanged when there was no stack to be had.
def demoFlags (demo : Demo) (flags : Nat → Entry) : Nat → Entry :=
  if demo.userStackBase = 0 then flags else
  painted (painted flags (pagesFrom demo.mmu.image.userTextStart demo.mmu.image.userTextEnd) (pagePresent ||| pageUser))
    (stackPages demo) (dropNx demo.mmu (pagePresent ||| pageUser ||| pageWrite ||| pageNx))

theorem makeUser_leafed (leafed : Leafed m flags) (charted : Charted m opened) (start end_ : Nat)
    (aligned : start % pageSize = 0) (low : end_ < 2^32) (writable : Bool) : Leafed (pagingMakeUser m start end_ writable)
      (painted flags (pagesFrom start end_) (dropNx m
        (if writable then pagePresent ||| pageUser ||| pageWrite ||| pageNx else pagePresent ||| pageUser))) := by
  have whole : roundDown start = start := by
    simp only [roundDown,pageSize] at *
    omega
  unfold pagingMakeUser
  rw [whole]
  cases writable with
  | true => exact leafed_makeUsers leafed charted (fun _ => pages_low low) (by decide) (by decide) (by decide)
  | false => exact leafed_makeUsers leafed charted (fun _ => pages_low low) (by decide) (by decide) (by decide)

theorem usermodeInit_leafed (charted : Charted m fun _ => False) (leafed : Leafed m flags) (g : Syscalls.Gate) :
    Leafed (usermodeInit m g).mmu (demoFlags (usermodeInit m g) flags) ∧ Kept m (usermodeInit m g).mmu ∧
      (usermodeInit m g).userStackBase % pageSize = 0 := by
  have sound : Sound m.frames := charted.kernel.space.sound
  obtain ⟨soundAfter,more⟩ := allocFrames_kept sound userStackFrames
  have base := allocFrames_parts sound userStackFrames
  unfold usermodeInit
  generalize pmmAllocFrames m.frames userStackFrames = answer at *
  obtain ⟨phys,frames⟩ := answer
  dsimp only at *
  have started := charted_frames charted soundAfter more
  have claimed : Kept m {m with frames:=frames} := ⟨rfl,rfl,rfl,rfl,rfl,more⟩
  by_cases zero : phys = 0
  · simp only [if_pos zero]
    rw [demoFlags,if_pos rfl]
    exact ⟨leafed_frames leafed frames,claimed,Nat.zero_mod _⟩
  simp only [if_neg zero]
  rcases base with full | ⟨start,_,fits,_,taken⟩
  · exact absurd (Prod.mk.inj full).1 zero
  obtain ⟨rfl,_⟩ := Prod.mk.inj taken
  have addressable := sound.addressable
  have below : start*pageSize+userStackFrames*pageSize < 2^32 := by
    rw [←Nat.add_mul]
    exact Nat.lt_of_le_of_lt (Nat.mul_le_mul_right _ fits) addressable
  have top := wrap_small below
  obtain ⟨_,_,_⟩ := m.image.text
  obtain ⟨_,_,_,_⟩ := m.image.bss
  have imageFits := m.image.fits
  obtain ⟨text,keptText⟩ := makeUser_charted started m.image.user (by omega) false
  have textLeaves := makeUser_leafed (leafed_frames leafed frames) started m.image.userTextStart m.image.userTextEnd
    m.image.user.1 (by omega) false
  have aligned : start*pageSize % pageSize = 0 ∧ (start*pageSize+userStackFrames*pageSize) % pageSize = 0 := by
    simp only [pageSize,userStackFrames]
    omega
  obtain ⟨both,keptStack⟩ := makeUser_charted text aligned (by omega) true
  have leaves := makeUser_leafed textLeaves text (start*pageSize) (start*pageSize+userStackFrames*pageSize) aligned.1 below true
  have kept := kept_trans claimed (kept_trans keptText keptStack)
  refine ⟨?_,by rw [top]; exact kept,aligned.1⟩
  rw [demoFlags,if_neg zero,stackPages]
  dsimp only
  rw [top,kept.image,dropNx_same keptStack.nx]
  have plain : dropNx {m with frames:=frames} (pagePresent ||| pageUser) = pagePresent ||| pageUser := by
    unfold dropNx
    split
    · rfl
    · decide
  rw [if_pos rfl,if_neg Bool.false_ne_true,plain] at leaves
  exact leaves

theorem pmmInit_total (booted : pmmInit32 kernelEnd memory mbi = some frames) : frames.totalFrames = totalFrames32 mbi.mmap := by
  unfold pmmInit32 at booted
  split at booted
  · cases booted
  · cases Option.some.inj booted
    exact init_total

-- The kernel's directory once the machine is up.
structure Mapped (image : Image) (mbi : MultibootInfo) (nx : Bool) (demo : Demo) : Prop where
  charted : ∃ opened,Charted demo.mmu opened
  leafed : Leafed demo.mmu (demoFlags demo (initFlags image))
  image : demo.mmu.image = image
  nx : demo.mmu.nxSupported = nx
  stack : demo.userStackBase % pageSize = 0
  limit : ∃ frames : State 32,frames.totalFrames = totalFrames32 mbi.mmap ∧
    demo.mmu.mappedLimit = pdNeeded frames*pdCoverage

theorem kernelMain_mapped (booted : kernelMain image memory mem mbi nx heap = some (demo,kept)) : Mapped image mbi nx demo := by
  obtain ⟨frames,m,left,started,paged,sound,more,rfl⟩ := kernelMain_stages booted
  have inited := init_parts (booted_seated (m:=⟨image,mem,frames,0,0,0,false⟩) (.kernel32 started)) paged
  have charted := inited.charted
  have ready := charted_frames charted sound more
  obtain ⟨leafed,same,aligned⟩ := usermodeInit_leafed ready (leafed_frames inited.leafed left) {}
  have open_ : ∃ opened,Charted (usermodeInit {m with frames:=left} {}).mmu opened := by
    rcases usermodeInit_parts ready {} with ⟨_,_,open_⟩ | ⟨_,_,_,_,_,open_⟩
    · exact ⟨_,open_⟩
    · exact ⟨_,open_⟩
  exact ⟨open_,leafed,same.image.trans inited.image,same.nx.trans inited.nx,aligned,frames,pmmInit_total started,
    same.limit.trans inited.limit⟩

-- The allocator after any further calls.
inductive Later (p : State 32) : State 32 → Prop where
  | now : Later p p
  | frame : Later p q → Later p (pmmAllocFrame q).2
  | frames : Later p q → Later p (pmmAllocFrames q count).2
  | freed : Later p q → Later p (pmmFreeFrame q addr)

theorem later_parts (sound : Sound p) (later : Later p q) : Sound q ∧ q.totalFrames = p.totalFrames := by
  induction later with
  | now => exact ⟨sound,rfl⟩
  | @frame q _ ih =>
    obtain ⟨sound,total⟩ := ih
    refine ⟨?_,(allocFrame_total q).trans total⟩
    rcases allocFrame_parts sound with full | ⟨frame,below,free,taken⟩
    · rw [full]
      exact sound
    · rw [taken]
      exact claim_sound sound below free
  | @frames q count _ ih =>
    obtain ⟨sound,total⟩ := ih
    refine ⟨(allocFrames_kept sound count).1,?_⟩
    rcases allocFrames_parts sound count with full | ⟨start,_,_,_,taken⟩
    · rw [full]
      exact total
    · rw [taken]
      exact (claimRun_total q start count).trans total
  | @freed q addr _ ih => exact ⟨free_sound ih.1 addr,(free_total q addr).trans ih.2⟩

-- An address either function returns, or one of the further pages of a run.
def Handed (q : State 32) (addr : Nat) : Prop :=
  (pmmAllocFrame q).1 ≠ 0 ∧ addr = (pmmAllocFrame q).1 ∨
  ∃ count i,i < count ∧ (pmmAllocFrames q count).1 ≠ 0 ∧ addr = (pmmAllocFrames q count).1+i*pageSize

theorem handed_counted (sound : Sound q) (handed : Handed q addr) : ∃ frame < q.totalFrames,addr = frame*pageSize := by
  rcases handed with ⟨real,rfl⟩ | ⟨count,i,inside,real,rfl⟩
  · rcases allocFrame_parts sound with full | ⟨frame,below,_,taken⟩
    · rw [full] at real
      exact absurd rfl real
    · rw [taken]
      exact ⟨frame,below,rfl⟩
  · rcases allocFrames_parts sound count with full | ⟨start,_,fits,_,taken⟩
    · rw [full] at real
      exact absurd rfl real
    · rw [taken]
      exact ⟨start+i,by omega,by rw [Nat.add_mul]⟩

def MapsItself (m : Mmu) (v : Nat) : Prop :=
  ∃ page,walk m.mem m.image.kernelPdpt v = some page ∧ address page.leaf = v/pageSize*pageSize

structure Fits (m : Mmu) : Prop where
  frames : ∀ q,Later m.frames q → ∀ addr,Handed q addr → ∀ v,addr ≤ v → v < addr+pageSize → MapsItself m v
  image : ∀ v,kernelStart ≤ v → v < m.image.kernelEnd → MapsItself m v
  window : m.mappedLimit ≤ userLoadAddr

theorem mapsItself_iff (charted : Charted m opened) (leafed : Leafed m flags) (low : v < 2^32) :
    MapsItself m v ↔ v < m.mappedLimit := by
  unfold MapsItself
  rw [←charted.active]
  constructor
  · rintro ⟨page,found,_⟩
    by_contra above
    rw [walk_none low (charted.unmapped v low (by omega))] at found
    cases found
  · intro below
    obtain ⟨page,found,leaf⟩ := Option.map_eq_some_iff.mp (leafed.exact v below)
    exact ⟨page,found,by rw [leaf,identity_address low (leafed.plain _)]⟩

-- A frame that was free when pmm_init was done lies behind the kernel.
theorem free_behind {image : Image} (boot : Booted image.kernelEnd mbi p) (free : ¬ Taken p pt) :
    image.kernelEnd ≤ pt/pageSize*pageSize ∧ pt/pageSize < p.totalFrames := by
  have total := (booted_sound boot).addressable
  obtain ⟨_,_,_⟩ := image.text
  obtain ⟨_,_,_,_⟩ := image.bss
  have fits := image.fits
  have loaded := image.loaded
  have counted : pt/pageSize < p.totalFrames := by
    by_contra outside
    exact free (.inl (by omega))
  refine ⟨?_,counted⟩
  by_contra before
  have linked : PmmOwnership.Linked 32 image.kernelEnd p.totalFrames := by
    simp only [PmmOwnership.Linked,pageSize] at *
    omega
  refine free (.inr (booted_reserved boot counted ?_))
  by_cases low : pt/pageSize*pageSize < kernelStart
  · exact .inl low
  · refine .inr (.inr ⟨linked,.inl ⟨?_,by omega⟩⟩)
    simp only [pageSize] at *
    omega

theorem pdNeeded_small (frames : State 32) (top : frames.totalFrames*pageSize ≤ userLoadAddr) :
    pdNeeded frames = (frames.totalFrames*pageSize+pdCoverage-1)/pdCoverage := by
  have small : frames.totalFrames*pageSize < 2^32 := Nat.lt_of_le_of_lt top (by decide)
  rw [pdNeeded,pmmMemoryTop,wrap_small small,wrap_small]
  · simp only [userLoadAddr,pdCoverage,tableEntries] at *
    omega
  · simp only [userLoadAddr,pdCoverage] at *
    omega

-- Above 512 MB the map runs into the window, if it is not the sum that runs over.
theorem pdNeeded_large (frames : State 32) (top : userLoadAddr < frames.totalFrames*pageSize)
    (addressable : frames.totalFrames*pageSize < 2^32) :
    pdNeeded frames = 0 ∨ userLoadAddr < pdNeeded frames*pdCoverage := by
  rw [pdNeeded,pmmMemoryTop,wrap_small addressable]
  simp only [wrap,userLoadAddr,pdCoverage,tableEntries] at *
  omega

theorem identity_fits {image : Image} (booted : pmmInit32 image.kernelEnd memory mbi = some frames)
    (paged : pagingInit ⟨image,mem,frames,0,0,0,false⟩ nx = some m) :
    Fits m ↔ pageSize ≤ (highestAvailable mbi.mmap).toNat ∧ (highestAvailable mbi.mmap).toNat < userLoadAddr+pageSize := by
  have boot : Booted image.kernelEnd mbi frames := .kernel32 booted
  have sound := booted_sound boot
  have inited := init_parts (booted_seated (m:=⟨image,mem,frames,0,0,0,false⟩) boot) paged
  have maps {v : Nat} (low : v < 2^32) := mapsItself_iff inited.charted inited.leafed low
  have limit := inited.limit
  have same : m.image = image := inited.image
  have total : frames.totalFrames = min (highestAvailable mbi.mmap).toNat 0xFFFFFFFF/pageSize := pmmInit_total booted
  have counted : pageSize ≤ (highestAvailable mbi.mmap).toNat ∧ (highestAvailable mbi.mmap).toNat < userLoadAddr+pageSize ↔
      0 < frames.totalFrames ∧ frames.totalFrames*pageSize ≤ userLoadAddr := by
    rw [total]
    simp only [pageSize,userLoadAddr]
    omega
  have addressable := sound.addressable
  obtain ⟨_,_,_⟩ := image.text
  obtain ⟨_,_,_,_⟩ := image.bss
  have fits := image.fits
  have loaded := image.loaded
  rw [counted]
  change m.mappedLimit = pdNeeded frames*pdCoverage at limit
  constructor
  · intro holds
    have inside := (maps (v:=kernelStart) (by decide)).mp (holds.image _ le_rfl (by rw [same]; omega))
    have window := holds.window
    rw [limit] at inside window
    refine ⟨?_,?_⟩
    · by_contra none
      have zero : frames.totalFrames = 0 := by omega
      rw [pdNeeded_small frames (by rw [zero]; decide),zero] at inside
      exact absurd inside (by decide)
    · by_contra large
      rcases pdNeeded_large frames (by omega) addressable with nothing | reaches
      · rw [nothing,Nat.zero_mul] at inside
        exact absurd inside (Nat.not_lt_zero _)
      · omega
  · rintro ⟨counts,small⟩
    have needed := pdNeeded_small frames small
    have reach : frames.totalFrames*pageSize ≤ m.mappedLimit ∧ m.mappedLimit ≤ userLoadAddr := by
      rw [limit,needed]
      simp only [userLoadAddr,pdCoverage,pageSize] at *
      omega
    have positive : 0 < pdNeeded frames := by
      rw [needed]
      simp only [pdCoverage,pageSize] at *
      omega
    obtain ⟨pt,free⟩ := inited.room positive
    obtain ⟨behind,inRange⟩ := free_behind boot free
    have soundNow := inited.charted.kernel.space.sound
    refine ⟨?_,?_,reach.2⟩
    · intro q later addr handed v lower upper
      obtain ⟨soundQ,totalQ⟩ := later_parts soundNow later
      obtain ⟨frame,below,rfl⟩ := handed_counted soundQ handed
      rw [totalQ,inited.total] at below
      change frame < frames.totalFrames at below
      have page : v < m.mappedLimit := by
        simp only [pageSize] at *
        omega
      exact (maps (by simp only [userLoadAddr] at *; omega)).mpr page
    · intro v _ upper
      rw [same] at upper
      have page : v < m.mappedLimit := by
        simp only [pageSize] at *
        omega
      exact (maps (by simp only [userLoadAddr] at *; omega)).mpr page

-- 64 KB behind the first megabyte, and a machine of 4 GB with a hole below the top.
def littleMap : MultibootInfo := ⟨0x40#32,[⟨0x100000#64,0x10000#64,1#32⟩]⟩
def fourMap : MultibootInfo :=
  ⟨0x40#32,[⟨0#64,0x9FC00#64,1#32⟩,⟨0x100000#64,0xBFF00000#64,1#32⟩,⟨0x100000000#64,0x40000000#64,1#32⟩]⟩

def startedFrames (mbi : MultibootInfo) : State 32 :=
  pmmInitWith (totalFrames32 mbi.mmap) region32 smallImage.kernelEnd (fun _ => 0#32) mbi.mmap
def startedMmu (mbi : MultibootInfo) : Mmu := ⟨smallImage,fun _ => 0#8,startedFrames mbi,0,0,0,false⟩

theorem started_booted (mbi : MultibootInfo) (given : mbi.flags &&& multibootInfoMemMap ≠ 0#32) :
    pmmInit32 smallImage.kernelEnd (fun _ => 0#32) mbi = some (startedFrames mbi) := by
  rw [pmmInit32,if_neg given,startedFrames]

theorem started_seated (mbi : MultibootInfo) (given : mbi.flags &&& multibootInfoMemMap ≠ 0#32) : Seated (startedMmu mbi) := by
  have boot : Booted smallImage.kernelEnd mbi (startedFrames mbi) := .kernel32 (started_booted mbi given)
  rw [startedMmu]
  refine @booted_seated ⟨smallImage,fun _ => 0#8,startedFrames mbi,0,0,0,false⟩ mbi ?_
  dsimp only
  exact boot

theorem identity_fits_small : ∃ m,pagingInit (startedMmu littleMap) true = some m ∧ Fits m := by
  have done : (pagingInit (startedMmu littleMap) true).isSome = true := by decide +kernel
  obtain ⟨m,paged⟩ := Option.isSome_iff_exists.mp done
  exact ⟨m,paged,(identity_fits (started_booted littleMap (by decide)) paged).mpr (by decide)⟩

-- The sum that rounds the top to 2 MB wraps around: no page is mapped at all.
theorem four_gigabytes_started : pmmInit32 smallImage.kernelEnd (fun _ => 0#32) fourMap = some (startedFrames fourMap) ∧
    ∃ m,pagingInit (startedMmu fourMap) true = some m ∧ Inited (startedMmu fourMap) m true ∧ m.mappedLimit = 0 := by
  have booted := started_booted fourMap (by decide)
  have needed : pdNeeded (startedFrames fourMap) = 0 := by
    have total : (startedFrames fourMap).totalFrames = totalFrames32 fourMap.mmap := by rw [startedFrames,init_total]
    rw [pdNeeded,pmmMemoryTop,total]
    decide
  obtain ⟨m,paged⟩ : ∃ m,pagingInit (startedMmu fourMap) true = some m := by
    rw [pagingInit,startedMmu,needed]
    exact ⟨_,rfl⟩
  have inited := init_parts (started_seated fourMap (by decide)) paged
  exact ⟨booted,m,paged,inited,by rw [inited.limit,startedMmu,needed,Nat.zero_mul]⟩

theorem four_gigabytes_unmapped : pmmInit32 smallImage.kernelEnd (fun _ => 0#32) fourMap = some (startedFrames fourMap) ∧
    ∃ m,pagingInit (startedMmu fourMap) true = some m ∧ ¬ Fits m := by
  obtain ⟨booted,m,paged,inited,limit⟩ := four_gigabytes_started
  refine ⟨booted,m,paged,fun fits => ?_⟩
  have inside := (mapsItself_iff inited.charted inited.leafed (v:=kernelStart) (by decide)).mp
    (fits.image _ le_rfl (by rw [inited.image]; decide))
  rw [limit] at inside
  exact absurd inside (Nat.not_lt_zero _)

end Arthic.IdentityMap
