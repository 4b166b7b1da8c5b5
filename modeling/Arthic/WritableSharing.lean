import Arthic.ProgramIsolation

namespace Arthic.WritableSharing
open AddressSpaces BootedTables ByteMemory Division FileSystem IdentityMap KernelMap Loader LoaderOutcomes Loading LoaderTraces PageTree PageTables Paging
  Pmm PointerWindow Processes ProgramIsolation SyscallSafety TableGrowth Tenancy Transition Usermode
variable {m later : Mmu} {flags : Nat → Entry} {k after : Kernel} {h origin : Host} {ring : List Nat}

-- The directory and the leaf both let ring 3 in, and both let it write.
def Yields (page : Page) : Prop := page.user = true ∧ page.writable = true

instance (page : Page) : Decidable (Yields page) := inferInstanceAs (Decidable (_ ∧ _))

-- The tables that every program shares show ring 3 a page it may write.
def Opens (m : Mmu) : Prop :=
  ∃ v < 2^32,Shared m [pdptIndex v,pdIndex v] ∧ ∃ page,walk m.mem m.image.kernelPdpt v = some page ∧ Yields page

-- Two programs can both write one frame, each at an address of its own.
def SharesWritable (k : Kernel) (slot other : Nat) : Prop :=
  ∃ v < 2^32,∃ w < 2^32,∃ page theirs,walk k.mem (k.programs slot).pageDir v = some page ∧
    walk k.mem (k.programs other).pageDir w = some theirs ∧ Yields page ∧ Yields theirs ∧
    address page.leaf = address theirs.leaf

-- No two programs in use do.
def WritesApart (k : Kernel) : Prop :=
  ∀ slot other,slot ≠ other → (k.programs slot).inUse = true → (k.programs other).inUse = true → ¬ SharesWritable k slot other

def AtMostOne (k : Kernel) : Prop :=
  ∀ slot other,(k.programs slot).inUse = true → (k.programs other).inUse = true → slot = other

theorem opens_same (image : later.image = m.image) (entries : later.kernelPdEntries = m.kernelPdEntries)
    (walks : ∀ v < 2^32,walk later.mem m.image.kernelPdpt v = walk m.mem m.image.kernelPdpt v) : Opens later ↔ Opens m := by
  unfold Opens Shared
  rw [image,entries]
  refine exists_congr fun v => and_congr_right fun low => ?_
  rw [walks v low]

theorem still_opens (still : Still m later) (kernel : KernelSpace m) : Opens later ↔ Opens m :=
  opens_same still.image still.entries fun _ low => still_walk still kernel.space low

-- What the tables of a kernel can be read from.
def Fixed (k after : Kernel) : Prop :=
  after.mem = k.mem ∧ after.image = k.image ∧ after.kernelPdEntries = k.kernelPdEntries

theorem fixed_opens (fixed : Fixed k after) : Opens after.mmu ↔ Opens k.mmu := by
  obtain ⟨mem,image,entries⟩ := fixed
  refine opens_same image entries fun v _ => ?_
  change walk after.mem _ v = walk k.mem _ v
  rw [mem]

theorem onExit_fixed (k : Kernel) (call : Nat × Nat) : Fixed k (onExit k call) := by
  unfold onExit Processes.programCleanup
  split
  · split
    · exact ⟨rfl,rfl,rfl⟩
    · rw [unload_frees]
      exact ⟨rfl,rfl,rfl⟩
  · exact ⟨rfl,rfl,rfl⟩

theorem exits_fixed (k : Kernel) (calls : List (Nat × Nat)) : Fixed k (calls.foldl onExit k) := by
  induction calls generalizing k with
  | nil => exact ⟨rfl,rfl,rfl⟩
  | cons call calls ih =>
    obtain ⟨mem,image,entries⟩ := onExit_fixed k call
    obtain ⟨later,same,few⟩ := ih (onExit k call)
    exact ⟨later.trans mem,same.trans image,few.trans entries⟩

theorem opens_step (kept : ProgramIsolation.Kept h) (presumed : Presumed h act) (clean : Clean h act) :
    Opens (Processes.apply h act).kernel.mmu ↔ Opens h.kernel.mmu := by
  obtain ⟨ring,valid,running,housed⟩ := kept
  cases act with
  | call call => exact fixed_opens (exits_fixed {h.kernel with sched:=_} _)
  | loaderRun name args =>
    obtain ⟨_,outcome⟩ := load_outcome housed valid running presumed clean
    exact still_opens (outcome_still (fun _ _ => id) outcome) housed.kernel
  | files fs => exact fixed_opens ⟨rfl,rfl,rfl⟩

-- Since the boot the shared tables show what they showed.
def Steady (origin h : Host) : Prop := ProgramIsolation.Kept h ∧ (Opens h.kernel.mmu ↔ Opens origin.kernel.mmu)

theorem steady_run (begins : Begins kernelEnd mbi origin) (path : Runs (isolating kernelEnd mbi) origin labels h) :
    Steady origin h := by
  have start : Steady origin origin := ⟨begins_kept begins,Iff.rfl⟩
  refine path.guarded_invariant ?_ start
  rintro s act ⟨kept,same⟩ ⟨presumed,clean⟩
  exact ⟨kept_step kept presumed clean,(opens_step kept presumed clean).trans same⟩

theorem open_shared (housed : Housed k ring []) (used : (k.programs slot).inUse = true)
    (busy : (k.programs other).inUse = true) (opens : Opens k.mmu) : SharesWritable k slot other := by
  obtain ⟨v,low,shared,page,found,wide⟩ := opens
  have mine := (housed.tenants slot used).2.shows v low shared
  have theirs := (housed.tenants other busy).2.shows v low shared
  exact ⟨v,low,v,low,page,page,mine.trans found,theirs.trans found,wide,wide,rfl⟩

theorem shared_open (housed : Housed k ring []) (different : slot ≠ other) (used : (k.programs slot).inUse = true)
    (busy : (k.programs other).inUse = true) (shares : SharesWritable k slot other) : Opens k.mmu := by
  obtain ⟨v,low,w,lowToo,page,theirs,found,foundToo,wide,wideToo,same⟩ := shares
  obtain ⟨_,mine⟩ := housed.tenants slot used
  obtain ⟨_,yours⟩ := housed.tenants other busy
  by_cases shared : Shared k.mmu [pdptIndex v,pdIndex v]
  · have kernels := (mine.shows v low shared).symm.trans found
    exact ⟨v,low,shared,page,kernels,wide⟩
  by_cases sharedToo : Shared k.mmu [pdptIndex w,pdIndex w]
  · have kernels := (yours.shows w lowToo sharedToo).symm.trans foundToo
    exact ⟨w,lowToo,sharedToo,theirs,kernels,wideToo⟩
  -- neither is the kernel's, so the frame belongs to both
  have own := mine.leaves v low shared page found
  have ownToo := yours.leaves w lowToo sharedToo theirs foundToo
  rw [←same] at ownToo
  cases housed.divided.single (.program slot) (.program other) _ ⟨used,.inl own⟩ ⟨busy,.inl ownToo⟩
  exact absurd rfl different

-- What usermode_init opens: of the text only reading, of the stack both.
theorem leaf_has {flag : Entry} (leafed : Leafed m flags) (low : v < 2^32) (below : v < m.mappedLimit)
    (apart : (addressMask &&& flag) = 0#64) (found : walk m.mem m.active v = some page) :
    has page.leaf flag = has (flags (v/pageSize)) flag := by
  have leaf := leafed.exact v below
  rw [found,Option.map_some] at leaf
  rw [Option.some.inj leaf,identityEntry,frame_has (Nat.mul_mod_left _ _) _ apart]
  exact Nat.lt_of_le_of_lt (Nat.div_mul_le_self _ _) low

theorem demoFlags_both (demo : Demo) (closed : ∀ n,has (flags n) pageUser = false) (n : Nat) :
    has (demoFlags demo flags n) pageUser = true ∧ has (demoFlags demo flags n) pageWrite = true ↔
      demo.userStackBase ≠ 0 ∧ n ∈ (stackPages demo).map (·/pageSize) := by
  unfold demoFlags
  split
  · rename_i none
    rw [closed]
    exact ⟨fun both => absurd both.1 nofun,fun both => absurd none both.1⟩
  rename_i some
  rw [painted]
  split
  · rename_i stack
    rw [dropNx_has _ _ (by decide),dropNx_has _ _ (by decide)]
    exact ⟨fun _ => ⟨some,stack⟩,fun _ => by decide⟩
  · rename_i other
    refine ⟨fun both => ?_,fun both => absurd both.2 other⟩
    rw [painted] at both
    split at both
    · exact absurd both (by decide)
    · rw [closed] at both
      exact absurd both.1 nofun

theorem usermodeInit_opens (charted : Charted m fun _ => False) (leafed : Leafed m flags)
    (closed : ∀ n,has (flags n) pageUser = false) (g : Syscalls.Gate) : Opens (usermodeInit m g).mmu ↔
      (usermodeInit m g).userStackBase ≠ 0 ∧ (usermodeInit m g).userStackBase < (usermodeInit m g).mmu.mappedLimit := by
  obtain ⟨leaves,_,_⟩ := usermodeInit_leafed charted leafed g
  have stack := usermodeInit_stack charted.kernel.space.sound g
  have charts : ∃ opened,Charted (usermodeInit m g).mmu opened := by
    rcases usermodeInit_parts charted g with ⟨_,_,chart⟩ | ⟨_,_,_,_,_,chart⟩
    · exact ⟨_,chart⟩
    · exact ⟨_,chart⟩
  have both := demoFlags_both (usermodeInit m g) closed
  generalize usermodeInit m g = demo at *
  obtain ⟨opened,chart⟩ := charts
  have few := chart.kernel.entries
  have limit := chart.limit
  constructor
  · rintro ⟨v,low,⟨j,entries,path⟩,page,found,user,write⟩
    obtain ⟨top,rest⟩ := List.cons_eq_cons.mp path
    have middle := (List.cons_eq_cons.mp rest).1
    have below : v < demo.mmu.mappedLimit := by
      rw [limit]
      exact (limit_index few v).mpr ⟨top,by rw [middle]; exact entries⟩
    rw [←chart.active] at found
    rw [Page.user,Bool.and_eq_true,leaf_has leaves low below (by decide) found] at user
    rw [Page.writable,Bool.and_eq_true,leaf_has leaves low below (by decide) found] at write
    obtain ⟨some,member⟩ := (both _).mp ⟨user.2,write.2⟩
    obtain ⟨a,inside,number⟩ := List.mem_map.mp member
    obtain ⟨i,_,rfl⟩ := mem_pagesFrom.mp inside
    refine ⟨some,Nat.lt_of_le_of_lt ?_ below⟩
    rcases stack with ⟨none,_⟩ | ⟨_,start,base,_⟩
    · exact absurd none some
    · rw [base] at number ⊢
      simp only [pageSize] at *
      omega
  · rintro ⟨some,below⟩
    rcases stack with ⟨none,_⟩ | ⟨_,start,base,top,high,_⟩
    · exact absurd none some
    have low : demo.userStackBase < 2^32 := by
      rw [base]
      omega
    have member : demo.userStackBase/pageSize ∈ (stackPages demo).map (·/pageSize) := by
      refine List.mem_map.mpr ⟨_,mem_pagesFrom.mpr ⟨0,?_,rfl⟩,by rw [Nat.zero_mul,Nat.add_zero]⟩
      rw [top,base]
      simp only [pageSize,userStackFrames]
      omega
    obtain ⟨user,write⟩ := (both _).mpr ⟨some,member⟩
    obtain ⟨page,found,_,wide⟩ := chart.mapped _ below
    rw [←leaf_has leaves low below (by decide) found] at user write
    have inside := (limit_index few demo.userStackBase).mp (by rw [←limit]; exact below)
    rw [chart.active] at found
    refine ⟨_,low,⟨_,inside.2,by rw [inside.1]⟩,page,found,?_,?_⟩
    · rw [Page.user,wide user,user]
      rfl
    · rw [Page.writable,directory_writable chart.kernel.broad low found,write]
      rfl

theorem initFlags_closed (image : Image) (n : Nat) : has (initFlags image n) pageUser = false := by
  unfold initFlags painted
  split
  · decide
  · exact (by decide : has (pagePresent ||| pageWrite) pageUser = false)

theorem kernelMain_opens (booted : kernelMain image memory mem mbi nx heap = some (demo,kept)) :
    Opens demo.mmu ↔ demo.userStackBase ≠ 0 ∧ demo.userStackBase < demo.mmu.mappedLimit := by
  obtain ⟨frames,m,left,started,paged,sound,more,rfl⟩ := kernelMain_stages booted
  have inited := init_parts (booted_seated (m:=⟨image,mem,frames,0,0,0,false⟩) (.kernel32 started)) paged
  exact usermodeInit_opens (charted_frames inited.charted sound more) (leafed_frames inited.leafed left) (initFlags_closed image) {}

theorem programs_share_no_writable (begins : Begins kernelEnd mbi origin) (path : Runs (isolating kernelEnd mbi) origin labels h) :
    WritesApart h.kernel ↔ ¬ Opens origin.kernel.mmu ∨ AtMostOne h.kernel := by
  obtain ⟨⟨ring,valid,running,housed⟩,same⟩ := steady_run begins path
  rw [←same]
  constructor
  · intro apart
    by_cases opens : Opens h.kernel.mmu
    · refine .inr fun slot other used busy => ?_
      by_contra different
      exact apart slot other different used busy (open_shared housed used busy opens)
    · exact .inl opens
  · intro condition slot other different used busy shares
    cases condition with
    | inl closed => exact closed (shared_open housed different used busy shares)
    | inr one => exact different (one slot other used busy)

theorem single_run : Runs (isolating 0x105000 bootMap) (hostOf bootDemo tinyDisk) ([]++[tinyStart]) single :=
  Runs.nil.act double_ran.1.1
theorem double_run : Runs (isolating 0x105000 bootMap) (hostOf bootDemo tinyDisk) ([]++[tinyStart]++[tinyStart]) double :=
  single_run.act double_ran.1.2

theorem programs_share_no_writable_single : WritesApart single.kernel := by
  have first : ∀ slot < maxPrograms,(single.kernel.programs slot).inUse = true → slot = 0 := by decide +kernel
  obtain ⟨⟨_,_,_,housed⟩,_⟩ := steady_run (hostOf_begins tinyDisk) single_run
  refine (programs_share_no_writable (hostOf_begins tinyDisk) single_run).mpr (.inr fun slot other used busy => ?_)
  rw [first slot (housed.tenants slot used).1 used,first other (housed.tenants other busy).1 busy]

-- Both programs have the demo's stack, which usermode_init opened in the kernel's tables.
theorem demo_stack_shared : ∃ h slot other,Reached (isolating 0x105000 bootMap) h ∧ slot ≠ other ∧
    (h.kernel.programs slot).inUse = true ∧ (h.kernel.programs other).inUse = true ∧ SharesWritable h.kernel slot other := by
  obtain ⟨⟨_,_,_,housed⟩,same⟩ := steady_run (hostOf_begins tinyDisk) double_run
  have closed : has (pagePresent ||| pageWrite) pageUser = false := by decide
  have stack : (usermodeInit bootMmu {}).userStackBase ≠ 0 ∧
      (usermodeInit bootMmu {}).userStackBase < (usermodeInit bootMmu {}).mmu.mappedLimit := by decide +kernel
  have opens := (usermodeInit_opens boot_charted (identity_leafed boot_identity) (fun _ => closed) {}).mpr stack
  rw [hostOf_mmu bootDemo tinyDisk bootDemo_home,bootDemo] at same
  obtain ⟨_,used,busy⟩ := double_ran
  exact ⟨double,0,1,⟨_,_,hostOf_begins tinyDisk,double_run⟩,by decide,used,busy,open_shared housed used busy (same.mpr opens)⟩

end Arthic.WritableSharing
