import Arthic.Library.Division
import Arthic.LoaderOutcomes

namespace Arthic.Tenancy
open AddressSpaces ByteMemory Division FrameReturns Kheap KheapBlocks KheapInvariant LoadedImage Loader LoaderOutcomes Loading
  LoaderTraces PageTree PageTables Paging Pmm Processes Scheduler SchedulerRing TableGrowth TaskLifetimes Unsigned
variable {m later : Mmu} {k after : Kernel} {ring left others : List Nat} {pending : List (Nat × Nat)} {prog : Program}

-- Who has a frame: the kernel's directory, the program in a slot, or a task for its stack.
inductive Holder where
  | kernel
  | program (slot : Nat)
  | stack (t : Nat)

def Marked (frames : State 32) (n : Nat) : Prop := frames.totalFrames ≤ n ∨ frameTest frames n = true

-- Frame 0, which is nobody's, the pages of the kernel's tables, and what they show to ring 3.
def KernelPage (m : Mmu) (n : Nat) : Prop :=
  n = 0 ∨ (∃ path table,Held pae m.mem m.image.kernelPdpt path table ∧ table/pageSize = n) ∨
  ∃ v < 2^32,∃ page,walk m.mem m.image.kernelPdpt v = some page ∧ page.user = true ∧ address page.leaf/pageSize = n

-- The frames a program's record names and those of the tables it shares with nobody.
def ProgramPage (m : Mmu) (prog : Program) (n : Nat) : Prop :=
  n ∈ numbers (holdings prog) ∨ ∃ path table,Held pae m.mem prog.pageDir path table ∧ ¬ Shared m path ∧ table/pageSize = n

def holds (k : Kernel) (ring : List Nat) : Holder → Nat → Prop
  | .kernel,n => KernelPage k.mmu n
  | .program slot,n => (k.programs slot).inUse = true ∧ ProgramPage k.mmu (k.programs slot) n
  | .stack t,n => t ∈ ring ∧ n ∈ numbers (stackAddrs (k.sched.tasks t))

-- The address space of a program: where it is shared it shows what the kernel's shows,
-- elsewhere the program's own frames.
structure Tenant (m : Mmu) (prog : Program) : Prop where
  space : Space m prog.pageDir
  other : prog.pageDir ≠ m.image.kernelPdpt
  joint : ∀ path table,Shared m path → Held pae m.mem prog.pageDir path table → Held pae m.mem m.image.kernelPdpt path table
  shows : ∀ v < 2^32,Shared m [pdptIndex v,pdIndex v] → walk m.mem prog.pageDir v = walk m.mem m.image.kernelPdpt v
  leaves : ∀ v < 2^32,¬ Shared m [pdptIndex v,pdIndex v] → ∀ page,walk m.mem prog.pageDir v = some page →
    address page.leaf/pageSize ∈ numbers (holdings prog)

-- Whose record a task is to clean up when it is reaped, and a call of on_exit that waits.
def duty (record : Task) : Option Nat := if record.onExit = Loader.programCleanup then some record.arg else none
def owed (call : Nat × Nat) : Option Nat := if call.1 = Loader.programCleanup then some call.2 else none
def duties (s : Sched) (ring : List Nat) (pending : List (Nat × Nat)) : List Nat :=
  (ring.filterMap fun t => duty (s.tasks t))++pending.filterMap owed

theorem duty_same {a b : Task} (same : will a = will b) : duty a = duty b := by
  obtain ⟨_,rest⟩ := Prod.mk.inj same
  obtain ⟨_,rest⟩ := Prod.mk.inj rest
  obtain ⟨arg,exit⟩ := Prod.mk.inj rest
  rw [duty,duty,arg,exit]

theorem duties_same (wills : ∀ t ∈ ring,will (s.tasks t) = will (before.tasks t)) (pending : List (Nat × Nat)) :
    duties s ring pending = duties before ring pending := by
  unfold duties
  rw [List.filterMap_congr fun t member => duty_same (wills t member)]

theorem duties_joined (s : Sched) (t : Nat) (ring : List Nat) (pending : List (Nat × Nat)) :
    duties s (t::ring) pending = (duty (s.tasks t)).toList++duties s ring pending := by
  unfold duties
  rw [List.filterMap_cons]
  cases duty (s.tasks t) with
  | none => rfl
  | some arg => rfl

theorem duties_waiting (s : Sched) (ring : List Nat) (arg : Nat) (pending : List (Nat × Nat)) :
    (duties s ring ((Loader.programCleanup,arg)::pending)).Perm (arg::duties s ring pending) := List.perm_middle

theorem exits_owed (s : Sched) (dead : List Nat) :
    (dead.filterMap fun t => exitCall (s.tasks t)).filterMap owed = dead.filterMap fun t => duty (s.tasks t) := by
  rw [List.filterMap_filterMap]
  congr 1
  funext t
  unfold exitCall duty
  by_cases none : (s.tasks t).onExit = 0
  · rw [if_pos none,none]
    rfl
  · rw [if_neg none]
    rfl

-- Every program in use has one task to end it, and every frame one holder.
structure Housed (k : Kernel) (ring : List Nat) (pending : List (Nat × Nat)) : Prop where
  kernel : KernelSpace k.mmu
  complete : Complete k.mmu
  few : k.kernelPdEntries ≤ 256
  blank : ∀ slot,(k.programs slot).inUse = false → k.programs slot = {}
  tenants : ∀ slot,(k.programs slot).inUse = true → slot < maxPrograms ∧ Tenant k.mmu (k.programs slot)
  divided : Divided (Marked k.sched.frames) (holds k ring)
  single : (duties k.sched ring pending).Nodup
  staffed : ∀ a,a ∈ duties k.sched ring pending ↔ ∃ slot,a = programAddr slot ∧ (k.programs slot).inUse = true

-- Nothing that can be read where frames are taken has changed.
structure Still (m later : Mmu) : Prop where
  image : later.image = m.image
  entries : later.kernelPdEntries = m.kernelPdEntries
  mem : ∀ x,Taken m.frames x → later.mem x = m.mem x

theorem still_tables (still : Still m later) (space : Space m root) :
    ∀ path table,Held pae m.mem root path table → ∀ x < span pae path,later.mem (table+x) = m.mem (table+x) := by
  intro path table held x inside
  refine still.mem _ ?_
  have taken := space.taken path table held
  have page : (table+x)/pageSize = table/pageSize := by
    cases path using List.reverseRecOn with
    | nil =>
      cases (held_nil ..).mp held
      have home := space.home
      rw [span_root] at inside
      simp only [pageSize] at *
      omega
    | append_singleton path j =>
      have base := held_aligned held
      rw [span_below] at inside
      simp only [pageSize] at *
      omega
  rw [Taken,page]
  exact taken

theorem still_held (still : Still m later) (space : Space m root) (path : List Nat) (table : Nat) :
    Held pae later.mem root path table ↔ Held pae m.mem root path table := held_congr (still_tables still space) path table

theorem still_walk (still : Still m later) (space : Space m root) (low : v < 2^32) :
    walk later.mem root v = walk m.mem root v := walk_congr (still_tables still space) low

theorem still_shared (still : Still m later) (path : List Nat) : Shared later path ↔ Shared m path := by
  unfold Shared
  rw [still.entries]

theorem still_kernelPage (still : Still m later) (kernel : KernelSpace m) (n : Nat) : KernelPage later n ↔ KernelPage m n := by
  unfold KernelPage
  rw [still.image]
  refine or_congr_right (or_congr ?_ ?_)
  · simp only [still_held still kernel.space]
  · refine exists_congr fun v => and_congr_right fun low => ?_
    rw [still_walk still kernel.space low]

theorem still_programPage (still : Still m later) (space : Space m prog.pageDir) (n : Nat) :
    ProgramPage later prog n ↔ ProgramPage m prog n := by
  unfold ProgramPage
  simp only [still_held still space,still_shared still]

theorem still_tenant (still : Still m later) (kernel : KernelSpace m) (tenant : Tenant m prog) (sound : Sound later.frames)
    (taken : ∀ path table,Held pae m.mem prog.pageDir path table → Taken later.frames table) : Tenant later prog := by
  have held := still_held still tenant.space
  have held_kernel := still_held still kernel.space
  refine ⟨space_congr tenant.space sound (still_tables still tenant.space) taken,?_,?_,?_,?_⟩
  · rw [still.image]
    exact tenant.other
  · intro path table shared there
    rw [still.image]
    exact (held_kernel ..).mpr (tenant.joint path table ((still_shared still path).mp shared) ((held ..).mp there))
  · intro v low shared
    rw [still.image,still_walk still tenant.space low,still_walk still kernel.space low]
    exact tenant.shows v low ((still_shared still _).mp shared)
  · intro v low apart page found
    rw [still_walk still tenant.space low] at found
    exact tenant.leaves v low (fun shared => apart ((still_shared still _).mpr shared)) page found

theorem holds_fewer (subset : ∀ t ∈ left,t ∈ ring) (i : Holder) (n : Nat) (held : holds k left i n) : holds k ring i n := by
  cases i with
  | kernel => exact held
  | program slot => exact held
  | stack t => exact ⟨subset t held.1,held.2⟩

-- Whoever is still there: a record that is cleared has nothing.
def remains (k : Kernel) : Holder → Prop
  | .program slot => (k.programs slot).inUse = true
  | _ => True

-- Records may be cleared and tasks may go.
structure Fewer (k after : Kernel) (ring left : List Nat) : Prop where
  still : Still k.mmu after.mmu
  programs : ∀ slot,after.programs slot = k.programs slot ∨ after.programs slot = {}
  subset : ∀ t ∈ left,t ∈ ring
  wills : ∀ t ∈ left,will (after.sched.tasks t) = will (k.sched.tasks t)

theorem fewer_used (fewer : Fewer k after ring left) (used : (after.programs slot).inUse = true) :
    after.programs slot = k.programs slot := by
  cases fewer.programs slot with
  | inl same => exact same
  | inr cleared => rw [cleared] at used; cases used

theorem holds_still (housed : Housed k ring pending) (fewer : Fewer k after ring left) (i : Holder) (n : Nat)
    (held : holds after left i n) : holds k left i n ∧ remains after i := by
  cases i with
  | kernel => exact ⟨(still_kernelPage fewer.still housed.kernel n).mp held,trivial⟩
  | program slot =>
    obtain ⟨used,page⟩ := held
    have same := fewer_used fewer used
    refine ⟨?_,used⟩
    rw [same] at used page
    exact ⟨used,(still_programPage fewer.still (housed.tenants slot used).2.space n).mp page⟩
  | stack t =>
    obtain ⟨member,frame⟩ := held
    rw [(will_same (fewer.wills t member)).1] at frame
    exact ⟨⟨member,frame⟩,trivial⟩

-- Whoever stays keeps what it has.
theorem housed_still (housed : Housed k ring pending) (fewer : Fewer k after ring left) (sound : Sound after.sched.frames)
    (marks : ∀ i n,holds k left i n → remains after i → Marked after.sched.frames n)
    (single : (duties after.sched left now).Nodup)
    (staffed : ∀ a,a ∈ duties after.sched left now ↔ ∃ slot,a = programAddr slot ∧ (after.programs slot).inUse = true) :
    Housed after left now := by
  have tables : ∀ path table,Held pae k.mem k.image.kernelPdpt path table → Taken after.sched.frames table :=
    fun path table there => marks .kernel (table/pageSize) (.inr (.inl ⟨path,table,there,rfl⟩)) trivial
  have record := fun slot used => @fewer_used _ _ _ _ slot fewer used
  have back := holds_still housed fewer
  obtain ⟨still,programs,subset,_⟩ := fewer
  have kernel := kernel_congr housed.kernel ⟨still.image,still.entries⟩ sound (still_tables still housed.kernel.space) tables
  refine ⟨kernel,?_,still.entries.trans_le housed.few,?_,?_,?_,single,staffed⟩
  · intro j below
    rw [still.entries] at below
    obtain ⟨table,there⟩ := housed.complete j below
    refine ⟨table,?_⟩
    rw [still.image]
    exact (still_held still housed.kernel.space ..).mpr there
  · intro slot unused
    cases programs slot with
    | inl same =>
      rw [same] at unused ⊢
      exact housed.blank slot unused
    | inr cleared => exact cleared
  · intro slot used
    have before := used
    rw [record slot used] at before ⊢
    obtain ⟨below,tenant⟩ := housed.tenants slot before
    refine ⟨below,still_tenant still housed.kernel tenant sound ?_⟩
    intro path table there
    by_cases shared : Shared k.mmu path
    · exact tables path table (tenant.joint path table shared there)
    · exact marks (.program slot) _ ⟨before,.inr ⟨path,table,there,shared,rfl⟩⟩ used
  · refine housed.divided.shrink ?_ ?_
    · intro i n held
      exact holds_fewer subset i n (back i n held).1
    · intro i n held
      exact marks i n (back i n held).1 (back i n held).2

-- Nobody goes.
theorem housed_same (housed : Housed k ring pending) (still : Still k.mmu after.mmu) (programs : after.programs = k.programs)
    (sound : Sound after.sched.frames) (wills : ∀ t ∈ ring,will (after.sched.tasks t) = will (k.sched.tasks t))
    (marks : ∀ i n,holds k ring i n → Marked after.sched.frames n) : Housed after ring pending := by
  have same := duties_same wills pending
  refine housed_still housed ⟨still,fun slot => .inl (by rw [programs]),fun _ => id,wills⟩ sound
    (fun i n held _ => marks i n held) ?_ ?_
  · rw [same]
    exact housed.single
  · rw [same,programs]
    exact housed.staffed

theorem marked_freed (sound : Sound frames) (marked : Marked frames n) (other : n ∉ numbers addrs) :
    Marked (freeAll frames addrs) n := by
  obtain ⟨_,total,tests⟩ := freeAll_parts sound addrs
  cases marked with
  | inl outside =>
    rw [←total] at outside
    exact .inl outside
  | inr test => exact .inr ((tests n).mpr ⟨test,fun _ => other⟩)

theorem numbers_flatMap (dead : List Nat) (addrs : Nat → List Nat) (n : Nat) :
    n ∈ numbers (dead.flatMap addrs) ↔ ∃ t ∈ dead,n ∈ numbers (addrs t) := by
  rw [numbers,List.map_flatMap,List.mem_flatMap]
  rfl

-- Finished tasks are taken off the ring; their exit calls are still to be made.
theorem housed_reaped (housed : Housed k ring []) (distinct : ring.Nodup) {s : Sched} (course : Course k.sched s dead)
    (perm : ring.Perm (dead++left)) :
    Housed {k with sched:=s} left (dead.filterMap fun t => exitCall (k.sched.tasks t)) := by
  have sound := housed.kernel.space.sound
  have subset : ∀ t ∈ left,t ∈ ring := fun t member => perm.mem_iff.mpr (List.mem_append_right _ member)
  have staff : (duties s left (dead.filterMap fun t => exitCall (k.sched.tasks t))).Perm (duties k.sched ring []) := by
    unfold duties
    rw [exits_owed,List.filterMap_nil,List.append_nil,List.filterMap_congr fun t _ => duty_same (course.wills t)]
    refine List.perm_append_comm.trans ?_
    rw [←List.filterMap_append]
    exact (perm.filterMap _).symm
  have fewer : Fewer k {k with sched:=s} ring left :=
    ⟨⟨rfl,rfl,fun _ _ => rfl⟩,fun _ => .inl rfl,subset,fun t _ => course.wills t⟩
  refine housed_still housed fewer ?_ ?_ (staff.nodup_iff.mpr housed.single) fun a => (staff.mem_iff).trans (housed.staffed a)
  · rw [course.frames]
    exact (freeAll_parts sound _).1
  · intro i n held _
    have before := holds_fewer subset i n held
    dsimp only
    rw [course.frames]
    have own : ∀ x,x ∈ numbers (dead.flatMap fun t => stackAddrs (k.sched.tasks t)) →
        ∃ j,(∃ t ∈ dead,j = .stack t) ∧ holds k ring j x := by
      intro x given
      obtain ⟨t,gone,stack⟩ := (numbers_flatMap _ _ x).mp given
      exact ⟨.stack t,⟨t,gone,rfl⟩,perm.mem_iff.mpr (List.mem_append_left _ gone),stack⟩
    refine marked_freed sound (housed.divided.taken i n before) (housed.divided.spared own before ?_)
    rintro ⟨t,gone,rfl⟩
    have apart := perm.nodup_iff.mp distinct
    exact (List.nodup_append.mp apart).2.2 t gone t held.1 rfl

-- unload gives back what the program holds and no more.
theorem unload_own (tenant : Tenant m prog) (given : n ∈ numbers (unloadAddrs m prog)) : ProgramPage m prog n := by
  rw [unloadAddrs,numbers,List.map_append,List.mem_append] at given
  cases given with
  | inl record => exact .inl record
  | inr table =>
    split at table
    · cases table
    · rename_i real
      obtain ⟨path,table,there,apart,_,page⟩ := (tableAddrs_held real tenant.other n).mp table
      exact .inr ⟨path,table,there,apart,page⟩

theorem programAddr_inj (same : programAddr slot = programAddr other) : slot = other := Nat.succ.inj same

theorem housed_cleanup (housed : Housed k ring ((Loader.programCleanup,programAddr slot)::pending))
    (used : (k.programs slot).inUse = true) : Housed (Processes.programCleanup k (programAddr slot)) ring pending := by
  have sound := housed.kernel.space.sound
  obtain ⟨_,tenant⟩ := housed.tenants slot used
  have freed := unload_frees k.mmu (k.programs slot)
  have cleaned : Processes.programCleanup k (programAddr slot) = setProgram (k.setMmu (unload k.mmu (k.programs slot))) slot {} := by
    unfold Processes.programCleanup programAddr
    rw [if_neg (Nat.succ_ne_zero slot),Nat.add_sub_cancel]
  have staff := duties_waiting k.sched ring (programAddr slot) pending
  have distinct := List.nodup_cons.mp (staff.nodup_iff.mp housed.single)
  have record : ∀ other,((setProgram (k.setMmu (unload k.mmu (k.programs slot))) slot {}).programs other).inUse = true ↔
      other ≠ slot ∧ (k.programs other).inUse = true := by
    intro other
    change (Function.update k.programs slot {} other).inUse = true ↔ _
    by_cases here : other = slot
    · rw [here,Function.update_self]
      exact ⟨nofun,fun ⟨apart,_⟩ => absurd rfl apart⟩
    · rw [Function.update_of_ne here]
      exact ⟨fun found => ⟨here,found⟩,And.right⟩
  rw [cleaned]
  refine housed_still housed ⟨⟨rfl,?_,?_⟩,?_,fun _ => id,fun _ _ => rfl⟩ ?_ ?_ distinct.2 ?_
  · rw [freed]
    rfl
  · rw [freed]
    intro _ _
    rfl
  · intro other
    by_cases here : other = slot
    · rw [here]
      exact .inr (Function.update_self ..)
    · exact .inl (Function.update_of_ne here ..)
  · rw [freed]
    exact (freeAll_parts sound _).1
  · intro i n held stays
    rw [freed]
    have own : ∀ x,x ∈ numbers (unloadAddrs k.mmu (k.programs slot)) → ∃ j,j = .program slot ∧ holds k ring j x :=
      fun x given => ⟨_,rfl,used,unload_own tenant given⟩
    refine marked_freed sound (housed.divided.taken i n held) (housed.divided.spared own held ?_)
    rintro rfl
    exact ((record slot).mp stays).1 rfl
  · intro a
    have before := housed.staffed a
    rw [staff.mem_iff,List.mem_cons] at before
    change a ∈ duties k.sched ring pending ↔ _
    constructor
    · intro member
      obtain ⟨other,rfl,busy⟩ := before.mp (.inr member)
      refine ⟨other,rfl,(record other).mpr ⟨?_,busy⟩⟩
      rintro rfl
      exact distinct.1 member
    · rintro ⟨other,rfl,busy⟩
      obtain ⟨apart,busy⟩ := (record other).mp busy
      cases before.mpr ⟨other,rfl,busy⟩ with
      | inl same => exact absurd (programAddr_inj same) apart
      | inr member => exact member

theorem housed_exit (housed : Housed k ring (call::pending)) : Housed (onExit k call) ring pending := by
  obtain ⟨function,arg⟩ := call
  unfold onExit
  dsimp only
  split
  · rename_i cleaner
    cases cleaner
    have named : arg ∈ duties k.sched ring ((Loader.programCleanup,arg)::pending) :=
      List.mem_append_right _ (List.mem_cons_self ..)
    obtain ⟨slot,rfl,used⟩ := (housed.staffed arg).mp named
    exact housed_cleanup housed used
  · rename_i foreign
    have none : owed (function,arg) = none := if_neg foreign
    have same : duties k.sched ring ((function,arg)::pending) = duties k.sched ring pending := by
      unfold duties
      rw [List.filterMap_cons_none none]
    obtain ⟨kernel,complete,few,blank,tenants,divided,single,staffed⟩ := housed
    rw [same] at single staffed
    exact ⟨kernel,complete,few,blank,tenants,divided,single,staffed⟩

theorem housed_exits (housed : Housed k ring pending) : Housed (pending.foldl onExit k) ring [] := by
  induction pending generalizing k with
  | nil => exact housed
  | cons call pending ih => exact ih (housed_exit housed)

theorem housed_perm (housed : Housed k ring pending) (perm : ring.Perm left) : Housed k left pending := by
  have staff : (duties k.sched left pending).Perm (duties k.sched ring pending) := (perm.symm.filterMap _).append_right _
  obtain ⟨kernel,complete,few,blank,tenants,divided,single,staffed⟩ := housed
  refine ⟨kernel,complete,few,blank,tenants,?_,staff.nodup_iff.mpr single,fun a => staff.mem_iff.trans (staffed a)⟩
  exact divided.shrink (holds_fewer fun t member => perm.mem_iff.mpr member)
    fun i n held => divided.taken i n (holds_fewer (fun t member => perm.mem_iff.mpr member) i n held)

-- A stack is what no one had.
theorem housed_task (housed : Housed k ring pending) {s : Sched} (new : t ∉ ring)
    (fits : start+count ≤ k.sched.frames.totalFrames)
    (clear : ∀ frame,start ≤ frame → frame < start+count → frameTest k.sched.frames frame = false)
    (frames : s.frames = claimRun k.sched.frames start count) (stack : stackAddrs (s.tasks t) = runAddrs (start*pageSize) count)
    (wills : ∀ x,x ≠ t → will (s.tasks x) = will (k.sched.tasks x))
    (staff : (duties s (t::ring) now).Perm (duties k.sched ring pending)) : Housed {k with sched:=s} (t::ring) now := by
  have sound := housed.kernel.space.sound
  have more : ∀ n,Marked k.sched.frames n → Marked s.frames n := by
    intro n marked
    have page := frame_number n
    rw [frames]
    have taken := @claimRun_taken (n*pageSize) k.sched.frames start count (by rw [Taken,page]; exact marked)
    rw [Taken,page] at taken
    exact taken
  have others : ∀ x ∈ ring,will (s.tasks x) = will (k.sched.tasks x) := by
    intro x member
    refine wills x ?_
    rintro rfl
    exact new member
  have still : Still k.mmu ({k with sched:=s} : Kernel).mmu := ⟨rfl,rfl,fun _ _ => rfl⟩
  have soundAfter : Sound s.frames := by
    rw [frames]
    exact claimRun_sound sound fits clear
  obtain ⟨kernel,complete,few,blank,tenants,divided,_,_⟩ := @housed_same k {k with sched:=s} _ _ housed still rfl soundAfter
    others fun i n held => more n (housed.divided.taken i n held)
  have run : ∀ n,n ∈ numbers (stackAddrs (s.tasks t)) ↔ start ≤ n ∧ n < start+count := by
    intro n
    rw [stack,runAddrs_numbers (fits_addressable sound fits),List.mem_range'_1]
  refine ⟨kernel,complete,few,blank,tenants,?_,staff.nodup_iff.mpr housed.single,
    fun a => staff.mem_iff.trans (housed.staffed a)⟩
  refine housed.divided.grow (.stack t) ?_ ?_
  · intro i n held
    cases i with
    | kernel => exact .inl held
    | program slot => exact .inl held
    | stack x =>
      obtain ⟨member,frame⟩ := held
      by_cases mine : x = t
      · subst mine
        obtain ⟨lower,upper⟩ := (run n).mp frame
        refine .inr ⟨rfl,?_⟩
        rintro (outside | test)
        · omega
        · rw [clear n lower upper] at test
          cases test
      · have old := (List.mem_cons.mp member).resolve_left mine
        rw [(will_same (wills x mine)).1] at frame
        exact .inl ⟨old,frame⟩
  · intro i n held
    cases i with
    | kernel => exact divided.taken .kernel n held
    | program slot => exact divided.taken (.program slot) n held
    | stack x =>
      obtain ⟨member,frame⟩ := held
      by_cases mine : x = t
      · subst mine
        refine .inr ?_
        dsimp only
        rw [frames,claimRun_test (by decide),if_pos ((run n).mp frame)]
      · exact divided.taken (.stack x) n ⟨(List.mem_cons.mp member).resolve_left mine,frame⟩

theorem joined_duties {s before : Sched} (joined : Joined before s ring others t start arg exit) (pending : List (Nat × Nat)) :
    duties s (t::ring) pending = (owed (exit,arg)).toList++duties before ring pending := by
  obtain ⟨_,argument,function⟩ := joined_task joined
  have elsewhere : ∀ x ∈ ring,will (s.tasks x) = will (before.tasks x) := by
    intro x member
    refine joined.wills x ?_
    rintro rfl
    exact joined.new member
  rw [duties_joined,duties_same elsewhere,duty,owed,function,argument]

theorem housed_joined (housed : Housed k ring pending) {s : Sched} (joined : Joined k.sched s ring others t start arg exit)
    (staff : (duties s (t::ring) now).Perm (duties k.sched ring pending)) :
    ∃ longer,Ring s longer others ∧ Running s ∧ Housed {k with sched:=s} longer now := by
  obtain ⟨longer,valid,running,perm⟩ := joined.ring
  have tasked := housed_task housed joined.new joined.fits joined.clear joined.frames (joined_task joined).1 joined.wills staff
  exact ⟨longer,valid,running,housed_perm tasked perm.symm⟩

section Loaded
variable {permits : Nat → Prop} {base whole : Mmu} {own : List Nat} (begun : Begun m base)
  (loads : Loads permits base whole own) (apart : ∀ v < 2^32,permits v → ¬ Shared m [pdptIndex v,pdIndex v])
include begun loads

theorem shared_base (path : List Nat) : (Shared base path ↔ Shared m path) ∧ (Shared whole path ↔ Shared m path) := by
  have kept := (loads_accounted begun.accounted begun.zero loads).2
  have entries := kept.entries.trans begun.kept.2
  unfold Shared
  rw [entries,begun.kept.2]
  exact ⟨Iff.rfl,Iff.rfl⟩

include apart

theorem loads_still : Still m whole := by
  have kept := (loads_accounted begun.accounted begun.zero loads).2
  refine ⟨kept.image.trans begun.kept.1,kept.entries.trans begun.kept.2,?_⟩
  intro x taken
  refine (loads_untouched begun.accounted begun.zero ?_ loads taken).trans (begun.untouched x taken)
  intro v low permitted shared
  exact apart v low permitted ((shared_base begun loads _).1.mp shared)

theorem loads_tenant (kernel : KernelSpace m) (perm : own.Perm (numbers (holdings prog))) (dir : prog.pageDir = base.active) :
    Tenant whole prog := by
  obtain ⟨accounted,kept⟩ := loads_accounted begun.accounted begun.zero loads
  have still := loads_still begun loads apart
  have active := kept.active.trans dir.symm
  have outside : ∀ v < 2^32,permits v → ¬ Shared base [pdptIndex v,pdIndex v] := fun v low permitted shared =>
    apart v low permitted ((shared_base begun loads _).1.mp shared)
  refine ⟨?_,?_,?_,?_,?_⟩
  · rw [←active]
    exact accounted.space
  · rw [dir,kept.image]
    exact begun.other
  · intro path table shared there
    obtain ⟨first,last⟩ := shared_base begun loads path
    rw [←active] at there
    have early := (loads_shared begun.accounted begun.zero loads (first.mpr (last.mp shared))).mp there
    rw [still.image]
    exact (still_held still kernel.space ..).mpr (begun.shared path table (last.mp shared) early)
  · intro v low shared
    obtain ⟨first,last⟩ := shared_base begun loads [pdptIndex v,pdIndex v]
    have here := last.mp shared
    have same := loads_shows begun.accounted begun.zero outside loads low (first.mpr here)
    obtain ⟨j,below,path⟩ := here
    obtain ⟨top,rest⟩ := List.cons_eq_cons.mp path
    obtain ⟨index,_⟩ := List.cons_eq_cons.mp rest
    rw [←active,still.image,still_walk still kernel.space low,same,begun.inherits v low,inherited,
      if_pos ⟨top,index ▸ below⟩]
  · intro v low alone page found
    rw [←active] at found
    obtain ⟨first,last⟩ := shared_base begun loads [pdptIndex v,pdIndex v]
    cases loads_leaves begun.accounted begun.zero loads low found with
    | inl mine => exact perm.mem_iff.mp mine
    | inr old =>
      rw [begun.inherits v low,inherited] at old
      split at old
      · rename_i inside
        exact absurd (last.mpr ⟨_,inside.2,by rw [inside.1]⟩) alone
      · cases old
end Loaded

theorem accounted_marked {first : State 32} {root : Nat} {own : List Nat} (accounted : Accounted first m root own)
    (marked : Marked first n) : Marked m.frames n := by
  cases marked with
  | inl outside => exact .inl (accounted.total.trans_le outside)
  | inr test => exact .inr ((accounted.marks n).mpr (.inl test))

-- Loading adds a program to those in use. Until its task is made it is as if its exit call
-- were waiting.
theorem housed_installed {permits : Nat → Prop} {base whole : Mmu} (housed : Housed k ring pending) (begun : Begun k.mmu base)
    (draft : Drafted permits base whole prog) (apart : ∀ v < 2^32,permits v → ¬ Shared k.mmu [pdptIndex v,pdIndex v])
    (free : freeSlot k = some slot) (image : after.image = k.image) (entries : after.kernelPdEntries = k.kernelPdEntries)
    (mem : after.mem = whole.mem) (frames : after.sched.frames = whole.frames)
    (programs : ∃ entry,after.programs = Function.update k.programs slot {prog with entry:=entry,inUse:=true})
    (wills : ∀ t,will (after.sched.tasks t) = will (k.sched.tasks t)) :
    Housed after ring ((Loader.programCleanup,programAddr slot)::pending) := by
  obtain ⟨own,loads,perm⟩ := draft.loads
  obtain ⟨accounted,kept⟩ := loads_accounted begun.accounted begun.zero loads
  obtain ⟨low,unused⟩ := freeSlot_unused free
  have still := loads_still begun loads apart
  have sound : Sound after.sched.frames := by
    rw [frames]
    exact accounted.space.sound
  have grown : ∀ n,Marked k.sched.frames n → Marked after.sched.frames n := by
    intro n marked
    rw [frames]
    exact accounted_marked accounted marked
  have stillAfter : Still k.mmu after.mmu :=
    ⟨image,entries,fun x taken => (congrFun mem x).trans (still.mem x taken)⟩
  have old := @housed_same k {after with programs:=k.programs} _ _ housed stillAfter rfl sound (fun t _ => wills t)
    fun i n held => grown n (housed.divided.taken i n held)
  obtain ⟨entry,programs⟩ := programs
  have tenant : Tenant after.mmu {prog with entry:=entry,inUse:=true} := by
    have whole_ := loads_tenant begun loads apart housed.kernel perm draft.dir
    have same : Still after.mmu whole :=
      ⟨still.image.trans image.symm,still.entries.trans entries.symm,fun x _ => (congrFun mem x).symm⟩
    have kernel : KernelSpace whole := kernel_congr old.kernel ⟨same.image,same.entries⟩ accounted.space.sound
      (still_tables same old.kernel.space) fun path table there => by
        have taken := old.kernel.space.taken path table there
        change Taken after.sched.frames table at taken
        rwa [frames] at taken
    have back : Still whole after.mmu := ⟨same.image.symm,same.entries.symm,fun x _ => congrFun mem x⟩
    have moved := still_tenant back kernel whole_ sound fun path table there => by
      change Taken after.sched.frames table
      rw [frames]
      exact whole_.space.taken path table there
    exact ⟨moved.space,moved.other,moved.joint,moved.shows,moved.leaves⟩
  have pages : ∀ n,ProgramPage after.mmu {prog with entry:=entry,inUse:=true} n →
      ¬ Marked k.sched.frames n ∧ Marked after.sched.frames n := by
    have free : ∀ n,n < k.sched.frames.totalFrames ∧ frameTest k.sched.frames n = false → ¬ Marked k.sched.frames n := by
      rintro n ⟨below,clear⟩ (outside | test)
      · omega
      · rw [clear] at test
        cases test
    intro n page
    rw [frames]
    cases page with
    | inl record =>
      have mine := perm.mem_iff.mpr record
      exact ⟨free n (accounted.fresh n mine),.inr ((accounted.marks n).mpr (.inr (.inl mine)))⟩
    | inr table =>
      obtain ⟨path,table,there,alone,rfl⟩ := table
      have single : ¬ Shared whole path := fun shared => alone ((still_shared stillAfter path).mpr
        ((shared_base begun loads path).2.mp shared))
      change Held pae after.mem prog.pageDir path table at there
      rw [mem,draft.dir,←kept.active] at there
      obtain ⟨_,below,clear,_⟩ := accounted.tables path table there single
      exact ⟨free _ ⟨below,clear⟩,.inr ((accounted.marks _).mpr (.inr (.inr ⟨path,table,there,single,rfl⟩)))⟩
  have record : ∀ other,(after.programs other).inUse = true ↔ other = slot ∨ (k.programs other).inUse = true := by
    intro other
    rw [programs]
    by_cases here : other = slot
    · rw [here,Function.update_self]
      exact ⟨fun _ => .inl rfl,fun _ => rfl⟩
    · rw [Function.update_of_ne here]
      exact ⟨.inr,fun found => found.resolve_left here⟩
  have fresh : programAddr slot ∉ duties after.sched ring pending := by
    intro member
    obtain ⟨other,same,busy⟩ := (old.staffed _).mp member
    cases programAddr_inj same
    change (k.programs slot).inUse = true at busy
    rw [unused] at busy
    cases busy
  have staff := duties_waiting after.sched ring (programAddr slot) pending
  refine ⟨old.kernel,old.complete,old.few,?_,?_,?_,staff.nodup_iff.mpr (List.nodup_cons.mpr ⟨fresh,old.single⟩),?_⟩
  · intro other idle
    by_cases here : other = slot
    · rw [(record other).mpr (.inl here)] at idle
      cases idle
    · rw [programs,Function.update_of_ne here] at idle ⊢
      exact housed.blank other idle
  · intro other busy
    by_cases here : other = slot
    · rw [here,programs,Function.update_self]
      exact ⟨low,tenant⟩
    · have before := ((record other).mp busy).resolve_left here
      rw [programs,Function.update_of_ne here]
      exact old.tenants other before
  · refine housed.divided.grow (.program slot) ?_ ?_
    · intro i n held
      cases i with
      | kernel => exact .inl ((still_kernelPage stillAfter housed.kernel n).mp held)
      | stack t =>
        obtain ⟨member,frame⟩ := held
        rw [(will_same (wills t)).1] at frame
        exact .inl ⟨member,frame⟩
      | program other =>
        obtain ⟨busy,page⟩ := held
        by_cases here : other = slot
        · rw [here,programs,Function.update_self] at page
          exact .inr ⟨congrArg Holder.program here,(pages n page).1⟩
        · have before := ((record other).mp busy).resolve_left here
          rw [programs,Function.update_of_ne here] at page
          exact .inl ⟨before,(still_programPage stillAfter (housed.tenants other before).2.space n).mp page⟩
    · intro i n held
      cases i with
      | kernel => exact old.divided.taken .kernel n held
      | stack t => exact old.divided.taken (.stack t) n held
      | program other =>
        obtain ⟨busy,page⟩ := held
        by_cases here : other = slot
        · rw [here,programs,Function.update_self] at page
          exact (pages n page).2
        · have before := ((record other).mp busy).resolve_left here
          rw [programs,Function.update_of_ne here] at page
          exact old.divided.taken (.program other) n ⟨before,page⟩
  · intro a
    rw [staff.mem_iff,List.mem_cons,old.staffed]
    constructor
    · rintro (rfl | ⟨other,rfl,busy⟩)
      · exact ⟨slot,rfl,(record slot).mpr (.inl rfl)⟩
      · exact ⟨other,rfl,(record other).mpr (.inr busy)⟩
    · rintro ⟨other,rfl,busy⟩
      cases (record other).mp busy with
      | inl here => exact .inl (by rw [here])
      | inr before => exact .inr ⟨other,rfl,before⟩

end Arthic.Tenancy
