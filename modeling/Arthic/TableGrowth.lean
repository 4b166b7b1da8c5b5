import Arthic.AddressSpaces
import Arthic.FrameReturns

namespace Arthic.TableGrowth
open AddressSpaces ByteMemory FrameReturns PageTree PageTables Paging Pmm Unsigned
variable {m after : Mmu} {root : Nat}

theorem frame_number (frame : Nat) : frame*pageSize/pageSize = frame := by simp [pageSize]

-- A new table with the frame it lies in, and what else changed.
structure Hung (m after : Mmu) (root : Nat) (p : List Nat) (a k : Nat) (flags : Entry) (frame : Nat) : Prop where
  linked : Linked m after root p a k flags (frame*pageSize)
  below : frame < m.frames.totalFrames
  free : frameTest m.frames frame = false
  frames : after.frames = claim m.frames frame
  outside : ∀ x,x/pageSize ≠ frame → x < a+8*k ∨ a+8*k+8 ≤ x → after.mem x = m.mem x

-- Frame 0 is never free, so address 0 means that there was no frame.
theorem linkTable_hung (space : Space m root) (zero : Taken m.frames 0) (here : Held pae m.mem root p a)
    (deeper : p.length < pae.depth) (low : k < pae.entries p.length) (none : next pae m.mem a k = none)
    (present : has flags pagePresent = true) (clear : (flags &&& addressMask) = 0#64) :
    linkTable m a k flags = (false,m) ∨
      (linkTable m a k flags).1 = true ∧ ∃ frame,Hung m (linkTable m a k flags).2 root p a k flags frame := by
  have outcome := linkTable_parts space here deeper low none present clear
  unfold linkTable at *
  rcases allocFrame_parts space.sound with full | ⟨frame,below,free,taken⟩
  · rw [full]
    exact .inl rfl
  rw [taken] at outcome ⊢
  have real : frame*pageSize ≠ 0 := fun address => by
    have other := frame_free free below 0 zero
    rw [address] at other
    exact other rfl
  dsimp only at *
  rw [if_neg real] at outcome ⊢
  refine .inr ⟨rfl,frame,?_⟩
  obtain ⟨_,new,linked⟩ := outcome.resolve_left fun failed => by cases failed.1
  have target : new = frame*pageSize := by
    have written := linked.here
    dsimp only at written
    rw [entry_set] at written
    rw [←linked.address,←written,address_frame (Nat.mul_mod_left _ _) (space.sound.address_small below) clear]
  subst target
  refine ⟨linked,below,free,rfl,?_⟩
  intro x otherPage elsewhere
  dsimp only
  rw [setEntry,store,patch_outside _ _ elsewhere,fill,patch_outside]
  simp only [pageSize] at *
  omega

-- One change paging_map makes for v under the active directory: a table is hung where
-- none was, or an entry is rewritten that leads where it led.
inductive Edit (v : Nat) (m : Mmu) : Mmu → Prop where
  | link (here : Held pae m.mem m.active p a) (place : p = [] ∧ k = pdptIndex v ∨ p = [pdptIndex v] ∧ k = pdIndex v)
      (none : next pae m.mem a k = none) (hung : Hung m later m.active p a k flags frame) : Edit v m later
  | set (here : Held pae m.mem m.active p a)
      (place : p = [pdptIndex v] ∧ k = pdIndex v ∨ p = [pdptIndex v,pdIndex v] ∧ k = ptIndex v)
      (low : k < pae.entries p.length)
      (keeps : p.length < pae.depth → next pae (setEntry m.mem a k e) a k = next pae m.mem a k) :
      Edit v m {m with mem:=setEntry m.mem a k e}

theorem edit_kept (edit : Edit v m after) : Kept m after := by
  cases edit with
  | link _ _ _ hung => exact hung.linked.kept
  | set _ _ _ _ => exact ⟨rfl,rfl,rfl,rfl,rfl,fun _ taken => taken⟩

theorem edit_space (space : Space m m.active) (edit : Edit v m after) : Space after m.active := by
  cases edit with
  | link _ _ _ hung => exact hung.linked.space
  | set here _ low keeps => exact set_space space here low keeps

theorem ensurePd_edit (space : Space m m.active) (zero : Taken m.frames 0) (low : v < 2^32) :
    (ensurePd m v).2 = m ∨ Edit v m (ensurePd m v).2 := by
  obtain ⟨top,_,_⟩ := index_bounds low
  unfold ensurePd
  cases found : has (entry m.mem m.active (pdptIndex v)) pagePresent with
  | true => exact .inl rfl
  | false =>
    rw [if_neg (by simp)]
    have here : Held pae m.mem m.active [] m.active := (held_nil ..).mpr rfl
    rcases @linkTable_hung _ _ _ _ _ pagePresent space zero here (by decide) top (next_absent found) (by decide) (by decide)
      with failed | ⟨_,frame,hung⟩
    · rw [failed]
      exact .inl rfl
    · exact .inr (.link here (.inl ⟨rfl,rfl⟩) (next_absent found) hung)

theorem ensurePt_edit (space : Space m m.active) (zero : Taken m.frames 0) (low : v < 2^32)
    (here : Held pae m.mem m.active [pdptIndex v] pd) (flags : Entry) :
    (ensurePt m pd v flags).2 = m ∨ Edit v m (ensurePt m pd v flags).2 := by
  obtain ⟨_,middle,_⟩ := index_bounds low
  unfold ensurePt
  rw [show (flags &&& pageUser) = userBit flags from rfl]
  cases found : has (entry m.mem pd (pdIndex v)) pagePresent with
  | false =>
    rw [if_pos rfl]
    have bits : ((pagePresent ||| pageWrite ||| userBit flags) &&& addressMask) = 0#64 ∧
        has (pagePresent ||| pageWrite ||| userBit flags) pagePresent = true := by
      rw [userBit_cases]
      split <;> decide
    rcases linkTable_hung space zero here Nat.one_lt_two middle (next_absent found) bits.2 bits.1 with
      failed | ⟨_,frame,hung⟩
    · rw [failed]
      exact .inl rfl
    · exact .inr (.link here (.inr ⟨rfl,rfl⟩) (next_absent found) hung)
  | true =>
    rw [if_neg (by simp)]
    cases allowed : has flags pageUser with
    | false => exact .inl rfl
    | true =>
      obtain ⟨target,presence⟩ := or_keeps (entry m.mem pd (pdIndex v)) flags
      rw [userBit_cases,allowed,if_pos rfl] at target presence
      refine .inr (.set here (.inl ⟨rfl,rfl⟩) middle fun _ => ?_)
      rw [next_present found,next_present (by rw [entry_set,presence,found]),entry_set,target]

-- What every edit keeps, paging_map keeps, whether it succeeds or not.
theorem pagingMap_rule {holds : Mmu → Prop} (low : v < 2^32)
    (step : ∀ m after,Space m m.active → holds m → Edit v m after → holds after)
    (space : Space m m.active) (zero : Taken m.frames 0) (start : holds m) (phys : Nat) (flags : Entry) :
    holds (pagingMap m v phys flags).2 := by
  have onward : ∀ m after : Mmu,Space m m.active → Taken m.frames 0 → holds m → after = m ∨ Edit v m after →
      Space after after.active ∧ Taken after.frames 0 ∧ holds after := by
    rintro m after space zero start (rfl | edit)
    · exact ⟨space,zero,start⟩
    · have kept := edit_kept edit
      exact ⟨by rw [kept.active]; exact edit_space space edit,kept.taken 0 zero,step m after space start edit⟩
  obtain ⟨_,_,last⟩ := index_bounds low
  have upper := onward m _ space zero start (ensurePd_edit space zero low)
  obtain ⟨kept,_,_,directory⟩ := ensurePd_parts space low
  unfold pagingMap
  generalize ensurePd m v = answer at *
  obtain ⟨made,first⟩ := answer
  dsimp only at *
  obtain ⟨spaceOne,zeroOne,startOne⟩ := upper
  split
  · exact startOne
  rename_i found
  have here := directory (by simpa using found)
  rw [←kept.active] at here
  generalize address (entry first.mem first.active (pdptIndex v)) = pd at *
  have lower := onward first _ spaceOne zeroOne startOne (ensurePt_edit spaceOne zeroOne low here flags)
  obtain ⟨keptToo,_,outcome⟩ := ensurePt_parts spaceOne low here flags
  generalize ensurePt first pd v flags = answer at *
  obtain ⟨made,second⟩ := answer
  dsimp only at *
  obtain ⟨spaceTwo,zeroTwo,startTwo⟩ := lower
  split
  · exact startTwo
  rename_i there
  obtain ⟨_,tabled⟩ := outcome.resolve_left fun failed => there failed.1
  have table := tabled.table
  rw [←keptToo.active] at table
  exact step second _ spaceTwo startTwo
    (.set table (.inr ⟨rfl,rfl⟩) last (fun deeper => absurd deeper (Nat.lt_irrefl 2)))

-- The tables every address space has in common.
def Shared (m : Mmu) (path : List Nat) : Prop := ∃ j < m.kernelPdEntries,path = [0,j]

-- Every marked frame is one that was marked before the address space was made, one of
-- the frames `own`, or holds a table of its own; and it is only one of these.
structure Accounted (base : State 32) (m : Mmu) (root : Nat) (own : List Nat) : Prop where
  space : Space m root
  total : m.frames.totalFrames = base.totalFrames
  complete : ∀ j < m.kernelPdEntries,∃ table,Held pae m.mem root [0,j] table
  distinct : own.Nodup
  fresh : ∀ frame ∈ own,frame < base.totalFrames ∧ frameTest base frame = false
  tables : ∀ path table,Held pae m.mem root path table → ¬ Shared m path → table % pageSize = 0 ∧
    table/pageSize < base.totalFrames ∧ frameTest base (table/pageSize) = false ∧ table/pageSize ∉ own
  marks : ∀ frame,frameTest m.frames frame = true ↔ frameTest base frame = true ∨ frame ∈ own ∨
    ∃ path table,Held pae m.mem root path table ∧ ¬ Shared m path ∧ table/pageSize = frame

theorem accounted_taken {base : State 32} (accounted : Accounted base m root own) (taken : Taken base addr) :
    Taken m.frames addr := by
  rcases taken with beyond | marked
  · exact .inl (by rw [accounted.total]; exact beyond)
  · exact .inr ((accounted.marks _).mpr (.inl marked))

theorem accounted_set {base : State 32} (accounted : Accounted base m root own) (here : Held pae m.mem root p a)
    (low : k < pae.entries p.length) {e : Entry}
    (keeps : p.length < pae.depth → next pae (setEntry m.mem a k e) a k = next pae m.mem a k) :
    Accounted base {m with mem:=setEntry m.mem a k e} root own := by
  have held := held_set accounted.space.tree here low keeps
  refine ⟨set_space accounted.space here low keeps,accounted.total,?_,accounted.distinct,accounted.fresh,?_,?_⟩
  · intro j below
    obtain ⟨table,there⟩ := accounted.complete j below
    exact ⟨table,(held _ _).mpr there⟩
  · intro path table there
    exact accounted.tables path table ((held _ _).mp there)
  · intro frame
    rw [accounted.marks]
    simp only [held]
    rfl

-- The directory is complete where it is shared, so nothing is hung there.
theorem unhung_single {base : State 32} (accounted : Accounted base m root own) (here : Held pae m.mem root p a)
    (none : next pae m.mem a k = none) : ¬ Shared m (p++[k]) := by
  rintro ⟨j,below,equal⟩
  obtain ⟨table,there⟩ := accounted.complete j below
  rw [←equal] at there
  obtain ⟨above,first,_,_,leads⟩ := (held_snoc ..).mp there
  rw [held_unique first here,none] at leads
  cases leads

theorem accounted_hung {base : State 32} (accounted : Accounted base m root own) (hung : Hung m after root p a k flags frame)
    (here : Held pae m.mem root p a) (none : next pae m.mem a k = none) : Accounted base after root own := by
  have kept := hung.linked.kept
  have held := hung.linked.held
  have shared : ∀ path,Shared after path ↔ Shared m path := fun path => by rw [Shared,kept.entries,Shared]
  have own_ := unhung_single accounted here none
  have clear := hung.free
  rw [Bool.eq_false_iff,ne_eq,accounted.marks,not_or,not_or] at clear
  obtain ⟨unmarked,foreign,untabled⟩ := clear
  have total : after.frames.totalFrames = base.totalFrames := by
    rw [hung.frames]
    exact accounted.total
  refine ⟨hung.linked.space,total,?_,accounted.distinct,accounted.fresh,?_,?_⟩
  · intro j below
    rw [kept.entries] at below
    obtain ⟨table,there⟩ := accounted.complete j below
    exact ⟨table,(held _ _).mpr (.inl there)⟩
  · intro path table there apart
    rw [shared] at apart
    rcases (held _ _).mp there with old | ⟨rfl,rfl⟩
    · exact accounted.tables path table old apart
    · rw [frame_number]
      have below := hung.below
      rw [accounted.total] at below
      exact ⟨Nat.mul_mod_left _ _,below,by simpa using unmarked,foreign⟩
  · intro other
    rw [hung.frames,claim_test (by decide),Bool.or_eq_true,decide_eq_true_iff,accounted.marks]
    constructor
    · rintro (rfl | marked | mine | ⟨path,table,old,apart,rfl⟩)
      · exact .inr (.inr ⟨p++[k],other*pageSize,(held _ _).mpr (.inr ⟨rfl,rfl⟩),by rw [shared]; exact own_,frame_number other⟩)
      · exact .inl marked
      · exact .inr (.inl mine)
      · exact .inr (.inr ⟨path,table,(held _ _).mpr (.inl old),by rw [shared]; exact apart,rfl⟩)
    · rintro (marked | mine | ⟨path,table,there,apart,rfl⟩)
      · exact .inr (.inl marked)
      · exact .inr (.inr (.inl mine))
      · rw [shared] at apart
        rcases (held _ _).mp there with old | ⟨_,rfl⟩
        · exact .inr (.inr (.inr ⟨path,table,old,apart,rfl⟩))
        · exact .inl (frame_number frame)

theorem accounted_edit {base : State 32} (accounted : Accounted base m m.active own) (edit : Edit v m after) :
    Accounted base after after.active own := by
  rw [(edit_kept edit).active]
  cases edit with
  | link here _ none hung => exact accounted_hung accounted hung here none
  | set here _ low keeps => exact accounted_set accounted here low keeps

theorem edit_shared {base : State 32} (accounted : Accounted base m m.active own) (edit : Edit v m after)
    (shared : Shared m path) : Held pae after.mem after.active path table ↔ Held pae m.mem m.active path table := by
  rw [(edit_kept edit).active]
  cases edit with
  | link here _ none hung =>
    rw [hung.linked.held]
    constructor
    · rintro (old | ⟨rfl,_⟩)
      · exact old
      · exact absurd shared (unhung_single accounted here none)
    · exact .inl
  | set here _ low keeps => exact held_set accounted.space.tree here low keeps _ _

-- An edit for an address that is not shared stays off every page taken before.
theorem edit_untouched {base : State 32} (accounted : Accounted base m m.active own) (edit : Edit v m after)
    (apart : ¬ Shared m [pdptIndex v,pdIndex v]) (taken : Taken base x) : after.mem x = m.mem x := by
  have outside : ∀ p a k,Held pae m.mem m.active p a → ¬ Shared m p → k < pae.entries p.length →
      x < a+8*k ∨ a+8*k+8 ≤ x := by
    intro p a k here single low
    obtain ⟨aligned,below,unmarked,_⟩ := accounted.tables p a here single
    have wide : pae.entries p.length ≤ tableEntries := by
      simp only [pae,pdptEntries,tableEntries]
      split <;> omega
    by_contra inside
    have page : x/pageSize = a/pageSize := by
      simp only [tableEntries,pageSize] at *
      omega
    rw [Taken,page,unmarked] at taken
    rcases taken with beyond | marked
    · omega
    · cases marked
  have short : ∀ p : List Nat,p.length < 2 → ¬ Shared m p := by
    rintro p short ⟨j,_,rfl⟩
    exact absurd short (by simp)
  cases edit with
  | @link p a k flags later frame here place none hung =>
    have low : k < pae.entries p.length := by
      have there := (hung.linked.held (p++[k]) _).mpr (.inr ⟨rfl,rfl⟩)
      exact ((range_snoc pae p k).mp there.range).2
    have single : ¬ Shared m p := by
      rcases place with ⟨rfl,_⟩ | ⟨rfl,_⟩
      · exact short _ (by simp)
      · exact short _ (by simp)
    refine hung.outside x ?_ (outside p a k here single low)
    rintro rfl
    rcases accounted_taken accounted taken with beyond | marked
    · have below := hung.below
      omega
    · rw [hung.free] at marked
      cases marked
  | @set p a k e here place low keeps =>
    have single : ¬ Shared m p := by
      rcases place with ⟨rfl,_⟩ | ⟨rfl,_⟩
      · exact short _ (by simp)
      · exact apart
    exact patch_outside _ _ (outside p a k here single low)

-- Nothing but directory 0 is used.
def Flat (mem : Memory) (root : Nat) : Prop := ∀ i rest table,Held pae mem root (i::rest) table → i = 0

-- paging_create_address_space gives back its first frame when there is no second.
theorem create_cases (kernel : KernelSpace m) (zero : Taken m.frames 0) :
    pagingCreateAddressSpace m = (0,m) ∨
    ∃ one two,one < m.frames.totalFrames ∧ two < m.frames.totalFrames ∧ frameTest m.frames one = false ∧
      frameTest m.frames two = false ∧ one*pageSize ≠ 0 ∧ (pagingCreateAddressSpace m).1 = one*pageSize ∧
      (pagingCreateAddressSpace m).2.frames = claim (claim m.frames one) two ∧
      entry (pagingCreateAddressSpace m).2.mem (one*pageSize) 0 = (BitVec.ofNat 64 (two*pageSize) ||| pagePresent) := by
  have real : ∀ frame,frame < m.frames.totalFrames → frameTest m.frames frame = false → frame*pageSize ≠ 0 := by
    intro frame below free address
    have other := frame_free free below 0 zero
    rw [address] at other
    exact other rfl
  unfold pagingCreateAddressSpace
  rcases allocFrame_parts kernel.space.sound with full | ⟨one,below,free,taken⟩
  · rw [full]
    exact .inl rfl
  rw [taken]
  dsimp only
  rw [if_neg (real one below free)]
  have sound := claim_sound kernel.space.sound below free
  rcases allocFrame_parts sound with full | ⟨two,belowToo,freeToo,takenToo⟩
  · rw [full]
    dsimp only
    rw [if_pos rfl,claim_back kernel.space.sound below free]
    exact .inl rfl
  rw [takenToo]
  dsimp only
  rw [claim_test (by decide),Bool.or_eq_false_iff] at freeToo
  rw [if_neg (real two belowToo freeToo.2)]
  exact .inr ⟨one,two,below,belowToo,free,freeToo.2,real one below free,rfl,rfl,entry_set _ _ _ _⟩

-- The kernel's directory has a table for every entry it shares.
def Complete (m : Mmu) : Prop := ∀ j < m.kernelPdEntries,∃ table,Held pae m.mem m.image.kernelPdpt [0,j] table

theorem created_accounted (kernel : KernelSpace m) (zero : Taken m.frames 0) (complete : Complete m)
    (made : (pagingCreateAddressSpace m).1 ≠ 0) :
    Accounted m.frames (pagingCreateAddressSpace m).2 (pagingCreateAddressSpace m).1 [] := by
  obtain ⟨one,two,below,belowToo,free,freeToo,_,first,frames,top⟩ := (create_cases kernel zero).resolve_left fun failed => by
    rw [failed] at made
    exact made rfl
  obtain ⟨kept,_,space,_,_⟩ := create_parts kernel made
  obtain ⟨mem,claimed,pd,equal,fresh⟩ := create_fresh kernel made
  have directory : pd = two*pageSize := by
    have leads := fresh.top
    have small : two*pageSize < 2^32 := kernel.space.sound.address_small belowToo
    have there : entry mem (pagingCreateAddressSpace m).1 0 = (BitVec.ofNat 64 (two*pageSize) ||| pagePresent) := by
      rw [first,←top,equal]
    have present : has (entry mem (pagingCreateAddressSpace m).1 0) pagePresent = true := by
      rw [there,frame_has (Nat.mul_mod_left _ _) small (by decide)]
      decide
    rw [next_present present,there,address_frame (Nat.mul_mod_left _ _) small (by decide)] at leads
    exact (Option.some.inj leads).symm
  have entries := kept.entries
  rw [equal] at frames space entries ⊢
  dsimp only at frames
  generalize (pagingCreateAddressSpace m).1 = dir at *
  subst first directory
  have shapes := fun path table => @fresh_held m mem claimed (one*pageSize) (two*pageSize) path table kernel fresh
  refine ⟨space,by rw [frames]; rfl,?_,List.nodup_nil,by simp,?_,?_⟩
  · intro j low
    have few := kernel.entries
    have below : j < m.kernelPdEntries := low
    obtain ⟨table,there⟩ := complete j below
    obtain ⟨above,held,leads⟩ := (held_two (show j < tableEntries by omega)).mp there
    cases held_unique held kernel.directory
    refine ⟨table,(held_two (show j < tableEntries by omega)).mpr ⟨_,(held_one (by decide)).mpr fresh.top,?_⟩⟩
    rw [fresh_next fresh (by omega),if_pos below]
    exact leads
  · intro path table there apart
    rcases shapes path table there with ⟨_,rfl⟩ | ⟨_,rfl⟩ | ⟨j,low,rfl,_⟩
    · exact ⟨Nat.mul_mod_left _ _,by rw [frame_number]; exact ⟨below,free,by simp⟩⟩
    · exact ⟨Nat.mul_mod_left _ _,by rw [frame_number]; exact ⟨belowToo,freeToo,by simp⟩⟩
    · exact absurd ⟨j,low,rfl⟩ apart
  · intro frame
    dsimp only
    rw [frames,claim_test (by decide),claim_test (by decide)]
    simp only [Bool.or_eq_true,decide_eq_true_iff]
    have root : Held pae mem (one*pageSize) [] (one*pageSize) := (held_nil ..).mpr rfl
    have middle : Held pae mem (one*pageSize) [0] (two*pageSize) := (held_one (by decide)).mpr fresh.top
    constructor
    · rintro (rfl | rfl | marked)
      · exact .inr (.inr ⟨_,_,middle,(by rintro ⟨j,_,long⟩; cases long),frame_number _⟩)
      · exact .inr (.inr ⟨_,_,root,(by rintro ⟨j,_,long⟩; cases long),frame_number _⟩)
      · exact .inl marked
    · rintro (marked | mine | ⟨path,table,there,apart,rfl⟩)
      · exact .inr (.inr marked)
      · cases mine
      · rcases shapes path table there with ⟨_,rfl⟩ | ⟨_,rfl⟩ | ⟨j,low,rfl,_⟩
        · exact .inr (.inl (frame_number one))
        · exact .inl (frame_number two)
        · exact absurd ⟨j,low,rfl⟩ apart

end Arthic.TableGrowth
