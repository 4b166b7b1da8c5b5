import Arthic.AddressSpaces
import Arthic.Loader

namespace Arthic.Exposure
open ByteMemory Loader PageTables PageTree Paging Pmm Unsigned
variable {m after : Mmu} {v w phys : Nat} {flags : Entry}

-- What the processor makes of a page: ring 3 and writing must be allowed on both levels,
-- and execution is refused when one of them refuses it.
structure Access where
  frame : Nat
  user : Bool
  writable : Bool
  noExecute : Bool
  deriving DecidableEq

def access (page : Page) : Access :=
  ⟨address page.leaf,page.user,page.writable,has page.directory pageNx || has page.leaf pageNx⟩

def accessTo (m : Mmu) (v : Nat) : Option Access := (walk m.mem m.active v).map access

-- No leaf is open to ring 3 under a directory entry that is not.
def Guarded (m : Mmu) : Prop :=
  ∀ v < 2^32,∀ page,walk m.mem m.active v = some page → has page.leaf pageUser = true → has page.directory pageUser = true

-- A directory entry opened to ring 3 lets nothing through that its leaves keep back.
theorem widened_access (v w : Nat) (flags : Entry) (guarded : has page.leaf pageUser = true → has page.directory pageUser = true) :
    access (widened v flags w page) = access page := by
  unfold widened
  split
  · have write : has (userBit flags) pageWrite = false := has_and _ _ _ (by decide)
    have execute : has (userBit flags) pageNx = false := has_and _ _ _ (by decide)
    simp only [access,Page.user,Page.writable,has_or,write,execute,Bool.or_false]
    cases leaf : has page.leaf pageUser with
    | false => simp only [Bool.and_false]
    | true => rw [guarded leaf,Bool.true_or]
  · rfl

-- What a change to the page of v keeps: the tables, the rule, and the access to every
-- other page.
structure Confined (m after : Mmu) (changed : Nat → Prop) : Prop where
  space : Space after after.active
  guarded : Guarded after
  others : ∀ w < 2^32,¬ changed w → accessTo after w = accessTo m w

theorem widened_confined (guarded : Guarded m) (space : Space after after.active) (active : after.active = m.active)
    (others : ∀ w < 2^32,w/pageSize ≠ v/pageSize → walk after.mem m.active w = (walk m.mem m.active w).map (widened v flags w))
    (here : ∀ page,walk after.mem m.active v = some page → has page.leaf pageUser = true → has page.directory pageUser = true) :
    Confined m after fun w => w/pageSize = v/pageSize := by
  refine ⟨space,?_,?_⟩
  · intro w inside page found user
    rw [active] at found
    by_cases same : w/pageSize = v/pageSize
    · rw [walk_page same] at found
      exact here page found user
    · rw [others w inside same] at found
      obtain ⟨old,there,rfl⟩ := Option.map_eq_some_iff.mp found
      obtain ⟨leaf,wider⟩ := widened_parts v w flags old
      rw [leaf] at user
      exact wider (guarded w inside old there user)
  · intro w inside different
    rw [accessTo,accessTo,active,others w inside different]
    cases found : walk m.mem m.active w with
    | none => rfl
    | some page => rw [Option.map_some,Option.map_some,Option.map_some,widened_access v w flags (guarded w inside page found)]

-- The page of v as paging_map was asked for it.
def Granted (m after : Mmu) (v phys : Nat) (flags : Entry) : Prop :=
  if has flags pagePresent = true then
    ∃ page,walk after.mem after.active v = some page ∧ address page.leaf = phys ∧
      (page.leaf &&& ~~~addressMask) = dropNx m flags ∧ page.user = has flags pageUser
  else walk after.mem after.active v = none

theorem leaf_fields (aligned : phys % pageSize = 0) (small : phys < 2^32) (plain : (flags &&& addressMask) = 0#64) :
    address (BitVec.ofNat 64 phys ||| flags) = phys ∧ ((BitVec.ofNat 64 phys ||| flags) &&& ~~~addressMask) = flags := by
  refine ⟨address_frame aligned small plain,?_⟩
  have rest := field_rest plain (BitVec.ofNat 64 phys)
  rwa [frame_masked aligned small] at rest

theorem dropNx_plain (m : Mmu) (plain : (flags &&& addressMask) = 0#64) : (dropNx m flags &&& addressMask) = 0#64 := by
  unfold dropNx
  split
  · exact plain
  · rw [BitVec.and_assoc,BitVec.and_comm,BitVec.and_assoc,BitVec.and_comm addressMask,plain,BitVec.and_zero]

theorem map_confined (space : Space m m.active) (guarded : Guarded m) (low : v < 2^32) (aligned : phys % pageSize = 0)
    (small : phys < 2^32) (plain : (flags &&& addressMask) = 0#64) :
    Confined m (pagingMap m v phys flags).2 (fun w => w/pageSize = v/pageSize) ∧
    ((pagingMap m v phys flags).1 = true → Granted m (pagingMap m v phys flags).2 v phys flags) ∧
    ((pagingMap m v phys flags).1 = false →
      ∀ w < 2^32,walk (pagingMap m v phys flags).2.mem (pagingMap m v phys flags).2.active w = walk m.mem m.active w) := by
  obtain ⟨kept,space,_,outcome⟩ := pagingMap_leaf space low aligned small flags
  generalize pagingMap m v phys flags = answer at *
  obtain ⟨done,after⟩ := answer
  dsimp only at *
  have here : Space after after.active := by rwa [kept.active]
  rcases outcome with ⟨failed,same⟩ | ⟨mapped,placed⟩
  · refine ⟨⟨here,?_,?_⟩,fun done => absurd (failed.symm.trans done) Bool.false_ne_true,fun _ w inside => ?_⟩
    · intro w inside page found
      rw [kept.active,same w inside] at found
      exact guarded w inside page found
    · intro w inside _
      rw [accessTo,accessTo,kept.active,same w inside]
    · rw [kept.active,same w inside]
  · obtain ⟨directory,written,_,user⟩ := placed.here
    have leaf : has (BitVec.ofNat 64 phys ||| dropNx m flags) pageUser = has flags pageUser := by
      rw [frame_has aligned small (by decide),dropNx_has m flags (by decide)]
    refine ⟨widened_confined guarded here kept.active placed.others ?_,?_,fun failed => absurd (mapped.symm.trans failed) (by decide)⟩
    · intro page found
      rw [written] at found
      split at found
      · cases found
        rw [leaf]
        exact user
      · cases found
    · intro _
      unfold Granted
      rw [kept.active,written]
      split
      · obtain ⟨target,rest⟩ := leaf_fields aligned small (dropNx_plain m plain)
        refine ⟨_,rfl,target,rest,?_⟩
        rw [Page.user,leaf]
        cases asked : has flags pageUser with
        | true => rw [user asked,Bool.true_and]
        | false => rw [Bool.and_false]
      · rfl

-- paging_set_flags leaves the directory as it is.
theorem setFlags_directory (space : Space m m.active) (low : v < 2^32) (one : Held pae m.mem m.active [i] pd)
    (below : k < tableEntries) (flags : Entry) : entry (pagingSetFlags m v flags).mem pd k = entry m.mem pd k := by
  obtain ⟨_,middle,last⟩ := index_bounds low
  by_cases exist : ∃ pt,Held pae m.mem m.active [pdptIndex v,pdIndex v] pt
  · obtain ⟨pt,two⟩ := exist
    obtain ⟨found,real⟩ := entryFor_held space low two
    have written := entry_kept space.tree two one (k:=ptIndex v) (l:=k) last below (by simp)
      ((entry m.mem pt (ptIndex v) &&& addressMask) ||| flags)
    unfold pagingSetFlags
    rw [found]
    dsimp only
    rw [if_neg (by omega)]
    exact written
  · unfold pagingSetFlags
    rw [entryFor_none low (fun pt held => exist ⟨pt,held⟩)]
    rfl

theorem userPage_directory (space : Space m m.active) (low : v < 2^32) (present : has flags pagePresent = true)
    (found : walk (makeUserPage flags m v).mem m.active v = some page) : has page.directory pageUser = true := by
  obtain ⟨top,middle,_⟩ := index_bounds low
  have opened := makeUserPage_parts space low present
  obtain ⟨pd,pt,one,_,_,rfl⟩ := (walk_iff low).mp found
  have oldOne := (opened.held [pdptIndex v] pd).mp one
  obtain ⟨still,_,held,_⟩ := openDirectory space low oldOne rfl
  dsimp only
  unfold makeUserPage
  dsimp only
  rw [pdFor_held top oldOne,if_neg (space.real _ pd oldOne),
    setFlags_directory (m:={m with mem:=_}) still low ((held _ _).mpr oldOne) middle,entry_set,has_or,
    show has pageUser pageUser = true by decide,Bool.or_true]

theorem userPage_confined (space : Space m m.active) (guarded : Guarded m) (low : v < 2^32) (present : has flags pagePresent = true) :
    Confined m (makeUserPage flags m v) fun w => w/pageSize = v/pageSize := by
  have opened := makeUserPage_parts space low present
  have active := opened.kept.active
  refine widened_confined guarded (by rw [active]; exact opened.space) active opened.others ?_
  exact fun page found _ => userPage_directory space low present found

theorem confined_trans {middle : Mmu} {one two all : Nat → Prop} (first : Confined m middle one) (second : Confined middle after two)
    (covers : ∀ w,one w ∨ two w → all w) : Confined m after all := by
  refine ⟨second.space,second.guarded,fun w inside kept => ?_⟩
  rw [second.others w inside fun changed => kept (covers w (.inr changed)),
    first.others w inside fun changed => kept (covers w (.inl changed))]

-- The pages a loop from addr still comes to.
def Visited (addr end_ w : Nat) : Prop := addr/pageSize ≤ w/pageSize ∧ w/pageSize*pageSize < end_

theorem makeUserFrom_confined (space : Space m m.active) (guarded : Guarded m) (present : has flags pagePresent = true)
    (aligned : addr % pageSize = 0) (room : end_+pageSize ≤ 2^32) (ended : makeUserFrom flags end_ turns m addr = some after) :
    Confined m after (Visited addr end_) := by
  induction turns generalizing m addr with
  | zero => cases ended
  | succ turns ih =>
    rw [makeUserFrom] at ended
    by_cases below : addr < end_
    · have small : wrap 32 (addr+pageSize) = addr+pageSize := wrap_small (by omega)
      rw [if_pos below,small] at ended
      have first := userPage_confined space guarded (v:=addr) (by omega) present
      have next : (addr+pageSize) % pageSize = 0 := by rw [Nat.add_mod_right,aligned]
      refine confined_trans first (ih first.space first.guarded next ended) fun w changed => ?_
      simp only [Visited,pageSize] at *
      omega
    · rw [if_neg below] at ended
      cases ended
      exact ⟨space,guarded,fun _ _ _ => rfl⟩

-- An end in the last page is never reached: the address starts over at 0.
theorem makeUserFrom_endless (high : 2^32 < end_+pageSize) (aligned : addr % pageSize = 0) (low : addr < 2^32)
    (flags : Entry) (turns : Nat) (m : Mmu) : makeUserFrom flags end_ turns m addr = none := by
  induction turns generalizing m addr with
  | zero => rfl
  | succ turns ih =>
    have next : wrap 32 (addr+pageSize) % pageSize = 0 := by
      simp only [wrap,pageSize] at *
      omega
    have below : addr < end_ := by
      simp only [pageSize] at *
      omega
    rw [makeUserFrom,if_pos below,ih next (wrap_lt 32 _)]

theorem makeUser_confined (space : Space m m.active) (guarded : Guarded m) (low : start < 2^32)
    (ended : pagingMakeUserTurns turns m start end_ writable = some after) : Confined m after (Visited start end_) := by
  have present : has (makeUserFlags writable) pagePresent = true := by
    cases writable with
    | true => decide
    | false => decide
  have aligned : roundDown start % pageSize = 0 := Nat.mul_mod_left _ _
  unfold pagingMakeUserTurns at ended
  by_cases room : end_+pageSize ≤ 2^32
  · have confined := makeUserFrom_confined space guarded present aligned room ended
    refine ⟨confined.space,confined.guarded,fun w inside kept => confined.others w inside fun visited => kept ⟨?_,visited.2⟩⟩
    have same : roundDown start/pageSize = start/pageSize := by simp [roundDown,pageSize]
    rw [←same]
    exact visited.1
  · have below : roundDown start < 2^32 := Nat.lt_of_le_of_lt (Nat.div_mul_le_self _ _) low
    rw [makeUserFrom_endless (by omega) aligned below] at ended
    cases ended

-- Where the loop ends it has visited the pages of the range in order.
theorem makeUserFrom_pages (room : addr+n*pageSize < 2^32) (last : end_ ≤ addr+n*pageSize)
    (more : ∀ i < n,addr+i*pageSize < end_) (flags : Entry) (m : Mmu) : makeUserFrom flags end_ (n+1) m addr =
      some (((List.range n).map fun i => addr+i*pageSize).foldl (makeUserPage flags) m) := by
  induction n generalizing m addr with
  | zero =>
    rw [makeUserFrom,if_neg (by omega)]
    rfl
  | succ n ih =>
    have first := more 0 (Nat.succ_pos n)
    have small : wrap 32 (addr+pageSize) = addr+pageSize := by
      apply wrap_small
      simp only [pageSize] at *
      omega
    have rest : ((List.range n).map fun i => addr+pageSize+i*pageSize) = (List.range n).map ((fun i => addr+i*pageSize) ∘ Nat.succ) := by
      refine List.map_congr_left fun i _ => ?_
      simp only [Function.comp,Nat.succ_mul]
      omega
    rw [makeUserFrom,if_pos (by omega),small,@ih (addr+pageSize),rest,List.range_succ_eq_map,List.map_cons,List.foldl_cons,
      List.map_map,Nat.zero_mul,Nat.add_zero]
    · simp only [pageSize] at *
      omega
    · simp only [pageSize] at *
      omega
    · intro i below
      have later := more (i+1) (by omega)
      simp only [pageSize] at *
      omega

theorem makeUser_ends (m : Mmu) (low : start < 2^32) (room : end_+pageSize ≤ 2^32) (writable : Bool) :
    pagingMakeUserTurns ((end_-roundDown start+pageSize-1)/pageSize+1) m start end_ writable =
      some (pagingMakeUser m start end_ writable) := by
  have below : roundDown start ≤ start := Nat.div_mul_le_self _ _
  refine makeUserFrom_pages ?_ ?_ ?_ _ m
  · simp only [pageSize] at *
    omega
  · simp only [pageSize] at *
    omega
  · intro i inside
    simp only [pageSize] at *
    omega

-- A page that is mapped or opened exposes no other.
theorem mapping_confined (space : Space m m.active) (guarded : Guarded m) :
    (∀ v phys flags,v < 2^32 → phys % pageSize = 0 → phys < 2^32 → (flags &&& addressMask) = 0#64 →
      Confined m (pagingMap m v phys flags).2 (fun w => w/pageSize = v/pageSize) ∧
      ((pagingMap m v phys flags).1 = true → Granted m (pagingMap m v phys flags).2 v phys flags) ∧
      ((pagingMap m v phys flags).1 = false → ∀ w < 2^32,
        walk (pagingMap m v phys flags).2.mem (pagingMap m v phys flags).2.active w = walk m.mem m.active w)) ∧
    ∀ start end_ writable turns after,start < 2^32 → pagingMakeUserTurns turns m start end_ writable = some after →
      Confined m after (Visited start end_) :=
  ⟨fun _ _ _ low aligned small plain => map_confined space guarded low aligned small plain,
    fun _ _ _ _ _ low ended => makeUser_confined space guarded low ended⟩

-- One empty directory.
theorem small_space : Space smallMmu smallMmu.active ∧ ∀ v < 2^32,walk smallMmu.mem smallMmu.active v = none := by
  have sound : Sound smallFrames := sound_below smallFrames (by decide) (by decide) (by decide) (by decide +kernel)
  have tables : next pae smallMmu.mem 0x103000 0 = some 0x104000 ∧
      (∀ i < pdptEntries,0 < i → next pae smallMmu.mem 0x103000 i = none) ∧
      ∀ j < tableEntries,next pae smallMmu.mem 0x104000 j = none := by decide +kernel
  obtain ⟨top,rest,empty⟩ := tables
  have absent : ∀ {holds : Prop},∀ j < tableEntries,∀ pt,next pae smallMmu.mem 0x104000 j = some pt → holds := by
    intro holds j low pt leads
    rw [empty j low] at leads
    cases leads
  refine ⟨@AddressSpaces.one_directory smallMmu 0x103000 0x104000 smallMmu.mem smallFrames sound (by decide) (by decide) (by decide)
    (by decide) (by decide) top (fun i later low => rest i low later) (fun j low pt leads => absent j low pt leads)
    (fun j low l _ pt leads _ => absent j low pt leads),fun v inside => ?_⟩
  obtain ⟨first,middle,_⟩ := index_bounds inside
  change (next pae smallMmu.mem 0x103000 (pdptIndex v)).bind _ = none
  by_cases zero : pdptIndex v = 0
  · rw [zero,top,Option.bind_some,empty _ middle]
    rfl
  · rw [rest _ first (Nat.pos_of_ne_zero zero)]
    rfl

-- A page of ring 0 stays one when its neighbour is mapped for ring 3.
theorem mapping_confined_small : ∃ first second,pagingMap smallMmu 0x6000 0x8000 3#64 = (true,first) ∧
    pagingMap first 0x5000 0x7000 7#64 = (true,second) ∧ accessTo second 0x6000 = some ⟨0x8000,false,true,false⟩ ∧
    Granted first second 0x5000 0x7000 7#64 := by
  obtain ⟨space,nothing⟩ := small_space
  have guarded : Guarded smallMmu := by
    intro v low page found
    rw [nothing v low] at found
    cases found
  have done : (pagingMap smallMmu 0x6000 0x8000 3#64).1 = true ∧
      (pagingMap (pagingMap smallMmu 0x6000 0x8000 3#64).2 0x5000 0x7000 7#64).1 = true ∧
      accessTo (pagingMap smallMmu 0x6000 0x8000 3#64).2 0x6000 = some ⟨0x8000,false,true,false⟩ := by decide
  obtain ⟨one,_,_⟩ := (mapping_confined space guarded).1 0x6000 0x8000 3#64 (by decide) (by decide) (by decide) (by decide)
  obtain ⟨two,granted,_⟩ := (mapping_confined one.space one.guarded).1 0x5000 0x7000 7#64 (by decide) (by decide) (by decide) (by decide)
  exact ⟨_,_,Prod.ext done.1 rfl,Prod.ext done.2.1 rfl,(two.others 0x6000 (by decide) (by decide)).trans done.2.2,granted done.2.1⟩

end Arthic.Exposure
