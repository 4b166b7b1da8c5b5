import Arthic.LoadedImage
import Arthic.TableGrowth

namespace Arthic.Loading
open AddressSpaces ByteMemory FrameReturns LoadedImage Loader PageTree PageTables Paging Pmm TableGrowth Unsigned

-- What loading a program does to memory, step by step from the new address space on: it
-- maps pages to frames it has, and takes runs of free frames and writes into them.
inductive Loads (permits : Nat → Prop) (base : Mmu) : Mmu → List Nat → Prop where
  | start : Loads permits base base []
  | map (loads : Loads permits base m own) (low : v < 2^32) (permitted : permits v) (aligned : phys % pageSize = 0)
      (small : phys < 2^32) (mine : phys/pageSize ∈ own) (present : has flags pagePresent = true)
      (clear : (flags &&& addressMask) = 0#64) : Loads permits base (pagingMap m v phys flags).2 own
  | take {mem : Memory} (loads : Loads permits base m own) (fits : start+count ≤ m.frames.totalFrames)
      (clear : ∀ frame,start ≤ frame → frame < start+count → frameTest m.frames frame = false)
      (outside : ∀ x,x < start*pageSize ∨ start*pageSize+count*pageSize ≤ x → mem x = m.mem x) :
      Loads permits base {m with mem:=mem,frames:=claimRun m.frames start count} (own++List.range' start count)

variable {m base : Mmu} {first : State 32} {permits : Nat → Prop}

theorem free_same (space : Space m root) (fits : start+count ≤ m.frames.totalFrames)
    (clear : ∀ frame,start ≤ frame → frame < start+count → frameTest m.frames frame = false) {mem : Memory}
    (outside : ∀ x,x < start*pageSize ∨ start*pageSize+count*pageSize ≤ x → mem x = m.mem x) :
    ∀ path table,Held pae m.mem root path table → ∀ x < span pae path,mem (table+x) = m.mem (table+x) := by
  intro path table held x inside
  apply outside
  rw [←Nat.add_mul]
  exact free_bytes space fits clear held inside

theorem accounted_claimed (accounted : Accounted first m root own) (fits : start+count ≤ m.frames.totalFrames)
    (clear : ∀ frame,start ≤ frame → frame < start+count → frameTest m.frames frame = false) {mem : Memory}
    (outside : ∀ x,x < start*pageSize ∨ start*pageSize+count*pageSize ≤ x → mem x = m.mem x) :
    Accounted first {m with mem:=mem,frames:=claimRun m.frames start count} root (own++List.range' start count) := by
  have same := free_same accounted.space fits clear outside
  have held := held_congr same
  -- a frame of the run was nobody's before
  have unused : ∀ frame ∈ List.range' start count,frameTest first frame = false ∧ frame ∉ own ∧
      ∀ path table,Held pae m.mem root path table → ¬ Shared m path → table/pageSize ≠ frame := by
    intro frame member
    rw [List.mem_range'_1] at member
    have free := clear frame member.1 member.2
    rw [Bool.eq_false_iff,ne_eq,accounted.marks,not_or,not_or] at free
    exact ⟨by simpa using free.1,free.2.1,fun path table there apart equal => free.2.2 ⟨path,table,there,apart,equal⟩⟩
  refine ⟨space_same accounted.space _ (claimRun_sound accounted.space.sound fits clear)
    (fun addr => claimRun_taken _ _ _) same,?_,?_,?_,?_,?_,?_⟩
  · rw [←accounted.total]
    exact claimRun_total _ _ _
  · intro j below
    obtain ⟨table,there⟩ := accounted.complete j below
    exact ⟨table,(held _ _).mpr there⟩
  · refine List.nodup_append.mpr ⟨accounted.distinct,List.nodup_range' .. ,?_⟩
    rintro frame mine other member rfl
    exact (unused frame member).2.1 mine
  · intro frame member
    rcases List.mem_append.mp member with old | new
    · exact accounted.fresh frame old
    · refine ⟨?_,(unused frame new).1⟩
      rw [←accounted.total]
      have bounds := List.mem_range'_1.mp new
      omega
  · intro path table there apart
    have old := (held _ _).mp there
    obtain ⟨aligned,below,unmarked,foreign⟩ := accounted.tables path table old apart
    refine ⟨aligned,below,unmarked,?_⟩
    rw [List.mem_append,not_or]
    exact ⟨foreign,fun member => (unused _ member).2.2 path table old apart rfl⟩
  · intro frame
    dsimp only
    rw [claimRun_test (by decide),List.mem_append,List.mem_range'_1]
    simp only [held]
    have before := accounted.marks frame
    constructor
    · intro marked
      split at marked
      · rename_i inside
        exact .inr (.inl (.inr inside))
      · rcases before.mp marked with old | mine | tabled
        · exact .inl old
        · exact .inr (.inl (.inl mine))
        · exact .inr (.inr tabled)
    · rintro (old | (mine | inside) | tabled)
      · rw [before.mpr (.inl old)]
        exact ite_self _
      · rw [before.mpr (.inr (.inl mine))]
        exact ite_self _
      · rw [if_pos inside]
      · rw [before.mpr (.inr (.inr tabled))]
        exact ite_self _

theorem loads_accounted (begun : Accounted first base base.active []) (zero : Taken base.frames 0)
    (loads : Loads permits base m own) : Accounted first m m.active own ∧ Kept base m := by
  induction loads with
  | start => exact ⟨begun,kept_refl base⟩
  | @map m own v phys flags _ low _ _ _ _ _ _ ih =>
    obtain ⟨accounted,kept⟩ := ih
    refine @pagingMap_rule _ _ (fun m => Accounted first m m.active own ∧ Kept base m) low ?_ accounted.space
      (kept.taken 0 zero) ⟨accounted,kept⟩ phys flags
    rintro m after space ⟨accounted,kept⟩ edit
    exact ⟨accounted_edit accounted edit,kept_trans kept (edit_kept edit)⟩
  | take _ fits clear outside ih =>
    obtain ⟨accounted,kept⟩ := ih
    exact ⟨accounted_claimed accounted fits clear outside,
      kept.image,kept.active,kept.limit,kept.entries,kept.nx,fun addr taken => claimRun_taken _ _ _ (kept.taken addr taken)⟩

-- No byte of a page that was taken before is written.
theorem loads_untouched (begun : Accounted first base base.active []) (zero : Taken base.frames 0)
    (apart : ∀ v < 2^32,permits v → ¬ Shared base [pdptIndex v,pdIndex v]) (loads : Loads permits base m own)
    (taken : Taken first x) : m.mem x = base.mem x := by
  induction loads with
  | start => rfl
  | @map m own v phys flags loads low permitted _ _ _ _ _ ih =>
    obtain ⟨accounted,kept⟩ := loads_accounted begun zero loads
    have rule := @pagingMap_rule _ _
      (fun m => Accounted first m m.active own ∧ Kept base m ∧ m.mem x = base.mem x) low (by
        rintro m after _ ⟨accounted,kept,same⟩ edit
        have single : ¬ Shared m [pdptIndex v,pdIndex v] := by
          rw [Shared,kept.entries]
          exact apart v low permitted
        exact ⟨accounted_edit accounted edit,kept_trans kept (edit_kept edit),
          (edit_untouched accounted edit single taken).trans same⟩)
      accounted.space (kept.taken 0 zero) ⟨accounted,kept,ih⟩ phys flags
    exact rule.2.2
  | @take m own start count mem loads fits clear outside ih =>
    obtain ⟨accounted,_⟩ := loads_accounted begun zero loads
    rw [←ih]
    apply outside
    by_contra inside
    have frame : start ≤ x/pageSize ∧ x/pageSize < start+count := by
      simp only [pageSize] at *
      omega
    rcases accounted_taken accounted taken with beyond | marked
    · omega
    · rw [clear _ frame.1 frame.2] at marked
      cases marked

-- The tables all spaces share stay where they are, and so does what they translate.
theorem loads_shared (begun : Accounted first base base.active []) (zero : Taken base.frames 0)
    (loads : Loads permits base m own) (shared : Shared base path) :
    Held pae m.mem m.active path table ↔ Held pae base.mem base.active path table := by
  induction loads with
  | start => rfl
  | @map m own v phys flags loads low _ _ _ _ _ _ ih =>
    obtain ⟨accounted,kept⟩ := loads_accounted begun zero loads
    have rule := @pagingMap_rule _ _ (fun m => Accounted first m m.active own ∧ Kept base m ∧
        (Held pae m.mem m.active path table ↔ Held pae base.mem base.active path table)) low (by
          rintro m after _ ⟨accounted,kept,same⟩ edit
          have here : Shared m path := by
            rw [Shared,kept.entries]
            exact shared
          exact ⟨accounted_edit accounted edit,kept_trans kept (edit_kept edit),(edit_shared accounted edit here).trans same⟩)
      accounted.space (kept.taken 0 zero) ⟨accounted,kept,ih⟩ phys flags
    exact rule.2.2
  | take loads fits clear outside ih =>
    obtain ⟨accounted,_⟩ := loads_accounted begun zero loads
    exact (held_congr (free_same accounted.space fits clear outside) _ _).trans ih

theorem loads_shows (begun : Accounted first base base.active []) (zero : Taken base.frames 0)
    (apart : ∀ v < 2^32,permits v → ¬ Shared base [pdptIndex v,pdIndex v]) (loads : Loads permits base m own)
    (low : w < 2^32) (shared : Shared base [pdptIndex w,pdIndex w]) :
    walk m.mem m.active w = walk base.mem base.active w := by
  induction loads with
  | start => rfl
  | @map m own v phys flags loads small permitted aligned short _ present _ ih =>
    obtain ⟨accounted,_⟩ := loads_accounted begun zero loads
    obtain ⟨kept,_,_,outcome⟩ := pagingMap_parts accounted.space small aligned short present
    generalize pagingMap m v phys flags = answer at *
    obtain ⟨made,after⟩ := answer
    dsimp only at *
    have different : ¬ (pdptIndex w = pdptIndex v ∧ pdIndex w = pdIndex v) := by
      rintro ⟨top,middle⟩
      rw [top,middle] at shared
      exact apart v small permitted shared
    rw [kept.active,←ih]
    rcases outcome with ⟨_,same⟩ | ⟨_,mapped⟩
    · exact same w low
    · have other : w/pageSize ≠ v/pageSize := fun page => different ⟨(indices_page page).1,(indices_page page).2.1⟩
      rw [mapped.others w low other]
      exact map_widened flags v w fun same => absurd same different
  | take loads fits clear outside ih =>
    obtain ⟨accounted,_⟩ := loads_accounted begun zero loads
    rw [←ih]
    exact walk_congr (free_same accounted.space fits clear outside) low

theorem dropNx_clear (m : Mmu) (clear : (flags &&& addressMask) = 0#64) : (dropNx m flags &&& addressMask) = 0#64 := by
  unfold dropNx
  split
  · exact clear
  · rw [BitVec.and_assoc,BitVec.and_comm (~~~pageNx),←BitVec.and_assoc,clear,BitVec.zero_and]

-- Every page leads to a frame of the program's own or is what the space began with.
theorem loads_leaves (begun : Accounted first base base.active []) (zero : Taken base.frames 0)
    (loads : Loads permits base m own) (low : v < 2^32) (found : walk m.mem m.active v = some page) :
    address page.leaf/pageSize ∈ own ∨ (walk base.mem base.active v).map Page.leaf = some page.leaf := by
  induction loads generalizing page with
  | start => exact .inr (by rw [found]; rfl)
  | @map m own w phys flags loads small permitted aligned short mine present clear ih =>
    obtain ⟨accounted,_⟩ := loads_accounted begun zero loads
    obtain ⟨kept,_,_,outcome⟩ := pagingMap_parts accounted.space small aligned short present
    generalize pagingMap m w phys flags = answer at *
    obtain ⟨made,after⟩ := answer
    dsimp only at *
    rw [kept.active] at found
    rcases outcome with ⟨_,same⟩ | ⟨_,mapped⟩
    · rw [same v low] at found
      exact ih found
    · by_cases here : v/pageSize = w/pageSize
      · obtain ⟨directory,translated,_⟩ := mapped.here
        rw [walk_page here,translated] at found
        cases Option.some.inj found
        left
        dsimp only
        rw [address_frame aligned short (dropNx_clear m clear)]
        exact mine
      · rw [mapped.others v low here] at found
        obtain ⟨before,translated,rfl⟩ := Option.map_eq_some_iff.mp found
        rw [(widened_parts w v flags before).1]
        exact ih translated
  | take loads fits clear outside ih =>
    obtain ⟨accounted,_⟩ := loads_accounted begun zero loads
    dsimp only at found
    rw [walk_congr (free_same accounted.space fits clear outside) low] at found
    exact (ih found).imp (fun member => List.mem_append_left _ member) id

-- The frames a program's record names, in the order in which unload gives them back.
def holdings (prog : Program) : List Nat :=
  (prog.segments.flatMap fun segment => runAddrs segment.phys segment.pages)++
  ((if prog.argsPhys = 0 then [] else [prog.argsPhys])++
  (if prog.stackPhys = 0 then [] else runAddrs prog.stackPhys (userStackSize/pageSize)))

-- What paging_destroy_address_space gives back.
def tableAddrs (m : Mmu) (pdpt : Nat) : List Nat :=
  if pdpt = 0 ∨ pdpt = m.image.kernelPdpt then [] else
  (if has (entry m.mem pdpt 0) pagePresent = false then [] else
    let pd := address (entry m.mem pdpt 0)
    ((List.range' m.kernelPdEntries (tableEntries-m.kernelPdEntries)).filter fun i =>
      has (entry m.mem pd i) pagePresent).map (fun i => address (entry m.mem pd i))++[pd])++[pdpt]

def unloadAddrs (m : Mmu) (prog : Program) : List Nat :=
  holdings prog++(if prog.pageDir = 0 then [] else tableAddrs m prog.pageDir)

theorem freeRun_frees (frames : State 32) (phys pages : Nat) : freeRun frames phys pages = freeAll frames (runAddrs phys pages) := by
  rw [freeRun,freeAll,runAddrs,List.foldl_map]

theorem destroy_frees (m : Mmu) (pdpt : Nat) :
    pagingDestroyAddressSpace m pdpt = {m with frames:=freeAll m.frames (tableAddrs m pdpt)} := by
  unfold pagingDestroyAddressSpace tableAddrs
  split
  · rfl
  · dsimp only
    split
    · rfl
    · dsimp only
      rw [freeAll,List.foldl_append,List.foldl_append,List.foldl_map,List.foldl_filter]
      rfl

theorem segments_free (frames : State 32) (segments : List Segment) :
    segments.foldl (fun frames segment => freeRun frames segment.phys segment.pages) frames =
      freeAll frames (segments.flatMap fun segment => runAddrs segment.phys segment.pages) := by
  induction segments generalizing frames with
  | nil => rfl
  | cons segment segments ih =>
    rw [List.foldl_cons,ih,List.flatMap_cons,freeAll_append,freeRun_frees]

theorem unload_frees (m : Mmu) (prog : Program) :
    unload m prog = {m with frames:=freeAll m.frames (unloadAddrs m prog)} := by
  have args : ∀ frames : State 32,(if prog.argsPhys = 0 then frames else pmmFreeFrame frames prog.argsPhys) =
      freeAll frames (if prog.argsPhys = 0 then [] else [prog.argsPhys]) := by
    intro frames
    split <;> rfl
  have stack : ∀ frames : State 32,
      (if prog.stackPhys = 0 then frames else freeRun frames prog.stackPhys (userStackSize/pageSize)) =
      freeAll frames (if prog.stackPhys = 0 then [] else runAddrs prog.stackPhys (userStackSize/pageSize)) := by
    intro frames
    split
    · rfl
    · exact freeRun_frees ..
  unfold unload unloadAddrs holdings
  dsimp only
  rw [segments_free,args,stack]
  split
  · rw [List.append_nil,freeAll_append,freeAll_append]
  · rw [destroy_frees,freeAll_append,freeAll_append,freeAll_append]
    rfl

-- Two tables of a space's own lie on different pages.
theorem table_pages (accounted : Accounted first m root own) (here : Held pae m.mem root p a) (there : Held pae m.mem root q b)
    (single : ¬ Shared m p) (singleToo : ¬ Shared m q) (different : p ≠ q) : a/pageSize ≠ b/pageSize := by
  have apart := accounted.space.tree p q a b here there different
  have aligned := (accounted.tables p a here single).1
  have alignedToo := (accounted.tables q b there singleToo).1
  have wide : ∀ path : List Nat,0 < span pae path := by
    intro path
    simp only [span,pae,pdptEntries,tableEntries]
    split <;> omega
  have first := wide p
  have second := wide q
  simp only [Apart,pageSize] at *
  omega

-- The allocator counts what was taken before, the frames and the tables.
theorem accounted_count (accounted : Accounted first m root own) (sound : Sound first) {paths : List (List Nat)}
    (distinct : paths.Nodup) (exact_ : ∀ path,path ∈ paths ↔ ¬ Shared m path ∧ ∃ table,Held pae m.mem root path table) :
    m.frames.usedFrames = first.usedFrames+own.length+paths.length := by
  have tables : ∀ path,∃ table,path ∈ paths → Held pae m.mem root path table := by
    intro path
    by_cases member : path ∈ paths
    · obtain ⟨_,table,held⟩ := (exact_ path).mp member
      exact ⟨table,fun _ => held⟩
    · exact ⟨0,fun inside => absurd inside member⟩
  choose table held using tables
  have single := fun path member => ((exact_ path).mp member).1
  have perm : ((List.range m.frames.totalFrames).filter (frameTest m.frames)).Perm
      ((List.range first.totalFrames).filter (frameTest first)++own++paths.map fun path => table path/pageSize) := by
    refine (List.perm_ext_iff_of_nodup (List.nodup_range.filter _) ?_).mpr ?_
    · refine List.nodup_append.mpr ⟨List.nodup_append.mpr ⟨List.nodup_range.filter _,accounted.distinct,?_⟩,?_,?_⟩
      · rintro frame old _ mine rfl
        have marked := (List.mem_filter.mp old).2
        rw [(accounted.fresh frame mine).2] at marked
        cases marked
      · refine distinct.map_on ?_
        intro p left q right equal
        by_contra different
        exact table_pages accounted (held p left) (held q right) (single p left) (single q right) different equal
      · rintro frame old _ tabled rfl
        obtain ⟨path,member,rfl⟩ := List.mem_map.mp tabled
        obtain ⟨_,_,unmarked,foreign⟩ := accounted.tables path _ (held path member) (single path member)
        rcases List.mem_append.mp old with before | mine
        · rw [(List.mem_filter.mp before).2] at unmarked
          cases unmarked
        · exact foreign mine
    · intro frame
      rw [List.mem_append,List.mem_append,List.mem_filter,List.mem_filter,List.mem_range,List.mem_range,List.mem_map,
        accounted.marks,accounted.total]
      constructor
      · rintro ⟨below,old | mine | ⟨path,entry,there,apart,rfl⟩⟩
        · exact .inl (.inl ⟨below,old⟩)
        · exact .inl (.inr mine)
        · have member := (exact_ path).mpr ⟨apart,entry,there⟩
          exact .inr ⟨path,member,by rw [held_unique (held path member) there]⟩
      · rintro ((⟨below,old⟩ | mine) | ⟨path,member,rfl⟩)
        · exact ⟨below,.inl old⟩
        · exact ⟨(accounted.fresh frame mine).1,.inr (.inl mine)⟩
        · exact ⟨(accounted.tables path _ (held path member) (single path member)).2.1,
            .inr (.inr ⟨path,_,held path member,single path member,rfl⟩)⟩
  have lengths := perm.length_eq
  rw [←marked_count accounted.space.sound,List.length_append,List.length_append,←marked_count sound,List.length_map] at lengths
  exact lengths
theorem root_single (m : Mmu) : ¬ Shared m [] := by
  rintro ⟨j,_,long⟩
  cases long

theorem directory_single (m : Mmu) (i : Nat) : ¬ Shared m [i] := by
  rintro ⟨j,_,long⟩
  cases long

theorem table_single (m : Mmu) (above : m.kernelPdEntries ≤ j) : ¬ Shared m [0,j] := by
  rintro ⟨l,below,equal⟩
  have same := List.singleton_inj.mp (List.cons_eq_cons.mp equal).2
  omega

-- What paging_destroy_address_space gives back are the tables below its first entry.
theorem tableAddrs_held (real : root ≠ 0) (other : root ≠ m.image.kernelPdpt) (frame : Nat) :
    frame ∈ numbers (tableAddrs m root) ↔ ∃ path table,Held pae m.mem root path table ∧ ¬ Shared m path ∧
      (∀ i rest,path = i::rest → i = 0) ∧ table/pageSize = frame := by
  have top : Held pae m.mem root [] root := (held_nil ..).mpr rfl
  unfold tableAddrs
  rw [if_neg (not_or.mpr ⟨real,other⟩)]
  cases present : has (entry m.mem root 0) pagePresent with
  | false =>
    rw [if_pos rfl,List.nil_append,numbers,List.map_singleton,List.mem_singleton]
    constructor
    · rintro rfl
      exact ⟨[],root,top,root_single m,(fun _ _ empty => by cases empty),rfl⟩
    · rintro ⟨path,table,held,_,zero,rfl⟩
      have missing := next_absent present
      rcases held_shapes held with ⟨_,rfl⟩ | ⟨i,_,rfl,leads⟩ | ⟨i,j,_,_,rfl,_,leads,_⟩
      · rfl
      · rw [zero i [] rfl,missing] at leads
        cases leads
      · rw [zero i [j] rfl,missing] at leads
        cases leads
  | true =>
    have directory : Held pae m.mem root [0] (address (entry m.mem root 0)) := (held_one (by decide)).mpr (next_present present)
    rw [if_neg (by simp)]
    generalize address (entry m.mem root 0) = pd at *
    simp only [numbers,List.map_append,List.map_map,List.mem_append,List.mem_map,List.mem_filter,List.mem_range'_1,
      List.map_singleton,List.mem_singleton,Function.comp_apply]
    constructor
    · rintro ((⟨j,⟨bounds,found⟩,rfl⟩ | rfl) | rfl)
      · have middle : j < tableEntries := by omega
        exact ⟨[0,j],_,(held_two middle).mpr ⟨pd,directory,next_present found⟩,table_single m bounds.1,
          fun i rest equal => (List.cons_eq_cons.mp equal).1.symm,rfl⟩
      · exact ⟨[0],pd,directory,directory_single m 0,fun i rest equal => (List.cons_eq_cons.mp equal).1.symm,rfl⟩
      · exact ⟨[],root,top,root_single m,(fun _ _ empty => by cases empty),rfl⟩
    · rintro ⟨path,table,held,single,zero,rfl⟩
      rcases held_shapes held with ⟨_,rfl⟩ | ⟨i,low,rfl,_⟩ | ⟨i,j,low,middle,rfl,_⟩
      · exact .inr rfl
      · cases zero i [] rfl
        exact .inl (.inr (by rw [held_unique held directory]))
      · cases zero i [j] rfl
        have found := held_present held middle directory
        obtain ⟨above,one,leads⟩ := (held_two middle).mp held
        cases held_unique one directory
        rw [next_present found] at leads
        refine .inl (.inl ⟨j,⟨⟨?_,?_⟩,found⟩,by rw [Option.some.inj leads]⟩)
        · by_contra below
          exact single ⟨j,by omega,rfl⟩
        · have few : m.kernelPdEntries ≤ j := by
            by_contra below
            exact single ⟨j,by omega,rfl⟩
          omega

theorem tableAddrs_distinct (accounted : Accounted first m root own) : (numbers (tableAddrs m root)).Nodup := by
  have top : Held pae m.mem root [] root := (held_nil ..).mpr rfl
  unfold tableAddrs
  split
  · exact List.nodup_nil
  cases present : has (entry m.mem root 0) pagePresent with
  | false =>
    rw [if_pos rfl]
    exact List.nodup_singleton _
  | true =>
    have directory : Held pae m.mem root [0] (address (entry m.mem root 0)) := (held_one (by decide)).mpr (next_present present)
    rw [if_neg (by simp)]
    generalize address (entry m.mem root 0) = pd at *
    have entries : ∀ j,m.kernelPdEntries ≤ j → j < tableEntries → has (entry m.mem pd j) pagePresent = true →
        Held pae m.mem root [0,j] (address (entry m.mem pd j)) :=
      fun j _ low found => (held_two low).mpr ⟨pd,directory,next_present found⟩
    have tables : (((List.range' m.kernelPdEntries (tableEntries-m.kernelPdEntries)).filter fun i =>
        has (entry m.mem pd i) pagePresent).map fun i => address (entry m.mem pd i)/pageSize).Nodup := by
      refine (List.Nodup.filter _ (List.nodup_range' ..)).map_on ?_
      intro j memberJ l memberL equal
      obtain ⟨boundsJ,foundJ⟩ := List.mem_filter.mp memberJ
      obtain ⟨boundsL,foundL⟩ := List.mem_filter.mp memberL
      rw [List.mem_range'_1] at boundsJ boundsL
      by_contra different
      exact table_pages accounted (entries j boundsJ.1 (by omega) foundJ) (entries l boundsL.1 (by omega) foundL)
        (table_single m boundsJ.1) (table_single m boundsL.1)
        (fun same => different (List.singleton_inj.mp (List.cons_eq_cons.mp same).2)) equal
    rw [numbers,List.map_append,List.map_append,List.map_map]
    refine List.nodup_append.mpr ⟨List.nodup_append.mpr ⟨tables,List.nodup_singleton _,?_⟩,List.nodup_singleton _,?_⟩
    · rintro _ member _ last rfl
      obtain ⟨j,inside,equal⟩ := List.mem_map.mp member
      obtain ⟨bounds,found⟩ := List.mem_filter.mp inside
      rw [List.mem_range'_1] at bounds
      rw [List.map_singleton,List.mem_singleton] at last
      exact table_pages accounted (entries j bounds.1 (by omega) found) directory (table_single m bounds.1)
        (directory_single m 0) (by simp) (equal.trans last)
    · rintro _ member _ last rfl
      rw [List.map_singleton,List.mem_singleton] at last
      rcases List.mem_append.mp member with inside | inside
      · obtain ⟨j,inside,equal⟩ := List.mem_map.mp inside
        obtain ⟨bounds,found⟩ := List.mem_filter.mp inside
        rw [List.mem_range'_1] at bounds
        exact table_pages accounted (entries j bounds.1 (by omega) found) top (table_single m bounds.1)
          (root_single m) (by simp) (equal.trans last)
      · rw [List.map_singleton,List.mem_singleton] at inside
        exact table_pages accounted directory top (directory_single m 0) (root_single m) (by simp) (inside.symm.trans last)

theorem unload_members (accounted : Accounted first m root own) (perm : own.Perm (numbers (addrs++holdings prog)))
    (other : root ≠ m.image.kernelPdpt) (dir : prog.pageDir = root) (frame : Nat) :
    frame ∈ numbers (addrs++unloadAddrs m prog) ↔ frame ∈ own ∨ ∃ path table,Held pae m.mem root path table ∧
      ¬ Shared m path ∧ (∀ i rest,path = i::rest → i = 0) ∧ table/pageSize = frame := by
  have real := accounted.space.real [] root ((held_nil ..).mpr rfl)
  rw [unloadAddrs,dir,if_neg real,←List.append_assoc,numbers,List.map_append,List.mem_append,perm.mem_iff,
    ←tableAddrs_held real other]
  rfl

-- Everything is given back once, and nothing is left if one directory was all there was.
theorem unload_parts (accounted : Accounted first m root own) (perm : own.Perm (numbers (addrs++holdings prog)))
    (other : root ≠ m.image.kernelPdpt) (dir : prog.pageDir = root) (sound : Sound first) :
    Returnable m.frames (addrs++unloadAddrs m prog) ∧
      (freeAll m.frames (addrs++unloadAddrs m prog) = first ↔ Flat m.mem root) := by
  have real := accounted.space.real [] root ((held_nil ..).mpr rfl)
  have members := unload_members accounted perm other dir
  obtain ⟨freed,total,tests⟩ := freeAll_parts accounted.space.sound (addrs++unloadAddrs m prog)
  refine ⟨⟨?_,?_⟩,?_⟩
  · rw [unloadAddrs,dir,if_neg real,←List.append_assoc,numbers,List.map_append]
    refine List.nodup_append.mpr ⟨perm.nodup_iff.mp accounted.distinct,tableAddrs_distinct accounted,?_⟩
    rintro frame mine _ tabled rfl
    obtain ⟨path,table,held,single,_,rfl⟩ := (tableAddrs_held real other _).mp tabled
    exact (accounted.tables path table held single).2.2.2 (perm.mem_iff.mpr mine)
  · intro frame member
    rw [accounted.total,accounted.marks]
    rcases (members frame).mp member with mine | ⟨path,table,held,single,_,rfl⟩
    · exact ⟨(accounted.fresh frame mine).1,.inr (.inl mine)⟩
    · exact ⟨(accounted.tables path table held single).2.1,.inr (.inr ⟨path,table,held,single,rfl⟩)⟩
  · constructor
    · intro restored i rest table held
      by_contra high
      have single : ¬ Shared m (i::rest) := by
        rintro ⟨j,_,equal⟩
        exact high (List.cons_eq_cons.mp equal).1
      obtain ⟨_,below,unmarked,foreign⟩ := accounted.tables _ table held single
      have left : frameTest (freeAll m.frames (addrs++unloadAddrs m prog)) (table/pageSize) = true := by
        rw [tests,accounted.marks,members]
        refine ⟨.inr (.inr ⟨_,table,held,single,rfl⟩),fun _ => not_or.mpr ⟨foreign,?_⟩⟩
        rintro ⟨path,lower,there,singleToo,zero,equal⟩
        refine table_pages accounted there held singleToo single ?_ equal
        rintro rfl
        exact high (zero i rest rfl)
      rw [restored,unmarked] at left
      cases left
    · intro flat
      refine state_ext freed sound (total.trans accounted.total) ?_
      intro frame
      rw [Bool.eq_iff_iff,tests,accounted.marks,members,accounted.total]
      constructor
      · rintro ⟨old | mine | ⟨path,table,held,single,rfl⟩,outside⟩
        · exact old
        · exact absurd (.inl mine) (outside (accounted.fresh frame mine).1)
        · refine absurd (.inr ⟨path,table,held,single,?_,rfl⟩) (outside (accounted.tables path table held single).2.1)
          rintro i rest rfl
          exact flat i rest table held
      · intro old
        refine ⟨.inl old,fun _ => not_or.mpr ⟨?_,?_⟩⟩
        · intro mine
          rw [(accounted.fresh frame mine).2] at old
          cases old
        · rintro ⟨path,table,held,single,_,rfl⟩
          rw [(accounted.tables path table held single).2.2.1] at old
          cases old

end Arthic.Loading
