import Arthic.ProgramImage

namespace Arthic.SegmentLoading
open AddressSpaces ByteMemory FrameReturns LoadedImage Loader LoaderContents Loading LoaderTraces PageTree PageTables Paging Pmm
  ProgramImage SyscallSafety TableGrowth Unsigned
variable {m middle after : Mmu} {prog : Program} {file : Memory} {ph : ProgramHeader} {own : List Nat}

-- A byte of a table of the active address space.
def Tabled (m : Mmu) (x : Nat) : Prop :=
  ∃ path table,Held pae m.mem m.active path table ∧ table ≤ x ∧ x < table+span pae path

-- What mapping pages takes and writes: the frames it takes become tables, and it writes into
-- tables only.
structure Grown (m after : Mmu) : Prop where
  kept : Kept m after
  held : ∀ path table,Held pae m.mem m.active path table → Held pae after.mem after.active path table
  frames : ∀ frame,frameTest m.frames frame = false → frameTest after.frames frame = true → Tabled after (frame*pageSize)
  bytes : ∀ x,after.mem x ≠ m.mem x → Tabled after x

theorem tabled_grown (grown : Grown m after) (tabled : Tabled m x) : Tabled after x := by
  obtain ⟨path,table,held,inside⟩ := tabled
  exact ⟨path,table,grown.held path table held,inside⟩

theorem grown_refl (m : Mmu) : Grown m m where
  kept := kept_refl m
  held := fun _ _ held => held
  frames := fun frame clear marked => by rw [clear] at marked; cases marked
  bytes := fun _ changed => absurd rfl changed

theorem grown_trans (first : Grown m middle) (second : Grown middle after) : Grown m after := by
  refine ⟨kept_trans first.kept second.kept,fun path table held => second.held path table (first.held path table held),?_,?_⟩
  · intro frame clear marked
    cases before : frameTest middle.frames frame with
    | true => exact tabled_grown second (first.frames frame clear before)
    | false => exact second.frames frame before marked
  · intro x changed
    by_cases same : middle.mem x = m.mem x
    · exact second.bytes x (by rw [same]; exact changed)
    · exact tabled_grown second (first.bytes x same)

theorem entry_tabled (held : Held pae m.mem m.active path table) (low : k < pae.entries path.length)
    (above : table+8*k ≤ x) (below : x < table+8*k+8) : Tabled m x :=
  ⟨path,table,held,by omega,by unfold span; omega⟩

theorem grown_edit (space : Space m m.active) (edit : Edit v m after) : Grown m after := by
  have kept := edit_kept edit
  cases edit with
  | @link p a k flags later frame here place none hung =>
    have old : ∀ path table,Held pae m.mem m.active path table → Held pae after.mem after.active path table := by
      intro path table held
      rw [kept.active]
      exact (hung.linked.held _ _).mpr (.inl held)
    have new : Held pae after.mem after.active (p++[k]) (frame*pageSize) := by
      rw [kept.active]
      exact (hung.linked.held _ _).mpr (.inr ⟨rfl,rfl⟩)
    have low : k < pae.entries p.length := ((range_snoc pae p k).mp new.range).2
    have page : ∀ x,x/pageSize = frame → Tabled after x := by
      intro x inside
      refine ⟨_,_,new,?_⟩
      rw [span_below]
      simp only [pageSize] at *
      omega
    refine ⟨kept,old,?_,?_⟩
    · intro other clear marked
      rw [hung.frames,claim_test (by decide),clear,Bool.or_false,decide_eq_true_iff] at marked
      exact page _ (by rw [marked,frame_number])
    · intro x changed
      by_cases inside : x/pageSize = frame
      · exact page x inside
      · by_contra apart
        refine changed (hung.outside x inside ?_)
        by_contra within
        exact apart (entry_tabled (old p a here) low (by omega) (by omega))
  | @set p a k e here place low keeps =>
    have same := held_set space.tree here low keeps
    refine ⟨kept,fun path table held => (same path table).mpr held,
      fun frame clear marked => absurd (clear.symm.trans marked) (by decide),?_⟩
    intro x changed
    by_contra apart
    refine changed (patch_outside _ _ ?_)
    by_contra within
    exact apart (entry_tabled ((same p a).mpr here) low (by omega) (by omega))

theorem grown_map (space : Space m m.active) (zero : Taken m.frames 0) (low : v < 2^32) (phys : Nat) (flags : Entry) :
    Grown m (pagingMap m v phys flags).2 := by
  refine @pagingMap_rule _ _ (Grown m) low ?_ space zero (grown_refl m) phys flags
  intro middle after still grown edit
  exact grown_trans grown (grown_edit still edit)

-- What a run of pages that are all mapped comes to.
structure Ran (m after : Mmu) (own : List Nat) (start phys : Nat) (indices : List Nat) : Prop where
  space : Space after after.active
  grown : Grown m after
  owned : Owned after own
  content : ∀ frame ∈ own,∀ x < pageSize,after.mem (frame*pageSize+x) = m.mem (frame*pageSize+x)
  gained : ∀ w < 2^32,walk after.mem after.active w ≠ walk m.mem m.active w → ∃ i ∈ indices,
    pdptIndex w = pdptIndex (wrap 32 (start+i*pageSize)) ∧ pdIndex w = pdIndex (wrap 32 (start+i*pageSize))
  leaves : ∀ w < 2^32,(∀ i ∈ indices,w/pageSize ≠ wrap 32 (start+i*pageSize)/pageSize) →
    (walk after.mem after.active w).map Page.leaf = (walk m.mem m.active w).map Page.leaf
  mapped : ∀ i ∈ indices,(walk after.mem after.active (wrap 32 (start+i*pageSize))).map (fun page => address page.leaf) =
    some (wrap 32 (phys+i*pageSize))

theorem ran_map (space : Space m m.active) (zero : Taken m.frames 0) (owned : Owned m own)
    (aligned : phys % pageSize = 0) (present : has flags pagePresent = true) (clear : (flags &&& addressMask) = 0#64)
    (done : (pagingMap m (wrap 32 (start+i*pageSize)) (wrap 32 (phys+i*pageSize)) flags).1 = true) :
    Ran m (pagingMap m (wrap 32 (start+i*pageSize)) (wrap 32 (phys+i*pageSize)) flags).2 own start phys [i] := by
  have low := wrap_lt 32 (start+i*pageSize)
  have small := wrap_lt 32 (phys+i*pageSize)
  have place : wrap 32 (phys+i*pageSize) % pageSize = 0 := by
    simp only [wrap,pageSize] at *
    omega
  have grown := grown_map space zero low (wrap 32 (phys+i*pageSize)) flags
  obtain ⟨ownedToo,content⟩ := owned_map space zero owned low (wrap 32 (phys+i*pageSize)) flags
  obtain ⟨kept,still,_,outcome⟩ := pagingMap_parts space low place small present
  obtain ⟨_,placed⟩ := outcome.resolve_left fun failed => by rw [done] at failed; cases failed.1
  generalize target : wrap 32 (start+i*pageSize) = v at *
  generalize (pagingMap m v (wrap 32 (phys+i*pageSize)) flags).2 = after at *
  obtain ⟨directory,translated,_⟩ := placed.here
  have active := kept.active
  refine ⟨by rw [active]; exact still,grown,ownedToo,content,?_,?_,?_⟩
  · intro w inside changed
    refine ⟨i,List.mem_singleton_self i,?_⟩
    rw [target]
    by_contra apart
    rw [active,placed.others w inside fun page => apart ⟨(indices_page page).1,(indices_page page).2.1⟩] at changed
    exact changed (map_widened flags v w fun same => absurd same apart)
  · intro w inside elsewhere
    have other := elsewhere i (List.mem_singleton_self i)
    rw [target] at other
    rw [active,placed.others w inside other,Option.map_map]
    congr 1
    funext page
    exact (widened_parts v w flags page).1
  · intro j member
    cases List.mem_singleton.mp member
    rw [target,active,translated,Option.map_some,address_frame place small (dropNx_clear m clear)]

theorem ran_run {indices : List Nat} (space : Space m m.active) (zero : Taken m.frames 0) (owned : Owned m own)
    (aligned : phys % pageSize = 0) (present : has flags pagePresent = true) (clear : (flags &&& addressMask) = 0#64)
    (distinct : indices.Pairwise fun i j => wrap 32 (start+i*pageSize)/pageSize ≠ wrap 32 (start+j*pageSize)/pageSize)
    (done : (mapRun m start phys flags indices).1 = true) : Ran m (mapRun m start phys flags indices).2 own start phys indices := by
  induction indices generalizing m with
  | nil =>
    exact ⟨space,grown_refl m,owned,fun _ _ _ _ => rfl,fun _ _ changed => absurd rfl changed,fun _ _ _ => rfl,
      fun _ member => absurd member List.not_mem_nil⟩
  | cons i rest ih =>
    obtain ⟨here,later⟩ := List.pairwise_cons.mp distinct
    have step := @ran_map m own phys flags start i space zero owned aligned present clear
    unfold mapRun at done ⊢
    dsimp only at *
    generalize pagingMap m (wrap 32 (start+i*pageSize)) (wrap 32 (phys+i*pageSize)) flags = answer at *
    obtain ⟨mapped,middle⟩ := answer
    cases mapped with
    | false => cases done
    | true =>
      rw [if_pos rfl] at done ⊢
      have first := step rfl
      have second := ih first.space (first.grown.kept.taken 0 zero) first.owned later done
      refine ⟨second.space,grown_trans first.grown second.grown,second.owned,?_,?_,?_,?_⟩
      · exact fun frame member x low => (second.content frame member x low).trans (first.content frame member x low)
      · intro w low changed
        by_cases same : walk middle.mem middle.active w = walk m.mem m.active w
        · obtain ⟨j,member,place⟩ := second.gained w low (by rw [same]; exact changed)
          exact ⟨j,List.mem_cons_of_mem i member,place⟩
        · obtain ⟨j,member,place⟩ := first.gained w low same
          exact ⟨j,List.mem_cons.mpr (.inl (List.mem_singleton.mp member)),place⟩
      · intro w low elsewhere
        rw [second.leaves w low fun j member => elsewhere j (List.mem_cons_of_mem i member)]
        exact first.leaves w low fun j member => elsewhere j (List.mem_cons.mpr (.inl (List.mem_singleton.mp member)))
      · intro j member
        rcases List.mem_cons.mp member with rfl | old
        · -- none of the pages after it is this one
          have leaf := second.leaves (wrap 32 (start+j*pageSize)) (wrap_lt 32 _) fun k inside => here k inside
          have reached := first.mapped j (List.mem_singleton_self j)
          change Option.map (address ∘ Page.leaf) _ = _ at reached ⊢
          rw [←Option.map_map] at reached ⊢
          rw [leaf,reached]
        · exact second.mapped j old

-- What load_segment comes to when it accepts a header, in terms of the memory, the frames
-- and the pages before and after: `base` and `count` are the run of frames the record names.
structure Contained (m : Mmu) (prog : Program) (file : Memory) (fileSize : Nat) (ph : ProgramHeader) (after : Mmu)
    (base count : Nat) : Prop where
  window : userLoadAddr ≤ ph.vaddr.toNat ∧ ph.vaddr.toNat+ph.memsz.toNat ≤ userStackTop
  -- the frames are new, cover the segment, and only tables are taken besides
  covered : ph.within+ph.memsz.toNat ≤ count*pageSize
  fresh : ∀ frame,base ≤ frame → frame < base+count → frame < m.frames.totalFrames ∧ frameTest m.frames frame = false ∧
    frameTest after.frames frame = true
  frames : ∀ frame,frameTest m.frames frame = false → frameTest after.frames frame = true →
    base ≤ frame ∧ frame < base+count ∨ Tabled after (frame*pageSize)
  -- its pages lead to them in order, and only pages of the window translate differently
  mapped : ∀ i < count,(walk after.mem after.active (ph.pageStart+i*pageSize)).map (fun page => address page.leaf) =
    some ((base+i)*pageSize)
  gained : ∀ v < 2^32,walk after.mem after.active v ≠ walk m.mem m.active v → userLoadAddr ≤ v ∧ v < userStackTop
  -- nothing is read behind the end of the file
  inFile : ph.offset.toNat+ph.filesz.toNat ≤ fileSize
  reads : ∀ other : Memory,(∀ k < fileSize,other k = file k) →
    loadSegment m prog other fileSize ph = loadSegment m prog file fileSize ph
  -- the bytes written are those of the frames, which hold the segment, and of tables
  inFrames : ph.within+ph.filesz.toNat ≤ count*pageSize
  content : ∀ o < count*pageSize,after.mem (base*pageSize+o) = segmentByte file ph o
  bytes : ∀ x,after.mem x ≠ m.mem x → base*pageSize ≤ x ∧ x < (base+count)*pageSize ∨ Tabled after x

theorem copySegment_reads {other : Memory} (same : ∀ k < fileSize,other k = file k)
    (inFile : ph.offset.toNat+ph.filesz.toNat ≤ fileSize)
    (mem : Memory) (phys : Nat) : copySegment mem phys other ph = copySegment mem phys file ph := by
  unfold copySegment patch
  funext x
  split
  · exact same _ (by omega)
  · rfl

theorem loadSegment_reads {other : Memory} (same : ∀ k < fileSize,other k = file k) :
    loadSegment m prog other fileSize ph = loadSegment m prog file fileSize ph := by
  unfold loadSegment
  by_cases fine : acceptable prog fileSize ph = false
  · rw [if_pos fine,if_pos fine]
  · obtain ⟨_,_,_,before,inside,_⟩ := acceptable_parts (by simpa using fine)
    have copies := fun mem phys => copySegment_reads same (show ph.offset.toNat+ph.filesz.toNat ≤ fileSize by omega) mem phys
    simp only [copies]

-- The pages of a segment whose end does not wrap are apart and lie in the window, which is
-- the reach of one page table.
theorem window_pages (bounded : Loader.Contained ph fileSize ph.pages)
    (pages : ph.pages = (ph.within+ph.memsz.toNat+pageSize-1)/pageSize) (below : i < ph.pages) :
    wrap 32 (ph.pageStart+i*pageSize) = ph.pageStart+i*pageSize ∧ userLoadAddr ≤ ph.pageStart+i*pageSize ∧
      ph.pageStart+i*pageSize < userStackTop := by
  obtain ⟨window,top⟩ := bounded.window
  obtain ⟨aligned,start,offset⟩ := page_within ph
  have whole : wrap 32 (ph.pageStart+i*pageSize) = ph.pageStart+i*pageSize := by
    refine wrap_small ?_
    simp only [userStackTop,pageSize] at *
    omega
  obtain ⟨lower,upper⟩ := bounded.mapped i below
  rw [whole] at lower upper
  exact ⟨whole,lower,Nat.lt_of_lt_of_le (Nat.lt_add_of_pos_right (by decide)) upper⟩

theorem window_slot (low : w < 2^32) (above : userLoadAddr ≤ v) (below : v < userStackTop) (top : pdptIndex w = pdptIndex v)
    (middle : pdIndex w = pdIndex v) : userLoadAddr ≤ w ∧ w < userStackTop := by
  simp only [pdptIndex,pdIndex,tableEntries,userLoadAddr,userStackTop] at *
  omega

-- The frames of the segment are taken and written before any page is mapped.
theorem taken_ready (space : Space m m.active) (zero : Taken m.frames 0) (fits : CopyFits ph)
    (room : base+ph.pages ≤ m.frames.totalFrames)
    (clear : ∀ frame,base ≤ frame → frame < base+ph.pages → frameTest m.frames frame = false) (file : Memory) :
    let now := {m with mem:=copySegment m.mem (base*pageSize) file ph,frames:=claimRun m.frames base ph.pages}
    Space now now.active ∧ Taken now.frames 0 ∧ Owned now (List.range' base ph.pages) ∧
    (∀ v < 2^32,walk now.mem now.active v = walk m.mem m.active v) := by
  have same := free_same space room clear fun x => copySegment_outside fits m.mem (base*pageSize) file
  have held := held_congr same
  refine ⟨space_same space _ (claimRun_sound space.sound room clear) (fun addr => claimRun_taken _ _ _) same,
    claimRun_taken _ _ _ zero,⟨?_,?_⟩,fun v low => walk_congr same low⟩
  · intro frame member
    have bounds := List.mem_range'_1.mp member
    dsimp only
    rw [claimRun_total,claimRun_test (by decide),if_pos bounds]
    exact ⟨by omega,rfl⟩
  · intro path table there member
    have bounds := List.mem_range'_1.mp member
    rcases space.taken path table ((held path table).mp there) with beyond | marked
    · omega
    · rw [clear _ bounds.1 bounds.2] at marked
      cases marked

-- From the run of pages that were mapped to what the whole call came to.
theorem ran_contained (sound : Sound m.frames) (bounded : Loader.Contained ph fileSize ph.pages)
    (pages : ph.pages = (ph.within+ph.memsz.toNat+pageSize-1)/pageSize) (fits : CopyFits ph)
    (room : base+ph.pages ≤ m.frames.totalFrames)
    (clear : ∀ frame,base ≤ frame → frame < base+ph.pages → frameTest m.frames frame = false)
    (reads : ∀ other : Memory,(∀ k < fileSize,other k = file k) →
      loadSegment m prog other fileSize ph = loadSegment m prog file fileSize ph)
    (walks : ∀ v < 2^32,walk (copySegment m.mem (base*pageSize) file ph) m.active v = walk m.mem m.active v)
    (ran : Ran {m with mem:=copySegment m.mem (base*pageSize) file ph,frames:=claimRun m.frames base ph.pages} after
      (List.range' base ph.pages) ph.pageStart (base*pageSize) (List.range ph.pages)) :
    Contained m prog file fileSize ph after base ph.pages := by
  have place := fun i => @window_pages ph fileSize i bounded pages
  have short := fits_addressable sound room
  refine ⟨bounded.window,bounded.covered,?_,?_,?_,?_,bounded.inFile,reads,bounded.inFrames,?_,?_⟩
  · intro frame lower upper
    exact ⟨by omega,clear frame lower upper,(ran.owned.marked frame (List.mem_range'_1.mpr ⟨lower,upper⟩)).2⟩
  · intro frame free marked
    by_cases inside : base ≤ frame ∧ frame < base+ph.pages
    · exact .inl inside
    · refine .inr (ran.grown.frames frame ?_ marked)
      dsimp only
      rw [claimRun_test (by decide),if_neg inside,free]
  · intro i below
    have reached := ran.mapped i (List.mem_range.mpr below)
    rw [(place i below).1,←Nat.add_mul] at reached
    rw [reached,wrap_small]
    simp only [pageSize] at *
    omega
  · intro v low changed
    rw [←walks v low] at changed
    obtain ⟨i,member,top,middle⟩ := ran.gained v low changed
    obtain ⟨same,lower,upper⟩ := place i (List.mem_range.mp member)
    rw [same] at top middle
    exact window_slot low lower upper top middle
  · intro o inside
    have frame : base+o/pageSize ∈ List.range' base ph.pages := by
      rw [List.mem_range'_1]
      simp only [pageSize] at *
      omega
    have byte := ran.content _ frame (o%pageSize) (Nat.mod_lt _ (by decide))
    rw [show (base+o/pageSize)*pageSize+o%pageSize = base*pageSize+o by simp only [pageSize]; omega] at byte
    rw [byte]
    exact copySegment_byte _ _ _ _ inside
  · intro x changed
    by_cases inside : base*pageSize ≤ x ∧ x < (base+ph.pages)*pageSize
    · exact .inl inside
    · refine .inr (ran.grown.bytes x fun same => changed ?_)
      rw [same]
      exact copySegment_outside fits _ _ _ (by rw [Nat.add_mul] at inside; omega)

theorem loaded_contained (space : Space m m.active) (zero : Taken m.frames 0) (small : ph.vaddr.toNat+ph.memsz.toNat < 2^32)
    (loaded : (loadSegment m prog file fileSize ph).1 = true) : ∃ base,
    (loadSegment m prog file fileSize ph).2.1.segments = prog.segments++[⟨ph.pageStart,base*pageSize,ph.pages⟩] ∧
    Contained m prog file fileSize ph (loadSegment m prog file fileSize ph).2.2 base ph.pages := by
  have reads := fun other same => @loadSegment_reads m prog file ph fileSize other same
  obtain ⟨accepted,phys,real,asked,recorded⟩ := loadSegment_parts loaded
  have bounded := (contained_exact accepted).mpr small
  obtain ⟨pages,fits⟩ := header_small accepted (by omega)
  have place := fun i => @window_pages ph fileSize i bounded pages
  rcases allocFrames_cases space.sound zero ph.pages with full | ⟨base,nonzero,room,clear,taken⟩
  · rw [full] at asked
    exact absurd asked.symm real
  rw [taken] at asked
  cases asked
  refine ⟨base,recorded,?_⟩
  obtain ⟨still,zeroToo,owned,walks⟩ := taken_ready space zero fits room clear file
  have run := @ran_run _ _ (base*pageSize) (flagsForSegment ph.flags) ph.pageStart (List.range ph.pages) still zeroToo owned
    (Nat.mul_mod_left _ _) (flags_parts ph.flags).1 (flags_clear ph.flags) (by
      refine List.pairwise_lt_range.imp_of_mem fun {i j} inside insideToo less same => ?_
      rw [(place i (List.mem_range.mp inside)).1,(place j (List.mem_range.mp insideToo)).1] at same
      simp only [pageSize] at *
      omega)
  unfold loadSegment at loaded ⊢
  have fine : ¬ acceptable prog fileSize ph = false := by simpa using accepted
  rw [if_neg fine] at loaded ⊢
  rw [taken] at loaded ⊢
  simp only [if_neg nonzero] at loaded ⊢
  generalize mapRun _ _ _ _ _ = answer at *
  obtain ⟨mapped,after⟩ := answer
  cases mapped with
  | false => cases loaded
  | true =>
    dsimp only
    rw [if_neg (by simp)]
    exact ran_contained space.sound bounded pages fits room clear reads walks (run rfl)

-- A segment that load_segment accepts is kept in the bounds of the program's window, its
-- frames and its file exactly when the address of its end does not wrap.
theorem segment_contained (space : Space m m.active) (zero : Taken m.frames 0)
    (loaded : (loadSegment m prog file fileSize ph).1 = true) : ∃ base count,
    (loadSegment m prog file fileSize ph).2.1.segments = prog.segments++[⟨ph.pageStart,base*pageSize,count⟩] ∧
    (Contained m prog file fileSize ph (loadSegment m prog file fileSize ph).2.2 base count ↔
      ph.vaddr.toNat+ph.memsz.toNat < 2^32) := by
  obtain ⟨accepted,phys,real,asked,recorded⟩ := loadSegment_parts loaded
  by_cases small : ph.vaddr.toNat+ph.memsz.toNat < 2^32
  · obtain ⟨base,record,contained⟩ := loaded_contained space zero small loaded
    exact ⟨base,ph.pages,record,fun _ => small,fun _ => contained⟩
  · rcases allocFrames_cases space.sound zero ph.pages with full | ⟨base,_,_,_,taken⟩
    · rw [full] at asked
      exact absurd asked.symm real
    · rw [taken] at asked
      cases asked
      refine ⟨base,ph.pages,recorded,fun contained => ?_,fun inside => absurd inside small⟩
      have top := contained.window.2
      simp only [userStackTop] at top
      omega

-- The address space of the first program, as load_segment finds it.
def bootSpace : Mmu := pagingSwitch (pagingCreateAddressSpace bootKernel.mmu).2 (pagingCreateAddressSpace bootKernel.mmu).1

theorem boot_begun : Begun bootKernel.mmu bootSpace :=
  created_begun boot_ready.kernel boot_ready.zero boot_ready.complete (by decide +kernel)

-- Two pages from 0x20000010 on, of which the file has 20 bytes.
def shortHeader : ProgramHeader := ⟨1#32,52#32,0x20000010#32,20#32,5000#32,5#32⟩
def countedFile : Memory := fun k => BitVec.ofNat 8 k

theorem segment_contained_short : ∃ base count,
    (loadSegment bootSpace {} countedFile 100 shortHeader).2.1.segments = [⟨0x20000000,base*pageSize,count⟩] ∧
    Contained bootSpace {} countedFile 100 shortHeader (loadSegment bootSpace {} countedFile 100 shortHeader).2.2 base count := by
  have loaded : (loadSegment bootSpace {} countedFile 100 shortHeader).1 = true := by decide +kernel
  obtain ⟨base,count,recorded,exact⟩ := segment_contained boot_begun.accounted.space boot_begun.zero loaded
  exact ⟨base,count,recorded,exact.mpr (by decide)⟩

-- memsz = 2^32-1 at 0x20000100: one page is allocated for it and two pages are copied.
def wrappingHeader : ProgramHeader := ⟨1#32,0#32,0x20000100#32,8192#32,0xFFFFFFFF#32,6#32⟩
def wrapped : Bool × Program × Mmu := loadSegment bootSpace {} (fun _ => 7#8) 8192 wrappingHeader

-- The record has frame 524 only, and 256 bytes of a frame that is free before and after are
-- written over.
theorem wrapping_segment_loaded : wrapped.1 = true ∧
    wrapped.2.1.segments.map (fun segment => (segment.phys/pageSize,segment.pages)) = [(524,1)] ∧
    frameTest bootSpace.frames 526 = false ∧ frameTest wrapped.2.2.frames 526 = false ∧
    bootSpace.mem (526*pageSize+255) = 0#8 ∧ wrapped.2.2.mem (526*pageSize+255) = 7#8 ∧
    ∀ base count,wrapped.2.1.segments = [⟨0x20000000,base*pageSize,count⟩] →
      ¬ Contained bootSpace {} (fun _ => 7#8) 8192 wrappingHeader wrapped.2.2 base count := by
  have pages : wrapped.2.1.segments.map (fun segment => (segment.phys/pageSize,segment.pages)) = [(524,1)] := by decide +kernel
  refine ⟨by decide +kernel,pages,by decide +kernel,by decide +kernel,by decide +kernel,by decide +kernel,?_⟩
  intro base count recorded contained
  rw [recorded] at pages
  have single := (Prod.mk.inj (List.cons_eq_cons.mp pages).1).2
  have inFrames := contained.inFrames
  dsimp only at single
  rw [single] at inFrames
  exact absurd inFrames (by decide)

end Arthic.SegmentLoading
