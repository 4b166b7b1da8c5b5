import Arthic.Library.Latest
import Arthic.LoaderTraces

namespace Arthic.LoaderContents
open AddressSpaces ByteMemory FileSystem FrameReturns Latest LoadedImage Loader Loading LoaderTraces PageTree PageTables
  Paging Pmm TableGrowth Unsigned
variable {m now after origin : Mmu} {first : State 32} {own : List Nat}

-- A page as it is to come out: where it is, what may be done with it and what it holds.
structure Piece where
  number : Nat
  flags : Entry
  bytes : Nat → Byte

-- Frames that are taken and hold no table.
structure Owned (m : Mmu) (own : List Nat) : Prop where
  marked : ∀ frame ∈ own,frame < m.frames.totalFrames ∧ frameTest m.frames frame = true
  apart : ∀ path table,Held pae m.mem m.active path table → table/pageSize ∉ own

-- An entry lies in the page its table begins in.
theorem entry_page (space : Space m root) (held : Held pae m.mem root path table) (low : k < pae.entries path.length)
    (after : table+8*k ≤ x) (before : x < table+8*k+8) : x/pageSize = table/pageSize := by
  cases path using List.reverseRecOn with
  | nil =>
    cases (held_nil ..).mp held
    have home := space.home
    change k < pdptEntries at low
    simp only [pdptEntries,pageSize] at *
    omega
  | append_singleton path j =>
    have base := held_aligned held
    have wide : pae.entries (path++[j]).length = tableEntries := by simp [pae]
    rw [wide] at low
    simp only [tableEntries,pageSize] at *
    omega

-- Neither they nor free frames are written to.
theorem edit_spare (space : Space m m.active) (edit : Edit v m after) (free : ¬ Taken after.frames x) :
    after.mem x = m.mem x := by
  have kept := edit_kept edit
  have outside : ∀ p a k,Held pae m.mem m.active p a → k < pae.entries p.length → x < a+8*k ∨ a+8*k+8 ≤ x := by
    intro p a k held low
    by_contra within
    have taken := kept.taken a (space.taken p a held)
    rw [Taken,←entry_page (x:=x) space held low (by omega) (by omega)] at taken
    exact free taken
  cases edit with
  | @link p a k flags later frame here place none hung =>
    have low : k < pae.entries p.length := by
      have there := (hung.linked.held (p++[k]) _).mpr (.inr ⟨rfl,rfl⟩)
      exact ((range_snoc pae p k).mp there.range).2
    refine hung.outside x ?_ (outside p a k here low)
    rintro rfl
    refine free (.inr ?_)
    rw [hung.frames,claim_test (by decide)]
    simp
  | @set p a k e here place low keeps => exact patch_outside _ _ (outside p a k here low)

theorem owned_edit (space : Space m m.active) (owned : Owned m own) (edit : Edit v m after) :
    Owned after own ∧ ∀ frame ∈ own,∀ x < pageSize,after.mem (frame*pageSize+x) = m.mem (frame*pageSize+x) := by
  have page : ∀ frame x,x < pageSize → (frame*pageSize+x)/pageSize = frame := by
    intro frame x small
    simp only [pageSize] at *
    omega
  have kept := edit_kept edit
  -- an entry of a table lies outside every frame of the list
  have outside : ∀ p a k,Held pae m.mem m.active p a → k < pae.entries p.length → ∀ frame ∈ own,∀ x < pageSize,
      frame*pageSize+x < a+8*k ∨ a+8*k+8 ≤ frame*pageSize+x := by
    intro p a k held low frame member x small
    by_contra within
    have inside := entry_page (x:=frame*pageSize+x) space held low (by omega) (by omega)
    rw [page frame x small] at inside
    exact owned.apart p a held (inside ▸ member)
  cases edit with
  | @link p a k flags later frame here place none hung =>
    have low : k < pae.entries p.length := by
      have there := (hung.linked.held (p++[k]) _).mpr (.inr ⟨rfl,rfl⟩)
      exact ((range_snoc pae p k).mp there.range).2
    have foreign : ∀ other ∈ own,other ≠ frame := by
      rintro other member rfl
      have marked := (owned.marked other member).2
      rw [hung.free] at marked
      cases marked
    refine ⟨⟨?_,?_⟩,?_⟩
    · intro other member
      obtain ⟨below,marked⟩ := owned.marked other member
      rw [hung.frames]
      refine ⟨below,?_⟩
      rw [claim_test (by decide),marked,Bool.or_true]
    · intro path table there
      rw [kept.active] at there
      rcases (hung.linked.held _ _).mp there with old | ⟨_,rfl⟩
      · exact owned.apart path table old
      · rw [frame_number]
        exact fun member => foreign frame member rfl
    · intro other member x small
      exact hung.outside _ (by rw [page other x small]; exact foreign other member)
        (outside p a k here low other member x small)
  | @set p a k e here place low keeps =>
    refine ⟨⟨owned.marked,?_⟩,?_⟩
    · intro path table there
      exact owned.apart path table ((held_set space.tree here low keeps _ _).mp there)
    · intro other member x small
      exact patch_outside _ _ (outside p a k here low other member x small)

theorem owned_map (space : Space m m.active) (zero : Taken m.frames 0) (owned : Owned m own) (low : v < 2^32) (phys : Nat)
    (flags : Entry) : Owned (pagingMap m v phys flags).2 own ∧
      ∀ frame ∈ own,∀ x < pageSize,(pagingMap m v phys flags).2.mem (frame*pageSize+x) = m.mem (frame*pageSize+x) := by
  refine @pagingMap_rule _ _ (fun now => Owned now own ∧ ∀ frame ∈ own,∀ x < pageSize,
    now.mem (frame*pageSize+x) = m.mem (frame*pageSize+x)) low ?_ space zero ⟨owned,fun _ _ _ _ => rfl⟩ phys flags
  rintro now after space ⟨owned,same⟩ edit
  obtain ⟨still,untouched⟩ := owned_edit space owned edit
  exact ⟨still,fun frame member x small => (untouched frame member x small).trans (same frame member x small)⟩

theorem spare_map (space : Space m m.active) (zero : Taken m.frames 0) (low : v < 2^32) (phys : Nat) (flags : Entry)
    (free : ¬ Taken (pagingMap m v phys flags).2.frames x) : (pagingMap m v phys flags).2.mem x = m.mem x := by
  refine @pagingMap_rule _ _ (fun now => ¬ Taken now.frames x → now.mem x = m.mem x) low ?_ space zero (fun _ => rfl)
    phys flags free
  intro now after space before edit free
  rw [edit_spare space edit free]
  exact before fun taken => free ((edit_kept edit).taken x taken)

-- No directory entry keeps what is below it from being executed.
def Plain (mem : Memory) (root : Nat) : Prop := Directories (fun e => has e pageNx = false) mem root

theorem plain_map (space : Space m m.active) (plain : Plain m.mem m.active) (low : v < 2^32) (phys : Nat) (flags : Entry) :
    Plain (pagingMap m v phys flags).2.mem m.active := by
  refine pagingMap_directories space plain low flags ?_ ?_ phys
  · intro new aligned small
    rw [frame_has aligned small (by decide),userBit_cases]
    split <;> decide
  · intro e clear
    rw [has_or,clear,Bool.false_or]
    decide

-- How a page is entered for a frame.
structure Entered (m : Mmu) (flags : Entry) (frame : Nat) (page : Page) : Prop where
  leads : address page.leaf = frame*pageSize
  user : has page.leaf pageUser = has flags pageUser
  write : has page.leaf pageWrite = has flags pageWrite
  execute : has page.leaf pageNx = has (dropNx m flags) pageNx
  directory : has flags pageUser = true → has page.directory pageUser = true

-- The tables a page needs.
def tablePaths (number : Nat) : List (List Nat) :=
  [[pdptIndex (number*pageSize)],[pdptIndex (number*pageSize),pdIndex (number*pageSize)]]

-- An address space under construction whose pages have frames of their own: each page
-- asked for is as the last piece for it says, the others are what it started with, there
-- are no more tables than it needs, and free memory is as it was.
structure Backed (origin now : Mmu) (own : List Nat) (pieces : List Piece) : Prop where
  accounted : Accounted origin.frames now now.active own
  zero : Taken now.frames 0
  broad : Broad now.mem now.active
  plain : Plain now.mem now.active
  owned : Owned now own
  paths : ∀ path table,Held pae now.mem now.active path table → path = [] ∨ path = [0] ∨ Shared now path ∨
    ∃ piece ∈ pieces,path ∈ tablePaths piece.number
  shows : ∀ number piece,latest Piece.number pieces number = some piece → ∃ frame ∈ own,
    (∀ x < pageSize,now.mem (frame*pageSize+x) = piece.bytes x) ∧
    ∀ v < 2^32,v/pageSize = number → ∃ page,walk now.mem now.active v = some page ∧ Entered now piece.flags frame page
  rest : ∀ v < 2^32,latest Piece.number pieces (v/pageSize) = none →
    (walk now.mem now.active v).map Page.leaf = (inherited origin v).map Page.leaf
  spare : ∀ x,¬ Taken now.frames x → now.mem x = origin.mem x

theorem paths_map (space : Space m m.active) (zero : Taken m.frames 0) (low : v < 2^32) (phys : Nat) (flags : Entry)
    (held : Held pae (pagingMap m v phys flags).2.mem m.active path table) :
    (∃ old,Held pae m.mem m.active path old) ∨ path ∈ tablePaths (v/pageSize) := by
  obtain ⟨top,middle,_⟩ := @indices_page (v/pageSize*pageSize) v (by simp [pageSize])
  have rule := @pagingMap_rule m v (fun now => now.active = m.active ∧ ∀ path table,Held pae now.mem now.active path table →
    (∃ old,Held pae m.mem m.active path old) ∨ path ∈ tablePaths (v/pageSize)) low ?_ space zero
    ⟨rfl,fun path table held => .inl ⟨table,held⟩⟩ phys flags
  · rw [←rule.1] at held
    exact rule.2 path table held
  rintro now after space ⟨active,before⟩ edit
  have same := (edit_kept edit).active
  refine ⟨same.trans active,?_⟩
  intro path table there
  rw [same] at there
  cases edit with
  | link here place none hung =>
    rcases (hung.linked.held _ _).mp there with old | ⟨rfl,_⟩
    · exact before path table old
    · right
      rw [tablePaths,top,middle]
      rcases place with ⟨rfl,rfl⟩ | ⟨rfl,rfl⟩
      · simp
      · simp
  | set here place low keeps => exact before path table ((held_set space.tree here low keeps _ _).mp there)

theorem accounted_map (accounted : Accounted first m m.active own) (zero : Taken m.frames 0) (low : v < 2^32) (phys : Nat)
    (flags : Entry) : Accounted first (pagingMap m v phys flags).2 (pagingMap m v phys flags).2.active own :=
  @pagingMap_rule _ _ (fun m => Accounted first m m.active own) low (fun _ _ _ => accounted_edit) accounted.space zero
    accounted phys flags

theorem entered_frame (aligned : phys % pageSize = 0) (small : phys < 2^32) (clear : (flags &&& addressMask) = 0#64)
    (number : phys = frame*pageSize) (user : has flags pageUser = true → has directory pageUser = true) :
    Entered m flags frame ⟨directory,BitVec.ofNat 64 phys ||| dropNx m flags⟩ := by
  refine ⟨?_,?_,?_,?_,user⟩
  · rw [←number]
    exact address_frame aligned small (dropNx_clear m clear)
  · rw [frame_has aligned small (by decide),dropNx_has m flags (by decide)]
  · rw [frame_has aligned small (by decide),dropNx_has m flags (by decide)]
  · exact frame_has aligned small (by decide) _

theorem entered_widened (entered : Entered m flags frame page) (nx : after.nxSupported = m.nxSupported) (v w : Nat)
    (other : Entry) : Entered after flags frame (widened v other w page) := by
  obtain ⟨leaf,directory⟩ := widened_parts v w other page
  have same : dropNx after flags = dropNx m flags := by rw [dropNx,nx,dropNx]
  refine ⟨?_,?_,?_,?_,fun on => directory (entered.directory on)⟩
  · rw [leaf,entered.leads]
  · rw [leaf,entered.user]
  · rw [leaf,entered.write]
  · rw [leaf,same,entered.execute]

-- One page mapped to a frame that holds what it is to hold.
theorem backed_map (backed : Backed origin now own pieces) (low : v < 2^32) (mine : frame ∈ own)
    (number : phys = frame*pageSize) (small : phys < 2^32) (present : has flags pagePresent = true)
    (clear : (flags &&& addressMask) = 0#64) {bytes : Nat → Byte} (holds : ∀ x < pageSize,now.mem (frame*pageSize+x) = bytes x)
    (done : (pagingMap now v phys flags).1 = true) :
    Backed origin (pagingMap now v phys flags).2 own (pieces++[⟨v/pageSize,flags,bytes⟩]) ∧ Kept now (pagingMap now v phys flags).2 := by
  have aligned : phys % pageSize = 0 := by rw [number,Nat.mul_mod_left]
  obtain ⟨kept,space,broad,outcome⟩ := pagingMap_parts backed.accounted.space low aligned small present
  have plain := plain_map backed.accounted.space backed.plain low phys flags
  have paths := fun path table => @paths_map _ _ path table backed.accounted.space backed.zero low phys flags
  have accounted := accounted_map backed.accounted backed.zero low phys flags
  have spare := fun x => @spare_map _ _ x backed.accounted.space backed.zero low phys flags
  obtain ⟨owned,same⟩ := owned_map backed.accounted.space backed.zero backed.owned low phys flags
  obtain ⟨_,mapped⟩ := outcome.resolve_left fun failed => by rw [done] at failed; cases failed.1
  generalize pagingMap now v phys flags = answer at *
  obtain ⟨made,after⟩ := answer
  dsimp only at *
  have active := kept.active
  refine ⟨⟨accounted,kept.taken 0 backed.zero,by rw [active]; exact broad backed.broad,
    by rw [active]; exact plain,owned,?_,?_,?_,?_⟩,kept⟩
  · intro path table held
    rw [active] at held
    rw [Shared,kept.entries]
    rcases paths path table held with ⟨old,there⟩ | added
    · rcases backed.paths path old there with top | middle | shared | ⟨piece,member,needed⟩
      · exact .inl top
      · exact .inr (.inl middle)
      · exact .inr (.inr (.inl shared))
      · exact .inr (.inr (.inr ⟨piece,List.mem_append_left _ member,needed⟩))
    · exact .inr (.inr (.inr ⟨_,List.mem_append_right _ (List.mem_singleton_self _),added⟩))
  · intro page piece found
    rw [latest_snoc] at found
    split at found
    · rename_i here
      cases Option.some.inj found
      obtain ⟨directory,translated,_,user⟩ := mapped.here
      have nx : dropNx after flags = dropNx now flags := by rw [dropNx,kept.nx,dropNx]
      refine ⟨frame,mine,fun x inside => (same frame mine x inside).trans (holds x inside),?_⟩
      intro w _ there
      refine ⟨_,by rw [active]; exact (walk_page (there.trans here.symm) _ _).trans translated,?_⟩
      rw [←nx]
      exact entered_frame aligned small clear number user
    · rename_i elsewhere
      obtain ⟨other,member,bytes,shown⟩ := backed.shows page piece found
      refine ⟨other,member,fun x inside => (same other member x inside).trans (bytes x inside),?_⟩
      intro w inside there
      obtain ⟨old,translated,entered⟩ := shown w inside there
      refine ⟨_,by rw [active,mapped.others w inside (by rw [there]; exact Ne.symm elsewhere),translated,Option.map_some],?_⟩
      exact entered_widened entered kept.nx v w flags
  · intro w inside found
    rw [latest_snoc] at found
    split at found
    · cases found
    · rename_i elsewhere
      rw [active,mapped.others w inside (Ne.symm elsewhere),Option.map_map,←backed.rest w inside found]
      congr 1
      funext page
      exact (widened_parts v w flags page).1
  · intro x free
    rw [spare x free]
    exact backed.spare x fun taken => free (kept.taken x taken)

-- A run of pages, one piece each.
def runPieces (start : Nat) (flags : Entry) (content : Nat → Byte) (indices : List Nat) : List Piece :=
  indices.map fun i => ⟨wrap 32 (start+i*pageSize)/pageSize,flags,fun x => content (i*pageSize+x)⟩

theorem backed_run {indices : List Nat} {content : Nat → Byte} (backed : Backed origin now own pieces)
    (fits : (base+count)*pageSize ≤ 2^32) (below : ∀ i ∈ indices,i < count) (mine : ∀ i ∈ indices,base+i ∈ own)
    (holds : ∀ i ∈ indices,∀ x < pageSize,now.mem ((base+i)*pageSize+x) = content (i*pageSize+x))
    (present : has flags pagePresent = true) (clear : (flags &&& addressMask) = 0#64)
    (done : (mapRun now start (base*pageSize) flags indices).1 = true) :
    Backed origin (mapRun now start (base*pageSize) flags indices).2 own (pieces++runPieces start flags content indices) ∧
      Kept now (mapRun now start (base*pageSize) flags indices).2 := by
  induction indices generalizing now pieces with
  | nil =>
    rw [runPieces,List.map_nil,List.append_nil]
    exact ⟨backed,kept_refl now⟩
  | cons i rest ih =>
    have inside := below i (by simp)
    have physical : wrap 32 (base*pageSize+i*pageSize) = (base+i)*pageSize := by
      rw [←Nat.add_mul,wrap_small]
      simp only [pageSize] at *
      omega
    have small := wrap_lt 32 (base*pageSize+i*pageSize)
    have step := @backed_map _ _ _ _ (wrap 32 (start+i*pageSize)) _ _ flags backed (wrap_lt 32 _) (mine i (by simp)) physical small
      present clear _ (holds i (by simp))
    have owned := owned_map backed.accounted.space backed.zero backed.owned (wrap_lt 32 (start+i*pageSize))
      (wrap 32 (base*pageSize+i*pageSize)) flags
    unfold mapRun at done ⊢
    dsimp only at *
    generalize pagingMap now (wrap 32 (start+i*pageSize)) (wrap 32 (base*pageSize+i*pageSize)) flags = answer at *
    obtain ⟨mapped,middle⟩ := answer
    cases mapped with
    | false => cases done
    | true =>
      obtain ⟨next,kept⟩ := step rfl
      obtain ⟨last,more⟩ := ih next (fun j member => below j (List.mem_cons_of_mem i member))
        (fun j member => mine j (List.mem_cons_of_mem i member))
        (fun j member x low => (owned.2 _ (mine j (List.mem_cons_of_mem i member)) x low).trans
          (holds j (List.mem_cons_of_mem i member) x low)) done
      rw [runPieces,List.map_cons,List.append_cons]
      exact ⟨last,kept_trans kept more⟩

-- A run of free frames is taken and written to.
theorem backed_take (backed : Backed origin now own pieces) (fits : start+count ≤ now.frames.totalFrames)
    (clear : ∀ frame,start ≤ frame → frame < start+count → frameTest now.frames frame = false) {mem : Memory}
    (outside : ∀ x,x < start*pageSize ∨ start*pageSize+count*pageSize ≤ x → mem x = now.mem x) :
    Backed origin {now with mem:=mem,frames:=claimRun now.frames start count} (own++List.range' start count) pieces ∧
      Kept now {now with mem:=mem,frames:=claimRun now.frames start count} := by
  have same := free_same backed.accounted.space fits clear outside
  have more := fun addr => @claimRun_taken addr now.frames start count
  have held := held_congr same
  refine ⟨⟨accounted_claimed backed.accounted fits clear outside,more 0 backed.zero,
    directories_same (fun e => has e pageWrite = true) backed.broad same,
    directories_same (fun e => has e pageNx = false) backed.plain same,⟨?_,?_⟩,
    fun path table there => backed.paths path table ((held _ _).mp there),?_,?_,?_⟩,rfl,rfl,rfl,rfl,rfl,more⟩
  · intro frame member
    dsimp only
    rw [claimRun_total,claimRun_test (by decide)]
    rcases List.mem_append.mp member with old | new
    · obtain ⟨below,marked⟩ := backed.owned.marked frame old
      rw [marked,ite_self]
      exact ⟨below,rfl⟩
    · have bounds := List.mem_range'_1.mp new
      rw [if_pos bounds]
      exact ⟨by omega,rfl⟩
  · intro path table there member
    have before := (held _ _).mp there
    rcases List.mem_append.mp member with old | new
    · exact backed.owned.apart path table before old
    · have bounds := List.mem_range'_1.mp new
      have taken := backed.accounted.space.taken path table before
      rcases taken with beyond | marked
      · omega
      · rw [clear _ bounds.1 bounds.2] at marked
        cases marked
  · intro number piece found
    obtain ⟨frame,member,bytes,shown⟩ := backed.shows number piece found
    refine ⟨frame,List.mem_append_left _ member,?_,?_⟩
    · intro x small
      rw [←bytes x small]
      apply outside
      by_contra inside
      have marked := (backed.owned.marked frame member).2
      rw [clear frame (by simp only [pageSize] at *; omega) (by simp only [pageSize] at *; omega)] at marked
      cases marked
    · intro v low here
      obtain ⟨page,translated,entered⟩ := shown v low here
      exact ⟨page,by dsimp only; rw [walk_congr same low,translated],
        entered.leads,entered.user,entered.write,entered.execute,entered.directory⟩
  · intro v low none
    dsimp only
    rw [walk_congr same low]
    exact backed.rest v low none
  · intro x free
    dsimp only at free ⊢
    rw [outside x,backed.spare x fun taken => free (more x taken)]
    by_contra inside
    refine free (.inr ?_)
    rw [claimRun_test (by decide),if_pos (by simp only [pageSize] at *; omega)]

-- What lies at an offset into the pages of a segment: the file's bytes where it has any.
def segmentByte (file : Memory) (ph : ProgramHeader) (o : Nat) : Byte :=
  if ph.within ≤ o ∧ o < ph.within+ph.filesz.toNat then file (ph.offset.toNat+(o-ph.within)) else 0#8

theorem copySegment_byte (mem : Memory) (phys : Nat) (file : Memory) (ph : ProgramHeader) (inside : o < ph.pages*pageSize) :
    copySegment mem phys file ph (phys+o) = segmentByte file ph o := by
  unfold copySegment segmentByte
  by_cases within : ph.within ≤ o ∧ o < ph.within+ph.filesz.toNat
  · rw [if_pos within,patch_inside _ _ (by omega) (by omega)]
    congr 1
    omega
  · rw [if_neg within,patch_outside _ _ (by omega),fill,patch_inside _ _ (by omega) (by omega)]

def segmentPieces (file : Memory) (ph : ProgramHeader) : List Piece :=
  runPieces ph.pageStart (flagsForSegment ph.flags) (segmentByte file ph) (List.range ph.pages)

theorem loadSegment_backed (backed : Backed origin now own pieces) (fits : CopyFits ph)
    (done : (loadSegment now prog file size ph).1 = true) :
    ∃ more,Backed origin (loadSegment now prog file size ph).2.2 more (pieces++segmentPieces file ph) ∧
      more.length = own.length+(segmentPieces file ph).length ∧ Kept now (loadSegment now prog file size ph).2.2 := by
  unfold loadSegment at *
  by_cases fine : acceptable prog size ph = false
  · rw [if_pos fine] at done
    cases done
  rw [if_neg fine] at *
  rcases allocFrames_cases backed.accounted.space.sound backed.zero ph.pages with full | ⟨start,real,room,clear,taken⟩
  · rw [full] at done
    cases done
  rw [taken] at done ⊢
  simp only [if_neg real] at done ⊢
  obtain ⟨grown,kept⟩ := backed_take backed room clear fun x => copySegment_outside fits now.mem (start*pageSize) file
  have run := @backed_run _ _ _ _ start ph.pages (flagsForSegment ph.flags) ph.pageStart (List.range ph.pages)
    (segmentByte file ph) grown (fits_addressable backed.accounted.space.sound room) (fun i => List.mem_range.mp)
    (fun i member => List.mem_append_right _ (List.mem_range'_1.mpr (by have := List.mem_range.mp member; omega)))
    (by
      intro i member x small
      have below := List.mem_range.mp member
      dsimp only
      rw [Nat.add_mul,Nat.add_assoc]
      refine copySegment_byte _ _ _ _ ?_
      simp only [pageSize] at *
      omega)
    (flags_parts ph.flags).1 (flags_clear ph.flags)
  generalize mapRun _ _ _ _ _ = answer at *
  obtain ⟨mapped,last⟩ := answer
  cases mapped with
  | false => cases done
  | true =>
    obtain ⟨complete,more⟩ := run rfl
    refine ⟨_,complete,?_,kept_trans kept more⟩
    rw [segmentPieces,runPieces,List.length_append,List.length_range',List.length_map,List.length_range]

def headerPieces (file : Memory) (headers : List ProgramHeader) : List Piece := headers.flatMap (segmentPieces file)

theorem loadable_cons (file : Memory) (phoff phentsize i : Nat) (rest : List Nat) :
    loadable file phoff phentsize (i::rest) =
      (if (programHeader file (phoff+i*phentsize)).type = ptLoad then [programHeader file (phoff+i*phentsize)] else [])++
        loadable file phoff phentsize rest := by
  unfold loadable
  rw [List.map_cons]
  split
  · rename_i here
    rw [List.filter_cons_of_pos (by simpa using here)]
    rfl
  · rename_i here
    rw [List.filter_cons_of_neg (by simpa using here)]
    rfl

theorem loadHeaders_backed {indices : List Nat} (backed : Backed origin now own pieces)
    (fits : ∀ ph ∈ loadable file phoff phentsize indices,CopyFits ph)
    (done : (loadHeaders now prog file size phoff phentsize indices).1 = true) :
    ∃ more,Backed origin (loadHeaders now prog file size phoff phentsize indices).2.2 more
        (pieces++headerPieces file (loadable file phoff phentsize indices)) ∧
      more.length = own.length+(headerPieces file (loadable file phoff phentsize indices)).length ∧
      Kept now (loadHeaders now prog file size phoff phentsize indices).2.2 := by
  induction indices generalizing now prog pieces own with
  | nil =>
    rw [headerPieces,loadable,List.map_nil,List.filter_nil,List.flatMap_nil,List.append_nil]
    exact ⟨own,backed,rfl,kept_refl now⟩
  | cons i rest ih =>
    unfold loadHeaders at done ⊢
    rw [loadable_cons] at fits ⊢
    by_cases other : (programHeader file (phoff+i*phentsize)).type = ptLoad
    · have segment := @loadSegment_backed _ _ _ _ (programHeader file (phoff+i*phentsize)) prog file size backed
        (fits _ (by rw [if_pos other]; simp))
      simp only [if_neg (not_not.mpr other),if_pos other] at done fits ⊢
      generalize loadSegment now prog file size (programHeader file (phoff+i*phentsize)) = answer at *
      obtain ⟨loaded,next,middle⟩ := answer
      cases loaded with
      | false => cases done
      | true =>
        obtain ⟨more,complete,count,kept⟩ := segment rfl
        obtain ⟨all,last,counts,further⟩ := ih complete (fun ph member => fits ph (List.mem_append_right _ member)) done
        rw [headerPieces,List.singleton_append,List.flatMap_cons,←List.append_assoc]
        refine ⟨all,last,?_,kept_trans kept further⟩
        rw [counts,count,headerPieces,List.length_append,Nat.add_assoc]
    · simp only [if_pos other,if_neg other,List.nil_append] at done fits ⊢
      exact ih backed fits done

def stackPieces : List Piece := runPieces stackBottom stackFlags (fun _ => 0#8) (List.range (userStackSize/pageSize))

theorem loadStack_backed (backed : Backed origin now own pieces) (done : (loadStack now prog).1 = true) :
    ∃ more,Backed origin (loadStack now prog).2.2 more (pieces++stackPieces) ∧
      more.length = own.length+stackPieces.length ∧ Kept now (loadStack now prog).2.2 := by
  unfold loadStack at *
  rcases allocFrames_cases backed.accounted.space.sound backed.zero (userStackSize/pageSize) with full | ⟨start,real,room,clear,taken⟩
  · rw [full] at done
    cases done
  rw [taken] at done ⊢
  simp only [if_neg real] at done ⊢
  obtain ⟨grown,kept⟩ := @backed_take _ _ _ _ _ _ backed room clear (fill now.mem (start*pageSize) userStackSize 0#8)
    fun x outside => patch_outside _ _ outside
  have run := @backed_run _ _ _ _ start (userStackSize/pageSize) stackFlags stackBottom (List.range (userStackSize/pageSize))
    (fun _ => 0#8) grown (fits_addressable backed.accounted.space.sound room) (fun i => List.mem_range.mp)
    (fun i member => List.mem_append_right _ (List.mem_range'_1.mpr (by have := List.mem_range.mp member; omega)))
    (by
      intro i member x small
      have below := List.mem_range.mp member
      have within : start*pageSize ≤ (start+i)*pageSize+x ∧ (start+i)*pageSize+x < start*pageSize+userStackSize := by
        simp only [pageSize,userStackSize] at *
        omega
      dsimp only
      rw [fill,patch_inside _ _ within.1 within.2])
    (by decide) (by decide)
  generalize mapRun _ _ _ _ _ = answer at *
  obtain ⟨mapped,last⟩ := answer
  dsimp only at *
  obtain ⟨complete,more⟩ := run done
  refine ⟨_,complete,?_,kept_trans kept more⟩
  rw [stackPieces,runPieces,List.length_append,List.length_range',List.length_map,List.length_range]

def textByte (args : Option CString) (x : Nat) : Byte := ((args.elim [] CString.bytes).take (userArgsMax-1)).getD x 0#8

def argsPieces (args : Option CString) : List Piece := [⟨userArgsAddr/pageSize,argsFlags,textByte args⟩]

-- The argument string stays in its page.
theorem text_outside (mem : Memory) (frame : Nat) (text : List Byte) (short : text.length ≤ pageSize)
    (away : x < frame*pageSize ∨ frame*pageSize+1*pageSize ≤ x) :
    patch (fill mem (frame*pageSize) pageSize 0#8) (frame*pageSize) text.length (fun k => text.getD k 0#8) x = mem x := by
  rw [patch_outside _ _ (by omega)]
  exact @patch_outside _ (frame*pageSize) pageSize _ _ (by omega)

theorem text_short (args : Option CString) : ((args.elim [] CString.bytes).take (userArgsMax-1)).length ≤ pageSize := by
  rw [List.length_take]
  exact Nat.le_trans (Nat.min_le_left _ _) (by decide)

theorem loadArgs_backed (backed : Backed origin now own pieces) (none : prog.argsPhys = 0)
    (two : Held pae now.mem now.active [pdptIndex userArgsAddr,pdIndex userArgsAddr] pt) (args : Option CString) :
    ∃ more,Backed origin (loadArgs now prog args).2 more
        (pieces++if (loadArgs now prog args).1.argsPhys = 0 then [] else argsPieces args) ∧
      Kept now (loadArgs now prog args).2 := by
  unfold loadArgs
  rcases allocFrame_parts backed.accounted.space.sound with full | ⟨frame,below,free,taken⟩
  · rw [full]
    simp only [if_pos none,↓reduceIte,List.append_nil]
    exact ⟨own,backed,kept_refl now⟩
  have real : frame*pageSize ≠ 0 := fun address => by
    have other := frame_free free below 0 backed.zero
    rw [address] at other
    exact other rfl
  have clear : ∀ other,frame ≤ other → other < frame+1 → frameTest now.frames other = false := by
    intro other lower upper
    rw [show other = frame by omega,free]
  rw [taken]
  simp only [if_neg real]
  have short := text_short args
  generalize list : ((args.elim [] CString.bytes).take (userArgsMax-1)) = text at *
  have outside := fun x => @text_outside x now.mem frame text short
  generalize written : patch (fill now.mem (frame*pageSize) pageSize 0#8) (frame*pageSize) text.length
    (fun k => text.getD k 0#8) = mem at *
  obtain ⟨grown,kept⟩ := backed_take backed below clear outside
  have still := (held_congr (free_same backed.accounted.space below clear outside) _ _).mpr two
  have holds : ∀ x < pageSize,mem (frame*pageSize+x) = textByte args x := by
    intro x small
    rw [←written,textByte,list]
    by_cases within : x < text.length
    · rw [patch_inside _ _ (by omega) (by omega),Nat.add_sub_cancel_left]
    · rw [patch_outside _ _ (by omega),fill,patch_inside _ _ (by omega) (by omega),
        List.getD_eq_getElem?_getD,List.getElem?_eq_none (by omega),Option.getD_none]
  obtain ⟨complete,more⟩ := @backed_map _ _ _ _ userArgsAddr frame _ argsFlags grown (by decide) (List.mem_append_right own (List.mem_range'_1.mpr
    ⟨Nat.le_refl frame,Nat.lt_succ_self frame⟩)) rfl (backed.accounted.space.sound.address_small below) (by decide) (by decide) _ holds
    (pagingMap_there (by decide) still _ _)
  exact ⟨_,complete,kept_trans kept more⟩

-- What loader_run maps, in order; the argument page only if there is a frame for it.
def bodyPieces (file : Memory) (headers : List ProgramHeader) : List Piece := headerPieces file headers++stackPieces

def imagePieces (file : Memory) (headers : List ProgramHeader) (args : Option CString) (room : Prop) [Decidable room] :
    List Piece :=
  bodyPieces file headers++if room then argsPieces args else []

def fileHeaders (file : Memory) : List ProgramHeader :=
  loadable file (elfPhoff file) (elfPhentsize file) (List.range (elfPhnum file))

-- The kernel's tables as loader_run finds them.
structure Ready (m : Mmu) : Prop where
  kernel : KernelSpace m
  plain : Plain m.mem m.image.kernelPdpt
  complete : Complete m
  zero : Taken m.frames 0

theorem created_backed (ready : Ready m) (made : (pagingCreateAddressSpace m).1 ≠ 0) :
    Backed m (pagingSwitch (pagingCreateAddressSpace m).2 (pagingCreateAddressSpace m).1) [] [] := by
  have begun := created_begun ready.kernel ready.zero ready.complete made
  obtain ⟨_,_,_,broad,_⟩ := create_parts ready.kernel made
  obtain ⟨mem,frames,pd,equal,fresh⟩ := create_fresh ready.kernel made
  have still := fresh_directories ready.kernel fresh ready.plain
  unfold pagingSwitch at *
  rw [if_neg made] at *
  refine ⟨begun.accounted,begun.zero,broad,?_,⟨?_,?_⟩,?_,?_,?_,?_⟩
  · dsimp only
    rw [equal]
    exact still
  · exact fun _ member => absurd member List.not_mem_nil
  · exact fun _ _ _ => List.not_mem_nil
  · intro path table there
    dsimp only at there
    rw [equal] at there ⊢
    rcases fresh_held ready.kernel fresh there with ⟨rfl,_⟩ | ⟨rfl,_⟩ | ⟨j,below,rfl,_⟩
    · exact .inl rfl
    · exact .inr (.inl rfl)
    · exact .inr (.inr (.inl ⟨j,below,rfl⟩))
  · intro number piece found
    cases found
  · intro v low _
    exact congrArg (Option.map Page.leaf) (begun.inherits v low)
  · intro x free
    dsimp only at free ⊢
    rw [equal] at free ⊢
    dsimp only at free ⊢
    refine fresh.outside x ?_ ?_
    · intro same
      refine free ?_
      rw [Taken,same]
      exact fresh.taken.1
    · intro same
      refine free ?_
      rw [Taken,same]
      exact fresh.taken.2

-- The tables of its own an address space has once all its pages are mapped.
def tableList (entries : Nat) (pieces : List Piece) : List (List Nat) :=
  ([[],[0]]++pieces.flatMap fun (piece : Piece) => tablePaths piece.number).dedup.filter fun path =>
    ¬ ∃ j < entries,path = [0,j]

theorem backed_tables (backed : Backed origin now own pieces) (low : ∀ piece ∈ pieces,piece.number*pageSize < 2^32)
    (below : Held pae now.mem now.active [0] pd) (path : List Nat) :
    path ∈ tableList now.kernelPdEntries pieces ↔ ¬ Shared now path ∧ ∃ table,Held pae now.mem now.active path table := by
  rw [tableList,List.mem_filter,List.mem_dedup,List.mem_append,List.mem_flatMap,and_comm]
  simp only [decide_eq_true_iff]
  refine and_congr_right fun single => ⟨?_,?_⟩
  · rintro (top | ⟨piece,member,needed⟩)
    · rcases List.mem_cons.mp top with rfl | middle
      · exact ⟨_,(held_nil ..).mpr rfl⟩
      · cases List.mem_singleton.mp middle
        exact ⟨pd,below⟩
    · -- every page is mapped, by its last piece if not by this one
      cases last : latest Piece.number pieces piece.number with
      | none => exact absurd rfl (latest_none.mp last piece member)
      | some shown =>
        obtain ⟨_,_,_,mapped⟩ := backed.shows _ _ last
        obtain ⟨page,found,_⟩ := mapped (piece.number*pageSize) (low piece member) (by simp [pageSize])
        obtain ⟨dir,pt,one,two,_⟩ := (walk_iff (low piece member)).mp found
        rcases List.mem_cons.mp needed with rfl | rest
        · exact ⟨dir,one⟩
        · cases List.mem_singleton.mp rest
          exact ⟨pt,two⟩
  · rintro ⟨table,there⟩
    rcases backed.paths path table there with rfl | rfl | shared | ⟨piece,member,needed⟩
    · simp
    · simp
    · exact absurd shared single
    · exact .inr ⟨piece,member,needed⟩

-- The pages of the stack bring a table that serves the argument page too.
theorem stack_table (backed : Backed origin now own (pieces++stackPieces)) :
    ∃ pt,Held pae now.mem now.active [pdptIndex userArgsAddr,pdIndex userArgsAddr] pt := by
  have there : (latest Piece.number stackPieces (stackBottom/pageSize)).isSome = true := by decide
  obtain ⟨piece,last⟩ := Option.isSome_iff_exists.mp there
  obtain ⟨_,_,_,shown⟩ := backed.shows (stackBottom/pageSize) piece (by rw [latest_append,last,Option.some_or])
  obtain ⟨page,found,_⟩ := shown stackBottom (by decide) rfl
  obtain ⟨_,pt,_,two,_⟩ := (walk_iff (by decide)).mp found
  exact ⟨pt,two⟩

theorem loadArgs_record (m : Mmu) (prog : Program) (args : Option CString) :
    (loadArgs m prog args).1.pageDir = prog.pageDir ∧
    (loadArgs m prog args).1.argsPhys = if (pmmAllocFrame m.frames).1 = 0 then prog.argsPhys else (pmmAllocFrame m.frames).1 := by
  unfold loadArgs
  dsimp only
  split
  · exact ⟨rfl,rfl⟩
  · exact ⟨rfl,rfl⟩

theorem pieces_low (file : Memory) (headers : List ProgramHeader) :
    ∀ piece ∈ bodyPieces file headers,piece.number*pageSize < 2^32 := by
  have run : ∀ start flags content indices,∀ piece ∈ runPieces start flags content indices,piece.number*pageSize < 2^32 := by
    intro start flags content indices piece member
    obtain ⟨i,_,rfl⟩ := List.mem_map.mp member
    exact Nat.lt_of_le_of_lt (Nat.div_mul_le_self _ _) (wrap_lt 32 _)
  intro piece member
  rcases List.mem_append.mp member with segment | stack
  · obtain ⟨ph,_,inside⟩ := List.mem_flatMap.mp segment
    exact run _ _ _ _ piece inside
  · exact run _ _ _ _ piece stack

-- Whether a frame is left for the argument page: a frame for each page before it, one for
-- each table those need.
def ArgsRoom (m : Mmu) (file : Memory) : Prop :=
  m.frames.usedFrames+(bodyPieces file (fileHeaders file)).length+
    (tableList m.kernelPdEntries (bodyPieces file (fileHeaders file))).length < m.frames.totalFrames

instance (m : Mmu) (file : Memory) : Decidable (ArgsRoom m file) := inferInstanceAs (Decidable (_ < _))

theorem stacked_room (backed : Backed origin now own (pieces++stackPieces)) (sound : Sound origin.frames)
    (low : ∀ piece ∈ pieces++stackPieces,piece.number*pageSize < 2^32) (count : own.length = (pieces++stackPieces).length) :
    (pmmAllocFrame now.frames).1 ≠ 0 ↔ origin.frames.usedFrames+(pieces++stackPieces).length+
      (tableList now.kernelPdEntries (pieces++stackPieces)).length < origin.frames.totalFrames := by
  obtain ⟨pt,two⟩ := stack_table backed
  obtain ⟨pd,one,_⟩ := (held_two (by decide)).mp two
  have distinct : (tableList now.kernelPdEntries (pieces++stackPieces)).Nodup := (List.nodup_dedup _).filter _
  rw [allocFrame_room backed.accounted.space.sound backed.zero,backed.accounted.total,
    accounted_count backed.accounted sound distinct (backed_tables backed low one),count]

theorem loadImage_backed (ready : Ready m) (fits : ∀ ph ∈ fileHeaders file,CopyFits ph)
    (done : (loadImage m file size args).1 = some prog) :
    (∃ own,Backed m {(loadImage m file size args).2 with active:=prog.pageDir} own
      (imagePieces file (fileHeaders file) args (ArgsRoom m file))) ∧
      (prog.argsPhys ≠ 0 ↔ ArgsRoom m file) ∧ (loadImage m file size args).2.nxSupported = m.nxSupported := by
  have begun := created_backed ready
  have nx := create_nx m
  have entries := fun made => (create_parts ready.kernel made).1.entries
  unfold loadImage at *
  generalize pagingCreateAddressSpace m = answer at *
  obtain ⟨dir,fresh⟩ := answer
  dsimp only at *
  by_cases none : dir = 0
  · rw [if_pos none] at done
    cases done
  rw [if_neg none] at done ⊢
  have active : (pagingSwitch fresh dir).active = dir := if_neg none
  have headers := @loadHeaders_backed _ _ _ _ file (elfPhoff file) (elfPhentsize file) {pageDir:=dir} size
    (List.range (elfPhnum file)) (begun none) fits
  have record := loadHeaders_record (pagingSwitch fresh dir) {pageDir:=dir} file size (elfPhoff file) (elfPhentsize file)
    (List.range (elfPhnum file))
  generalize loadHeaders _ _ _ _ _ _ _ = answer at *
  obtain ⟨loaded,read,mapped⟩ := answer
  dsimp only at *
  split at done
  · cases done
  rename_i accepted
  rw [if_neg accepted]
  obtain ⟨_,segments,count,keptOne⟩ := headers (by simpa using fun failed => accepted (.inl failed))
  rw [List.nil_append] at segments
  have stack := @loadStack_backed _ _ _ _ read segments
  have recordToo := loadStack_record mapped read
  generalize loadStack mapped read = answer at *
  obtain ⟨stacked,ready_,standing⟩ := answer
  dsimp only at *
  split at done
  · cases done
  rename_i enough
  rw [if_neg enough]
  obtain ⟨_,withStack,counts,keptTwo⟩ := stack (by simpa using enough)
  obtain ⟨pt,two⟩ := stack_table withStack
  have argless := recordToo.1.trans record.2.1
  obtain ⟨own,whole,keptThree⟩ := loadArgs_backed withStack argless two args
  obtain ⟨sameDir,argsPhys⟩ := loadArgs_record standing ready_ args
  have room := stacked_room withStack ready.kernel.space.sound (pieces_low file (fileHeaders file)) (by
    rw [counts,count,List.length_append]
    exact congrArg (·+_) (Nat.zero_add _))
  have shared : standing.kernelPdEntries = m.kernelPdEntries := keptTwo.entries.trans (keptOne.entries.trans (entries none))
  rw [shared] at room
  have given : (loadArgs standing ready_ args).1.argsPhys ≠ 0 ↔ ArgsRoom m file := by
    refine Iff.trans ?_ room
    rw [argsPhys]
    split
    · rename_i empty
      rw [argless,empty]
    · rfl
  generalize loadArgs standing ready_ args = answer at *
  obtain ⟨complete,last⟩ := answer
  dsimp only at *
  cases Option.some.inj done
  have home : last.active = prog.pageDir := by
    rw [keptThree.active,keptTwo.active,keptOne.active,active,sameDir,recordToo.2,record.2.2]
  unfold pagingSwitch
  dsimp only
  rw [←home]
  refine ⟨⟨own,?_⟩,given,keptThree.nx.trans (keptTwo.nx.trans (keptOne.nx.trans nx))⟩
  rw [imagePieces]
  simp only [←given,ne_eq,ite_not]
  exact whole

end Arthic.LoaderContents
