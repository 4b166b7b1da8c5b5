import Arthic.WriteExecute64

namespace Arthic.LongMap
open ByteMemory LongTables PageTree Paging64 Pmm PmmOwnership Transition Unsigned
open Paging (has pagePresent)
variable {m after : Mmu} {v w phys : Nat} {e flags : Entry}

-- Bit 47 of an address is repeated up to bit 63.
def Canonical (v : Nat) : Prop := v < 2^47 ∨ 2^64-2^47 ≤ v ∧ v < 2^64

-- A tree of distinct tables, and an allocator that gives out none of them: every frame it
-- still has is free to become one.
structure WellFormed (m : Mmu) : Prop where
  formed : Formed m
  sound : Sound m.frames
  nameable : Nameable m.frames
  spare : ∀ frame < m.frames.totalFrames,frameTest m.frames frame = false →
    ∀ path table,Held long m.mem m.pml4 path table → table ≠ frame*pageSize

theorem page_unique (canonical : Canonical v) (canonicalToo : Canonical w) :
    pathOf w = pathOf v ∧ ptIndex w = ptIndex v ↔ w/pageSize = v/pageSize := by
  simp only [pathOf,List.cons.injEq,pml4Index,pdptIndex,pdIndex,ptIndex,entries,pageSize,and_true,Canonical] at *
  omega

-- Tables are added, and no walk can tell.
structure Extended (m after : Mmu) : Prop where
  whole : WellFormed after
  walks : ∀ v,walk after v = walk m v

theorem link_extended (whole : WellFormed m) (held : Held long m.mem m.pml4 path table) (deeper : path.length < 3)
    (low : k < entries) (none : has (entry m.mem table k) pagePresent = false) (below : frame < m.frames.totalFrames)
    (free : frameTest m.frames frame = false) (real : frame*pageSize ≠ 0) :
    Extended m {m with
      mem:=setEntry (fill m.mem (frame*pageSize) pageSize 0#8) table k (tableEntry (frame*pageSize)),frames:=claim m.frames frame} ∧
    Held long (setEntry (fill m.mem (frame*pageSize) pageSize 0#8) table k (tableEntry (frame*pageSize))) m.pml4
      (path++[k]) (frame*pageSize) := by
  obtain ⟨formed,linked,walks,_,_⟩ := link_formed whole.formed held deeper low none (Nat.mul_mod_left frame pageSize)
    (whole.nameable frame below free) real (fun q b there => whole.spare frame below free q b there)
  refine ⟨⟨⟨⟨formed.tree,formed.aligned,formed.real⟩,claim_sound whole.sound below free,claim_nameable whole.nameable frame,?_⟩,
    walks⟩,(linked _ _).mpr (.inr ⟨rfl,rfl⟩)⟩
  intro other inside clear q b there
  rw [claim_test (by decide),Bool.or_eq_false_iff,decide_eq_false_iff_not] at clear
  obtain ⟨different,clear⟩ := clear
  rcases (linked q b).mp there with old | ⟨_,rfl⟩
  · exact whole.spare other inside clear q b old
  · simp only [pageSize]
    omega

theorem claim_extended (whole : WellFormed m) (below : frame < m.frames.totalFrames) (free : frameTest m.frames frame = false) :
    Extended m {m with frames:=claim m.frames frame} := by
  refine ⟨⟨⟨whole.formed.tree,whole.formed.aligned,whole.formed.real⟩,claim_sound whole.sound below free,
    claim_nameable whole.nameable frame,?_⟩,fun _ => rfl⟩
  intro other inside clear
  rw [claim_test (by decide),Bool.or_eq_false_iff] at clear
  exact whole.spare other inside clear.2

theorem nextLevel_extended (whole : WellFormed m) (held : Held long m.mem m.pml4 path table) (deeper : path.length < 3)
    (low : k < entries) : Extended m (nextLevel m table k true).2 ∧ ((nextLevel m table k true).1 ≠ 0 →
      Held long (nextLevel m table k true).2.mem (nextLevel m table k true).2.pml4 (path++[k]) (nextLevel m table k true).1) := by
  by_cases present : has (entry m.mem table k) pagePresent = true
  · rw [nextLevel_there present]
    exact ⟨⟨whole,fun _ => rfl⟩,fun _ => held_next held deeper low present⟩
  have absent : has (entry m.mem table k) pagePresent = false := by simpa using present
  unfold nextLevel
  rw [if_neg present,if_neg (by decide)]
  rcases allocFrame_parts whole.sound with full | ⟨frame,below,free,taken⟩
  · rw [full]
    exact ⟨⟨whole,fun _ => rfl⟩,fun given => absurd rfl given⟩
  rw [taken]
  dsimp only
  by_cases zero : frame*pageSize = 0
  · rw [if_pos zero]
    exact ⟨claim_extended whole below free,fun given => absurd rfl given⟩
  rw [if_neg zero]
  obtain ⟨extended,there⟩ := link_extended whole held deeper low absent below free zero
  refine ⟨extended,fun _ => ?_⟩
  change Held long (setEntry (fill m.mem (frame*pageSize) pageSize 0#8) table k (tableEntry (frame*pageSize))) m.pml4 (path++[k])
    (address (entry (setEntry (fill m.mem (frame*pageSize) pageSize 0#8) table k (tableEntry (frame*pageSize))) table k))
  rw [entry_set,(tableEntry_parts (Nat.mul_mod_left frame pageSize) (whole.nameable frame below free)).2]
  exact there

def found (e : Entry) : Option Entry := if has e pagePresent = true then some e else none

-- The leaf of one page is written and the tables stay what they are.
structure Updated (m after : Mmu) (v : Nat) (e : Entry) : Prop where
  whole : WellFormed after
  walks : ∀ w,walk after w = if pathOf w = pathOf v ∧ ptIndex w = ptIndex v then found e else walk m w

theorem leaf_updated (whole : WellFormed m) (held : Held long m.mem m.pml4 (pathOf v) pt) (e : Entry) :
    Updated m {m with mem:=setEntry m.mem pt (ptIndex v) e} v e := by
  obtain ⟨formed,kept,walks⟩ := leaf_formed whole.formed held e
  refine ⟨⟨formed,whole.sound,whole.nameable,?_⟩,walks⟩
  exact fun frame below free path table there => whole.spare frame below free path table ((kept path table).mp there)

-- What paging_map writes, and what paging_set_flags leaves of an entry.
def flagged (e flags : Entry) : Entry := (e &&& addressMask) ||| flags

theorem pagingMap_updated (whole : WellFormed m) (v phys : Nat) (flags : Entry) :
    (∃ after,pagingMap m v phys flags = (false,after) ∧ Extended m after) ∨
    ∃ after,pagingMap m v phys flags = (true,after) ∧ Updated m after v (flagged (BitVec.ofNat 64 phys) flags) := by
  have step : ∀ {now path table k},Extended m now → Held long now.mem now.pml4 path table → path.length < 3 → k < entries →
      Extended m (nextLevel now table k true).2 ∧ ((nextLevel now table k true).1 ≠ 0 →
        Held long (nextLevel now table k true).2.mem (nextLevel now table k true).2.pml4 (path++[k]) (nextLevel now table k true).1) := by
    intro now path table k extended held deeper low
    obtain ⟨more,there⟩ := nextLevel_extended extended.whole held deeper low
    exact ⟨⟨more.whole,fun v => (more.walks v).trans (extended.walks v)⟩,there⟩
  rcases pagingMap_route (Extended m) ⟨whole,fun _ => rfl⟩ step v phys flags with failed | ⟨middle,pt,extended,held,mapped⟩
  · exact .inl failed
  · have written := leaf_updated extended.whole held (flagged (BitVec.ofNat 64 phys) flags)
    refine .inr ⟨_,mapped,written.whole,fun w => ?_⟩
    rw [←extended.walks w]
    exact written.walks w

-- Where entry_for finds a leaf it is the one a walk comes to; where it finds none there
-- is no walk.
theorem entryFor_walk (whole : WellFormed m) (v : Nat) : entryFor m v = 0 ∧ walk m v = none ∨
    ∃ pt,Held long m.mem m.pml4 (pathOf v) pt ∧ entryFor m v ≠ 0 ∧ (∀ mem,entry mem (entryFor m v) 0 = entry mem pt (ptIndex v)) ∧
      (∀ mem e,setEntry mem (entryFor m v) 0 e = setEntry mem pt (ptIndex v) e) ∧ walk m v = found (entry m.mem pt (ptIndex v)) := by
  rcases entryFor_place whole.formed v with ⟨zero,unheld⟩ | ⟨pt,held,place,real⟩
  · refine .inl ⟨zero,?_⟩
    cases walked : walk m v with
    | none => rfl
    | some leaf =>
      obtain ⟨pt,held,_⟩ := (leafAt_iff rfl (path_range v)).mp walked
      exact absurd held (unheld pt)
  · rw [place]
    refine .inr ⟨pt,held,real,fun mem => ?_,fun mem e => ?_,?_⟩
    · rw [entry,entry,Nat.mul_zero,Nat.add_zero]
    · rw [setEntry,setEntry,Nat.mul_zero,Nat.add_zero]
    · rw [walk,leafAt,held.leads]
      rfl

theorem pagingUnmap_updated (whole : WellFormed m) (v : Nat) : Updated m (pagingUnmap m v) v 0#64 := by
  unfold pagingUnmap
  rcases entryFor_walk whole v with ⟨zero,unmapped⟩ | ⟨pt,held,real,_,writes,_⟩
  · rw [if_pos zero]
    refine ⟨whole,fun w => ?_⟩
    by_cases same : pathOf w = pathOf v ∧ ptIndex w = ptIndex v
    · rw [if_pos same,walk,same.1,same.2]
      exact unmapped
    · rw [if_neg same]
  · rw [if_neg real,writes]
    exact leaf_updated whole held _

theorem pagingSetFlags_updated (whole : WellFormed m) (mapped : walk m v = some e) (flags : Entry) :
    Updated m (pagingSetFlags m v flags) v (flagged e flags) := by
  unfold pagingSetFlags
  rcases entryFor_walk whole v with ⟨_,unmapped⟩ | ⟨pt,held,real,reads,writes,walked⟩
  · rw [unmapped] at mapped
    cases mapped
  · have here : entry m.mem pt (ptIndex v) = e := by
      rw [walked,found] at mapped
      split at mapped
      · exact Option.some.inj mapped
      · cases mapped
    rw [if_neg real,writes,reads,here]
    exact leaf_updated whole held _

-- An entry is read as an address and as what is left of it.
def flagsOf (e : Entry) : Entry := e &&& ~~~addressMask

theorem flagged_fields (plain : (flags &&& addressMask) = 0#64) (e : Entry) :
    address (flagged e flags) = address e ∧ flagsOf (flagged e flags) = flags := by
  refine ⟨?_,field_rest plain e⟩
  rw [address,address,flagged,BitVec.and_or_distrib_right,plain,BitVec.or_zero,BitVec.and_assoc,BitVec.and_self]

theorem flagged_present (e flags : Entry) : has (flagged e flags) pagePresent = has flags pagePresent := by
  rw [flagged,PageTables.has_or,PageTables.has_and e addressMask pagePresent (by decide),Bool.false_or]

theorem address_page (small : phys < 2^52) : address (BitVec.ofNat 64 phys) = phys/pageSize*pageSize := by
  have rounded : phys/pageSize*pageSize < 2^52 := by
    simp only [pageSize]
    omega
  have same : (BitVec.ofNat 64 phys &&& addressMask) = (BitVec.ofNat 64 (phys/pageSize*pageSize) &&& addressMask) := by
    apply BitVec.eq_of_getLsbD_eq
    intro i wide
    simp only [BitVec.getLsbD_and,BitVec.getLsbD_ofNat,wide,decide_true,Bool.true_and,mask_bit]
    by_cases inside : 12 ≤ i ∧ i < 52
    · rw [show phys/pageSize*pageSize = phys/2^12*2^12 from rfl,Nat.testBit_mul_two_pow,Nat.testBit_div_two_pow]
      simp [inside.1]
    · simp [inside]
  rw [address,same,frame_masked (Nat.mul_mod_left _ _) rounded,BitVec.toNat_ofNat,Nat.mod_eq_of_lt (by omega)]

-- The map the tables stand for: what each page, by its number, is mapped to and with
-- which flags. Nothing is mapped without the present flag.
abbrev Pages := Nat → Option (Nat × Entry)

inductive Request where
  | map (v phys : Nat) (flags : Entry)
  | unmap (v : Nat)
  | setFlags (v : Nat) (flags : Entry)

def content (addr : Nat) (flags : Entry) : Option (Nat × Entry) := if has flags pagePresent = true then some (addr,flags) else none

def answered (pages : Pages) : Request × Bool → Pages
  | (.map v phys flags,true) => Function.update pages (v/pageSize) (content (phys/pageSize*pageSize) flags)
  | (.map _ _ _,false) => pages
  | (.unmap v,_) => Function.update pages (v/pageSize) none
  | (.setFlags v flags,_) => Function.update pages (v/pageSize) ((pages (v/pageSize)).bind fun page => content page.1 flags)

def serve (m : Mmu) : Request → Bool × Mmu
  | .map v phys flags => pagingMap m v phys flags
  | .unmap v => (true,pagingUnmap m v)
  | .setFlags v flags => (true,pagingSetFlags m v flags)

-- Physical addresses have 52 bits, flags no bit of an address, and paging_set_flags is
-- for a page that is mapped.
def Proper (m : Mmu) : Request → Prop
  | .map v phys flags => Canonical v ∧ phys < 2^52 ∧ (flags &&& addressMask) = 0#64
  | .unmap v => Canonical v
  | .setFlags v flags => Canonical v ∧ (flags &&& addressMask) = 0#64 ∧ ∃ e,walk m v = some e

def tables : System Mmu (Request × Bool) := ⟨WellFormed,fun m label after => Proper m label.1 ∧ serve m label.1 = (label.2,after)⟩

def translation (m : Mmu) (v : Nat) : Option (Nat × Entry) := (walk m v).map fun e => (address e,flagsOf e)

def Shows (m : Mmu) (pages : Pages) : Prop := ∀ v,Canonical v → translation m v = pages (v/pageSize)

theorem updated_shows (shows : Shows m pages) (updated : Updated m after v e) (canonical : Canonical v)
    (there : (found e).map (fun e => (address e,flagsOf e)) = page) : Shows after (Function.update pages (v/pageSize) page) := by
  intro w canonicalToo
  rw [translation,updated.walks w]
  by_cases same : w/pageSize = v/pageSize
  · rw [if_pos ((page_unique canonical canonicalToo).mpr same),same,Function.update_self]
    exact there
  · rw [if_neg fun equal => same ((page_unique canonical canonicalToo).mp equal),Function.update_of_ne same]
    exact shows w canonicalToo

theorem flagged_content (plain : (flags &&& addressMask) = 0#64) (e : Entry) :
    (found (flagged e flags)).map (fun e => (address e,flagsOf e)) = content (address e) flags := by
  obtain ⟨same,rest⟩ := flagged_fields plain e
  rw [found,content,flagged_present]
  by_cases present : has flags pagePresent = true
  · rw [if_pos present,if_pos present,Option.map_some,same,rest]
  · rw [if_neg present,if_neg present,Option.map_none]

theorem served (whole : WellFormed m) (shows : Shows m pages) (proper : Proper m request) (answer : serve m request = (done,after)) :
    WellFormed after ∧ Shows after (answered pages (request,done)) := by
  cases request with
  | map v phys flags =>
    obtain ⟨canonical,small,plain⟩ := proper
    change pagingMap m v phys flags = (done,after) at answer
    rcases pagingMap_updated whole v phys flags with ⟨middle,failed,extended⟩ | ⟨middle,mapped,updated⟩
    · rw [failed] at answer
      cases answer
      refine ⟨extended.whole,fun w canonicalToo => ?_⟩
      rw [translation,extended.walks w]
      exact shows w canonicalToo
    · rw [mapped] at answer
      cases answer
      refine ⟨updated.whole,updated_shows shows updated canonical ?_⟩
      rw [flagged_content plain,address_page small]
  | unmap v =>
    cases answer
    have updated := pagingUnmap_updated whole v
    exact ⟨updated.whole,updated_shows shows updated proper (by decide)⟩
  | setFlags v flags =>
    obtain ⟨canonical,plain,e,mapped⟩ := proper
    cases answer
    have updated := pagingSetFlags_updated whole mapped flags
    refine ⟨updated.whole,updated_shows shows updated canonical ?_⟩
    rw [flagged_content plain,←shows v canonical,translation,mapped]
    rfl

theorem page_shows (m : Mmu) : Shows m fun n => translation m (n*pageSize) := by
  intro v _
  have same : pathOf (v/pageSize*pageSize) = pathOf v ∧ ptIndex (v/pageSize*pageSize) = ptIndex v := by
    simp only [pathOf,List.cons.injEq,pml4Index,pdptIndex,pdIndex,ptIndex,entries,pageSize,and_true]
    omega
  change translation m v = translation m (v/pageSize*pageSize)
  simp only [translation,walk,same.1,same.2]

-- The tables are a map: whatever is asked of them, in any order, they show what the
-- requests that succeeded make of the map they showed before.
theorem tables_map (whole : WellFormed m) (path : Runs tables m log after) : WellFormed after ∧
    ∀ v,Canonical v → translation after v = log.foldl answered (fun n => translation m (n*pageSize)) (v/pageSize) := by
  induction path with
  | nil => exact ⟨whole,page_shows _⟩
  | step prior step ih =>
    obtain ⟨kept,shows⟩ := ih
    obtain ⟨proper,answer⟩ := step
    rw [List.foldl_append]
    exact served kept shows proper answer

-- What paging_init builds is such a tree.
theorem sane_whole (sane : WriteExecute64.Sane m) : WellFormed m :=
  ⟨WriteExecute64.sane_formed sane,sane.sound,sane.nameable,fun _ _ clear _ _ held => WriteExecute64.free_fresh sane clear held⟩

-- The tables of a small machine, with nothing in them yet.
def tinyRoot : Mmu :=
  ⟨fill (fun _ => 0#8) (0x103*pageSize) pageSize 0#8,claim WriteExecute64.tinyFrames 0x103,0x103*pageSize,0⟩

theorem tiny_free : frameTest WriteExecute64.tinyFrames 0x103 = false ∧ (pagingMap tinyRoot 0x5000 0x7123 3#64).1 = true ∧
    translation tinyRoot (0xffff800000005000/pageSize*pageSize) = none := by decide +kernel

theorem tiny_whole : WellFormed tinyRoot := by
  have below : 0x103 < WriteExecute64.tinyFrames.totalFrames := by
    rw [WriteExecute64.tiny_frames.1]
    decide
  exact sane_whole (WriteExecute64.blank_sane WriteExecute64.tiny_sound WriteExecute64.tiny_nameable below tiny_free.1 (by decide)
    (fun _ => 0#8) 0).1

-- A page is mapped and made read-only.
theorem tables_map_tiny : ∃ after,
    Runs tables tinyRoot [(.map 0x5000 0x7123 3#64,true),(.setFlags 0x5abc 1#64,true)] after ∧ WellFormed after ∧
    translation after 0x5fff = some (0x7000,1#64) ∧ translation after 0xffff800000005000 = none := by
  have first : Runs tables tinyRoot ([]++[(.map 0x5000 0x7123 3#64,true)]) (pagingMap tinyRoot 0x5000 0x7123 3#64).2 :=
    .step .nil ⟨⟨.inl (by decide),by decide,by decide⟩,Prod.ext tiny_free.2.1 rfl⟩
  generalize (pagingMap tinyRoot 0x5000 0x7123 3#64).2 = middle at first
  have mapped : translation middle 0x5abc = some (0x7000,3#64) :=
    ((tables_map tiny_whole first).2 0x5abc (.inl (by decide))).trans (by decide)
  obtain ⟨leaf,walked,_⟩ := Option.map_eq_some_iff.mp mapped
  have second : Runs tables tinyRoot [(.map 0x5000 0x7123 3#64,true),(.setFlags 0x5abc 1#64,true)] (pagingSetFlags middle 0x5abc 1#64) :=
    .step first ⟨⟨.inl (by decide),by decide,leaf,walked⟩,rfl⟩
  obtain ⟨whole,shows⟩ := tables_map tiny_whole second
  refine ⟨_,second,whole,?_,?_⟩
  · exact (shows 0x5fff (.inl (by decide))).trans (by decide)
  · exact (shows 0xffff800000005000 (.inr (by decide))).trans tiny_free.2.2

end Arthic.LongMap
