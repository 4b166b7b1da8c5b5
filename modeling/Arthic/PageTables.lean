import Arthic.Paging

namespace Arthic.PageTables
open ByteMemory PageTree Paging Pmm Unsigned

-- Bits of an entry: twenty for the address, the rest for flags.
theorem has_iff (e flag : Entry) : has e flag = true ↔ (e &&& flag) ≠ 0#64 := by simp [has]

theorem has_or (a b flag : Entry) : has (a ||| b) flag = (has a flag || has b flag) := by
  rw [Bool.eq_iff_iff,Bool.or_eq_true,has_iff,has_iff,has_iff,BitVec.and_or_distrib_right,ne_eq,BitVec.or_eq_zero_iff,
    not_and_or]

theorem has_and (a b flag : Entry) (apart : (b &&& flag) = 0#64) : has (a &&& b) flag = false := by
  simp [has,BitVec.and_assoc,apart]

theorem mask_bit (i : Nat) : addressMask.getLsbD i = decide (12 ≤ i ∧ i < 32) := by
  by_cases wide : i < 64
  · have all : ∀ i : Fin 64,addressMask.getLsbD i = decide (12 ≤ i.val ∧ i.val < 32) := by decide
    exact all ⟨i,wide⟩
  · rw [BitVec.getLsbD_of_ge _ _ (by omega)]
    simp
    omega

theorem address_aligned (e : Entry) : address e % pageSize = 0 := field_aligned mask_bit e

theorem address_small (e : Entry) : address e < 2^32 := by
  rw [address,BitVec.toNat_and]
  exact Nat.lt_of_le_of_lt Nat.and_le_right (by decide)

-- The address of a frame, as entries hold it.
theorem frame_masked (aligned : phys % pageSize = 0) (small : phys < 2^32) :
    (BitVec.ofNat 64 phys &&& addressMask) = BitVec.ofNat 64 phys := field_masked mask_bit aligned small

theorem address_frame (aligned : phys % pageSize = 0) (small : phys < 2^32) (clear : (flags &&& addressMask) = 0#64) :
    address (BitVec.ofNat 64 phys ||| flags) = phys := by
  rw [address,BitVec.and_or_distrib_right,clear,BitVec.or_zero,frame_masked aligned small,BitVec.toNat_ofNat,
    Nat.mod_eq_of_lt (by omega)]

theorem frame_has (aligned : phys % pageSize = 0) (small : phys < 2^32) (apart : (addressMask &&& flag) = 0#64)
    (flags : Entry) : has (BitVec.ofNat 64 phys ||| flags) flag = has flags flag := by
  rw [has_or,←frame_masked aligned small,has_and _ _ _ apart,Bool.false_or]

-- An address no free frame contains.
def Taken (frames : State 32) (addr : Nat) : Prop :=
  frames.totalFrames ≤ addr/pageSize ∨ frameTest frames (addr/pageSize) = true

instance (frames : State 32) (addr : Nat) : Decidable (Taken frames addr) := inferInstanceAs (Decidable (_ ∨ _))

-- One address space: its tables share no byte, and the allocator will not hand them out.
structure Space (m : Mmu) (root : Nat) : Prop where
  sound : Sound m.frames
  tree : Tree pae m.mem root
  home : root % 32 = 0
  real : ∀ path table,Held pae m.mem root path table → table ≠ 0
  taken : ∀ path table,Held pae m.mem root path table → Taken m.frames table

variable {m after : Mmu} {root : Nat}

theorem span_root : span pae [] = 32 := rfl
theorem span_below (path : List Nat) (k : Nat) : span pae (path++[k]) = pageSize := by
  simp only [span,pae,List.length_append,List.length_singleton,tableEntries,pageSize]
  rw [if_neg (by omega)]

theorem held_aligned (held : Held pae mem root (path++[k]) table) : table % pageSize = 0 := by
  obtain ⟨above,_,_,_,leads⟩ := (held_snoc ..).mp held
  unfold next at leads
  split at leads
  · cases Option.some.inj leads
    exact address_aligned _
  · cases leads

-- A page that is not taken lies apart from every table.
theorem free_apart (space : Space m root) (held : Held pae m.mem root path table)
    (free : ∀ addr,Taken m.frames addr → addr/pageSize ≠ page/pageSize) (aligned : page % pageSize = 0) :
    Apart page pageSize table (span pae path) := by
  have other := free table (space.taken path table held)
  cases path using List.reverseRecOn with
  | nil =>
    cases (held_nil ..).mp held
    have home := space.home
    rw [span_root]
    simp only [Apart,pageSize] at *
    omega
  | append_singleton path k =>
    have base := held_aligned held
    rw [span_below]
    simp only [Apart,pageSize] at *
    omega

theorem claim_taken (frames : State 32) (frame : Nat) (taken : Taken frames addr) : Taken (claim frames frame) addr := by
  refine taken.imp id fun marked => ?_
  rw [claim_test (by decide),marked]
  simp

theorem claimRun_taken (frames : State 32) (start count : Nat) (taken : Taken frames addr) :
    Taken (claimRun frames start count) addr := by
  rcases taken with beyond | held
  · exact .inl (by rw [claimRun_total]; exact beyond)
  · refine .inr ?_
    rw [claimRun_test (by decide)]
    split
    · rfl
    · exact held

theorem frame_free (clear : frameTest frames frame = false) (below : frame < frames.totalFrames) (addr : Nat)
    (taken : Taken frames addr) : addr/pageSize ≠ frame*pageSize/pageSize := by
  rw [show frame*pageSize/pageSize = frame by simp [pageSize]]
  rintro rfl
  rcases taken with high | marked
  · omega
  · rw [clear] at marked
    cases marked

-- Memory may change where no table lies, and frames where none is.
theorem space_congr (space : Space m root) (sound : Sound after.frames)
    (same : ∀ path table,Held pae m.mem root path table → ∀ x < span pae path,after.mem (table+x) = m.mem (table+x))
    (taken : ∀ path table,Held pae m.mem root path table → Taken after.frames table) : Space after root := by
  have held := held_congr same
  refine ⟨sound,tree_congr space.tree fun path table => (held path table).mp,space.home,?_,?_⟩
  · intro path table there
    exact space.real path table ((held path table).mp there)
  · intro path table there
    exact taken path table ((held path table).mp there)

theorem space_same (space : Space m root) (frames : State 32) (sound : Sound frames)
    (kept : ∀ addr,Taken m.frames addr → Taken frames addr)
    (same : ∀ path table,Held pae m.mem root path table → ∀ x < span pae path,mem (table+x) = m.mem (table+x)) :
    Space {m with mem:=mem,frames:=frames} root :=
  @space_congr _ {m with mem:=mem,frames:=frames} _ space sound same fun path table held => kept table (space.taken path table held)

theorem held_one (low : i < pdptEntries) : Held pae mem root [i] pd ↔ next pae mem root i = some pd := by
  have split := held_snoc pae mem root pd [] i
  rw [List.nil_append] at split
  rw [split]
  constructor
  · rintro ⟨above,held,_,_,leads⟩
    cases (held_nil ..).mp held
    exact leads
  · intro leads
    exact ⟨root,(held_nil ..).mpr rfl,by decide,low,leads⟩

theorem held_two (low : j < tableEntries) :
    Held pae mem root [i,j] pt ↔ ∃ pd,Held pae mem root [i] pd ∧ next pae mem pd j = some pt := by
  have split := held_snoc pae mem root pt [i] j
  rw [List.singleton_append] at split
  rw [split]
  constructor
  · rintro ⟨above,held,_,_,leads⟩
    exact ⟨above,held,leads⟩
  · rintro ⟨pd,held,leads⟩
    exact ⟨pd,held,Nat.one_lt_two,low,leads⟩

theorem index_bounds (low : v < 2^32) :
    pdptIndex v < pdptEntries ∧ pdIndex v < tableEntries ∧ ptIndex v < tableEntries := by
  simp only [pdptIndex,pdIndex,ptIndex,pdptEntries,tableEntries]
  omega

-- Two addresses on different pages differ in one of the three indices.
theorem index_same (top : pdptIndex v = pdptIndex w) (middle : pdIndex v = pdIndex w)
    (last : ptIndex v = ptIndex w) : v/pageSize = w/pageSize := by
  simp only [pdptIndex,pdIndex,ptIndex,tableEntries,pageSize] at *
  omega

theorem indices_page (same : v/pageSize = w/pageSize) : pdptIndex v = pdptIndex w ∧ pdIndex v = pdIndex w ∧ ptIndex v = ptIndex w := by
  simp only [pdptIndex,pdIndex,ptIndex,tableEntries,pageSize] at *
  omega

-- Translation sees nothing of an address below its page.
theorem walk_page (same : v/pageSize = w/pageSize) (mem : Memory) (root : Nat) : walk mem root v = walk mem root w := by
  obtain ⟨top,middle,last⟩ := indices_page same
  rw [walk,walk,top,middle,last]

theorem walk_iff (low : v < 2^32) : walk mem root v = some page ↔
    ∃ pd pt,Held pae mem root [pdptIndex v] pd ∧ Held pae mem root [pdptIndex v,pdIndex v] pt ∧
      has (entry mem pt (ptIndex v)) pagePresent = true ∧ page = ⟨entry mem pd (pdIndex v),entry mem pt (ptIndex v)⟩ := by
  obtain ⟨top,middle,_⟩ := index_bounds low
  unfold walk
  rw [Option.bind_eq_some_iff]
  constructor
  · rintro ⟨pd,upper,rest⟩
    obtain ⟨pt,lower,rest⟩ := Option.bind_eq_some_iff.mp rest
    have one := (held_one top).mpr upper
    split at rest
    · rename_i present
      exact ⟨pd,pt,one,(held_two middle).mpr ⟨pd,one,lower⟩,present,(Option.some.inj rest).symm⟩
    · cases rest
  · rintro ⟨pd,pt,one,two,present,rfl⟩
    obtain ⟨above,held,lower⟩ := (held_two middle).mp two
    cases held_unique held one
    refine ⟨pd,(held_one top).mp one,Option.bind_eq_some_iff.mpr ⟨pt,lower,?_⟩⟩
    rw [if_pos present]

-- What no paging operation changes, and that frames once taken stay so.
structure Kept (m after : Mmu) : Prop where
  image : after.image = m.image
  active : after.active = m.active
  limit : after.mappedLimit = m.mappedLimit
  entries : after.kernelPdEntries = m.kernelPdEntries
  nx : after.nxSupported = m.nxSupported
  taken : ∀ addr,Taken m.frames addr → Taken after.frames addr

theorem kept_refl (m : Mmu) : Kept m m := ⟨rfl,rfl,rfl,rfl,rfl,fun _ taken => taken⟩

theorem kept_trans {middle : Mmu} (first : Kept m middle) (second : Kept middle after) : Kept m after :=
  ⟨second.image.trans first.image,second.active.trans first.active,second.limit.trans first.limit,
    second.entries.trans first.entries,second.nx.trans first.nx,fun addr taken => second.taken addr (first.taken addr taken)⟩

-- A table was added below (a,k): the old ones are as they were, it is empty.
structure Linked (m after : Mmu) (root : Nat) (p : List Nat) (a k : Nat) (flags : Entry) (new : Nat) : Prop where
  kept : Kept m after
  space : Space after root
  held : ∀ path table,Held pae after.mem root path table ↔ Held pae m.mem root path table ∨ path = p++[k] ∧ table = new
  empty : ∀ l < tableEntries,entry after.mem new l = 0#64
  old : ∀ q b l,Held pae m.mem root q b → l < pae.entries q.length → (p = q → k ≠ l) →
    entry after.mem b l = entry m.mem b l
  here : entry after.mem a k = (BitVec.ofNat 64 new ||| flags)
  address : address (BitVec.ofNat 64 new ||| flags) = new

theorem linkTable_parts (space : Space m root) (here : Held pae m.mem root p a) (deeper : p.length < pae.depth)
    (low : k < pae.entries p.length) (none : next pae m.mem a k = none) (present : has flags pagePresent = true)
    (clear : (flags &&& addressMask) = 0#64) :
    (linkTable m a k flags).1 = false ∧ Kept m (linkTable m a k flags).2 ∧ Space (linkTable m a k flags).2 root ∧
        (linkTable m a k flags).2.mem = m.mem ∨
      (linkTable m a k flags).1 = true ∧ ∃ new,Linked m (linkTable m a k flags).2 root p a k flags new := by
  unfold linkTable
  rcases allocFrame_parts space.sound with full | ⟨frame,below,free,taken⟩
  · rw [full]
    exact .inl ⟨rfl,kept_refl m,space,rfl⟩
  rw [taken]
  dsimp only
  have sound := claim_sound space.sound below free
  have more := fun addr => @claim_taken addr m.frames frame
  by_cases zero : frame*pageSize = 0
  · rw [if_pos zero]
    exact .inl ⟨rfl,⟨rfl,rfl,rfl,rfl,rfl,more⟩,
      @space_same _ _ m.mem space (claim m.frames frame) sound more (fun _ _ _ _ _ => rfl),rfl⟩
  rw [if_neg zero]
  refine .inr ⟨rfl,frame*pageSize,?_⟩
  have aligned : frame*pageSize % pageSize = 0 := Nat.mul_mod_left _ _
  have small : frame*pageSize < 2^32 := space.sound.address_small below
  have fresh : ∀ q b,Held pae m.mem root q b → Apart (frame*pageSize) pageSize b (span pae q) :=
    fun q b held => free_apart space held (frame_free free below) aligned
  have same : ∀ q b,Held pae m.mem root q b → ∀ x < span pae q,
      fill m.mem (frame*pageSize) pageSize 0#8 (b+x) = m.mem (b+x) := by
    intro q b held x inside
    have apart := fresh q b held
    simp only [Apart] at apart
    exact patch_outside _ _ (by omega)
  have blank := space_same space (claim m.frames frame) sound more same
  have held := held_congr same
  have there := (held p a).mpr here
  have absent : next pae (fill m.mem (frame*pageSize) pageSize 0#8) a k = Option.none := by
    rw [next,entry_same same here low]
    exact none
  have target : address (BitVec.ofNat 64 (frame*pageSize) ||| flags) = frame*pageSize := address_frame aligned small clear
  have marked : has (BitVec.ofNat 64 (frame*pageSize) ||| flags) pagePresent = true := by
    rw [frame_has aligned small (by decide),present]
  have zeros : ∀ x < pageSize,fill m.mem (frame*pageSize) pageSize 0#8 (frame*pageSize+x) = 0#8 := by
    intro x inside
    exact patch_inside _ _ (by omega) (by omega)
  have linked := held_link blank.tree there deeper low absent marked target
    (by rw [span_below]; exact zeros) (fun q b old => by rw [span_below]; exact fresh q b ((held q b).mp old))
  refine ⟨⟨rfl,rfl,rfl,rfl,rfl,more⟩,⟨sound,?_,space.home,?_,?_⟩,?_,?_,?_,entry_set _ _ _ _,target⟩
  · exact tree_link blank.tree (fun path table => (linked path table).mp)
      (fun q b old => by rw [span_below]; exact fresh q b ((held q b).mp old))
  · intro path table now
    rcases (linked path table).mp now with old | ⟨_,rfl⟩
    · exact blank.real path table old
    · exact zero
  · intro path table now
    rcases (linked path table).mp now with old | ⟨_,rfl⟩
    · exact blank.taken path table old
    · refine .inr ?_
      rw [show frame*pageSize/pageSize = frame by simp [pageSize]]
      change frameTest (claim m.frames frame) frame = true
      rw [claim_test (by decide)]
      simp
  · intro path table
    rw [linked path table,held path table]
  · intro l inside
    have apart := fresh p a here
    simp only [Apart,span,tableEntries,pageSize] at apart inside
    dsimp only
    rw [entry_set_apart _ _ (by simp only [pageSize]; omega)]
    apply entry_zero
    intro x small
    rw [Nat.add_assoc]
    exact zeros _ (by simp only [pageSize]; omega)
  · intro q b l old inside different
    dsimp only
    rw [entry_kept blank.tree there ((held q b).mpr old) low inside different,entry_same same old inside]

-- Memory that agrees on every table translates alike.
theorem walk_congr (same : ∀ q b,Held pae mem root q b → ∀ x < span pae q,now (b+x) = mem (b+x)) (low : v < 2^32) :
    walk now root v = walk mem root v := by
  obtain ⟨_,middle,last⟩ := index_bounds low
  have held := held_congr same
  have entries : ∀ pd pt,Held pae mem root [pdptIndex v] pd → Held pae mem root [pdptIndex v,pdIndex v] pt →
      entry now pd (pdIndex v) = entry mem pd (pdIndex v) ∧ entry now pt (ptIndex v) = entry mem pt (ptIndex v) :=
    fun pd pt one two => ⟨entry_same same one middle,entry_same same two last⟩
  apply Option.ext
  intro page
  rw [walk_iff low,walk_iff low]
  constructor
  · rintro ⟨pd,pt,one,two,present,rfl⟩
    have one := (held _ _).mp one
    have two := (held _ _).mp two
    obtain ⟨directory,leaf⟩ := entries pd pt one two
    rw [leaf] at present
    exact ⟨pd,pt,one,two,present,by rw [directory,leaf]⟩
  · rintro ⟨pd,pt,one,two,present,rfl⟩
    obtain ⟨directory,leaf⟩ := entries pd pt one two
    exact ⟨pd,pt,(held _ _).mpr one,(held _ _).mpr two,by rw [leaf]; exact present,by rw [directory,leaf]⟩

-- An empty table translates nothing.
theorem linked_walk (linked : Linked m after root p a k flags new) (here : Held pae m.mem root p a)
    (deeper : p.length < pae.depth) (none : next pae m.mem a k = none) (low : v < 2^32) :
    walk after.mem root v = walk m.mem root v := by
  obtain ⟨_,middle,last⟩ := index_bounds low
  -- the entries a walk that was there before reads
  have same : ∀ pd pt,Held pae m.mem root [pdptIndex v] pd → Held pae m.mem root [pdptIndex v,pdIndex v] pt →
      entry after.mem pd (pdIndex v) = entry m.mem pd (pdIndex v) ∧
      entry after.mem pt (ptIndex v) = entry m.mem pt (ptIndex v) := by
    intro pd pt one two
    refine ⟨linked.old _ pd _ one middle ?_,linked.old _ pt _ two last ?_⟩
    · rintro rfl rfl
      obtain ⟨above,held,leads⟩ := (held_two middle).mp two
      rw [held_unique held here,none] at leads
      cases leads
    · rintro rfl
      exact absurd deeper (Nat.lt_irrefl 2)
  apply Option.ext
  intro page
  rw [walk_iff low,walk_iff low]
  constructor
  · rintro ⟨pd,pt,one,two,present,rfl⟩
    rcases (linked.held _ pt).mp two with old | ⟨_,rfl⟩
    · obtain ⟨above,held,_⟩ := (held_two middle).mp old
      cases held_unique ((linked.held _ _).mpr (.inl held)) one
      obtain ⟨directory,leaf⟩ := same pd pt held old
      rw [leaf] at present
      exact ⟨pd,pt,held,old,present,by rw [directory,leaf]⟩
    · rw [linked.empty _ last] at present
      cases present
  · rintro ⟨pd,pt,one,two,present,rfl⟩
    obtain ⟨directory,leaf⟩ := same pd pt one two
    exact ⟨pd,pt,(linked.held _ _).mpr (.inl one),(linked.held _ _).mpr (.inl two),by rw [leaf]; exact present,
      by rw [directory,leaf]⟩

-- An entry of a directory changes and still leads to the same page table.
theorem directory_walk (space : Space m root) (here : Held pae m.mem root [i] pd) (low : j < tableEntries) {e : Entry}
    (keeps : next pae (setEntry m.mem pd j e) pd j = next pae m.mem pd j) (inside : v < 2^32) :
    walk (setEntry m.mem pd j e) root v =
      (walk m.mem root v).map fun page => if pdptIndex v = i ∧ pdIndex v = j then ⟨e,page.leaf⟩ else page := by
  obtain ⟨_,middle,last⟩ := index_bounds inside
  have held := held_set space.tree here low (fun _ => keeps)
  have leaf : ∀ pt,Held pae m.mem root [pdptIndex v,pdIndex v] pt →
      entry (setEntry m.mem pd j e) pt (ptIndex v) = entry m.mem pt (ptIndex v) :=
    fun pt two => entry_kept space.tree here two low last nofun e
  have directory : ∀ own,Held pae m.mem root [pdptIndex v] own → entry (setEntry m.mem pd j e) own (pdIndex v) =
      if pdptIndex v = i ∧ pdIndex v = j then e else entry m.mem own (pdIndex v) := by
    intro own one
    split
    · rename_i same
      obtain ⟨rfl,rfl⟩ := same
      rw [held_unique one here,entry_set]
    · rename_i different
      refine entry_kept space.tree here one low middle ?_ e
      rintro equal rfl
      exact different ⟨(List.singleton_inj.mp equal).symm,rfl⟩
  apply Option.ext
  intro page
  rw [walk_iff inside,Option.map_eq_some_iff]
  constructor
  · rintro ⟨own,pt,one,two,present,rfl⟩
    have one := (held _ _).mp one
    have two := (held _ _).mp two
    rw [leaf pt two] at present
    refine ⟨_,(walk_iff inside).mpr ⟨own,pt,one,two,present,rfl⟩,?_⟩
    rw [directory own one,leaf pt two]
    split <;> rfl
  · rintro ⟨old,found,rfl⟩
    obtain ⟨own,pt,one,two,present,rfl⟩ := (walk_iff inside).mp found
    refine ⟨own,pt,(held _ _).mpr one,(held _ _).mpr two,by rw [leaf pt two]; exact present,?_⟩
    rw [directory own one,leaf pt two]
    split <;> rfl

-- A leaf changes.
theorem leaf_walk (space : Space m root) (here : Held pae m.mem root [pdptIndex v,pdIndex v] pt) (low : v < 2^32) (e : Entry) :
    (∀ w < 2^32,w/pageSize ≠ v/pageSize → walk (setEntry m.mem pt (ptIndex v) e) root w = walk m.mem root w) ∧
    ∀ pd,Held pae m.mem root [pdptIndex v] pd → walk (setEntry m.mem pt (ptIndex v) e) root v =
      if has e pagePresent then some ⟨entry m.mem pd (pdIndex v),e⟩ else none := by
  obtain ⟨_,middle,last⟩ := index_bounds low
  have held := held_set space.tree here last (e:=e) (fun deeper => absurd deeper (Nat.lt_irrefl 2))
  have directory : ∀ i j pd,Held pae m.mem root [i] pd → j < tableEntries →
      entry (setEntry m.mem pt (ptIndex v) e) pd j = entry m.mem pd j :=
    fun i j pd one inside => entry_kept space.tree here one last inside nofun e
  refine ⟨?_,?_⟩
  · intro w inside different
    obtain ⟨_,middleToo,lastToo⟩ := index_bounds inside
    have leaf : ∀ own,Held pae m.mem root [pdptIndex w,pdIndex w] own →
        entry (setEntry m.mem pt (ptIndex v) e) own (ptIndex w) = entry m.mem own (ptIndex w) := by
      intro own two
      refine entry_kept space.tree here two last lastToo ?_ e
      intro equal index
      injection equal with top rest
      exact different (index_same top (List.singleton_inj.mp rest) index).symm
    apply Option.ext
    intro page
    rw [walk_iff inside,walk_iff inside]
    constructor
    · rintro ⟨pd,own,one,two,present,rfl⟩
      have one := (held _ _).mp one
      have two := (held _ _).mp two
      rw [leaf own two] at present
      exact ⟨pd,own,one,two,present,by rw [directory _ _ pd one middleToo,leaf own two]⟩
    · rintro ⟨pd,own,one,two,present,rfl⟩
      exact ⟨pd,own,(held _ _).mpr one,(held _ _).mpr two,by rw [leaf own two]; exact present,
        by rw [directory _ _ pd one middleToo,leaf own two]⟩
  · intro pd one
    apply Option.ext
    intro page
    rw [walk_iff low]
    constructor
    · rintro ⟨other,own,first,second,present,rfl⟩
      cases held_unique ((held _ _).mp first) one
      cases held_unique ((held _ _).mp second) here
      rw [entry_set] at present
      rw [if_pos present,entry_set,directory _ _ _ one middle]
    · intro found
      split at found
      · rename_i present
        cases Option.some.inj found
        exact ⟨pd,pt,(held _ _).mpr one,(held _ _).mpr here,by rw [entry_set]; exact present,
          by rw [entry_set,directory _ _ _ one middle]⟩
      · cases found

theorem next_present (found : has (entry mem table k) pagePresent = true) :
    next pae mem table k = some (address (entry mem table k)) := if_pos found

theorem next_absent (missing : has (entry mem table k) pagePresent = false) : next pae mem table k = none :=
  if_neg (by rw [show pae.present (entry mem table k) = false from missing]; simp)

-- The first half of paging_map: afterwards there is a directory, and nothing is mapped
-- that was not.
theorem ensurePd_parts (space : Space m m.active) (low : v < 2^32) :
    Kept m (ensurePd m v).2 ∧ Space (ensurePd m v).2 m.active ∧
    (∀ w < 2^32,walk (ensurePd m v).2.mem m.active w = walk m.mem m.active w) ∧
    ((ensurePd m v).1 = true → Held pae (ensurePd m v).2.mem m.active [pdptIndex v]
      (address (entry (ensurePd m v).2.mem m.active (pdptIndex v)))) := by
  obtain ⟨top,_,_⟩ := index_bounds low
  unfold ensurePd
  cases found : has (entry m.mem m.active (pdptIndex v)) pagePresent with
  | true =>
    rw [if_pos rfl]
    exact ⟨kept_refl m,space,fun _ _ => rfl,fun _ => (held_one top).mpr (next_present found)⟩
  | false =>
    rw [if_neg (by simp)]
    have here : Held pae m.mem m.active [] m.active := (held_nil ..).mpr rfl
    have missing := next_absent found
    rcases @linkTable_parts _ _ _ _ _ pagePresent space here (by decide) top missing (by decide) (by decide) with
      ⟨failed,kept,still,mem⟩ | ⟨made,new,linked⟩
    · refine ⟨kept,still,fun w _ => by rw [mem],fun made => ?_⟩
      rw [failed] at made
      cases made
    · refine ⟨linked.kept,linked.space,fun w inside => linked_walk linked here (by decide) missing inside,fun _ => ?_⟩
      rw [linked.here,linked.address]
      exact (linked.held _ _).mpr (.inr ⟨rfl,rfl⟩)

-- What a mapping adds to its directory entry, if anything.
def userBit (flags : Entry) : Entry := flags &&& pageUser

theorem userBit_cases (flags : Entry) : userBit flags = if has flags pageUser then pageUser else 0#64 := by
  have power : pageUser = BitVec.twoPow 64 2 := by decide
  rw [userBit,has,power,BitVec.and_twoPow]
  cases flags.getLsbD 2 <;> decide

theorem userBit_clear (flags : Entry) : (userBit flags &&& addressMask) = 0#64 ∧ has (userBit flags) pagePresent = false := by
  rw [userBit_cases]
  split <;> decide

def widened (v : Nat) (flags : Entry) (w : Nat) (page : Page) : Page :=
  if pdptIndex w = pdptIndex v ∧ pdIndex w = pdIndex v then ⟨page.directory ||| userBit flags,page.leaf⟩ else page

theorem widened_parts (v w : Nat) (flags : Entry) (page : Page) :
    (widened v flags w page).leaf = page.leaf ∧
    (has page.directory pageUser = true → has (widened v flags w page).directory pageUser = true) := by
  unfold widened
  split
  · refine ⟨rfl,fun user => ?_⟩
    dsimp only
    rw [has_or,user,Bool.true_or]
  · exact ⟨rfl,id⟩

theorem or_keeps (e : Entry) (flags : Entry) :
    address (e ||| userBit flags) = address e ∧ has (e ||| userBit flags) pagePresent = has e pagePresent := by
  obtain ⟨clear,absent⟩ := userBit_clear flags
  refine ⟨?_,by rw [has_or,absent,Bool.or_false]⟩
  rw [address,BitVec.and_or_distrib_right,clear,BitVec.or_zero,address]

-- The second half: there is a page table, and its directory entry allows ring 3 if the
-- mapping does.
structure Tabled (m after : Mmu) (root v pd : Nat) (flags : Entry) : Prop where
  directory : Held pae after.mem root [pdptIndex v] pd
  table : Held pae after.mem root [pdptIndex v,pdIndex v] (address (entry after.mem pd (pdIndex v)))
  widens : ∀ w < 2^32,walk after.mem root w = (walk m.mem root w).map (widened v flags w)
  old : has (entry m.mem pd (pdIndex v)) pagePresent = true →
    entry after.mem pd (pdIndex v) = (entry m.mem pd (pdIndex v) ||| userBit flags)
  new : has (entry m.mem pd (pdIndex v)) pagePresent = false → has (entry after.mem pd (pdIndex v)) pageWrite = true
  user : has flags pageUser = true → has (entry after.mem pd (pdIndex v)) pageUser = true

theorem map_widened (flags : Entry) (v w : Nat) (missing : pdptIndex w = pdptIndex v ∧ pdIndex w = pdIndex v → walk mem root w = none) :
    (walk mem root w).map (widened v flags w) = walk mem root w := by
  by_cases same : pdptIndex w = pdptIndex v ∧ pdIndex w = pdIndex v
  · rw [missing same]
    rfl
  · have plain : widened v flags w = id := by
      funext page
      rw [widened,if_neg same]
      rfl
    rw [plain,Option.map_id,id]

theorem tabled_new (low : v < 2^32) (here : Held pae m.mem root [pdptIndex v] pd)
    (found : has (entry m.mem pd (pdIndex v)) pagePresent = false)
    (linked : Linked m after root [pdptIndex v] pd (pdIndex v) (pagePresent ||| pageWrite ||| userBit flags) new) :
    Tabled m after root v pd flags := by
  obtain ⟨top,middle,_⟩ := index_bounds low
  have missing := next_absent found
  have unmapped : ∀ w < 2^32,pdptIndex w = pdptIndex v ∧ pdIndex w = pdIndex v → walk m.mem root w = none := by
    intro w inside same
    cases mapped : walk m.mem root w with
    | none => rfl
    | some page =>
      obtain ⟨_,pt,_,two,_,_⟩ := (walk_iff inside).mp mapped
      rw [same.1,same.2] at two
      obtain ⟨above,held,leads⟩ := (held_two middle).mp two
      rw [held_unique held here,missing] at leads
      cases leads
  refine ⟨(linked.held _ _).mpr (.inl here),?_,?_,?_,?_,?_⟩
  · rw [linked.here,linked.address]
    exact (linked.held _ _).mpr (.inr ⟨rfl,rfl⟩)
  · intro w inside
    rw [map_widened flags v w (unmapped w inside)]
    exact linked_walk linked here Nat.one_lt_two missing inside
  · intro was
    rw [found] at was
    cases was
  · intro _
    rw [linked.here,has_or,has_or,has_or,show has pageWrite pageWrite = true by decide,Bool.or_true,Bool.true_or,Bool.or_true]
  · intro allowed
    rw [linked.here,has_or,has_or,userBit_cases,if_pos allowed,show has pageUser pageUser = true by decide,Bool.or_true,
      Bool.or_true]

theorem set_space (space : Space m root) (here : Held pae m.mem root p a) (low : k < pae.entries p.length) {e : Entry}
    (keeps : p.length < pae.depth → next pae (setEntry m.mem a k e) a k = next pae m.mem a k) :
    Space {m with mem:=setEntry m.mem a k e} root := by
  have held := held_set space.tree here low keeps
  exact ⟨space.sound,tree_congr space.tree fun path table => (held path table).mp,space.home,
    fun path table there => space.real path table ((held path table).mp there),
    fun path table there => space.taken path table ((held path table).mp there)⟩

theorem tabled_user (space : Space m root) (low : v < 2^32) (here : Held pae m.mem root [pdptIndex v] pd)
    (found : has (entry m.mem pd (pdIndex v)) pagePresent = true) (bit : userBit flags = pageUser) {mem : Memory}
    (set : mem = setEntry m.mem pd (pdIndex v) (entry m.mem pd (pdIndex v) ||| pageUser)) :
    Space {m with mem:=mem} root ∧ Tabled m {m with mem:=mem} root v pd flags := by
  obtain ⟨top,middle,_⟩ := index_bounds low
  have leads := next_present found
  have now : entry mem pd (pdIndex v) = (entry m.mem pd (pdIndex v) ||| pageUser) := by rw [set,entry_set]
  obtain ⟨target,presence⟩ := or_keeps (entry m.mem pd (pdIndex v)) flags
  rw [bit,←now] at target presence
  have keeps : next pae mem pd (pdIndex v) = next pae m.mem pd (pdIndex v) := by
    rw [leads,next_present (presence.trans found),target]
  have held : ∀ path table,Held pae mem root path table ↔ Held pae m.mem root path table := by
    rw [set] at keeps ⊢
    exact held_set space.tree here middle (fun _ => keeps)
  have widens : ∀ w < 2^32,walk mem root w = (walk m.mem root w).map (widened v flags w) := by
    intro w inside
    rw [set] at keeps ⊢
    rw [directory_walk space here middle keeps inside]
    cases mapped : walk m.mem root w with
    | none => rw [Option.map_none,Option.map_none]
    | some page =>
      rw [Option.map_some,Option.map_some,widened]
      split
      · rename_i same
        obtain ⟨own,pt,one,_,_,rfl⟩ := (walk_iff inside).mp mapped
        rw [same.1] at one
        rw [held_unique one here,same.2,bit]
      · rfl
  have still : Space {m with mem:=mem} root := by
    rw [set] at keeps ⊢
    exact set_space space here middle (fun _ => keeps)
  refine ⟨still,(held _ _).mpr here,?_,widens,?_,?_,?_⟩
  · dsimp only
    rw [target]
    exact (held _ _).mpr ((held_two middle).mpr ⟨pd,here,leads⟩)
  · intro _
    rw [bit]
    exact now
  · intro was
    rw [found] at was
    cases was
  · intro _
    dsimp only
    rw [now,has_or,show has pageUser pageUser = true by decide,Bool.or_true]

theorem ensurePt_parts (space : Space m root) (low : v < 2^32) (here : Held pae m.mem root [pdptIndex v] pd) (flags : Entry) :
    Kept m (ensurePt m pd v flags).2 ∧ Space (ensurePt m pd v flags).2 root ∧
    ((ensurePt m pd v flags).1 = false ∧ (∀ w < 2^32,walk (ensurePt m pd v flags).2.mem root w = walk m.mem root w) ∨
      (ensurePt m pd v flags).1 = true ∧ Tabled m (ensurePt m pd v flags).2 root v pd flags) := by
  obtain ⟨top,middle,_⟩ := index_bounds low
  unfold ensurePt
  rw [show (flags &&& pageUser) = userBit flags from rfl]
  cases found : has (entry m.mem pd (pdIndex v)) pagePresent with
  | false =>
    rw [if_pos rfl]
    have missing := next_absent found
    have clear : ((pagePresent ||| pageWrite ||| userBit flags) &&& addressMask) = 0#64 ∧
        has (pagePresent ||| pageWrite ||| userBit flags) pagePresent = true := by
      rw [userBit_cases]
      split <;> decide
    have outcome := linkTable_parts space here Nat.one_lt_two middle missing clear.2 clear.1
    generalize linkTable m pd (pdIndex v) (pagePresent ||| pageWrite ||| userBit flags) = answer at *
    obtain ⟨made,after⟩ := answer
    rcases outcome with ⟨failed,kept,still,mem⟩ | ⟨made,new,linked⟩
    · exact ⟨kept,still,.inl ⟨failed,fun w _ => by rw [mem]⟩⟩
    · exact ⟨linked.kept,linked.space,.inr ⟨made,tabled_new low here found linked⟩⟩
  | true =>
    rw [if_neg (by simp)]
    cases allowed : has flags pageUser with
    | false =>
      rw [if_neg (by simp)]
      have nothing : userBit flags = 0#64 := by rw [userBit_cases,allowed]; rfl
      refine ⟨kept_refl m,space,.inr ⟨rfl,here,(held_two middle).mpr ⟨pd,here,next_present found⟩,?_,?_,?_,?_⟩⟩
      · intro w _
        have plain : widened v flags w = id := by
          funext page
          simp [widened,nothing]
        rw [plain,Option.map_id,id]
      · intro _
        rw [nothing,BitVec.or_zero]
      · intro was
        rw [found] at was
        cases was
      · intro asked
        rw [allowed] at asked
        cases asked
    | true =>
      rw [if_pos rfl]
      obtain ⟨still,tabled⟩ := @tabled_user _ _ _ _ flags space low here found (by rw [userBit_cases,allowed]; rfl) _ rfl
      exact ⟨⟨rfl,rfl,rfl,rfl,rfl,fun _ taken => taken⟩,still,.inr ⟨rfl,tabled⟩⟩

-- What every directory entry in use has in common.
def Directories (good : Entry → Prop) (mem : Memory) (root : Nat) : Prop :=
  ∀ i pd j,Held pae mem root [i] pd → j < tableEntries → has (entry mem pd j) pagePresent = true → good (entry mem pd j)

variable {good : Entry → Prop}

theorem directories_linked (all : Directories good m.mem root) (linked : Linked m after root p a k flags new)
    (here : Held pae m.mem root p a)
    (grants : p.length = 1 → new % pageSize = 0 → new < 2^32 → good (BitVec.ofNat 64 new ||| flags)) :
    Directories good after.mem root := by
  intro i pd j one low present
  have aligned := address_aligned (BitVec.ofNat 64 new ||| flags)
  have small := address_small (BitVec.ofNat 64 new ||| flags)
  rw [linked.address] at aligned small
  rcases (linked.held _ _).mp one with old | ⟨_,rfl⟩
  · by_cases same : p = [i] ∧ k = j
    · obtain ⟨rfl,rfl⟩ := same
      rw [held_unique old here,linked.here]
      exact grants rfl aligned small
    · have kept := linked.old _ _ _ old low (fun equal index => same ⟨equal,index⟩)
      rw [kept] at present ⊢
      exact all i pd j old low present
  · rw [linked.empty j low] at present
    cases present

theorem directories_set (all : Directories good m.mem root) (space : Space m root) (here : Held pae m.mem root p a)
    (low : k < pae.entries p.length) {e : Entry}
    (keeps : p.length < pae.depth → next pae (setEntry m.mem a k e) a k = next pae m.mem a k)
    (grants : p.length = 1 → has e pagePresent = true → good e) : Directories good (setEntry m.mem a k e) root := by
  intro i pd j one inside present
  have one := (held_set space.tree here low keeps _ _).mp one
  by_cases same : p = [i] ∧ k = j
  · obtain ⟨rfl,rfl⟩ := same
    rw [held_unique one here,entry_set] at present ⊢
    exact grants rfl present
  · have kept := entry_kept space.tree here one low inside (fun equal index => same ⟨equal,index⟩) e
    rw [kept] at present ⊢
    exact all i pd j one inside present

theorem ensurePd_directories (space : Space m m.active) (all : Directories good m.mem m.active) (low : v < 2^32) :
    Directories good (ensurePd m v).2.mem m.active := by
  obtain ⟨top,_,_⟩ := index_bounds low
  unfold ensurePd
  cases found : has (entry m.mem m.active (pdptIndex v)) pagePresent with
  | true =>
    rw [if_pos rfl]
    exact all
  | false =>
    rw [if_neg (by simp)]
    have here : Held pae m.mem m.active [] m.active := (held_nil ..).mpr rfl
    rcases @linkTable_parts _ _ _ _ _ pagePresent space here (by decide) top (next_absent found) (by decide) (by decide) with
      ⟨_,_,_,mem⟩ | ⟨_,new,linked⟩
    · rw [mem]
      exact all
    · exact directories_linked all linked here fun long => by cases long

theorem ensurePt_directories (space : Space m root) (all : Directories good m.mem root) (low : v < 2^32)
    (here : Held pae m.mem root [pdptIndex v] pd) (flags : Entry)
    (made : ∀ new,new % pageSize = 0 → new < 2^32 → good (BitVec.ofNat 64 new ||| (pagePresent ||| pageWrite ||| userBit flags)))
    (opened : ∀ e,good e → good (e ||| pageUser)) : Directories good (ensurePt m pd v flags).2.mem root := by
  obtain ⟨top,middle,_⟩ := index_bounds low
  unfold ensurePt
  rw [show (flags &&& pageUser) = userBit flags from rfl]
  cases found : has (entry m.mem pd (pdIndex v)) pagePresent with
  | false =>
    rw [if_pos rfl]
    have bits : ((pagePresent ||| pageWrite ||| userBit flags) &&& addressMask) = 0#64 ∧
        has (pagePresent ||| pageWrite ||| userBit flags) pagePresent = true := by
      rw [userBit_cases]
      split <;> decide
    rcases linkTable_parts space here Nat.one_lt_two middle (next_absent found) bits.2 bits.1 with
      ⟨_,_,_,mem⟩ | ⟨_,new,linked⟩
    · rw [mem]
      exact all
    · exact directories_linked all linked here fun _ => made new
  | true =>
    rw [if_neg (by simp)]
    cases allowed : has flags pageUser with
    | false =>
      rw [if_neg (by simp)]
      exact all
    | true =>
      rw [if_pos rfl]
      obtain ⟨target,presence⟩ := or_keeps (entry m.mem pd (pdIndex v)) flags
      rw [userBit_cases,allowed,if_pos rfl] at target presence
      refine directories_set all space here middle (fun _ => ?_) (fun _ _ => ?_)
      · rw [next_present found,next_present (by rw [entry_set,presence,found]),entry_set,target]
      · exact opened _ (all _ pd _ here middle found)

theorem pagingMap_directories (space : Space m m.active) (all : Directories good m.mem m.active) (low : v < 2^32)
    (flags : Entry)
    (made : ∀ new,new % pageSize = 0 → new < 2^32 → good (BitVec.ofNat 64 new ||| (pagePresent ||| pageWrite ||| userBit flags)))
    (opened : ∀ e,good e → good (e ||| pageUser)) (phys : Nat) :
    Directories good (pagingMap m v phys flags).2.mem m.active := by
  obtain ⟨_,_,last⟩ := index_bounds low
  obtain ⟨kept,still,_,directory⟩ := ensurePd_parts space low
  have first := ensurePd_directories space all low
  unfold pagingMap
  generalize ensurePd m v = answer at *
  obtain ⟨found,upper⟩ := answer
  dsimp only at *
  split
  · exact first
  rename_i there
  rw [kept.active]
  have here := directory (by simpa using there)
  generalize address (entry upper.mem m.active (pdptIndex v)) = pd at *
  obtain ⟨_,stillToo,outcome⟩ := ensurePt_parts still low here flags
  have second := ensurePt_directories still first low here flags made opened
  generalize ensurePt upper pd v flags = answer at *
  obtain ⟨tabled,lower⟩ := answer
  dsimp only at *
  split
  · exact second
  rename_i made
  obtain ⟨_,tabled⟩ := outcome.resolve_left fun failed => made failed.1
  exact directories_set second stillToo tabled.table last (fun deeper => absurd deeper (Nat.lt_irrefl 2)) nofun

-- Every directory entry allows writing; what is read-only is so at its leaf.
def Broad (mem : Memory) (root : Nat) : Prop :=
  ∀ i pd j,Held pae mem root [i] pd → j < tableEntries → has (entry mem pd j) pagePresent = true →
    has (entry mem pd j) pageWrite = true

theorem broad_set (broad : Broad m.mem root) (space : Space m root) (here : Held pae m.mem root p a)
    (low : k < pae.entries p.length) {e : Entry}
    (keeps : p.length < pae.depth → next pae (setEntry m.mem a k e) a k = next pae m.mem a k)
    (grants : p.length = 1 → has e pagePresent = true → has e pageWrite = true) : Broad (setEntry m.mem a k e) root :=
  @directories_set _ _ (fun e => has e pageWrite = true) _ _ _ broad space here low _ keeps grants

theorem ensurePd_broad (space : Space m m.active) (broad : Broad m.mem m.active) (low : v < 2^32) :
    Broad (ensurePd m v).2.mem m.active :=
  @ensurePd_directories _ (fun e => has e pageWrite = true) _ space broad low

theorem ensurePt_broad (space : Space m root) (broad : Broad m.mem root) (low : v < 2^32)
    (here : Held pae m.mem root [pdptIndex v] pd) (flags : Entry) : Broad (ensurePt m pd v flags).2.mem root := by
  refine @ensurePt_directories _ _ (fun e => has e pageWrite = true) _ _ space broad low here flags ?_ ?_
  · intro new _ _
    rw [has_or,userBit_cases]
    split
    · rw [show has (pagePresent ||| pageWrite ||| pageUser) pageWrite = true by decide,Bool.or_true]
    · rw [show has (pagePresent ||| pageWrite ||| 0#64) pageWrite = true by decide,Bool.or_true]
  · intro e wide
    rw [has_or,wide,Bool.true_or]

-- paging_map: the page is mapped as asked, or nothing is translated differently. The other
-- pages of the 2 MB may find their directory entry open to ring 3.
structure Mapped (m after : Mmu) (v phys : Nat) (flags : Entry) : Prop where
  others : ∀ w < 2^32,w/pageSize ≠ v/pageSize → walk after.mem m.active w = (walk m.mem m.active w).map (widened v flags w)
  here : ∃ directory,walk after.mem m.active v = some ⟨directory,BitVec.ofNat 64 phys ||| dropNx m flags⟩ ∧
    (Broad m.mem m.active → has directory pageWrite = true) ∧ (has flags pageUser = true → has directory pageUser = true)

-- The same for any flags: without the present flag the leaf that is written maps nothing.
structure Placed (m after : Mmu) (v phys : Nat) (flags : Entry) : Prop where
  others : ∀ w < 2^32,w/pageSize ≠ v/pageSize → walk after.mem m.active w = (walk m.mem m.active w).map (widened v flags w)
  here : ∃ directory,walk after.mem m.active v =
      (if has flags pagePresent = true then some ⟨directory,BitVec.ofNat 64 phys ||| dropNx m flags⟩ else none) ∧
    (Broad m.mem m.active → has directory pageWrite = true) ∧ (has flags pageUser = true → has directory pageUser = true)

theorem dropNx_has (m : Mmu) (flags : Entry) (covered : (~~~pageNx &&& flag) = flag) :
    has (dropNx m flags) flag = has flags flag := by
  unfold dropNx
  split
  · rfl
  · rw [has,has,BitVec.and_assoc,covered]

theorem leaf_space (space : Space m root) (here : Held pae m.mem root [i,j] pt) (low : k < tableEntries) (e : Entry) :
    Space {m with mem:=setEntry m.mem pt k e} root :=
  set_space space here low (fun deeper => absurd deeper (Nat.lt_irrefl 2))

theorem held_present (two : Held pae mem root [i,j] pt) (low : j < tableEntries) (one : Held pae mem root [i] pd) :
    has (entry mem pd j) pagePresent = true := by
  obtain ⟨above,held,leads⟩ := (held_two low).mp two
  cases held_unique held one
  unfold next at leads
  split at leads
  · assumption
  · cases leads

theorem pagingMap_leaf (space : Space m m.active) (low : v < 2^32) (aligned : phys % pageSize = 0) (small : phys < 2^32) (flags : Entry) :
    Kept m (pagingMap m v phys flags).2 ∧ Space (pagingMap m v phys flags).2 m.active ∧
    (Broad m.mem m.active → Broad (pagingMap m v phys flags).2.mem m.active) ∧
    ((pagingMap m v phys flags).1 = false ∧
        (∀ w < 2^32,walk (pagingMap m v phys flags).2.mem m.active w = walk m.mem m.active w) ∨
      (pagingMap m v phys flags).1 = true ∧ Placed m (pagingMap m v phys flags).2 v phys flags) := by
  obtain ⟨_,middle,last⟩ := index_bounds low
  obtain ⟨kept,still,same,directory⟩ := ensurePd_parts space low
  have broadFirst := fun broad => ensurePd_broad space broad low
  unfold pagingMap
  generalize ensurePd m v = answer at *
  obtain ⟨made,first⟩ := answer
  cases made with
  | false => exact ⟨kept,still,broadFirst,.inl ⟨rfl,same⟩⟩
  | true =>
    have here := directory rfl
    dsimp only at *
    rw [if_neg (by simp),kept.active]
    generalize address (entry first.mem m.active (pdptIndex v)) = pd at *
    obtain ⟨keptToo,stillToo,outcome⟩ := ensurePt_parts still low here flags
    have broadSecond := fun broad => ensurePt_broad still broad low here flags
    generalize ensurePt first pd v flags = answer at *
    obtain ⟨made,second⟩ := answer
    have chain := kept_trans kept keptToo
    rcases outcome with ⟨failed,sameToo⟩ | ⟨succeeded,tabled⟩
    · cases failed
      exact ⟨chain,stillToo,fun broad => broadSecond (broadFirst broad),
        .inl ⟨rfl,fun w inside => (sameToo w inside).trans (same w inside)⟩⟩
    · cases succeeded
      dsimp only at *
      rw [if_neg (by simp)]
      dsimp only
      have table := tabled.table
      have linked := held_present table middle tabled.directory
      generalize address (entry second.mem pd (pdIndex v)) = pt at table ⊢
      have nx : dropNx second flags = dropNx m flags := by rw [dropNx,chain.nx,dropNx]
      have marked : has (BitVec.ofNat 64 phys ||| dropNx m flags) pagePresent = has flags pagePresent := by
        rw [frame_has aligned small (by decide),dropNx_has m flags (by decide)]
      obtain ⟨elsewhere,written⟩ := leaf_walk stillToo table low (BitVec.ofNat 64 phys ||| dropNx m flags)
      rw [nx]
      refine ⟨⟨chain.image,chain.active,chain.limit,chain.entries,chain.nx,chain.taken⟩,leaf_space stillToo table last _,
        fun broad => broad_set (broadSecond (broadFirst broad)) stillToo table last
          (fun deeper => absurd deeper (Nat.lt_irrefl 2)) nofun,.inr ⟨rfl,?_,?_⟩⟩
      · intro w inside different
        rw [←same w inside,←tabled.widens w inside]
        exact elsewhere w inside different
      · refine ⟨entry second.mem pd (pdIndex v),?_,?_,tabled.user⟩
        · rw [written pd tabled.directory,marked]
        · exact fun broad => broadSecond (broadFirst broad) _ pd _ tabled.directory middle linked

theorem pagingMap_parts (space : Space m m.active) (low : v < 2^32) (aligned : phys % pageSize = 0) (small : phys < 2^32)
    (present : has flags pagePresent = true) :
    Kept m (pagingMap m v phys flags).2 ∧ Space (pagingMap m v phys flags).2 m.active ∧
    (Broad m.mem m.active → Broad (pagingMap m v phys flags).2.mem m.active) ∧
    ((pagingMap m v phys flags).1 = false ∧
        (∀ w < 2^32,walk (pagingMap m v phys flags).2.mem m.active w = walk m.mem m.active w) ∨
      (pagingMap m v phys flags).1 = true ∧ Mapped m (pagingMap m v phys flags).2 v phys flags) := by
  obtain ⟨kept,still,broad,outcome⟩ := pagingMap_leaf space low aligned small flags
  refine ⟨kept,still,broad,outcome.imp id fun ⟨done,placed⟩ => ⟨done,placed.others,?_⟩⟩
  obtain ⟨directory,translated,rest⟩ := placed.here
  rw [if_pos present] at translated
  exact ⟨directory,translated,rest⟩

theorem pdFor_held (top : pdptIndex v < pdptEntries) (one : Held pae m.mem root [pdptIndex v] pd) : pdFor m root v = pd := by
  have leads := (held_one top).mp one
  unfold pdFor
  cases upper : has (entry m.mem root (pdptIndex v)) pagePresent with
  | true =>
    rw [next_present upper] at leads
    exact Option.some.inj leads
  | false =>
    rw [next_absent upper] at leads
    cases leads

-- Where entry_for finds an entry, and that it finds none where nothing is mapped.
theorem entryFor_held (space : Space m m.active) (low : v < 2^32)
    (two : Held pae m.mem m.active [pdptIndex v,pdIndex v] pt) : entryFor m v = pt+8*ptIndex v ∧ pt ≠ 0 := by
  obtain ⟨top,middle,_⟩ := index_bounds low
  obtain ⟨pd,one,_⟩ := (held_two middle).mp two
  have present := held_present two middle one
  have found := pdFor_held top one
  have target : address (entry m.mem pd (pdIndex v)) = pt := by
    obtain ⟨above,held,leads⟩ := (held_two middle).mp two
    cases held_unique held one
    rw [next_present present] at leads
    exact Option.some.inj leads
  refine ⟨?_,space.real _ pt two⟩
  unfold entryFor
  dsimp only
  rw [found,if_neg (space.real _ pd one),present,if_neg (by simp),target]

theorem entryFor_none (low : v < 2^32)
    (unheld : ∀ pt,¬ Held pae m.mem m.active [pdptIndex v,pdIndex v] pt) : entryFor m v = 0 := by
  obtain ⟨top,middle,_⟩ := index_bounds low
  unfold entryFor pdFor
  dsimp only
  cases upper : has (entry m.mem m.active (pdptIndex v)) pagePresent with
  | false => rfl
  | true =>
    rw [if_pos rfl]
    split
    · rfl
    · split
      · rfl
      · rename_i lower
        have one := (held_one top).mpr (next_present upper)
        exact absurd ((held_two middle).mpr ⟨_,one,next_present (by simpa using lower)⟩) (unheld _)

-- paging_set_flags rewrites one leaf, if there is a table to hold it.
def reflag (flags : Entry) (page : Page) : Page := ⟨page.directory,(page.leaf &&& addressMask) ||| flags⟩

structure Reflagged (m after : Mmu) (v : Nat) (flags : Entry) : Prop where
  kept : Kept m after
  space : Space after m.active
  broad : Broad m.mem m.active → Broad after.mem m.active
  held : ∀ path table,Held pae after.mem m.active path table ↔ Held pae m.mem m.active path table
  others : ∀ w < 2^32,w/pageSize ≠ v/pageSize → walk after.mem m.active w = walk m.mem m.active w
  here : ∀ page,walk m.mem m.active v = some page → walk after.mem m.active v = some (reflag flags page)
  missing : (∀ pt,¬ Held pae m.mem m.active [pdptIndex v,pdIndex v] pt) → walk after.mem m.active v = none

theorem walk_none (low : v < 2^32) (unheld : ∀ pt,¬ Held pae mem root [pdptIndex v,pdIndex v] pt) : walk mem root v = none := by
  cases found : walk mem root v with
  | none => rfl
  | some page =>
    obtain ⟨_,pt,_,two,_⟩ := (walk_iff low).mp found
    exact absurd two (unheld pt)

theorem setFlags_parts (space : Space m m.active) (low : v < 2^32) (present : has flags pagePresent = true) :
    Reflagged m (pagingSetFlags m v flags) v flags := by
  obtain ⟨_,middle,last⟩ := index_bounds low
  by_cases exist : ∃ pt,Held pae m.mem m.active [pdptIndex v,pdIndex v] pt
  · obtain ⟨pt,two⟩ := exist
    obtain ⟨found,real⟩ := entryFor_held space low two
    have written : pagingSetFlags m v flags = {m with
        mem:=setEntry m.mem pt (ptIndex v) ((entry m.mem pt (ptIndex v) &&& addressMask) ||| flags)} := by
      unfold pagingSetFlags
      rw [found]
      dsimp only
      rw [if_neg (by omega)]
      rfl
    rw [written]
    obtain ⟨pd,one,_⟩ := (held_two middle).mp two
    obtain ⟨others,here⟩ := leaf_walk space two low ((entry m.mem pt (ptIndex v) &&& addressMask) ||| flags)
    refine ⟨⟨rfl,rfl,rfl,rfl,rfl,fun _ taken => taken⟩,leaf_space space two last _,?_,?_,others,?_,fun none => absurd two (none pt)⟩
    · exact fun broad => broad_set broad space two last (fun deeper => absurd deeper (Nat.lt_irrefl 2)) nofun
    · exact held_set space.tree two last (fun deeper => absurd deeper (Nat.lt_irrefl 2))
    · intro page found
      obtain ⟨own,table,first,second,_,rfl⟩ := (walk_iff low).mp found
      cases held_unique first one
      cases held_unique second two
      rw [here _ one,if_pos (by rw [has_or,present,Bool.or_true]),reflag]
  · have unheld : ∀ pt,¬ Held pae m.mem m.active [pdptIndex v,pdIndex v] pt := fun pt held => exist ⟨pt,held⟩
    have unchanged : pagingSetFlags m v flags = m := by
      unfold pagingSetFlags
      rw [entryFor_none low unheld]
      rfl
    rw [unchanged]
    refine ⟨kept_refl m,space,id,fun _ _ => Iff.rfl,fun _ _ _ => rfl,?_,fun _ => walk_none low unheld⟩
    intro page found
    rw [walk_none low unheld] at found
    cases found

-- One page of paging_make_user.
structure Opened (m after : Mmu) (v : Nat) (flags : Entry) : Prop where
  kept : Kept m after
  space : Space after m.active
  broad : Broad m.mem m.active → Broad after.mem m.active
  held : ∀ path table,Held pae after.mem m.active path table ↔ Held pae m.mem m.active path table
  others : ∀ w < 2^32,w/pageSize ≠ v/pageSize → walk after.mem m.active w = (walk m.mem m.active w).map (widened v pageUser w)
  here : ∀ page,walk m.mem m.active v = some page →
    walk after.mem m.active v = some ⟨page.directory ||| pageUser,(page.leaf &&& addressMask) ||| dropNx m flags⟩
  missing : (∀ pt,¬ Held pae m.mem m.active [pdptIndex v,pdIndex v] pt) → walk after.mem m.active v = none

theorem userBit_user : userBit pageUser = pageUser := by decide

-- The directory entry first, present or not.
theorem openDirectory (space : Space m m.active) (low : v < 2^32) (one : Held pae m.mem m.active [pdptIndex v] pd)
    {mem : Memory} (set : mem = setEntry m.mem pd (pdIndex v) (entry m.mem pd (pdIndex v) ||| pageUser)) :
    Space {m with mem:=mem} m.active ∧ (Broad m.mem m.active → Broad mem m.active) ∧
    (∀ path table,Held pae mem m.active path table ↔ Held pae m.mem m.active path table) ∧
    ∀ w < 2^32,walk mem m.active w = (walk m.mem m.active w).map (widened v pageUser w) := by
  obtain ⟨_,middle,_⟩ := index_bounds low
  obtain ⟨target,presence⟩ := or_keeps (entry m.mem pd (pdIndex v)) pageUser
  rw [userBit_user] at target presence
  have keeps : next pae (setEntry m.mem pd (pdIndex v) (entry m.mem pd (pdIndex v) ||| pageUser)) pd (pdIndex v) =
      next pae m.mem pd (pdIndex v) := by
    rw [next,entry_set]
    change (if has _ pagePresent = true then some (address _) else none) = _
    rw [presence,target]
    rfl
  subst set
  refine ⟨set_space space one middle (fun _ => keeps),?_,held_set space.tree one middle (fun _ => keeps),?_⟩
  · intro broad
    refine broad_set broad space one middle (fun _ => keeps) (fun _ present => ?_)
    rw [presence] at present
    rw [has_or,broad _ pd _ one middle present,Bool.true_or]
  · intro w inside
    rw [directory_walk space one middle keeps inside]
    cases mapped : walk m.mem m.active w with
    | none => rw [Option.map_none,Option.map_none]
    | some page =>
      rw [Option.map_some,Option.map_some,widened]
      split
      · rename_i same
        obtain ⟨own,pt,first,_,_,rfl⟩ := (walk_iff inside).mp mapped
        rw [same.1] at first
        rw [held_unique first one,same.2,userBit_user]
      · rfl

theorem widened_here (v : Nat) (page : Page) : widened v pageUser v page = ⟨page.directory ||| pageUser,page.leaf⟩ := by
  rw [widened,if_pos ⟨rfl,rfl⟩,userBit_user]

theorem makeUserPage_parts (space : Space m m.active) (low : v < 2^32) (present : has flags pagePresent = true) :
    Opened m (makeUserPage flags m v) v flags := by
  obtain ⟨top,middle,_⟩ := index_bounds low
  have marked : has (dropNx m flags) pagePresent = true := by rw [dropNx_has m flags (by decide),present]
  unfold makeUserPage
  dsimp only
  by_cases exist : ∃ pd,Held pae m.mem m.active [pdptIndex v] pd
  · obtain ⟨pd,one⟩ := exist
    rw [pdFor_held top one,if_neg (space.real _ pd one)]
    obtain ⟨still,broad,held,widens⟩ := openDirectory space low one rfl
    generalize setEntry m.mem pd (pdIndex v) (entry m.mem pd (pdIndex v) ||| pageUser) = mem at *
    have flagged := setFlags_parts (m:={m with mem:=mem}) still low marked
    refine ⟨⟨flagged.kept.image,flagged.kept.active,flagged.kept.limit,flagged.kept.entries,flagged.kept.nx,
      flagged.kept.taken⟩,flagged.space,fun old => flagged.broad (broad old),
      fun path table => (flagged.held path table).trans (held path table),?_,?_,?_⟩
    · intro w inside different
      exact (flagged.others w inside different).trans (widens w inside)
    · intro page found
      have opened := widens v low
      rw [found,Option.map_some,widened_here] at opened
      exact flagged.here _ opened
    · intro unheld
      exact flagged.missing fun pt two => unheld pt ((held _ _).mp two)
  · have absent : pdFor m m.active v = 0 := by
      unfold pdFor
      cases upper : has (entry m.mem m.active (pdptIndex v)) pagePresent with
      | false => rfl
      | true => exact absurd ⟨_,(held_one top).mpr (next_present upper)⟩ exist
    have unheld : ∀ j pt,¬ Held pae m.mem m.active [pdptIndex v,j] pt := by
      intro j pt two
      rcases held_snoc pae m.mem m.active pt [pdptIndex v] j |>.mp two with ⟨above,one,_⟩
      exact exist ⟨above,one⟩
    rw [absent,if_pos rfl]
    have flagged := setFlags_parts space low marked
    refine ⟨flagged.kept,flagged.space,flagged.broad,flagged.held,?_,?_,flagged.missing⟩
    · intro w inside different
      rw [flagged.others w inside different,map_widened]
      rintro ⟨same,_⟩
      exact walk_none inside (by rw [same]; exact unheld _)
    · intro page found
      rw [walk_none low (unheld _)] at found
      cases found

end Arthic.PageTables
