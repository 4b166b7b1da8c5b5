import Arthic.AddressSpaces
import Arthic.PmmOwnership

namespace Arthic.KernelMap
open AddressSpaces ByteMemory PageTree PageTables Paging Pmm PmmOwnership Unsigned
variable {m after : Mmu}

def identityLeaf (i k : Nat) : Entry := BitVec.ofNat 64 (i*pdCoverage+k*pageSize) ||| pagePresent ||| pageWrite
def tableEntry (pt : Nat) : Entry := BitVec.ofNat 64 pt ||| pagePresent ||| pageWrite

-- After n turns of the loop in paging_init: n page tables on pages of their own, each
-- complete, each in the directory, and nothing else there.
structure Built (m now : Mmu) (n : Nat) (pts : Nat → Nat) : Prop where
  kept : Kept m now
  sound : Sound now.frames
  tables : ∀ i < n,pts i ≠ 0 ∧ pts i % pageSize = 0 ∧ pts i < 2^32 ∧ Taken now.frames (pts i) ∧ ¬ Taken m.frames (pts i)
  distinct : ∀ i < n,∀ j < n,pts i = pts j → i = j
  directory : ∀ j < tableEntries,
    entry now.mem m.image.kernelPd j = if j < n then tableEntry (pts j) else 0#64
  leaves : ∀ i < n,∀ k < tableEntries,entry now.mem (pts i) k = identityLeaf i k
  top : ∀ i < pdptEntries,entry now.mem m.image.kernelPdpt i = 0#64

-- The pages of the two static tables are not the allocator's to give.
structure Seated (m : Mmu) : Prop where
  sound : Sound m.frames
  pdpt : Taken m.frames m.image.kernelPdpt
  pd : Taken m.frames m.image.kernelPd

theorem image_real (image : Image) : image.kernelPdpt ≠ 0 ∧ image.kernelPd ≠ 0 ∧
    image.kernelPdpt/pageSize ≠ image.kernelPd/pageSize := by
  obtain ⟨low,_,_⟩ := image.text
  obtain ⟨_,_,_,_⟩ := image.bss
  obtain ⟨_,_⟩ := image.aligned
  have loaded := image.loaded
  have apart := image.apart
  simp only [Apart,pdptEntries,tableEntries,kernelStart,pageSize] at *
  omega

theorem identity_wrap (low : i < tableEntries) (inside : k < tableEntries) :
    wrap 32 (i*pdCoverage+k*pageSize) = i*pdCoverage+k*pageSize := by
  apply wrap_small
  simp only [tableEntries,pdCoverage,pageSize] at *
  omega

-- One turn's writes: a page of leaves, then one directory entry.
theorem identity_memory (mem : Memory) (alignedPt : pt % pageSize = 0) (alignedPd : pd % pageSize = 0) (apart : pt ≠ pd)
    (few : n < tableEntries) :
    let filled := (List.range tableEntries).foldl (fun mem j => setEntry mem pt j
      (BitVec.ofNat 64 (wrap 32 (n*pdCoverage+j*pageSize)) ||| pagePresent ||| pageWrite)) mem
    let after := setEntry filled pd n (BitVec.ofNat 64 pt ||| pagePresent ||| pageWrite)
    (∀ k < tableEntries,entry after pt k = identityLeaf n k) ∧
    (∀ t k,t % 8 = 0 → (t+8*k)/pageSize ≠ pt/pageSize → t+8*k ≠ pd+8*n → entry after t k = entry mem t k) ∧
    entry after pd n = tableEntry pt := by
  intro filled after
  obtain ⟨outside,inside⟩ := @fold_entries pt tableEntries
    (fun _ j => BitVec.ofNat 64 (wrap 32 (n*pdCoverage+j*pageSize)) ||| pagePresent ||| pageWrite) mem (fun _ _ _ _ => rfl)
  change (∀ x,_ → filled x = mem x) at outside
  change (∀ i < tableEntries,entry filled pt i = _) at inside
  refine ⟨?_,?_,entry_set _ _ _ _⟩
  · intro k low
    refine (entry_set_apart _ _ (by simp only [pageSize,tableEntries] at *; omega)).trans ?_
    rw [inside k low,identity_wrap few low,identityLeaf]
  · intro t k aligned page different
    refine (entry_set_apart _ _ (by simp only [pageSize] at *; omega)).trans ?_
    apply entry_congr
    intro x below
    apply outside
    simp only [pageSize,tableEntries] at *
    omega

theorem identityTable_parts (seated : Seated m) (built : Built m now n pts) (few : n < tableEntries)
    (made : identityTable now n = some after) : ∃ pt,Built m after (n+1) (Function.update pts n pt) := by
  unfold identityTable at made
  rcases allocFrame_parts built.sound with full | ⟨frame,below,free,taken⟩
  · rw [full] at made
    cases made
  rw [taken] at made
  dsimp only at made
  by_cases zero : frame*pageSize = 0
  · rw [if_pos zero] at made
    cases made
  rw [if_neg zero] at made
  cases Option.some.inj made
  have number : frame*pageSize/pageSize = frame := by simp [pageSize]
  have fresh : ∀ addr,Taken now.frames addr → addr/pageSize ≠ frame*pageSize/pageSize := frame_free free below
  have unheld : ¬ Taken now.frames (frame*pageSize) := fun held => fresh _ held rfl
  have awayPd := fresh _ (built.kept.taken _ seated.pd)
  have awayPdpt := fresh _ (built.kept.taken _ seated.pdpt)
  obtain ⟨alignedPdpt,alignedPd⟩ := m.image.aligned
  obtain ⟨_,_,separate⟩ := image_real m.image
  have different : frame*pageSize ≠ m.image.kernelPd := by
    rintro equal
    rw [equal] at awayPd
    exact awayPd rfl
  have image := built.kept.image
  rw [←image] at different alignedPd
  obtain ⟨leaves,elsewhere,here⟩ := identity_memory (n:=n) now.mem (Nat.mul_mod_left frame pageSize) alignedPd different few
  generalize setEntry (List.foldl _ now.mem (List.range tableEntries)) now.image.kernelPd n _ = mem at *
  rw [image] at alignedPd elsewhere here
  have kept : Kept m {now with mem:=mem,frames:=claim now.frames frame} :=
    ⟨image,built.kept.active,built.kept.limit,built.kept.entries,built.kept.nx,
      fun addr held => claim_taken _ _ (built.kept.taken addr held)⟩
  refine ⟨frame*pageSize,kept,claim_sound built.sound below free,?_,?_,?_,?_,?_⟩
  · intro i lower
    by_cases last : i = n
    · subst last
      rw [Function.update_self]
      refine ⟨zero,Nat.mul_mod_left _ _,built.sound.address_small below,.inr ?_,fun held => unheld (built.kept.taken _ held)⟩
      rw [number]
      change frameTest (claim now.frames frame) frame = true
      rw [claim_test (by decide)]
      simp
    · rw [Function.update_of_ne last]
      obtain ⟨real,aligned,small,held,fresh⟩ := built.tables i (by omega)
      exact ⟨real,aligned,small,claim_taken _ _ held,fresh⟩
  · intro i lowI j lowJ same
    by_cases lastI : i = n <;> by_cases lastJ : j = n
    · omega
    · rw [lastI,Function.update_self,Function.update_of_ne lastJ] at same
      exact absurd (same ▸ (built.tables j (by omega)).2.2.2.1) unheld
    · rw [lastJ,Function.update_self,Function.update_of_ne lastI] at same
      exact absurd (same ▸ (built.tables i (by omega)).2.2.2.1) unheld
    · rw [Function.update_of_ne lastI,Function.update_of_ne lastJ] at same
      exact built.distinct i (by omega) j (by omega) same
  · intro j low
    by_cases last : j = n
    · subst last
      rw [if_pos (by omega),Function.update_self]
      exact here
    · dsimp only
      rw [elsewhere _ _ (by simp only [pageSize] at *; omega) (by simp only [pageSize,tableEntries] at *; omega) (by omega),
        built.directory j low,Function.update_of_ne last]
      by_cases earlier : j < n
      · rw [if_pos earlier,if_pos (by omega)]
      · rw [if_neg earlier,if_neg (by omega)]
  · intro i lower k low
    by_cases last : i = n
    · subst last
      rw [Function.update_self]
      exact leaves k low
    · rw [Function.update_of_ne last]
      obtain ⟨_,aligned,_,held,new⟩ := built.tables i (by omega)
      have other := fresh _ held
      have notPd : pts i ≠ m.image.kernelPd := fun equal => new (equal ▸ seated.pd)
      dsimp only
      rw [elsewhere _ _ (by simp only [pageSize] at *; omega) (by simp only [pageSize,tableEntries] at *; omega)
        (by simp only [pageSize,tableEntries] at *; omega)]
      exact built.leaves i (by omega) k low
  · intro i low
    dsimp only
    rw [elsewhere _ _ (by omega) (by simp only [pageSize,pdptEntries] at *; omega)
      (by simp only [pageSize,pdptEntries,tableEntries] at *; omega)]
    exact built.top i low

theorem identityTables_parts (seated : Seated m) (built : Built m now n pts) (few : n+count ≤ tableEntries)
    (made : (List.range' n count).foldlM identityTable now = some after) : ∃ pts,Built m after (n+count) pts := by
  induction count generalizing now n pts with
  | zero =>
    cases Option.some.inj made
    exact ⟨pts,built⟩
  | succ count ih =>
    rw [List.range'_succ,List.foldlM_cons] at made
    obtain ⟨middle,first,rest⟩ := Option.bind_eq_some_iff.mp made
    obtain ⟨pt,next⟩ := identityTable_parts seated built (by omega) first
    obtain ⟨pts,done⟩ := ih next (by omega) rest
    exact ⟨pts,by rw [show n+(count+1) = n+1+count by omega]; exact done⟩

theorem blank_built (m : Mmu) (nx : Bool) (sound : Sound m.frames) : Built (blankTables m nx) (blankTables m nx) 0 fun _ => 0 := by
  obtain ⟨_,_,separate⟩ := image_real m.image
  obtain ⟨alignedPdpt,alignedPd⟩ := m.image.aligned
  refine ⟨kept_refl _,sound,nofun,nofun,?_,nofun,?_⟩
  · intro j low
    rw [if_neg (by omega)]
    apply fill_entry
    dsimp only [blankTables]
    omega
  · intro i low
    have same : entry (blankTables m nx).mem m.image.kernelPdpt i =
        entry (fill m.mem m.image.kernelPdpt (8*pdptEntries) 0#8) m.image.kernelPdpt i := by
      apply entry_congr
      intro x below
      refine @patch_outside _ m.image.kernelPd (8*tableEntries) _ (fun _ => 0#8) ?_
      simp only [pageSize,pdptEntries,tableEntries] at *
      omega
    refine same.trans (fill_entry ?_ _)
    omega

-- Which pages are open to ring 3. A leaf that is finds its directory entry so as well.
structure Charted (m : Mmu) (opened : Nat → Prop) : Prop where
  kernel : KernelSpace m
  active : m.active = m.image.kernelPdpt
  limit : m.mappedLimit = m.kernelPdEntries*pdCoverage
  mapped : ∀ v < m.mappedLimit,∃ page,walk m.mem m.active v = some page ∧
    (has page.leaf pageUser = true ↔ opened (v/pageSize)) ∧ (has page.leaf pageUser = true → has page.directory pageUser = true)
  unmapped : ∀ v < 2^32,m.mappedLimit ≤ v → ∀ pt,¬ Held pae m.mem m.active [pdptIndex v,pdIndex v] pt

theorem limit_index (few : n ≤ tableEntries) (v : Nat) :
    v < n*pdCoverage ↔ pdptIndex v = 0 ∧ pdIndex v < n := by
  simp only [pdptIndex,pdIndex,pdCoverage,tableEntries] at *
  omega

theorem tableEntry_parts (aligned : pt % pageSize = 0) (small : pt < 2^32) :
    has (tableEntry pt) pagePresent = true ∧ address (tableEntry pt) = pt ∧ has (tableEntry pt) pageWrite = true := by
  rw [tableEntry,BitVec.or_assoc]
  refine ⟨?_,address_frame aligned small (by decide),?_⟩ <;>
  · rw [frame_has aligned small (by decide)]
    decide

theorem identityLeaf_parts (low : i < tableEntries) (inside : k < tableEntries) :
    has (identityLeaf i k) pagePresent = true ∧ has (identityLeaf i k) pageUser = false := by
  have aligned : (i*pdCoverage+k*pageSize) % pageSize = 0 := by
    simp only [pdCoverage,pageSize]
    omega
  have small : i*pdCoverage+k*pageSize < 2^32 := by
    simp only [pdCoverage,pageSize,tableEntries] at *
    omega
  rw [identityLeaf,BitVec.or_assoc]
  refine ⟨?_,?_⟩ <;>
  · rw [frame_has aligned small (by decide)]
    decide

-- Tables that lead from the first n directory entries' addresses to themselves, closed to
-- ring 3, and from nowhere else.
structure IdentityTables (m : Mmu) (n : Nat) (pts : Nat → Nat) : Prop where
  few : n ≤ tableEntries
  active : m.active = m.image.kernelPdpt
  limit : m.mappedLimit = n*pdCoverage
  entries : m.kernelPdEntries = n
  top : next pae m.mem m.image.kernelPdpt 0 = some m.image.kernelPd
  rest : ∀ i,0 < i → i < pdptEntries → next pae m.mem m.image.kernelPdpt i = none
  tables : ∀ j < tableEntries,next pae m.mem m.image.kernelPd j = if j < n then some (pts j) else none
  leaves : ∀ i < n,∀ k < tableEntries,entry m.mem (pts i) k = identityLeaf i k

theorem identity_walk (mapped : IdentityTables m n pts) (below : v < n*pdCoverage) :
    ∃ directory,walk m.mem m.image.kernelPdpt v = some ⟨directory,identityLeaf (pdIndex v) (ptIndex v)⟩ := by
  have held : Held pae m.mem m.image.kernelPdpt [0] m.image.kernelPd := (held_one (by decide)).mpr mapped.top
  rw [limit_index mapped.few] at below
  obtain ⟨first,inside⟩ := below
  have low : v < 2^32 := by
    simp only [pdptIndex] at first
    omega
  obtain ⟨_,middle,last⟩ := index_bounds low
  have two : Held pae m.mem m.image.kernelPdpt [0,pdIndex v] (pts (pdIndex v)) := by
    refine (held_two middle).mpr ⟨_,held,?_⟩
    rw [mapped.tables _ middle,if_pos inside]
  have present := (identityLeaf_parts middle last).1
  rw [←mapped.leaves _ inside _ last] at present ⊢
  exact ⟨_,(walk_iff low).mpr ⟨_,_,by rw [first]; exact held,by rw [first]; exact two,present,rfl⟩⟩

theorem identity_charted (mapped : IdentityTables m n pts) (kernel : KernelSpace m) : Charted m fun _ => False := by
  have held : Held pae m.mem m.image.kernelPdpt [0] m.image.kernelPd := (held_one (by decide)).mpr mapped.top
  refine ⟨kernel,mapped.active,by rw [mapped.limit,mapped.entries],?_,?_⟩
  · intro v below
    rw [mapped.limit] at below
    have indices := (limit_index mapped.few v).mp below
    obtain ⟨directory,found⟩ := identity_walk mapped below
    have closed := (identityLeaf_parts (Nat.lt_of_lt_of_le indices.2 mapped.few) (Nat.mod_lt (v/2^12) (by decide))).2
    refine ⟨_,by rw [mapped.active]; exact found,?_⟩
    change (has (identityLeaf (pdIndex v) (v/2^12 % tableEntries)) pageUser = true ↔ False) ∧
      (has (identityLeaf (pdIndex v) (v/2^12 % tableEntries)) pageUser = true → _)
    rw [closed]
    exact ⟨⟨fun wrong => absurd wrong Bool.false_ne_true,False.elim⟩,fun wrong => absurd wrong Bool.false_ne_true⟩
  · intro v low above pt two
    rw [mapped.limit] at above
    obtain ⟨bound,middle,_⟩ := index_bounds low
    rw [mapped.active] at two
    obtain ⟨pd,one,leads⟩ := (held_two middle).mp two
    rcases Nat.eq_zero_or_pos (pdptIndex v) with zero | later
    · rw [zero] at one
      cases held_unique one held
      rw [mapped.tables _ middle] at leads
      split at leads
      · rename_i inside
        have := (limit_index mapped.few v).mpr ⟨zero,inside⟩
        omega
      · cases leads
    · have none := (held_one bound).mp one
      rw [mapped.rest _ later bound] at none
      cases none

section Install
variable {built : Mmu} {n : Nat} {pts : Nat → Nat}

-- The one PDPT entry changes nothing in the directory and its tables.
theorem install_entries (seated : Seated m) (done : Built m built n pts) (few : n ≤ tableEntries) :
    (∀ j < tableEntries,entry (installDirectory built n).mem m.image.kernelPd j = if j < n then tableEntry (pts j) else 0#64) ∧
    (∀ i < n,∀ k < tableEntries,entry (installDirectory built n).mem (pts i) k = identityLeaf i k) ∧
    next pae (installDirectory built n).mem m.image.kernelPdpt 0 = some m.image.kernelPd ∧
    ∀ i,0 < i → i < pdptEntries → next pae (installDirectory built n).mem m.image.kernelPdpt i = none := by
  obtain ⟨_,_,separate⟩ := image_real m.image
  obtain ⟨alignedPdpt,alignedPd⟩ := m.image.aligned
  have small : m.image.kernelPd < 2^32 := by
    obtain ⟨_,_,_,_⟩ := m.image.bss
    have fits := m.image.fits
    omega
  unfold installDirectory
  dsimp only
  rw [done.kept.image]
  refine ⟨?_,?_,?_,?_⟩
  · intro j low
    rw [entry_set_apart _ _ (by simp only [pageSize,tableEntries] at *; omega)]
    exact done.directory j low
  · intro i lower k low
    obtain ⟨_,aligned,_,_,new⟩ := done.tables i lower
    have other : pts i/pageSize ≠ m.image.kernelPdpt/pageSize := by
      intro same
      refine new ?_
      rw [Taken,same]
      exact seated.pdpt
    rw [entry_set_apart _ _ (by simp only [pageSize,tableEntries] at *; omega)]
    exact done.leaves i lower k low
  · have target : address (BitVec.ofNat 64 m.image.kernelPd ||| pagePresent) = m.image.kernelPd :=
      address_frame alignedPd small (by decide)
    rw [next_present,entry_set,target]
    rw [entry_set,frame_has alignedPd small (by decide)]
    decide
  · intro i positive low
    apply next_absent
    rw [entry_set_apart _ _ (by omega),done.top i low]
    decide

theorem install_next (seated : Seated m) (done : Built m built n pts) (few : n ≤ tableEntries) (low : j < tableEntries) :
    next pae (installDirectory built n).mem m.image.kernelPd j = if j < n then some (pts j) else none := by
  obtain ⟨directory,_⟩ := install_entries seated done few
  by_cases inside : j < n
  · obtain ⟨_,aligned,small,_⟩ := done.tables j inside
    obtain ⟨present,target,_⟩ := tableEntry_parts aligned small
    have here := directory j low
    rw [if_pos inside] at here ⊢
    rw [next_present (by rw [here,present]),here,target]
  · have here := directory j low
    rw [if_neg inside] at here ⊢
    apply next_absent
    rw [here]
    decide

theorem install_kernel (seated : Seated m) (done : Built m built n pts) (few : n ≤ tableEntries) :
    KernelSpace (installDirectory built n) := by
  obtain ⟨directory,_,top,rest⟩ := install_entries seated done few
  obtain ⟨realPdpt,realPd,separate⟩ := image_real m.image
  obtain ⟨alignedPdpt,alignedPd⟩ := m.image.aligned
  have image : (installDirectory built n).image = m.image := done.kept.image
  have space : Space (installDirectory built n) m.image.kernelPdpt := by
    refine @one_directory (installDirectory built n) _ _ ((installDirectory built n).mem) ((installDirectory built n).frames) done.sound alignedPdpt alignedPd separate ⟨realPdpt,realPd⟩
      ⟨done.kept.taken _ seated.pdpt,done.kept.taken _ seated.pd⟩ top rest ?_ ?_
    · intro j low pt leads
      rw [install_next seated done few low] at leads
      split at leads
      · rename_i inside
        cases Option.some.inj leads
        obtain ⟨real,_,_,taken,new⟩ := done.tables j inside
        refine ⟨real,taken,?_,?_⟩
        · intro same
          refine new ?_
          rw [Taken,same]
          exact seated.pdpt
        · intro same
          refine new ?_
          rw [Taken,same]
          exact seated.pd
      · cases leads
    · intro j low l lowToo pt first second
      rw [install_next seated done few low] at first
      rw [install_next seated done few lowToo] at second
      split at first
      · rename_i insideJ
        split at second
        · rename_i insideL
          exact done.distinct j insideJ l insideL ((Option.some.inj first).trans (Option.some.inj second).symm)
        · cases second
      · cases first
  refine kernel_one (by rw [image]; exact space) (by rw [image]; exact top) (by rw [image]; exact rest) ?_ few
  rw [image]
  intro j low present
  rw [directory j low] at present ⊢
  split at present
  · rename_i inside
    obtain ⟨_,aligned,small,_⟩ := done.tables j inside
    rw [if_pos inside]
    exact (tableEntry_parts aligned small).2.2
  · cases present

theorem install_identity (seated : Seated m) (done : Built m built n pts) (few : n ≤ tableEntries)
    (active : m.active = m.image.kernelPdpt) : IdentityTables (installDirectory built n) n pts := by
  obtain ⟨_,leaves,top,rest⟩ := install_entries seated done few
  have image : (installDirectory built n).image = m.image := done.kept.image
  have root : (installDirectory built n).active = m.image.kernelPdpt := done.kept.active.trans active
  have bound : (installDirectory built n).mappedLimit = n*pdCoverage := by
    apply wrap_small
    simp only [tableEntries,pdCoverage] at *
    omega
  refine ⟨few,by rw [root,image],bound,rfl,?_,?_,?_,leaves⟩
  · rw [image]
    exact top
  · rw [image]
    exact rest
  · rw [image]
    exact fun j low => install_next seated done few low

theorem install_charted (seated : Seated m) (done : Built m built n pts) (few : n ≤ tableEntries)
    (active : m.active = m.image.kernelPdpt) : Charted (installDirectory built n) fun _ => False :=
  identity_charted (install_identity seated done few active) (install_kernel seated done few)

end Install

theorem charted_same (charted : Charted m opened) (kept : Kept m after) (kernel : KernelSpace after)
    (held : ∀ path table,Held pae after.mem m.active path table ↔ Held pae m.mem m.active path table)
    (now : ∀ v < m.mappedLimit,∀ page,walk m.mem m.active v = some page →
      (has page.leaf pageUser = true ↔ opened (v/pageSize)) → (has page.leaf pageUser = true → has page.directory pageUser = true) →
      ∃ new,walk after.mem m.active v = some new ∧ (has new.leaf pageUser = true ↔ closed (v/pageSize)) ∧
        (has new.leaf pageUser = true → has new.directory pageUser = true)) : Charted after closed := by
  refine ⟨kernel,by rw [kept.active,kept.image,charted.active],by rw [kept.limit,kept.entries,charted.limit],?_,?_⟩
  · intro v below
    rw [kept.limit] at below
    obtain ⟨page,found,user,wide⟩ := charted.mapped v below
    rw [kept.active]
    exact now v below page found user wide
  · intro v low above pt two
    rw [kept.limit] at above
    rw [kept.active] at two
    exact charted.unmapped v low above pt ((held _ _).mp two)

theorem charted_kernel (charted : Charted m opened) (kept : Kept m after) (space : Space after m.active)
    (broad : Broad m.mem m.active → Broad after.mem m.active)
    (held : ∀ path table,Held pae after.mem m.active path table ↔ Held pae m.mem m.active path table) : KernelSpace after := by
  have root : m.active = after.image.kernelPdpt := by rw [kept.image,charted.active]
  have kernel := charted.kernel
  refine ⟨by rw [←root]; exact space,?_,by rw [←root]; exact broad (by rw [charted.active]; exact kernel.broad),
    by rw [kept.entries]; exact kernel.entries⟩
  rw [←root,kept.image]
  refine (held _ _).mpr ?_
  rw [charted.active]
  exact kernel.directory

theorem limit_small (charted : Charted m opened) : m.mappedLimit ≤ 2^30 := by
  have few := charted.kernel.entries
  rw [charted.limit]
  simp only [tableEntries,pdCoverage] at *
  omega

theorem charted_space (charted : Charted m opened) : Space m m.active := by
  rw [charted.active]
  exact charted.kernel.space

theorem readOnly_charted (charted : Charted m opened) (low : a < 2^32) (closed : ¬ opened (a/pageSize)) :
    Charted (readOnly m a) opened := by
  have flagged : Reflagged m (readOnly m a) a pagePresent := setFlags_parts (charted_space charted) low (by decide)
  refine charted_same charted flagged.kept (charted_kernel charted flagged.kept flagged.space flagged.broad flagged.held)
    flagged.held ?_
  intro v below page found user wide
  have limit := limit_small charted
  by_cases here : v/pageSize = a/pageSize
  · rw [walk_page here] at found
    have kernelOnly : has (reflag pagePresent page).leaf pageUser = false := by
      rw [reflag,has_or,has_and _ _ _ (by decide)]
      decide
    refine ⟨reflag pagePresent page,by rw [walk_page here]; exact flagged.here page found,?_⟩
    rw [kernelOnly,here]
    exact ⟨⟨fun wrong => absurd wrong Bool.false_ne_true,fun open_ => absurd open_ closed⟩,
      fun wrong => absurd wrong Bool.false_ne_true⟩
  · exact ⟨page,(flagged.others v (by omega) here).trans found,user,wide⟩

theorem makeUserPage_charted (charted : Charted m opened) (low : a < 2^32) (present : has flags pagePresent = true)
    (user : has flags pageUser = true) : Charted (makeUserPage flags m a) fun n => opened n ∨ n = a/pageSize := by
  have done : Opened m (makeUserPage flags m a) a flags := makeUserPage_parts (charted_space charted) low present
  refine charted_same charted done.kept (charted_kernel charted done.kept done.space done.broad done.held) done.held ?_
  intro v below page found before wide
  have limit := limit_small charted
  by_cases here : v/pageSize = a/pageSize
  · rw [walk_page here] at found ⊢
    refine ⟨_,done.here page found,?_⟩
    have leaf : has ((page.leaf &&& addressMask) ||| dropNx m flags) pageUser = true := by
      rw [has_or,dropNx_has m flags (by decide),user,Bool.or_true]
    have directory : has (page.directory ||| pageUser) pageUser = true := by
      rw [has_or,show has pageUser pageUser = true by decide,Bool.or_true]
    exact ⟨⟨fun _ => .inr here,fun _ => leaf⟩,fun _ => directory⟩
  · refine ⟨widened a pageUser v page,by rw [done.others v (by omega) here,found,Option.map_some],?_⟩
    unfold widened
    split
    · refine ⟨⟨fun on => .inl (before.mp on),fun on => before.mpr (on.resolve_right here)⟩,?_⟩
      intro on
      rw [has_or,wide on,Bool.true_or]
    · exact ⟨⟨fun on => .inl (before.mp on),fun on => before.mpr (on.resolve_right here)⟩,wide⟩

-- The loops, page by page.
def Among (pages : List Nat) (number : Nat) : Prop := ∃ a ∈ pages,number = a/pageSize

theorem readOnly_fold {pages : List Nat} (charted : Charted m fun _ => False) (low : ∀ a ∈ pages,a < 2^32) :
    Charted (pages.foldl readOnly m) (fun _ => False) ∧ Kept m (pages.foldl readOnly m) := by
  induction pages generalizing m with
  | nil => exact ⟨charted,kept_refl m⟩
  | cons a rest ih =>
    have below := low a (by simp)
    have flagged : Reflagged m (readOnly m a) a pagePresent := setFlags_parts (charted_space charted) below (by decide)
    obtain ⟨done,kept⟩ := ih (readOnly_charted charted below nofun) fun b member => low b (List.mem_cons_of_mem _ member)
    exact ⟨done,kept_trans flagged.kept kept⟩

theorem makeUser_fold {pages : List Nat} (charted : Charted m opened) (low : ∀ a ∈ pages,a < 2^32)
    (present : has flags pagePresent = true) (user : has flags pageUser = true) :
    Charted (pages.foldl (makeUserPage flags) m) (fun n => opened n ∨ Among pages n) ∧
      Kept m (pages.foldl (makeUserPage flags) m) := by
  induction pages generalizing m opened with
  | nil => exact ⟨by simpa [Among] using charted,kept_refl m⟩
  | cons a rest ih =>
    have below := low a (by simp)
    have opens : Opened m (makeUserPage flags m a) a flags := makeUserPage_parts (charted_space charted) below present
    have first := makeUserPage_charted charted below present user
    obtain ⟨done,kept⟩ := ih first fun b member => low b (List.mem_cons_of_mem _ member)
    exact ⟨by simpa [Among,or_assoc] using done,kept_trans opens.kept kept⟩

theorem mem_pagesFrom : a ∈ pagesFrom start end_ ↔ ∃ i,start+i*pageSize < end_ ∧ a = start+i*pageSize := by
  have bound (i : Nat) : i < (end_-start+pageSize-1)/pageSize ↔ start+i*pageSize < end_ := by
    simp only [pageSize]
    omega
  simp only [pagesFrom,List.mem_map,List.mem_range,bound]
  constructor
  · rintro ⟨i,inside,rfl⟩
    exact ⟨i,inside,rfl⟩
  · rintro ⟨i,inside,rfl⟩
    exact ⟨i,inside,rfl⟩

theorem among_pages (aligned : start % pageSize = 0 ∧ end_ % pageSize = 0) (n : Nat) :
    Among (pagesFrom start end_) n ↔ start ≤ n*pageSize ∧ n*pageSize < end_ := by
  constructor
  · rintro ⟨a,member,rfl⟩
    obtain ⟨i,inside,rfl⟩ := mem_pagesFrom.mp member
    simp only [pageSize] at *
    omega
  · rintro ⟨above,below⟩
    refine ⟨n*pageSize,mem_pagesFrom.mpr ⟨n-start/pageSize,?_⟩,by simp [pageSize]⟩
    simp only [pageSize] at *
    omega

theorem makeUser_charted (charted : Charted m opened) (aligned : start % pageSize = 0 ∧ end_ % pageSize = 0)
    (low : end_ ≤ 2^32) (writable : Bool) :
    Charted (pagingMakeUser m start end_ writable) (fun n => opened n ∨ start ≤ n*pageSize ∧ n*pageSize < end_) ∧
      Kept m (pagingMakeUser m start end_ writable) := by
  have whole : roundDown start = start := by
    simp only [roundDown,pageSize] at *
    omega
  have inside (a : Nat) (member : a ∈ pagesFrom start end_) : a < 2^32 := by
    obtain ⟨i,below,rfl⟩ := mem_pagesFrom.mp member
    omega
  unfold pagingMakeUser
  rw [whole]
  dsimp only
  simp only [←among_pages aligned]
  cases writable with
  | true => exact makeUser_fold charted inside (by decide) (by decide)
  | false => exact makeUser_fold charted inside (by decide) (by decide)

-- After paging_init everything below the limit is mapped and nothing is open to ring 3.
theorem init_charted (seated : Seated m) (made : pagingInit m nx = some after) :
    Charted after (fun _ => False) ∧ after.image = m.image ∧ ∀ addr,Taken m.frames addr → Taken after.frames addr := by
  unfold pagingInit at made
  dsimp only at made
  rw [Option.map_eq_some_iff] at made
  obtain ⟨built,loops,rfl⟩ := made
  have few : pdNeeded m.frames ≤ tableEntries := Nat.min_le_right _ _
  have blank : Seated (blankTables m nx) := ⟨seated.sound,seated.pdpt,seated.pd⟩
  rw [List.range_eq_range'] at loops
  obtain ⟨pts,done⟩ := identityTables_parts blank (blank_built m nx seated.sound) (by omega) loops
  rw [Nat.zero_add] at done
  have image : built.image = m.image := done.kept.image
  obtain ⟨_,_,_,_⟩ := m.image.bss
  have fits := m.image.fits
  have low (a : Nat) (member : a ∈ pagesFrom (roundDown built.image.kernelTextStart) (roundUp built.image.kernelRodataEnd)) :
      a < 2^32 := by
    obtain ⟨i,below,rfl⟩ := mem_pagesFrom.mp member
    rw [image] at below ⊢
    have up : roundUp m.image.kernelRodataEnd < 2^32 := by
      rw [roundUp,wrap_small (by simp only [pageSize] at *; omega)]
      simp only [pageSize] at *
      omega
    omega
  obtain ⟨charted,kept⟩ := readOnly_fold (install_charted blank done few rfl) low
  exact ⟨charted,kept.image.trans image,fun addr held => kept.taken addr (done.kept.taken addr held)⟩

-- What pmm_init reserves covers the two static tables.
-- Nothing below the end of the kernel is free.
theorem booted_taken (boot : Booted m.image.kernelEnd mbi m.frames) (below : addr < m.image.kernelEnd) : Taken m.frames addr := by
  obtain ⟨low,_,_⟩ := m.image.text
  obtain ⟨_,_,_,_⟩ := m.image.bss
  have loaded := m.image.loaded
  have fits := m.image.fits
  have sound := booted_sound boot
  have linked : PmmOwnership.Linked 32 m.image.kernelEnd m.frames.totalFrames := by
    have total := sound.addressable
    refine ⟨?_,?_⟩
    · simp only [tableEntries] at *
      omega
    · simp only [pageSize] at *
      omega
  by_cases counted : addr/pageSize < m.frames.totalFrames
  · by_cases above : kernelStart ≤ addr
    · refine .inr (booted_reserved boot counted (.inr (.inr ⟨linked,.inl ?_⟩)))
      simp only [pageSize,kernelStart] at *
      omega
    · have low : addr/pageSize*pageSize < kernelStart := by
        simp only [pageSize,kernelStart] at *
        omega
      exact .inr (booted_reserved boot counted (.inl low))
  · exact .inl (by omega)

theorem booted_seated (boot : Booted m.image.kernelEnd mbi m.frames) : Seated m := by
  obtain ⟨_,_,_,_⟩ := m.image.bss
  simp only [pdptEntries,tableEntries] at *
  exact ⟨booted_sound boot,booted_taken boot (by omega),booted_taken boot (by omega)⟩

end Arthic.KernelMap
