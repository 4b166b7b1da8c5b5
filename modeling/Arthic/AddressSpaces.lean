import Arthic.PageTables

namespace Arthic.AddressSpaces
open ByteMemory PageTree PageTables Paging Pmm Unsigned
variable {m after : Mmu}

-- The kernel's own directory, as paging_init leaves it and everything else finds it.
structure KernelSpace (m : Mmu) : Prop where
  space : Space m m.image.kernelPdpt
  directory : Held pae m.mem m.image.kernelPdpt [0] m.image.kernelPd
  broad : Broad m.mem m.image.kernelPdpt
  entries : m.kernelPdEntries ≤ tableEntries

theorem directories_same (good : Entry → Prop) (all : Directories good mem root)
    (same : ∀ path table,Held pae mem root path table → ∀ x < span pae path,later (table+x) = mem (table+x)) :
    Directories good later root := by
  intro i pd j one low present
  have before := (held_congr same _ _).mp one
  rw [entry_same same before low] at present ⊢
  exact all i pd j before low present

-- Memory may change where none of its tables lies.
theorem kernel_congr (kernel : KernelSpace m) (fixed : after.image = m.image ∧ after.kernelPdEntries = m.kernelPdEntries)
    (sound : Sound after.frames)
    (same : ∀ path table,Held pae m.mem m.image.kernelPdpt path table → ∀ x < span pae path,after.mem (table+x) = m.mem (table+x))
    (taken : ∀ path table,Held pae m.mem m.image.kernelPdpt path table → Taken after.frames table) : KernelSpace after := by
  obtain ⟨image,entries⟩ := fixed
  have held := held_congr same
  refine ⟨?_,?_,?_,?_⟩
  · rw [image]
    exact space_congr kernel.space sound same taken
  · rw [image]
    exact (held _ _).mpr kernel.directory
  · rw [image]
    exact directories_same (fun e => has e pageWrite = true) kernel.broad same
  · rw [entries]
    exact kernel.entries

-- What a new address space starts with: the kernel's pages, as far as its entries are copied.
def inherited (m : Mmu) (v : Nat) : Option Page :=
  if pdptIndex v = 0 ∧ pdIndex v < m.kernelPdEntries then walk m.mem m.image.kernelPdpt v else none

-- The loop that copies directory entries from one page to another.
theorem copy_parts (mem : Memory) (apart : Apart pd (8*tableEntries) source (8*tableEntries)) (few : n ≤ tableEntries) :
    let copied := (List.range n).foldl (fun mem i => setEntry mem pd i (entry mem source i)) mem
    (∀ x,x < pd ∨ pd+8*tableEntries ≤ x → copied x = mem x) ∧
    ∀ i < tableEntries,entry copied pd i = if i < n then entry mem source i else entry mem pd i := by
  intro copied
  obtain ⟨outside,inside⟩ := @fold_entries pd n (fun mem i => entry mem source i) mem (by
    intro other same i below
    apply entry_congr
    intro x small
    apply same
    simp only [Apart,tableEntries] at *
    omega)
  refine ⟨fun x away => outside x (by omega),?_⟩
  intro i below
  by_cases earlier : i < n
  · rw [if_pos earlier]
    exact inside i earlier
  · rw [if_neg earlier]
    apply entry_congr
    intro x small
    exact outside _ (by omega)

theorem held_shapes (held : Held pae mem root path table) :
    path = [] ∧ table = root ∨ (∃ i < pdptEntries,path = [i] ∧ next pae mem root i = some table) ∨
    ∃ i j,i < pdptEntries ∧ j < tableEntries ∧ path = [i,j] ∧ ∃ pd,next pae mem root i = some pd ∧
      next pae mem pd j = some table := by
  match path,held with
  | [],held => exact .inl ⟨rfl,(held_nil ..).mp held⟩
  | [i],held =>
    have low : i < pdptEntries := held.range 0 (by simp)
    exact .inr (.inl ⟨i,low,rfl,(held_one low).mp held⟩)
  | [i,j],held =>
    have low : i < pdptEntries := held.range 0 (by simp)
    have middle : j < tableEntries := held.range 1 (by simp)
    obtain ⟨pd,one,leads⟩ := (held_two middle).mp held
    exact .inr (.inr ⟨i,j,low,middle,rfl,pd,(held_one low).mp one,leads⟩)
  | _::_::_::_,held =>
    have short := held.short
    simp only [List.length_cons,pae] at short
    omega

-- A PDPT with one directory, and tables below it that lie on pages of their own.
theorem one_directory {mem : Memory} {frames : State 32} (sound : Sound frames) (home : root % 32 = 0) (aligned : pd % pageSize = 0)
    (apart : root/pageSize ≠ pd/pageSize) (real : root ≠ 0 ∧ pd ≠ 0) (taken : Taken frames root ∧ Taken frames pd)
    (top : next pae mem root 0 = some pd) (rest : ∀ i,0 < i → i < pdptEntries → next pae mem root i = none)
    (tables : ∀ j < tableEntries,∀ pt,next pae mem pd j = some pt → pt ≠ 0 ∧ Taken frames pt ∧
      pt/pageSize ≠ root/pageSize ∧ pt/pageSize ≠ pd/pageSize)
    (distinct : ∀ j < tableEntries,∀ l < tableEntries,∀ pt,next pae mem pd j = some pt → next pae mem pd l = some pt → j = l) :
    Space {m with mem:=mem,frames:=frames} root := by
  have shapes : ∀ path table,Held pae mem root path table → path = [] ∧ table = root ∨ path = [0] ∧ table = pd ∨
      ∃ j < tableEntries,path = [0,j] ∧ next pae mem pd j = some table := by
    intro path table held
    rcases held_shapes held with empty | ⟨i,low,rfl,leads⟩ | ⟨i,j,low,middle,rfl,above,upper,lower⟩
    · exact .inl empty
    · rcases Nat.eq_zero_or_pos i with rfl | later
      · rw [top] at leads
        exact .inr (.inl ⟨rfl,(Option.some.inj leads).symm⟩)
      · rw [rest i later low] at leads
        cases leads
    · rcases Nat.eq_zero_or_pos i with rfl | later
      · rw [top] at upper
        cases Option.some.inj upper
        exact .inr (.inr ⟨j,middle,rfl,lower⟩)
      · rw [rest i later low] at upper
        cases upper
  -- each table as the page it lies on, so that different pages are enough
  have page : ∀ path table,Held pae mem root path table →
      (path = [] ∧ table = root ∨ table % pageSize = 0) ∧ span pae path ≤ pageSize ∧ (path = [] → span pae path = 32) := by
    intro path table held
    cases path using List.reverseRecOn with
    | nil => exact ⟨.inl ⟨rfl,(held_nil ..).mp held⟩,by decide,fun _ => rfl⟩
    | append_singleton path k =>
      refine ⟨.inr (held_aligned held),by rw [span_below],fun empty => ?_⟩
      simp at empty
  have separate : ∀ p q a b,Held pae mem root p a → Held pae mem root q b → a/pageSize ≠ b/pageSize →
      Apart a (span pae p) b (span pae q) := by
    intro p q a b first second different
    obtain ⟨kindA,shortA,rootA⟩ := page p a first
    obtain ⟨kindB,shortB,rootB⟩ := page q b second
    simp only [Apart,pageSize] at *
    rcases kindA with ⟨rfl,rfl⟩ | alignedA <;> rcases kindB with ⟨rfl,rfl⟩ | alignedB
    · exact absurd rfl different
    · have := rootA rfl
      omega
    · have := rootB rfl
      omega
    · omega
  refine ⟨sound,?_,home,?_,?_⟩
  · intro p q a b first second different
    apply separate p q a b first second
    rcases shapes p a first with ⟨rfl,rfl⟩ | ⟨rfl,rfl⟩ | ⟨j,lowJ,rfl,leadsA⟩ <;>
      rcases shapes q b second with ⟨rfl,rfl⟩ | ⟨rfl,rfl⟩ | ⟨l,lowL,rfl,leadsB⟩
    · exact absurd rfl different
    · exact apart
    · exact (tables l lowL b leadsB).2.2.1.symm
    · exact apart.symm
    · exact absurd rfl different
    · exact (tables l lowL b leadsB).2.2.2.symm
    · exact (tables j lowJ a leadsA).2.2.1
    · exact (tables j lowJ a leadsA).2.2.2
    · intro same
      have equal : a = b := by
        have alignedA := @held_aligned _ _ [0] _ _ first
        have alignedB := @held_aligned _ _ [0] _ _ second
        simp only [pageSize] at *
        omega
      subst equal
      exact different (by rw [distinct j lowJ l lowL a leadsA leadsB])
  · intro path table held
    rcases shapes path table held with ⟨_,rfl⟩ | ⟨_,rfl⟩ | ⟨j,low,_,leads⟩
    · exact real.1
    · exact real.2
    · exact (tables j low table leads).1
  · intro path table held
    rcases shapes path table held with ⟨_,rfl⟩ | ⟨_,rfl⟩ | ⟨j,low,_,leads⟩
    · exact taken.1
    · exact taken.2
    · exact (tables j low table leads).2.1

theorem directories_one {good : Entry → Prop} (top : next pae mem root 0 = some pd)
    (rest : ∀ i,0 < i → i < pdptEntries → next pae mem root i = none)
    (all : ∀ j < tableEntries,has (entry mem pd j) pagePresent = true → good (entry mem pd j)) : Directories good mem root := by
  intro i own j one low present
  have first : i = 0 := by
    rcases Nat.eq_zero_or_pos i with zero | later
    · exact zero
    · have bound : i < pdptEntries := one.range 0 (by simp)
      have leads := (held_one bound).mp one
      rw [rest i later bound] at leads
      cases leads
  subst first
  cases held_unique one ((held_one (by decide)).mpr top)
  exact all j low present

theorem kernel_one (space : Space m m.image.kernelPdpt)
    (top : next pae m.mem m.image.kernelPdpt 0 = some m.image.kernelPd)
    (rest : ∀ i,0 < i → i < pdptEntries → next pae m.mem m.image.kernelPdpt i = none)
    (writable : ∀ j < tableEntries,has (entry m.mem m.image.kernelPd j) pagePresent = true →
      has (entry m.mem m.image.kernelPd j) pageWrite = true) (few : m.kernelPdEntries ≤ tableEntries) : KernelSpace m :=
  ⟨space,(held_one (by decide)).mpr top,@directories_one _ _ _ (fun e => has e pageWrite = true) top rest writable,few⟩

section Fresh
variable {mem : Memory} {frames : State 32} {dir pd : Nat}

-- Two new pages, one for the PDPT and one for the directory, and memory as
-- paging_create_address_space leaves it.
structure Fresh (m : Mmu) (mem : Memory) (frames : State 32) (dir pd : Nat) : Prop where
  sound : Sound frames
  more : ∀ addr,Taken m.frames addr → Taken frames addr
  taken : Taken frames dir ∧ Taken frames pd
  free : ∀ addr,Taken m.frames addr → addr/pageSize ≠ dir/pageSize ∧ addr/pageSize ≠ pd/pageSize
  aligned : dir % pageSize = 0 ∧ pd % pageSize = 0
  different : dir ≠ pd
  real : dir ≠ 0 ∧ pd ≠ 0
  outside : ∀ x,x/pageSize ≠ dir/pageSize → x/pageSize ≠ pd/pageSize → mem x = m.mem x
  top : next pae mem dir 0 = some pd
  rest : ∀ i,0 < i → i < pdptEntries → next pae mem dir i = none
  copied : ∀ j < tableEntries,entry mem pd j = if j < m.kernelPdEntries then entry m.mem m.image.kernelPd j else 0#64

theorem fresh_same (kernel : KernelSpace m) (fresh : Fresh m mem frames dir pd) :
    ∀ path table,Held pae m.mem m.image.kernelPdpt path table → ∀ x < span pae path,mem (table+x) = m.mem (table+x) := by
  intro path table held x below
  obtain ⟨apartDir,apartPd⟩ := fresh.free table (kernel.space.taken path table held)
  have inside : (table+x)/pageSize = table/pageSize := by
    cases path using List.reverseRecOn with
    | nil =>
      cases (held_nil ..).mp held
      have home := kernel.space.home
      rw [span_root] at below
      simp only [pageSize]
      omega
    | append_singleton path k =>
      have aligned := held_aligned held
      rw [span_below] at below
      simp only [pageSize] at *
      omega
  exact fresh.outside _ (by rw [inside]; exact apartDir) (by rw [inside]; exact apartPd)

theorem fresh_next (fresh : Fresh m mem frames dir pd) (low : j < tableEntries) :
    next pae mem pd j = if j < m.kernelPdEntries then next pae m.mem m.image.kernelPd j else none := by
  rw [next,fresh.copied j low]
  split
  · rfl
  · rw [pae.absent]
    rfl

theorem fresh_held (kernel : KernelSpace m) (fresh : Fresh m mem frames dir pd) (held : Held pae mem dir path table) :
    path = [] ∧ table = dir ∨ path = [0] ∧ table = pd ∨
    ∃ j < m.kernelPdEntries,path = [0,j] ∧ Held pae m.mem m.image.kernelPdpt [0,j] table := by
  rcases held_shapes held with root | ⟨i,low,rfl,leads⟩ | ⟨i,j,low,middle,rfl,above,upper,lower⟩
  · exact .inl root
  · rcases Nat.eq_zero_or_pos i with rfl | later
    · rw [fresh.top] at leads
      exact .inr (.inl ⟨rfl,(Option.some.inj leads).symm⟩)
    · rw [fresh.rest i later low] at leads
      cases leads
  · rcases Nat.eq_zero_or_pos i with rfl | later
    · rw [fresh.top] at upper
      cases Option.some.inj upper
      rw [fresh_next fresh middle] at lower
      split at lower
      · rename_i copied
        exact .inr (.inr ⟨j,copied,rfl,(held_two middle).mpr ⟨_,kernel.directory,lower⟩⟩)
      · cases lower
    · rw [fresh.rest i later low] at upper
      cases upper

theorem fresh_space (kernel : KernelSpace m) (fresh : Fresh m mem frames dir pd) :
    Space {m with mem:=mem,frames:=frames} dir := by
  obtain ⟨alignedDir,alignedPd⟩ := fresh.aligned
  have old : ∀ j < tableEntries,∀ pt,next pae mem pd j = some pt →
      Held pae m.mem m.image.kernelPdpt [0,j] pt := by
    intro j low pt leads
    rw [fresh_next fresh low] at leads
    split at leads
    · exact (held_two low).mpr ⟨_,kernel.directory,leads⟩
    · cases leads
  refine one_directory fresh.sound ?_ alignedPd ?_ fresh.real fresh.taken fresh.top fresh.rest ?_ ?_
  · simp only [pageSize] at alignedDir
    omega
  · have := fresh.different
    simp only [pageSize] at *
    omega
  · intro j low pt leads
    have held := old j low pt leads
    have taken := kernel.space.taken _ pt held
    exact ⟨kernel.space.real _ pt held,fresh.more pt taken,fresh.free pt taken⟩
  · intro j low l lowToo pt first second
    by_contra different
    have apart := kernel.space.tree _ _ pt pt (old j low pt first) (old l lowToo pt second)
      (fun equal => different (List.singleton_inj.mp (List.cons_eq_cons.mp equal).2))
    rw [show span pae [0,j] = pageSize from span_below [0] j,show span pae [0,l] = pageSize from span_below [0] l] at apart
    simp only [Apart,pageSize] at apart
    omega

theorem fresh_walk (kernel : KernelSpace m) (fresh : Fresh m mem frames dir pd) (low : v < 2^32) :
    walk mem dir v = inherited m v := by
  obtain ⟨top,middle,last⟩ := index_bounds low
  unfold inherited
  by_cases first : pdptIndex v = 0
  · unfold walk
    rw [first,fresh.top,(held_one (by decide)).mp kernel.directory,Option.bind_some,Option.bind_some,fresh_next fresh middle]
    by_cases copied : pdIndex v < m.kernelPdEntries
    · rw [if_pos copied,if_pos ⟨rfl,copied⟩,fresh.copied _ middle,if_pos copied]
      cases leads : next pae m.mem m.image.kernelPd (pdIndex v) with
      | none => rw [Option.bind_none,Option.bind_none]
      | some pt =>
        have two : Held pae m.mem m.image.kernelPdpt [0,pdIndex v] pt :=
          (held_two middle).mpr ⟨_,kernel.directory,leads⟩
        rw [Option.bind_some,Option.bind_some,entry_same (fresh_same kernel fresh) two last]
    · rw [if_neg copied,if_neg (fun both => copied both.2),Option.bind_none]
  · rw [if_neg (fun both => first both.1)]
    unfold walk
    rw [fresh.rest _ (by omega) top,Option.bind_none]

theorem fresh_directories {good : Entry → Prop} (kernel : KernelSpace m) (fresh : Fresh m mem frames dir pd)
    (all : Directories good m.mem m.image.kernelPdpt) : Directories good mem dir := by
  intro i own j one low present
  rcases fresh_held kernel fresh one with ⟨empty,_⟩ | ⟨_,rfl⟩ | ⟨_,_,long,_⟩
  · cases empty
  · rw [fresh.copied j low] at present ⊢
    split at present
    · rename_i copied
      rw [if_pos copied]
      exact all 0 _ j kernel.directory low present
    · cases present
  · cases long

theorem fresh_broad (kernel : KernelSpace m) (fresh : Fresh m mem frames dir pd) : Broad mem dir :=
  @fresh_directories _ _ _ _ _ (fun e => has e pageWrite = true) kernel fresh kernel.broad

theorem fresh_kernel (kernel : KernelSpace m) (fresh : Fresh m mem frames dir pd) :
    KernelSpace {m with mem:=mem,frames:=frames} :=
  @kernel_congr _ {m with mem:=mem,frames:=frames} kernel ⟨rfl,rfl⟩ fresh.sound (fresh_same kernel fresh)
    fun path table held => fresh.more table (kernel.space.taken path table held)

end Fresh

theorem fill_entry (inside : page ≤ table+8*k ∧ table+8*k+8 ≤ page+count) (mem : Memory) :
    entry (fill mem page count 0#8) table k = 0#64 := by
  apply entry_zero
  intro x below
  exact patch_inside _ _ (by omega) (by omega)

-- Memory after the two kmemsets, the copy loop and the PDPT entry.
theorem created_memory (mem : Memory) (alignedDir : dir % pageSize = 0) (alignedPd : pd % pageSize = 0)
    (alignedSource : source % pageSize = 0) (different : dir ≠ pd) (apartDir : source ≠ dir) (apartPd : source ≠ pd)
    (few : n ≤ tableEntries) (e : Entry) :
    let cleared := fill (fill mem dir pageSize 0#8) pd pageSize 0#8
    let copied := (List.range n).foldl (fun mem i => setEntry mem pd i (entry mem source i)) cleared
    (∀ x,x/pageSize ≠ dir/pageSize → x/pageSize ≠ pd/pageSize → setEntry copied dir 0 e x = mem x) ∧
    (∀ i,0 < i → i < pdptEntries → entry (setEntry copied dir 0 e) dir i = 0#64) ∧
    ∀ j < tableEntries,entry (setEntry copied dir 0 e) pd j = if j < n then entry mem source j else 0#64 := by
  intro cleared copied
  have pages : dir/pageSize ≠ pd/pageSize ∧ source/pageSize ≠ dir/pageSize ∧ source/pageSize ≠ pd/pageSize := by
    simp only [pageSize] at *
    omega
  obtain ⟨outside,inside⟩ := @copy_parts pd source _ cleared
    (by simp only [Apart,tableEntries,pageSize] at *; omega) few
  change (∀ x,_ → copied x = cleared x) at outside
  change (∀ i < tableEntries,entry copied pd i = _) at inside
  have untouched : ∀ x,x/pageSize ≠ dir/pageSize → x/pageSize ≠ pd/pageSize → cleared x = mem x := by
    intro x awayDir awayPd
    refine (patch_outside _ _ ?_).trans (patch_outside _ _ ?_)
    all_goals
      simp only [pageSize] at *
      omega
  refine ⟨?_,?_,?_⟩
  · intro x awayDir awayPd
    rw [setEntry,store,patch_outside,outside,untouched x awayDir awayPd]
    all_goals
      simp only [pageSize,tableEntries] at *
      omega
  · intro i positive low
    have same : entry copied dir i = entry (fill mem dir pageSize 0#8) dir i := by
      apply entry_congr
      intro x below
      rw [outside _ (by simp only [pageSize,tableEntries,pdptEntries] at *; omega)]
      apply patch_outside
      simp only [pageSize,pdptEntries] at *
      omega
    rw [entry_set_apart _ _ (by omega),same,fill_entry]
    simp only [pageSize,pdptEntries] at *
    omega
  · intro j low
    have source_same : entry cleared source j = entry mem source j := by
      apply entry_congr
      intro x below
      apply untouched
      all_goals
        simp only [pageSize,tableEntries] at *
        omega
    have blank : entry cleared pd j = 0#64 := by
      apply fill_entry
      simp only [pageSize,tableEntries] at *
      omega
    rw [entry_set_apart _ _ (by simp only [pageSize,tableEntries] at *; omega),inside j low,source_same,blank]

theorem create_fresh (kernel : KernelSpace m) (made : (pagingCreateAddressSpace m).1 ≠ 0) :
    ∃ mem frames pd,(pagingCreateAddressSpace m).2 = {m with mem:=mem,frames:=frames} ∧
      Fresh m mem frames (pagingCreateAddressSpace m).1 pd := by
  unfold pagingCreateAddressSpace at *
  rcases allocFrame_parts kernel.space.sound with full | ⟨one,below,free,taken⟩
  · rw [full] at made
    exact absurd rfl made
  rw [taken] at made ⊢
  dsimp only at *
  by_cases zero : one*pageSize = 0
  · rw [if_pos zero] at made
    exact absurd rfl made
  rw [if_neg zero] at made ⊢
  have sound := claim_sound kernel.space.sound below free
  rcases allocFrame_parts sound with full | ⟨two,belowToo,freeToo,takenToo⟩
  · rw [full] at made
    exact absurd rfl made
  rw [takenToo] at made ⊢
  dsimp only at *
  by_cases zeroToo : two*pageSize = 0
  · rw [if_pos zeroToo] at made
    exact absurd rfl made
  rw [if_neg zeroToo]
  have number : ∀ frame,frame*pageSize/pageSize = frame := fun frame => by simp [pageSize]
  rw [claim_test (by decide),Bool.or_eq_false_iff,decide_eq_false_iff_not] at freeToo
  obtain ⟨different,freeToo⟩ := freeToo
  have claimed : ∀ frames frame,Taken (claim frames frame) (frame*pageSize) := by
    intro frames frame
    refine .inr ?_
    rw [number,claim_test (by decide)]
    simp
  have kernelPd := fun frame (clear : frameTest m.frames frame = false) (inside : frame < m.frames.totalFrames) =>
    frame_free clear inside _ (kernel.space.taken _ _ kernel.directory)
  have first := kernelPd one free below
  have second := kernelPd two freeToo belowToo
  rw [number] at first second
  have small : two*pageSize < 2^32 := sound.address_small belowToo
  obtain ⟨outside,rest,copied⟩ := created_memory m.mem (Nat.mul_mod_left one pageSize) (Nat.mul_mod_left two pageSize)
    m.image.aligned.2 (by simp only [pageSize]; omega) (by rintro equal; rw [equal,number] at first; exact first rfl)
    (by rintro equal; rw [equal,number] at second; exact second rfl) kernel.entries
    (BitVec.ofNat 64 (two*pageSize) ||| pagePresent)
  have target : address (BitVec.ofNat 64 (two*pageSize) ||| pagePresent) = two*pageSize :=
    address_frame (Nat.mul_mod_left two pageSize) small (by decide)
  refine ⟨_,_,two*pageSize,rfl,⟨claim_sound sound belowToo (by rw [claim_test (by decide),freeToo]; simp [different]),?_,?_,?_,
    ⟨Nat.mul_mod_left _ _,Nat.mul_mod_left _ _⟩,by simp only [pageSize]; omega,⟨zero,zeroToo⟩,outside,?_,?_,copied⟩⟩
  · exact fun addr held => claim_taken _ _ (claim_taken _ _ held)
  · exact ⟨claim_taken _ _ (claimed _ _),claimed _ _⟩
  · exact fun addr held => ⟨frame_free free below addr held,frame_free freeToo belowToo addr held⟩
  · rw [next_present,entry_set,target]
    rw [entry_set,frame_has (Nat.mul_mod_left two pageSize) small (by decide)]
    decide
  · intro i positive low
    apply next_absent
    rw [rest i positive low]
    decide

theorem create_parts (kernel : KernelSpace m) (made : (pagingCreateAddressSpace m).1 ≠ 0) :
    Kept m (pagingCreateAddressSpace m).2 ∧ KernelSpace (pagingCreateAddressSpace m).2 ∧
    Space (pagingCreateAddressSpace m).2 (pagingCreateAddressSpace m).1 ∧
    Broad (pagingCreateAddressSpace m).2.mem (pagingCreateAddressSpace m).1 ∧
    ∀ v < 2^32,walk (pagingCreateAddressSpace m).2.mem (pagingCreateAddressSpace m).1 v = inherited m v := by
  obtain ⟨mem,frames,pd,equal,fresh⟩ := create_fresh kernel made
  rw [equal]
  exact ⟨⟨rfl,rfl,rfl,rfl,rfl,fresh.more⟩,fresh_kernel kernel fresh,fresh_space kernel fresh,fresh_broad kernel fresh,
    fun v low => fresh_walk kernel fresh low⟩

end Arthic.AddressSpaces
