import Arthic.LongTables

namespace Arthic.WriteExecute64
open ByteMemory LongTables PageTree Paging64 Pmm PmmOwnership Transition Unsigned
open Paging (has pagePresent pageWrite pageUser pageNx)
open PageTables (has_or has_and)
variable {m after : Mmu}

-- The tables are a tree of pages that the allocator has given out, and an entry that
-- leads nowhere has no address in it.
structure Sane (m : Mmu) : Prop where
  sound : Sound m.frames
  nameable : Nameable m.frames
  tree : Tree long m.mem m.pml4
  aligned : ∀ path table,Held long m.mem m.pml4 path table → table % pageSize = 0
  real : ∀ path table,Held long m.mem m.pml4 path table → table ≠ 0
  taken : ∀ path table,Held long m.mem m.pml4 path table → frameTest m.frames (table/pageSize) = true
  clear : ∀ path table,Held long m.mem m.pml4 path table → path.length < 3 → ∀ k < entries,
    has (entry m.mem table k) pagePresent = false → address (entry m.mem table k) = 0

theorem sane_formed (sane : Sane m) : Formed m := ⟨sane.tree,sane.aligned,sane.real⟩

-- A free frame is no table.
theorem free_fresh (sane : Sane m) (clear : frameTest m.frames frame = false) (held : Held long m.mem m.pml4 path table) :
    table ≠ frame*pageSize := by
  rintro rfl
  have taken := sane.taken path _ held
  rw [show frame*pageSize/pageSize = frame by simp [pageSize],clear] at taken
  cases taken

-- The tables may grow, and ring 3 may be let through them; what is mapped stays.
structure Grown (m after : Mmu) : Prop where
  sane : Sane after
  root : after.pml4 = m.pml4
  limit : after.mappedLimit = m.mappedLimit
  total : after.frames.totalFrames = m.frames.totalFrames
  held : ∀ path table,Held long m.mem m.pml4 path table → Held long after.mem m.pml4 path table
  walks : ∀ v,walk after v = walk m v

theorem grown_refl (sane : Sane m) : Grown m m := ⟨sane,rfl,rfl,rfl,fun _ _ held => held,fun _ => rfl⟩

theorem grown_trans {middle : Mmu} (first : Grown m middle) (second : Grown middle after) : Grown m after := by
  refine ⟨second.sane,second.root.trans first.root,second.limit.trans first.limit,second.total.trans first.total,?_,?_⟩
  · intro path table held
    have later := second.held path table
    rw [first.root] at later
    exact later (first.held path table held)
  · exact fun v => (second.walks v).trans (first.walks v)

-- A new table of zeros in a frame that was free, hung where there was none.
theorem link_grown (sane : Sane m) (held : Held long m.mem m.pml4 path table) (deeper : path.length < 3) (low : k < entries)
    (none : has (entry m.mem table k) pagePresent = false) (below : frame < m.frames.totalFrames)
    (free : frameTest m.frames frame = false) (real : frame*pageSize ≠ 0) :
    Grown m {m with
      mem:=setEntry (fill m.mem (frame*pageSize) pageSize 0#8) table k (tableEntry (frame*pageSize)),frames:=claim m.frames frame} ∧
    Held long (setEntry (fill m.mem (frame*pageSize) pageSize 0#8) table k (tableEntry (frame*pageSize))) m.pml4
      (path++[k]) (frame*pageSize) := by
  have small := sane.nameable frame below free
  obtain ⟨present,_⟩ := tableEntry_parts (Nat.mul_mod_left frame pageSize) small
  obtain ⟨formed,linked,walks,kept,empty⟩ := link_formed (sane_formed sane) held deeper low none (Nat.mul_mod_left frame pageSize)
    small real (fun q b there => free_fresh sane free there)
  have marked : ∀ b,frameTest m.frames (b/pageSize) = true → frameTest (claim m.frames frame) (b/pageSize) = true := by
    intro b taken
    rw [claim_test (by decide),taken,Bool.or_true]
  refine ⟨⟨⟨claim_sound sane.sound below free,claim_nameable sane.nameable frame,formed.tree,formed.aligned,formed.real,?_,?_⟩,
    rfl,rfl,rfl,fun q b there => (linked q b).mpr (.inl there),walks⟩,(linked _ _).mpr (.inr ⟨rfl,rfl⟩)⟩
  · intro q b there
    rcases (linked q b).mp there with old | ⟨_,rfl⟩
    · exact marked b (sane.taken q b old)
    · rw [claim_test (by decide),show frame*pageSize/pageSize = frame by simp [pageSize]]
      simp
  · intro q b there shallow l lowToo absent
    dsimp only at absent ⊢
    rcases (linked q b).mp there with old | ⟨rfl,rfl⟩
    · by_cases equal : path = q ∧ k = l
      · obtain ⟨rfl,rfl⟩ := equal
        cases held_unique held old
        rw [entry_set,present] at absent
        cases absent
      · rw [kept q b l old lowToo (fun paths index => equal ⟨paths,index⟩)] at absent ⊢
        exact sane.clear q b old shallow l lowToo absent
    · rw [empty l lowToo]
      decide

theorem grown_claim (sane : Sane m) (below : frame < m.frames.totalFrames) (free : frameTest m.frames frame = false) :
    Grown m {m with frames:=claim m.frames frame} := by
  refine ⟨⟨claim_sound sane.sound below free,claim_nameable sane.nameable frame,sane.tree,sane.aligned,sane.real,?_,sane.clear⟩,rfl,rfl,rfl,
    fun _ _ held => held,fun _ => rfl⟩
  intro path table held
  rw [claim_test (by decide),sane.taken path table held,Bool.or_true]

theorem nextLevel_parts (sane : Sane m) (held : Held long m.mem m.pml4 path table) (deeper : path.length < 3)
    (low : k < entries) : Grown m (nextLevel m table k true).2 ∧ ((nextLevel m table k true).1 ≠ 0 →
      Held long (nextLevel m table k true).2.mem m.pml4 (path++[k]) (nextLevel m table k true).1) := by
  unfold nextLevel
  by_cases present : has (entry m.mem table k) pagePresent = true
  · rw [if_pos present]
    exact ⟨grown_refl sane,fun _ => held_next held deeper low present⟩
  have absent : has (entry m.mem table k) pagePresent = false := by simpa using present
  rw [if_neg present,if_neg (by decide)]
  rcases allocFrame_parts sane.sound with full | ⟨frame,below,free,taken⟩
  · rw [full]
    exact ⟨grown_refl sane,fun given => absurd rfl given⟩
  rw [taken]
  dsimp only
  by_cases zero : frame*pageSize = 0
  · rw [if_pos zero]
    exact ⟨grown_claim sane below free,fun given => absurd rfl given⟩
  rw [if_neg zero]
  obtain ⟨grown,there⟩ := link_grown sane held deeper low absent below free zero
  have small := sane.nameable frame below free
  refine ⟨grown,fun _ => ?_⟩
  change Held long (setEntry (fill m.mem (frame*pageSize) pageSize 0#8) table k (tableEntry (frame*pageSize))) m.pml4 (path++[k])
    (address (entry (setEntry (fill m.mem (frame*pageSize) pageSize 0#8) table k (tableEntry (frame*pageSize))) table k))
  rw [entry_set,(tableEntry_parts (Nat.mul_mod_left frame pageSize) small).2]
  exact there

-- One leaf is set to `e`, whatever it was.
structure Remapped (m after : Mmu) (v : Nat) (e : Entry) : Prop where
  sane : Sane after
  root : after.pml4 = m.pml4
  limit : after.mappedLimit = m.mappedLimit
  total : after.frames.totalFrames = m.frames.totalFrames
  walks : ∀ w,walk after w = if pathOf w = pathOf v ∧ ptIndex w = ptIndex v then
    (if has e pagePresent = true then some e else none) else walk m w

theorem remapped_grown {middle : Mmu} (first : Grown m middle) (second : Remapped middle after v e) : Remapped m after v e := by
  refine ⟨second.sane,second.root.trans first.root,second.limit.trans first.limit,second.total.trans first.total,?_⟩
  intro w
  rw [second.walks w,first.walks w]

theorem leaf_remapped (sane : Sane m) (held : Held long m.mem m.pml4 (pathOf v) pt) (e : Entry) :
    Remapped m {m with mem:=setEntry m.mem pt (ptIndex v) e} v e := by
  obtain ⟨formed,kept,walks⟩ := leaf_formed (sane_formed sane) held e
  refine ⟨⟨sane.sound,sane.nameable,formed.tree,formed.aligned,formed.real,?_,?_⟩,rfl,rfl,rfl,walks⟩
  · exact fun path table there => sane.taken path table ((kept path table).mp there)
  · intro path table there shallow k lowToo
    have old := (kept path table).mp there
    have different : pathOf v = path → ptIndex v ≠ k := by
      rintro rfl
      exact absurd shallow (by decide : ¬ 3 < 3)
    dsimp only
    rw [entry_kept sane.tree held old (ptIndex_low v) lowToo different]
    exact sane.clear path table old shallow k lowToo

theorem pagingMap_parts (sane : Sane m) (v phys : Nat) (flags : Entry) (done : (pagingMap m v phys flags).1 = true) :
    Remapped m (pagingMap m v phys flags).2 v ((BitVec.ofNat 64 phys &&& addressMask) ||| flags) := by
  have route := @pagingMap_route m (Grown m) (grown_refl sane) (by
    intro now path table k grown held deeper low
    obtain ⟨more,there⟩ := nextLevel_parts grown.sane held deeper low
    refine ⟨grown_trans grown more,fun given => ?_⟩
    rw [more.root]
    exact there given) v phys flags
  rcases route with ⟨after,failed,_⟩ | ⟨middle,pt,grown,held,mapped⟩
  · rw [failed] at done
    cases done
  · rw [mapped]
    exact remapped_grown grown (leaf_remapped grown.sane held _)

theorem pagingMap_there (sane : Sane m) (held : Held long m.mem m.pml4 (pathOf v) pt) (phys : Nat) (flags : Entry) :
    (pagingMap m v phys flags).1 = true := by
  have steps : ∀ {path table k},Held long m.mem m.pml4 (path++[k]) table → ∃ above,Held long m.mem m.pml4 path above ∧
      has (entry m.mem above k) pagePresent = true ∧ address (entry m.mem above k) = table := by
    intro path table k there
    obtain ⟨above,upper,_,_,leads⟩ := (held_snoc ..).mp there
    refine ⟨above,upper,?_⟩
    unfold next at leads
    split at leads
    · rename_i present
      exact ⟨present,Option.some.inj leads⟩
    · cases leads
  have leaf : Held long m.mem m.pml4 ([pml4Index v,pdptIndex v]++[pdIndex v]) pt := held
  obtain ⟨pd,heldTwo,three,rfl⟩ := steps leaf
  have middle : Held long m.mem m.pml4 ([pml4Index v]++[pdptIndex v]) pd := heldTwo
  obtain ⟨pdpt,heldOne,two,rfl⟩ := steps middle
  have upper : Held long m.mem m.pml4 ([]++[pml4Index v]) pdpt := heldOne
  obtain ⟨root,heldZero,one,rfl⟩ := steps upper
  cases (held_nil ..).mp heldZero
  have realOne := sane.real _ _ heldOne
  have realTwo := sane.real _ _ heldTwo
  have realThree := sane.real _ _ held
  simp only [pagingMap,nextLevel_there one,nextLevel_there two,nextLevel_there three,if_neg realOne,if_neg realTwo,if_neg realThree]

-- The leaf keeps its address and gets the flags, if there is a table to hold it.
theorem setFlags_parts (sane : Sane m) (v : Nat) (flags : Entry) :
    pagingSetFlags m v flags = m ∧ walk m v = none ∨
    ∃ e,(∀ leaf,walk m v = some leaf → e = leaf) ∧ Remapped m (pagingSetFlags m v flags) v ((e &&& addressMask) ||| flags) := by
  unfold pagingSetFlags
  rcases entryFor_place (sane_formed sane) v with ⟨zero,unheld⟩ | ⟨pt,held,place,real⟩
  · refine .inl ⟨if_pos zero,?_⟩
    cases found : walk m v with
    | none => rfl
    | some leaf =>
      obtain ⟨pt,held,_⟩ := (leafAt_iff rfl (path_range v)).mp found
      exact absurd held (unheld pt)
  · have at_ (mem : Memory) : entry mem (pt+8*ptIndex v) 0 = entry mem pt (ptIndex v) := by rw [entry,entry,Nat.mul_zero,Nat.add_zero]
    refine .inr ⟨entry m.mem pt (ptIndex v),?_,?_⟩
    · intro leaf found
      obtain ⟨other,there,_,here⟩ := (leafAt_iff rfl (path_range v)).mp found
      rw [held_unique held there,here]
    · rw [place,if_neg real,at_,show setEntry m.mem (pt+8*ptIndex v) 0 ((entry m.mem pt (ptIndex v) &&& addressMask) ||| flags) =
        setEntry m.mem pt (ptIndex v) ((entry m.mem pt (ptIndex v) &&& addressMask) ||| flags) by
          rw [setEntry,setEntry,Nat.mul_zero,Nat.add_zero]]
      exact leaf_remapped sane held _

theorem userEntry_grown (sane : Sane m) (held : Held long m.mem m.pml4 path table) (deeper : path.length < 3) (low : k < entries) :
    Grown m (userEntry m table k) := by
  obtain ⟨present,target⟩ := user_parts (entry m.mem table k)
  have keeps : path.length < long.depth →
      next long (setEntry m.mem table k (entry m.mem table k ||| pageUser)) table k = next long m.mem table k := by
    intro _
    rw [next,next,entry_set]
    change (if has _ pagePresent = true then some (address _) else none) = if has _ pagePresent = true then some (address _) else none
    rw [present,target]
  have kept := held_set sane.tree held low keeps
  refine ⟨⟨sane.sound,sane.nameable,tree_congr sane.tree fun path table => (kept path table).mp,?_,?_,?_,?_⟩,rfl,rfl,rfl,
    fun path table there => (kept path table).mpr there,?_⟩
  · exact fun path table there => sane.aligned path table ((kept path table).mp there)
  · exact fun path table there => sane.real path table ((kept path table).mp there)
  · exact fun path table there => sane.taken path table ((kept path table).mp there)
  · intro q b there shallow l lowToo absent
    have old := (kept q b).mp there
    unfold userEntry at absent ⊢
    dsimp only at absent ⊢
    by_cases equal : path = q ∧ k = l
    · obtain ⟨rfl,rfl⟩ := equal
      cases held_unique held old
      rw [entry_set] at absent ⊢
      rw [present] at absent
      rw [target]
      exact sane.clear path table old shallow k lowToo absent
    · rw [entry_kept sane.tree held old low lowToo (fun paths index => equal ⟨paths,index⟩)] at absent ⊢
      exact sane.clear q b old shallow l lowToo absent
  · intro v
    unfold walk userEntry
    dsimp only
    rw [leafAt_set sane.tree held low keeps rfl (path_range v) (ptIndex_low v),if_neg]
    rintro ⟨equal,_⟩
    rw [←equal] at deeper
    exact absurd deeper (by decide : ¬ 3 < 3)

-- An upper entry with an address leads to a table.
theorem held_address (sane : Sane m) (held : Held long m.mem m.pml4 path table) (deeper : path.length < 3) (low : k < entries)
    (real : address (entry m.mem table k) ≠ 0) : Held long m.mem m.pml4 (path++[k]) (address (entry m.mem table k)) := by
  refine held_next held deeper low ?_
  by_contra absent
  exact real (sane.clear path table held deeper k low (by simpa using absent))

theorem makeUserPage_parts (sane : Sane m) (flags : Entry) (v : Nat) :
    Grown m (makeUserPage flags m v) ∨ ∃ e,Remapped m (makeUserPage flags m v) v ((e &&& addressMask) ||| flags) := by
  have indices : pml4Index v < entries ∧ pdptIndex v < entries ∧ pdIndex v < entries := by
    simp only [pml4Index,pdptIndex,pdIndex,entries]
    omega
  unfold makeUserPage
  dsimp only
  have grownOne := userEntry_grown sane ((held_nil ..).mpr rfl) (by decide : 0 < 3) indices.1
  generalize userEntry m m.pml4 (pml4Index v) = first at *
  have root : first.pml4 = m.pml4 := grownOne.root
  split
  · exact .inl grownOne
  rename_i realOne
  have heldOne := held_address grownOne.sane ((held_nil ..).mpr rfl) (by decide : 0 < 3) indices.1 realOne
  generalize address (entry first.mem first.pml4 (pml4Index v)) = pdpt at *
  have grownTwo := userEntry_grown grownOne.sane heldOne (by decide : 1 < 3) indices.2.1
  have stillOne := grownTwo.held _ _ heldOne
  generalize userEntry first pdpt (pdptIndex v) = second at *
  rw [←grownTwo.root] at stillOne
  split
  · exact .inl (grown_trans grownOne grownTwo)
  rename_i realTwo
  have heldTwo := held_address grownTwo.sane stillOne (by decide : 1 < 3) indices.2.1 realTwo
  generalize address (entry second.mem pdpt (pdptIndex v)) = pd at *
  have grownThree := userEntry_grown grownTwo.sane heldTwo (by decide : 2 < 3) indices.2.2
  generalize userEntry second pd (pdIndex v) = third at *
  have grown := grown_trans grownOne (grown_trans grownTwo grownThree)
  rcases setFlags_parts grownThree.sane v flags with ⟨same,_⟩ | ⟨e,_,remapped⟩
  · rw [same]
    exact .inl grown
  · exact .inr ⟨e,remapped_grown grown remapped⟩

-- No present leaf is both.
def WriteXorExecute (m : Mmu) : Prop :=
  ∀ v leaf,walk m v = some leaf → ¬ (has leaf pageWrite = true ∧ has leaf pageNx = false)

theorem flags_strict (e flags : Entry) (strict : has flags pageWrite = true → has flags pageNx = true) :
    ¬ (has ((e &&& addressMask) ||| flags) pageWrite = true ∧ has ((e &&& addressMask) ||| flags) pageNx = false) := by
  rw [has_or,has_or,has_and _ _ _ (by decide),has_and _ _ _ (by decide),Bool.false_or,Bool.false_or]
  rintro ⟨write,execute⟩
  rw [strict write] at execute
  cases execute

theorem makeUserPage_strict (sane : Sane m) (kept : WriteXorExecute m) (strict : has flags pageWrite = true → has flags pageNx = true)
    (v : Nat) : Sane (makeUserPage flags m v) ∧ WriteXorExecute (makeUserPage flags m v) := by
  rcases makeUserPage_parts sane flags v with grown | ⟨e,remapped⟩
  · refine ⟨grown.sane,fun w leaf found => kept w leaf ?_⟩
    rwa [grown.walks w] at found
  · refine ⟨remapped.sane,fun w leaf found => ?_⟩
    rw [remapped.walks w] at found
    split at found
    · split at found
      · cases Option.some.inj found
        exact flags_strict e flags strict
      · cases found
    · exact kept w leaf found

theorem makeUserFrom_strict (strict : has flags pageWrite = true → has flags pageNx = true) (turns : Nat) (sane : Sane m)
    (kept : WriteXorExecute m) (addr : Nat) :
    Sane (makeUserFrom flags end_ turns m addr) ∧ WriteXorExecute (makeUserFrom flags end_ turns m addr) := by
  induction turns generalizing m addr with
  | zero => exact ⟨sane,kept⟩
  | succ turns ih =>
    unfold makeUserFrom
    split
    · obtain ⟨saneNext,keptNext⟩ := makeUserPage_strict sane kept strict addr
      exact ih saneNext keptNext _
    · exact ⟨sane,kept⟩

theorem makeUser_strict (sane : Sane m) (kept : WriteXorExecute m) (start end_ : Nat) (writable : Bool) (turns : Nat) :
    Sane (pagingMakeUser m start end_ writable turns) ∧ WriteXorExecute (pagingMakeUser m start end_ writable turns) := by
  unfold pagingMakeUser
  refine makeUserFrom_strict ?_ turns sane kept _
  cases writable <;> decide

-- What is mapped, by page number, where 48 bits are enough.
def Shows (m : Mmu) (f : Nat → Option Entry) : Prop := ∀ v < 2^48,walk m v = f (v/pageSize)

theorem path_page (low : v < 2^48) (lowToo : w < 2^48) : pathOf w = pathOf v ∧ ptIndex w = ptIndex v ↔ w/pageSize = v/pageSize := by
  simp only [pathOf,List.cons.injEq,pml4Index,pdptIndex,pdIndex,ptIndex,entries,pageSize,and_true]
  omega

theorem shows_remapped (shows : Shows m f) (remapped : Remapped m after a e) (low : a < 2^48)
    (present : has e pagePresent = true) : Shows after (Function.update f (a/pageSize) (some e)) := by
  intro v below
  rw [remapped.walks v,if_pos present]
  by_cases here : v/pageSize = a/pageSize
  · rw [if_pos ((path_page low below).mpr here),here,Function.update_self]
  · rw [if_neg (fun same => here ((path_page low below).mp same)),Function.update_of_ne here]
    exact shows v below

def identityEntry (n : Nat) (flags : Entry) : Entry := BitVec.ofNat 64 (n*pageSize) ||| flags

theorem identity_masked (small : n*pageSize < 2^52) (clear : (flags &&& addressMask) = 0#64) :
    identityEntry n flags &&& addressMask = BitVec.ofNat 64 (n*pageSize) := by
  rw [identityEntry,BitVec.and_or_distrib_right,clear,BitVec.or_zero,frame_masked (Nat.mul_mod_left _ _) small]

theorem identity_present (n : Nat) (flags : Entry) (present : has flags pagePresent = true) :
    has (identityEntry n flags) pagePresent = true := by rw [identityEntry,has_or,present,Bool.or_true]

-- Nothing but the root, and nothing in it.
theorem blank_sane {frames : State 64} (sound : Sound frames) (nameable : Nameable frames)
    (below : frame < frames.totalFrames) (free : frameTest frames frame = false) (real : frame*pageSize ≠ 0) (mem : Memory)
    (limit : Nat) :
    Sane ⟨fill mem (frame*pageSize) pageSize 0#8,claim frames frame,frame*pageSize,limit⟩ ∧
      Shows ⟨fill mem (frame*pageSize) pageSize 0#8,claim frames frame,frame*pageSize,limit⟩ fun _ => none := by
  have zero : ∀ k < entries,entry (fill mem (frame*pageSize) pageSize 0#8) (frame*pageSize) k = 0#64 := by
    intro k low
    apply entry_zero
    intro x inside
    refine patch_inside mem _ (by omega) ?_
    simp only [entries,pageSize] at *
    omega
  have only : ∀ path table,Held long (fill mem (frame*pageSize) pageSize 0#8) (frame*pageSize) path table →
      path = [] ∧ table = frame*pageSize := by
    intro path
    induction path using List.reverseRecOn with
    | nil => exact fun table held => ⟨rfl,(held_nil ..).mp held⟩
    | append_singleton path k ih =>
      intro table held
      obtain ⟨above,upper,_,low,leads⟩ := (held_snoc ..).mp held
      obtain ⟨rfl,rfl⟩ := ih above upper
      rw [next,zero k low] at leads
      cases leads
  refine ⟨⟨claim_sound sound below free,claim_nameable nameable frame,?_,?_,?_,?_,?_⟩,?_⟩
  · intro p q a b first second different
    exact absurd ((only p a first).1.trans (only q b second).1.symm) different
  · intro path table held
    rw [(only path table held).2]
    exact Nat.mul_mod_left _ _
  · intro path table held
    rw [(only path table held).2]
    exact real
  · intro path table held
    rw [(only path table held).2,show frame*pageSize/pageSize = frame by simp [pageSize],claim_test (by decide)]
    simp
  · intro path table held _ k low _
    obtain ⟨_,rfl⟩ := only path table held
    rw [zero k low]
    decide
  · intro v _
    cases found : walk ⟨fill mem (frame*pageSize) pageSize 0#8,claim frames frame,frame*pageSize,limit⟩ v with
    | none => rfl
    | some leaf =>
      obtain ⟨table,held,_⟩ := (leafAt_iff rfl (path_range v)).mp found
      cases (only _ _ held).1

-- The first loop of paging_init.
theorem maps_shows (sane : Sane m) (shows : Shows m fun _ => none) (count : Nat) (few : count*pageSize ≤ 2^30)
    (done : ((List.range count).map (·*pageSize)).foldlM mapItself m = some after) :
    Sane after ∧ Shows after fun n => if n < count then some (identityEntry n (pagePresent ||| pageWrite)) else none := by
  induction count generalizing after with
  | zero =>
    cases Option.some.inj done
    exact ⟨sane,shows⟩
  | succ count ih =>
    rw [List.range_succ,List.map_append,List.foldlM_append] at done
    obtain ⟨middle,before,last⟩ := Option.bind_eq_some_iff.mp done
    have fewer : count*pageSize ≤ 2^30 := by
      rw [Nat.succ_mul] at few
      omega
    obtain ⟨saneNow,showsNow⟩ := ih fewer before
    rw [List.map_cons,List.map_nil,List.foldlM_cons] at last
    obtain ⟨final,step,same⟩ := Option.bind_eq_some_iff.mp last
    cases Option.some.inj same
    have low : count*pageSize < 2^48 := by
      simp only [pageSize] at *
      omega
    have mapped := pagingMap_parts saneNow (count*pageSize) (count*pageSize) (pagePresent ||| pageWrite)
    unfold mapItself at step
    generalize pagingMap middle _ _ _ = answer at *
    obtain ⟨ok,now⟩ := answer
    dsimp only at *
    cases ok with
    | false => cases step
    | true =>
      cases Option.some.inj step
      have remapped := mapped rfl
      rw [frame_masked (Nat.mul_mod_left _ _) (by omega)] at remapped
      refine ⟨remapped.sane,fun v below => ?_⟩
      rw [shows_remapped showsNow remapped low (identity_present count _ (by decide)) v below,
        show count*pageSize/pageSize = count by simp [pageSize]]
      dsimp only
      by_cases here : v/pageSize = count
      · rw [here,Function.update_self,if_pos (by omega)]
        rfl
      · rw [Function.update_of_ne here]
        by_cases earlier : v/pageSize < count
        · rw [if_pos earlier,if_pos (by omega)]
        · rw [if_neg earlier,if_neg (by omega)]

-- The second: every leaf of the first gets its flags.
theorem flags_shows (sane : Sane m) (flags : Nat → Entry) (present : ∀ addr,has (flags addr) pagePresent = true)
    (shows : Shows m fun n => if n < total then some (identityEntry n (pagePresent ||| pageWrite)) else none)
    (few : total*pageSize ≤ 2^30) (count : Nat) (inside : count ≤ total) :
    let done := ((List.range count).map (·*pageSize)).foldl (fun m addr => pagingSetFlags m addr (flags addr)) m
    Sane done ∧ Shows done (fun n => if n < count then some (identityEntry n (flags (n*pageSize))) else
      if n < total then some (identityEntry n (pagePresent ||| pageWrite)) else none) := by
  induction count with
  | zero => exact ⟨sane,shows⟩
  | succ count ih =>
    obtain ⟨saneNow,showsNow⟩ := ih (by omega)
    rw [List.range_succ,List.map_append,List.foldl_append,List.map_cons,List.map_nil,List.foldl_cons,List.foldl_nil]
    generalize ((List.range count).map (·*pageSize)).foldl (fun m addr => pagingSetFlags m addr (flags addr)) m = middle at *
    have small : count*pageSize < 2^48 := by
      simp only [pageSize] at *
      omega
    have number : count*pageSize/pageSize = count := by simp [pageSize]
    have here := showsNow (count*pageSize) small
    rw [number] at here
    dsimp only at here
    rw [if_neg (by omega),if_pos (by omega)] at here
    rcases setFlags_parts saneNow (count*pageSize) (flags (count*pageSize)) with ⟨_,none⟩ | ⟨e,old,remapped⟩
    · rw [none] at here
      cases here
    · rw [old _ here,identity_masked (by omega) (by decide)] at remapped
      refine ⟨remapped.sane,fun v below => ?_⟩
      rw [shows_remapped showsNow remapped small (identity_present count _ (present _)) v below,number]
      dsimp only
      by_cases equal : v/pageSize = count
      · rw [equal,Function.update_self,if_pos (by omega)]
        rfl
      · rw [Function.update_of_ne equal]
        by_cases earlier : v/pageSize < count
        · rw [if_pos earlier,if_pos (by omega)]
        · rw [if_neg earlier,if_neg (by omega : ¬ v/pageSize < count+1)]

theorem flags_limit (pages : List Nat) (flags : Nat → Entry) (m : Mmu) :
    (pages.foldl (fun m addr => pagingSetFlags m addr (flags addr)) m).mappedLimit = m.mappedLimit := by
  induction pages generalizing m with
  | nil => rfl
  | cons addr rest ih =>
    rw [List.foldl_cons,ih,pagingSetFlags]
    split
    · rfl
    · rfl

-- What paging_init leaves.
theorem init_shows (sound : Sound m.frames) (nameable : Nameable m.frames)
    (made : pagingInit m kernelTextStart kernelRodataEnd = some after) :
    Sane after ∧ after.mappedLimit = mappable m.frames ∧ Shows after fun n => if n*pageSize < mappable m.frames then
      some (identityEntry n (initFlags (roundDown kernelTextStart) (roundUp kernelRodataEnd) (n*pageSize))) else none := by
  unfold pagingInit at made
  rcases allocFrame_parts sound with full | ⟨frame,below,free,taken⟩
  · rw [full] at made
    cases made
  rw [taken] at made
  dsimp only at made
  by_cases zero : frame*pageSize = 0
  · rw [if_pos zero] at made
    cases made
  rw [if_neg zero] at made
  have addressable := sound.addressable
  have top : mappable (claim m.frames frame) = mappable m.frames := rfl
  have whole : mappable m.frames % pageSize = 0 ∧ mappable m.frames ≤ 2^30 := by
    rw [mappable,pmmMemoryTop,wrap_small addressable]
    simp only [pageSize]
    omega
  rw [top] at made
  have count : (mappable m.frames+pageSize-1)/pageSize*pageSize = mappable m.frames := by
    simp only [pageSize] at *
    omega
  unfold pagesBelow at made
  generalize (mappable m.frames+pageSize-1)/pageSize = pages at *
  obtain ⟨built,loop,rfl⟩ := Option.map_eq_some_iff.mp made
  obtain ⟨blank,nothing⟩ := blank_sane sound nameable below free zero m.mem m.mappedLimit
  obtain ⟨sane,shows⟩ := maps_shows blank nothing pages (by omega) loop
  have present : ∀ addr,has (initFlags (roundDown kernelTextStart) (roundUp kernelRodataEnd) addr) pagePresent = true := by
    intro addr
    unfold initFlags
    split
    · decide
    · decide
  have ready : Sane {built with mappedLimit:=mappable m.frames} :=
    ⟨sane.sound,sane.nameable,sane.tree,sane.aligned,sane.real,sane.taken,sane.clear⟩
  obtain ⟨done,leaves⟩ := @flags_shows {built with mappedLimit:=mappable m.frames} pages ready _ present shows (by omega) pages le_rfl
  refine ⟨done,?_,?_⟩
  · exact flags_limit _ _ _
  · intro v low
    rw [leaves v low]
    dsimp only
    rw [←count]
    have inside : v/pageSize < pages ↔ v/pageSize*pageSize < pages*pageSize := (Nat.mul_lt_mul_right (by decide)).symm
    by_cases mapped : v/pageSize < pages
    · rw [if_pos mapped,if_pos (inside.mp mapped)]
    · rw [if_neg mapped,if_neg mapped,if_neg fun there => mapped (inside.mpr there)]

theorem shows_strict (shows : Shows m fun n => if n*pageSize < top then some (identityEntry n (initFlags textStart roEnd (n*pageSize)))
    else none) (low : top ≤ 2^30) : WriteXorExecute m := by
  intro v leaf found
  -- The walk sees 48 bits, so some address of 48 bits is translated the same way.
  have reduced : walk m v = walk m (v % 2^48) := by
    unfold walk
    rw [show pathOf v = pathOf (v % 2^48) by
        simp only [pathOf,pml4Index,pdptIndex,pdIndex,entries,List.cons.injEq,and_true]
        omega,
      show ptIndex v = ptIndex (v % 2^48) by
        simp only [ptIndex,entries]
        omega]
  rw [reduced,shows _ (Nat.mod_lt _ (by decide))] at found
  dsimp only at found
  split at found
  · rename_i inside
    cases Option.some.inj found
    have small : v % 2^48/pageSize*pageSize < 2^52 := by omega
    rw [identityEntry,←frame_masked (Nat.mul_mod_left _ _) small]
    refine flags_strict _ _ ?_
    unfold initFlags
    split
    · decide
    · decide
  · cases found

structure UserCall where
  start : Nat
  end_ : Nat
  writable : Bool
  turns : Nat

def makeUsers (m : Mmu) (calls : List UserCall) : Mmu :=
  calls.foldl (fun m call => pagingMakeUser m call.start call.end_ call.writable call.turns) m

theorem makeUsers_strict (sane : Sane m) (kept : WriteXorExecute m) (calls : List UserCall) :
    Sane (makeUsers m calls) ∧ WriteXorExecute (makeUsers m calls) := by
  unfold makeUsers
  induction calls generalizing m with
  | nil => exact ⟨sane,kept⟩
  | cons call rest ih =>
    obtain ⟨saneNext,keptNext⟩ := makeUser_strict sane kept call.start call.end_ call.writable call.turns
    exact ih saneNext keptNext

-- Whatever the allocator was used for before, and whatever memory held: paging_init leaves
-- the identity map with its flags and nothing else, and no run of paging_make_user, ended
-- or not, breaks the rule.
theorem write_xor_execute64 (boot : Booted kernelEnd mbi p) (used : Runs (allocator 64 kernelEnd mbi) ⟨p,[]⟩ calls ledger)
    (frames : m.frames = ledger.pmm) (nameable : Nameable m.frames)
    (made : pagingInit m kernelTextStart kernelRodataEnd = some after) :
    (∀ a < 2^48,a % pageSize = 0 → walk after a = if a < min (pmmMemoryTop m.frames) 0x40000000 then
      some (BitVec.ofNat 64 a ||| if roundDown kernelTextStart ≤ a ∧ a < roundUp kernelRodataEnd then pagePresent
        else pagePresent ||| pageWrite ||| pageNx) else none) ∧
    ∀ users,WriteXorExecute (makeUsers after users) := by
  have sound : Sound m.frames := by
    rw [frames]
    exact (runs_owned boot used).sound
  obtain ⟨sane,_,shows⟩ := init_shows sound nameable made
  refine ⟨?_,fun users => (makeUsers_strict sane (shows_strict shows (Nat.min_le_right _ _)) users).2⟩
  intro a low whole
  have page : a/pageSize*pageSize = a := by
    simp only [pageSize] at *
    omega
  rw [shows a low]
  dsimp only
  rw [page,identityEntry,page]
  rfl

-- Under 2 MB one table of leaves serves every page.
theorem maps_succeed (sane : Sane m) (shows : Shows m fun _ => none) (first : (mapItself m 0).isSome = true) (count : Nat)
    (few : count*pageSize ≤ 2^21) : (((List.range count).map (·*pageSize)).foldlM mapItself m).isSome = true := by
  induction count with
  | zero => rfl
  | succ count ih =>
    rw [Nat.succ_mul] at few
    obtain ⟨middle,before⟩ := Option.isSome_iff_exists.mp (ih (by omega))
    rw [List.range_succ,List.map_append,List.foldlM_append,before]
    suffices last : (mapItself middle (count*pageSize)).isSome = true by
      obtain ⟨final,mapped⟩ := Option.isSome_iff_exists.mp last
      change (mapItself middle (count*pageSize) >>= fun m => some m).isSome = true
      rw [mapped]
      rfl
    cases count with
    | zero =>
      cases Option.some.inj before
      rw [Nat.zero_mul]
      exact first
    | succ count =>
      obtain ⟨saneNow,showsNow⟩ := maps_shows sane shows (count+1) (by omega) before
      have there := showsNow 0 (by decide)
      simp only [Nat.zero_div,Nat.zero_lt_succ,if_pos] at there
      obtain ⟨pt,held,_⟩ := (leafAt_iff rfl (path_range 0)).mp there
      have same : pathOf 0 = pathOf ((count+1)*pageSize) := by
        simp only [pathOf,pml4Index,pdptIndex,pdIndex,entries,pageSize,List.cons.injEq,and_true] at *
        omega
      rw [same] at held
      have done := pagingMap_there saneNow held ((count+1)*pageSize) (pagePresent ||| pageWrite)
      unfold mapItself
      generalize pagingMap middle _ _ _ = answer at *
      obtain ⟨ok,now⟩ := answer
      dsimp only at *
      rw [done]
      rfl

theorem init_succeeds (taken : pmmAllocFrame m.frames = (root,frames)) (real : root ≠ 0)
    (loop : ((pagesBelow (mappable frames)).foldlM mapItself
      {m with mem:=fill m.mem root pageSize 0#8,frames:=frames,pml4:=root}).isSome = true) (kernelTextStart kernelRodataEnd : Nat) :
    ∃ after,pagingInit m kernelTextStart kernelRodataEnd = some after := by
  obtain ⟨built,mapped⟩ := Option.isSome_iff_exists.mp loop
  unfold pagingInit
  rw [taken]
  dsimp only
  rw [if_neg real,mapped]
  exact ⟨_,rfl⟩

def tinyMap : MultibootInfo := ⟨0x40#32,[⟨0x100000#64,0xA000#64,1#32⟩]⟩
@[irreducible] def tinyFrames : State 64 := pmmInitWith (totalFrames64 tinyMap.mmap) region64 0x102000 (fun _ => 0#64) tinyMap.mmap
def tinyMmu : Mmu := ⟨fun _ => 0#8,tinyFrames,0,0⟩

theorem tiny_booted : Booted 0x102000 tinyMap tinyFrames := by
  have boots : pmmInit64 0x102000 (fun _ => 0#64) tinyMap = some tinyFrames := by
    unfold tinyFrames pmmInit64
    rw [if_neg (by decide)]
  exact .kernel64 boots

theorem tiny_sound : Sound tinyFrames := (runs_owned tiny_booted .nil).sound

theorem tiny_frames : tinyFrames.totalFrames = 0x10A ∧ (pmmAllocFrame tinyFrames).1 = 0x103000 ∧
    mappable tinyFrames = 0x10A000 ∧ min (pmmMemoryTop tinyFrames) 0x40000000 = 0x10A000 := by decide +kernel

theorem tiny_nameable : Nameable tinyFrames := by
  intro frame below _
  have total := tiny_frames.1
  simp only [pageSize]
  omega

theorem tiny_init : ∃ after,pagingInit tinyMmu 0x100000 0x101000 = some after := by
  obtain ⟨_,given,top,_⟩ := tiny_frames
  rcases allocFrame_parts tiny_sound with full | ⟨frame,below,free,taken⟩
  · rw [full] at given
    cases given
  rw [taken] at given
  have number : frame = 0x103 := by
    simp only [pageSize] at given
    omega
  subst number
  obtain ⟨blank,nothing⟩ := blank_sane tiny_sound tiny_nameable below free (by decide) tinyMmu.mem 0
  have maps := maps_succeed blank nothing (by decide +kernel) 0x10A (by decide)
  have pages : pagesBelow (mappable (claim tinyFrames 0x103)) = (List.range 0x10A).map (·*pageSize) := by
    rw [show mappable (claim tinyFrames 0x103) = mappable tinyFrames from rfl,top]
    rfl
  refine @init_succeeds tinyMmu _ _ taken (by decide) ?_ _ _
  rw [pages]
  exact maps

theorem write_xor_execute64_small : ∃ after,pagingInit tinyMmu 0x100000 0x101000 = some after ∧
    walk after 0x100000 = some 0x100001#64 ∧ walk after 0x5000 = some 0x8000000000005003#64 ∧ walk after 0x10A000 = none ∧
    WriteXorExecute (makeUsers after [⟨0x100000,0x101000,false,2⟩,⟨0x7fff,0x10B000,true,400⟩]) := by
  obtain ⟨after,made⟩ := tiny_init
  obtain ⟨_,_,_,top⟩ := tiny_frames
  obtain ⟨maps,rule⟩ := @write_xor_execute64 tinyMmu after _ _ _ _ _ _ _ tiny_booted .nil rfl tiny_nameable made
  refine ⟨after,made,?_,?_,?_,rule _⟩
  · rw [maps _ (by decide) (by decide),show tinyMmu.frames = tinyFrames from rfl,top]
    decide
  · rw [maps _ (by decide) (by decide),show tinyMmu.frames = tinyFrames from rfl,top]
    decide
  · rw [maps _ (by decide) (by decide),show tinyMmu.frames = tinyFrames from rfl,top]
    decide

end Arthic.WriteExecute64
