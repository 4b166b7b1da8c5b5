import Arthic.PageTables
import Arthic.Paging64
import Arthic.PmmOwnership

namespace Arthic.LongTables
open ByteMemory PageTree Paging64 Pmm PmmOwnership Unsigned
open Paging (has pagePresent pageWrite pageUser pageNx)
open PageTables (has_or has_and)
variable {m after : Mmu}

theorem mask_bit (i : Nat) : addressMask.getLsbD i = decide (12 ≤ i ∧ i < 52) := by
  by_cases wide : i < 64
  · have all : ∀ i : Fin 64,addressMask.getLsbD i = decide (12 ≤ i.val ∧ i.val < 52) := by decide
    exact all ⟨i,wide⟩
  · rw [BitVec.getLsbD_of_ge _ _ (by omega)]
    simp
    omega

theorem address_aligned (e : Entry) : address e % pageSize = 0 := field_aligned mask_bit e

theorem frame_masked (aligned : phys % pageSize = 0) (small : phys < 2^52) :
    (BitVec.ofNat 64 phys &&& addressMask) = BitVec.ofNat 64 phys := field_masked mask_bit aligned small

-- The entry for a new table, and what becomes of any entry when ring 3 is let through.
def tableEntry (frame : Nat) : Entry := BitVec.ofNat 64 frame ||| pagePresent ||| pageWrite ||| pageUser

theorem tableEntry_parts (aligned : frame % pageSize = 0) (small : frame < 2^52) :
    has (tableEntry frame) pagePresent = true ∧ address (tableEntry frame) = frame := by
  refine ⟨?_,?_⟩
  · rw [tableEntry,has_or,has_or,has_or,show has pagePresent pagePresent = true by decide,Bool.or_true,Bool.true_or,
      Bool.true_or]
  · have masked := frame_masked aligned small
    rw [address,tableEntry,BitVec.and_or_distrib_right,BitVec.and_or_distrib_right,BitVec.and_or_distrib_right,masked,
      show (pagePresent &&& addressMask) = 0#64 by decide,show (pageWrite &&& addressMask) = 0#64 by decide,
      show (pageUser &&& addressMask) = 0#64 by decide,BitVec.or_zero,BitVec.or_zero,BitVec.or_zero,BitVec.toNat_ofNat,
      Nat.mod_eq_of_lt (by omega)]

theorem user_parts (e : Entry) : has (e ||| pageUser) pagePresent = has e pagePresent ∧ address (e ||| pageUser) = address e := by
  refine ⟨?_,?_⟩
  · rw [has_or,show has pageUser pagePresent = false by decide,Bool.or_false]
  · rw [address,BitVec.and_or_distrib_right,show (pageUser &&& addressMask) = 0#64 by decide,BitVec.or_zero,address]

-- Every frame that can be given out has an address that fits in an entry.
def Nameable (frames : State 64) : Prop :=
  ∀ frame < frames.totalFrames,frameTest frames frame = false → frame*pageSize < 2^52

theorem claim_nameable {frames : State 64} (nameable : Nameable frames) (frame : Nat) : Nameable (claim frames frame) := by
  intro other below free
  rw [claim_test (by decide),Bool.or_eq_false_iff] at free
  exact nameable other below free.2

-- A tree of whole pages, no two of which overlap, and none of them at the null pointer.
structure Formed (m : Mmu) : Prop where
  tree : Tree long m.mem m.pml4
  aligned : ∀ path table,Held long m.mem m.pml4 path table → table % pageSize = 0
  real : ∀ path table,Held long m.mem m.pml4 path table → table ≠ 0

theorem span_page (path : List Nat) : span long path = pageSize := by
  simp only [span,long,entries,pageSize]


theorem path_range (v : Nat) : InRange long (pathOf v) := by
  intro l below
  have indices : pml4Index v < entries ∧ pdptIndex v < entries ∧ pdIndex v < entries := by
    simp only [pml4Index,pdptIndex,pdIndex,entries]
    omega
  change l < 3 at below
  match l,below with
  | 0,_ => exact indices.1
  | 1,_ => exact indices.2.1
  | 2,_ => exact indices.2.2

theorem ptIndex_low (v : Nat) : ptIndex v < entries := Nat.mod_lt _ (by decide)

theorem held_next (held : Held long mem root path table) (deeper : path.length < 3) (low : k < entries)
    (present : has (entry mem table k) pagePresent = true) : Held long mem root (path++[k]) (address (entry mem table k)) :=
  (held_snoc ..).mpr ⟨table,held,deeper,low,if_pos present⟩

theorem nextLevel_there (present : has (entry m.mem table k) pagePresent = true) (create : Bool) :
    nextLevel m table k create = (address (entry m.mem table k),m) := by
  rw [nextLevel,if_pos present]

theorem nextLevel_peek (m : Mmu) (table k : Nat) : nextLevel m table k false = ((next long m.mem table k).getD 0,m) := by
  have same : next long m.mem table k =
      if has (entry m.mem table k) pagePresent = true then some (address (entry m.mem table k)) else none := rfl
  unfold nextLevel
  rw [same]
  by_cases present : has (entry m.mem table k) pagePresent = true
  · rw [if_pos present,if_pos present]
    rfl
  · rw [if_neg present,if_neg present]
    rfl

-- entry_for finds the leaf's place exactly where there is a page table.
theorem entryFor_place (formed : Formed m) (v : Nat) : entryFor m v = 0 ∧ (∀ pt,¬ Held long m.mem m.pml4 (pathOf v) pt) ∨
    ∃ pt,Held long m.mem m.pml4 (pathOf v) pt ∧ entryFor m v = pt+8*ptIndex v ∧ pt+8*ptIndex v ≠ 0 := by
  have indices : pml4Index v < entries ∧ pdptIndex v < entries ∧ pdIndex v < entries := by
    simp only [pml4Index,pdptIndex,pdIndex,entries]
    omega
  have three (pt : Nat) : Held long m.mem m.pml4 (pathOf v) pt ↔ ∃ pd,Held long m.mem m.pml4 [pml4Index v,pdptIndex v] pd ∧
      next long m.mem pd (pdIndex v) = some pt := by
    rw [show pathOf v = [pml4Index v,pdptIndex v]++[pdIndex v] from rfl,held_snoc]
    exact ⟨fun ⟨pd,held,_,_,leads⟩ => ⟨pd,held,leads⟩,fun ⟨pd,held,leads⟩ => ⟨pd,held,(by decide : 2 < 3),indices.2.2,leads⟩⟩
  have two (pd : Nat) : Held long m.mem m.pml4 [pml4Index v,pdptIndex v] pd ↔ ∃ pdpt,Held long m.mem m.pml4 [pml4Index v] pdpt ∧
      next long m.mem pdpt (pdptIndex v) = some pd := by
    rw [show [pml4Index v,pdptIndex v] = [pml4Index v]++[pdptIndex v] from rfl,held_snoc]
    exact ⟨fun ⟨pd,held,_,_,leads⟩ => ⟨pd,held,leads⟩,fun ⟨pd,held,leads⟩ => ⟨pd,held,(by decide : 1 < 3),indices.2.1,leads⟩⟩
  have one (pdpt : Nat) : Held long m.mem m.pml4 [pml4Index v] pdpt ↔ next long m.mem m.pml4 (pml4Index v) = some pdpt := by
    rw [show [pml4Index v] = []++[pml4Index v] from rfl,held_snoc]
    constructor
    · rintro ⟨root,held,_,_,leads⟩
      cases (held_nil ..).mp held
      exact leads
    · exact fun leads => ⟨_,(held_nil ..).mpr rfl,by decide,indices.1,leads⟩
  unfold entryFor
  rw [nextLevel_peek]
  dsimp only
  cases first : next long m.mem m.pml4 (pml4Index v) with
  | none =>
    refine .inl ⟨rfl,fun pt held => ?_⟩
    obtain ⟨pd,upper,_⟩ := (three pt).mp held
    obtain ⟨pdpt,top,_⟩ := (two pd).mp upper
    rw [(one pdpt).mp top] at first
    cases first
  | some pdpt =>
    have heldOne := (one pdpt).mpr first
    rw [Option.getD_some,if_neg (formed.real _ _ heldOne),nextLevel_peek]
    dsimp only
    cases second : next long m.mem pdpt (pdptIndex v) with
    | none =>
      refine .inl ⟨rfl,fun pt held => ?_⟩
      obtain ⟨pd,upper,_⟩ := (three pt).mp held
      obtain ⟨other,top,leads⟩ := (two pd).mp upper
      rw [held_unique top heldOne,second] at leads
      cases leads
    | some pd =>
      have heldTwo := (two pd).mpr ⟨pdpt,heldOne,second⟩
      rw [Option.getD_some,if_neg (formed.real _ _ heldTwo),nextLevel_peek]
      dsimp only
      cases third : next long m.mem pd (pdIndex v) with
      | none =>
        refine .inl ⟨rfl,fun pt held => ?_⟩
        obtain ⟨other,upper,leads⟩ := (three pt).mp held
        rw [held_unique upper heldTwo,third] at leads
        cases leads
      | some pt =>
        have heldThree := (three pt).mpr ⟨pd,heldTwo,third⟩
        have real := formed.real _ _ heldThree
        rw [Option.getD_some,if_neg real]
        exact .inr ⟨pt,heldThree,rfl,by omega⟩

theorem formed_apart (formed : Formed m) (aligned : base % pageSize = 0) (held : Held long m.mem m.pml4 path table)
    (other : table ≠ base) : Apart base pageSize table pageSize := by
  have page := formed.aligned path table held
  simp only [Apart,pageSize] at *
  omega

-- A frame of zeros is hung as a new table where there was none. Nothing else changes that
-- a walk could see.
structure Linked (m : Mmu) (mem : Memory) (path : List Nat) (k base : Nat) : Prop where
  formed : Formed {m with mem:=mem}
  held : ∀ q b,Held long mem m.pml4 q b ↔ Held long m.mem m.pml4 q b ∨ q = path++[k] ∧ b = base
  walks : ∀ v,leafAt long mem m.pml4 (pathOf v) (ptIndex v) = walk m v
  kept : ∀ q b l,Held long m.mem m.pml4 q b → l < entries → (path = q → k ≠ l) → entry mem b l = entry m.mem b l
  empty : ∀ l < entries,entry mem base l = 0#64

theorem link_formed (formed : Formed m) (held : Held long m.mem m.pml4 path table) (deeper : path.length < 3)
    (low : k < entries) (none : has (entry m.mem table k) pagePresent = false) (aligned : base % pageSize = 0)
    (small : base < 2^52) (real : base ≠ 0) (fresh : ∀ q b,Held long m.mem m.pml4 q b → b ≠ base) :
    Linked m (setEntry (fill m.mem base pageSize 0#8) table k (tableEntry base)) path k base := by
  have apart : ∀ q b,Held long m.mem m.pml4 q b → Apart base pageSize b pageSize :=
    fun q b there => formed_apart formed aligned there (fresh q b there)
  obtain ⟨present,target⟩ := tableEntry_parts aligned small
  generalize blank : fill m.mem base pageSize 0#8 = mem
  have zero : ∀ x < pageSize,mem (base+x) = 0#8 := by
    intro x inside
    rw [←blank]
    exact patch_inside m.mem _ (by omega) (by omega)
  have same : ∀ q b,Held long m.mem m.pml4 q b → ∀ x < span long q,mem (b+x) = m.mem (b+x) := by
    intro q b there x inside
    have separate := apart q b there
    rw [span_page] at inside
    rw [←blank]
    refine patch_outside m.mem _ ?_
    simp only [Apart] at separate
    omega
  have kept := held_congr same
  have tree := tree_congr formed.tree fun path table => (kept path table).mp
  have here := (kept path table).mpr held
  have unlinked : next long mem table k = Option.none := by
    rw [next,entry_same same held low]
    exact if_neg (by rw [show long.present (entry m.mem table k) = false from none]; exact Bool.false_ne_true)
  have separate : ∀ q b,Held long mem m.pml4 q b → Apart base (span long (path++[k])) b (span long q) := by
    intro q b there
    rw [span_page,span_page]
    exact apart q b ((kept q b).mp there)
  have zeros : ∀ x < span long (path++[k]),mem (base+x) = 0#8 := by
    intro x inside
    exact zero x (by rwa [span_page] at inside)
  have linked := held_link tree here deeper low unlinked present target zeros separate
  refine ⟨⟨?_,?_,?_⟩,?_,?_,?_,?_⟩
  · exact tree_link tree (fun path table => (linked path table).mp) separate
  · intro q b there
    rcases (linked q b).mp there with old | ⟨_,rfl⟩
    · exact formed.aligned q b ((kept q b).mp old)
    · exact aligned
  · intro q b there
    rcases (linked q b).mp there with old | ⟨_,rfl⟩
    · exact formed.real q b ((kept q b).mp old)
    · exact real
  · intro q b
    rw [linked,kept]
  · intro v
    unfold walk
    rw [leafAt_link tree here deeper low unlinked present target zeros separate rfl (path_range v) (ptIndex_low v)]
    refine leafAt_same rfl (path_range v) ?_ fun b there => .inl ((kept _ b).mp there)
    intro b there
    exact ⟨(kept _ b).mpr there,entry_same same there (ptIndex_low v)⟩
  · intro q b l there lowToo different
    rw [entry_kept tree here ((kept q b).mpr there) low lowToo different,entry_same same there lowToo]
  · intro l lowToo
    have outside := apart path table held
    have empty : entry mem base l = 0#64 := by
      apply entry_zero
      intro x inside
      rw [Nat.add_assoc]
      refine zero _ ?_
      simp only [entries,pageSize] at *
      omega
    rw [entry_set_apart _ _ ?_,empty]
    simp only [Apart,entries,pageSize] at *
    omega

-- One leaf is written.
theorem leaf_formed (formed : Formed m) (held : Held long m.mem m.pml4 (pathOf v) pt) (e : Entry) :
    Formed {m with mem:=setEntry m.mem pt (ptIndex v) e} ∧
    (∀ path table,Held long (setEntry m.mem pt (ptIndex v) e) m.pml4 path table ↔ Held long m.mem m.pml4 path table) ∧
    ∀ w,walk {m with mem:=setEntry m.mem pt (ptIndex v) e} w = if pathOf w = pathOf v ∧ ptIndex w = ptIndex v then
      (if has e pagePresent = true then some e else none) else walk m w := by
  have low := ptIndex_low v
  have keeps : (pathOf v).length < long.depth → next long (setEntry m.mem pt (ptIndex v) e) pt (ptIndex v) =
      next long m.mem pt (ptIndex v) := fun shallow => absurd shallow (by decide : ¬ 3 < 3)
  have kept := held_set formed.tree held low keeps
  refine ⟨⟨tree_congr formed.tree fun path table => (kept path table).mp,?_,?_⟩,kept,?_⟩
  · exact fun path table there => formed.aligned path table ((kept path table).mp there)
  · exact fun path table there => formed.real path table ((kept path table).mp there)
  · intro w
    exact leafAt_set formed.tree held low keeps rfl (path_range w) (ptIndex_low w)

-- paging_map goes down three levels and writes the leaf; what each level keeps it keeps.
theorem pagingMap_route (kept : Mmu → Prop) (start : kept m)
    (step : ∀ {now path table k},kept now → Held long now.mem now.pml4 path table → path.length < 3 → k < entries →
      kept (nextLevel now table k true).2 ∧ ((nextLevel now table k true).1 ≠ 0 →
        Held long (nextLevel now table k true).2.mem (nextLevel now table k true).2.pml4 (path++[k]) (nextLevel now table k true).1))
    (v phys : Nat) (flags : Entry) : (∃ after,pagingMap m v phys flags = (false,after) ∧ kept after) ∨
      ∃ middle pt,kept middle ∧ Held long middle.mem middle.pml4 (pathOf v) pt ∧ pagingMap m v phys flags =
        (true,{middle with mem:=setEntry middle.mem pt (ptIndex v) ((BitVec.ofNat 64 phys &&& addressMask) ||| flags)}) := by
  have indices : pml4Index v < entries ∧ pdptIndex v < entries ∧ pdIndex v < entries := by
    simp only [pml4Index,pdptIndex,pdIndex,entries]
    omega
  unfold pagingMap
  obtain ⟨keptOne,one⟩ := step start ((held_nil ..).mpr rfl) (by decide : 0 < 3) indices.1
  generalize nextLevel m m.pml4 (pml4Index v) true = answer at *
  obtain ⟨pdpt,first⟩ := answer
  dsimp only at *
  by_cases zero : pdpt = 0
  · exact .inl ⟨first,if_pos zero,keptOne⟩
  rw [if_neg zero]
  obtain ⟨keptTwo,two⟩ := step keptOne (one zero) (by decide : 1 < 3) indices.2.1
  generalize nextLevel first pdpt (pdptIndex v) true = answer at *
  obtain ⟨pd,second⟩ := answer
  dsimp only at *
  by_cases zero : pd = 0
  · exact .inl ⟨second,if_pos zero,keptTwo⟩
  rw [if_neg zero]
  obtain ⟨keptThree,three⟩ := step keptTwo (two zero) (by decide : 2 < 3) indices.2.2
  generalize nextLevel second pd (pdIndex v) true = answer at *
  obtain ⟨pt,third⟩ := answer
  dsimp only at *
  by_cases zero : pt = 0
  · exact .inl ⟨third,if_pos zero,keptThree⟩
  rw [if_neg zero]
  exact .inr ⟨third,pt,keptThree,three zero,rfl⟩

end Arthic.LongTables
