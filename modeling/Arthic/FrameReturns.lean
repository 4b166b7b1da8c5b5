import Arthic.PageTables

namespace Arthic.FrameReturns
open BitWords PageTables Pmm Unsigned
variable {w : Nat} {p q : State w}

-- The allocator's state is its set of marked frames; the counter follows from it.
theorem state_ext (sound : Sound p) (other : Sound q) (total : p.totalFrames = q.totalFrames)
    (same : ∀ frame,frameTest p frame = frameTest q frame) : p = q := by
  have words : p.bitmap = q.bitmap := by
    funext word
    apply BitVec.eq_of_getLsbD_eq
    intro i below
    have bit := same (word*w+i)
    rw [frameTest_member sound.wide,frameTest_member sound.wide,member,member,Nat.mul_comm word w,
      Nat.mul_add_div sound.wide,Nat.mul_add_mod,Nat.div_eq_of_lt below,Nat.mod_eq_of_lt below,Nat.add_zero] at bit
    exact bit
  have counter : p.usedFrames = q.usedFrames := by rw [sound.counted,other.counted,words,total]
  obtain ⟨_,_,_⟩ := p
  obtain ⟨_,_,_⟩ := q
  cases words
  cases counter
  cases total
  rfl

theorem marked_count (sound : Sound p) :
    p.usedFrames = ((List.range p.totalFrames).filter (frameTest p)).length := by
  rw [sound.counted]
  change ((List.range p.totalFrames).filter fun i => decide (member p.bitmap i = true)).length = _
  congr 1
  refine List.filter_congr fun frame _ => ?_
  rw [frameTest_member sound.wide,Bool.decide_eq_true]

-- Frame 0 is never free, so address 0 means that there was no frame.
theorem allocFrame_room {p : State 32} (sound : Sound p) (zero : Taken p 0) :
    (pmmAllocFrame p).1 ≠ 0 ↔ p.usedFrames < p.totalFrames := by
  unfold pmmAllocFrame
  split
  · rename_i frame found
    have free : frameTest p frame = false := by simpa using List.find?_some found
    have below := List.mem_range.mp (List.mem_of_find?_eq_some found)
    refine iff_of_true ?_ ?_
    · rw [wrap_small (sound.address_small below)]
      intro address
      have other := frame_free free below 0 zero
      rw [show frame*pageSize = 0 from address] at other
      exact other rfl
    · have grown := size_setBit (by decide) p.bitmap below (by rw [←frameTest_member (by decide)]; exact free)
      have bound := size_le (setBit p.bitmap frame) p.totalFrames
      have counted := sound.counted
      omega
  · rename_i none
    refine iff_of_false (fun real => real rfl) ?_
    have full := size_full p.bitmap (n:=p.totalFrames) fun i below => by
      rw [←frameTest_member (by decide)]
      simpa using List.find?_eq_none.mp none i (List.mem_range.mpr below)
    have counted := sound.counted
    omega

theorem free_test (wide : 0 < w) (p : State w) (addr frame : Nat) :
    frameTest (pmmFreeFrame p addr) frame = true ↔
      frameTest p frame = true ∧ (frame < p.totalFrames → frame ≠ addr/pageSize) := by
  unfold pmmFreeFrame
  dsimp only
  split
  · rename_i marked
    rw [release_test wide]
    by_cases equal : frame = addr/pageSize
    · subst equal
      simp [marked.1]
    · simp [equal]
  · rename_i unmarked
    constructor
    · intro marked
      refine ⟨marked,?_⟩
      rintro below rfl
      exact unmarked ⟨below,marked⟩
    · exact And.left

theorem free_total (p : State w) (addr : Nat) : (pmmFreeFrame p addr).totalFrames = p.totalFrames := by
  unfold pmmFreeFrame
  dsimp only
  split <;> rfl

theorem free_sound (sound : Sound p) (addr : Nat) : Sound (pmmFreeFrame p addr) := by
  unfold pmmFreeFrame
  dsimp only
  split
  · rename_i marked
    exact release_sound sound marked.1 marked.2
  · exact sound

-- A list of addresses given back in order.
def freeAll (p : State w) (addrs : List Nat) : State w := addrs.foldl pmmFreeFrame p
def numbers (addrs : List Nat) : List Nat := addrs.map (·/pageSize)

theorem freeAll_append (p : State w) (left right : List Nat) : freeAll p (left++right) = freeAll (freeAll p left) right :=
  List.foldl_append

theorem freeAll_parts (sound : Sound p) (addrs : List Nat) :
    Sound (freeAll p addrs) ∧ (freeAll p addrs).totalFrames = p.totalFrames ∧
    ∀ frame,frameTest (freeAll p addrs) frame = true ↔
      frameTest p frame = true ∧ (frame < p.totalFrames → frame ∉ numbers addrs) := by
  induction addrs generalizing p with
  | nil => exact ⟨sound,rfl,fun frame => by simp [freeAll,numbers]⟩
  | cons addr addrs ih =>
    obtain ⟨still,total,tests⟩ := ih (free_sound sound addr)
    refine ⟨still,total.trans (free_total p addr),?_⟩
    intro frame
    change frameTest (freeAll (pmmFreeFrame p addr) addrs) frame = true ↔ _
    rw [tests,free_test sound.wide,free_total,show numbers (addr::addrs) = addr/pageSize::numbers addrs from rfl,
      List.mem_cons]
    constructor
    · rintro ⟨⟨marked,first⟩,rest⟩
      exact ⟨marked,fun below => not_or.mpr ⟨first below,rest below⟩⟩
    · rintro ⟨marked,none⟩
      exact ⟨⟨marked,fun below => (not_or.mp (none below)).1⟩,fun below => (not_or.mp (none below)).2⟩

-- Every call of pmm_free_frame finds its frame marked, and no frame is named twice.
structure Returnable (p : State w) (addrs : List Nat) : Prop where
  distinct : (numbers addrs).Nodup
  marked : ∀ frame ∈ numbers addrs,frame < p.totalFrames ∧ frameTest p frame = true

section Runs
variable {frames : State 32}

def runAddrs (phys count : Nat) : List Nat := (List.range count).map fun i => wrap 32 (phys+i*pageSize)

theorem runAddrs_numbers (fits : (start+count)*pageSize ≤ 2^32) :
    numbers (runAddrs (start*pageSize) count) = List.range' start count := by
  rw [numbers,runAddrs,List.map_map,List.range'_eq_map_range]
  apply List.map_congr_left
  intro i member
  have below := List.mem_range.mp member
  rw [Function.comp_apply,wrap_small (by simp only [pageSize] at *; omega)]
  simp only [pageSize]
  omega

theorem fits_addressable (sound : Sound frames) (fits : start+count ≤ frames.totalFrames) :
    (start+count)*pageSize ≤ 2^32 :=
  Nat.le_of_lt (Nat.lt_of_le_of_lt (Nat.mul_le_mul_right _ fits) sound.addressable)

-- A run that was taken and is given back leaves no trace.
theorem claimRun_back (sound : Sound frames) (fits : start+count ≤ frames.totalFrames)
    (clear : ∀ frame,start ≤ frame → frame < start+count → frameTest frames frame = false) :
    freeAll (claimRun frames start count) (runAddrs (start*pageSize) count) = frames := by
  obtain ⟨back,total,tests⟩ := freeAll_parts (claimRun_sound sound fits clear) (runAddrs (start*pageSize) count)
  rw [claimRun_total] at total
  refine state_ext back sound total ?_
  intro frame
  rw [Bool.eq_iff_iff,tests,claimRun_test sound.wide,claimRun_total,runAddrs_numbers (fits_addressable sound fits),
    List.mem_range'_1]
  constructor
  · rintro ⟨marked,outside⟩
    split at marked
    · rename_i inside
      exact absurd inside (outside (by omega))
    · exact marked
  · intro marked
    have outside : ¬ (start ≤ frame ∧ frame < start+count) := by
      rintro ⟨lower,upper⟩
      rw [clear frame lower upper] at marked
      cases marked
    exact ⟨by rw [if_neg outside]; exact marked,fun _ => outside⟩

theorem claim_back (sound : Sound frames) (below : frame < frames.totalFrames) (clear : frameTest frames frame = false) :
    pmmFreeFrame (claim frames frame) (frame*pageSize) = frames := by
  have back := @claimRun_back frames frame 1 sound (by omega) fun other lower upper => by
    rw [show other = frame by omega,clear]
  rw [show runAddrs (frame*pageSize) 1 = [frame*pageSize] by
    simp only [runAddrs,List.range_one,List.map_cons,List.map_nil,Nat.zero_mul,Nat.add_zero]
    rw [wrap_small (sound.address_small below)]] at back
  exact back

-- Address 0 means that nothing was taken.
theorem allocFrames_cases (sound : Sound frames) (zero : Taken frames 0) (count : Nat) :
    pmmAllocFrames frames count = (0,frames) ∨ ∃ start,start*pageSize ≠ 0 ∧ start+count ≤ frames.totalFrames ∧
      (∀ frame,start ≤ frame → frame < start+count → frameTest frames frame = false) ∧
      pmmAllocFrames frames count = (start*pageSize,claimRun frames start count) := by
  rcases allocFrames_parts sound count with full | ⟨start,positive,fits,clear,taken⟩
  · exact .inl full
  · refine .inr ⟨start,?_,fits,clear,taken⟩
    intro address
    have other := frame_free (clear start (Nat.le_refl _) (by omega)) (by omega) 0 zero
    rw [address] at other
    exact other rfl

end Runs

end Arthic.FrameReturns
