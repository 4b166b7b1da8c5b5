import Arthic.Pmm
import Mathlib.Tactic.IntervalCases

namespace Arthic.FrameRuns
open BitWords Pmm Unsigned
variable {w : Nat} {p : State w}

structure FreeRun (p : State w) (start count : Nat) : Prop where
  inside : start+count ≤ p.totalFrames
  free : ∀ frame,start ≤ frame → frame < start+count → frameTest p frame = false

structure Lowest (p : State w) (start count : Nat) : Prop where
  run : FreeRun p start count
  first : ∀ earlier < start,¬ FreeRun p earlier count

-- Where the loop stands before it looks at a frame: the run it is in reaches up to that
-- frame and is too short, and no run begins before it.
structure Window (p : State w) (count frame runStart runLength : Nat) : Prop where
  adjacent : runStart+runLength = frame
  short : runLength < count
  clear : ∀ f,runStart ≤ f → f < frame → frameTest p f = false
  none : ∀ earlier < runStart,¬ FreeRun p earlier count

-- A used frame ends the run, and every run that would have to contain it.
theorem window_used (window : Window p count frame runStart runLength) (used : frameTest p frame = true) :
    Window p count (frame+1) (frame+1) 0 := by
  have short := window.short
  have adjacent := window.adjacent
  refine ⟨rfl,by omega,by omega,?_⟩
  intro earlier before run
  by_cases old : earlier < runStart
  · exact window.none earlier old run
  · have free := run.free frame (by omega) (by omega)
    rw [used] at free
    cases free

theorem window_free (window : Window p count frame runStart runLength) (free : frameTest p frame = false) :
    ∀ f,runStart ≤ f → f < frame+1 → frameTest p f = false := by
  intro f lower upper
  by_cases last : f = frame
  · subst last
    exact free
  · exact window.clear f lower (by omega)

theorem findRun_exact (window : Window p count frame runStart runLength) (whole : frame+left = p.totalFrames) :
    (∃ start,findRun p count left frame runStart runLength = some start ∧ Lowest p start count) ∨
    findRun p count left frame runStart runLength = none ∧ ∀ start,¬ FreeRun p start count := by
  have adjacent := window.adjacent
  have short := window.short
  induction left generalizing frame runStart runLength with
  | zero =>
    refine .inr ⟨rfl,fun start run => ?_⟩
    have inside := run.inside
    exact window.none start (by omega) run
  | succ left ih =>
    unfold findRun
    cases used : frameTest p frame with
    | true => exact ih (window_used window used) (by omega) rfl (by omega)
    | false =>
      have clear := window_free window used
      simp only [Bool.false_eq_true,if_false]
      by_cases full : runLength+1 = count
      · rw [if_pos full]
        refine .inl ⟨runStart,rfl,⟨by omega,?_⟩,window.none⟩
        intro f lower upper
        exact clear f lower (by omega)
      · rw [if_neg full]
        exact ih ⟨by omega,by omega,clear,window.none⟩ (by omega) (by omega) (by omega)

theorem claimRun_used (sound : Sound p) (run : FreeRun p start count) :
    (claimRun p start count).usedFrames = p.usedFrames+count := by
  induction count generalizing p start with
  | zero => rfl
  | succ count ih =>
    have inside := run.inside
    have clear := run.free start (Nat.le_refl _) (by omega)
    have first : Sound (claim p start) := claim_sound sound (by omega) clear
    have rest : FreeRun (claim p start) (start+1) count := by
      refine ⟨?_,fun frame lower upper => ?_⟩
      · change start+1+count ≤ p.totalFrames
        omega
      · rw [claim_test sound.wide,run.free frame (by omega) (by omega),decide_eq_false (by omega)]
        rfl
    have counted : (claim p start).usedFrames = p.usedFrames+1 := by
      rw [first.counted,sound.counted]
      have grown := size_setBit sound.wide p.bitmap (show start < p.totalFrames by omega)
        (by rwa [frameTest_member sound.wide] at clear)
      exact grown
    have shape : claimRun p start (count+1) = claimRun (claim p start) (start+1) count := by
      rw [claimRun,claimRun,List.range'_succ,List.foldl_cons]
    rw [shape,ih first rest,counted]
    omega

-- What a call answers and does.
structure Served (p : State w) (start count : Nat) (answer : Nat × State w) : Prop where
  addr : answer.1 = 4096*start
  total : answer.2.totalFrames = p.totalFrames
  used : answer.2.usedFrames = p.usedFrames+count
  bits : ∀ frame,frameTest answer.2 frame = (decide (start ≤ frame ∧ frame < start+count) || frameTest p frame)

theorem allocFrames_served (sound : Sound p) (count : Nat) :
    (count = 0 ∨ ∀ start,¬ FreeRun p start count) ∧ pmmAllocFrames p count = (0,p) ∨
    0 < count ∧ ∃ start,Lowest p start count ∧ Served p start count (pmmAllocFrames p count) := by
  unfold pmmAllocFrames
  by_cases none : count = 0
  · exact .inl ⟨.inl none,if_pos none⟩
  rw [if_neg none]
  have begun : Window p count 0 0 0 := ⟨rfl,by omega,by omega,by omega⟩
  rcases findRun_exact begun (Nat.zero_add _) with ⟨start,found,lowest⟩ | ⟨missed,nowhere⟩
  · have inside := lowest.run.inside
    rw [found]
    refine .inr ⟨by omega,start,lowest,?_,claimRun_total p start count,claimRun_used sound lowest.run,fun frame => ?_⟩
    · dsimp only
      rw [wrap_small (sound.address_small (by omega)),pageSize,Nat.mul_comm]
    · rw [claimRun_test sound.wide]
      by_cases among : start ≤ frame ∧ frame < start+count
      · rw [if_pos among,decide_eq_true among]
        rfl
      · rw [if_neg among,decide_eq_false among]
        rfl
  · rw [missed]
    exact .inl ⟨.inr nowhere,rfl⟩

-- pmm_alloc_frames finds the lowest run there is, and refuses only when there is none.
theorem alloc_frames_exact (sound : Sound p) (reserved : frameTest p 0 = true) (count : Nat) :
    ((pmmAllocFrames p count).1 = 0 ↔ count = 0 ∨ ∀ start,¬ FreeRun p start count) ∧
    ((pmmAllocFrames p count).1 = 0 → (pmmAllocFrames p count).2 = p) ∧
    (0 < count → (∃ start,FreeRun p start count) →
      ∃ start,Lowest p start count ∧ Served p start count (pmmAllocFrames p count)) := by
  rcases allocFrames_served sound count with ⟨refused,same⟩ | ⟨some,start,lowest,served⟩
  · rw [same]
    refine ⟨iff_of_true rfl refused,fun _ => rfl,fun some run => ?_⟩
    obtain ⟨start,free⟩ := run
    rcases refused with none | nowhere
    · omega
    · exact absurd free (nowhere start)
  · have real : (pmmAllocFrames p count).1 ≠ 0 := by
      rw [served.addr]
      intro zero
      have first : start = 0 := by omega
      subst first
      have free := lowest.run.free 0 (Nat.le_refl _) (by omega)
      rw [reserved] at free
      cases free
    refine ⟨iff_of_false real ?_,fun zero => absurd zero real,fun _ _ => ⟨start,lowest,served⟩⟩
    rintro (none | nowhere)
    · omega
    · exact nowhere start lowest.run

-- Frames 0, 3 and 6 of twelve are used: the lowest run of three begins at 7.
def gappy : State 32 := ⟨fun _ => 0x49#32,12,3⟩

theorem alloc_frames_exact_small : ∃ start,Lowest gappy start 3 ∧ Served gappy start 3 (pmmAllocFrames gappy 3) ∧ start = 7 := by
  have sound : Sound gappy := ⟨by decide,by decide,by decide⟩
  have run : FreeRun gappy 7 3 := ⟨by decide,fun frame lower upper => by
    interval_cases frame <;> decide⟩
  obtain ⟨start,lowest,served⟩ := (alloc_frames_exact sound (by decide) 3).2.2 (by decide) ⟨7,run⟩
  have address : 4096*start = 7*4096 := served.addr.symm.trans (by decide)
  exact ⟨start,lowest,served,by omega⟩

end Arthic.FrameRuns
