import Arthic.RoundRobin

namespace Arthic.SleepDeadlines
open Scheduler SchedulerRing SchedulerRuns RingWalks Transition Unsigned
variable {s : Sched} {m later : Machine} {ring others lap : List Nat} {c wake ticks : Nat} {labels : List Call}

-- The deadline task_sleep computes, in both of its branches, and the test of the loop in
-- which task 0 waits for it.
def sleepTarget (s : Sched) (ticks : Nat) : Nat := wrap 32 (s.ticks+ticks)
def busyWaits (s : Sched) (target : Nat) : Prop := s.ticks < target

def ticksIn (labels : List Call) : Nat := labels.countP isTick

def isKill : Call → Bool
  | .taskKill _ => true
  | _ => false

structure Asleep (s : Sched) (c wake : Nat) : Prop where
  place : ∃ lap,Lap s lap ∧ c ∈ s.current::lap
  created : c ≠ s.taskRing
  state : (s.tasks c).state = .sleeping
  deadline : (s.tasks c).wakeTick = wake

theorem wake_same {now : Sched} (standings : ∀ t,standing (now.tasks t) = standing (s.tasks t)) (t : Nat) :
    (now.tasks t).wakeTick = (s.tasks t).wakeTick := by
  have same := standings t
  simp only [standing,Prod.mk.injEq] at same
  exact same.2.1

-- Before the deadline task_schedule passes a sleeper by.
theorem asleep_schedule (valid : Ring s ring others) (asleep : Asleep s c wake) (early : s.ticks < wake) :
    Asleep (taskSchedule s) c wake ∧ (taskSchedule s).ticks = s.ticks := by
  obtain ⟨⟨lap,lapped,member⟩,created,state,deadline⟩ := asleep
  obtain ⟨seen,tail,left,rfl,call⟩ := schedule_parts valid lapped
  have still : stateThen s ring c = .sleeping := by
    unfold stateThen
    rw [if_neg]
    · exact state
    · rintro ⟨_,_,due⟩
      rw [deadline] at due
      omega
  have rest := call.rest
  simp only [Prod.mk.injEq] at rest
  have passed : c ≠ (taskSchedule s).current := by
    rcases call.turn with ⟨_,fallback⟩ | ⟨_,_,ready,_⟩
    · rw [fallback]
      split
      · rename_i running
        rintro rfl
        rw [still] at running
        cases running
      · exact created
    · rintro rfl
      rw [still] at ready
      cases ready
  refine ⟨⟨⟨left,call.lap,call.kept.mem_iff.mpr ?_⟩,?_,?_,?_⟩,rest.2.2.1⟩
  · rcases List.mem_cons.mp member with here | inside
    · rw [here]
      exact List.mem_cons_self ..
    · refine List.mem_cons_of_mem _ ?_
      rcases List.mem_append.mp inside with walked | ahead
      · exact List.mem_append_left _ (List.mem_filter.mpr ⟨walked,by simp [still]⟩)
      · exact List.mem_append_right _ ahead
  · rw [rest.1]
    exact created
  · rw [call.states,if_neg passed,still,if_neg (by simp)]
  · rw [wake_same call.standings]
    exact deadline

theorem asleep_quiet {now : Sched} (quiet : Quiet s now call) (tame : isKill call = false) (asleep : Asleep s c wake) :
    Asleep now c wake := by
  obtain ⟨⟨lap,⟨path,simple⟩,member⟩,created,state,deadline⟩ := asleep
  obtain ⟨links,states,standings,rest,_⟩ := quiet
  simp only [Prod.mk.injEq] at rest
  refine ⟨⟨lap,⟨?_,?_⟩,?_⟩,?_,?_,?_⟩
  · rw [links,rest.1]
    exact path
  · rw [rest.1]
    exact simple
  · rw [rest.1]
    exact member
  · rw [rest.2.1]
    exact created
  · rcases states c with same | blocked | ⟨id,rfl,_⟩
    · rw [same]
      exact state
    · rw [state] at blocked
      cases blocked
    · cases tame
  · rw [wake_same standings]
    exact deadline

theorem asleep_joined (asleep : Asleep s c wake) (valid : Ring s ring others) (outside : t ∉ ring) (heap : Kheap.Heap)
    (frames : Pmm.State 32) (record : Task) : Asleep (joined s t heap frames record) c wake := by
  obtain ⟨⟨lap,lapped,member⟩,created,state,deadline⟩ := asleep
  have perm := lap_perm valid lapped
  have different : t ≠ s.current := fun same => outside (by rw [same]; exact valid.current)
  have lapOut : t ∉ lap := fun inside => outside (perm.mem_iff.mp (List.mem_cons_of_mem _ inside))
  have other : c ≠ t := by
    rintro rfl
    exact outside (perm.mem_iff.mp member)
  obtain ⟨_,_,states,_⟩ := joined_parts s heap frames record different
  have current : (joined s t heap frames record).current = s.current := rfl
  refine ⟨⟨t::lap,lap_joined lapped different lapOut heap frames record,?_⟩,created,?_,?_⟩
  · rw [current]
    simp only [List.mem_cons] at member ⊢
    tauto
  · rw [states,if_neg other]
    exact state
  · by_cases own : c = s.current
    · subst own
      simpa [joined,setNext,setTask,other] using deadline
    · simpa [joined,setNext,setTask,other,own] using deadline

theorem schedule_ticks (valid : Ring s ring others) : (taskSchedule s).ticks = s.ticks := by
  obtain ⟨lap,lapped,_⟩ := ring_lap valid
  obtain ⟨_,_,_,_,call⟩ := schedule_parts valid lapped
  have rest := call.rest
  simp only [Prod.mk.injEq] at rest
  exact rest.2.2.1

theorem step_ticks (kept : Kept m) (allowed : Allowed m call) :
    (apply m call).sched.ticks = if isTick call then wrap 32 (m.sched.ticks+1) else m.sched.ticks := by
  obtain ⟨ring,valid,running⟩ := kept
  cases counted : isTick call with
  | true =>
    cases call with
    | tick => rfl
    | _ => cases counted
  | false =>
    rw [if_neg (by simp)]
    rcases call_outcome valid running allowed with ⟨now,moment,same⟩ | quiet | ⟨t,heap,frames,record,same,_⟩
    · have rest := (moment_same moment).2.2.1
      simp only [Prod.mk.injEq] at rest
      rw [same,schedule_ticks (moment_ring valid moment).1]
      exact rest.2.2.2
    · rw [quiet.ticks,counted]
      rfl
    · rw [same]
      rfl

theorem asleep_step (kept : Kept m) (allowed : Allowed m call) (tame : isKill call = false) (asleep : Asleep m.sched c wake)
    (early : m.sched.ticks < wake) : Asleep (apply m call).sched c wake := by
  obtain ⟨ring,valid,running⟩ := kept
  rcases call_outcome valid running allowed with ⟨now,moment,same⟩ | quiet | ⟨t,heap,frames,record,same,outside,_⟩
  · obtain ⟨links,_,rest,others⟩ := moment_same moment
    simp only [Prod.mk.injEq] at rest
    obtain ⟨⟨lap,⟨path,simple⟩,member⟩,created,state,deadline⟩ := asleep
    -- the sleeper is not the one who calls
    have other : c ≠ m.sched.current := by
      rintro rfl
      rw [running] at state
      cases state
    have asleepNow : Asleep now c wake := by
      refine ⟨⟨lap,⟨?_,?_⟩,?_⟩,?_,?_,?_⟩
      · rw [links,rest.1]
        exact path
      · rw [rest.1]
        exact simple
      · rw [rest.1]
        exact member
      · rw [rest.2.1]
        exact created
      · rw [(others c other).1]
        exact state
      · have stands := (others c other).2
        simp only [standing,Prod.mk.injEq] at stands
        rw [stands.2.1]
        exact deadline
    rw [same]
    exact (asleep_schedule (moment_ring valid moment).1 asleepNow (by rw [rest.2.2.2]; exact early)).1
  · exact asleep_quiet quiet tame asleep
  · rw [same]
    exact asleep_joined asleep valid outside heap frames record

theorem ticksIn_snoc (labels : List Call) (call : Call) :
    ticksIn (labels++[call]) = ticksIn labels+if isTick call then 1 else 0 := by
  simp [ticksIn,List.countP_append,List.countP_singleton]

-- While the counter does not run over it counts the ticks.
theorem runs_ticks (runs : Runs (scheduler kernelEnd mbi) m labels later) (kept : Kept m)
    (small : m.sched.ticks+ticksIn labels < 2^32) : Kept later ∧ later.sched.ticks = m.sched.ticks+ticksIn labels := by
  induction runs with
  | nil => exact ⟨kept,rfl⟩
  | step earlier step ih =>
    rename_i labels middle call after
    obtain ⟨allowed,rfl⟩ := step
    rw [ticksIn_snoc] at small ⊢
    obtain ⟨keptThen,counted⟩ := ih (by omega)
    refine ⟨kept_step keptThen allowed,?_⟩
    rw [step_ticks keptThen allowed]
    split
    · rename_i tick
      rw [if_pos tick] at small
      rw [counted,wrap_small (by omega),Nat.add_assoc]
    · rw [counted,Nat.add_zero]

theorem runs_asleep (runs : Runs (scheduler kernelEnd mbi) m labels later) (kept : Kept m) (asleep : Asleep m.sched c wake)
    (tame : ∀ call ∈ labels,isKill call = false) (early : m.sched.ticks+ticksIn labels < wake) (small : wake < 2^32) :
    Asleep later.sched c wake := by
  induction runs with
  | nil => exact asleep
  | step earlier step ih =>
    rename_i labels middle call after
    obtain ⟨allowed,rfl⟩ := step
    rw [ticksIn_snoc] at early
    obtain ⟨keptThen,counted⟩ := runs_ticks earlier kept (by omega)
    have before := ih (fun call member => tame call (List.mem_append_left _ member)) (by omega)
    refine asleep_step keptThen allowed (tame call (by simp)) before ?_
    omega

-- Task 0 has not left its loop, and any other task is still asleep.
def Waits (m : Machine) (ticks : Nat) (later : Machine) : Prop :=
  if m.sched.current = m.sched.taskRing then busyWaits later.sched (sleepTarget m.sched ticks)
  else (later.sched.tasks m.sched.current).state = .sleeping

-- In every run that follows the call with fewer ticks than were asked for.
def NeverEarly (kernelEnd : Nat) (mbi : Pmm.MultibootInfo) (m : Machine) (ticks : Nat) : Prop :=
  ∀ labels later,Runs (scheduler kernelEnd mbi) (apply m (.taskSleep ticks)) labels later →
    (∀ call ∈ labels,isKill call = false) → ticksIn labels < ticks → Waits m ticks later

-- The state in which a created task gives the processor away.
def dozing (s : Sched) (ticks : Nat) : Sched :=
  setTask s s.current {s.tasks s.current with wakeTick:=sleepTarget s ticks,state:=.sleeping}

theorem taskSleep_created (valid : Ring s ring others) (created : s.current ≠ s.taskRing) (ticks : Nat) :
    taskSleep s ticks = taskSchedule (dozing s ticks) := by
  unfold taskSleep
  rw [if_neg (by simp [valid.enabled,valid.nonzero valid.current,created])]
  rfl

theorem taskSleep_root (root : s.current = s.taskRing) (ticks : Nat) : taskSleep s ticks = s := by
  unfold taskSleep
  rw [if_pos (.inr (.inr root))]

theorem dozing_parts (s : Sched) (ticks : Nat) : (dozing s ticks).current = s.current ∧ (dozing s ticks).ticks = s.ticks ∧
    ((dozing s ticks).tasks s.current).state = .sleeping ∧
    ((dozing s ticks).tasks s.current).wakeTick = sleepTarget s ticks := by
  refine ⟨rfl,rfl,?_,?_⟩ <;> simp [dozing,setTask]

theorem dozing_asleep (valid : Ring s ring others) (created : s.current ≠ s.taskRing) (ticks : Nat) :
    Ring (dozing s ticks) ring others ∧ Asleep (dozing s ticks) s.current (sleepTarget s ticks) := by
  have now : Ring (dozing s ticks) ring others := (moment_ring valid (.asleep ticks created)).1
  obtain ⟨_,_,state,deadline⟩ := dozing_parts s ticks
  obtain ⟨lap,lapped,_⟩ := ring_lap now
  exact ⟨now,⟨lap,lapped,List.mem_cons_self ..⟩,created,state,deadline⟩

-- A deadline that has run over is over already, and the call's own pass wakes the caller.
theorem overdue_awake (valid : Ring s ring others) (created : s.current ≠ s.taskRing)
    (near : s.current ∈ ring.take (ringGuard+1)) (due : sleepTarget s ticks ≤ s.ticks) :
    ((taskSleep s ticks).tasks s.current).state ≠ .sleeping := by
  obtain ⟨now,asleep⟩ := dozing_asleep valid created ticks
  obtain ⟨_,counter,state,deadline⟩ := dozing_parts s ticks
  obtain ⟨lap,lapped,_⟩ := ring_lap now
  obtain ⟨_,_,_,_,call⟩ := schedule_parts now lapped
  have woken : stateThen (dozing s ticks) ring s.current = .ready :=
    if_pos ⟨near,state,by rw [deadline,counter]; exact due⟩
  rw [taskSleep_created valid created,call.states,woken]
  split
  · exact nofun
  · split <;> exact nofun

theorem sleeps_long_enough (reached : Reached (scheduler kernelEnd mbi) m) (counter : m.sched.ticks < 2^32)
    (asked : ticks < 2^32) : ∃ ring,Cycle m.sched ring ∧
      (m.sched.ticks+ticks < 2^32 → NeverEarly kernelEnd mbi m ticks) ∧
      (m.sched.current ∈ ring.take (ringGuard+1) → NeverEarly kernelEnd mbi m ticks → m.sched.ticks+ticks < 2^32) := by
  obtain ⟨ring,valid,running⟩ := runs_kept reached
  have kept : Kept m := ⟨ring,valid,running⟩
  have keptThen : Kept (apply m (.taskSleep ticks)) := kept_step kept trivial
  refine ⟨ring,ring_cycle valid,?_,?_⟩
  · intro fits labels later runs tame few
    have exact : sleepTarget m.sched ticks = m.sched.ticks+ticks := wrap_small fits
    unfold Waits
    split
    · rename_i root
      have same : (apply m (.taskSleep ticks)).sched = m.sched := taskSleep_root root ticks
      obtain ⟨_,counted⟩ := runs_ticks runs keptThen (by rw [same]; omega)
      rw [busyWaits,counted,same,exact]
      omega
    · rename_i created
      obtain ⟨now,asleep⟩ := dozing_asleep valid created ticks
      have soon : (dozing m.sched ticks).ticks = m.sched.ticks := rfl
      obtain ⟨slept,still⟩ := asleep_schedule now asleep (by rw [soon,exact]; omega)
      have same : (apply m (.taskSleep ticks)).sched = taskSchedule (dozing m.sched ticks) := taskSleep_created valid created ticks
      rw [←same] at slept still
      refine (runs_asleep runs keptThen slept tame ?_ ?_).state
      · rw [still,soon,exact]
        omega
      · rw [exact]
        exact fits
  · intro near never
    by_contra due
    have wrapped : sleepTarget m.sched ticks ≤ m.sched.ticks := by
      simp only [sleepTarget,wrap]
      omega
    have waits := never [] _ .nil (List.forall_mem_nil _) (by simp only [ticksIn,List.countP_nil]; omega)
    unfold Waits at waits
    split at waits
    · rename_i root
      have same : (apply m (.taskSleep ticks)).sched = m.sched := taskSleep_root root ticks
      rw [busyWaits,same] at waits
      omega
    · rename_i created
      exact overdue_awake valid created near wrapped waits

-- One tick after the start the second task asks for the longest sleep there is.
def drowsy : Machine := apply RoundRobin.turned .tick

theorem drowsy_ran : drowsy.sched.current ≠ drowsy.sched.taskRing ∧ drowsy.sched.ticks = 1 ∧
    ((taskSleep drowsy.sched 0xFFFFFFFF).tasks drowsy.sched.current).state ≠ .sleeping := by decide

theorem drowsy_reached : Reached (scheduler 0x101000 KheapRuns.roomyMap) drowsy :=
  @reached_by _ _ _ Allowed apply _ [.frames roomForStack,.taskCreateEx 0 0 0,.taskSchedule,.tick] freshStart_started
    ⟨trivial,trivial,trivial,trivial,trivial⟩

theorem sleeps_long_enough_drowsy : NeverEarly 0x101000 KheapRuns.roomyMap drowsy 5 := by
  have counter := drowsy_ran.2.1
  obtain ⟨_,_,long,_⟩ := @sleeps_long_enough drowsy 5 _ _ drowsy_reached (by rw [counter]; decide) (by decide)
  exact long (by rw [counter]; decide)

-- It is READY again before any tick.
theorem slept_too_short : Reached (scheduler 0x101000 KheapRuns.roomyMap) drowsy ∧
    ¬ NeverEarly 0x101000 KheapRuns.roomyMap drowsy 0xFFFFFFFF := by
  obtain ⟨created,_,awake⟩ := drowsy_ran
  refine ⟨drowsy_reached,fun never => awake ?_⟩
  have waits := never [] _ .nil (List.forall_mem_nil _) (by decide)
  rw [Waits,if_neg created] at waits
  exact waits

end Arthic.SleepDeadlines
