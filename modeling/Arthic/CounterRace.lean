import Mathlib.Algebra.Order.BigOperators.Group.Finset
import Arthic.CounterThreads

namespace Arthic.CounterRace
open Scheduler Transition Unsigned CounterThreads

-- counter_thread with use_lock off: the same rounds without the two calls around them.
def raceRound (left : Nat) : Stage := if left = 0 then .leaving else .reading left

def raceStep (w : World) : World :=
  match w.stage w.sched.current with
  | .reading left => setStage w (.yielding left w.counter)
  | .yielding left value => setStage w (.writing left value)
  | .writing left value => {setStage w (raceRound (left-1)) with counter:=wrap 32 (value+1)}
  | .leaving => {setStage w .finished with sched:=setState w.sched w.sched.current .finished}
  | _ => w

def raceApply (w : World) : Label → World
  | .dispatch t => {w with sched:=switchTo w.sched t}
  | .step => raceStep w

structure Begun (workers : Finset Nat) (rounds : Nat) (w : World) : Prop where
  counter : w.counter = 0
  created : ∀ t ∈ workers,t ≠ 0 ∧ t ≠ w.sched.taskRing
  stage : ∀ t,w.stage t = if t ∈ workers then raceRound rounds else .outside

def racing (workers : Finset Nat) (rounds : Nat) : System World Label :=
  guarded (Begun workers rounds) Allowed raceApply

-- A thread on its way to a write, with the value it has read if it has one.
def Working : Stage → Prop
  | .reading _ => True
  | .yielding _ _ => True
  | .writing _ _ => True
  | _ => False

def Sane (rounds : Nat) : Stage → Prop
  | .outside => True
  | .reading left => 0 < left ∧ left ≤ rounds
  | .yielding left _ => 0 < left ∧ left ≤ rounds
  | .writing left _ => 0 < left ∧ left ≤ rounds
  | .leaving => True
  | .finished => True
  | _ => False

def seen : Stage → Option Nat
  | .yielding _ value => some value
  | .writing _ value => some value
  | _ => none

-- No value is larger than the writes so far, none is read as 0 by a thread that has written,
-- and when nobody is on the way to a write the last write was of a value behind another.
structure Raced (workers : Finset Nat) (rounds : Nat) (w : World) : Prop where
  sane : ∀ t,Sane rounds (w.stage t)
  members : ∀ t,w.stage t ≠ .outside → t ∈ workers
  most : w.counter ≤ ∑ t ∈ workers,done rounds (w.stage t)
  mostSeen : ∀ t value,seen (w.stage t) = some value → value ≤ ∑ t ∈ workers,done rounds (w.stage t)
  least : ∀ t,0 < done rounds (w.stage t) → 0 < w.counter
  leastSeen : ∀ t value,seen (w.stage t) = some value → 0 < done rounds (w.stage t) → 0 < value
  last : min 2 rounds ≤ w.counter ∨ ∃ t,Working (w.stage t)

variable {workers : Finset Nat} {rounds : Nat} {w next : World}

theorem done_bound (sane : Sane rounds stage) : done rounds stage ≤ rounds := by
  cases stage with
  | outside => exact Nat.zero_le _
  | reading left | yielding left value | writing left value => exact Nat.sub_le ..
  | leaving | finished => exact Nat.le_refl _
  | locking left resting | unlocking left => cases sane

theorem total_bound {stage : Nat → Stage} (workers : Finset Nat) (sane : ∀ t,Sane rounds (stage t)) :
    ∑ t ∈ workers,done rounds (stage t) ≤ workers.card*rounds :=
  (Finset.sum_le_sum fun t _ => done_bound (sane t)).trans (Nat.le_of_eq (Finset.sum_const_nat fun _ _ => rfl))

theorem begun_raced (nonempty : workers.Nonempty) (begun : Begun workers rounds w) : Raced workers rounds w := by
  have start : ∀ t,w.stage t = raceRound rounds ∨ w.stage t = .outside := fun t => by
    rw [begun.stage t]
    split
    · exact .inl rfl
    · exact .inr rfl
  have fresh : Sane rounds (raceRound rounds) ∧ done rounds (raceRound rounds) = 0 ∧ seen (raceRound rounds) = none := by
    unfold raceRound
    split
    · rename_i none
      exact ⟨trivial,none,rfl⟩
    · exact ⟨⟨by omega,Nat.le_refl _⟩,Nat.sub_self _,rfl⟩
  have unseen : ∀ t,seen (w.stage t) = none ∧ done rounds (w.stage t) = 0 := fun t => by
    rcases start t with same | same
    · rw [same]
      exact ⟨fresh.2.2,fresh.2.1⟩
    · rw [same]
      exact ⟨rfl,rfl⟩
  refine ⟨fun t => ?_,fun t busy => ?_,by rw [begun.counter]; exact Nat.zero_le _,fun t value read => ?_,fun t more => ?_,
    fun t value read => ?_,?_⟩
  · rcases start t with same | same
    · rw [same]
      exact fresh.1
    · rw [same]
      trivial
  · by_contra other
    rw [begun.stage,if_neg other] at busy
    exact busy rfl
  · rw [(unseen t).1] at read
    cases read
  · rw [(unseen t).2] at more
    exact absurd more (Nat.lt_irrefl 0)
  · rw [(unseen t).1] at read
    cases read
  · obtain ⟨t,member⟩ := nonempty
    rcases Nat.eq_zero_or_pos rounds with none | positive
    · left
      rw [none]
      exact Nat.zero_le _
    · right
      refine ⟨t,?_⟩
      rw [begun.stage,if_pos member,raceRound,if_neg (by omega)]
      trivial

theorem stage_elsewhere (stage : next.stage = Function.update w.stage w.sched.current now) (t : Nat) :
    t = w.sched.current ∧ next.stage t = now ∨ t ≠ w.sched.current ∧ next.stage t = w.stage t := by
  by_cases same : t = w.sched.current
  · exact .inl ⟨same,by rw [stage,same,Function.update_self]⟩
  · exact .inr ⟨same,by rw [stage,Function.update_of_ne same]⟩

-- A step of the current thread that writes nothing.
theorem raced_quiet (raced : Raced workers rounds w) (active : w.stage w.sched.current ≠ .outside)
    (stage : next.stage = Function.update w.stage w.sched.current now) (counter : next.counter = w.counter)
    (sane : Sane rounds now) (still : done rounds now = done rounds (w.stage w.sched.current))
    (reads : ∀ value,seen now = some value → value = w.counter ∨ seen (w.stage w.sched.current) = some value)
    (works : Working (w.stage w.sched.current) → Working now) : Raced workers rounds next := by
  have total : ∑ t ∈ workers,done rounds (next.stage t) = ∑ t ∈ workers,done rounds (w.stage t) := by
    rw [stage]
    exact sum_moves (raced.members _ active) (still.trans (Nat.add_zero _).symm)
  have same : ∀ t,done rounds (next.stage t) = done rounds (w.stage t) := fun t => by
    rcases stage_elsewhere stage t with ⟨rfl,here⟩ | ⟨_,there⟩
    · rw [here,still]
    · rw [there]
  refine ⟨fun t => ?_,fun t busy => ?_,by rw [counter,total]; exact raced.most,fun t value read => ?_,fun t more => ?_,
    fun t value read more => ?_,?_⟩
  · rcases stage_elsewhere stage t with ⟨_,here⟩ | ⟨_,there⟩
    · rw [here]
      exact sane
    · rw [there]
      exact raced.sane t
  · rcases stage_elsewhere stage t with ⟨rfl,_⟩ | ⟨_,there⟩
    · exact raced.members _ active
    · rw [there] at busy
      exact raced.members t busy
  · rw [total]
    rcases stage_elsewhere stage t with ⟨rfl,here⟩ | ⟨_,there⟩
    · rw [here] at read
      rcases reads value read with rfl | earlier
      · exact raced.most
      · exact raced.mostSeen _ _ earlier
    · rw [there] at read
      exact raced.mostSeen t value read
  · rw [counter]
    rw [same] at more
    exact raced.least t more
  · rw [same] at more
    rcases stage_elsewhere stage t with ⟨rfl,here⟩ | ⟨_,there⟩
    · rw [here] at read
      rcases reads value read with rfl | earlier
      · exact raced.least _ more
      · exact raced.leastSeen _ _ earlier more
    · rw [there] at read
      exact raced.leastSeen t value read more
  · rcases raced.last with enough | ⟨t,working⟩
    · left
      rw [counter]
      exact enough
    · right
      refine ⟨t,?_⟩
      rcases stage_elsewhere stage t with ⟨rfl,here⟩ | ⟨_,there⟩
      · rw [here]
        exact works working
      · rw [there]
        exact working

-- The write at the end of a round.
theorem raced_writes (raced : Raced workers rounds w) (small : workers.card*rounds < 2^32)
    (here : w.stage w.sched.current = .writing left value) (stage : next.stage = Function.update w.stage w.sched.current (raceRound (left-1)))
    (counter : next.counter = wrap 32 (value+1)) : Raced workers rounds next := by
  have active : w.stage w.sched.current ≠ .outside := by rw [here]; exact nofun
  obtain ⟨positive,below⟩ : 0 < left ∧ left ≤ rounds := by
    have sane := raced.sane w.sched.current
    rwa [here] at sane
  have read : seen (w.stage w.sched.current) = some value := by rw [here]; rfl
  have now : Sane rounds (raceRound (left-1)) ∧ done rounds (raceRound (left-1)) = rounds-left+1 ∧ seen (raceRound (left-1)) = none := by
    unfold raceRound
    split
    · exact ⟨trivial,by change rounds = _; omega,rfl⟩
    · exact ⟨⟨by omega,by omega⟩,by change rounds-(left-1) = _; omega,rfl⟩
  have before : done rounds (w.stage w.sched.current) = rounds-left := by rw [here]; rfl
  have total : ∑ t ∈ workers,done rounds (next.stage t) = (∑ t ∈ workers,done rounds (w.stage t))+1 := by
    rw [stage]
    exact sum_moves (raced.members _ active) (by rw [now.2.1,before])
  have allSane : ∀ t,Sane rounds (next.stage t) := fun t => by
    rcases stage_elsewhere stage t with ⟨_,same⟩ | ⟨_,there⟩
    · rw [same]
      exact now.1
    · rw [there]
      exact raced.sane t
  have most := raced.mostSeen _ _ read
  have whole := total_bound workers allSane
  have written : next.counter = value+1 := by
    rw [counter,wrap,Nat.mod_eq_of_lt (by omega)]
  refine ⟨allSane,fun t busy => ?_,by rw [written,total]; omega,fun t other saw => ?_,fun t _ => by rw [written]; exact Nat.succ_pos _,
    fun t other saw more => ?_,?_⟩
  · rcases stage_elsewhere stage t with ⟨rfl,_⟩ | ⟨_,there⟩
    · exact raced.members _ active
    · rw [there] at busy
      exact raced.members t busy
  · rcases stage_elsewhere stage t with ⟨_,same⟩ | ⟨_,there⟩
    · rw [same,now.2.2] at saw
      cases saw
    · rw [there] at saw
      rw [total]
      exact Nat.le_succ_of_le (raced.mostSeen t other saw)
  · rcases stage_elsewhere stage t with ⟨_,same⟩ | ⟨_,there⟩
    · rw [same,now.2.2] at saw
      cases saw
    · rw [there] at saw more
      exact raced.leastSeen t other saw more
  · by_cases ends : left = 1
    · left
      -- The last write of a thread: unless it is its first one, what it read was not 0.
      by_cases single : rounds = 1
      · rw [written,single]
        omega
      · have larger := raced.leastSeen _ _ read (by rw [before]; omega)
        rw [written]
        omega
    · right
      rcases stage_elsewhere stage w.sched.current with ⟨_,same⟩ | ⟨other,_⟩
      · refine ⟨w.sched.current,?_⟩
        rw [same,raceRound,if_neg (by omega)]
        trivial
      · exact absurd rfl other

theorem raced_step (raced : Raced workers rounds w) (small : workers.card*rounds < 2^32) : Raced workers rounds (raceStep w) := by
  have sane := raced.sane w.sched.current
  unfold raceStep
  split
  · rename_i left here
    rw [here] at sane
    have active : w.stage w.sched.current ≠ .outside := by rw [here]; exact nofun
    exact raced_quiet raced active rfl rfl sane (by rw [here]; rfl) (fun value same => .inl (Option.some.inj same).symm) fun _ => trivial
  · rename_i left value here
    rw [here] at sane
    have active : w.stage w.sched.current ≠ .outside := by rw [here]; exact nofun
    exact raced_quiet raced active rfl rfl sane (by rw [here]; rfl) (fun _ same => .inr (by rw [here]; exact same)) fun _ => trivial
  · rename_i left value here
    exact raced_writes raced small here rfl rfl
  · rename_i here
    have active : w.stage w.sched.current ≠ .outside := by rw [here]; exact nofun
    exact raced_quiet raced active rfl rfl trivial (by rw [here]; rfl) nofun (by rw [here]; exact id)
  · exact raced

theorem runs_raced (nonempty : workers.Nonempty) (small : workers.card*rounds < 2^32) (path : Reached (racing workers rounds) w) :
    Raced workers rounds w := by
  apply path.invariant
  · exact fun _ begun => begun_raced nonempty begun
  · rintro w label next kept ⟨_,rfl⟩
    cases label with
    | dispatch t => exact ⟨kept.sane,kept.members,kept.most,kept.mostSeen,kept.least,kept.leastSeen,kept.last⟩
    | step => exact raced_step kept small

-- One of two threads has the processor and the other could have it. What else there is of
-- the world is written down in `counter` and the two stages.
structure Stands (rounds : Nat) (w : World) (t u counter : Nat) (mine theirs : Stage) : Prop where
  reached : Reached (racing {2,3} rounds) w
  current : w.sched.current = t
  running : (w.sched.tasks t).state = .running
  ready : (w.sched.tasks u).state = .ready
  apart : t ≠ u ∧ u ≠ 0
  counter : w.counter = counter
  mine : w.stage t = mine
  theirs : w.stage u = theirs

def CanStand (rounds t u counter : Nat) (mine theirs : Stage) : Prop := ∃ w,Stands rounds w t u counter mine theirs

variable {t u counter left value : Nat} {mine theirs : Stage}

theorem stands_steps (can : CanStand rounds t u counter mine theirs) (now : Stage) (after : Nat)
    (goes : ∀ w : World,w.stage w.sched.current = mine → w.counter = counter → raceStep w = {setStage w now with counter:=after}) :
    CanStand rounds t u after now theirs := by
  obtain ⟨w,stands⟩ := can
  obtain ⟨origin,labels,started,path⟩ := stands.reached
  have here : w.stage w.sched.current = mine := by rw [stands.current,stands.mine]
  have result := goes w here stands.counter
  have allowed : Allowed w .step := by
    change (w.sched.tasks w.sched.current).state = .running
    rw [stands.current,stands.running]
  have stepped : raceApply w .step = {setStage w now with counter:=after} := result
  refine ⟨raceApply w .step,⟨origin,_,started,path.act allowed⟩,?_,?_,?_,stands.apart,?_,?_,?_⟩
  all_goals rw [stepped]
  · exact stands.current
  · exact stands.running
  · exact stands.ready
  · change Function.update w.stage w.sched.current now t = now
    rw [stands.current,Function.update_self]
  · change Function.update w.stage w.sched.current now u = theirs
    rw [stands.current,Function.update_of_ne stands.apart.1.symm,stands.theirs]

theorem stands_reads (can : CanStand rounds t u counter (.reading left) theirs) :
    CanStand rounds t u counter (.yielding left counter) theirs :=
  stands_steps can _ counter fun w here same => by
    unfold raceStep
    rw [here]
    dsimp only
    rw [same]
    subst same
    rfl

theorem stands_yields (can : CanStand rounds t u counter (.yielding left value) theirs) :
    CanStand rounds t u counter (.writing left value) theirs :=
  stands_steps can _ counter fun w here same => by
    unfold raceStep
    rw [here]
    subst same
    rfl

theorem stands_writes (can : CanStand rounds t u counter (.writing left value) theirs) (small : value+1 < 2^32) :
    CanStand rounds t u (value+1) (raceRound (left-1)) theirs :=
  stands_steps can _ (value+1) fun w here same => by
    unfold raceStep
    rw [here]
    dsimp only
    rw [wrap,Nat.mod_eq_of_lt small]

theorem stands_switches (can : CanStand rounds t u counter mine theirs) (other : t ≠ 0) : CanStand rounds u t counter theirs mine := by
  obtain ⟨w,stands⟩ := can
  obtain ⟨origin,labels,started,path⟩ := stands.reached
  have allowed : Allowed w (.dispatch u) := ⟨stands.apart.2,stands.ready⟩
  have state (x : Nat) := (SchedulerRing.exchanged_parts w.sched u).2.2.1 x
  obtain ⟨tasks,current,_⟩ := SchedulerRing.switchTo_parts w.sched u
  refine ⟨raceApply w (.dispatch u),⟨origin,_,started,path.act allowed⟩,current,?_,?_,⟨stands.apart.1.symm,other⟩,stands.counter,
    stands.theirs,stands.mine⟩
  · change ((switchTo w.sched u).tasks u).state = .running
    rw [tasks,state,if_pos rfl]
  · change ((switchTo w.sched u).tasks t).state = .ready
    rw [tasks,state,if_neg stands.apart.1,if_pos ⟨stands.current.symm,stands.running⟩]

-- A thread left alone counts every round it makes.
theorem stands_rounds (can : CanStand rounds t u counter (raceRound (count+left)) theirs) (small : counter+count < 2^32) :
    CanStand rounds t u (counter+count) (raceRound left) theirs := by
  induction count generalizing counter with
  | zero => rwa [Nat.zero_add] at can
  | succ count ih =>
    rw [raceRound,if_neg (by omega)] at can
    have wrote := stands_writes (stands_yields (stands_reads can)) (by omega)
    rw [show count+1+left-1 = count+left by omega] at wrote
    have rest := ih wrote (by omega)
    rwa [show counter+1+count = counter+(count+1) by omega] at rest

theorem step_leaves (leaving : w.stage w.sched.current = .leaving) :
    raceApply w .step = {setStage w .finished with sched:=setState w.sched w.sched.current .finished} := by
  change raceStep w = _
  unfold raceStep
  rw [leaving]

-- Both threads come to the end of counter_thread.
theorem stands_leaves (can : CanStand rounds t u counter .leaving .leaving) :
    ∃ w,Reached (racing {2,3} rounds) w ∧ w.stage t = .finished ∧ w.stage u = .finished ∧ w.counter = counter := by
  obtain ⟨w,stands⟩ := can
  obtain ⟨origin,labels,started,path⟩ := stands.reached
  obtain ⟨apart,nonzero⟩ := stands.apart
  have leaves := step_leaves (w:=w) (by rw [stands.current,stands.mine])
  have first : Allowed w .step := by
    change (w.sched.tasks w.sched.current).state = .running
    rw [stands.current,stands.running]
  have path := path.act first
  have stage : (raceApply w .step).stage = Function.update w.stage t .finished := by rw [leaves,←stands.current]; rfl
  have tasks : ((raceApply w .step).sched.tasks u).state = .ready := by
    rw [leaves]
    simp [setState,setTask,stands.current,apart.symm,stands.ready]
  have written : (raceApply w .step).counter = counter := by rw [leaves]; exact stands.counter
  generalize raceApply w .step = w at path stage tasks written
  have second : Allowed w (.dispatch u) := ⟨nonzero,tasks⟩
  have path := path.act second
  obtain ⟨moved,current,_⟩ := SchedulerRing.switchTo_parts w.sched u
  have running : ((raceApply w (.dispatch u)).sched.tasks u).state = .running := by
    change ((switchTo w.sched u).tasks u).state = .running
    rw [moved,(SchedulerRing.exchanged_parts w.sched u).2.2.1,if_pos rfl]
  change (raceApply w (.dispatch u)).sched.current = u at current
  change (raceApply w (.dispatch u)).stage = _ at stage
  change (raceApply w (.dispatch u)).counter = _ at written
  generalize raceApply w (.dispatch u) = w at path stage current running written
  have last : Allowed w .step := by
    change (w.sched.tasks w.sched.current).state = .running
    rw [current,running]
  have leaves := step_leaves (w:=w) (by rw [current,stage,Function.update_of_ne apart.symm,stands.theirs])
  have path := path.act last
  refine ⟨_,⟨origin,_,started,path⟩,?_,?_,?_⟩
  all_goals rw [leaves]
  · change Function.update w.stage w.sched.current .finished t = .finished
    rw [current,Function.update_of_ne apart,stage,Function.update_self]
  · change Function.update w.stage w.sched.current .finished u = .finished
    rw [current,Function.update_self]
  · exact written

-- Two threads that make the same number of rounds, one of which has the processor.
def twoRacers (rounds : Nat) : World :=
  ⟨Mutexes.threeTasks,Mutexes.mutexInit,0,fun t => if t ∈ ({2,3} : Finset Nat) then raceRound rounds else .outside⟩

theorem racers_stand (rounds : Nat) : CanStand rounds 3 2 0 (raceRound rounds) (raceRound rounds) := by
  have created : ∀ t ∈ ({2,3} : Finset Nat),t ≠ 0 ∧ t ≠ Mutexes.threeTasks.taskRing := by decide
  exact ⟨twoRacers rounds,⟨twoRacers rounds,[],⟨rfl,created,fun _ => rfl⟩,.nil⟩,rfl,rfl,rfl,by decide,rfl,rfl,rfl⟩

-- The first thread reads 0 and is interrupted until the second has one round left; its 1 is
-- read by the second thread, which is interrupted until the first has finished.
theorem race_loses (rounds : Nat) (small : rounds+2 < 2^32) : CanStand (rounds+2) 2 3 2 .leaving .leaving := by
  have start := racers_stand (rounds+2)
  have zero : CanStand (rounds+2) 2 3 0 (raceRound (rounds+1+1)) (.writing (rounds+2) 0) :=
    stands_switches (stands_yields (stands_reads start)) (by decide)
  have most := stands_switches (stands_rounds zero (by omega)) (by decide)
  have one : CanStand (rounds+2) 2 3 1 (raceRound 1) (raceRound (rounds+1+0)) :=
    stands_switches (stands_writes most (by decide)) (by decide)
  have stale := stands_switches (stands_yields (stands_reads one)) (by decide)
  exact stands_writes (stands_switches (stands_rounds stale (by omega)) (by decide)) (by decide)

-- What racetest can print without the lock: nothing below 2, or 1 where a thread makes one
-- round only, nothing above the number of increments, and 2 for any number of rounds.
theorem race_bounds (workers : Finset Nat) (rounds : Nat) (nonempty : workers.Nonempty) (small : workers.card*rounds < 2^32) :
    (∀ w,Reached (racing workers rounds) w → (∀ t ∈ workers,w.stage t = .finished) →
      min 2 rounds ≤ w.counter ∧ w.counter ≤ workers.card*rounds) ∧
    ∀ more,more+2 < 2^32 → ∃ w,Reached (racing {2,3} (more+2)) w ∧ w.stage 2 = .finished ∧ w.stage 3 = .finished ∧ w.counter = 2 := by
  refine ⟨fun w path all => ?_,fun more short => stands_leaves (race_loses more short)⟩
  have raced := runs_raced nonempty small path
  refine ⟨?_,raced.most.trans (total_bound workers raced.sane)⟩
  rcases raced.last with enough | ⟨t,working⟩
  · exact enough
  · by_cases member : t ∈ workers
    · rw [all t member] at working
      cases working
    · have idle : w.stage t = .outside := by
        by_contra busy
        exact member (raced.members t busy)
      rw [idle] at working
      cases working

theorem race_bounds_racetest :
    ∃ w,Reached (racing {2,3} 200) w ∧ w.stage 2 = .finished ∧ w.stage 3 = .finished ∧ w.counter = 2 :=
  (race_bounds {2,3} 200 ⟨2,by decide⟩ (by decide)).2 198 (by decide)

end Arthic.CounterRace
