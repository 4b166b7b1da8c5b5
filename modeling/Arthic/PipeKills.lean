import Arthic.WaitQueues

namespace Arthic.PipeKills
open Scheduler SchedulerRing PipeWakeups Transition WaitQueues
variable {s : Sched} {w : World} {ring others : List Nat} {id : Nat}

-- A task is parked while it is on a queue. From its wakeup until it tests the object again
-- it carries the wakeup, unless it is finished first.
def Parked (p : Place) (w : World) (t : Nat) : Prop :=
  ∃ members,Linked.Queue (waitOf w.sched) (w.ends p).1 (w.ends p).2 members ∧ t ∈ members
def Woken (p : Place) (w : World) (t : Nat) : Prop :=
  rests (w.control t) = some p ∧ (w.sched.tasks t).state ≠ .blocked ∧ (w.sched.tasks t).state ≠ .finished

def Owed (p : Place) (w : World) : Prop := (∃ t,Parked p w t) → ∃ u,Woken p w u

-- No wakeup of pipe i is lost.
def NoLostWakeup (w : World) (i : Nat) : Prop :=
  (0 < (w.pipes i).count → Owed (.readers i) w) ∧ ((w.pipes i).count < Pipes.pipeCapacity → Owed (.writers i) w)

-- Somebody is parked, and only the task with this id could wake him.
def Carries (p : Place) (w : World) (id : Nat) : Prop :=
  id ≠ 0 ∧ taskById w.sched id ≠ 0 ∧ (∃ t,Parked p w t) ∧ Woken p w (taskById w.sched id) ∧
  ∀ u,Woken p w u → u = taskById w.sched id

def Harmless (w : World) (i id : Nat) : Prop :=
  (0 < (w.pipes i).count → ¬ Carries (.readers i) w id) ∧
  ((w.pipes i).count < Pipes.pipeCapacity → ¬ Carries (.writers i) w id)

-- Whom task_kill ends.
def Falls (s : Sched) (id x : Nat) : Prop :=
  id ≠ 0 ∧ taskById s id ≠ 0 ∧ (s.tasks x).state ≠ .blocked ∧ x = taskById s id

theorem kill_finished (valid : Ring s ring others) (id x : Nat) :
    ((taskKill s id).2.tasks x).state = .finished ↔ (s.tasks x).state = .finished ∨ Falls s id x := by
  have lasts : Lasting .finished := .inr rfl
  unfold taskKill
  split
  · rename_i none
    exact ⟨.inl,fun either => either.resolve_right fun falls => falls.1 none⟩
  rename_i named
  dsimp only
  split
  · rename_i missing
    refine ⟨.inl,?_⟩
    rintro (was | ⟨_,found,_,rfl⟩)
    · exact was
    · exact missing.resolve_left found
  rename_i found
  simp only [not_or] at found
  split
  · rename_i blocked
    refine ⟨.inl,?_⟩
    rintro (was | ⟨_,_,awake,rfl⟩)
    · exact was
    · exact absurd blocked awake
  rename_i awake
  have created := victim_created valid named found.1
  have marked : ((setState s (taskById s id) .finished).tasks x).state = .finished ↔
      (s.tasks x).state = .finished ∨ Falls s id x := by
    rw [(setState_same s (taskById s id) .finished).2.2.1]
    by_cases equal : x = taskById s id
    · rw [if_pos equal,equal]
      exact ⟨fun _ => .inr ⟨named,found.1,awake,rfl⟩,fun _ => rfl⟩
    · rw [if_neg equal]
      exact ⟨.inl,fun either => either.resolve_right fun falls => equal falls.2.2.2⟩
  have killed := @ring_setState _ _ _ .finished (taskById s id) valid nofun (fun root => absurd root created)
    (fun root => absurd root created)
  dsimp only
  split
  · rename_i own
    -- task_terminate marks the current task once more
    have again : ((setState s (taskById s id) .finished).tasks (setState s (taskById s id) .finished).current).state =
        .finished := by
      rw [←own,(setState_same s (taskById s id) .finished).2.2.1,if_pos rfl]
    rw [←marked]
    generalize setState s (taskById s id) .finished = now at *
    obtain ⟨_,_,state,_,current,_⟩ := flush_same now now.current
    have flushed := ring_flush killed now.current
    unfold taskTerminate
    rw [if_neg (killed.nonzero killed.current)]
    have idle := idle_passing lasts flushed
    rw [←state]
    generalize taskFlushOutput now now.current = quiet at *
    have stopped : Calm .finished quiet (setState quiet now.current .finished) := by
      refine ⟨setState_wait _ _ _,fun t => ?_⟩
      rw [(setState_same quiet now.current .finished).2.2.1]
      split
      · rename_i equal
        rw [equal,state]
        exact ⟨fun _ => again,fun _ => rfl⟩
      · exact Iff.rfl
    refine (calm_trans stopped (schedule_calm lasts ?_)).keeps x
    rw [ne_eq,stopped.keeps]
    exact idle
  · exact marked

theorem call_pipes (w : World) (call : SchedulerRuns.Call) : (apply w (.call call)).pipes = w.pipes := rfl

section Kill
variable (kept : Kept w) (p : Place)
include kept

theorem kill_parked (id t : Nat) : Parked p (apply w (.call (.taskKill id))) t ↔ Parked p w t := by
  obtain ⟨ring,waiting,waits,_⟩ := kept
  have wait : waitOf (apply w (.call (.taskKill id))).sched = waitOf w.sched := (kill_calm waits.valid id).wait
  unfold Parked
  rw [wait]
  rfl

theorem kill_woken (id u : Nat) : Woken p (apply w (.call (.taskKill id))) u ↔ Woken p w u ∧ ¬ Falls w.sched id u := by
  obtain ⟨ring,waiting,waits,_⟩ := kept
  have finished := kill_finished waits.valid id u
  have blocked := (kill_calm waits.valid id).keeps u
  change (rests (w.control u) = some p ∧ ((taskKill w.sched id).2.tasks u).state ≠ .blocked ∧
    ((taskKill w.sched id).2.tasks u).state ≠ .finished) ↔ _
  rw [ne_eq,ne_eq,blocked,finished,not_or,Woken]
  constructor
  · rintro ⟨resting,awake,alive,stands⟩
    exact ⟨⟨resting,awake,alive⟩,stands⟩
  · rintro ⟨⟨resting,awake,alive⟩,stands⟩
    exact ⟨resting,awake,alive,stands⟩

theorem kill_owed (id : Nat) (owed : Owed p w) : Owed p (apply w (.call (.taskKill id))) ↔ ¬ Carries p w id := by
  unfold Owed
  simp only [kill_parked kept,kill_woken kept]
  constructor
  · rintro still ⟨named,found,some,carrier,only⟩
    obtain ⟨u,woken,stands⟩ := still some
    rw [only u woken] at stands
    exact stands ⟨named,found,carrier.2.1,rfl⟩
  · intro spare some
    obtain ⟨u,woken⟩ := owed some
    by_contra nobody
    push Not at nobody
    have falls := nobody u woken
    rw [falls.2.2.2] at woken
    exact spare ⟨falls.1,falls.2.1,some,woken,fun other carries => (nobody other carries).2.2.2⟩
end Kill

theorem kill_strands_nobody (path : Reached (sharing kernelEnd mbi) w) (owed : NoLostWakeup w i) (id : Nat) :
    NoLostWakeup (apply w (.call (.taskKill id))) i ↔ Harmless w i id := by
  have kept := runs_kept path
  refine and_congr ?_ ?_
  · exact imp_congr_right fun some => kill_owed kept (.readers i) id (owed.1 some)
  · exact imp_congr_right fun room => kill_owed kept (.writers i) id (owed.2 room)

-- Two tasks wait for a byte, a third writes one. The first is awake, the second is not.
def crowding : List Label :=
  [.call (.frames ⟨fun _ => 1#32,32,1⟩),.call (.taskCreateEx 0 0 0),.call (.taskCreateEx 0 0 0),.call (.taskCreateEx 0 0 0),
    .call .taskSchedule,.pipeRead 0 4,.proceed,.pipeRead 0 4,.proceed,.pipeWrite 0 [5#8],.proceed]
def crowd : World := crowding.foldl apply quiet

theorem crowd_reached : Reached (sharing 0x101000 KheapRuns.roomyMap) crowd := by
  refine @reached_by _ _ _ _ _ quiet crowding quiet_started ?_
  refine ⟨⟨trivial,trivial⟩,⟨trivial,trivial⟩,⟨trivial,trivial⟩,⟨trivial,trivial⟩,⟨trivial,trivial⟩,⟨?_,?_,?_⟩,⟨?_,?_⟩,⟨?_,?_,?_⟩,
    ⟨?_,?_⟩,⟨?_,?_,?_⟩,⟨?_,?_⟩,trivial⟩
  all_goals decide +kernel

-- The tasks that were current or new on the way; nobody else's control has changed.
def visited (w : World) : List Label → List Nat
  | [] => []
  | label::rest => w.sched.current::nextOf (apply w label).sched (apply w label).sched.current::visited (apply w label) rest

theorem apply_control (w : World) (label : Label) (other : u ≠ w.sched.current)
    (old : u ≠ nextOf (apply w label).sched (apply w label).sched.current) : (apply w label).control u = w.control u := by
  have set : ∀ call,Function.update w.control w.sched.current call u = w.control u :=
    fun call => Function.update_of_ne other _ _
  cases label with
  | call call =>
    cases call with
    | taskCreateEx pageDir arg onExit =>
      simp only [apply,callStep] at old ⊢
      split
      · rfl
      · exact Function.update_of_ne old _ _
    | _ => rfl
  | mutexLock i => exact set _
  | mutexUnlock i => rfl
  | pipeWrite i data => exact set _
  | pipeRead i max => exact set _
  | proceed =>
    simp only [apply]
    split
    · rfl
    · exact set _
    · unfold writeStep
      split
      · dsimp only
        split <;> exact set _
      · exact set _
    · unfold readStep
      split
      · dsimp only
        split <;> exact set _
      · exact set _

theorem run_control {labels : List Label} (outside : u ∉ visited w labels) :
    (labels.foldl apply w).control u = w.control u := by
  induction labels generalizing w with
  | nil => rfl
  | cons label labels ih =>
    simp only [visited,List.mem_cons,not_or] at outside
    rw [List.foldl_cons,ih outside.2.2,apply_control w label outside.1 outside.2.1]

def sleeper : Nat := taskById crowd.sched 2

-- What the run comes to: the first reader alone on the queue, the second awake on its way
-- back, a byte in the pipe, no writer parked.
theorem crowd_ran : ((crowd.ends (.readers 0)).1 = sleeper ∧ waitOf crowd.sched sleeper = 0 ∧
      (crowd.ends (.readers 0)).2 = sleeper ∧ 0 ≠ sleeper ∧
      rests (crowd.control (taskById crowd.sched 2)) ≠ some (.writers 0) ∧
      (crowd.sched.tasks (taskById crowd.sched 2)).state = .blocked) ∧
    Woken (.readers 0) crowd (taskById crowd.sched 3) ∧ taskById crowd.sched 3 ≠ 0 ∧
    (∀ u ∈ visited quiet crowding,rests (crowd.control u) = some (.readers 0) →
      (crowd.sched.tasks u).state ≠ .blocked → u = taskById crowd.sched 3) ∧
    0 < (crowd.pipes 0).count ∧ (crowd.ends (.writers 0)).1 = 0 := by
  unfold Woken
  decide +kernel

theorem crowd_parked : Parked (.readers 0) crowd sleeper := by
  obtain ⟨⟨head,last,tail,real,_⟩,_⟩ := crowd_ran
  refine ⟨[sleeper],⟨⟨head,last⟩,?_,List.nodup_singleton _,fun zero => real (List.mem_singleton.mp zero)⟩,
    List.mem_singleton_self _⟩
  rw [tail,List.getLast?_singleton,Option.getD_some]

theorem crowd_woken : Woken (.readers 0) crowd (taskById crowd.sched 3) ∧
    ∀ u,Woken (.readers 0) crowd u → u = taskById crowd.sched 3 := by
  obtain ⟨_,woken,_,checked,_⟩ := crowd_ran
  refine ⟨woken,?_⟩
  rintro u ⟨resting,awake,_⟩
  by_cases seen : u ∈ visited quiet crowding
  · exact checked u seen resting awake
  · rw [crowd,run_control seen] at resting
    cases resting

theorem crowd_owed : NoLostWakeup crowd 0 := by
  refine ⟨fun _ _ => ⟨_,crowd_woken.1⟩,?_⟩
  rintro _ ⟨t,members,queue,member⟩
  obtain ⟨_,_,_,_,_,head⟩ := crowd_ran
  rw [(Linked.queue_head queue).mp head] at member
  cases member

-- Killing a task that is parked itself is refused, and the byte finds its reader.
theorem kill_strands_nobody_small : Parked (.readers 0) crowd sleeper ∧
    NoLostWakeup (apply crowd (.call (.taskKill 2))) 0 := by
  obtain ⟨⟨_,_,_,_,elsewhere,blocked⟩,_⟩ := crowd_ran
  refine ⟨crowd_parked,(kill_strands_nobody crowd_reached crowd_owed 2).mpr ⟨?_,?_⟩⟩
  · rintro _ ⟨_,_,_,woken,_⟩
    exact woken.2.1 blocked
  · rintro _ ⟨_,_,_,woken,_⟩
    exact elsewhere woken.1

-- The task that was woken is killed before it has looked: a byte, a reader, and no wakeup.
theorem killed_with_wakeup : Reached (sharing 0x101000 KheapRuns.roomyMap) crowd ∧ NoLostWakeup crowd 0 ∧
    ¬ NoLostWakeup (apply crowd (.call (.taskKill 3))) 0 := by
  refine ⟨crowd_reached,crowd_owed,?_⟩
  obtain ⟨_,_,real,_,some,_⟩ := crowd_ran
  rw [NoLostWakeup,call_pipes]
  rintro ⟨kept,_⟩
  have owed := kill_owed (runs_kept crowd_reached) (.readers 0) 3 (crowd_owed.1 some)
  exact owed.mp (kept some) ⟨by decide,real,⟨_,crowd_parked⟩,crowd_woken⟩

end Arthic.PipeKills
