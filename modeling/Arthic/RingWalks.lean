import Arthic.KheapRequests
import Arthic.SchedulerRuns

namespace Arthic.RingWalks
open Scheduler SchedulerRing SchedulerRuns Linked KheapInvariant Transition Unsigned
variable {s : Sched} {m : Machine} {ring others lap kept tail front back : List Nat} {guard scan chosen next : Nat}

-- The ring in the order of `next`: from task 0, and from the task behind the current one.
structure Cycle (s : Sched) (ring : List Nat) : Prop where
  path : Path (nextOf s) s.taskRing ring s.taskRing
  simple : ring.Nodup
  some : ring ≠ []

structure Lap (s : Sched) (lap : List Nat) : Prop where
  path : Path (nextOf s) (nextOf s s.current) lap s.current
  simple : (s.current::lap).Nodup

theorem ring_lap (valid : Ring s ring others) : ∃ lap,Lap s lap ∧ (s.current::lap).Perm ring := by
  obtain ⟨front,back,rfl⟩ := List.append_of_mem valid.current
  have perm : (s.current::(back++front)).Perm (front++s.current::back) := by
    have turned : (s.current::back++front).Perm (front++s.current::back) := List.perm_append_comm
    exact turned
  obtain ⟨_,rotated⟩ := path_rotate valid.path
  exact ⟨back++front,⟨rotated,perm.nodup_iff.mpr valid.distinct⟩,perm⟩

theorem ring_cycle (valid : Ring s ring others) : Cycle s ring := ⟨valid.path,valid.distinct,valid.some⟩

def Due (s : Sched) (t : Nat) : Prop := (s.tasks t).state = .sleeping ∧ (s.tasks t).wakeTick ≤ s.ticks

instance (s : Sched) (t : Nat) : Decidable (Due s t) := inferInstanceAs (Decidable (_ ∧ _))

-- wake_sleepers once it has come past the tasks `seen`.
def roused (record : Task) : Task := {record with state:=.ready}
def woken (s : Sched) (seen : List Nat) : Sched :=
  {s with tasks:=fun t => if t ∈ seen ∧ Due s t then roused (s.tasks t) else s.tasks t}

theorem woken_tasks (s : Sched) (seen : List Nat) (t : Nat) :
    (woken s seen).tasks t = if t ∈ seen ∧ Due s t then roused (s.tasks t) else s.tasks t := rfl

theorem woken_one (s : Sched) (t : Nat) :
    (if (s.tasks t).state = .sleeping ∧ (s.tasks t).wakeTick ≤ s.ticks then setState s t .ready else s) = woken s [t] := by
  split
  · rename_i due
    have tasks : (setState s t .ready).tasks = (woken s [t]).tasks := by
      funext x
      rw [woken_tasks]
      by_cases here : x = t
      · subst here
        rw [if_pos ⟨List.mem_singleton_self _,due⟩]
        exact Function.update_self ..
      · rw [if_neg (fun both => here (List.mem_singleton.mp both.1))]
        exact Function.update_of_ne here ..
    exact congrArg (fun tasks => ({s with tasks:=tasks} : Sched)) tasks
  · rename_i early
    have tasks : s.tasks = (woken s [t]).tasks := by
      funext x
      rw [woken_tasks]
      by_cases here : x = t
      · subst here
        rw [if_neg (fun both => early both.2)]
      · rw [if_neg (fun both => here (List.mem_singleton.mp both.1))]
    exact congrArg (fun tasks => ({s with tasks:=tasks} : Sched)) tasks

-- A task that has been woken is not due any more.
theorem woken_due (s : Sched) (seen : List Nat) (t : Nat) : Due (woken s seen) t ↔ t ∉ seen ∧ Due s t := by
  have ticks : (woken s seen).ticks = s.ticks := rfl
  rw [Due,woken_tasks,ticks]
  by_cases waking : t ∈ seen ∧ Due s t
  · rw [if_pos waking]
    simp [roused,waking.1]
  · rw [if_neg waking]
    unfold Due at *
    tauto

theorem woken_more (s : Sched) (t : Nat) (seen : List Nat) : woken (woken s [t]) seen = woken s (t::seen) := by
  have tasks : (woken (woken s [t]) seen).tasks = (woken s (t::seen)).tasks := by
    funext x
    rw [woken_tasks (woken s [t]),woken_tasks s (t::seen)]
    simp only [woken_due,woken_tasks,List.mem_cons,List.not_mem_nil,or_false]
    by_cases here : x = t <;> simp [here]
  exact congrArg (fun tasks => ({s with tasks:=tasks} : Sched)) tasks

theorem woken_next (s : Sched) (seen : List Nat) : nextOf (woken s seen) = nextOf s := by
  funext t
  rw [nextOf,woken_tasks]
  split <;> rfl

theorem wakeFrom_walk (path : Path (nextOf s) t nodes s.taskRing) (some : nodes ≠ []) (apart : s.taskRing ∉ nodes.tail)
    (rounds : Nat) : wakeFrom s rounds t = woken s (nodes.take (rounds+1)) := by
  induction rounds generalizing s t nodes with
  | zero =>
    cases nodes with
    | nil => exact absurd rfl some
    | cons first nodes =>
      obtain ⟨rfl,_⟩ := path
      exact woken_one s t
  | succ rounds ih =>
    cases nodes with
    | nil => exact absurd rfl some
    | cons first nodes =>
      obtain ⟨rfl,path⟩ := path
      have links := woken_next s [t]
      unfold wakeFrom
      dsimp only
      rw [woken_one s t]
      change (if nextOf (woken s [t]) t = s.taskRing then woken s [t] else
        wakeFrom (woken s [t]) rounds (nextOf (woken s [t]) t)) = _
      rw [links]
      cases nodes with
      | nil =>
        have last : nextOf s t = s.taskRing := path
        rw [if_pos last]
        rfl
      | cons behind nodes =>
        have here := path.1
        rw [if_neg (fun root => apart (by rw [←root,here]; exact List.mem_cons_self ..)),List.take_succ_cons]
        refine Eq.trans (ih ?_ (List.cons_ne_nil _ _) ?_) (woken_more s t _)
        · rw [links]
          exact path
        · exact fun member => apart (List.mem_cons_of_mem _ member)

theorem byIdFrom_walk (path : Path (nextOf s) t nodes s.taskRing) (some : nodes ≠ []) (apart : s.taskRing ∉ nodes.tail)
    (id rounds : Nat) : byIdFrom s id rounds t = ((nodes.take (rounds+1)).find? fun x => (s.tasks x).id = id).getD 0 := by
  induction rounds generalizing t nodes with
  | zero =>
    cases nodes with
    | nil => exact absurd rfl some
    | cons first nodes =>
      obtain ⟨rfl,_⟩ := path
      unfold byIdFrom
      by_cases named : (s.tasks t).id = id <;> simp [named]
  | succ rounds ih =>
    cases nodes with
    | nil => exact absurd rfl some
    | cons first nodes =>
      obtain ⟨rfl,path⟩ := path
      unfold byIdFrom
      by_cases named : (s.tasks t).id = id
      · simp [named]
      · dsimp only
        rw [if_neg named,List.take_succ_cons,List.find?_cons_of_neg (by simp [named])]
        change (if nextOf s t = s.taskRing then 0 else byIdFrom s id rounds (nextOf s t)) = _
        cases nodes with
        | nil =>
          have last : nextOf s t = s.taskRing := path
          rw [if_pos last]
          rfl
        | cons behind nodes =>
          have here := path.1
          rw [if_neg (fun root => apart (by rw [←root,here]; exact List.mem_cons_self ..))]
          exact ih path (List.cons_ne_nil _ _) (fun member => apart (List.mem_cons_of_mem _ member))

-- What the walks, the reaping and the switch leave alone in a record.
def standing (record : Task) : Nat × Nat × Nat := (record.id,record.wakeTick,record.serial)

-- The walk in task_schedule from `scan` over the tasks in front of the current one:
-- it comes past `seen`, none of them READY, reaps the FINISHED ones of them in order and
-- stops at a READY task, at the end of the lap or at the guard.
structure Scanned (s after : Sched) (scan guard chosen : Nat) (seen tail : List Nat) : Prop where
  unready : ∀ t ∈ seen,(s.tasks t).state ≠ .ready
  stops : chosen = 0 ∧ (tail = [] ∨ seen.length = guard) ∨
    (∃ back,tail = chosen::back) ∧ (s.tasks chosen).state = .ready ∧ seen.length < guard
  path : Path (nextOf after) (nextOf after scan) (seen.filter (fun t => (s.tasks t).state ≠ .finished)++tail) s.current
  links : ∀ t,t ∉ scan::seen → nextOf after t = nextOf s t
  states : ∀ t,(after.tasks t).state = (s.tasks t).state
  standings : ∀ t,standing (after.tasks t) = standing (s.tasks t)
  reaped : after.reaped.map Reaping.task = s.reaped.map Reaping.task++seen.filter fun t => (s.tasks t).state = .finished
  rest : (after.current,after.taskRing,after.enabled,after.births,after.ticks,after.nextId) =
    (s.current,s.taskRing,s.enabled,s.births,s.ticks,s.nextId)

theorem reap_standing (s : Sched) (prev dead t : Nat) :
    standing ((reap s prev dead).tasks t) = standing (s.tasks t) ∧ (reap s prev dead).ticks = s.ticks ∧
    (reap s prev dead).nextId = s.nextId := by
  have flushed : ∀ (s : Sched) (x : Nat),standing ((taskFlushOutput s x).tasks t) = standing (s.tasks t) ∧
      (taskFlushOutput s x).ticks = s.ticks ∧ (taskFlushOutput s x).nextId = s.nextId := by
    intro s x
    unfold taskFlushOutput
    split
    · exact ⟨rfl,rfl,rfl⟩
    · refine ⟨?_,rfl,rfl⟩
      by_cases here : t = x <;> simp [setTask,standing,here]
  have linked : standing ((setNext s prev (s.tasks dead).next).tasks t) = standing (s.tasks t) := by
    by_cases here : t = prev <;> simp [setNext,setTask,standing,here]
  obtain ⟨same,ticks,nextId⟩ := flushed (setNext s prev (s.tasks dead).next) dead
  unfold reap
  dsimp only
  split <;> exact ⟨same.trans linked,ticks,nextId⟩

theorem scanFrom_end (last : nextOf s scan = s.current) : scanFrom s (guard+1) scan = (s,0) := by
  unfold scanFrom
  exact if_pos last

theorem scanFrom_dead (other : nextOf s scan ≠ s.current) (dead : (s.tasks (nextOf s scan)).state = .finished) :
    scanFrom s (guard+1) scan = scanFrom (reap s scan (nextOf s scan)) guard scan := by
  change (s.tasks (s.tasks scan).next).state = _ at dead
  change (s.tasks scan).next ≠ _ at other
  rw [scanFrom,if_neg other,dead]
  rfl

theorem scanFrom_found (other : nextOf s scan ≠ s.current) (ready : (s.tasks (nextOf s scan)).state = .ready) :
    scanFrom s (guard+1) scan = (s,nextOf s scan) := by
  change (s.tasks (s.tasks scan).next).state = _ at ready
  change (s.tasks scan).next ≠ _ at other
  rw [scanFrom,if_neg other,ready]
  rfl

theorem scanFrom_pass (other : nextOf s scan ≠ s.current) (alive : (s.tasks (nextOf s scan)).state ≠ .finished)
    (unready : (s.tasks (nextOf s scan)).state ≠ .ready) : scanFrom s (guard+1) scan = scanFrom s guard (nextOf s scan) := by
  change (s.tasks (s.tasks scan).next).state ≠ _ at alive unready
  change (s.tasks scan).next ≠ _ at other
  rw [scanFrom,if_neg other]
  cases state : (s.tasks (s.tasks scan).next).state with
  | finished => exact absurd state alive
  | ready => exact absurd state unready
  | running => rfl
  | sleeping => rfl
  | blocked => rfl

theorem scan_walk (path : Path (nextOf s) (nextOf s scan) lap s.current) (simple : (scan::lap).Nodup)
    (apart : s.current ∉ lap) (guard : Nat) :
    ∃ seen tail,lap = seen++tail ∧
      Scanned s (scanFrom s guard scan).1 scan guard (scanFrom s guard scan).2 seen tail := by
  induction guard generalizing s scan lap with
  | zero =>
    refine ⟨[],lap,rfl,by simp,.inl ⟨rfl,.inr rfl⟩,path,fun _ _ => rfl,fun _ => rfl,fun _ => rfl,?_,rfl⟩
    exact (List.append_nil _).symm
  | succ guard ih =>
    cases lap with
    | nil =>
      rw [scanFrom_end path]
      refine ⟨[],[],rfl,by simp,.inl ⟨rfl,.inl rfl⟩,path,fun _ _ => rfl,fun _ => rfl,fun _ => rfl,?_,rfl⟩
      exact (List.append_nil _).symm
    | cons candidate lap =>
      obtain ⟨here,path⟩ := path
      obtain ⟨outside,simple⟩ := List.nodup_cons.mp simple
      have scanLap : scan ∉ lap := fun member => outside (List.mem_cons_of_mem _ member)
      have currentLap : s.current ∉ lap := fun member => apart (List.mem_cons_of_mem _ member)
      have other : nextOf s scan ≠ s.current := fun same => apart (by rw [←same,here]; exact List.mem_cons_self ..)
      by_cases dead : (s.tasks candidate).state = .finished
      · rw [scanFrom_dead other (by rw [here]; exact dead),here]
        obtain ⟨links,serial,states,ids,current,taskRing,enabled,births,_,record,reaped,_,_⟩ := reap_parts s scan candidate
        have standings := reap_standing s scan candidate
        have kept : Path (nextOf (reap s scan candidate)) (nextOf (reap s scan candidate) scan) lap
            (reap s scan candidate).current := by
          rw [links,current,Function.update_self]
          exact path_update scanLap path
        obtain ⟨seen,tail,rfl,walked⟩ := ih kept (List.nodup_cons.mpr ⟨scanLap,(List.nodup_cons.mp simple).2⟩)
          (by rw [current]; exact currentLap)
        have walkedPath := walked.path
        have walkedReaped := walked.reaped
        have walkedStops := walked.stops
        have walkedRest := walked.rest
        simp only [states] at walkedPath walkedReaped walkedStops
        refine ⟨candidate::seen,tail,rfl,?_,?_,?_,?_,?_,?_,?_,?_⟩
        · intro t member
          rcases List.mem_cons.mp member with rfl | later
          · rw [dead]
            exact nofun
          · rw [←states]
            exact walked.unready t later
        · rw [List.length_cons,Nat.add_right_cancel_iff]
          rcases walkedStops with stopped | ⟨found,ready,early⟩
          · exact .inl stopped
          · exact .inr ⟨found,ready,Nat.succ_lt_succ early⟩
        · rw [List.filter_cons_of_neg (by simp [dead]),←current]
          exact walkedPath
        · intro t outside
          simp only [List.mem_cons,not_or] at outside
          rw [walked.links t (by simp [outside]),links,Function.update_of_ne outside.1]
        · exact fun t => (walked.states t).trans (states t)
        · exact fun t => (walked.standings t).trans (standings t).1
        · rw [List.filter_cons_of_pos (by simp [dead]),walkedReaped,reaped]
          simp
        · rw [walkedRest,current,taskRing,enabled,births,(standings 0).2.1,(standings 0).2.2]
      · by_cases ready : (s.tasks candidate).state = .ready
        · rw [scanFrom_found other (by rw [here]; exact ready),here]
          refine ⟨[],candidate::lap,rfl,by simp,.inr ⟨⟨lap,rfl⟩,ready,by simp⟩,⟨here,path⟩,fun _ _ => rfl,fun _ => rfl,
            fun _ => rfl,?_,rfl⟩
          exact (List.append_nil _).symm
        · rw [scanFrom_pass other (by rw [here]; exact dead) (by rw [here]; exact ready),here]
          obtain ⟨seen,tail,rfl,walked⟩ := ih path simple currentLap
          refine ⟨candidate::seen,tail,rfl,?_,?_,?_,?_,walked.states,walked.standings,?_,walked.rest⟩
          · intro t member
            rcases List.mem_cons.mp member with rfl | later
            · exact ready
            · exact walked.unready t later
          · rw [List.length_cons,Nat.add_right_cancel_iff]
            rcases walked.stops with stopped | ⟨found,ready,early⟩
            · exact .inl stopped
            · exact .inr ⟨found,ready,Nat.succ_lt_succ early⟩
          · rw [List.filter_cons_of_pos (by simp [dead])]
            refine ⟨(walked.links scan ?_).trans here,walked.path⟩
            simp only [List.mem_cons,List.mem_append,not_or] at outside ⊢
            exact ⟨outside.1,outside.2.1⟩
          · intro t outside
            simp only [List.mem_cons,not_or] at outside
            exact walked.links t (by simp [outside])
          · rw [List.filter_cons_of_neg (by simp [dead])]
            exact walked.reaped

theorem switched_path {link : Nat → Nat} (path : Path link (link node) (front++next::back) node) :
    Path link (link next) (back++node::front) next := by
  have whole : Path link node ((node::front)++next::back) node := ⟨rfl,path⟩
  exact (path_rotate whole).2

-- The state task_schedule finds a task in once it has woken who is due, among the tasks
-- wake_sleepers gets to see.
def stateThen (s : Sched) (ring : List Nat) (t : Nat) : TaskState :=
  if t ∈ ring.take (ringGuard+1) ∧ Due s t then .ready else (s.tasks t).state

theorem wakeSleepers_walk (valid : Ring s ring others) : wakeSleepers s = woken s (ring.take (ringGuard+1)) := by
  refine wakeFrom_walk valid.path valid.some ?_ ringGuard
  have distinct := valid.distinct
  cases ring with
  | nil => exact absurd rfl valid.some
  | cons first ring =>
    rw [valid.path.1]
    exact (List.nodup_cons.mp distinct).1

theorem taskById_walk (valid : Ring s ring others) (id : Nat) :
    taskById s id = ((ring.take (ringGuard+1)).find? fun t => (s.tasks t).id = id).getD 0 := by
  refine byIdFrom_walk valid.path valid.some ?_ id ringGuard
  have distinct := valid.distinct
  cases ring with
  | nil => exact absurd rfl valid.some
  | cons first ring =>
    rw [valid.path.1]
    exact (List.nodup_cons.mp distinct).1

theorem woken_state (s : Sched) (ring : List Nat) (t : Nat) :
    ((woken s (ring.take (ringGuard+1))).tasks t).state = stateThen s ring t := by
  rw [woken_tasks,stateThen]
  split <;> rfl

theorem woken_standing (s : Sched) (seen : List Nat) (t : Nat) :
    standing ((woken s seen).tasks t) = standing (s.tasks t) := by
  rw [woken_tasks]
  split <;> rfl

-- All that a call of task_schedule does to the ring, the records and the corpses.
structure Scheduled (s after : Sched) (ring seen tail left : List Nat) : Prop where
  unready : ∀ t ∈ seen,stateThen s ring t ≠ .ready
  lap : Lap after left
  kept : (after.current::left).Perm (s.current::(seen.filter (fun t => stateThen s ring t ≠ .finished)++tail))
  reaped : after.reaped.map Reaping.task = s.reaped.map Reaping.task++seen.filter fun t => stateThen s ring t = .finished
  states : ∀ t,(after.tasks t).state = if t = after.current then .running else
    if t = s.current ∧ stateThen s ring t = .running then .ready else stateThen s ring t
  standings : ∀ t,standing (after.tasks t) = standing (s.tasks t)
  rest : (after.taskRing,after.births,after.ticks,after.nextId) = (s.taskRing,s.births,s.ticks,s.nextId)
  turn : (tail = [] ∨ seen.length = ringGuard) ∧
      after.current = (if stateThen s ring s.current = .running then s.current else s.taskRing) ∨
    ∃ back,tail = after.current::back ∧ stateThen s ring after.current = .ready ∧ seen.length < ringGuard ∧
      left = back++s.current::seen.filter fun t => stateThen s ring t ≠ .finished

theorem switchTo_standing (s : Sched) (next t : Nat) : standing ((switchTo s next).tasks t) = standing (s.tasks t) ∧
    (switchTo s next).ticks = s.ticks ∧ (switchTo s next).nextId = s.nextId := by
  rw [(switchTo_parts s next).1]
  have exchanging : standing ((exchanged s next).tasks t) = standing (s.tasks t) := by
    have set : ∀ (s : Sched) (x : Nat) (state : TaskState),standing ((setState s x state).tasks t) = standing (s.tasks t) := by
      intro s x state
      by_cases here : t = x <;> simp [setState,setTask,standing,here]
    unfold exchanged
    split
    · exact (set _ _ _).trans (set _ _ _)
    · exact set _ _ _
  refine ⟨exchanging,?_⟩
  unfold switchTo
  dsimp only
  split <;> split <;> split <;> exact ⟨rfl,rfl⟩

theorem switchTo_next (s : Sched) (next : Nat) : nextOf (switchTo s next) = nextOf s := by
  rw [←(exchanged_parts s next).1]
  funext t
  rw [nextOf,(switchTo_parts s next).1]
  rfl

theorem switchTo_states (s : Sched) (next t : Nat) : ((switchTo s next).tasks t).state =
    if t = next then .running else if t = s.current ∧ (s.tasks t).state = .running then .ready else (s.tasks t).state := by
  rw [(switchTo_parts s next).1]
  exact (exchanged_parts s next).2.2.1 t

theorem lap_switched (path : Path (nextOf s) (nextOf s s.current) (front++next::back) s.current)
    (simple : (s.current::(front++next::back)).Nodup) : Lap (switchTo s next) (back++s.current::front) ∧
      (next::(back++s.current::front)).Perm (s.current::(front++next::back)) := by
  have perm : (next::(back++s.current::front)).Perm (s.current::(front++next::back)) := by
    have turned : ((next::back)++(s.current::front)).Perm ((s.current::front)++(next::back)) := List.perm_append_comm
    exact turned
  refine ⟨⟨?_,?_⟩,perm⟩
  · rw [switchTo_next,(switchTo_parts s next).2.1]
    exact switched_path path
  · rw [(switchTo_parts s next).2.1]
    exact perm.nodup_iff.mpr simple

-- The last part of task_schedule, for a lap of which the walk passed `kept`.
structure Resumed (s after : Sched) (chosen : Nat) (kept tail left : List Nat) : Prop where
  lap : Lap after left
  perm : (after.current::left).Perm (s.current::(kept++tail))
  states : ∀ t,(after.tasks t).state = if t = after.current then .running else
    if t = s.current ∧ (s.tasks t).state = .running then .ready else (s.tasks t).state
  standings : ∀ t,standing (after.tasks t) = standing (s.tasks t)
  rest : (after.taskRing,after.births,after.ticks,after.nextId,after.reaped) = (s.taskRing,s.births,s.ticks,s.nextId,s.reaped)
  turn : chosen = 0 ∧ after.current = (if (s.tasks s.current).state = .running then s.current else s.taskRing) ∨
    ∃ back,tail = chosen::back ∧ after.current = chosen ∧ left = back++s.current::kept

theorem switched_parts (path : Path (nextOf s) (nextOf s s.current) (front++next::back) s.current)
    (simple : (s.current::(front++next::back)).Nodup) (shape : front++next::back = kept++tail)
    (turn : chosen = 0 ∧ next = (if (s.tasks s.current).state = .running then s.current else s.taskRing) ∨
      ∃ behind,tail = chosen::behind ∧ next = chosen ∧ back++s.current::front = behind++s.current::kept) :
    Resumed s (switchTo s next) chosen kept tail (back++s.current::front) := by
  obtain ⟨_,current,taskRing,_,births,_,reaped⟩ := switchTo_parts s next
  have standings := switchTo_standing s next
  obtain ⟨switched,perm⟩ := lap_switched path simple
  rw [shape] at perm
  refine ⟨switched,?_,?_,fun t => (standings t).1,?_,?_⟩
  · rw [current]
    exact perm
  · rw [current]
    exact switchTo_states s next
  · rw [taskRing,births,reaped,(standings 0).2.1,(standings 0).2.2]
  · rw [current]
    exact turn

theorem resume_parts (path : Path (nextOf s) (nextOf s s.current) (kept++tail) s.current)
    (simple : (s.current::(kept++tail)).Nodup) (nonzero : 0 ∉ tail) (root : s.taskRing ∈ s.current::(kept++tail))
    (own : s.current = s.taskRing → (s.tasks s.current).state = .running) (stops : chosen = 0 ∨ ∃ back,tail = chosen::back) :
    ∃ left,Resumed s (resume s chosen) chosen kept tail left := by
  unfold resume
  rcases stops with rfl | ⟨back,rfl⟩
  · rw [if_neg (by simp)]
    split
    · rename_i running
      refine ⟨kept++tail,⟨path,simple⟩,.refl _,?_,fun _ => rfl,rfl,.inl ⟨rfl,(if_pos running).symm⟩⟩
      intro t
      by_cases here : t = s.current
      · rw [if_pos here,here]
        exact running
      · rw [if_neg here,if_neg (fun both => here both.1)]
    · rename_i stopped
      -- task 0 is in front of the current task, which is not task 0
      have inside : s.taskRing ∈ kept++tail :=
        (List.mem_cons.mp root).resolve_left fun same => stopped (own same.symm)
      obtain ⟨front,back,shape⟩ := List.append_of_mem inside
      rw [shape] at path simple
      exact ⟨_,switched_parts path simple shape.symm (.inl ⟨rfl,(if_neg stopped).symm⟩)⟩
  · have found : chosen ≠ 0 := fun zero => nonzero (zero ▸ List.mem_cons_self ..)
    rw [if_pos found]
    exact ⟨_,switched_parts path simple rfl (.inr ⟨back,rfl,rfl,rfl⟩)⟩

theorem lap_perm (valid : Ring s ring others) (lapped : Lap s lap) : (s.current::lap).Perm ring := by
  obtain ⟨found,other,perm⟩ := ring_lap valid
  rw [path_unique lapped.path other.path (List.nodup_cons.mp lapped.simple).1 (List.nodup_cons.mp other.simple).1]
  exact perm

-- Task 0 never finishes, and while it is current it is running.
theorem stateThen_awake (awake : (s.tasks t).state ≠ .sleeping) : stateThen s ring t = (s.tasks t).state :=
  if_neg fun both => awake both.2.1

theorem stateThen_finished : stateThen s ring t = .finished ↔ (s.tasks t).state = .finished := by
  unfold stateThen
  split
  · rename_i due
    rw [due.2.1]
    simp
  · exact Iff.rfl

theorem schedule_parts (valid : Ring s ring others) (lapped : Lap s lap) :
    ∃ seen tail left,lap = seen++tail ∧ Scheduled s (taskSchedule s) ring seen tail left := by
  have walkIs := wakeSleepers_walk valid
  have unfolded : taskSchedule s = resume (scanFrom (wakeSleepers s) ringGuard (wakeSleepers s).current).1
      (scanFrom (wakeSleepers s) ringGuard (wakeSleepers s).current).2 := by
    unfold taskSchedule
    rw [if_neg (by simp [valid.enabled,valid.nonzero valid.current])]
  have states := woken_state s ring
  have standings := woken_standing s (ring.take (ringGuard+1))
  have idle := valid.idle
  rw [walkIs] at unfolded
  have currentIs : (woken s (ring.take (ringGuard+1))).current = s.current := rfl
  have restIs : ((woken s (ring.take (ringGuard+1))).taskRing,(woken s (ring.take (ringGuard+1))).births,
      (woken s (ring.take (ringGuard+1))).ticks,(woken s (ring.take (ringGuard+1))).nextId,
      (woken s (ring.take (ringGuard+1))).reaped) = (s.taskRing,s.births,s.ticks,s.nextId,s.reaped) := rfl
  have path : Path (nextOf (woken s (ring.take (ringGuard+1)))) (nextOf (woken s (ring.take (ringGuard+1))) s.current)
      lap s.current := by
    rw [woken_next]
    exact lapped.path
  generalize woken s (ring.take (ringGuard+1)) = w at *
  rw [currentIs] at unfolded
  obtain ⟨outside,_⟩ := List.nodup_cons.mp lapped.simple
  rw [←currentIs] at path outside
  have simple := lapped.simple
  rw [←currentIs] at simple
  obtain ⟨seen,tail,rfl,walked⟩ := scan_walk path simple outside ringGuard
  rw [currentIs] at path outside walked
  generalize scanFrom w ringGuard s.current = answer at *
  obtain ⟨mid,chosen⟩ := answer
  dsimp only at *
  obtain ⟨unready,stops,path,_,sameStates,sameStandings,reaped,rest⟩ := walked
  simp only [Prod.mk.injEq] at rest restIs
  simp only [states,currentIs] at *
  obtain ⟨current,taskRing,_,births,ticks,nextId⟩ := rest
  obtain ⟨ringSame,birthsSame,ticksSame,nextIdSame,reapedSame⟩ := restIs
  rw [reapedSame] at reaped
  have perm := lap_perm valid lapped
  have root : s.taskRing ∈ s.current::(seen.filter (fun t => stateThen s ring t ≠ .finished)++tail) := by
    have alive : stateThen s ring s.taskRing ≠ .finished := by
      rw [Ne,stateThen_finished]
      rcases idle with idle | idle <;> rw [idle] <;> exact nofun
    have inside := perm.mem_iff.mpr valid.first
    simp only [List.mem_cons,List.mem_append,List.mem_filter,decide_eq_true_eq] at inside ⊢
    tauto
  have own : s.current = s.taskRing → stateThen s ring s.current = .running := by
    intro same
    have running := valid.own same
    rw [←same] at running
    rw [stateThen_awake (by rw [running]; exact nofun)]
    exact running
  have nonzero : 0 ∉ tail := by
    intro zero
    refine valid.nonzero (perm.mem_iff.mp ?_) rfl
    simp [zero]
  have simple : (s.current::(seen.filter (fun t => stateThen s ring t ≠ .finished)++tail)).Nodup := by
    refine List.Nodup.sublist ?_ lapped.simple
    exact (List.Sublist.append List.filter_sublist (List.Sublist.refl _)).cons_cons _
  obtain ⟨left,resumed⟩ := @resume_parts mid _ tail chosen (by rw [current]; exact path) (by rw [current]; exact simple)
    nonzero (by rw [current,taskRing,ringSame]; exact root) (by rw [current,taskRing,ringSame,sameStates]; exact own)
    (stops.imp And.left And.left)
  rw [←unfolded] at resumed
  obtain ⟨lap,moved,after,stands,kept,turn⟩ := resumed
  simp only [Prod.mk.injEq] at kept
  simp only [sameStates,current,taskRing,ringSame] at moved after turn
  refine ⟨seen,tail,left,rfl,unready,lap,moved,?_,after,?_,?_,?_⟩
  · rw [kept.2.2.2.2]
    exact reaped
  · intro t
    rw [stands,sameStandings,standings]
  · rw [kept.1,kept.2.1,kept.2.2.1,kept.2.2.2.1,taskRing,births,ticks,nextId,ringSame,birthsSame,ticksSame,nextIdSame]
  · rcases stops with ⟨rfl,ended⟩ | ⟨⟨back,rfl⟩,ready,early⟩
    · rcases turn with ⟨_,now⟩ | ⟨back,shape,_⟩
      · exact .inl ⟨ended,now⟩
      · rw [shape] at nonzero
        exact absurd (List.mem_cons_self ..) nonzero
    · rcases turn with ⟨rfl,_⟩ | ⟨back,shape,now,leftIs⟩
      · exact absurd (List.mem_cons_self ..) nonzero
      · exact .inr ⟨back,by rw [now]; exact shape,by rw [now]; exact ready,early,leftIs⟩

theorem scan_elsewhere (s : Sched) (guard scan : Nat) : (scanFrom s guard scan).1.current = s.current ∧
    ((scanFrom s guard scan).2 = 0 ∨ (scanFrom s guard scan).2 ≠ s.current) := by
  induction guard generalizing s scan with
  | zero => exact ⟨rfl,.inl rfl⟩
  | succ guard ih =>
    unfold scanFrom
    dsimp only
    split
    · exact ⟨rfl,.inl rfl⟩
    · rename_i other
      split
      · obtain ⟨_,_,_,_,current,_⟩ := reap_parts s scan (s.tasks scan).next
        obtain ⟨same,elsewhere⟩ := ih (reap s scan (s.tasks scan).next) scan
        rw [current] at same elsewhere
        exact ⟨same,elsewhere⟩
      · exact ⟨rfl,.inr other⟩
      · exact ih _ _

-- task_switch is never called from a task to itself.
theorem schedule_elsewhere (valid : Ring s ring others) : ∃ mid,mid.current = s.current ∧
    (taskSchedule s = mid ∨ ∃ next,next ≠ mid.current ∧ taskSchedule s = switchTo mid next) := by
  have unfolded : taskSchedule s = resume (scanFrom (wakeSleepers s) ringGuard (wakeSleepers s).current).1
      (scanFrom (wakeSleepers s) ringGuard (wakeSleepers s).current).2 := by
    unfold taskSchedule
    rw [if_neg (by simp [valid.enabled,valid.nonzero valid.current])]
  have walkIs := wakeSleepers_walk valid
  have awake : s.current = s.taskRing → ((wakeSleepers s).tasks s.current).state = .running := by
    intro same
    have running := valid.own same
    rw [←same] at running
    rw [walkIs,woken_state,stateThen_awake (by rw [running]; exact nofun),running]
  have rest : (wakeSleepers s).current = s.current ∧ (wakeSleepers s).taskRing = s.taskRing := by
    rw [walkIs]
    exact ⟨rfl,rfl⟩
  obtain ⟨current,elsewhere⟩ := scan_elsewhere (wakeSleepers s) ringGuard (wakeSleepers s).current
  obtain ⟨state,ringSame⟩ := scan_state (wakeSleepers s) ringGuard (wakeSleepers s).current s.current
  generalize scanFrom (wakeSleepers s) ringGuard (wakeSleepers s).current = answer at *
  rw [rest.1] at current elsewhere
  rw [rest.2] at ringSame
  refine ⟨answer.1,current,?_⟩
  rw [unfolded,resume]
  split
  · rename_i chosen
    refine .inr ⟨answer.2,?_,rfl⟩
    rw [current]
    exact elsewhere.resolve_left chosen
  · split
    · exact .inl rfl
    · rename_i stopped
      refine .inr ⟨_,fun same => stopped ?_,rfl⟩
      rw [current,state]
      rw [ringSame,current] at same
      exact awake same.symm

-- Where task_schedule is called: between two calls of a run, or when the current task
-- has just stopped itself by one of the routes that end in it.
inductive Moment (s : Sched) : Sched → Prop where
  | now : Moment s s
  | asleep (ticks : Nat) : s.current ≠ s.taskRing → Moment s (setTask s s.current
      {s.tasks s.current with wakeTick:=wrap 32 (s.ticks+ticks),state:=.sleeping})
  | blocked : s.current ≠ s.taskRing → Moment s (setState s s.current .blocked)
  | exited : s.current ≠ s.taskRing → Moment s (setState s s.current .finished)
  | terminated : s.current ≠ s.taskRing → Moment s (setState (taskFlushOutput s s.current) s.current .finished)
  | killed : s.current ≠ s.taskRing →
      Moment s (setState (taskFlushOutput (setState s s.current .finished) s.current) s.current .finished)

theorem moment_ring {m : Sched} (valid : Ring m ring others) (moment : Moment m s) : Ring s ring others ∧ s.current = m.current := by
  have ended : ∀ m : Sched,Ring m ring others → m.current ≠ m.taskRing →
      Ring (setState (taskFlushOutput m m.current) m.current .finished) ring others ∧
      (setState (taskFlushOutput m m.current) m.current .finished).current = m.current := by
    intro m valid created
    obtain ⟨_,_,_,_,current,taskRing,_⟩ := flush_same m m.current
    refine ⟨ring_setState (ring_flush valid m.current) nofun (fun root => absurd root ?_) (fun root => absurd root ?_),current⟩
    · rw [taskRing]
      exact created
    · rw [taskRing]
      exact created
  cases moment with
  | now => exact ⟨valid,rfl⟩
  | asleep ticks created => exact ⟨ring_stopped valid created rfl rfl rfl nofun,rfl⟩
  | blocked created => exact ⟨ring_stopped valid created rfl rfl rfl nofun,rfl⟩
  | exited created => exact ⟨ring_stopped valid created rfl rfl rfl nofun,rfl⟩
  | terminated created => exact ended m valid created
  | killed created => exact ended (setState m m.current .finished) (ring_stopped valid created rfl rfl rfl nofun) created

-- Only the record of the current task is another at such a moment.
theorem moment_same {m : Sched} (moment : Moment m s) : nextOf s = nextOf m ∧ serialOf s = serialOf m ∧
    (s.current,s.taskRing,s.births,s.ticks) = (m.current,m.taskRing,m.births,m.ticks) ∧
    ∀ t,t ≠ m.current → (s.tasks t).state = (m.tasks t).state ∧ standing (s.tasks t) = standing (m.tasks t) := by
  have state : ∀ (m : Sched) (value : TaskState),nextOf (setState m m.current value) = nextOf m ∧
      serialOf (setState m m.current value) = serialOf m ∧ ∀ t,t ≠ m.current →
        (setState m m.current value).tasks t = m.tasks t := by
    intro m value
    obtain ⟨links,serials,_⟩ := setState_same m m.current value
    exact ⟨links,serials,fun t other => Function.update_of_ne other ..⟩
  have flushed : ∀ (m : Sched) (t : Nat),t ≠ m.current → (taskFlushOutput m m.current).tasks t = m.tasks t := by
    intro m t other
    unfold taskFlushOutput
    split
    · rfl
    · exact Function.update_of_ne other ..
  have stopped : ∀ m : Sched,nextOf (setState (taskFlushOutput m m.current) m.current .finished) = nextOf m ∧
      serialOf (setState (taskFlushOutput m m.current) m.current .finished) = serialOf m ∧
      ((taskFlushOutput m m.current).current,(taskFlushOutput m m.current).taskRing,(taskFlushOutput m m.current).births,
        (taskFlushOutput m m.current).ticks) = (m.current,m.taskRing,m.births,m.ticks) ∧
      ∀ t,t ≠ m.current → (setState (taskFlushOutput m m.current) m.current .finished).tasks t = m.tasks t := by
    intro m
    obtain ⟨links,serials,_,_,current,taskRing,_,births,_⟩ := flush_same m m.current
    obtain ⟨linksThen,serialsThen,_⟩ := setState_same (taskFlushOutput m m.current) m.current .finished
    refine ⟨linksThen.trans links,serialsThen.trans serials,?_,fun t other => ?_⟩
    · rw [current,taskRing,births]
      unfold taskFlushOutput
      split <;> rfl
    · exact (Function.update_of_ne other ..).trans (flushed m t other)
  cases moment with
  | now => exact ⟨rfl,rfl,rfl,fun _ _ => ⟨rfl,rfl⟩⟩
  | asleep ticks created =>
    refine ⟨?_,?_,rfl,fun t other => ?_⟩
    · funext t
      by_cases here : t = m.current <;> simp [nextOf,setTask,here]
    · funext t
      by_cases here : t = m.current <;> simp [serialOf,setTask,here]
    · simp [setTask,other]
  | blocked created =>
    obtain ⟨links,serials,others⟩ := state m .blocked
    exact ⟨links,serials,rfl,fun t other => by rw [others t other]; exact ⟨rfl,rfl⟩⟩
  | exited created =>
    obtain ⟨links,serials,others⟩ := state m .finished
    exact ⟨links,serials,rfl,fun t other => by rw [others t other]; exact ⟨rfl,rfl⟩⟩
  | terminated created =>
    obtain ⟨links,serials,rest,others⟩ := stopped m
    exact ⟨links,serials,rest,fun t other => by rw [others t other]; exact ⟨rfl,rfl⟩⟩
  | killed created =>
    obtain ⟨linksFirst,serialsFirst,othersFirst⟩ := state m .finished
    obtain ⟨links,serials,rest,others⟩ := stopped (setState m m.current .finished)
    refine ⟨links.trans linksFirst,serials.trans serialsFirst,rest,fun t other => ?_⟩
    have same : (setState (taskFlushOutput (setState m m.current .finished) m.current) m.current .finished).tasks t =
        m.tasks t := (others t other).trans (othersFirst t other)
    rw [same]
    exact ⟨rfl,rfl⟩

theorem joined_parts (s : Sched) (heap : Kheap.Heap) (frames : Pmm.State 32) (record : Task) (different : t ≠ s.current) :
    nextOf (joined s t heap frames record) = Function.update (Function.update (nextOf s) t (nextOf s s.current)) s.current t ∧
    (∀ x,serialOf (joined s t heap frames record) x = if x = t then record.serial else serialOf s x) ∧
    (∀ x,((joined s t heap frames record).tasks x).state = if x = t then record.state else (s.tasks x).state) ∧
    (∀ x,((joined s t heap frames record).tasks x).id = if x = t then record.id else (s.tasks x).id) :=
  @create_parts s t record
    {setTask {s with heap:=heap,frames:=frames} t record with nextId:=wrap 32 (s.nextId+1),births:=s.births+1} different rfl rfl

theorem cycle_unique (one : Cycle s ring) (two : Cycle s lap) : ring = lap := by
  have tails : ∀ {nodes : List Nat},Cycle s nodes → ∃ rest,nodes = s.taskRing::rest ∧
      Path (nextOf s) (nextOf s s.taskRing) rest s.taskRing ∧ s.taskRing ∉ rest := by
    intro nodes cycle
    have path := cycle.path
    have simple := cycle.simple
    cases nodes with
    | nil => exact absurd rfl cycle.some
    | cons first rest =>
      obtain ⟨here,path⟩ := path
      subst here
      exact ⟨rest,rfl,path,(List.nodup_cons.mp simple).1⟩
  obtain ⟨rest,rfl,path,apart⟩ := tails one
  obtain ⟨other,rfl,pathToo,apartToo⟩ := tails two
  rw [path_unique path pathToo apart apartToo]

theorem lap_joined (lapped : Lap s lap) (different : t ≠ s.current) (outside : t ∉ lap) (heap : Kheap.Heap)
    (frames : Pmm.State 32) (record : Task) : Lap (joined s t heap frames record) (t::lap) := by
  obtain ⟨links,_⟩ := joined_parts s heap frames record different
  obtain ⟨apart,simple⟩ := List.nodup_cons.mp lapped.simple
  have current : (joined s t heap frames record).current = s.current := rfl
  refine ⟨?_,?_⟩
  · rw [links,current,Function.update_self]
    refine ⟨rfl,?_⟩
    rw [Function.update_of_ne different,Function.update_self]
    exact path_update apart (path_update outside lapped.path)
  · rw [current]
    refine List.nodup_cons.mpr ⟨?_,List.nodup_cons.mpr ⟨outside,simple⟩⟩
    rw [List.mem_cons,not_or]
    exact ⟨different.symm,apart⟩

def isTick : Call → Bool
  | .tick => true
  | _ => false

-- A call that leaves the ring and who runs as they are.
structure Quiet (s after : Sched) (call : Call) : Prop where
  links : nextOf after = nextOf s
  states : ∀ t,(after.tasks t).state = (s.tasks t).state ∨ (s.tasks t).state = .blocked ∨
    ∃ id,call = .taskKill id ∧ t = taskById s id
  standings : ∀ t,standing (after.tasks t) = standing (s.tasks t)
  rest : (after.current,after.taskRing,after.births) = (s.current,s.taskRing,s.births)
  ticks : after.ticks = if isTick call then wrap 32 (s.ticks+1) else s.ticks

theorem quiet_refl (untimed : isTick call = false) : Quiet s s call :=
  ⟨rfl,fun _ => .inl rfl,fun _ => rfl,rfl,by rw [untimed]; rfl⟩

theorem setState_quiet (untimed : isTick call = false) (changes : (s.tasks t).state = .blocked ∨ ∃ id,call = .taskKill id ∧ t = taskById s id) :
    Quiet s (setState s t state) call := by
  obtain ⟨links,_,states,_⟩ := setState_same s t state
  refine ⟨links,?_,?_,rfl,by rw [untimed]; rfl⟩
  · intro x
    rw [states]
    split
    · rename_i here
      subst here
      exact .inr changes
    · exact .inl rfl
  · intro x
    by_cases here : x = t <;> simp [setState,setTask,standing,here]

-- Every call of the scheduler gives the processor away once, or it is quiet, or it
-- makes a task.
theorem call_outcome (valid : Ring m.sched ring m.others) (running : Running m.sched) (allowed : Allowed m call) :
    (∃ now,Moment m.sched now ∧ (apply m call).sched = taskSchedule now) ∨
    Quiet m.sched (apply m call).sched call ∨
    ∃ t heap frames record,(apply m call).sched = joined m.sched t heap frames record ∧ t ∉ ring ∧
      record.serial = m.sched.births ∧ record.state = .ready := by
  have current := valid.nonzero valid.current
  have enabled := valid.enabled
  cases call with
  | taskCreateEx pageDir arg onExit =>
    rcases create_joins valid running pageDir arg onExit with ⟨heap,frames,same,_⟩ | ⟨t,heap,frames,stack,_,same,outside,_⟩
    · refine .inr (.inl ?_)
      simp only [apply,same]
      exact ⟨rfl,fun _ => .inl rfl,fun _ => rfl,rfl,rfl⟩
    · exact .inr (.inr ⟨t,heap,frames,_,same,outside,rfl,rfl⟩)
  | taskSchedule => exact .inl ⟨_,.now,rfl⟩
  | taskSleep ticks =>
    simp only [apply,taskSleep]
    split
    · exact .inr (.inl (quiet_refl rfl))
    · rename_i created
      simp only [not_or] at created
      exact .inl ⟨_,.asleep ticks created.2.2,rfl⟩
  | taskBlock =>
    simp only [apply,taskBlock,leave]
    rw [if_neg (by simp [enabled,current])]
    split
    · exact .inl ⟨_,.now,rfl⟩
    · rename_i created
      exact .inl ⟨_,.blocked created,rfl⟩
  | taskUnblock t =>
    simp only [apply,taskUnblock]
    split
    · rename_i blocked
      exact .inr (.inl (setState_quiet rfl (.inl blocked.2)))
    · exact .inr (.inl (quiet_refl rfl))
  | taskKill id =>
    simp only [apply,taskKill]
    split
    · exact .inr (.inl (quiet_refl rfl))
    · rename_i named
      split
      · exact .inr (.inl (quiet_refl rfl))
      · rename_i found
        simp only [not_or] at found
        split
        · exact .inr (.inl (quiet_refl rfl))
        · split
          · rename_i own
            have created := victim_created valid named found.1
            rw [own] at created ⊢
            refine .inl ⟨_,.killed created,?_⟩
            unfold taskTerminate
            exact if_neg current
          · exact .inr (.inl (setState_quiet rfl (.inr ⟨id,rfl,rfl⟩)))
  | taskExit =>
    simp only [apply,taskExit]
    rw [if_neg current]
    exact .inl ⟨_,.exited allowed,rfl⟩
  | taskTerminate =>
    simp only [apply,taskTerminate]
    rw [if_neg current]
    exact .inl ⟨_,.terminated allowed,rfl⟩
  | taskSetAddressSpace pageDir =>
    simp only [apply,taskSetAddressSpace]
    rw [if_neg current]
    refine .inr (.inl ⟨?_,?_,?_,rfl,rfl⟩)
    · funext t
      by_cases here : t = m.sched.current <;> simp [nextOf,setTask,here]
    · intro t
      refine .inl ?_
      by_cases here : t = m.sched.current <;> simp [setTask,here]
    · intro t
      by_cases here : t = m.sched.current <;> simp [setTask,standing,here]
  | tick => exact .inr (.inl ⟨rfl,fun _ => .inl rfl,fun _ => rfl,rfl,rfl⟩)
  | heap call => exact .inr (.inl ⟨rfl,fun _ => .inl rfl,fun _ => rfl,rfl,rfl⟩)
  | frames next => exact .inr (.inl ⟨rfl,fun _ => .inl rfl,fun _ => rfl,rfl,rfl⟩)

-- After wake_sleepers nobody on the ring is overdue.
def WakesAll (s : Sched) (ring : List Nat) : Prop := ∀ t ∈ ring,¬ Due (wakeSleepers s) t

def Finds (s : Sched) (ring : List Nat) (id : Nat) : Prop :=
  (∃ t ∈ ring,(s.tasks t).id = id) → taskById s id ∈ ring ∧ (s.tasks (taskById s id)).id = id

-- `t` is the first READY task of the lap, behind `front`.
structure FirstReady (state : Nat → TaskState) (lap front : List Nat) (t : Nat) : Prop where
  place : ∃ back,lap = front++t::back
  passed : ∀ x ∈ front,state x ≠ .ready
  ready : state t = .ready

structure Schedules (s : Sched) (state : Nat → TaskState) (lap : List Nat) : Prop where
  first : ∀ front t,FirstReady state lap front t → (taskSchedule s).current = t ∧
    (taskSchedule s).reaped.map Reaping.task = s.reaped.map Reaping.task++front.filter fun x => state x = .finished
  alone : (∀ t ∈ lap,state t ≠ .ready) →
    (taskSchedule s).current = if state s.current = .running then s.current else s.taskRing

-- The first READY task is within the guard, or it is task 0, which is fallen back to.
def InReach (s : Sched) (state : Nat → TaskState) (lap : List Nat) : Prop :=
  ∀ front t,FirstReady state lap front t → front.length < ringGuard ∨
    t = s.taskRing ∧ state s.current ≠ .running ∧ ∀ x ∈ front.drop ringGuard,state x ≠ .finished

theorem wakes_exact (valid : Ring s ring others) :
    WakesAll s ring ↔ ∀ t ∈ ring,Due s t → t ∈ ring.take (ringGuard+1) := by
  unfold WakesAll
  rw [wakeSleepers_walk valid]
  simp only [woken_due]
  refine forall_congr' fun t => forall_congr' fun _ => ?_
  tauto

theorem finds_exact (valid : Ring s ring others) (id : Nat) : Finds s ring id ↔
    ((∃ t ∈ ring,(s.tasks t).id = id) → ∃ t ∈ ring.take (ringGuard+1),(s.tasks t).id = id) := by
  unfold Finds
  refine imp_congr_right fun _ => ?_
  rw [taskById_walk valid]
  cases search : (ring.take (ringGuard+1)).find? fun t => (s.tasks t).id = id with
  | none =>
    rw [Option.getD_none]
    simp only [List.find?_eq_none,decide_eq_true_eq] at search
    constructor
    · exact fun found => absurd rfl (valid.nonzero found.1)
    · rintro ⟨t,member,named⟩
      exact absurd named (search t member)
  | some t =>
    rw [Option.getD_some]
    have member := List.mem_of_find?_eq_some search
    have named := List.find?_some search
    rw [decide_eq_true_eq] at named
    exact ⟨fun _ => ⟨t,member,named⟩,fun _ => ⟨List.mem_of_mem_take member,named⟩⟩

-- What has been seen without success is in front of the first READY task.
theorem seen_front {state : Nat → TaskState} (shape : front++t::back = seen++tail) (unready : ∀ x ∈ seen,state x ≠ .ready)
    (ready : state t = .ready) : ∃ more,front = seen++more ∧ tail = more++t::back := by
  rcases List.append_eq_append_iff.mp shape with ⟨more,rfl,rest⟩ | ⟨more,rfl,rest⟩
  · cases more with
    | nil => exact ⟨[],by simp,rest.symm⟩
    | cons first more =>
      cases (List.cons_eq_cons.mp rest).1
      exact absurd ready (unready _ (by simp))
  · exact ⟨more,rfl,rest⟩

theorem schedules_exact (valid : Ring s ring others) (lapped : Lap s lap) :
    Schedules s (fun t => ((wakeSleepers s).tasks t).state) lap ↔ InReach s (stateThen s ring) lap := by
  have sameState : (fun t => ((wakeSleepers s).tasks t).state) = stateThen s ring := by
    funext t
    rw [wakeSleepers_walk valid]
    exact woken_state s ring t
  rw [sameState]
  obtain ⟨seen,tail,left,rfl,call⟩ := schedule_parts valid lapped
  obtain ⟨outside,_⟩ := List.nodup_cons.mp lapped.simple
  constructor
  · intro exact front t first
    obtain ⟨⟨back,shape⟩,passed,ready⟩ := first
    obtain ⟨runs,reaped⟩ := exact.first front t ⟨⟨back,shape⟩,passed,ready⟩
    obtain ⟨more,rfl,rfl⟩ := seen_front shape.symm call.unready ready
    rcases call.turn with ⟨ended,fallback⟩ | ⟨behind,next,_,early,_⟩
    · right
      have full : seen.length = ringGuard := by
        refine ended.resolve_left ?_
        simp
      have other : t ≠ s.current := by
        rintro rfl
        exact outside (by simp)
      rw [runs] at fallback
      split at fallback
      · exact absurd fallback other
      · rename_i stopped
        refine ⟨fallback,stopped,?_⟩
        rw [call.reaped,List.append_cancel_left_eq,List.filter_append,List.self_eq_append_right] at reaped
        rw [←full,List.drop_left]
        simpa using reaped
    · left
      cases more with
      | nil =>
        rw [List.append_nil]
        exact early
      | cons first more =>
        have chosen := (List.cons_eq_cons.mp next).1
        rw [runs] at chosen
        subst chosen
        exact absurd ready (passed first (by simp))
  · intro reach
    refine ⟨fun front t first => ?_,fun none => ?_⟩
    · have within := reach front t first
      obtain ⟨⟨back,shape⟩,passed,ready⟩ := first
      obtain ⟨more,rfl,rfl⟩ := seen_front shape.symm call.unready ready
      rcases call.turn with ⟨ended,fallback⟩ | ⟨behind,next,chosen,early,_⟩
      · have full : seen.length = ringGuard := by
          refine ended.resolve_left ?_
          simp
        rcases within with near | ⟨root,stopped,clean⟩
        · rw [List.length_append,full] at near
          omega
        · rw [if_neg stopped] at fallback
          rw [←full,List.drop_left] at clean
          have none : more.filter (fun x => stateThen s ring x = .finished) = [] :=
            List.filter_eq_nil_iff.mpr (by simpa using clean)
          refine ⟨fallback.trans root.symm,?_⟩
          rw [call.reaped,List.filter_append,none,List.append_nil]
      · cases more with
        | nil =>
          have here := (List.cons_eq_cons.mp next).1
          refine ⟨here.symm,?_⟩
          rw [call.reaped,List.append_nil]
        | cons first more =>
          have here := (List.cons_eq_cons.mp next).1
          subst here
          exact absurd chosen (passed _ (by simp))
    · rcases call.turn with ⟨_,fallback⟩ | ⟨behind,rfl,chosen,_⟩
      · exact fallback
      · exact absurd chosen (none _ (by simp))

theorem fresh_reached : Reached (scheduler 0x101000 KheapRuns.roomyMap) freshStart :=
  ⟨freshStart,[],freshStart_started,.nil⟩

-- A free block that is large enough shrinks by one record with every task made.
def recordRoom : Nat := 328+24+8

theorem record_given {h : Kheap.Heap} (held : Held .i386 h blocks live) (member : block ∈ blocks) (free : block.free = true)
    (room : recordRoom+more ≤ block.size) : (Kheap.kmalloc .i386 h sizeofTask).1 ≠ 0 ∧
      ∃ cut,Held .i386 (Kheap.kmalloc .i386 h sizeofTask).2 cut ((Kheap.kmalloc .i386 h sizeofTask).1::live) ∧
        ∃ left ∈ cut,left.free = true ∧ more ≤ left.size := by
  have size : Kheap.alignUp .i386 sizeofTask = 328 := by decide
  have header : Kheap.headerSize .i386 = 24 := by decide
  have alignment : Kheap.Target.alignment .i386 = 8 := by decide
  unfold recordRoom at room
  rcases KheapRequests.kmalloc_search held (n:=sizeofTask) (by decide) with ⟨none,_⟩ | ⟨front,first,back,rfl,_,fits,taken⟩
  · rw [size] at none
    exact absurd ⟨free,by omega⟩ (none block member)
  · rw [taken]
    have started := held.started
    refine ⟨?_,_,held_carve held fits (alignUp_aligned _ _),?_⟩
    · simp only [Kheap.payloadOf]
      omega
    · simp only [List.mem_append,List.mem_cons] at member ⊢
      rcases member with before | rfl | behind
      · exact ⟨block,.inl before,free,by omega⟩
      · refine ⟨⟨block.size-328-24,true⟩,.inr (.inl ?_),rfl,by simp only; omega⟩
        rw [size,KheapBlocks.carve,header,alignment,if_neg (by omega)]
        simp
      · exact ⟨block,.inr (.inr behind),free,by omega⟩

-- A kernel that makes one task after another: each has its serial for an id.
structure Crowd (m : Machine) (count room : Nat) : Prop where
  reached : Reached (scheduler 0x101000 KheapRuns.roomyMap) m
  ring : ∃ ring,Ring m.sched ring m.others ∧ Running m.sched ∧ (∀ t ∈ ring,(m.sched.tasks t).id = serialOf m.sched t) ∧
    ∃ blocks,Held .i386 m.sched.heap blocks (ring++m.others) ∧ ∃ block ∈ blocks,block.free = true ∧ room ≤ block.size
  counts : (m.sched.births,m.sched.nextId,m.sched.reaped) = (count,count,[])

def roomForStack : Pmm.State 32 := ⟨fun _ => 1#32,32,1⟩
def oneMore (m : Machine) : Machine := apply (apply m (.frames roomForStack)) (.taskCreateEx 0 0 0)

theorem create_given (enabled : s.enabled = true) (given : (Kheap.kmalloc .i386 s.heap sizeofTask).1 ≠ 0)
    (stack : (Pmm.pmmAllocFrames s.frames stackFrames).1 ≠ 0) : (taskCreateEx s pageDir arg onExit).2 =
      joined s (Kheap.kmalloc .i386 s.heap sizeofTask).1 (Kheap.kmalloc .i386 s.heap sizeofTask).2
        (Pmm.pmmAllocFrames s.frames stackFrames).2
        (newTask s (Pmm.pmmAllocFrames s.frames stackFrames).1 pageDir arg onExit) := by
  unfold taskCreateEx
  rw [if_neg (by simp [enabled])]
  generalize Kheap.kmalloc .i386 s.heap sizeofTask = answer at *
  obtain ⟨t,heap⟩ := answer
  dsimp only at *
  rw [if_neg given,if_neg stack]
  rfl

theorem crowd_grows (crowd : Crowd m count (recordRoom+room)) (small : count+1 < 2^32) : Crowd (oneMore m) (count+1) room := by
  obtain ⟨reached,⟨ring,valid,running,named,blocks,held,block,member,free,enough⟩,counts⟩ := crowd
  simp only [Prod.mk.injEq] at counts
  obtain ⟨births,nextId,reaped⟩ := counts
  obtain ⟨given,cut,grown,spare⟩ := record_given held member free enough
  have valid : Ring {m.sched with frames:=roomForStack} ring m.others := {valid with}
  have stack : (Pmm.pmmAllocFrames roomForStack stackFrames).1 ≠ 0 := by decide
  have made := @create_given {m.sched with frames:=roomForStack} 0 0 0 valid.enabled given stack
  obtain ⟨reachedFrom,labels,started,runs⟩ := reached
  have stocked : Runs (scheduler 0x101000 KheapRuns.roomyMap) reachedFrom (labels++[.frames roomForStack])
      (apply m (.frames roomForStack)) := runs.act trivial
  have grownRun : Runs (scheduler 0x101000 KheapRuns.roomyMap) reachedFrom
      (labels++[.frames roomForStack]++[.taskCreateEx 0 0 0]) (oneMore m) := stocked.act trivial
  have reached : Reached (scheduler 0x101000 KheapRuns.roomyMap) (oneMore m) := ⟨reachedFrom,_,started,grownRun⟩
  have others : (oneMore m).others = m.others := rfl
  have sched : (oneMore m).sched = (taskCreateEx {m.sched with frames:=roomForStack} 0 0 0).2 := rfl
  generalize oneMore m = after at *
  obtain ⟨afterSched,afterOthers⟩ := after
  dsimp only at others sched
  subst others
  rw [made] at sched
  dsimp only at sched
  generalize Kheap.kmalloc .i386 m.sched.heap sizeofTask = answer at *
  obtain ⟨t,heap⟩ := answer
  dsimp only at *
  have outside : t ∉ ring := fun inside => (List.nodup_cons.mp grown.distinct).1 (List.mem_append_left _ inside)
  have different : t ≠ m.sched.current := by
    rintro rfl
    exact outside valid.current
  generalize Pmm.pmmAllocFrames roomForStack stackFrames = answer at *
  obtain ⟨base,frames⟩ := answer
  dsimp only at *
  obtain ⟨_,serials,_,ids⟩ := @joined_parts t {m.sched with frames:=roomForStack} heap frames
    (newTask {m.sched with frames:=roomForStack} base 0 0 0) different
  obtain ⟨longer,joins,runs,perm⟩ := @joined_ring {m.sched with frames:=roomForStack} ring m.others t heap cut valid running
    different frames grown (newTask {m.sched with frames:=roomForStack} base 0 0 0) rfl rfl
  rw [←sched] at serials ids joins runs
  refine ⟨reached,⟨longer,joins,runs,?_,cut,?_,spare⟩,?_⟩
  · intro x inside
    rw [serials,ids]
    split
    · exact nextId.trans births.symm
    · rename_i other
      exact named x ((List.mem_cons.mp (perm.mem_iff.mp inside)).resolve_left other)
  · rw [sched]
    exact held_perm grown (perm.symm.append_right m.others)
  · rw [sched,Prod.mk.injEq,Prod.mk.injEq]
    refine ⟨congrArg (·+1) births,?_,reaped⟩
    change wrap 32 (m.sched.nextId+1) = count+1
    rw [nextId,wrap_small small]

theorem crowd_many (count : Nat) (crowd : Crowd m start (count*recordRoom+room)) (small : start+count < 2^32) :
    Crowd (oneMore^[count] m) (start+count) room := by
  induction count generalizing room with
  | zero =>
    rw [Nat.zero_mul,Nat.zero_add] at crowd
    exact crowd
  | succ count ih =>
    rw [Function.iterate_succ_apply']
    refine crowd_grows (ih ?_ (by omega)) (by omega)
    rw [show count*recordRoom+(recordRoom+room) = (count+1)*recordRoom+room by rw [Nat.add_mul]; omega]
    exact crowd

theorem fresh_held : Held .i386 (KheapRuns.freshHeap .i386 0x102000) [⟨Kheap.heapSize-Kheap.headerSize .i386,true⟩] [] := by
  refine KheapRuns.held_single (by decide) rfl ?_ (by decide) (by decide)
  exact KheapBlocks.header_written (by decide) (by decide) (by decide)

theorem accounts_length (valid : Ring s ring others) (unreaped : s.reaped = []) : ring.length = s.births := by
  have accounts := valid.accounts.length_eq
  rw [reapedSerials,unreaped] at accounts
  simpa using accounts

theorem blank_init (h : Kheap.Heap) (espNow : Nat) (given : (Kheap.kmalloc .i386 h sizeofTask).1 ≠ 0) :
    (taskInit (blankSched h) espNow).heap = (Kheap.kmalloc .i386 h sizeofTask).2 ∧
    (taskInit (blankSched h) espNow).taskRing = (Kheap.kmalloc .i386 h sizeofTask).1 ∧
    ((taskInit (blankSched h) espNow).births,(taskInit (blankSched h) espNow).nextId,
      (taskInit (blankSched h) espNow).reaped) = (1,1,[]) ∧
    serialOf (taskInit (blankSched h) espNow) (Kheap.kmalloc .i386 h sizeofTask).1 = 0 := by
  have heap : (blankSched h).heap = h := rfl
  unfold taskInit
  rw [heap]
  generalize Kheap.kmalloc .i386 h sizeofTask = answer at *
  obtain ⟨t,left⟩ := answer
  dsimp only at *
  rw [if_neg given]
  refine ⟨rfl,rfl,rfl,?_⟩
  simp [serialOf,setTask,blankSched]

theorem fresh_crowd : Crowd freshStart 1 (100*recordRoom) := by
  obtain ⟨ring,valid,running⟩ := runs_kept fresh_reached
  obtain ⟨given,cut,grown,spare⟩ := @record_given _ _ _ (100*recordRoom) _ fresh_held (List.mem_singleton_self _) rfl (by decide)
  obtain ⟨heap,first,counts,serial⟩ := blank_init (KheapRuns.freshHeap .i386 0x102000) 0x200000 given
  have sched : freshStart.sched = taskInit (blankSched (KheapRuns.freshHeap .i386 0x102000)) 0x200000 := rfl
  have others : freshStart.others = [] := rfl
  rw [←sched] at heap first counts serial
  rw [←heap,←first] at grown
  rw [←first] at serial
  have reached := fresh_reached
  generalize freshStart = m at *
  simp only [Prod.mk.injEq] at counts
  obtain ⟨only,rfl⟩ := List.length_eq_one_iff.mp ((accounts_length valid counts.2.2).trans counts.1)
  have root := valid.path.1
  refine ⟨reached,⟨[only],valid,running,?_,cut,?_,spare⟩,?_⟩
  · intro x member
    rw [List.mem_singleton.mp member,←root,valid.root,serial]
  · rw [others,←root]
    exact grown
  · rw [counts.1,counts.2.1,counts.2.2]

-- 65 tasks made in a row: the ring has 66, and task_by_id gives up before the last.
def crowded : Machine := oneMore^[65] freshStart

theorem crowded_crowd : Crowd crowded (1+65) (35*recordRoom) :=
  have base : Crowd freshStart 1 (65*recordRoom+35*recordRoom) := fresh_crowd
  crowd_many 65 base (by decide)

-- The walks see the whole ring exactly where their guards, 64, are not in the way.
theorem ring_walks_exact (path : Reached (scheduler kernelEnd mbi) m) (moment : Moment m.sched s) :
    ∃ ring lap,Cycle s ring ∧ Lap s lap ∧ (s.current::lap).Perm ring ∧
      (WakesAll s ring ↔ ∀ t ∈ ring,Due s t → t ∈ ring.take (ringGuard+1)) ∧
      (∀ id,Finds s ring id ↔
        ((∃ t ∈ ring,(s.tasks t).id = id) → ∃ t ∈ ring.take (ringGuard+1),(s.tasks t).id = id)) ∧
      (Schedules s (fun t => ((wakeSleepers s).tasks t).state) lap ↔ InReach s (stateThen s ring) lap) := by
  obtain ⟨ring,valid,_⟩ := runs_kept path
  obtain ⟨now,_⟩ := moment_ring valid moment
  obtain ⟨lap,lapped,perm⟩ := ring_lap now
  exact ⟨ring,lap,ring_cycle now,lapped,perm,wakes_exact now,finds_exact now,schedules_exact now lapped⟩

theorem ring_walks_crowded : ∃ ring lap,Cycle crowded.sched ring ∧ Lap crowded.sched lap ∧ ring.length = 66 ∧
    (WakesAll crowded.sched ring ↔ ∀ t ∈ ring,Due crowded.sched t → t ∈ ring.take (ringGuard+1)) ∧
    (∀ id,Finds crowded.sched ring id ↔ ((∃ t ∈ ring,(crowded.sched.tasks t).id = id) →
      ∃ t ∈ ring.take (ringGuard+1),(crowded.sched.tasks t).id = id)) ∧
    (Schedules crowded.sched (fun t => ((wakeSleepers crowded.sched).tasks t).state) lap ↔
      InReach crowded.sched (stateThen crowded.sched ring) lap) := by
  obtain ⟨reached,⟨tasks,valid,_⟩,counts⟩ := crowded_crowd
  obtain ⟨ring,lap,cycle,lapped,_,exact⟩ := ring_walks_exact reached .now
  simp only [Prod.mk.injEq] at counts
  obtain rfl := cycle_unique cycle (ring_cycle valid)
  exact ⟨ring,lap,cycle,lapped,(accounts_length valid counts.2.2).trans counts.1,exact⟩

theorem far_task_missed : Reached (scheduler 0x101000 KheapRuns.roomyMap) crowded ∧
    ∃ ring,Cycle crowded.sched ring ∧ ∃ id,¬ Finds crowded.sched ring id := by
  have many := crowded_crowd
  generalize crowded = m at *
  obtain ⟨reached,⟨ring,valid,_,named,_⟩,counts⟩ := many
  refine ⟨reached,ring,ring_cycle valid,?_⟩
  simp only [Prod.mk.injEq] at counts
  have long : ring.length = 66 := (accounts_length valid counts.2.2).trans counts.1
  obtain ⟨front,last,rfl⟩ := (List.eq_nil_or_concat ring).resolve_left valid.some
  rw [List.concat_eq_append] at *
  have short : front.length = ringGuard+1 := by
    rw [List.length_append,List.length_singleton] at long
    exact Nat.add_right_cancel long
  refine ⟨(m.sched.tasks last).id,fun finds => ?_⟩
  obtain ⟨other,member,same⟩ := (finds_exact valid _).mp finds ⟨last,by simp,rfl⟩
  rw [←short,List.take_left] at member
  rw [named other (List.mem_append_left _ member),named last (by simp)] at same
  have once := (List.nodup_append.mp (valid.accounts.nodup_iff.mpr List.nodup_range)).1
  rw [List.map_append,List.nodup_append] at once
  exact once.2.2 _ (List.mem_map_of_mem member) _ (List.mem_singleton_self _) same

end Arthic.RingWalks
