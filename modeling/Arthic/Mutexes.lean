import Arthic.PipeWakeups

namespace Arthic.Mutexes
open Scheduler Linked Transition Unsigned PipeWakeups

structure Mutex where
  locked : Nat
  contended : Nat
  waitHead : Nat
  waitTail : Nat

def mutexInit : Mutex := ⟨0,0,0,0⟩

def enqueue (s : Sched) (m : Mutex) (t : Nat) : Sched × Mutex :=
  let (s,head,tail) := Pipes.enqueue s m.waitHead m.waitTail t
  (s,{m with waitHead:=head,waitTail:=tail})

def dequeue (s : Sched) (m : Mutex) : Nat × Sched × Mutex :=
  let t := m.waitHead
  if t = 0 then (0,s,m) else
  let next := (s.tasks t).waitNext
  (t,Pipes.setWaitNext s t 0,{m with waitHead:=next,waitTail:=if next = 0 then 0 else m.waitTail})

-- One round of the loop in mutex_lock, interrupts off throughout: it took the lock, or
-- its task joined the queue and went into task_block.
def lockSection (s : Sched) (m : Mutex) : Bool × Sched × Mutex :=
  let previous := m.locked
  let m := {m with locked:=1}
  if previous = 0 then (true,s,m) else
  let (s,m) := enqueue s {m with contended:=wrap 32 (m.contended+1)} s.current
  (false,leave s,m)

def mutexUnlock (s : Sched) (m : Mutex) : Sched × Mutex :=
  let (waiter,s,m) := dequeue s {m with locked:=0}
  (if waiter ≠ 0 then taskUnblock s waiter else s,m)

-- Where a task stands between sections. `resting` is the point inside task_block: the
-- task has joined the queue and has not tested the lock since.
inductive Control where
  | idle
  | locking (resting : Bool)
  | holding
  deriving DecidableEq

structure World where
  sched : Sched
  lock : Mutex
  control : Nat → Control

def setControl (w : World) (control : Control) : World :=
  {w with control:=Function.update w.control w.sched.current control}

inductive Label where
  | dispatch (t : Nat)
  | lock
  | proceed
  | unlock
  deriving DecidableEq

def Executing (w : World) : Prop := (w.sched.tasks w.sched.current).state = .running

-- The processor goes to any ready task; the current one takes and gives back the lock
-- in pairs. Task 0 yields where the others block, so it may be dispatched again at once.
def Allowed (w : World) : Label → Prop
  | .dispatch t => t ≠ 0 ∧ (w.sched.tasks t).state = .ready
  | .lock => Executing w ∧ w.control w.sched.current = .idle
  | .proceed => Executing w ∧ ∃ resting,w.control w.sched.current = .locking resting
  | .unlock => Executing w ∧ w.control w.sched.current = .holding

def proceed (w : World) : World :=
  let (taken,sched,lock) := lockSection w.sched w.lock
  {setControl w (if taken then .holding else .locking true) with sched:=sched,lock:=lock}

def apply (w : World) : Label → World
  | .dispatch t => {w with sched:=switchTo w.sched t}
  | .lock => setControl w (.locking false)
  | .proceed => proceed w
  | .unlock =>
    let (sched,lock) := mutexUnlock w.sched w.lock
    {setControl w .idle with sched:=sched,lock:=lock}

def Started (w : World) : Prop :=
  w.lock = mutexInit ∧ (∀ t,w.control t = .idle) ∧ w.sched.current ≠ 0 ∧ w.sched.taskRing ≠ 0 ∧
  w.sched.enabled = true ∧ ¬ Blocked w.sched w.sched.taskRing

def contest : System World Label := guarded Started Allowed apply

def Runnable (s : Sched) (t : Nat) : Prop := (s.tasks t).state = .ready ∨ (s.tasks t).state = .running
def Parked (w : World) (t : Nat) : Prop := w.control t = .locking true ∧ Blocked w.sched t
def Woken (w : World) (t : Nat) : Prop := w.control t = .locking true ∧ Runnable w.sched t

-- The tasks met from wait_head on.
def Listed (w : World) (waiting : List Nat) : Prop :=
  0 ∉ waiting ∧ Linked.Path (waitOf w.sched) w.lock.waitHead waiting 0

def NoLostWakeup (w : World) : Prop :=
  ∃ waiting,Listed w waiting ∧ w.lock.waitTail = waiting.getLast?.getD 0 ∧ (∀ t,Parked w t → waiting.count t = 1) ∧
    (w.lock.locked = 0 → (∃ t ∈ waiting,Blocked w.sched t) → ∃ u,Woken w u)

-- Task 0 comes back from task_block while it is still in the list. That goes wrong when
-- it then finds the lock taken and joins a second time, and when it took the lock and an
-- unlock spends its one wakeup on that old entry while others are waiting behind it.
def Orderly (w : World) : Label → Prop
  | .proceed => w.sched.current = w.sched.taskRing → w.lock.locked ≠ 0 →
      ¬ ∃ waiting,Listed w waiting ∧ w.sched.taskRing ∈ waiting
  | .unlock => w.lock.waitHead = w.sched.taskRing → waitOf w.sched w.sched.taskRing ≠ 0 → ∃ u,Woken w u
  | _ => True

def orderly : System World Label := guarded Started (fun w label => Allowed w label ∧ Orderly w label) apply

variable {w : World} {waiting : List Nat}

structure Waiting (w : World) (waiting : List Nat) : Prop where
  queue : Queue (waitOf w.sched) w.lock.waitHead w.lock.waitTail waiting
  parked : ∀ t,Parked w t → t ∈ waiting
  inside : ∀ t ∈ waiting,t ≠ w.sched.taskRing → Parked w t
  ring : ¬ Blocked w.sched w.sched.taskRing
  busy : ∀ t,w.control t ≠ .idle → Runnable w.sched t ∨ Blocked w.sched t
  owed : w.lock.locked = 0 → (∃ t ∈ waiting,Blocked w.sched t) → ∃ u,Woken w u
  caller : w.sched.current ≠ 0
  first : w.sched.taskRing ≠ 0

theorem waiting_wakeup (kept : Waiting w waiting) : NoLostWakeup w :=
  ⟨waiting,⟨kept.queue.nonzero,kept.queue.path⟩,kept.queue.tail,
    fun t parked => List.count_eq_one_of_mem kept.queue.distinct (kept.parked t parked),kept.owed⟩

theorem waiting_start (started : Started w) : Waiting w [] := by
  obtain ⟨lock,idle,current,first,_,ring⟩ := started
  refine ⟨?_,?_,nofun,ring,?_,nofun,current,first⟩
  · rw [lock]; exact queue_empty _
  · rintro t ⟨resting,_⟩
    rw [idle t] at resting
    cases resting
  · intro t busy
    exact absurd (idle t) busy

theorem executing_awake (executing : Executing w) : ¬ Blocked w.sched w.sched.current := by
  intro blocked
  rw [Blocked,executing] at blocked
  cases blocked

theorem current_fresh (kept : Waiting w waiting) (executing : Executing w)
    (created : w.sched.current ≠ w.sched.taskRing) : w.sched.current ∉ waiting :=
  fun member => executing_awake executing (kept.inside _ member created).2

-- Control of the current task changes; the list and the states stay.
theorem waiting_control {call : Control} (kept : Waiting w waiting) (executing : Executing w) (locked : Nat)
    (owed : locked = 0 → (∃ t ∈ waiting,Blocked w.sched t) → ∃ u,u ≠ w.sched.current ∧ Woken w u) :
    Waiting {setControl w call with lock:={w.lock with locked:=locked}} waiting := by
  have awake := executing_awake executing
  have others : ∀ t,t ≠ w.sched.current → Function.update w.control w.sched.current call t = w.control t :=
    fun t different => Function.update_of_ne different _ _
  refine ⟨kept.queue,?_,?_,kept.ring,?_,?_,kept.caller,kept.first⟩
  · rintro t ⟨resting,blocked⟩
    have different : t ≠ w.sched.current := by
      rintro rfl
      exact awake blocked
    exact kept.parked t ⟨(others t different).symm.trans resting,blocked⟩
  · intro t member created
    obtain ⟨resting,blocked⟩ := kept.inside t member created
    have different : t ≠ w.sched.current := by
      rintro rfl
      exact awake blocked
    exact ⟨(others t different).trans resting,blocked⟩
  · intro t busy
    by_cases equal : t = w.sched.current
    · rw [equal]; exact .inl (.inr executing)
    · exact kept.busy t (by rw [←others t equal]; exact busy)
  · intro free some
    obtain ⟨u,different,resting,runnable⟩ := owed free some
    exact ⟨u,(others u different).trans resting,runnable⟩

theorem waiting_lock (kept : Waiting w waiting) (executing : Executing w) (idle : w.control w.sched.current = .idle) :
    Waiting (setControl w (.locking false)) waiting := by
  refine @waiting_control w waiting (.locking false) kept executing w.lock.locked ?_
  intro free some
  obtain ⟨u,resting,runnable⟩ := kept.owed free some
  refine ⟨u,?_,resting,runnable⟩
  rintro rfl
  rw [idle] at resting
  cases resting

theorem leave_state (s : Sched) (t : Nat) : ((leave s).tasks t).state =
    if t = s.current ∧ s.current ≠ s.taskRing then .blocked else (s.tasks t).state := by
  unfold leave
  split
  · rename_i zero
    simp [zero]
  · rename_i created
    rw [(SchedulerRing.setState_same s _ .blocked).2.2.1]
    simp [created]

theorem leave_wait (s : Sched) :
    waitOf (leave s) = waitOf s ∧ (leave s).current = s.current ∧ (leave s).taskRing = s.taskRing := by
  unfold leave
  split
  · exact ⟨rfl,rfl,rfl⟩
  · exact ⟨setState_wait _ _ _,rfl,rfl⟩

-- What a round does that finds the lock taken.
theorem park_parts (w : World) (taken : w.lock.locked ≠ 0) :
    waitOf (proceed w).sched = pushLink (waitOf w.sched) w.lock.waitTail w.sched.current ∧
    (∀ t,((proceed w).sched.tasks t).state =
      if t = w.sched.current ∧ w.sched.current ≠ w.sched.taskRing then .blocked else (w.sched.tasks t).state) ∧
    (proceed w).sched.current = w.sched.current ∧ (proceed w).sched.taskRing = w.sched.taskRing ∧
    (proceed w).control = Function.update w.control w.sched.current (.locking true) ∧ (proceed w).lock.locked = 1 ∧
    (proceed w).lock.waitHead = (if w.lock.waitTail = 0 then w.sched.current else w.lock.waitHead) ∧
    (proceed w).lock.waitTail = w.sched.current := by
  obtain ⟨wait,state,current,ring,ends⟩ := enqueue_parts w.sched w.lock.waitHead w.lock.waitTail w.sched.current
  obtain ⟨leftWait,leftCurrent,leftRing⟩ := leave_wait (Pipes.enqueue w.sched w.lock.waitHead w.lock.waitTail w.sched.current).1
  have leftState := leave_state (Pipes.enqueue w.sched w.lock.waitHead w.lock.waitTail w.sched.current).1
  simp only [proceed,lockSection,taken,if_false,enqueue,setControl]
  refine ⟨leftWait.trans wait,?_,leftCurrent.trans current,leftRing.trans ring,rfl,trivial,congrArg Prod.fst ends,
    congrArg Prod.snd ends⟩
  intro t
  rw [leftState,current,ring,state]

theorem waiting_park (kept : Waiting w waiting) (executing : Executing w) (taken : w.lock.locked ≠ 0)
    (fresh : w.sched.current ∉ waiting) : Waiting (proceed w) (waiting++[w.sched.current]) := by
  obtain ⟨wait,state,current,ring,control,locked,head,tail⟩ := park_parts w taken
  have awake := executing_awake executing
  have same : ∀ t,t ≠ w.sched.current → ((proceed w).sched.tasks t).state = (w.sched.tasks t).state := by
    intro t different
    rw [state,if_neg (fun both => different both.1)]
  have others : ∀ t,t ≠ w.sched.current → (proceed w).control t = w.control t := by
    intro t different
    rw [control]
    exact Function.update_of_ne different _ _
  refine ⟨?_,?_,?_,?_,?_,?_,?_,?_⟩
  · rw [wait,head,tail]; exact queue_push kept.queue fresh kept.caller
  · rintro t ⟨resting,blocked⟩
    rw [List.mem_append,List.mem_singleton]
    by_cases equal : t = w.sched.current
    · exact .inr equal
    · rw [Blocked,same t equal] at blocked
      rw [others t equal] at resting
      exact .inl (kept.parked t ⟨resting,blocked⟩)
  · intro t member created
    rw [ring] at created
    by_cases equal : t = w.sched.current
    · subst equal
      refine ⟨by rw [control,Function.update_self],?_⟩
      rw [Blocked,state,if_pos ⟨rfl,created⟩]
    · rcases List.mem_append.mp member with earlier | last
      · obtain ⟨resting,blocked⟩ := kept.inside t earlier created
        exact ⟨(others t equal).trans resting,(same t equal).trans blocked⟩
      · exact absurd (List.mem_singleton.mp last) equal
  · rw [ring,Blocked,state]
    split
    · rename_i both
      exact absurd both.1.symm both.2
    · exact kept.ring
  · intro t busy
    by_cases equal : t = w.sched.current
    · subst equal
      rw [Runnable,Blocked,state]
      split
      · exact .inr rfl
      · exact .inl (.inr executing)
    · rw [Runnable,Blocked,same t equal]
      rw [others t equal] at busy
      exact kept.busy t busy
  · intro free
    rw [locked] at free
    cases free
  · rw [current]; exact kept.caller
  · rw [ring]; exact kept.first

theorem waiting_take (kept : Waiting w waiting) (executing : Executing w) (free : w.lock.locked = 0) :
    Waiting (proceed w) waiting := by
  have taken := @waiting_control w waiting .holding kept executing 1 nofun
  simpa only [proceed,lockSection,free,if_true,setControl] using taken

theorem waiting_proceed (kept : Waiting w waiting) (executing : Executing w) (careful : Orderly w .proceed) :
    ∃ after,Waiting (proceed w) after := by
  by_cases free : w.lock.locked = 0
  · exact ⟨_,waiting_take kept executing free⟩
  · refine ⟨_,waiting_park kept executing free ?_⟩
    by_cases zero : w.sched.current = w.sched.taskRing
    · intro member
      exact careful zero free ⟨waiting,⟨kept.queue.nonzero,kept.queue.path⟩,zero ▸ member⟩
    · exact current_fresh kept executing zero

theorem unlock_parts (s : Sched) (m : Mutex) :
    mutexUnlock s m = ((Pipes.wakeOne s m.waitHead m.waitTail).1,
      {m with
        locked:=0
        waitHead:=(Pipes.wakeOne s m.waitHead m.waitTail).2.1
        waitTail:=(Pipes.wakeOne s m.waitHead m.waitTail).2.2}) := by
  by_cases zero : m.waitHead = 0
  · simp [mutexUnlock,dequeue,Pipes.wakeOne,zero]
  · simp [mutexUnlock,dequeue,Pipes.wakeOne,zero]

theorem wakeOne_state (s : Sched) (head tail : Nat) (nonzero : head ≠ 0) (t : Nat) :
    ((Pipes.wakeOne s head tail).1.tasks t).state =
      if t = head ∧ (s.tasks head).state = .blocked then .ready else (s.tasks t).state := by
  have same := (setWaitNext_parts s head 0).2
  rw [Pipes.wakeOne,if_neg nonzero]
  dsimp only
  unfold taskUnblock
  rw [same]
  split
  · rename_i woken
    rw [(SchedulerRing.setState_same _ _ .ready).2.2.1,same]
    simp [woken.2]
  · rename_i awake
    have stays : ¬ (t = head ∧ (s.tasks head).state = .blocked) := fun both => awake ⟨nonzero,both.2⟩
    rw [same,if_neg stays]

theorem waiting_unlock (kept : Waiting w waiting) (executing : Executing w)
    (holding : w.control w.sched.current = .holding) (careful : Orderly w .unlock) :
    Waiting (apply w .unlock) waiting.tail := by
  have awake := executing_awake executing
  have different : ∀ {t},w.control t = .locking true → t ≠ w.sched.current := by
    rintro t resting rfl
    rw [holding] at resting
    cases resting
  simp only [apply,unlock_parts]
  cases waiting with
  | nil =>
    have zero : w.lock.waitHead = 0 := (queue_head kept.queue).mpr rfl
    have nothing : Pipes.wakeOne w.sched w.lock.waitHead w.lock.waitTail = (w.sched,w.lock.waitHead,w.lock.waitTail) := by
      rw [Pipes.wakeOne,if_pos zero]
    rw [nothing]
    refine @waiting_control w [] .idle kept executing 0 ?_
    rintro _ ⟨t,member,_⟩
    cases member
  | cons first rest =>
    obtain ⟨here,popped⟩ := queue_pop kept.queue
    have nonzero : w.lock.waitHead ≠ 0 := by
      intro zero
      cases (queue_head kept.queue).mp zero
    subst here
    obtain ⟨wait,blocked,current,ring,ends⟩ := wakeOne_parts w.sched w.lock.waitHead w.lock.waitTail nonzero
    have state := wakeOne_state w.sched w.lock.waitHead w.lock.waitTail nonzero
    obtain ⟨outside,_⟩ := List.nodup_cons.mp kept.queue.distinct
    have others : ∀ t,t ≠ w.sched.current → Function.update w.control w.sched.current .idle t = w.control t :=
      fun t different => Function.update_of_ne different _ _
    have runs : ∀ t,Runnable w.sched t → Runnable (Pipes.wakeOne w.sched w.lock.waitHead w.lock.waitTail).1 t := by
      intro t runnable
      rw [Runnable,state]
      split
      · exact .inl rfl
      · exact runnable
    refine ⟨?_,?_,?_,?_,?_,?_,?_,?_⟩
    · rw [wait,ends]; exact popped
    · rintro t ⟨resting,still⟩
      rw [blocked] at still
      have away : t ≠ w.sched.current := by
        rintro rfl
        exact awake still.2
      have member := kept.parked t ⟨(others t away).symm.trans resting,still.2⟩
      exact (List.mem_cons.mp member).resolve_left still.1
    · intro t member created
      rw [ring] at created
      obtain ⟨resting,parked⟩ := kept.inside t (List.mem_cons_of_mem _ member) created
      refine ⟨(others t (different resting)).trans resting,(blocked t).mpr ⟨?_,parked⟩⟩
      rintro rfl
      exact outside member
    · rw [ring,blocked]
      exact fun still => kept.ring still.2
    · intro t busy
      have away : t ≠ w.sched.current := by
        rintro rfl
        exact busy (Function.update_self ..)
      rcases kept.busy t (by rw [←others t away]; exact busy) with runnable | still
      · exact .inl (runs t runnable)
      · by_cases equal : t = w.lock.waitHead
        · subst equal
          refine .inl (.inl ?_)
          rw [state,if_pos ⟨rfl,still⟩]
        · exact .inr ((blocked t).mpr ⟨equal,still⟩)
    · rintro _ ⟨t,member,_⟩
      -- Whoever was first is awake now, unless it was task 0 with an old entry.
      by_cases zero : w.lock.waitHead = w.sched.taskRing
      · have behind : waitOf w.sched w.sched.taskRing ≠ 0 := by
          intro last
          rw [zero,last] at popped
          rw [(queue_head popped).mp rfl] at member
          cases member
        obtain ⟨u,resting,runnable⟩ := careful zero behind
        exact ⟨u,(others u (different resting)).trans resting,runs u runnable⟩
      · obtain ⟨resting,parked⟩ := kept.inside _ (List.mem_cons_self ..) zero
        refine ⟨w.lock.waitHead,(others _ (different resting)).trans resting,.inl ?_⟩
        rw [state,if_pos ⟨rfl,parked⟩]
    · rw [current]; exact kept.caller
    · rw [ring]; exact kept.first

theorem switchTo_runnable (ready : (s.tasks t).state = .ready) (x : Nat) :
    Runnable (switchTo s t) x ↔ Runnable s x := by
  rw [Runnable,Runnable,(SchedulerRing.switchTo_parts s t).1,(SchedulerRing.exchanged_parts s t).2.2.1]
  split
  · rename_i equal
    simp [equal,ready]
  · split
    · rename_i running
      simp [running.2]
    · rfl

theorem waiting_dispatch (kept : Waiting w waiting) (nonzero : t ≠ 0) (ready : (w.sched.tasks t).state = .ready) :
    Waiting {w with sched:=switchTo w.sched t} waiting := by
  obtain ⟨wait,blocked,ring⟩ := switchTo_blocked w.sched ready
  have runnable := switchTo_runnable ready
  refine ⟨?_,?_,?_,?_,?_,?_,?_,?_⟩
  · rw [wait]; exact kept.queue
  · intro x parked
    exact kept.parked x ⟨parked.1,(blocked x).mp parked.2⟩
  · intro x member created
    rw [ring] at created
    obtain ⟨resting,parked⟩ := kept.inside x member created
    exact ⟨resting,(blocked x).mpr parked⟩
  · rw [ring,blocked]; exact kept.ring
  · intro x busy
    rw [runnable,blocked]
    exact kept.busy x busy
  · rintro free ⟨x,member,parked⟩
    obtain ⟨u,resting,runs⟩ := kept.owed free ⟨x,member,(blocked x).mp parked⟩
    exact ⟨u,resting,(runnable u).mpr runs⟩
  · rw [(SchedulerRing.switchTo_parts w.sched t).2.1]; exact nonzero
  · rw [ring]; exact kept.first

theorem waiting_step (kept : Waiting w waiting) (allowed : Allowed w label) (careful : Orderly w label) :
    ∃ after,Waiting (apply w label) after := by
  cases label with
  | dispatch t => exact ⟨_,waiting_dispatch kept allowed.1 allowed.2⟩
  | lock => exact ⟨_,waiting_lock kept allowed.1 allowed.2⟩
  | proceed => exact waiting_proceed kept allowed.1 careful
  | unlock => exact ⟨_,waiting_unlock kept allowed.1 allowed.2 careful⟩

theorem runs_waiting (path : Reached orderly w) : ∃ waiting,Waiting w waiting := by
  apply path.invariant
  · exact fun w started => ⟨_,waiting_start started⟩
  · rintro w label next ⟨waiting,kept⟩ ⟨⟨allowed,careful⟩,rfl⟩
    exact waiting_step kept allowed careful

-- Joining a second time cuts off whoever waits behind task 0, or ties its record to
-- itself when nobody does.
theorem twice_breaks (kept : Waiting w waiting) (zero : w.sched.current = w.sched.taskRing) (taken : w.lock.locked ≠ 0)
    (member : w.sched.taskRing ∈ waiting) : ¬ NoLostWakeup (proceed w) := by
  obtain ⟨wait,state,_,_,control,_,head,_⟩ := park_parts w taken
  rintro ⟨list,⟨proper,listed⟩,_,once,_⟩
  obtain ⟨front,behind,rfl⟩ := List.append_of_mem member
  obtain ⟨middle,before,rfl,_⟩ := path_append.mp kept.queue.path
  obtain ⟨_,later,apart⟩ := List.nodup_append.mp kept.queue.distinct
  obtain ⟨ahead,_⟩ := List.nodup_cons.mp later
  have some : w.lock.waitTail ≠ 0 := by
    intro none
    have empty := (queue_tail kept.queue).mp none
    simp at empty
  have nonzero : 0 ∉ front := fun inside => kept.queue.nonzero (List.mem_append_left _ inside)
  have outside : w.sched.taskRing ∉ front := fun inside => apart _ inside _ (List.mem_cons_self ..) rfl
  have final := kept.queue.tail
  rw [wait,head,zero,pushLink,if_neg some,if_neg some] at listed
  cases behind with
  | nil =>
    rw [List.getLast?_concat,Option.getD_some] at final
    rw [final] at listed
    obtain ⟨rest,_,path⟩ := path_through (path_update outside (path_update outside before)) nonzero listed
    exact path_cycle (Function.update_self ..) (final ▸ some) path
  | cons next behind =>
    have last : w.lock.waitTail ∈ next::behind := by
      rw [List.getLast?_append_cons,List.getLast?_cons_cons] at final
      rw [final]
      exact List.mem_of_getLast? (by rw [List.getLast?_cons,Option.getD_some])
    have different : w.sched.taskRing ≠ w.lock.waitTail := fun equal => ahead (equal ▸ last)
    have clear : w.lock.waitTail ∉ front := fun inside => apart _ inside _ (List.mem_cons_of_mem _ last) rfl
    obtain ⟨rest,rfl,path⟩ := path_through (path_update clear (path_update outside before)) nonzero listed
    have parked := kept.inside next (by simp) (fun equal => ahead (equal ▸ List.mem_cons_self ..))
    have away : next ≠ w.sched.current := fun equal => ahead (by rw [←zero,←equal]; exact List.mem_cons_self ..)
    have still : Parked (proceed w) next := by
      refine ⟨?_,?_⟩
      · rw [control,Function.update_of_ne away]; exact parked.1
      · rw [Blocked,state,if_neg (fun both => away both.1)]; exact parked.2
    have counted := List.count_pos_iff.mp (by rw [once next still]; exact Nat.one_pos)
    cases rest with
    | nil => exact kept.first path
    | cons first rest =>
      obtain ⟨rfl,path⟩ := path
      rw [Function.update_of_ne different,Function.update_self] at path
      rw [path_ended (fun inside => proper (by simp [inside])) path] at counted
      rcases List.mem_append.mp counted with inside | here
      · exact apart _ inside _ (by simp) rfl
      · exact ahead (List.mem_singleton.mp here ▸ List.mem_cons_self ..)

-- The wakeup goes to an entry nobody waits for.
theorem spent_breaks (kept : Waiting w waiting) (zero : w.lock.waitHead = w.sched.taskRing) (behind : waitOf w.sched w.sched.taskRing ≠ 0)
    (nobody : ¬ ∃ u,Woken w u) : ¬ NoLostWakeup (apply w .unlock) := by
  cases waiting with
  | nil => exact absurd (zero.symm.trans ((queue_head kept.queue).mpr rfl)) kept.first
  | cons first rest =>
    obtain ⟨here,popped⟩ := queue_pop kept.queue
    have state := wakeOne_state w.sched w.lock.waitHead w.lock.waitTail (zero ▸ kept.first)
    obtain ⟨wait,_,_,_,ends⟩ := wakeOne_parts w.sched w.lock.waitHead w.lock.waitTail (zero ▸ kept.first)
    obtain ⟨outside,_⟩ := List.nodup_cons.mp kept.queue.distinct
    have same : ∀ t,((Pipes.wakeOne w.sched w.lock.waitHead w.lock.waitTail).1.tasks t).state = (w.sched.tasks t).state := by
      intro t
      rw [state,if_neg]
      rintro ⟨_,blocked⟩
      exact kept.ring (zero ▸ blocked)
    simp only [apply,unlock_parts]
    rintro ⟨list,⟨_,listed⟩,_,_,owed⟩
    rw [wait,ends,here] at listed
    obtain ⟨more,rfl,_⟩ := path_through popped.path popped.nonzero listed
    cases rest with
    | nil => exact behind (by rw [←zero,here]; exact popped.path)
    | cons next rest =>
      have parked := kept.inside next (by simp) (by
        rintro rfl
        exact outside (by rw [←here,zero]; exact List.mem_cons_self ..))
      obtain ⟨u,resting,runnable⟩ := owed rfl ⟨next,by simp,(same next).trans parked.2⟩
      have away : u ≠ w.sched.current := by
        rintro rfl
        rw [setControl] at resting
        simp at resting
      rw [Runnable,same] at runnable
      refine nobody ⟨u,?_,runnable⟩
      rw [←resting]
      exact (Function.update_of_ne away _ _).symm

theorem careful_exact (kept : Waiting w waiting) (allowed : Allowed w label) :
    NoLostWakeup (apply w label) ↔ Orderly w label := by
  constructor
  · intro holds
    cases label with
    | dispatch t => trivial
    | lock => trivial
    | proceed =>
      rintro zero taken ⟨list,⟨proper,listed⟩,member⟩
      obtain ⟨more,rfl,rest⟩ := path_through kept.queue.path kept.queue.nonzero listed
      rw [path_ended (fun inside => proper (by simp [inside])) rest,List.append_nil] at member
      exact twice_breaks kept zero taken member holds
    | unlock =>
      intro zero behind
      by_contra nobody
      exact spent_breaks kept zero behind nobody holds
  · intro careful
    obtain ⟨after,kept⟩ := waiting_step kept allowed careful
    exact waiting_wakeup kept

theorem no_waiter_dropped (path : Reached orderly w) :
    NoLostWakeup w ∧ ∀ label,Allowed w label → (NoLostWakeup (apply w label) ↔ Orderly w label) := by
  obtain ⟨waiting,kept⟩ := runs_waiting path
  exact ⟨waiting_wakeup kept,fun label allowed => careful_exact kept allowed⟩

-- Task 1 is task 0 of the source. Task 3 holds the lock, task 0 joins the queue, task 2
-- joins behind it and blocks.
def threeTasks : Sched :=
  ⟨fun t => {state:=if t = 3 then .running else .ready},3,1,0,true,0,0,⟨fun _ => 0#8,0,0⟩,⟨fun _ => 0#32,0,0⟩,
    [],0,0,0,[],0,[]⟩
def quiet : World := ⟨threeTasks,mutexInit,fun _ => .idle⟩
def queueing : List Label := [.lock,.proceed,.dispatch 1,.lock,.proceed,.dispatch 2,.lock,.proceed,.dispatch 1]
def queued : World := queueing.foldl apply quiet

theorem quiet_started : Started quiet := ⟨rfl,fun _ => rfl,by decide,by decide,rfl,nofun⟩

theorem queued_reached : Reached orderly queued := by
  refine @reached_by _ _ _ _ _ quiet queueing quiet_started ?_
  have first : Orderly ((queueing.take 4).foldl apply quiet) .proceed := by
    rintro _ _ ⟨list,⟨proper,listed⟩,member⟩
    rw [path_ended proper listed] at member
    cases member
  exact ⟨⟨⟨rfl,rfl⟩,trivial⟩,⟨⟨rfl,_,rfl⟩,fun _ taken => absurd rfl taken⟩,⟨⟨by decide,rfl⟩,trivial⟩,⟨⟨rfl,rfl⟩,trivial⟩,
    ⟨⟨rfl,_,rfl⟩,first⟩,⟨⟨by decide,rfl⟩,trivial⟩,⟨⟨rfl,rfl⟩,trivial⟩,⟨⟨rfl,_,rfl⟩,fun zero => absurd zero (by decide)⟩,
    ⟨⟨by decide,rfl⟩,trivial⟩,trivial⟩

theorem no_waiter_dropped_small : Parked queued 2 ∧ NoLostWakeup queued :=
  ⟨⟨rfl,rfl⟩,(no_waiter_dropped queued_reached).1⟩

-- Task 0 tests the lock once more, and task 2 is off the list for good.
theorem second_join_drops_waiter : Reached contest (apply queued .proceed) ∧ ¬ NoLostWakeup (apply queued .proceed) := by
  constructor
  · refine @reached_by _ _ _ _ _ quiet (queueing++[.proceed]) quiet_started ?_
    exact ⟨⟨rfl,rfl⟩,⟨rfl,_,rfl⟩,⟨by decide,rfl⟩,⟨rfl,rfl⟩,⟨rfl,_,rfl⟩,⟨by decide,rfl⟩,⟨rfl,rfl⟩,⟨rfl,_,rfl⟩,⟨by decide,rfl⟩,
      ⟨rfl,_,rfl⟩,trivial⟩
  · obtain ⟨waiting,kept⟩ := runs_waiting queued_reached
    have listed : Listed queued [1,2] := ⟨by decide,rfl,rfl,rfl⟩
    have allowed : Allowed queued .proceed := ⟨rfl,_,rfl⟩
    intro holds
    exact (careful_exact kept allowed).mp holds rfl (by decide) ⟨[1,2],listed,by decide⟩

end Arthic.Mutexes
