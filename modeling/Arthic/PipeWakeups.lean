import Arthic.PipeStream
import Arthic.SchedulerRing

namespace Arthic.PipeWakeups
open ByteMemory Scheduler Pipes Linked Transition
variable {s after : Sched} {w : World} {control next : Nat → Control} {rests : Control → Bool}

def waitOf (s : Sched) (t : Nat) : Nat := (s.tasks t).waitNext
def Blocked (s : Sched) (t : Nat) : Prop := (s.tasks t).state = .blocked

theorem setWaitNext_parts (s : Sched) (x value : Nat) :
    waitOf (setWaitNext s x value) = Function.update (waitOf s) x value ∧
    ∀ t,((setWaitNext s x value).tasks t).state = (s.tasks t).state := by
  refine ⟨?_,?_⟩
  · funext t; by_cases equal : t = x <;> simp [waitOf,setWaitNext,setTask,equal,Function.update]
  · intro t; by_cases equal : t = x <;> simp [setWaitNext,setTask,equal,Function.update]

theorem setState_wait (s : Sched) (x : Nat) (state : TaskState) : waitOf (setState s x state) = waitOf s := by
  funext t
  by_cases equal : t = x <;> simp [waitOf,setState,setTask,equal,Function.update]

theorem enqueue_parts (s : Sched) (head tail t : Nat) :
    waitOf (enqueue s head tail t).1 = pushLink (waitOf s) tail t ∧
    (∀ x,((enqueue s head tail t).1.tasks x).state = (s.tasks x).state) ∧
    (enqueue s head tail t).1.current = s.current ∧ (enqueue s head tail t).1.taskRing = s.taskRing ∧
    (enqueue s head tail t).2 = (if tail = 0 then t else head,t) := by
  obtain ⟨wait,state⟩ := setWaitNext_parts s t 0
  unfold enqueue pushLink
  by_cases empty : tail = 0
  · simp only [empty,ne_eq,not_true_eq_false,if_false,if_true]
    exact ⟨wait,state,rfl,rfl,trivial⟩
  · obtain ⟨wait₂,state₂⟩ := setWaitNext_parts (setWaitNext s t 0) tail t
    simp only [ne_eq,empty,not_false_eq_true,if_true,if_false]
    refine ⟨by rw [wait₂,wait],fun x => (state₂ x).trans (state x),rfl,rfl,trivial⟩

theorem unblock_parts (s : Sched) (t : Nat) (nonzero : t ≠ 0) :
    waitOf (taskUnblock s t) = waitOf s ∧ (∀ x,Blocked (taskUnblock s t) x ↔ x ≠ t ∧ Blocked s x) ∧
    (taskUnblock s t).current = s.current ∧ (taskUnblock s t).taskRing = s.taskRing := by
  unfold taskUnblock
  split
  · refine ⟨setState_wait _ _ _,?_,rfl,rfl⟩
    intro x
    rw [Blocked,(SchedulerRing.setState_same s t .ready).2.2.1]
    by_cases equal : x = t
    · simp [equal]
    · simp [equal,Blocked]
  · rename_i awake
    refine ⟨rfl,?_,rfl,rfl⟩
    intro x
    refine ⟨fun blocked => ⟨?_,blocked⟩,And.right⟩
    rintro rfl
    exact awake ⟨nonzero,blocked⟩

theorem wakeOne_parts (s : Sched) (head tail : Nat) (nonzero : head ≠ 0) :
    waitOf (wakeOne s head tail).1 = Function.update (waitOf s) head 0 ∧
    (∀ x,Blocked (wakeOne s head tail).1 x ↔ x ≠ head ∧ Blocked s x) ∧
    (wakeOne s head tail).1.current = s.current ∧ (wakeOne s head tail).1.taskRing = s.taskRing ∧
    (wakeOne s head tail).2 = (waitOf s head,if waitOf s head = 0 then 0 else tail) := by
  obtain ⟨wait,state⟩ := setWaitNext_parts s head 0
  obtain ⟨wait₂,blocked,current,ring⟩ := unblock_parts (setWaitNext s head 0) head nonzero
  unfold wakeOne
  rw [if_neg nonzero]
  refine ⟨wait₂.trans wait,?_,current,ring,rfl⟩
  intro x
  rw [blocked,Blocked,state,Blocked]

theorem leave_parts (s : Sched) (created : s.current ≠ s.taskRing) :
    waitOf (leave s) = waitOf s ∧ (∀ x,Blocked (leave s) x ↔ x = s.current ∨ Blocked s x) ∧
    (leave s).current = s.current ∧ (leave s).taskRing = s.taskRing := by
  unfold leave
  rw [if_neg created]
  refine ⟨setState_wait _ _ _,?_,rfl,rfl⟩
  intro x
  rw [Blocked,(SchedulerRing.setState_same s _ .blocked).2.2.1]
  by_cases equal : x = s.current
  · simp [equal]
  · simp [equal,Blocked]

theorem switchTo_blocked (s : Sched) (ready : (s.tasks t).state = .ready) :
    waitOf (switchTo s t) = waitOf s ∧ (∀ x,Blocked (switchTo s t) x ↔ Blocked s x) ∧
    (switchTo s t).taskRing = s.taskRing := by
  obtain ⟨tasks,_,ring,_⟩ := SchedulerRing.switchTo_parts s t
  have state := (SchedulerRing.exchanged_parts s t).2.2.1
  refine ⟨?_,?_,ring⟩
  · funext x
    rw [waitOf,tasks]
    change waitOf (SchedulerRing.exchanged s t) x = _
    unfold SchedulerRing.exchanged
    rw [setState_wait]
    split
    · rw [setState_wait]
    · rfl
  · intro x
    rw [Blocked,tasks,state,Blocked]
    split
    · rename_i equal
      simp [equal,ready]
    · split
      · rename_i running
        simp [running.2]
      · rfl

-- One of the two queues with its tasks: those parked on it, and those that were woken
-- from it and have not tested the pipe since.
structure Side (s : Sched) (control : Nat → Control) (rests : Control → Bool) (head tail : Nat)
    (parked woken : List Nat) : Prop where
  queue : Queue (waitOf s) head tail parked
  parkedIs : ∀ t,t ∈ parked ↔ rests (control t) = true ∧ Blocked s t
  wokenIs : ∀ t,t ∈ woken ↔ rests (control t) = true ∧ ¬ Blocked s t
  distinct : woken.Nodup

-- A task that is awake tests the pipe, or does something else altogether; nothing
-- happens to the others on this side.
theorem side_retest (side : Side s control rests head tail parked woken) (awake : ¬ Blocked s t)
    (wait : ∀ x ∈ parked,waitOf after x = waitOf s x) (gone : rests (next t) = false)
    (others : ∀ x,x ≠ t → rests (next x) = rests (control x))
    (blocked : ∀ x,x ≠ t → rests (control x) = true → (Blocked after x ↔ Blocked s x)) :
    Side after next rests head tail parked (woken.erase t) := by
  refine ⟨queue_congr wait side.queue,?_,?_,side.distinct.erase t⟩
  · intro x
    rw [side.parkedIs]
    by_cases equal : x = t
    · subst equal
      rw [gone]
      exact ⟨fun old => absurd old.2 awake,nofun⟩
    · rw [others x equal]
      exact and_congr_right fun resting => (blocked x equal resting).symm
  · intro x
    rw [side.distinct.mem_erase_iff,side.wokenIs]
    by_cases equal : x = t
    · subst equal
      rw [gone]
      exact ⟨fun old => absurd rfl old.1,nofun⟩
    · rw [others x equal]
      refine ⟨fun old => ⟨old.2.1,fun now => old.2.2 ((blocked x equal old.2.1).mp now)⟩,fun now => ⟨equal,now.1,?_⟩⟩
      exact fun old => now.2 ((blocked x equal now.1).mpr old)

theorem side_wake (side : Side s control rests head tail (first::parked) woken) :
    head = first ∧ Side (wakeOne s head tail).1 control rests (wakeOne s head tail).2.1 (wakeOne s head tail).2.2
      parked (first::woken) := by
  have nonzero : first ≠ 0 := by
    rintro rfl
    exact side.queue.nonzero (List.mem_cons_self ..)
  obtain ⟨here,popped⟩ := queue_pop side.queue
  subst here
  obtain ⟨wait,blocked,_,_,ends⟩ := wakeOne_parts s head tail nonzero
  obtain ⟨outside,distinct⟩ := List.nodup_cons.mp side.queue.distinct
  have resting := (side.parkedIs head).mp (List.mem_cons_self ..)
  refine ⟨rfl,?_,?_,?_,?_⟩
  · rw [wait,ends]; exact popped
  · intro x
    rw [blocked]
    have member := side.parkedIs x
    rw [List.mem_cons] at member
    by_cases equal : x = head
    · subst equal
      simp [outside]
    · simp only [equal,false_or] at member
      simp [member,equal]
  · intro x
    rw [List.mem_cons,side.wokenIs,blocked]
    by_cases equal : x = head
    · subst equal
      simp [resting.1]
    · simp [equal]
  · refine List.nodup_cons.mpr ⟨?_,side.distinct⟩
    intro already
    exact ((side.wokenIs head).mp already).2 resting.2

theorem side_park (side : Side s control rests head tail parked woken) (awake : ¬ Blocked s s.current)
    (nonzero : s.current ≠ 0) (created : s.current ≠ s.taskRing) (rest : rests (next s.current) = true)
    (others : ∀ x,x ≠ s.current → next x = control x) :
    Side (leave (enqueue s head tail s.current).1) next rests (enqueue s head tail s.current).2.1
      (enqueue s head tail s.current).2.2 (parked++[s.current]) (woken.erase s.current) := by
  obtain ⟨wait,state,current,ring,ends⟩ := enqueue_parts s head tail s.current
  obtain ⟨leftWait,blocked,_,_⟩ := leave_parts (enqueue s head tail s.current).1 (by rw [current,ring]; exact created)
  have fresh : s.current ∉ parked := fun member => awake ((side.parkedIs _).mp member).2
  have blockedNow : ∀ x,Blocked (leave (enqueue s head tail s.current).1) x ↔ x = s.current ∨ Blocked s x := by
    intro x
    rw [blocked,current,Blocked,state,Blocked]
  refine ⟨?_,?_,?_,side.distinct.erase _⟩
  · rw [leftWait,wait,ends]; exact queue_push side.queue fresh nonzero
  · intro x
    rw [blockedNow,List.mem_append,List.mem_singleton,side.parkedIs]
    by_cases equal : x = s.current
    · simp [equal,rest]
    · simp [equal,others x equal]
  · intro x
    rw [side.distinct.mem_erase_iff,side.wokenIs,blockedNow]
    by_cases equal : x = s.current
    · simp [equal]
    · simp [equal,others x equal]

-- The two sides of a section: the caller's own queue and the one it serves.
section Sides
variable {own other : Control → Bool} {ownHead ownTail otherHead otherTail : Nat}
  {ownParked ownWoken otherParked otherWoken : List Nat} {call : Control}

-- The section moved a byte: the caller is no longer waiting, and the first task of the
-- other queue is woken.
theorem sides_move (apart : ∀ c,other c = true → own c = false)
    (mine : Side s control own ownHead ownTail ownParked ownWoken)
    (theirs : Side s control other otherHead otherTail otherParked otherWoken)
    (awake : ¬ Blocked s s.current) (foreign : other (control s.current) = false) (moved : own call = false)
    (served : other call = false) :
    Side (wakeOne s otherHead otherTail).1 (Function.update control s.current call) own ownHead ownTail ownParked
      (ownWoken.erase s.current) ∧
    Side (wakeOne s otherHead otherTail).1 (Function.update control s.current call) other
      (wakeOne s otherHead otherTail).2.1 (wakeOne s otherHead otherTail).2.2 otherParked.tail
      (otherParked.head?.toList++otherWoken) := by
  have away : ∀ rests : Control → Bool,∀ x,x ≠ s.current →
      rests (Function.update control s.current call x) = rests (control x) := by
    intro rests x different
    rw [Function.update_of_ne different]
  have same : ∀ x,other (Function.update control s.current call x) = other (control x) := by
    intro x
    by_cases equal : x = s.current
    · rw [equal,Function.update_self,served,foreign]
    · exact away other x equal
  have calling : own (Function.update control s.current call s.current) = false := by
    rw [Function.update_self]; exact moved
  cases otherParked with
  | nil =>
    have zero : otherHead = 0 := (queue_head theirs.queue).mpr rfl
    have nothing : wakeOne s otherHead otherTail = (s,otherHead,otherTail) := by rw [wakeOne,if_pos zero]
    rw [nothing]
    refine ⟨side_retest mine awake (fun _ _ => rfl) calling (away own) (fun _ _ _ => Iff.rfl),theirs.queue,?_,?_,
      theirs.distinct⟩
    · intro x; rw [same]; exact theirs.parkedIs x
    · intro x; rw [same]; exact theirs.wokenIs x
  | cons first parked =>
    obtain ⟨here,woken⟩ := side_wake theirs
    have resting := (theirs.parkedIs first).mp (List.mem_cons_self ..)
    have nonzero : otherHead ≠ 0 := by
      intro zero
      cases (queue_head theirs.queue).mp zero
    subst here
    obtain ⟨wait,blocked,_⟩ := wakeOne_parts s otherHead otherTail nonzero
    have outsider : own (control otherHead) = false := apart _ resting.1
    refine ⟨side_retest mine awake ?_ calling (away own) ?_,woken.queue,?_,?_,woken.distinct⟩
    · intro x member
      rw [wait]
      apply Function.update_of_ne
      rintro rfl
      have mineToo := ((mine.parkedIs x).mp member).1
      rw [outsider] at mineToo
      cases mineToo
    · intro x _ mineToo
      rw [blocked]
      refine ⟨And.right,fun still => ⟨?_,still⟩⟩
      rintro rfl
      rw [outsider] at mineToo
      cases mineToo
    · intro x; rw [same]; exact woken.parkedIs x
    · intro x; rw [same]; exact woken.wokenIs x

-- The section could do nothing: the caller joins its queue, the other side stays.
theorem sides_park (apart : ∀ c,other c = true → own c = false)
    (mine : Side s control own ownHead ownTail ownParked ownWoken)
    (theirs : Side s control other otherHead otherTail otherParked otherWoken)
    (awake : ¬ Blocked s s.current) (nonzero : s.current ≠ 0) (created : s.current ≠ s.taskRing)
    (parked : own call = true) :
    Side (leave (enqueue s ownHead ownTail s.current).1) (Function.update control s.current call) own
      (enqueue s ownHead ownTail s.current).2.1 (enqueue s ownHead ownTail s.current).2.2 (ownParked++[s.current])
      (ownWoken.erase s.current) ∧
    Side (leave (enqueue s ownHead ownTail s.current).1) (Function.update control s.current call) other
      otherHead otherTail otherParked (otherWoken.erase s.current) := by
  obtain ⟨wait,state,current,ring,_⟩ := enqueue_parts s ownHead ownTail s.current
  obtain ⟨leftWait,blocked,_,_⟩ := leave_parts (enqueue s ownHead ownTail s.current).1
    (by rw [current,ring]; exact created)
  have served : other call = false := by
    cases found : other call with
    | false => rfl
    | true => rw [apart _ found] at parked; cases parked
  refine ⟨side_park mine awake nonzero created (by rw [Function.update_self]; exact parked)
    (fun x different => Function.update_of_ne different _ _),side_retest theirs awake ?_ ?_ ?_ ?_⟩
  · intro x member
    have resting := (theirs.parkedIs x).mp member
    have notCurrent : x ≠ s.current := by
      rintro rfl
      exact awake resting.2
    -- The last of the caller's queue gets a new link; it rests on that side only.
    have notTail : ownTail ≠ 0 → x ≠ ownTail := by
      rintro some rfl
      have last : x ∈ ownParked := by
        rcases List.eq_nil_or_concat ownParked with rfl | ⟨front,final,rfl⟩
        · exact absurd mine.queue.tail some
        · have final := mine.queue.tail
          rw [List.concat_eq_append,List.getLast?_concat,Option.getD_some] at final
          simp [final]
      have mineToo := ((mine.parkedIs x).mp last).1
      rw [apart _ resting.1] at mineToo
      cases mineToo
    rw [leftWait,wait,pushLink]
    split
    · exact Function.update_of_ne notCurrent _ _
    · rename_i some
      rw [Function.update_of_ne (notTail some),Function.update_of_ne notCurrent]
  · rw [Function.update_self]; exact served
  · intro x different
    rw [Function.update_of_ne different]
  · intro x different _
    rw [blocked,current,Blocked,state,Blocked]
    simp [different]
end Sides

def restsReading : Control → Bool
  | .reading _ _ _ resting => resting
  | _ => false

def restsWriting : Control → Bool
  | .writing _ _ _ resting => resting
  | _ => false

theorem reading_apart (reading : restsReading c = true) : restsWriting c = false := by
  cases c <;> first | rfl | cases reading

-- A task rests only in the loop that made it wait: with bytes still to write, or with
-- nothing read yet.
def RestFits : Control → Prop
  | .writing _ data i resting => resting = true → i < data.length
  | .reading _ max out resting => resting = true → out = [] ∧ 0 < max
  | .idle => True

-- A parked reader is owed one woken reader for every byte in the pipe, a parked writer
-- one woken writer for every free place.
structure Wakeups (w : World) (readers wokenReaders writers wokenWriters : List Nat) : Prop where
  reading : Side w.sched w.control restsReading w.pipe.readersHead w.pipe.readersTail readers wokenReaders
  writing : Side w.sched w.control restsWriting w.pipe.writersHead w.pipe.writersTail writers wokenWriters
  enoughReaders : readers ≠ [] → w.pipe.count ≤ wokenReaders.length
  enoughWriters : writers ≠ [] → pipeCapacity-w.pipe.count ≤ wokenWriters.length
  fits : ∀ t,RestFits (w.control t)
  callers : ∀ t,w.control t ≠ .idle → t ≠ 0 ∧ t ≠ w.sched.taskRing

def Kept (w : World) : Prop :=
  ∃ readers wokenReaders writers wokenWriters,Wakeups w readers wokenReaders writers wokenWriters

theorem kept_start (started : Started w) : Kept w := by
  obtain ⟨pipe,idle,_⟩ := started
  have side : ∀ rests : Control → Bool,rests .idle = false → Side w.sched w.control rests 0 0 [] [] := by
    intro rests none
    refine ⟨queue_empty _,?_,?_,List.nodup_nil⟩
    · intro t; simp [idle t,none]
    · intro t; simp [idle t,none]
  refine ⟨[],[],[],[],?_,?_,by simp,by simp,?_,?_⟩
  · rw [pipe]; exact side _ rfl
  · rw [pipe]; exact side _ rfl
  · intro t; rw [idle t]; trivial
  · intro t busy; exact absurd (idle t) busy

theorem erase_length (t : Nat) (woken : List Nat) : woken.length ≤ (woken.erase t).length+1 := by
  rw [List.length_erase]
  split <;> omega

theorem executing_awake (executing : Executing w) : ¬ Blocked w.sched w.sched.current := by
  intro blocked
  rw [Blocked,executing] at blocked
  cases blocked

section Step
variable {readers wokenReaders writers wokenWriters : List Nat}

theorem erase_foreign (side : Side s control rests head tail parked woken) (foreign : rests (control t) = false) :
    woken.erase t = woken := by
  apply List.erase_of_not_mem
  intro member
  have resting := ((side.wokenIs t).mp member).1
  rw [foreign] at resting
  cases resting

theorem fits_update {call : Control} (kept : Wakeups w readers wokenReaders writers wokenWriters) (fits : RestFits call)
    (t : Nat) : RestFits (Function.update w.control w.sched.current call t) := by
  by_cases equal : t = w.sched.current
  · rw [equal,Function.update_self]; exact fits
  · rw [Function.update_of_ne equal]; exact kept.fits t

-- Control of the current task changes without a section; whoever rests keeps resting.
theorem kept_control {call : Control} (kept : Wakeups w readers wokenReaders writers wokenWriters)
    (executing : Executing w) (unrested : restsReading (w.control w.sched.current) = false ∧
      restsWriting (w.control w.sched.current) = false)
    (reading : restsReading call = false) (writing : restsWriting call = false) (fits : RestFits call)
    (caller : call ≠ .idle → w.sched.current ≠ 0 ∧ w.sched.current ≠ w.sched.taskRing) (calls : Nat)
    (returned : List Answer) : Kept {setControl w call with calls:=calls,returned:=returned} := by
  have awake := executing_awake executing
  have others : ∀ rests : Control → Bool,∀ x,x ≠ w.sched.current →
      rests (Function.update w.control w.sched.current call x) = rests (w.control x) := by
    intro rests x different
    rw [Function.update_of_ne different]
  have readingSide := @side_retest _ w.sched _ (Function.update w.control w.sched.current call) _ _ _ _ _ _ kept.reading
    awake (fun _ _ => rfl) (by rw [Function.update_self]; exact reading) (others _) (fun _ _ _ => Iff.rfl)
  have writingSide := @side_retest _ w.sched _ (Function.update w.control w.sched.current call) _ _ _ _ _ _ kept.writing
    awake (fun _ _ => rfl) (by rw [Function.update_self]; exact writing) (others _) (fun _ _ _ => Iff.rfl)
  rw [erase_foreign kept.reading unrested.1] at readingSide
  rw [erase_foreign kept.writing unrested.2] at writingSide
  refine ⟨readers,wokenReaders,writers,wokenWriters,readingSide,writingSide,kept.enoughReaders,kept.enoughWriters,
    fits_update kept fits,?_⟩
  · intro t
    change Function.update w.control w.sched.current call t ≠ .idle → _
    by_cases equal : t = w.sched.current
    · rw [equal,Function.update_self]; exact caller
    · rw [Function.update_of_ne equal]; exact kept.callers t

theorem wakeOne_ring (s : Sched) (head tail : Nat) : (wakeOne s head tail).1.taskRing = s.taskRing := by
  by_cases zero : head = 0
  · rw [wakeOne,if_pos zero]
  · exact (wakeOne_parts s head tail zero).2.2.2.1

theorem park_ring (s : Sched) (head tail t : Nat) : (leave (enqueue s head tail t).1).taskRing = s.taskRing := by
  have kept := (enqueue_parts s head tail t).2.2.2.1
  unfold leave
  split <;> exact kept

theorem callers_update {call : Control} (kept : Wakeups w readers wokenReaders writers wokenWriters)
    (busy : w.control w.sched.current ≠ .idle) (t : Nat)
    (calling : Function.update w.control w.sched.current call t ≠ .idle) : t ≠ 0 ∧ t ≠ w.sched.taskRing := by
  by_cases equal : t = w.sched.current
  · rw [equal]; exact kept.callers _ busy
  · rw [Function.update_of_ne equal] at calling; exact kept.callers t calling

theorem kept_write (kept : Wakeups w readers wokenReaders writers wokenWriters) (executing : Executing w)
    (here : w.control w.sched.current = .writing call data i resting) : Kept (writeStep w call data i) := by
  have awake := executing_awake executing
  have busy : w.control w.sched.current ≠ .idle := by rw [here]; exact nofun
  obtain ⟨nonzero,created⟩ := kept.callers _ busy
  have foreign : restsReading (w.control w.sched.current) = false := by rw [here]; rfl
  unfold writeStep
  split
  · rename_i more
    unfold writeSection
    by_cases room : w.pipe.count < pipeCapacity
    · obtain ⟨mine,theirs⟩ := @sides_move _ _ _ _ _ _ _ _ _ _ _ _ (.writing call data (i+1) false) (fun _ => reading_apart) kept.writing
        kept.reading awake foreign rfl rfl
      simp only [room,if_true]
      refine ⟨_,_,_,_,theirs,mine,?_,?_,fits_update kept nofun,?_⟩
      · intro some
        have enough := kept.enoughReaders
        cases readers with
        | nil => exact absurd rfl some
        | cons first readers =>
          have owed := enough (List.cons_ne_nil _ _)
          simp only [putByte,List.head?_cons,Option.toList_some,List.length_append,List.length_singleton]
          omega
      · intro some
        have owed := kept.enoughWriters some
        have lost := erase_length w.sched.current wokenWriters
        simp only [putByte]
        omega
      · rw [wakeOne_ring]; exact callers_update kept busy
    · obtain ⟨mine,theirs⟩ := @sides_park _ _ _ _ _ _ _ _ _ _ _ _ (.writing call data i true) (fun _ => reading_apart) kept.writing
        kept.reading awake nonzero created rfl
      rw [erase_foreign kept.reading foreign] at theirs
      simp only [room,if_false]
      refine ⟨_,_,_,_,theirs,mine,kept.enoughReaders,?_,fits_update kept (fun _ => more),?_⟩
      · intro _
        simp only
        omega
      · rw [park_ring]; exact callers_update kept busy
  · rename_i done
    have fits := kept.fits w.sched.current
    rw [here] at fits
    have unrested : restsWriting (w.control w.sched.current) = false := by
      rw [here]
      cases resting with
      | false => rfl
      | true => exact absurd (fits rfl) done
    exact @kept_control _ _ _ _ _ .idle kept executing ⟨foreign,unrested⟩ rfl rfl trivial (absurd rfl) _ _

theorem writing_apart (writing : restsWriting c = true) : restsReading c = false := by
  cases c <;> first | rfl | cases writing

theorem kept_read {max : Nat} (kept : Wakeups w readers wokenReaders writers wokenWriters) (executing : Executing w)
    (here : w.control w.sched.current = .reading call max out resting) : Kept (readStep w call max out) := by
  have awake := executing_awake executing
  have busy : w.control w.sched.current ≠ .idle := by rw [here]; exact nofun
  obtain ⟨nonzero,created⟩ := kept.callers _ busy
  have foreign : restsWriting (w.control w.sched.current) = false := by rw [here]; rfl
  have fits := kept.fits w.sched.current
  rw [here] at fits
  unfold readStep
  split
  · rename_i more
    unfold readSection
    by_cases some : 0 < w.pipe.count
    · obtain ⟨mine,theirs⟩ := @sides_move _ _ _ _ _ _ _ _ _ _ _ _ (.reading call max (out++[(takeByte w.pipe).1]) false)
        (fun _ => writing_apart) kept.reading kept.writing awake foreign rfl rfl
      simp only [some,if_true]
      refine ⟨_,_,_,_,mine,theirs,?_,?_,fits_update kept nofun,?_⟩
      · intro parked
        have owed := kept.enoughReaders parked
        have lost := erase_length w.sched.current wokenReaders
        simp only [takeByte]
        omega
      · intro parked
        have enough := kept.enoughWriters
        cases writers with
        | nil => exact absurd rfl parked
        | cons first writers =>
          have owed := enough (List.cons_ne_nil _ _)
          simp only [takeByte,List.head?_cons,Option.toList_some,List.length_append,List.length_singleton]
          omega
      · rw [wakeOne_ring]; exact callers_update kept busy
    · simp only [some,if_false]
      by_cases got : 0 < out.length
      · simp only [got,if_true]
        have unrested : restsReading (w.control w.sched.current) = false := by
          rw [here]
          cases resting with
          | false => rfl
          | true => rw [(fits rfl).1] at got; exact absurd got (Nat.lt_irrefl 0)
        exact @kept_control _ _ _ _ _ .idle kept executing ⟨unrested,foreign⟩ rfl rfl trivial (absurd rfl) _ _
      · obtain ⟨mine,theirs⟩ := @sides_park _ _ _ _ _ _ _ _ _ _ _ _ (.reading call max out true) (fun _ => writing_apart) kept.reading
          kept.writing awake nonzero created rfl
        rw [erase_foreign kept.writing foreign] at theirs
        simp only [got,if_false]
        have empty : out = [] := List.length_eq_zero_iff.mp (by omega)
        refine ⟨_,_,_,_,mine,theirs,?_,kept.enoughWriters,fits_update kept (fun _ => ⟨empty,by omega⟩),?_⟩
        · intro _
          simp only
          omega
        · rw [park_ring]; exact callers_update kept busy
  · rename_i full
    have unrested : restsReading (w.control w.sched.current) = false := by
      rw [here]
      cases resting with
      | false => rfl
      | true =>
        obtain ⟨empty,positive⟩ := fits rfl
        rw [empty] at full
        exact absurd positive full
    exact @kept_control _ _ _ _ _ .idle kept executing ⟨unrested,foreign⟩ rfl rfl trivial (absurd rfl) _ _

-- Any task but task 0, which spins where others block.
def created (s : Sched) (t : Nat) : Prop := t ≠ 0 ∧ t ≠ s.taskRing

theorem kept_dispatch (kept : Wakeups w readers wokenReaders writers wokenWriters)
    (ready : (w.sched.tasks t).state = .ready) : Kept {w with sched:=switchTo w.sched t} := by
  obtain ⟨wait,blocked,ring⟩ := switchTo_blocked w.sched ready
  have moved : ∀ {rests : Control → Bool} {head tail parked woken},Side w.sched w.control rests head tail parked woken →
      Side (switchTo w.sched t) w.control rests head tail parked woken := by
    intro rests head tail parked woken side
    refine ⟨by rw [wait]; exact side.queue,?_,?_,side.distinct⟩
    · intro x; rw [blocked]; exact side.parkedIs x
    · intro x; rw [blocked]; exact side.wokenIs x
  refine ⟨_,_,_,_,moved kept.reading,moved kept.writing,kept.enoughReaders,kept.enoughWriters,kept.fits,?_⟩
  rw [ring]
  exact kept.callers

theorem kept_step (kept : Kept w) (allowed : Allowed created w label) : Kept (apply w label) := by
  obtain ⟨readers,wokenReaders,writers,wokenWriters,kept⟩ := kept
  cases label with
  | dispatch t => exact kept_dispatch kept allowed
  | pipeWrite data =>
    obtain ⟨executing,idle,caller,_⟩ := allowed
    exact @kept_control _ _ _ _ _ (.writing w.calls data 0 false) kept executing (by rw [idle]; exact ⟨rfl,rfl⟩) rfl rfl nofun (fun _ => caller) _ _
  | pipeRead max =>
    obtain ⟨executing,idle,caller,_⟩ := allowed
    exact @kept_control _ _ _ _ _ (.reading w.calls max [] false) kept executing (by rw [idle]; exact ⟨rfl,rfl⟩) rfl rfl nofun (fun _ => caller) _ _
  | proceed =>
    obtain ⟨executing,busy⟩ := allowed
    unfold apply
    dsimp only
    split
    · exact ⟨_,_,_,_,kept⟩
    · rename_i call data i resting here; exact kept_write kept executing here
    · rename_i call max out resting here; exact kept_read kept executing here
end Step

theorem runs_kept (path : Reached (traffic created) w) : Kept w := by
  apply path.invariant
  · exact fun _ => kept_start
  · rintro w label next kept ⟨allowed,rfl⟩
    exact kept_step kept allowed

-- A task waiting in a call is parked while it is blocked, and woken from then until it
-- tests the pipe again.
def Parked (rests : Control → Bool) (w : World) (t : Nat) : Prop := rests (w.control t) = true ∧ Blocked w.sched t
def Woken (rests : Control → Bool) (w : World) (t : Nat) : Prop := rests (w.control t) = true ∧ ¬ Blocked w.sched t

def AtLeast (n : Nat) (holds : Nat → Prop) : Prop := ∃ list : List Nat,list.Nodup ∧ n ≤ list.length ∧ ∀ t ∈ list,holds t

theorem no_lost_wakeup (path : Reached (traffic created) w) :
    (∃ readers,Queue (waitOf w.sched) w.pipe.readersHead w.pipe.readersTail readers ∧
      ∀ t,t ∈ readers ↔ Parked restsReading w t) ∧
    (∃ writers,Queue (waitOf w.sched) w.pipe.writersHead w.pipe.writersTail writers ∧
      ∀ t,t ∈ writers ↔ Parked restsWriting w t) ∧
    (∀ t,Parked restsReading w t → AtLeast w.pipe.count (Woken restsReading w)) ∧
    (∀ t,Parked restsWriting w t → AtLeast (pipeCapacity-w.pipe.count) (Woken restsWriting w)) ∧
    (∀ r t,Parked restsReading w r → Parked restsWriting w t →
      ∃ u,Woken restsReading w u ∨ Woken restsWriting w u) := by
  obtain ⟨readers,wokenReaders,writers,wokenWriters,kept⟩ := runs_kept path
  have owedReaders : ∀ t,Parked restsReading w t → AtLeast w.pipe.count (Woken restsReading w) := by
    intro t parked
    have some : readers ≠ [] := List.ne_nil_of_mem ((kept.reading.parkedIs t).mpr parked)
    exact ⟨wokenReaders,kept.reading.distinct,kept.enoughReaders some,fun u => (kept.reading.wokenIs u).mp⟩
  have owedWriters : ∀ t,Parked restsWriting w t → AtLeast (pipeCapacity-w.pipe.count) (Woken restsWriting w) := by
    intro t parked
    have some : writers ≠ [] := List.ne_nil_of_mem ((kept.writing.parkedIs t).mpr parked)
    exact ⟨wokenWriters,kept.writing.distinct,kept.enoughWriters some,fun u => (kept.writing.wokenIs u).mp⟩
  refine ⟨⟨readers,kept.reading.queue,kept.reading.parkedIs⟩,⟨writers,kept.writing.queue,kept.writing.parkedIs⟩,
    owedReaders,owedWriters,?_⟩
  intro r t reader writer
  obtain ⟨first,_,firstEnough,firstWoken⟩ := owedReaders r reader
  obtain ⟨second,_,secondEnough,secondWoken⟩ := owedWriters t writer
  cases first with
  | cons u _ => exact ⟨u,.inl (firstWoken u (List.mem_cons_self ..))⟩
  | nil =>
    cases second with
    | cons u _ => exact ⟨u,.inr (secondWoken u (List.mem_cons_self ..))⟩
    | nil =>
      simp only [pipeCapacity,List.length_nil] at firstEnough secondEnough
      omega

-- Tasks 1 and 3 wait for a byte, task 2 writes one: task 1 is awake, task 3 is not.
def waiting : List Label :=
  [.pipeRead 4,.proceed,.dispatch 3,.pipeRead 4,.proceed,.dispatch 2,.pipeWrite [5#8],.proceed]
def waited : World := waiting.foldl apply PipeStream.quiet

theorem waited_reached : Reached (traffic created) waited := by
  refine @reached_by _ _ _ _ _ PipeStream.quiet waiting ⟨rfl,fun _ => rfl,rfl,rfl,rfl,rfl⟩ ?_
  exact ⟨⟨rfl,rfl,⟨by decide,by decide⟩,by decide⟩,⟨rfl,nofun⟩,rfl,⟨rfl,rfl,⟨by decide,by decide⟩,by decide⟩,⟨rfl,nofun⟩,rfl,
    ⟨rfl,rfl,⟨by decide,by decide⟩,by decide⟩,⟨rfl,nofun⟩,trivial⟩

theorem no_lost_wakeup_small : waited.pipe.count = 1 ∧ Parked restsReading waited 3 ∧
    AtLeast 1 (Woken restsReading waited) := by
  have parked : Parked restsReading waited 3 := ⟨rfl,rfl⟩
  exact ⟨rfl,parked,(no_lost_wakeup waited_reached).2.2.1 3 parked⟩

end Arthic.PipeWakeups
