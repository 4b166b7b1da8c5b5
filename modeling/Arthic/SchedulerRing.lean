import Arthic.Library.Linked
import Arthic.KheapRuns
import Arthic.Scheduler

namespace Arthic.SchedulerRing
open Scheduler Linked KheapInvariant Transition Unsigned
variable {s : Sched} {ring others : List Nat}

def nextOf (s : Sched) (t : Nat) : Nat := (s.tasks t).next
def serialOf (s : Sched) (t : Nat) : Nat := (s.tasks t).serial
def reapedSerials (s : Sched) : List Nat := s.reaped.map fun r => r.record.serial

-- What holds at every moment, also while the current task has stopped running and the
-- switch has not happened yet. The heap's live blocks are the tasks and what other code
-- holds; the serials of the tasks on the ring and of those reaped are all there are.
structure Ring (s : Sched) (ring others : List Nat) : Prop where
  enabled : s.enabled = true
  path : Path (nextOf s) s.taskRing ring s.taskRing
  some : ring ≠ []
  current : s.current ∈ ring
  single : ∀ t ∈ ring,(s.tasks t).state = .running → t = s.current
  idle : (s.tasks s.taskRing).state = .ready ∨ (s.tasks s.taskRing).state = .running
  own : s.current = s.taskRing → (s.tasks s.taskRing).state = .running
  root : (s.tasks s.taskRing).id = 0
  heap : ∃ blocks,Held .i386 s.heap blocks (ring++others)
  accounts : (ring.map (serialOf s)++reapedSerials s).Perm (List.range s.births)
  reaps : ∀ r ∈ s.reaped,r.record.state = .finished ∧ r.task ≠ r.current ∧ r.task ≠ r.ring

def Running (s : Sched) : Prop := (s.tasks s.current).state = .running

theorem Ring.distinct (valid : Ring s ring others) : ring.Nodup := by
  obtain ⟨_,held⟩ := valid.heap
  exact (List.nodup_append.mp held.distinct).1

theorem Ring.first (valid : Ring s ring others) : s.taskRing ∈ ring := by
  cases ring with
  | nil => exact absurd rfl valid.some
  | cons t ring =>
    rw [valid.path.1]
    exact List.mem_cons_self ..

theorem live_nonzero {h : Kheap.Heap} (held : Held t h blocks live) (member : ptr ∈ live) : ptr ≠ 0 := by
  have bounds := payload_bounds ((held.owned ptr).mp member)
  have started := held.started
  omega

theorem held_perm {h : Kheap.Heap} (held : Held t h blocks live) (perm : live.Perm after) : Held t h blocks after :=
  {held with
    owned:=fun ptr => (perm.mem_iff.symm).trans (held.owned ptr)
    distinct:=perm.nodup_iff.mp held.distinct}

theorem Ring.nonzero (valid : Ring s ring others) (member : t ∈ ring) : t ≠ 0 := by
  obtain ⟨_,held⟩ := valid.heap
  exact live_nonzero held (List.mem_append_left _ member)

-- The invariant looks at the ring's links, states, ids and serials only.
theorem ring_same {after : Sched} (valid : Ring s ring others) (next : nextOf after = nextOf s)
    (state : ∀ t,(after.tasks t).state = (s.tasks t).state) (id : ∀ t,(after.tasks t).id = (s.tasks t).id)
    (serial : serialOf after = serialOf s)
    (rest : (after.current,after.taskRing,after.enabled,after.births) = (s.current,s.taskRing,s.enabled,s.births))
    (heap : after.heap = s.heap) (reaped : after.reaped = s.reaped) : Ring after ring others := by
  simp only [Prod.mk.injEq] at rest
  obtain ⟨current,taskRing,enabled,births⟩ := rest
  refine ⟨?_,?_,valid.some,?_,?_,?_,?_,?_,?_,?_,?_⟩
  · rw [enabled]; exact valid.enabled
  · rw [next,taskRing]; exact valid.path
  · rw [current]; exact valid.current
  · intro t member; rw [state,current]; exact valid.single t member
  · rw [taskRing,state]; exact valid.idle
  · rw [current,taskRing,state]; exact valid.own
  · rw [taskRing,id]; exact valid.root
  · rw [heap]; exact valid.heap
  · rw [serial,births,reapedSerials,reaped]; exact valid.accounts
  · rw [reaped]; exact valid.reaps

-- A change of one record that leaves its links and names alone.
theorem ring_setTask (valid : Ring s ring others) (next : record.next = (s.tasks t).next)
    (id : record.id = (s.tasks t).id) (serial : record.serial = (s.tasks t).serial)
    (only : record.state = .running → t = s.current)
    (root : t = s.taskRing → record.state = .ready ∨ record.state = .running)
    (own : t = s.taskRing → s.current = s.taskRing → record.state = .running) :
    Ring (setTask s t record) ring others := by
  have nextSame : nextOf (setTask s t record) = nextOf s := by
    funext x
    by_cases equal : x = t
    · subst equal; simp [nextOf,setTask,next]
    · simp [nextOf,setTask,equal]
  have serialSame : serialOf (setTask s t record) = serialOf s := by
    funext x
    by_cases equal : x = t
    · subst equal; simp [serialOf,setTask,serial]
    · simp [serialOf,setTask,equal]
  have here : (setTask s t record).tasks t = record := by simp [setTask]
  have there : ∀ x,x ≠ t → (setTask s t record).tasks x = s.tasks x := fun x different => by simp [setTask,different]
  refine ⟨valid.enabled,?_,valid.some,valid.current,?_,?_,?_,?_,valid.heap,?_,valid.reaps⟩
  · rw [nextSame]; exact valid.path
  · intro x member
    by_cases equal : x = t
    · subst equal; rw [here]; exact only
    · rw [there x equal]; exact valid.single x member
  · change ((setTask s t record).tasks s.taskRing).state = _ ∨ ((setTask s t record).tasks s.taskRing).state = _
    by_cases equal : s.taskRing = t
    · rw [equal,here]; exact root equal.symm
    · rw [there _ equal]; exact valid.idle
  · intro same
    change ((setTask s t record).tasks s.taskRing).state = _
    by_cases equal : s.taskRing = t
    · rw [equal,here]; exact own equal.symm same
    · rw [there _ equal]; exact valid.own same
  · change ((setTask s t record).tasks s.taskRing).id = 0
    by_cases equal : s.taskRing = t
    · rw [equal,here,id,←equal]; exact valid.root
    · rw [there _ equal]; exact valid.root
  · rw [serialSame]; exact valid.accounts

theorem ring_setState (valid : Ring s ring others) (only : state = .running → t = s.current)
    (root : t = s.taskRing → state = .ready ∨ state = .running)
    (own : t = s.taskRing → s.current = s.taskRing → state = .running) : Ring (setState s t state) ring others :=
  ring_setTask valid rfl rfl rfl only root own

-- Task 0 is in neither of these states, so such a task may become ready.
theorem ring_woken (valid : Ring s ring others)
    (was : (s.tasks t).state = .sleeping ∨ (s.tasks t).state = .blocked) : Ring (setState s t .ready) ring others := by
  refine ring_setState valid nofun (fun _ => .inl rfl) ?_
  rintro rfl _
  rcases valid.idle with idle | idle <;> rw [idle] at was <;> rcases was with was | was <;> cases was

theorem ring_wakeFrom (valid : Ring s ring others) (rounds t : Nat) : Ring (wakeFrom s rounds t) ring others := by
  induction rounds generalizing s t with
  | zero =>
    unfold wakeFrom
    split
    · rename_i due; exact ring_woken valid (.inl due.1)
    · exact valid
  | succ rounds ih =>
    unfold wakeFrom
    dsimp only
    split
    · rename_i due
      have woken := ring_woken valid (.inl due.1)
      split
      · exact woken
      · exact ih woken _
    · split
      · exact valid
      · exact ih valid _

theorem flush_same (s : Sched) (x : Nat) :
    nextOf (taskFlushOutput s x) = nextOf s ∧ serialOf (taskFlushOutput s x) = serialOf s ∧
    (∀ t,((taskFlushOutput s x).tasks t).state = (s.tasks t).state) ∧
    (∀ t,((taskFlushOutput s x).tasks t).id = (s.tasks t).id) ∧
    (taskFlushOutput s x).current = s.current ∧ (taskFlushOutput s x).taskRing = s.taskRing ∧
    (taskFlushOutput s x).enabled = s.enabled ∧ (taskFlushOutput s x).births = s.births ∧
    (taskFlushOutput s x).heap = s.heap ∧ (taskFlushOutput s x).reaped = s.reaped := by
  unfold taskFlushOutput
  split
  · exact ⟨rfl,rfl,fun _ => rfl,fun _ => rfl,rfl,rfl,rfl,rfl,rfl,rfl⟩
  · refine ⟨?_,?_,?_,?_,rfl,rfl,rfl,rfl,rfl,rfl⟩
    · funext t; by_cases equal : t = x <;> simp [nextOf,setTask,equal,Function.update]
    · funext t; by_cases equal : t = x <;> simp [serialOf,setTask,equal,Function.update]
    · intro t; by_cases equal : t = x <;> simp [setTask,equal,Function.update]
    · intro t; by_cases equal : t = x <;> simp [setTask,equal,Function.update]

theorem ring_flush (valid : Ring s ring others) (x : Nat) : Ring (taskFlushOutput s x) ring others := by
  obtain ⟨next,serial,state,id,current,taskRing,enabled,births,heap,reaped⟩ := flush_same s x
  exact ring_same valid next state id serial (by rw [current,taskRing,enabled,births]) heap reaped

theorem setNext_same (s : Sched) (x value : Nat) :
    nextOf (setNext s x value) = Function.update (nextOf s) x value ∧ serialOf (setNext s x value) = serialOf s ∧
    (∀ t,((setNext s x value).tasks t).state = (s.tasks t).state) ∧
    (∀ t,((setNext s x value).tasks t).id = (s.tasks t).id) := by
  refine ⟨?_,?_,?_,?_⟩
  · funext t; by_cases equal : t = x <;> simp [nextOf,setNext,setTask,equal,Function.update]
  · funext t; by_cases equal : t = x <;> simp [serialOf,setNext,setTask,equal,Function.update]
  · intro t; by_cases equal : t = x <;> simp [setNext,setTask,equal,Function.update]
  · intro t; by_cases equal : t = x <;> simp [setNext,setTask,equal,Function.update]

theorem reap_parts (s : Sched) (prev dead : Nat) :
    nextOf (reap s prev dead) = Function.update (nextOf s) prev (nextOf s dead) ∧
    serialOf (reap s prev dead) = serialOf s ∧
    (∀ t,((reap s prev dead).tasks t).state = (s.tasks t).state) ∧
    (∀ t,((reap s prev dead).tasks t).id = (s.tasks t).id) ∧
    (reap s prev dead).current = s.current ∧ (reap s prev dead).taskRing = s.taskRing ∧
    (reap s prev dead).enabled = s.enabled ∧ (reap s prev dead).births = s.births ∧
    (reap s prev dead).heap = (Kheap.kfree .i386 s.heap dead).2 ∧
    ∃ record,(reap s prev dead).reaped = s.reaped++[⟨dead,record,s.current,s.taskRing⟩] ∧
      record.state = (s.tasks dead).state ∧ record.serial = serialOf s dead := by
  obtain ⟨next,serial,state,id⟩ := setNext_same s prev (nextOf s dead)
  obtain ⟨flushNext,flushSerial,flushState,flushId,current,taskRing,enabled,births,heap,reaped⟩ :=
    flush_same (setNext s prev (nextOf s dead)) dead
  unfold reap
  dsimp only
  change nextOf (setNext s prev (nextOf s dead)) = _ at next
  split
  all_goals
    refine ⟨flushNext.trans next,flushSerial.trans serial,fun t => (flushState t).trans (state t),
      fun t => (flushId t).trans (id t),current,taskRing,enabled,births,congrArg (fun h => (Kheap.kfree _ h _).2) heap,
      _,?_,(flushState dead).trans (state dead),congrFun (flushSerial.trans serial) dead⟩
    change (taskFlushOutput (setNext s prev (nextOf s dead)) dead).reaped++[⟨dead,_,
      (taskFlushOutput (setNext s prev (nextOf s dead)) dead).current,
      (taskFlushOutput (setNext s prev (nextOf s dead)) dead).taskRing⟩] = _
    rw [reaped,current,taskRing]
    rfl

theorem scan_state (s : Sched) (guard scan t : Nat) :
    ((scanFrom s guard scan).1.tasks t).state = (s.tasks t).state ∧ (scanFrom s guard scan).1.taskRing = s.taskRing := by
  induction guard generalizing s scan with
  | zero => exact ⟨rfl,rfl⟩
  | succ guard ih =>
    unfold scanFrom
    dsimp only
    split
    · exact ⟨rfl,rfl⟩
    · split
      · obtain ⟨_,_,state,_,_,ring,_⟩ := reap_parts s scan (s.tasks scan).next
        obtain ⟨later,same⟩ := ih (reap s scan (s.tasks scan).next) scan
        exact ⟨later.trans (state t),same.trans ring⟩
      · exact ⟨rfl,rfl⟩
      · exact ih _ _

theorem ring_neighbour (valid : Ring s ring others) (member : t ∈ ring) :
    nextOf s t = s.taskRing ∨ ∃ front back,ring = front++t::nextOf s t::back := by
  obtain ⟨front,back,rfl⟩ := List.append_of_mem member
  cases back with
  | nil => exact .inl (path_snoc.mp valid.path).2
  | cons behind back =>
    refine .inr ⟨front,back,?_⟩
    rw [path_next valid.path]

theorem ring_next (valid : Ring s ring others) (member : t ∈ ring) : nextOf s t ∈ ring := by
  rcases ring_neighbour valid member with last | ⟨front,back,rfl⟩
  · rw [last]; exact valid.first
  · exact List.mem_append_right _ (List.mem_cons_of_mem _ (List.mem_cons_self ..))

theorem ring_reap (valid : Ring s ring others) (member : scan ∈ ring)
    (dead : (s.tasks (nextOf s scan)).state = .finished) (other : nextOf s scan ≠ s.current) :
    ∃ after,Ring (reap s scan (nextOf s scan)) after others ∧ scan ∈ after ∧ ring.Perm (nextOf s scan::after) := by
  -- The list starts at task 0, which is never finished, so the corpse has a predecessor in it.
  have notRoot : nextOf s scan ≠ s.taskRing := by
    intro root
    rw [root] at dead
    rcases valid.idle with idle | idle <;> rw [dead] at idle <;> cases idle
  rcases ring_neighbour valid member with root | ⟨front,back,shape⟩
  · exact absurd root notRoot
  · generalize gone : nextOf s scan = corpse at *
    subst shape
    have distinct := valid.distinct
    simp only [List.nodup_append,List.nodup_cons,List.mem_cons,not_or] at distinct
    obtain ⟨_,⟨⟨scanGone,scanBack⟩,⟨goneBack,_⟩⟩,apart⟩ := distinct
    have scanFront : scan ∉ front := fun earlier => apart scan earlier scan (.inl rfl) rfl
    obtain ⟨next,serial,state,id,current,taskRing,enabled,births,heap,record,reaped,recordState,recordSerial⟩ :=
      reap_parts s scan corpse
    have kept : ∀ t,t ∈ front++scan::corpse::back → t ≠ corpse → t ∈ front++scan::back := by
      intro t
      simp only [List.mem_append,List.mem_cons]
      tauto
    refine ⟨front++scan::back,⟨?_,?_,by simp,?_,?_,?_,?_,?_,?_,?_,?_⟩,by simp,?_⟩
    · rw [enabled]; exact valid.enabled
    · rw [next,taskRing]; exact path_unlink valid.path scanFront scanBack
    · rw [current]; exact kept _ valid.current other.symm
    · intro t here
      rw [state,current]
      refine valid.single t ?_
      simp only [List.mem_append,List.mem_cons] at here ⊢
      tauto
    · rw [taskRing,state]; exact valid.idle
    · rw [taskRing,current,state]; exact valid.own
    · rw [taskRing,id]; exact valid.root
    · rw [heap]
      obtain ⟨blocks,held⟩ := valid.heap
      obtain ⟨_,after,freed⟩ := @held_kfree _ _ _ _ corpse held (by simp)
      refine ⟨after,held_perm freed ?_⟩
      have split : (front++scan::corpse::back++others).Perm (corpse::(front++scan::back++others)) := by
        rw [show front++scan::corpse::back++others = (front++[scan])++corpse::(back++others) by simp,
          show front++scan::back++others = (front++[scan])++(back++others) by simp]
        exact List.perm_middle
      simpa using split.erase corpse
    · rw [serial,births,reapedSerials,reaped,List.map_append]
      refine List.Perm.trans ?_ valid.accounts
      simp only [List.map_append,List.map_cons,List.map_nil,recordSerial,reapedSerials]
      rw [show (front.map (serialOf s)++serialOf s scan::serialOf s corpse::back.map (serialOf s)++
          s.reaped.map fun r => r.record.serial) = (front.map (serialOf s)++[serialOf s scan])++
          serialOf s corpse::(back.map (serialOf s)++s.reaped.map fun r => r.record.serial) by simp]
      refine List.Perm.trans ?_ List.perm_middle.symm
      rw [←List.append_assoc]
      refine List.perm_append_comm.trans ?_
      simp
    · rw [reaped]
      intro r entry
      rcases List.mem_append.mp entry with old | new
      · exact valid.reaps r old
      · cases List.mem_singleton.mp new
        exact ⟨recordState.trans dead,other,notRoot⟩
    · rw [show front++scan::corpse::back = (front++[scan])++corpse::back by simp,
        show front++scan::back = (front++[scan])++back by simp]
      exact List.perm_middle

theorem ring_scan (valid : Ring s ring others) (member : scan ∈ ring) (guard : Nat) :
    ∃ after,Ring (scanFrom s guard scan).1 after others ∧
      ((scanFrom s guard scan).2 ≠ 0 → (scanFrom s guard scan).2 ∈ after ∧
        (scanFrom s guard scan).2 ≠ (scanFrom s guard scan).1.current) := by
  induction guard generalizing s ring scan with
  | zero => exact ⟨ring,valid,fun found => absurd rfl found⟩
  | succ guard ih =>
    unfold scanFrom
    dsimp only
    split
    · exact ⟨ring,valid,fun found => absurd rfl found⟩
    · rename_i other
      split
      · rename_i dead
        obtain ⟨after,reaped,stays,_⟩ := ring_reap valid member dead other
        exact ih reaped stays
      · exact ⟨ring,valid,fun _ => ⟨ring_next valid member,other⟩⟩
      · exact ih valid (ring_next valid member)

theorem setState_same (s : Sched) (x : Nat) (value : TaskState) :
    nextOf (setState s x value) = nextOf s ∧ serialOf (setState s x value) = serialOf s ∧
    (∀ t,((setState s x value).tasks t).state = if t = x then value else (s.tasks t).state) ∧
    (∀ t,((setState s x value).tasks t).id = (s.tasks t).id) := by
  refine ⟨?_,?_,?_,?_⟩
  · funext t; by_cases equal : t = x <;> simp [nextOf,setState,setTask,equal,Function.update]
  · funext t; by_cases equal : t = x <;> simp [serialOf,setState,setTask,equal,Function.update]
  · intro t; by_cases equal : t = x <;> simp [setState,setTask,equal,Function.update]
  · intro t; by_cases equal : t = x <;> simp [setState,setTask,equal,Function.update]

-- switch_to's part of task_schedule on the records, apart from what it tells the hardware.
def exchanged (s : Sched) (next : Nat) : Sched :=
  setState (if (s.tasks s.current).state = .running then setState s s.current .ready else s) next .running

theorem switchTo_parts (s : Sched) (next : Nat) :
    (switchTo s next).tasks = (exchanged s next).tasks ∧ (switchTo s next).current = next ∧
    (switchTo s next).taskRing = s.taskRing ∧ (switchTo s next).enabled = s.enabled ∧
    (switchTo s next).births = s.births ∧ (switchTo s next).heap = s.heap ∧
    (switchTo s next).reaped = s.reaped := by
  unfold switchTo exchanged
  dsimp only
  split <;> split <;> split <;> exact ⟨rfl,rfl,rfl,rfl,rfl,rfl,rfl⟩

theorem exchanged_parts (s : Sched) (next : Nat) :
    nextOf (exchanged s next) = nextOf s ∧ serialOf (exchanged s next) = serialOf s ∧
    (∀ t,((exchanged s next).tasks t).state = if t = next then .running else
      if t = s.current ∧ (s.tasks t).state = .running then .ready else (s.tasks t).state) ∧
    (∀ t,((exchanged s next).tasks t).id = (s.tasks t).id) := by
  unfold exchanged
  split
  · rename_i running
    obtain ⟨next₁,serial₁,state₁,id₁⟩ := setState_same s s.current .ready
    obtain ⟨next₂,serial₂,state₂,id₂⟩ := setState_same (setState s s.current .ready) next .running
    refine ⟨next₂.trans next₁,serial₂.trans serial₁,fun t => ?_,fun t => (id₂ t).trans (id₁ t)⟩
    rw [state₂,state₁]
    by_cases equal : t = s.current
    · subst equal; simp [running]
    · simp [equal]
  · rename_i stopped
    obtain ⟨next₂,serial₂,state₂,id₂⟩ := setState_same s next .running
    refine ⟨next₂,serial₂,fun t => ?_,id₂⟩
    rw [state₂]
    by_cases equal : t = s.current
    · subst equal; simp [stopped]
    · simp [equal]

theorem ring_switchTo (valid : Ring s ring others) (member : next ∈ ring) (other : next ≠ s.current) :
    Ring (switchTo s next) ring others ∧ Running (switchTo s next) := by
  obtain ⟨tasks,current,taskRing,enabled,births,heap,reaped⟩ := switchTo_parts s next
  obtain ⟨links,serial,state,id⟩ := exchanged_parts s next
  have stateNow : ∀ t,((switchTo s next).tasks t).state = if t = next then .running else
      if t = s.current ∧ (s.tasks t).state = .running then .ready else (s.tasks t).state := by
    intro t; rw [tasks]; exact state t
  have linksNow : nextOf (switchTo s next) = nextOf s := by
    rw [←links]; funext t; simp only [nextOf,tasks]
  have serialNow : serialOf (switchTo s next) = serialOf s := by
    rw [←serial]; funext t; simp only [serialOf,tasks]
  refine ⟨⟨?_,?_,valid.some,?_,?_,?_,?_,?_,?_,?_,?_⟩,?_⟩
  · rw [enabled]; exact valid.enabled
  · rw [linksNow,taskRing]; exact valid.path
  · rw [current]; exact member
  · intro t here
    rw [stateNow,current]
    split
    · rename_i equal; exact fun _ => equal
    · split
      · exact nofun
      · rename_i stopped
        exact fun running => absurd ⟨valid.single t here running,running⟩ stopped
  · rw [taskRing,stateNow]
    split
    · exact .inr rfl
    · split
      · exact .inl rfl
      · exact valid.idle
  · rw [current,taskRing]
    rintro rfl
    rw [stateNow,if_pos rfl]
  · rw [taskRing,tasks,id]; exact valid.root
  · rw [heap]; exact valid.heap
  · rw [serialNow,births,reapedSerials,reaped]; exact valid.accounts
  · rw [reaped]; exact valid.reaps
  · rw [Running,current,stateNow,if_pos rfl]

theorem ring_resume (valid : Ring s ring others) (chosen : next ≠ 0 → next ∈ ring ∧ next ≠ s.current) :
    Ring (resume s next) ring others ∧ Running (resume s next) := by
  unfold resume
  split
  · rename_i found
    exact ring_switchTo valid (chosen found).1 (chosen found).2
  · split
    · rename_i running
      exact ⟨valid,running⟩
    · rename_i stopped
      -- Task 0 is made to run without having been found: it never stops itself.
      refine ring_switchTo valid valid.first ?_
      intro same
      apply stopped
      rw [←same]
      exact valid.own same.symm

theorem ring_schedule (valid : Ring s ring others) :
    ∃ after,Ring (taskSchedule s) after others ∧ Running (taskSchedule s) := by
  have woken := ring_wakeFrom valid ringGuard s.taskRing
  obtain ⟨after,scanned,chosen⟩ := ring_scan woken woken.current ringGuard
  unfold taskSchedule
  rw [if_neg (by simp [valid.enabled,valid.nonzero valid.current])]
  exact ⟨after,ring_resume scanned chosen⟩

-- A task that stops itself and gives the processor away, by any of the four routes.
theorem ring_stopped (valid : Ring s ring others) (created : s.current ≠ s.taskRing) (next : record.next = nextOf s s.current)
    (id : record.id = (s.tasks s.current).id) (serial : record.serial = serialOf s s.current)
    (stopped : record.state ≠ .running) : Ring (setTask s s.current record) ring others :=
  ring_setTask valid next id serial (fun running => absurd running stopped) (fun root => absurd root created)
    (fun root => absurd root created)

theorem ring_stop (valid : Ring s ring others) (created : s.current ≠ s.taskRing) (next : record.next = nextOf s s.current)
    (id : record.id = (s.tasks s.current).id) (serial : record.serial = serialOf s s.current)
    (stopped : record.state ≠ .running) :
    ∃ after,Ring (taskSchedule (setTask s s.current record)) after others ∧
      Running (taskSchedule (setTask s s.current record)) :=
  ring_schedule (ring_stopped valid created next id serial stopped)

theorem ring_block (valid : Ring s ring others) :
    ∃ after,Ring (taskBlock s) after others ∧ Running (taskBlock s) := by
  unfold taskBlock leave
  rw [if_neg (by simp [valid.enabled,valid.nonzero valid.current])]
  split
  · exact ring_schedule valid
  · rename_i created
    exact ring_stop valid created rfl rfl rfl nofun

theorem ring_sleep (valid : Ring s ring others) (running : Running s) (ticks : Nat) :
    ∃ after,Ring (taskSleep s ticks) after others ∧ Running (taskSleep s ticks) := by
  unfold taskSleep
  split
  · exact ⟨ring,valid,running⟩
  · rename_i created
    simp only [not_or] at created
    exact ring_stop valid created.2.2 rfl rfl rfl nofun

theorem ring_exit (valid : Ring s ring others) (created : s.current ≠ s.taskRing) :
    ∃ after,Ring (taskExit s) after others ∧ Running (taskExit s) := by
  unfold taskExit
  rw [if_neg (valid.nonzero valid.current)]
  exact ring_stop valid created rfl rfl rfl nofun

theorem ring_terminate (valid : Ring s ring others) (created : s.current ≠ s.taskRing) :
    ∃ after,Ring (taskTerminate s) after others ∧ Running (taskTerminate s) := by
  obtain ⟨_,_,_,_,current,taskRing,_⟩ := flush_same s s.current
  unfold taskTerminate
  rw [if_neg (valid.nonzero valid.current)]
  have stopped := @ring_stop _ _ _ {(taskFlushOutput s s.current).tasks s.current with state:=.finished}
    (ring_flush valid s.current) (by rw [current,taskRing]; exact created) (by rw [current]; rfl) (by rw [current])
    (by rw [current]; rfl) nofun
  rw [current] at stopped
  exact stopped

theorem ring_unblock (valid : Ring s ring others) (running : Running s) (t : Nat) :
    ∃ after,Ring (taskUnblock s t) after others ∧ Running (taskUnblock s t) := by
  unfold taskUnblock
  split
  · rename_i blocked
    refine ⟨ring,ring_woken valid (.inr blocked.2),?_⟩
    have different : s.current ≠ t := by
      rintro rfl
      rw [running] at blocked
      cases blocked.2
    rw [Running,(setState_same s t .ready).2.2.1]
    exact (if_neg different).trans running
  · exact ⟨ring,valid,running⟩

theorem byId_found (s : Sched) (id rounds t : Nat) :
    byIdFrom s id rounds t = 0 ∨ (s.tasks (byIdFrom s id rounds t)).id = id := by
  induction rounds generalizing t with
  | zero =>
    unfold byIdFrom
    split
    · rename_i found; exact .inr found
    · exact .inl rfl
  | succ rounds ih =>
    unfold byIdFrom
    split
    · rename_i found; exact .inr found
    · dsimp only
      split
      · exact .inl rfl
      · exact ih _

-- Task 0 has id 0, and 0 is refused.
theorem victim_created (valid : Ring s ring others) {id : Nat} (named : id ≠ 0) (found : taskById s id ≠ 0) :
    taskById s id ≠ s.taskRing := by
  have idIs := (byId_found s id ringGuard s.taskRing).resolve_left found
  intro root
  change (s.tasks (taskById s id)).id = id at idIs
  rw [root,valid.root] at idIs
  exact named idIs.symm

theorem ring_kill (valid : Ring s ring others) (running : Running s) (id : Nat) :
    ∃ after,Ring (taskKill s id).2 after others ∧ Running (taskKill s id).2 := by
  unfold taskKill
  split
  · exact ⟨ring,valid,running⟩
  · rename_i named
    dsimp only
    split
    · exact ⟨ring,valid,running⟩
    · rename_i found
      split
      · exact ⟨ring,valid,running⟩
      · simp only [not_or] at found
        have created := victim_created valid named found.1
        have killed := @ring_setState _ _ _ .finished (taskById s id) valid nofun (fun root => absurd root created)
          (fun root => absurd root created)
        dsimp only
        split
        · rename_i own
          refine ring_terminate killed ?_
          rw [←own]
          exact created
        · rename_i foreign
          refine ⟨ring,killed,?_⟩
          rw [Running,(setState_same s _ .finished).2.2.1]
          exact (if_neg (Ne.symm foreign)).trans running

theorem create_parts {base : Sched} (different : t ≠ s.current) (tasks : base.tasks = Function.update s.tasks t record)
    (current : base.current = s.current) :
    nextOf (setNext (setNext base t (nextOf base base.current)) base.current t) =
      Function.update (Function.update (nextOf s) t (nextOf s s.current)) s.current t ∧
    (∀ x,serialOf (setNext (setNext base t (nextOf base base.current)) base.current t) x =
      if x = t then record.serial else serialOf s x) ∧
    (∀ x,((setNext (setNext base t (nextOf base base.current)) base.current t).tasks x).state =
      if x = t then record.state else (s.tasks x).state) ∧
    (∀ x,((setNext (setNext base t (nextOf base base.current)) base.current t).tasks x).id =
      if x = t then record.id else (s.tasks x).id) := by
  have links : nextOf base = Function.update (nextOf s) t record.next := by
    funext x
    by_cases equal : x = t <;> simp [nextOf,tasks,equal]
  have other : nextOf base base.current = nextOf s s.current := by
    rw [links,current,Function.update_of_ne different.symm]
  refine ⟨?_,?_,?_,?_⟩
  · rw [(setNext_same _ _ _).1,(setNext_same _ _ _).1,other,current,links,Function.update_idem]
  · intro x
    rw [(setNext_same _ _ _).2.1,(setNext_same _ _ _).2.1]
    by_cases equal : x = t <;> simp [serialOf,tasks,equal]
  · intro x
    rw [(setNext_same _ _ _).2.2.1,(setNext_same _ _ _).2.2.1]
    by_cases equal : x = t <;> simp [tasks,equal]
  · intro x
    rw [(setNext_same _ _ _).2.2.2,(setNext_same _ _ _).2.2.2]
    by_cases equal : x = t <;> simp [tasks,equal]

-- A new task behind the current one, in a block the heap gave out.
theorem ring_splice {fresh : Sched} (valid : Ring s ring others) (running : Running s)
    (held : Held .i386 fresh.heap blocks (t::(ring++others)))
    (links : nextOf fresh = Function.update (Function.update (nextOf s) t (nextOf s s.current)) s.current t)
    (serial : ∀ x,serialOf fresh x = if x = t then s.births else serialOf s x)
    (state : ∀ x,(fresh.tasks x).state = if x = t then .ready else (s.tasks x).state)
    (id : ∀ x,x ≠ t → (fresh.tasks x).id = (s.tasks x).id)
    (rest : (fresh.current,fresh.taskRing,fresh.enabled,fresh.births) = (s.current,s.taskRing,s.enabled,s.births+1))
    (reaped : fresh.reaped = s.reaped) : ∃ after,Ring fresh after others ∧ Running fresh ∧ after.Perm (t::ring) := by
  simp only [Prod.mk.injEq] at rest
  obtain ⟨current,taskRing,enabled,births⟩ := rest
  obtain ⟨front,back,rfl⟩ := List.append_of_mem valid.current
  have outside : t ∉ front++s.current::back := fun member =>
    (List.nodup_cons.mp held.distinct).1 (List.mem_append_left _ member)
  have elsewhere : ∀ x ∈ front++s.current::back,x ≠ t := by
    rintro x member rfl
    exact outside member
  have distinct := valid.distinct
  simp only [List.nodup_append,List.nodup_cons,List.mem_cons] at distinct
  obtain ⟨_,⟨currentBack,_⟩,apart⟩ := distinct
  have currentFront : s.current ∉ front := fun earlier => apart _ earlier _ (.inl rfl) rfl
  have root : s.taskRing ≠ t := elsewhere _ valid.first
  have split : ∀ (f : Nat → Nat) (tail : List Nat),((front++s.current::t::back).map f++tail).Perm
      (f t::((front++s.current::back).map f++tail)) := by
    intro f tail
    rw [show (front++s.current::t::back).map f++tail = (front.map f++[f s.current])++f t::(back.map f++tail) by simp,
      show (front++s.current::back).map f++tail = (front.map f++[f s.current])++(back.map f++tail) by simp]
    exact List.perm_middle
  refine ⟨front++s.current::t::back,⟨?_,?_,by simp,?_,?_,?_,?_,?_,?_,?_,?_⟩,?_,?_⟩
  · rw [enabled]; exact valid.enabled
  · rw [links,taskRing]; exact path_splice valid.path currentFront currentBack outside
  · rw [current]; simp
  · intro x member
    rw [state,current]
    split
    · exact nofun
    · rename_i different
      refine valid.single x ?_
      simp only [List.mem_append,List.mem_cons] at member ⊢
      tauto
  · rw [taskRing,state,if_neg root]; exact valid.idle
  · rw [taskRing,current,state,if_neg root]; exact valid.own
  · rw [taskRing,id _ root]; exact valid.root
  · refine ⟨blocks,held_perm held ?_⟩
    have perm := split (fun x => x) others
    simpa using perm.symm
  · have unchanged : (front++s.current::back).map (serialOf fresh) = (front++s.current::back).map (serialOf s) := by
      apply List.map_congr_left
      intro x member
      rw [serial,if_neg (elsewhere x member)]
    refine (split (serialOf fresh) _).trans ?_
    rw [unchanged,serial,if_pos rfl,births,List.range_succ,reapedSerials,reaped]
    exact ((List.Perm.cons _ valid.accounts).trans (List.perm_append_singleton _ _).symm)
  · rw [reaped]; exact valid.reaps
  · rw [Running,current,state,if_neg (elsewhere _ valid.current)]
    exact running
  · have perm := split (fun x => x) []
    simpa using perm

-- task_create_ex once it has its record and its stack.
def joined (s : Sched) (t : Nat) (heap : Kheap.Heap) (frames : Pmm.State 32) (record : Task) : Sched :=
  let s := {setTask {s with heap:=heap,frames:=frames} t record with nextId:=wrap 32 (s.nextId+1),births:=s.births+1}
  let s := setNext s t (s.tasks s.current).next
  setNext s s.current t

def newTask (s : Sched) (stack pageDir arg onExit : Nat) : Task where
  id := s.nextId
  stackBase := stack
  stackFrames := stackFrames
  kernelStackTop := wrap 32 (stack+stackFrames*Pmm.pageSize)
  pageDir := pageDir
  arg := arg
  onExit := onExit
  serial := s.births

theorem joined_ring (valid : Ring s ring others) (running : Running s) (different : t ≠ s.current) (frames : Pmm.State 32)
    (grown : Held .i386 heap blocks (t::(ring++others))) {record : Task} (ready : record.state = .ready)
    (serial : record.serial = s.births) :
    ∃ longer,Ring (joined s t heap frames record) longer others ∧ Running (joined s t heap frames record) ∧
      longer.Perm (t::ring) := by
  obtain ⟨links,serials,states,ids⟩ := @create_parts s t record
    {setTask {s with heap:=heap,frames:=frames} t record with nextId:=wrap 32 (s.nextId+1),births:=s.births+1} different rfl rfl
  rw [serial] at serials
  rw [ready] at states
  exact ring_splice (t:=t) valid running grown links serials states (fun x elsewhere => (ids x).trans (if_neg elsewhere))
    rfl rfl

-- task_create_ex leaves the tasks alone, or puts a new one behind the current.
theorem create_joins (valid : Ring s ring others) (running : Running s) (pageDir arg onExit : Nat) :
    (∃ heap frames,(taskCreateEx s pageDir arg onExit).2 = {s with heap:=heap,frames:=frames} ∧
      Ring (taskCreateEx s pageDir arg onExit).2 ring others) ∨
    ∃ t heap frames stack longer,
      (taskCreateEx s pageDir arg onExit).2 = joined s t heap frames (newTask s stack pageDir arg onExit) ∧ t ∉ ring ∧
      Ring (taskCreateEx s pageDir arg onExit).2 longer others ∧ Running (taskCreateEx s pageDir arg onExit).2 ∧
      longer.Perm (t::ring) := by
  obtain ⟨blocks,held⟩ := valid.heap
  unfold taskCreateEx
  rw [if_neg (by simp [valid.enabled])]
  rcases held_kmalloc held sizeofTask with refused | ⟨nonzero,after,grown⟩
  · rw [refused]
    exact .inl ⟨s.heap,s.frames,rfl,valid⟩
  · generalize allocated : Kheap.kmalloc .i386 s.heap sizeofTask = answer at *
    obtain ⟨t,heap⟩ := answer
    dsimp only at *
    rw [if_neg nonzero]
    have outside : t ∉ ring := fun member => (List.nodup_cons.mp grown.distinct).1 (List.mem_append_left _ member)
    split
    · -- No stack: the record goes back to the heap.
      obtain ⟨_,before,freed⟩ := held_kfree grown (List.mem_cons_self ..)
      rw [List.erase_cons_head] at freed
      exact .inl ⟨_,_,rfl,{valid with heap:=⟨before,freed⟩}⟩
    · have different : t ≠ s.current := by
        rintro rfl
        exact outside valid.current
      obtain ⟨longer,valid,running,perm⟩ := @joined_ring _ _ _ _ _ _ valid running different
        (Pmm.pmmAllocFrames s.frames stackFrames).2 grown
        (newTask s (Pmm.pmmAllocFrames s.frames stackFrames).1 pageDir arg onExit) rfl rfl
      exact .inr ⟨t,_,_,_,longer,rfl,outside,valid,running,perm⟩

theorem ring_create (valid : Ring s ring others) (running : Running s) (pageDir arg onExit : Nat) :
    ∃ after,Ring (taskCreateEx s pageDir arg onExit).2 after others ∧ Running (taskCreateEx s pageDir arg onExit).2 := by
  rcases create_joins valid running pageDir arg onExit with ⟨_,_,same,kept⟩ | ⟨_,_,_,_,longer,_,_,joins,runs,_⟩
  · refine ⟨ring,kept,?_⟩
    rw [same]
    exact running
  · exact ⟨longer,joins,runs⟩

end Arthic.SchedulerRing
