import Mathlib.Algebra.BigOperators.Group.Finset.Basic
import Arthic.Mutexes

namespace Arthic.CounterThreads
open Scheduler Transition Unsigned Mutexes

-- Where a thread stands in counter_thread with the lock in use. `left` counts the rounds
-- still to go, the one under way included; `value` is what it has read.
inductive Stage where
  | outside
  | locking (left : Nat) (resting : Bool)
  | reading (left : Nat)
  | yielding (left value : Nat)
  | writing (left value : Nat)
  | unlocking (left : Nat)
  | leaving
  | finished
  deriving DecidableEq

structure World where
  sched : Sched
  lock : Mutex
  counter : Nat
  stage : Nat → Stage

def round (left : Nat) : Stage := if left = 0 then .leaving else .locking left false

def setStage (w : World) (stage : Stage) : World := {w with stage:=Function.update w.stage w.sched.current stage}

-- The next thing the current thread does. What task_yield comes to is up to the schedule.
def step (w : World) : World :=
  match w.stage w.sched.current with
  | .outside => w
  | .locking left _ =>
    let (taken,sched,lock) := lockSection w.sched w.lock
    {setStage w (if taken then .reading left else .locking left true) with sched:=sched,lock:=lock}
  | .reading left => setStage w (.yielding left w.counter)
  | .yielding left value => setStage w (.writing left value)
  | .writing left value => {setStage w (.unlocking left) with counter:=wrap 32 (value+1)}
  | .unlocking left =>
    let (sched,lock) := mutexUnlock w.sched w.lock
    {setStage w (round (left-1)) with sched:=sched,lock:=lock}
  | .leaving => {setStage w .finished with sched:=setState w.sched w.sched.current .finished}
  | .finished => w

inductive Label where
  | dispatch (t : Nat)
  | step

def Executing (w : World) : Prop := (w.sched.tasks w.sched.current).state = .running

-- The processor goes to any ready task, at any time.
def Allowed (w : World) : Label → Prop
  | .dispatch t => t ≠ 0 ∧ (w.sched.tasks t).state = .ready
  | .step => Executing w

def apply (w : World) : Label → World
  | .dispatch t => {w with sched:=switchTo w.sched t}
  | .step => step w

-- run_counter_test has set everything up; task 0 is none of the threads.
structure Started (workers : Finset Nat) (rounds : Nat) (w : World) : Prop where
  lock : w.lock = mutexInit
  counter : w.counter = 0
  created : ∀ t ∈ workers,t ≠ 0 ∧ t ≠ w.sched.taskRing
  stage : ∀ t,w.stage t = if t ∈ workers then round rounds else .outside

def counting (workers : Finset Nat) (rounds : Nat) : System World Label :=
  guarded (Started workers rounds) Allowed apply

-- Between mutex_lock's return and mutex_unlock.
def Inside : Stage → Prop
  | .reading _ => True
  | .yielding _ _ => True
  | .writing _ _ => True
  | .unlocking _ => True
  | _ => False

-- How many rounds a thread has brought to its write.
def done (rounds : Nat) : Stage → Nat
  | .outside => 0
  | .locking left _ => rounds-left
  | .reading left => rounds-left
  | .yielding left _ => rounds-left
  | .writing left _ => rounds-left
  | .unlocking left => rounds-left+1
  | .leaving => rounds
  | .finished => rounds

-- What a thread holds at each point: its count of rounds is in range, and a value it has
-- read is the counter's.
def Fits (rounds counter : Nat) : Stage → Prop
  | .locking left _ => 0 < left ∧ left ≤ rounds
  | .reading left => 0 < left ∧ left ≤ rounds
  | .yielding left value => (0 < left ∧ left ≤ rounds) ∧ value = counter
  | .writing left value => (0 < left ∧ left ≤ rounds) ∧ value = counter
  | .unlocking left => 0 < left ∧ left ≤ rounds
  | _ => True

structure Counted (workers : Finset Nat) (rounds : Nat) (w : World) : Prop where
  exclusive : ∀ t u,Inside (w.stage t) → Inside (w.stage u) → t = u
  free : w.lock.locked = 0 → ∀ t,¬ Inside (w.stage t)
  fits : ∀ t,Fits rounds w.counter (w.stage t)
  members : ∀ t,w.stage t ≠ .outside → t ∈ workers
  total : w.counter = wrap 32 (∑ t ∈ workers,done rounds (w.stage t))

variable {workers : Finset Nat} {rounds : Nat} {w next : World}

theorem fits_outside (outside : ¬ Inside stage) (fits : Fits rounds counter stage) (other : Nat) : Fits rounds other stage := by
  cases stage with
  | yielding left value => exact absurd trivial outside
  | writing left value => exact absurd trivial outside
  | _ => exact fits

theorem sum_moves (member : c ∈ workers) {stage : Nat → Stage} (gains : done rounds now = done rounds (stage c)+gain) :
    ∑ t ∈ workers,done rounds (Function.update stage c now t) = (∑ t ∈ workers,done rounds (stage t))+gain := by
  have others : ∑ t ∈ workers.erase c,done rounds (Function.update stage c now t) = ∑ t ∈ workers.erase c,done rounds (stage t) := by
    apply Finset.sum_congr rfl
    intro t inside
    rw [Function.update_of_ne (Finset.ne_of_mem_erase inside)]
  rw [←Finset.add_sum_erase _ _ member,←Finset.add_sum_erase _ (fun t => done rounds (stage t)) member,others,
    Function.update_self,gains]
  omega

-- The current thread goes from one stage to the next, and the counter with it.
theorem counted_moves (kept : Counted workers rounds w) (active : w.stage w.sched.current ≠ .outside)
    (stage : next.stage = Function.update w.stage w.sched.current now)
    (gains : done rounds now = done rounds (w.stage w.sched.current)+gain) (counter : next.counter = wrap 32 (w.counter+gain))
    (enters : Inside now → ∀ t,t ≠ w.sched.current → ¬ Inside (w.stage t))
    (free : next.lock.locked = 0 → ¬ Inside now ∧ ∀ t,t ≠ w.sched.current → ¬ Inside (w.stage t))
    (fits : Fits rounds next.counter now)
    (still : next.counter = w.counter ∨ ∀ t,t ≠ w.sched.current → ¬ Inside (w.stage t)) : Counted workers rounds next := by
  have member := kept.members _ active
  have others : ∀ t,t ≠ w.sched.current → next.stage t = w.stage t := by
    intro t different
    rw [stage,Function.update_of_ne different]
  have here : next.stage w.sched.current = now := by rw [stage,Function.update_self]
  refine ⟨?_,?_,?_,?_,?_⟩
  · intro t u first second
    by_cases one : t = w.sched.current
    · by_cases two : u = w.sched.current
      · rw [one,two]
      · rw [one,here] at first
        rw [others u two] at second
        exact absurd second (enters first u two)
    · rw [others t one] at first
      by_cases two : u = w.sched.current
      · rw [two,here] at second
        exact absurd first (enters second t one)
      · rw [others u two] at second
        exact kept.exclusive t u first second
  · intro open_ t inside
    obtain ⟨outside,rest⟩ := free open_
    by_cases equal : t = w.sched.current
    · rw [equal,here] at inside
      exact outside inside
    · rw [others t equal] at inside
      exact rest t equal inside
  · intro t
    by_cases equal : t = w.sched.current
    · rw [equal,here]
      exact fits
    · rw [others t equal]
      rcases still with same | nobody
      · rw [same]
        exact kept.fits t
      · exact fits_outside (nobody t equal) (kept.fits t) _
  · intro t busy
    by_cases equal : t = w.sched.current
    · rw [equal]
      exact member
    · rw [others t equal] at busy
      exact kept.members t busy
  · rw [counter,stage,sum_moves member gains,kept.total]
    simp only [wrap]
    omega

theorem counted_start (started : Started workers rounds w) : Counted workers rounds w := by
  have unbegun : ∀ left,¬ Inside (round left) ∧ done left (round left) = 0 := by
    intro left
    unfold round
    split
    · rename_i none
      exact ⟨id,none⟩
    · exact ⟨id,Nat.sub_self left⟩
  have outside : ∀ t,¬ Inside (w.stage t) := by
    intro t
    rw [started.stage]
    split
    · exact (unbegun rounds).1
    · exact id
  refine ⟨fun t _ inside => absurd inside (outside t),fun _ => outside,?_,?_,?_⟩
  · intro t
    rw [started.stage]
    split
    · unfold round
      split
      · trivial
      · exact ⟨by omega,Nat.le_refl _⟩
    · trivial
  · intro t busy
    by_contra other
    rw [started.stage,if_neg other] at busy
    exact busy rfl
  · have zero : ∑ t ∈ workers,done rounds (w.stage t) = 0 := by
      apply Finset.sum_eq_zero
      intro t member
      rw [started.stage,if_pos member]
      exact (unbegun rounds).2
    rw [zero,started.counter]
    rfl

-- Whoever is inside is alone there.
theorem alone (kept : Counted workers rounds w) (inside : Inside (w.stage w.sched.current)) :
    ∀ t,t ≠ w.sched.current → ¬ Inside (w.stage t) :=
  fun t different other => different (kept.exclusive t _ other inside)

theorem counter_small (kept : Counted workers rounds w) : wrap 32 (w.counter+0) = w.counter := by
  rw [kept.total]
  simp only [wrap]
  omega

theorem counted_step (kept : Counted workers rounds w) : Counted workers rounds (step w) := by
  have fits := kept.fits w.sched.current
  have same := (counter_small kept).symm
  have held := alone kept
  have taken : Inside (w.stage w.sched.current) → w.lock.locked ≠ 0 := fun inside zero => kept.free zero _ inside
  unfold step
  split
  · exact kept
  · rename_i left resting here
    rw [here] at fits
    have active : w.stage w.sched.current ≠ .outside := by rw [here]; exact nofun
    unfold lockSection
    dsimp only
    by_cases free : w.lock.locked = 0
    · rw [if_pos free]
      have nobody := kept.free free
      exact @counted_moves _ _ _ _ _ 0 kept active rfl (by rw [here]; rfl) same (fun _ t _ => nobody t) nofun fits (.inl rfl)
    · rw [if_neg free]
      exact @counted_moves _ _ _ _ _ 0 kept active rfl (by rw [here]; rfl) same nofun nofun fits (.inl rfl)
  · rename_i left here
    rw [here] at fits held taken
    have active : w.stage w.sched.current ≠ .outside := by rw [here]; exact nofun
    exact @counted_moves _ _ _ _ _ 0 kept active rfl (by rw [here]; rfl) same (fun _ => held trivial)
      (fun zero => absurd zero (taken trivial)) ⟨fits,rfl⟩ (.inl rfl)
  · rename_i left value here
    rw [here] at fits held taken
    have active : w.stage w.sched.current ≠ .outside := by rw [here]; exact nofun
    exact @counted_moves _ _ _ _ _ 0 kept active rfl (by rw [here]; rfl) same (fun _ => held trivial)
      (fun zero => absurd zero (taken trivial)) fits (.inl rfl)
  · rename_i left value here
    rw [here] at fits held taken
    have active : w.stage w.sched.current ≠ .outside := by rw [here]; exact nofun
    obtain ⟨range,rfl⟩ := fits
    exact @counted_moves _ _ _ _ _ 1 kept active rfl (by rw [here]; rfl) rfl (fun _ => held trivial)
      (fun zero => absurd zero (taken trivial)) range (.inr (held trivial))
  · rename_i left here
    rw [here] at fits held
    have active : w.stage w.sched.current ≠ .outside := by rw [here]; exact nofun
    have outside : ¬ Inside (round (left-1)) := by
      unfold round
      split <;> exact id
    have gains : done rounds (round (left-1)) = done rounds (w.stage w.sched.current)+0 := by
      rw [here]
      obtain ⟨positive,below⟩ := fits
      unfold round
      split <;> simp only [done] <;> omega
    have range : Fits rounds w.counter (round (left-1)) := by
      obtain ⟨positive,below⟩ := fits
      unfold round
      split
      · trivial
      · exact ⟨by omega,by omega⟩
    exact counted_moves kept active rfl gains same (fun inside => absurd inside outside)
      (fun _ => ⟨outside,held trivial⟩) range (.inl rfl)
  · rename_i here
    have active : w.stage w.sched.current ≠ .outside := by rw [here]; exact nofun
    exact @counted_moves _ _ _ _ _ 0 kept active rfl (by rw [here]; rfl) same nofun
      (fun zero => ⟨id,fun t _ => kept.free zero t⟩) trivial (.inl rfl)
  · exact kept

theorem runs_counted (path : Reached (counting workers rounds) w) : Counted workers rounds w := by
  apply path.invariant
  · exact fun _ => counted_start
  · rintro w label next kept ⟨_,rfl⟩
    cases label with
    | dispatch t => exact ⟨kept.exclusive,kept.free,kept.fits,kept.members,kept.total⟩
    | step => exact counted_step kept

theorem no_lost_updates (path : Reached (counting workers rounds) w) :
    (∀ t u,Inside (w.stage t) → Inside (w.stage u) → t = u) ∧
    ((∀ t ∈ workers,w.stage t = .finished) → w.counter = wrap 32 (workers.card*rounds)) := by
  have kept := runs_counted path
  refine ⟨kept.exclusive,fun all => ?_⟩
  have sum : ∑ t ∈ workers,done rounds (w.stage t) = workers.card*rounds := by
    apply Finset.sum_const_nat
    intro t member
    rw [all t member]
    rfl
  rw [kept.total,sum]

-- Threads 2 and 3, one round each. Thread 2 finds the lock taken and waits for it.
def twoThreads : World := ⟨threeTasks,mutexInit,0,fun t => if t ∈ ({2,3} : Finset Nat) then round 1 else .outside⟩
def racing : List Label :=
  [.step,.step,.dispatch 2,.step,.dispatch 3,.step,.step,.step,.step,.dispatch 2,.step,.step,.step,.step,.step,.step]
def raced : World := racing.foldl apply twoThreads

theorem raced_reached : Reached (counting {2,3} 1) raced := by
  refine @reached_by _ _ _ _ _ twoThreads racing ⟨rfl,rfl,by decide,fun _ => rfl⟩ ?_
  exact ⟨rfl,rfl,⟨by decide,rfl⟩,rfl,⟨by decide,rfl⟩,rfl,rfl,rfl,rfl,⟨by decide,rfl⟩,rfl,rfl,rfl,rfl,rfl,rfl,trivial⟩

theorem no_lost_updates_small : raced.lock.contended = 1 ∧ raced.counter = 2 :=
  ⟨by decide,(no_lost_updates raced_reached).2 (by decide)⟩

end Arthic.CounterThreads
