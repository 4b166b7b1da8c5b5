import Arthic.Library.Transition
import Mathlib.Logic.Function.Basic

namespace Arthic.InterruptFlag
open Transition

-- What a thread still has to do, as far as the interrupt flag goes. Whatever leaves the
-- flag alone is `compute`, a test of data is a choice, and `save` hands the old flag to
-- the code behind it, which `restore`s it: interrupts are let in again if they were.
-- `enter` and `leave` do nothing. They say where a call begins and where it returns.
inductive Code where
  | halt
  | compute (next : Code)
  | choose (branch : Nat → Code)
  | save (rest : Bool → Code)
  | restore (flags : Bool) (next : Code)
  | cli (next : Code)
  | sti (next : Code)
  | set (flag : Bool) (next : Code)
  | iret (flags : Bool) (next : Code)
  | switch (next : Code)
  | spawn (next : Code)
  | enter (next : Code)
  | leave (next : Code)

-- The calls and the sections a thread is in, innermost first; a call with the flag it
-- was made with.
inductive Mark where
  | call (flag : Bool)
  | locked

-- `saved` is the flag in the word a thread pushed when it gave the processor away.
structure Thread where
  code : Code
  marks : List Mark
  saved : Bool

structure Machine (Task : Type) where
  current : Task
  flag : Bool
  threads : Task → Option Thread

def advance (flag : Bool) (marks : List Mark) (pick : Nat) : Code → Option (Code × List Mark × Bool)
  | .compute next => some (if pick = 0 then .compute next else next,marks,flag)
  | .choose branch => some (branch pick,marks,flag)
  | .save rest => some (rest flag,.locked::marks,false)
  | .restore flags next => some (next,marks.tail,flags || flag)
  | .cli next => some (next,marks,false)
  | .sti next => some (next,marks,true)
  | .set value next => some (next,marks,value)
  | .iret flags next => some (next,marks,flags)
  | .enter next => some (next,.call flag::marks,flag)
  | .leave next => some (next,marks.tail,flag)
  | .halt => none
  | .switch _ => none
  | .spawn _ => none

inductive Event (Task : Type) where
  | run (pick : Nat)
  | switch (next : Task)
  | spawn (task : Task) (entry : Code)
  | interrupt (handler : Code → Code)

variable {Task : Type} [DecidableEq Task]

def put (m : Machine Task) (thread : Thread) : Task → Option Thread := Function.update m.threads m.current (some thread)

-- The running thread goes on; gives the processor to another, which goes on with the flag
-- it had; makes a new one; or is interrupted, if the flag is on. A handler starts with the
-- flag off and ends by giving back the flag it found.
def machine (entries : Code → Prop) (handlers : (Code → Code) → Prop) : System (Machine Task) (Event Task) where
  initial m := ∀ t thread,m.threads t = some thread → entries thread.code ∧ thread.marks = []
  step m event after := ∃ thread,m.threads m.current = some thread ∧ match event with
    | .run pick => ∃ code marks flag,advance m.flag thread.marks pick thread.code = some (code,marks,flag) ∧
        after = {m with flag:=flag,threads:=put m ⟨code,marks,thread.saved⟩}
    | .switch next => ∃ rest other,thread.code = .switch rest ∧ next ≠ m.current ∧ m.threads next = some other ∧
        after = ⟨next,other.saved,put m ⟨rest,thread.marks,m.flag⟩⟩
    | .spawn task entry => ∃ rest,thread.code = .spawn rest ∧ m.threads task = none ∧ entries entry ∧
        after = {m with threads:=Function.update (put m ⟨rest,thread.marks,thread.saved⟩) task (some ⟨entry,[],true⟩)}
    | .interrupt handler => m.flag = true ∧ handlers handler ∧
        after = {m with flag:=false,threads:=put m ⟨handler (.iret true thread.code),thread.marks,thread.saved⟩}

def flagOf (m : Machine Task) (t : Task) (thread : Thread) : Bool := if t = m.current then m.flag else thread.saved

-- A call returns with the flag it was made with, and inside a section the flag is off.
def Preserved (m : Machine Task) : Prop := ∀ t thread,m.threads t = some thread →
  (∀ next,thread.code = .leave next → ∃ rest,thread.marks = .call (flagOf m t thread)::rest) ∧
  (Mark.locked ∈ thread.marks → flagOf m t thread = false)

-- Nobody turns the flag off by hand but where it is on.
def Spliced (m : Machine Task) : Prop :=
  ∀ thread next,m.threads m.current = some thread → thread.code = .cli next → m.flag = true

def Open (marks : List Mark) : Prop := Mark.locked ∉ marks

-- What code must be like to run with this flag inside these calls and sections: the
-- weakest precondition of Preserved, where cli is met with the flag on.
def Good : Code → Bool → List Mark → Prop
  | .halt,_,_ => True
  | .compute next,flag,marks => Good next flag marks
  | .choose branch,flag,marks => ∀ i,Good (branch i) flag marks
  | .save rest,flag,marks => Good (rest flag) false (.locked::marks)
  | .restore flags next,flag,marks =>
      ∃ rest,marks = .locked::rest ∧ (flags = true → Open rest) ∧ Good next (flags || flag) rest
  | .cli next,flag,marks => flag = true → Good next false marks
  | .sti next,_,marks => Open marks ∧ Good next true marks
  | .set value next,_,marks => (value = true → Open marks) ∧ Good next value marks
  | .iret flags next,_,marks => (flags = true → Open marks) ∧ Good next flags marks
  | .switch next,flag,marks => Good next flag marks
  | .spawn next,flag,marks => Good next flag marks
  | .enter next,flag,marks => Good next flag (.call flag::marks)
  | .leave next,flag,marks => ∃ rest,marks = .call flag::rest ∧ Good next flag rest

structure Fine (flag : Bool) (code : Code) (marks : List Mark) : Prop where
  good : Good code flag marks
  shut : flag = true → Open marks

variable {flag : Bool} {marks : List Mark} {code : Code}

theorem open_call (flag : Bool) (shut : Open marks) : Open (.call flag::marks) := by
  intro inside
  rcases List.mem_cons.mp inside with same | inside
  · cases same
  · exact shut inside

theorem open_tail (mark : Mark) (shut : Open (mark::marks)) : Open marks := fun inside => shut (List.mem_cons_of_mem _ inside)

theorem advance_fine (fine : Fine flag code marks) (spliced : ∀ next,code = .cli next → flag = true)
    (ran : advance flag marks pick code = some (later,after,now)) : Fine now later after := by
  obtain ⟨good,shut⟩ := fine
  cases code with
  | halt => cases ran
  | switch => cases ran
  | spawn => cases ran
  | compute next =>
    cases ran
    refine ⟨?_,shut⟩
    split
    · exact good
    · exact good
  | choose branch =>
    cases ran
    exact ⟨good pick,shut⟩
  | save rest =>
    cases ran
    exact ⟨good,nofun⟩
  | restore flags next =>
    cases ran
    obtain ⟨rest,rfl,opens,good⟩ := good
    have off : flag = false := by
      by_contra on
      exact shut (by simpa using on) (List.mem_cons_self ..)
    refine ⟨good,fun on => opens ?_⟩
    rwa [off,Bool.or_false] at on
  | cli next =>
    cases ran
    exact ⟨good (spliced _ rfl),nofun⟩
  | sti next =>
    cases ran
    exact ⟨good.2,fun _ => good.1⟩
  | set value next =>
    cases ran
    exact ⟨good.2,good.1⟩
  | iret flags next =>
    cases ran
    exact ⟨good.2,good.1⟩
  | enter next =>
    cases ran
    exact ⟨good,fun on => open_call _ (shut on)⟩
  | leave next =>
    cases ran
    obtain ⟨rest,rfl,good⟩ := good
    exact ⟨good,fun on => open_tail _ (shut on)⟩

def Sane (m : Machine Task) : Prop := ∀ t thread,m.threads t = some thread → Fine (flagOf m t thread) thread.code thread.marks

variable {m after : Machine Task} {entries : Code → Prop} {handlers : (Code → Code) → Prop}

theorem sane_preserved (sane : Sane m) : Preserved m := by
  intro t thread there
  obtain ⟨good,shut⟩ := sane t thread there
  generalize flagOf m t thread = flag at *
  refine ⟨fun next leaves => ?_,fun inside => ?_⟩
  · rw [leaves] at good
    obtain ⟨rest,marks,_⟩ := good
    exact ⟨rest,marks⟩
  · cases flag with
    | false => rfl
    | true => exact absurd inside (shut rfl)

theorem put_current (m : Machine Task) (thread : Thread) : put m thread m.current = some thread := Function.update_self ..
theorem put_other (thread : Thread) (other : t ≠ m.current) : put m thread t = m.threads t := Function.update_of_ne other ..

-- A change of the running thread alone.
theorem sane_put (sane : Sane m) (fine : Fine flag thread.code thread.marks) :
    Sane {m with flag:=flag,threads:=put m thread} := by
  intro t found there
  unfold flagOf
  by_cases same : t = m.current
  · subst same
    dsimp only at there ⊢
    rw [put_current] at there
    cases there
    rw [if_pos rfl]
    exact fine
  · dsimp only at there ⊢
    rw [put_other _ same] at there
    rw [if_neg same]
    have old := sane t found there
    rwa [flagOf,if_neg same] at old

theorem sane_current (sane : Sane m) (there : m.threads m.current = some thread) : Fine m.flag thread.code thread.marks := by
  have fine := sane m.current thread there
  rwa [flagOf,if_pos rfl] at fine

-- A handler is code that may find the flag either way and leave it either way.
def Handles (handler : Code → Code) : Prop :=
  ∀ next marks,Open marks → (∀ flag,Good next flag marks) → ∀ flag,Good (handler next) flag marks

theorem step_sane (starts : ∀ code,entries code → Good code true []) (handled : ∀ handler,handlers handler → Handles handler)
    (sane : Sane m) (spliced : Spliced m) (step : (machine entries handlers).step m event after) : Sane after := by
  obtain ⟨thread,running,step⟩ := step
  have fine := sane_current sane running
  cases event with
  | run pick =>
    obtain ⟨code,marks,flag,ran,rfl⟩ := step
    exact sane_put sane (advance_fine fine (fun next cli => spliced thread next running cli) ran)
  | switch next =>
    obtain ⟨rest,other,switches,different,there,rfl⟩ := step
    rw [switches] at fine
    intro t found here
    unfold flagOf
    dsimp only at here ⊢
    by_cases same : t = m.current
    · subst same
      rw [put_current] at here
      cases here
      rw [if_neg (Ne.symm different)]
      exact ⟨fine.good,fine.shut⟩
    · rw [put_other _ same] at here
      have old := sane t found here
      rw [flagOf,if_neg same] at old
      by_cases chosen : t = next
      · subst chosen
        rw [there] at here
        cases here
        rwa [if_pos rfl]
      · rwa [if_neg chosen]
  | spawn task entry =>
    obtain ⟨rest,spawns,free,allowed,rfl⟩ := step
    rw [spawns] at fine
    have others : Sane {m with flag:=m.flag,threads:=put m ⟨rest,thread.marks,thread.saved⟩} :=
      sane_put sane ⟨fine.good,fine.shut⟩
    intro t found here
    by_cases new : t = task
    · subst new
      dsimp only at here
      rw [Function.update_self] at here
      cases here
      have apart : t ≠ m.current := by
        rintro rfl
        rw [free] at running
        cases running
      rw [flagOf,if_neg apart]
      exact ⟨starts entry allowed,fun _ => nofun⟩
    · dsimp only at here
      rw [Function.update_of_ne new] at here
      exact others t found here
  | interrupt handler =>
    obtain ⟨on,allowed,rfl⟩ := step
    rw [on] at fine
    have shut := fine.shut rfl
    have resumes : ∀ flag,Good (.iret true thread.code) flag thread.marks := fun _ => ⟨fun _ => shut,fine.good⟩
    exact sane_put sane ⟨handled handler allowed _ _ shut resumes false,nofun⟩

theorem initial_sane (starts : ∀ code,entries code → ∀ flag,Good code flag []) (fresh : (machine entries handlers).initial m) :
    Sane m := by
  intro t thread there
  obtain ⟨allowed,none⟩ := fresh t thread there
  rw [none]
  exact ⟨starts _ allowed _,fun _ => nofun⟩

theorem runs_preserved {origin : Machine Task} (starts : ∀ code,entries code → ∀ flag,Good code flag [])
    (handled : ∀ handler,handlers handler → Handles handler) (fresh : (machine entries handlers).initial origin)
    (visits : Visits (machine entries handlers) origin visited m) (spliced : ∀ s ∈ visited,Spliced s) : Preserved m := by
  refine sane_preserved (visits.invariant ?_ spliced (initial_sane starts fresh))
  exact fun _ _ _ sane spliced step _ => step_sane (fun code allowed => starts code allowed true) handled sane spliced step

-- Code that gives the flag back as it found it, whatever it found.
def Keeps (body : Code → Code) : Prop :=
  ∀ next flag marks,Fine flag next marks → Good (body next) flag marks

section Bodies
variable {a b : Code → Code}

def skip (next : Code) : Code := next
def seq (a b : Code → Code) (next : Code) : Code := a (b next)
def either (a b : Code → Code) (next : Code) : Code := .choose fun pick => if pick = 0 then a next else b next
def times (body : Code → Code) : Nat → Code → Code
  | 0,next => next
  | n+1,next => body (times body n next)
-- As often as the data say.
def loop (body : Code → Code) (next : Code) : Code := .choose fun n => times body n next
def locked (body : Code → Code) (next : Code) : Code := .save fun flags => body (.restore flags next)
def called (body : Code → Code) (next : Code) : Code := .enter (body (.leave next))

theorem keeps_skip : Keeps skip := fun _ _ _ fine => fine.good

theorem keeps_compute : Keeps .compute := fun _ _ _ fine => fine.good

theorem keeps_switch : Keeps .switch := fun _ _ _ fine => fine.good

theorem keeps_spawn : Keeps .spawn := fun _ _ _ fine => fine.good

theorem keeps_seq (first : Keeps a) (second : Keeps b) : Keeps (seq a b) :=
  fun _ _ _ fine => first _ _ _ ⟨second _ _ _ fine,fine.shut⟩

theorem keeps_either (first : Keeps a) (second : Keeps b) : Keeps (either a b) := by
  intro next flag marks fine pick
  dsimp only
  split
  · exact first _ _ _ fine
  · exact second _ _ _ fine

theorem keeps_times (body : Keeps a) (n : Nat) : Keeps (times a n) := by
  induction n with
  | zero => exact keeps_skip
  | succ n ih => exact fun _ _ _ fine => body _ _ _ ⟨ih _ _ _ fine,fine.shut⟩

theorem keeps_loop (body : Keeps a) : Keeps (loop a) := fun _ _ _ fine n => keeps_times body n _ _ _ fine

-- Whatever keeps the flag may run inside a section.
theorem keeps_locked (body : Keeps a) : Keeps (locked a) := by
  intro next flag marks fine
  refine body _ _ _ ⟨⟨marks,rfl,fine.shut,?_⟩,nofun⟩
  rw [Bool.or_false]
  exact fine.good

theorem keeps_called (body : Keeps a) : Keeps (called a) :=
  fun _ _ marks fine => body _ _ _ ⟨⟨marks,rfl,fine.good⟩,fun on => open_call _ (fine.shut on)⟩

-- Code that does not come back may do so from anywhere.
theorem keeps_never (body : Keeps a) : Keeps fun _ => a .halt := fun _ _ _ fine => body _ _ _ ⟨trivial,fine.shut⟩

-- Bare cli and sti, where the flag is on.
def spliced (body : Code → Code) (next : Code) : Code := .cli (body (.sti next))

theorem keeps_spliced (body : Keeps a) : Keeps (spliced a) := by
  intro next flag marks fine on
  subst on
  exact body _ _ _ ⟨⟨fine.shut rfl,fine.good⟩,nofun⟩

theorem handles_keeps (body : Keeps a) : Handles a := fun _ _ shut good flag => body _ _ _ ⟨good flag,fun _ => shut⟩

theorem handles_set (flag : Bool) : Handles (.set flag) := fun _ _ shut good _ => ⟨fun _ => shut,good flag⟩

theorem handles_seq (first : Handles a) (second : Handles b) : Handles (seq a b) :=
  fun _ _ shut good => first _ _ shut (second _ _ shut good)

theorem handles_either (first : Handles a) (second : Handles b) : Handles (either a b) := by
  intro next marks shut good flag pick
  dsimp only
  split
  · exact first _ _ shut good flag
  · exact second _ _ shut good flag

theorem handles_loop (body : Handles a) : Handles (loop a) := by
  intro next marks shut good flag n
  induction n generalizing flag with
  | zero => exact good flag
  | succ n ih => exact body _ _ shut ih flag
end Bodies

end Arthic.InterruptFlag
