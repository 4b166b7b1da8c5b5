import Mathlib.Init

namespace Arthic.Transition
universe u v w

-- A machine is where it may start and what one labelled step may do. Everything
-- said of whole runs is derived from a base case and one step.
structure System (State : Type u) (Label : Type v) where
  initial : State → Prop
  step : State → Label → State → Prop

inductive Runs (m : System State Label) : State → List Label → State → Prop where
  | nil : Runs m s [] s
  | step : Runs m origin earlier middle → m.step middle label after → Runs m origin (earlier++[label]) after

def Reached (m : System State Label) (s : State) : Prop :=
  ∃ origin labels, m.initial origin ∧ Runs m origin labels s

theorem Runs.invariant {m : System State Label} {holds : State → Prop}
    (keeps : ∀ s label next, holds s → m.step s label next → holds next)
    (path : Runs m s labels next) (start : holds s) : holds next := by
  induction path with
  | nil => exact start
  | step prior step ih => exact keeps _ _ _ ih step

theorem Reached.invariant {m : System State Label} {holds : State → Prop}
    (base : ∀ s, m.initial s → holds s)
    (keeps : ∀ s label next, holds s → m.step s label next → holds next)
    (path : Reached m s) : holds s := by
  obtain ⟨origin,labels,started,runs⟩ := path
  exact runs.invariant keeps (base origin started)

-- The states a run comes through, its first and its last among them.
inductive Visits (m : System State Label) (origin : State) : List State → State → Prop where
  | start : Visits m origin [origin] origin
  | step : Visits m origin visited s → m.step s label next → Visits m origin (visited++[next]) next

theorem Visits.last {m : System State Label} (visits : Visits m origin visited s) : s ∈ visited := by
  cases visits with
  | start => exact List.mem_singleton_self _
  | step _ _ => exact List.mem_append_right _ (List.mem_singleton_self _)

theorem Visits.first {m : System State Label} (visits : Visits m origin visited s) : origin ∈ visited := by
  induction visits with
  | start => exact List.mem_singleton_self _
  | step _ _ ih => exact List.mem_append_left _ ih

-- What holds where a run starts and is kept by every step to a state that stays `within`.
theorem Visits.invariant {m : System State Label} {holds within : State → Prop}
    (keeps : ∀ s label next,holds s → within s → m.step s label next → within next → holds next)
    (visits : Visits m origin visited s) (inside : ∀ s ∈ visited,within s) (start : holds origin) : holds s := by
  induction visits with
  | start => exact start
  | step earlier step ih =>
    have before := fun s member => inside s (List.mem_append_left _ member)
    refine keeps _ _ _ (ih before) (before _ earlier.last) step ?_
    exact inside _ (List.mem_append_right _ (List.mem_singleton_self _))

-- A machine that computes: each label names an operation, refused or applied.
def guarded (initial : State → Prop) (allowed : State → Label → Prop) (apply : State → Label → State) :
    System State Label :=
  ⟨initial,fun s label next => allowed s label ∧ next = apply s label⟩

section Guarded
variable {State : Type u} {Label : Type v} {initial : State → Prop} {allowed : State → Label → Prop}
  {apply : State → Label → State}

theorem Runs.act (path : Runs (guarded initial allowed apply) origin labels s) (permitted : allowed s label) :
    Runs (guarded initial allowed apply) origin (labels++[label]) (apply s label) :=
  .step path ⟨permitted,rfl⟩

theorem Runs.guarded_invariant {holds : State → Prop}
    (keeps : ∀ s label, holds s → allowed s label → holds (apply s label))
    (path : Runs (guarded initial allowed apply) s labels next) (start : holds s) : holds next := by
  apply path.invariant _ start
  rintro s label next valid ⟨permitted,rfl⟩
  exact keeps s label valid permitted

-- A list of labels each of which is permitted where it is reached.
def Permitted (allowed : State → Label → Prop) (apply : State → Label → State) : State → List Label → Prop
  | _,[] => True
  | s,label::rest => allowed s label ∧ Permitted allowed apply (apply s label) rest

instance decidablePermitted [decides : ∀ s label, Decidable (allowed s label)] :
    (s : State) → (labels : List Label) → Decidable (Permitted allowed apply s labels)
  | _,[] => isTrue trivial
  | s,label::rest => @instDecidableAnd _ _ (decides s label) (decidablePermitted (apply s label) rest)

theorem Runs.extend (path : Runs (guarded initial allowed apply) origin earlier s)
    (permitted : Permitted allowed apply s labels) :
    Runs (guarded initial allowed apply) origin (earlier++labels) (labels.foldl apply s) := by
  induction labels generalizing earlier s with
  | nil => simpa using path
  | cons label labels ih =>
    obtain ⟨here,rest⟩ := permitted
    have more := ih (path.act here) rest
    rwa [List.append_assoc,List.singleton_append] at more

theorem reached_by (started : initial s) (permitted : Permitted allowed apply s labels) :
    Reached (guarded initial allowed apply) (labels.foldl apply s) :=
  ⟨s,labels,started,Runs.nil.extend permitted⟩
end Guarded

-- Forward simulation with the labels kept: the labels carry what a caller sees,
-- so a matched run is the same conversation held with the abstract machine.
structure Simulation (low : System Low Label) (high : System High Label) (related : Low → High → Prop) : Prop where
  starts : ∀ s, low.initial s → ∃ t, high.initial t ∧ related s t
  steps : ∀ s t label next, related s t → low.step s label next →
    ∃ after, high.step t label after ∧ related next after

theorem Simulation.runs {low : System Low Label} {high : System High Label} {related : Low → High → Prop}
    (sim : Simulation low high related) (path : Runs low s labels next) (start : related s t) :
    ∃ after, Runs high t labels after ∧ related next after := by
  induction path with
  | nil => exact ⟨t,.nil,start⟩
  | step prior step ih =>
    obtain ⟨middle,runs,matched⟩ := ih
    obtain ⟨after,taken,kept⟩ := sim.steps _ _ _ _ matched step
    exact ⟨after,.step runs taken,kept⟩

end Arthic.Transition
