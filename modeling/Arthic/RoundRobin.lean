import Arthic.RingWalks

namespace Arthic.RoundRobin
open Scheduler SchedulerRing SchedulerRuns RingWalks Transition Unsigned
variable {s : Sched} {m after : Machine} {ring others lap : List Nat} {x y : Nat}

-- Tasks are told apart by their serials: records are freed and used again.
def runner (s : Sched) : Nat := serialOf s s.current

def Small (s : Sched) : Prop := ∀ ring,Cycle s ring → ring.length ≤ 64

structure Runnable (s : Sched) (y : Nat) : Prop where
  place : ∃ ring,Cycle s ring ∧ ∃ t ∈ ring,serialOf s t = y ∧ ((s.tasks t).state = .ready ∨ (s.tasks t).state = .running)

-- Whoever is current, y's turn comes before x's.
structure Ahead (s : Sched) (x y : Nat) : Prop where
  order : ∃ lap front back,Lap s lap ∧ lap.map (serialOf s) = front++y::back ∧ x ∉ front
  born : x < s.births

theorem serial_same {now : Sched} (standings : ∀ t,standing (now.tasks t) = standing (s.tasks t)) :
    serialOf now = serialOf s := by
  funext t
  have same := standings t
  simp only [standing,Prod.mk.injEq] at same
  exact same.2.2

theorem map_cut {f : Nat → Nat} (shape : lap.map f = front++y::back) :
    ∃ before t behind,lap = before++t::behind ∧ before.map f = front ∧ f t = y ∧ behind.map f = back := by
  obtain ⟨before,rest,rfl,frontIs,restIs⟩ := List.map_eq_append_iff.mp shape
  obtain ⟨t,behind,rfl,here,backIs⟩ := List.map_eq_cons_iff.mp restIs
  exact ⟨before,t,behind,rfl,frontIs,here,backIs⟩

-- With y READY the walk does not end at its guard: it gets to y, or to somebody in front
-- of y, who is not x.
theorem ahead_schedule (valid : Ring s ring others) (ahead : Ahead s x y) (short : ring.length ≤ 64)
    (ready : ∀ t ∈ ring,serialOf s t = y → t ≠ s.current → (s.tasks t).state = .ready) :
    runner (taskSchedule s) = y ∨ Ahead (taskSchedule s) x y ∧ runner (taskSchedule s) ≠ x := by
  obtain ⟨⟨lap,front,back,lapped,shape,clear⟩,born⟩ := ahead
  obtain ⟨before,t,behind,rfl,rfl,here,_⟩ := map_cut shape
  have perm := lap_perm valid lapped
  obtain ⟨apart,_⟩ := List.nodup_cons.mp lapped.simple
  obtain ⟨seen,tail,left,cut,call⟩ := schedule_parts valid lapped
  have waiting : stateThen s ring t = .ready := by
    have state := ready t (perm.mem_iff.mp (by simp)) here (by rintro rfl; exact apart (by simp))
    rw [stateThen_awake (by rw [state]; exact nofun)]
    exact state
  obtain ⟨more,rfl,rfl⟩ := seen_front cut call.unready waiting
  have serials := serial_same call.standings
  have rest := call.rest
  simp only [Prod.mk.injEq] at rest
  rcases call.turn with ⟨full | full,_⟩ | ⟨later,next,_,_,leftIs⟩
  · simp at full
  · have size := perm.length_eq
    simp only [List.length_cons,List.length_append,full,ringGuard] at size
    omega
  · cases more with
    | nil =>
      left
      rw [runner,serials,←(List.cons_eq_cons.mp next).1]
      exact here
    | cons first more =>
      right
      obtain ⟨chosen,rfl⟩ := List.cons_eq_cons.mp next
      have order : left.map (serialOf s) = more.map (serialOf s)++y::
          (behind++s.current::seen.filter fun t => stateThen s ring t ≠ .finished).map (serialOf s) := by
        rw [leftIs,←here]
        exact List.map_append.trans (by simp)
      have passed : ∀ other ∈ first::more,serialOf s other ≠ x := by
        rintro other member rfl
        exact clear (List.mem_map_of_mem (List.mem_append_right _ member))
      refine ⟨⟨⟨left,_,_,call.lap,by rw [serials]; exact order,?_⟩,by rw [rest.2.1]; exact born⟩,?_⟩
      · intro member
        obtain ⟨other,inside,same⟩ := List.mem_map.mp member
        exact passed other (List.mem_cons_of_mem _ inside) same
      · rw [runner,serials,←chosen]
        exact passed first (List.mem_cons_self ..)

theorem ahead_same {now : Sched} (links : nextOf now = nextOf s) (serials : serialOf now = serialOf s)
    (current : now.current = s.current) (births : now.births = s.births) (ahead : Ahead s x y) : Ahead now x y := by
  obtain ⟨⟨lap,front,back,⟨path,simple⟩,shape,clear⟩,born⟩ := ahead
  refine ⟨⟨lap,front,back,⟨?_,?_⟩,?_,clear⟩,by rw [births]; exact born⟩
  · rw [links,current]
    exact path
  · rw [current]
    exact simple
  · rw [serials]
    exact shape

-- A new task comes in front of everybody, under a serial nobody had.
theorem ahead_joined (ahead : Ahead s x y) (valid : Ring s ring others) (outside : t ∉ ring) (heap : Kheap.Heap)
    (frames : Pmm.State 32) {record : Task} (serial : record.serial = s.births) :
    Ahead (joined s t heap frames record) x y ∧ runner (joined s t heap frames record) = runner s := by
  obtain ⟨⟨lap,front,back,lapped,shape,clear⟩,born⟩ := ahead
  have perm := lap_perm valid lapped
  have different : t ≠ s.current := fun same => outside (by rw [same]; exact valid.current)
  have lapOut : t ∉ lap := fun member => outside (perm.mem_iff.mp (List.mem_cons_of_mem _ member))
  obtain ⟨_,serials,_⟩ := joined_parts s heap frames record different
  have unchanged : lap.map (serialOf (joined s t heap frames record)) = lap.map (serialOf s) := by
    apply List.map_congr_left
    intro other member
    rw [serials,if_neg]
    rintro rfl
    exact lapOut member
  have births : (joined s t heap frames record).births = s.births+1 := rfl
  have current : (joined s t heap frames record).current = s.current := rfl
  refine ⟨⟨⟨t::lap,s.births::front,back,lap_joined lapped different lapOut heap frames record,?_,?_⟩,?_⟩,?_⟩
  · rw [List.map_cons,unchanged,serials,if_pos rfl,serial,shape,List.cons_append]
  · rw [List.mem_cons,not_or]
    exact ⟨Nat.ne_of_lt born,clear⟩
  · rw [births]
    exact Nat.lt_succ_of_lt born
  · rw [runner,current,serials,if_neg (Ne.symm different)]
    rfl

-- One call: y gets its turn, or it stays in front of x and x does not get one.
theorem ahead_step (kept : Kept m) (allowed : Allowed m call) (ahead : Ahead m.sched x y) (small : Small m.sched)
    (runnable : Runnable m.sched y) : runner (apply m call).sched = y ∨
      Ahead (apply m call).sched x y ∧ (runner (apply m call).sched = x → runner m.sched = x) := by
  obtain ⟨ring,valid,running⟩ := kept
  obtain ⟨⟨other,cycle,u,member,named,state⟩⟩ := runnable
  have once := (List.nodup_append.mp (valid.accounts.nodup_iff.mpr List.nodup_range)).1
  have shortRing := small ring (ring_cycle valid)
  rw [cycle_unique cycle (ring_cycle valid)] at member
  rcases call_outcome valid running allowed with ⟨now,moment,same⟩ | quiet | ⟨t,heap,frames,record,same,outside,serial,_⟩
  · obtain ⟨validNow,_⟩ := moment_ring valid moment
    obtain ⟨links,serials,rest,others⟩ := moment_same moment
    simp only [Prod.mk.injEq] at rest
    have aheadNow := ahead_same links serials rest.1 rest.2.2.1 ahead
    rw [same]
    refine (ahead_schedule validNow aheadNow shortRing ?_).imp_right fun kept => ⟨kept.1,fun x => absurd x kept.2⟩
    intro v inside here away
    rw [rest.1] at away
    rw [serials] at here
    have alike : v = u := List.inj_on_of_nodup_map once inside member (here.trans named.symm)
    subst alike
    rw [(others v away).1]
    exact state.resolve_right fun runs => away (valid.single v inside runs)
  · obtain ⟨links,_,standings,rest,_⟩ := quiet
    simp only [Prod.mk.injEq] at rest
    have serials := serial_same standings
    refine .inr ⟨ahead_same links serials rest.1 rest.2.2 ahead,fun now => ?_⟩
    rw [runner,serials,rest.1] at now
    exact now
  · obtain ⟨joins,stays⟩ := ahead_joined ahead valid outside heap frames serial
    rw [same,stays]
    exact .inr ⟨joins,id⟩

-- At x's turn everybody else is in front of x.
theorem ahead_begins (kept : Kept m) (turn : runner m.sched = x) (other : y ≠ x) (runnable : Runnable m.sched y) :
    Ahead m.sched x y := by
  obtain ⟨ring,valid,_⟩ := kept
  obtain ⟨⟨_,cycle,t,member,named,_⟩⟩ := runnable
  rw [cycle_unique cycle (ring_cycle valid)] at member
  have distinct := valid.accounts.nodup_iff.mpr List.nodup_range
  have once := (List.nodup_append.mp distinct).1
  obtain ⟨lap,lapped,perm⟩ := ring_lap valid
  have place : t ∈ lap := by
    refine (List.mem_cons.mp (perm.mem_iff.mpr member)).resolve_left ?_
    rintro rfl
    exact other (named.symm.trans turn)
  obtain ⟨front,back,rfl⟩ := List.append_of_mem place
  refine ⟨⟨_,front.map (serialOf m.sched),back.map (serialOf m.sched),lapped,?_,?_⟩,?_⟩
  · rw [List.map_append,List.map_cons,named]
  · intro inside
    have all := (perm.map (serialOf m.sched)).nodup_iff.mpr once
    rw [List.map_cons,List.map_append] at all
    refine (List.nodup_cons.mp all).1 (List.mem_append_left _ ?_)
    change runner m.sched ∈ _
    rw [turn]
    exact inside
  · rw [←turn,←List.mem_range,←valid.accounts.mem_iff]
    exact List.mem_append_left _ (List.mem_map_of_mem valid.current)

theorem ahead_visits (visits : Visits (scheduler kernelEnd mbi) m visited last) (kept : Kept m) (ahead : Ahead m.sched x y)
    (within : ∀ s ∈ visited,Small s.sched ∧ Runnable s.sched y ∧ runner s.sched ≠ y) :
    Kept last ∧ Ahead last.sched x y := by
  refine @Visits.invariant _ _ _ _ _ _ (fun m => Kept m ∧ Ahead m.sched x y) _ ?_ visits within ⟨kept,ahead⟩
  rintro s label next ⟨kept,ahead⟩ ⟨small,runnable,_⟩ ⟨allowed,rfl⟩ ⟨_,_,unrun⟩
  exact ⟨kept_step kept allowed,((ahead_step kept allowed ahead small runnable).resolve_left unrun).1⟩

-- Between two turns of x everybody who could run all the time had a turn.
theorem round_robin (reached : Reached (scheduler kernelEnd mbi) m) (turn : runner m.sched = x)
    (visits : Visits (scheduler kernelEnd mbi) m visited last) (lost : runner last.sched ≠ x)
    (step : (scheduler kernelEnd mbi).step last call after) (again : runner after.sched = x)
    (small : ∀ s ∈ visited,Small s.sched) (other : y ≠ x) (runnable : ∀ s ∈ visited,Runnable s.sched y) :
    ∃ s ∈ visited,runner s.sched = y := by
  by_contra none
  rw [not_exists] at none
  have kept := runs_kept reached
  have ahead := ahead_begins kept turn other (runnable m visits.first)
  obtain ⟨keptLast,aheadLast⟩ := ahead_visits visits kept ahead fun s member =>
    ⟨small s member,runnable s member,fun had => none s ⟨member,had⟩⟩
  obtain ⟨allowed,rfl⟩ := step
  rcases ahead_step keptLast allowed aheadLast (small last visits.last) (runnable last visits.last) with had | ⟨_,stays⟩
  · exact other (had.symm.trans again)
  · exact lost (stays again)

-- Task 0 makes one other task and then the two take turns.
def paired : Machine := apply (apply freshStart (.frames roomForStack)) (.taskCreateEx 0 0 0)
def turned : Machine := apply paired .taskSchedule

structure Pair (s : Sched) (first second : Nat) : Prop where
  links : s.taskRing = first ∧ nextOf s first = second ∧ nextOf s second = first
  apart : first ≠ second
  states : serialOf s second = 1 ∧ ((s.tasks second).state = .ready ∨ (s.tasks second).state = .running)

instance (s : Sched) (first second : Nat) : Decidable (Pair s first second) :=
  decidable_of_iff ((s.taskRing = first ∧ nextOf s first = second ∧ nextOf s second = first) ∧ first ≠ second ∧
    serialOf s second = 1 ∧ ((s.tasks second).state = .ready ∨ (s.tasks second).state = .running))
    ⟨fun ⟨links,apart,states⟩ => ⟨links,apart,states⟩,fun ⟨links,apart,states⟩ => ⟨links,apart,states⟩⟩

theorem pair_runnable (pair : Pair s first second) : Small s ∧ Runnable s 1 := by
  obtain ⟨⟨root,forth,back⟩,apart,named,state⟩ := pair
  have cycle : Cycle s [first,second] := ⟨⟨root,forth,back.trans root.symm⟩,by simp [apart],by simp⟩
  refine ⟨fun ring other => ?_,⟨_,cycle,second,by simp,named,state⟩⟩
  rw [cycle_unique other cycle]
  simp

theorem paired_ran : (Pair paired.sched 0x102018 0x102178 ∧ runner paired.sched = 0) ∧
    (Pair turned.sched 0x102018 0x102178 ∧ runner turned.sched = 1) ∧ runner (apply turned .taskSchedule).sched = 0 := by
  decide

theorem paired_reached : Reached (scheduler 0x101000 KheapRuns.roomyMap) paired :=
  @reached_by _ _ _ Allowed apply _ [.frames roomForStack,.taskCreateEx 0 0 0] freshStart_started ⟨trivial,trivial,trivial⟩

theorem round_robin_pair : ∃ s ∈ [paired,turned],runner s.sched = 1 := by
  obtain ⟨⟨first,turn⟩,⟨second,lost⟩,again⟩ := paired_ran
  have moves : (scheduler 0x101000 KheapRuns.roomyMap).step paired .taskSchedule turned := ⟨trivial,rfl⟩
  have visits : Visits (scheduler 0x101000 KheapRuns.roomyMap) paired [paired,turned] turned := .step .start moves
  have one := pair_runnable first
  have two := pair_runnable second
  have step : (scheduler 0x101000 KheapRuns.roomyMap).step turned .taskSchedule (apply turned .taskSchedule) :=
    ⟨trivial,rfl⟩
  refine round_robin paired_reached turn visits (by rw [lost]; decide) step again ?_ (by decide) ?_
  · intro s member
    simp only [List.mem_cons,List.not_mem_nil,or_false] at member
    rcases member with rfl | rfl
    · exact one.1
    · exact two.1
  · intro s member
    simp only [List.mem_cons,List.not_mem_nil,or_false] at member
    rcases member with rfl | rfl
    · exact one.2
    · exact two.2

end Arthic.RoundRobin
