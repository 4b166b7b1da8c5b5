import Mathlib.Logic.Function.Basic
import Mathlib.Data.List.Nodup

namespace Arthic.Linked

-- Nodes are addresses and the field that links them is a function. A path follows
-- the field over exactly the nodes listed and arrives at `stop`.
def Path (link : Nat → Nat) (start : Nat) : List Nat → Nat → Prop
  | [],stop => start = stop
  | node::rest,stop => start = node ∧ Path link (link node) rest stop

variable {link other : Nat → Nat}

theorem path_congr (same : ∀ node ∈ nodes,other node = link node) (path : Path link start nodes stop) :
    Path other start nodes stop := by
  induction nodes generalizing start with
  | nil => exact path
  | cons node nodes ih =>
    obtain ⟨here,rest⟩ := path
    refine ⟨here,?_⟩
    rw [same node (List.mem_cons_self ..)]
    exact ih (fun later member => same later (List.mem_cons_of_mem _ member)) rest

theorem path_update (outside : node ∉ nodes) (path : Path link start nodes stop) :
    Path (Function.update link node value) start nodes stop := by
  apply path_congr _ path
  intro member present
  apply Function.update_of_ne
  rintro rfl
  exact outside present

theorem path_append : Path link start (left++right) stop ↔
    ∃ middle,Path link start left middle ∧ Path link middle right stop := by
  induction left generalizing start with
  | nil => simp [Path]
  | cons node left ih =>
    simp only [List.cons_append,Path,ih]
    constructor
    · rintro ⟨here,middle,front,back⟩
      exact ⟨middle,⟨here,front⟩,back⟩
    · rintro ⟨middle,⟨here,front⟩,back⟩
      exact ⟨here,middle,front,back⟩

theorem path_snoc : Path link start (front++[node]) stop ↔ Path link start front node ∧ link node = stop := by
  rw [path_append]
  constructor
  · rintro ⟨middle,reached,rfl,last⟩
    exact ⟨reached,last⟩
  · rintro ⟨reached,last⟩
    exact ⟨node,reached,rfl,last⟩

-- Two walks from one node agree until the shorter one arrives, and 0 is no node.
theorem path_through (before : Path link start front middle) (nonzero : 0 ∉ front) (path : Path link start nodes 0) :
    ∃ rest,nodes = front++rest ∧ Path link middle rest 0 := by
  induction front generalizing start nodes with
  | nil => exact ⟨nodes,rfl,before ▸ path⟩
  | cons node front ih =>
    obtain ⟨rfl,before⟩ := before
    cases nodes with
    | nil => exact absurd (path ▸ List.mem_cons_self ..) nonzero
    | cons first nodes =>
      obtain ⟨rfl,path⟩ := path
      obtain ⟨rest,rfl,arrives⟩ := ih before (fun member => nonzero (List.mem_cons_of_mem _ member)) path
      exact ⟨rest,rfl,arrives⟩

theorem path_ended (nonzero : 0 ∉ nodes) (path : Path link 0 nodes 0) : nodes = [] := by
  cases nodes with
  | nil => rfl
  | cons first nodes =>
    rw [←path.1] at nonzero
    exact absurd (List.mem_cons_self ..) nonzero

theorem path_cycle (ties : link node = node) (nonzero : node ≠ 0) : ¬ Path link node nodes 0 := by
  induction nodes with
  | nil => exact nonzero
  | cons first nodes ih =>
    rintro ⟨rfl,path⟩
    rw [ties] at path
    exact ih path

-- Where a walk arrives settles which nodes it passes.
theorem path_unique (left : Path link start nodes stop) (right : Path link start others stop) (one : stop ∉ nodes)
    (two : stop ∉ others) : nodes = others := by
  induction nodes generalizing start others with
  | nil =>
    cases others with
    | nil => rfl
    | cons first others => exact absurd (List.mem_cons.mpr (.inl (left.symm.trans right.1))) two
  | cons node nodes ih =>
    obtain ⟨rfl,left⟩ := left
    cases others with
    | nil => exact absurd (List.mem_cons.mpr (.inl (right.symm))) one
    | cons first others =>
      obtain ⟨rfl,right⟩ := right
      rw [ih left right (fun member => one (List.mem_cons_of_mem _ member)) (fun member => two (List.mem_cons_of_mem _ member))]

-- The step from one node of a path to the next, for a node with something behind it.
theorem path_next (path : Path link start (front++node::behind::back) stop) : link node = behind := by
  obtain ⟨middle,_,_,next,_⟩ := path_append.mp path
  exact next

-- No link leads off a path.
theorem path_links (path : Path link start nodes stop) :
    (start = stop ∨ start ∈ nodes) ∧ ∀ node ∈ nodes,link node = stop ∨ link node ∈ nodes := by
  induction nodes generalizing start with
  | nil => exact ⟨.inl path,List.forall_mem_nil _⟩
  | cons first nodes ih =>
    obtain ⟨here,rest⟩ := path
    obtain ⟨begins,links⟩ := ih rest
    refine ⟨.inr (here ▸ List.mem_cons_self ..),List.forall_mem_cons.mpr ⟨?_,fun node member => ?_⟩⟩
    · exact begins.imp id (List.mem_cons_of_mem _)
    · exact (links node member).imp id (List.mem_cons_of_mem _)

-- A path that arrives where it starts, walked from one of its nodes.
theorem path_rotate (path : Path link start (front++node::back) start) : Path link node (node::back++front) node := by
  obtain ⟨middle,before,here,after⟩ := path_append.mp path
  subst here
  exact path_append.mpr ⟨start,⟨rfl,after⟩,before⟩

-- Taking out the node behind `node`, and putting a new one there.
theorem path_unlink (path : Path link start (front++node::gone::back) stop) (left : node ∉ front)
    (right : node ∉ back) : Path (Function.update link node (link gone)) start (front++node::back) stop := by
  obtain ⟨middle,before,here,_,after⟩ := path_append.mp path
  refine path_append.mpr ⟨middle,path_update left before,here,?_⟩
  rw [Function.update_self]
  exact path_update right after

theorem path_splice (path : Path link start (front++node::back) stop) (left : node ∉ front) (right : node ∉ back)
    (fresh : new ∉ front++node::back) :
    Path (Function.update (Function.update link new (link node)) node new) start (front++node::new::back) stop := by
  obtain ⟨middle,before,here,after⟩ := path_append.mp path
  simp only [List.mem_append,List.mem_cons,not_or] at fresh
  refine path_append.mpr ⟨middle,path_update left (path_update fresh.1 before),here,?_⟩
  rw [Function.update_self]
  refine ⟨rfl,?_⟩
  rw [Function.update_of_ne fresh.2.1,Function.update_self]
  exact path_update right (path_update fresh.2.2 after)

-- A first-in first-out queue threaded through its members: `head` and `tail` are 0
-- when it is empty and a member's field is 0 when nobody is behind it.
structure Queue (link : Nat → Nat) (head tail : Nat) (members : List Nat) : Prop where
  path : Path link head members 0
  tail : tail = members.getLast?.getD 0
  distinct : members.Nodup
  nonzero : 0 ∉ members

theorem queue_empty (link : Nat → Nat) : Queue link 0 0 [] := ⟨rfl,rfl,List.nodup_nil,List.not_mem_nil⟩

theorem queue_congr (same : ∀ node ∈ members,other node = link node) (queue : Queue link head tail members) :
    Queue other head tail members :=
  {queue with path:=path_congr same queue.path}

theorem queue_head (queue : Queue link head tail members) : head = 0 ↔ members = [] := by
  cases members with
  | nil => exact ⟨fun _ => rfl,fun _ => queue.path⟩
  | cons node members =>
    have first := queue.path.1
    refine ⟨fun zero => absurd (List.mem_cons_self ..) (zero ▸ first ▸ queue.nonzero),fun empty => ?_⟩
    cases empty

theorem queue_tail (queue : Queue link head tail members) : tail = 0 ↔ members = [] := by
  rcases List.eq_nil_or_concat members with rfl | ⟨front,last,rfl⟩
  · exact ⟨fun _ => rfl,fun _ => queue.tail⟩
  · have final := queue.tail
    have nonzero := queue.nonzero
    rw [List.concat_eq_append] at *
    rw [List.getLast?_concat,Option.getD_some] at final
    subst final
    refine ⟨fun zero => absurd ?_ nonzero,fun empty => ?_⟩
    · rw [←zero]
      exact List.mem_append_right _ (List.mem_singleton_self _)
    · simp at empty

theorem queue_links (queue : Queue link head tail members) :
    (head = 0 ∨ head ∈ members) ∧ (tail = 0 ∨ tail ∈ members) ∧ ∀ node ∈ members,link node = 0 ∨ link node ∈ members := by
  obtain ⟨begins,links⟩ := path_links queue.path
  refine ⟨begins,?_,links⟩
  rcases List.eq_nil_or_concat members with rfl | ⟨front,last,rfl⟩
  · exact .inl queue.tail
  · right
    rw [queue.tail,List.concat_eq_append,List.getLast?_concat,Option.getD_some]
    simp

def pushLink (link : Nat → Nat) (tail node : Nat) : Nat → Nat :=
  if tail = 0 then Function.update link node 0 else Function.update (Function.update link node 0) tail node

theorem queue_push (queue : Queue link head tail members) (fresh : node ∉ members) (nonzero : node ≠ 0) :
    Queue (pushLink link tail node) (if tail = 0 then node else head) node (members++[node]) := by
  refine ⟨?_,by simp,?_,?_⟩
  · rcases List.eq_nil_or_concat members with rfl | ⟨front,last,rfl⟩
    · have zero : tail = 0 := queue.tail
      simp [pushLink,zero,Path]
    · rw [List.concat_eq_append] at *
      have final := queue.tail
      rw [List.getLast?_concat,Option.getD_some] at final
      subst final
      have nontail : tail ≠ 0 := by
        intro zero
        exact absurd ((queue_tail queue).mp zero) (by simp)
      have different : node ≠ tail := by
        rintro rfl
        exact fresh (List.mem_append_right _ (List.mem_singleton_self _))
      obtain ⟨reached,_⟩ := path_snoc.mp queue.path
      have distinct := queue.distinct
      rw [List.nodup_append] at distinct
      have tailLast : tail ∉ front := fun earlier => distinct.2.2 tail earlier tail (List.mem_singleton_self _) rfl
      have nodeOut : node ∉ front := fun earlier => fresh (List.mem_append_left _ earlier)
      rw [pushLink,if_neg nontail,if_neg nontail,path_snoc,path_snoc]
      refine ⟨⟨path_update tailLast (path_update nodeOut reached),Function.update_self ..⟩,?_⟩
      rw [Function.update_of_ne different,Function.update_self]
  · rw [List.nodup_append]
    refine ⟨queue.distinct,List.nodup_singleton _,?_⟩
    rintro earlier member last final rfl
    rw [List.mem_singleton] at final
    exact fresh (final ▸ member)
  · intro zero
    rcases List.mem_append.mp zero with earlier | last
    · exact queue.nonzero earlier
    · exact nonzero (List.mem_singleton.mp last).symm

theorem queue_pop (queue : Queue link head tail (node::members)) :
    head = node ∧ Queue (Function.update link node 0) (link node) (if link node = 0 then 0 else tail) members := by
  obtain ⟨here,rest⟩ := queue.path
  obtain ⟨outside,distinct⟩ := List.nodup_cons.mp queue.distinct
  have nonzero : 0 ∉ members := fun member => queue.nonzero (List.mem_cons_of_mem _ member)
  have remaining : Queue link (link node) (members.getLast?.getD 0) members := ⟨rest,rfl,distinct,nonzero⟩
  refine ⟨here,path_update outside rest,?_,distinct,nonzero⟩
  split
  · rename_i zero
    rw [(queue_head remaining).mp zero]
    rfl
  · rename_i more
    have some : members ≠ [] := fun empty => more ((queue_head remaining).mpr empty)
    rw [queue.tail,List.getLast?_cons]
    cases members with
    | nil => exact absurd rfl some
    | cons first members => simp [List.getLast?_cons]

end Arthic.Linked
