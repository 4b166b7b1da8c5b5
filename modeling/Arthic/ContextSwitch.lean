import Arthic.Library.Transition
import Arthic.Library.WordStack

namespace Arthic.ContextSwitch
open ByteMemory Transition WordStack

-- The registers switch.s names and memory. eip is where the processor goes on.
structure Machine where
  mem : Memory
  esp : Word
  ebp : Word
  edi : Word
  esi : Word
  ebx : Word
  eax : Word
  edx : Word
  eflags : Word
  eip : Word

def peek (m : Machine) (addr : Word) : Word := word m.mem addr.toNat

def pushl (m : Machine) (value : Word) : Machine :=
  let (mem,esp) := push (m.mem,m.esp) value
  {m with mem:=mem,esp:=esp}

def popl (m : Machine) : Word × Machine := (peek m m.esp,{m with esp:=m.esp+4#32})

-- task_switch, entered with the return address and its two arguments on the stack. The
-- flags popfl leaves alone in ring 0 are clear in a kernel.
def taskSwitch (m : Machine) : Machine :=
  let m := {m with eax:=peek m (m.esp+4#32)}
  let m := {m with edx:=peek m (m.esp+8#32)}
  let m := pushl m m.eflags
  let m := pushl m m.ebx
  let m := pushl m m.esi
  let m := pushl m m.edi
  let m := pushl m m.ebp
  let m := {m with mem:=setWord m.mem m.eax.toNat m.esp}
  let m := {m with esp:=m.edx}
  let (ebp,m) := popl m
  let m := {m with ebp:=ebp}
  let (edi,m) := popl m
  let m := {m with edi:=edi}
  let (esi,m) := popl m
  let m := {m with esi:=esi}
  let (ebx,m) := popl m
  let m := {m with ebx:=ebx}
  let (eflags,m) := popl m
  let m := {m with eflags:=eflags}
  let (eip,m) := popl m
  {m with eip:=eip}

-- The stack task_create_ex builds below its top: sp moves down before each store.
def initialStack (mem : Memory) (top taskExit entry : Word) : Memory × Word :=
  let sp := push (mem,top) taskExit
  let sp := push sp entry
  let sp := push sp 0x202#32
  let sp := push sp 0#32
  let sp := push sp 0#32
  let sp := push sp 0#32
  push sp 0#32

-- What a switch takes from a stack, from the lowest word up.
structure Frame where
  ebp : Word
  edi : Word
  esi : Word
  ebx : Word
  eflags : Word
  eip : Word

def Frame.words (f : Frame) : List Word := [f.ebp,f.edi,f.esi,f.ebx,f.eflags,f.eip]

-- The frame of a task that calls task_switch; its return address is on the stack already.
def frameOf (m : Machine) : Frame := ⟨m.ebp,m.edi,m.esi,m.ebx,m.eflags,peek m m.esp⟩

-- Memory when the old task is on its stack and its stack pointer is written down.
def parkedMemory (m : Machine) : Memory :=
  let stack := [m.eflags,m.ebx,m.esi,m.edi,m.ebp].foldl push (m.mem,m.esp)
  setWord stack.1 (peek m (m.esp+4#32)).toNat stack.2

variable {m : Machine} {f : Frame} {sp : Nat}

-- The whole of a switch: what is stored first and what is loaded from there.
theorem switch_result (m : Machine) : taskSwitch m =
    let mem := parkedMemory m
    let sp := peek m (m.esp+8#32)
    {mem:=mem,esp:=sp+4#32+4#32+4#32+4#32+4#32+4#32,ebp:=word mem sp.toNat,edi:=word mem (sp+4#32).toNat,
      esi:=word mem (sp+4#32+4#32).toNat,ebx:=word mem (sp+4#32+4#32+4#32).toNat,
      eflags:=word mem (sp+4#32+4#32+4#32+4#32).toNat,eip:=word mem (sp+4#32+4#32+4#32+4#32+4#32).toNat,
      eax:=peek m (m.esp+4#32),edx:=sp} := by
  simp only [taskSwitch,parkedMemory,pushl,popl,peek,List.foldl_cons,List.foldl_nil]

theorem switch_saves (m : Machine) : (taskSwitch m).mem = parkedMemory m := by rw [switch_result]

attribute [irreducible] taskSwitch

-- The other half loads the frame it finds at the new stack pointer.
structure Resumed (m : Machine) (f : Frame) (sp : Nat) : Prop where
  ebp : m.ebp = f.ebp
  edi : m.edi = f.edi
  esi : m.esi = f.esi
  ebx : m.ebx = f.ebx
  eflags : m.eflags = f.eflags
  eip : m.eip = f.eip
  esp : m.esp.toNat = sp

theorem switch_loads (holds : Holds (parkedMemory m) (peek m (m.esp+8#32)).toNat f.words)
    (room : (peek m (m.esp+8#32)).toNat+24 < 2^32) : Resumed (taskSwitch m) f ((peek m (m.esp+8#32)).toNat+24) := by
  rw [switch_result]
  generalize peek m (m.esp+8#32) = p at *
  have one : (p+4#32).toNat = p.toNat+4 := add_four (by omega)
  have two : (p+4#32+4#32).toNat = p.toNat+8 := by rw [add_four (by omega),one]
  have three : (p+4#32+4#32+4#32).toNat = p.toNat+12 := by rw [add_four (by omega),two]
  have four : (p+4#32+4#32+4#32+4#32).toNat = p.toNat+16 := by rw [add_four (by omega),three]
  have five : (p+4#32+4#32+4#32+4#32+4#32).toNat = p.toNat+20 := by rw [add_four (by omega),four]
  have six : (p+4#32+4#32+4#32+4#32+4#32+4#32).toNat = p.toNat+24 := by rw [add_four (by omega),five]
  obtain ⟨first,second,third,fourth,fifth,sixth,_⟩ := holds
  refine ⟨?_,?_,?_,?_,?_,?_,?_⟩
  all_goals dsimp only
  · exact first
  · rw [one,second]
  · rw [two,third]
  · rw [three,fourth]
  · rw [four,fifth]
  · rw [five,sixth]
  · exact six

-- What a call of task_switch leaves on the stack it is made on, at `esp`, and that it
-- changes nothing else but the place its first argument names.
structure Parked (m : Machine) (cell : Nat) : Prop where
  words : Holds (parkedMemory m) (m.esp.toNat-20) (frameOf m).words
  pointer : (word (parkedMemory m) cell).toNat = m.esp.toNat-20
  outside : ∀ x,x < m.esp.toNat-20 ∨ m.esp.toNat ≤ x → x < cell ∨ cell+4 ≤ x → parkedMemory m x = m.mem x

theorem switch_parks (named : (peek m (m.esp+4#32)).toNat = cell) (room : 20 ≤ m.esp.toNat)
    (apart : cell+4 ≤ m.esp.toNat-20 ∨ m.esp.toNat+4 ≤ cell) : Parked m cell := by
  have pushed := push_all m.mem m.esp [m.eflags,m.ebx,m.esi,m.edi,m.ebp] room
  have written : parkedMemory m = setWord ([m.eflags,m.ebx,m.esi,m.edi,m.ebp].foldl push (m.mem,m.esp)).1
    (peek m (m.esp+4#32)).toNat ([m.eflags,m.ebx,m.esi,m.edi,m.ebp].foldl push (m.mem,m.esp)).2 := rfl
  generalize [m.eflags,m.ebx,m.esi,m.edi,m.ebp].foldl push (m.mem,m.esp) = stack at pushed written
  have pointer : stack.2.toNat+20 = m.esp.toNat := pushed.pointer
  have lower : stack.2.toNat = m.esp.toNat-20 := by omega
  have same : ∀ x,x < cell ∨ cell+4 ≤ x → setWord stack.1 (peek m (m.esp+4#32)).toNat stack.2 x = stack.1 x := by
    intro x outside
    exact set_outside _ _ (by omega)
  refine ⟨?_,?_,?_⟩
  · have saved := pushed.words
    rw [lower] at saved
    have kept := holds_congr saved fun x above below => same x (by
      simp only [List.length_reverse,List.length_cons,List.length_nil] at below
      omega)
    rw [←written] at kept
    obtain ⟨ebp,edi,esi,ebx,eflags,_⟩ := kept
    refine ⟨ebp,edi,esi,ebx,eflags,?_,trivial⟩
    rw [show m.esp.toNat-20+4+4+4+4+4 = m.esp.toNat by omega]
    refine word_congr fun x inside => ?_
    rw [written,same _ (by omega),pushed.outside _ (by omega)]
  · rw [written,named,word_set,lower]
  · intro x below outside
    rw [written,same x outside,pushed.outside x (by omega)]

-- The frame of a task that has never run.
def firstFrame (entry : Word) : Frame := ⟨0#32,0#32,0#32,0#32,0x202#32,entry⟩

structure Built (mem : Memory) (top taskExit entry : Word) (stack : Memory × Word) : Prop where
  words : Holds stack.1 (top.toNat-28) (firstFrame entry).words
  leave : word stack.1 (top.toNat-4) = taskExit
  pointer : stack.2.toNat = top.toNat-28
  outside : ∀ x,x < top.toNat-28 ∨ top.toNat ≤ x → stack.1 x = mem x

theorem stack_built (mem : Memory) (taskExit entry : Word) (room : 28 ≤ top.toNat) :
    Built mem top taskExit entry (initialStack mem top taskExit entry) := by
  have pushed := push_all mem top [taskExit,entry,0x202#32,0#32,0#32,0#32,0#32] room
  change Built mem top taskExit entry ([taskExit,entry,0x202#32,0#32,0#32,0#32,0#32].foldl push (mem,top))
  generalize [taskExit,entry,0x202#32,0#32,0#32,0#32,0#32].foldl push (mem,top) = stack at pushed ⊢
  have pointer : stack.2.toNat+28 = top.toNat := pushed.pointer
  have lower : stack.2.toNat = top.toNat-28 := by omega
  have words := pushed.words
  rw [lower] at words
  obtain ⟨ebp,edi,esi,ebx,eflags,eip,leave,_⟩ := words
  refine ⟨⟨ebp,edi,esi,ebx,eflags,eip,trivial⟩,?_,lower,fun x outside => pushed.outside x (by omega)⟩
  rw [show top.toNat-28+4+4+4+4+4+4 = top.toNat-4 by omega] at leave
  exact leave

-- Where the tasks are: each has the address of its struct, whose first field is esp, and
-- a stack of its own. No two of these share a byte.
structure Layout (Task : Type) where
  taskExit : Word
  cell : Task → Word
  low : Task → Nat
  top : Task → Word
  cells : ∀ i j,i ≠ j → (cell i).toNat+4 ≤ (cell j).toNat ∨ (cell j).toNat+4 ≤ (cell i).toNat
  disjoint : ∀ i j,i ≠ j → (top i).toNat ≤ low j ∨ (top j).toNat ≤ low i
  apart : ∀ i j,(cell i).toNat+4 ≤ low j ∨ (top j).toNat ≤ (cell i).toNat

variable {Task : Type}

-- The tasks there are and the one that runs.
structure World (Task : Type) where
  machine : Machine
  current : Task
  created : List Task

inductive Event (Task : Type) where
  | work
  | switch (next : Task)
  | create (task : Task) (entry : Word)

-- What is kept for a task that does not run: its saved stack pointer and its stack from
-- there up.
def saved (L : Layout Task) (mem : Memory) (i : Task) : Nat := (word mem (L.cell i).toNat).toNat
def Reserved (L : Layout Task) (mem : Memory) (i : Task) (x : Nat) : Prop :=
  (L.cell i).toNat ≤ x ∧ x < (L.cell i).toNat+4 ∨ saved L mem i ≤ x ∧ x < (L.top i).toNat

-- task_switch(&prev->esp, next->esp), called on the stack of the task that runs.
structure Calling (L : Layout Task) (s : World Task) (next : Task) : Prop where
  room : L.low s.current+20 ≤ s.machine.esp.toNat ∧ s.machine.esp.toNat+12 ≤ (L.top s.current).toNat
  save : peek s.machine (s.machine.esp+4#32) = L.cell s.current
  load : peek s.machine (s.machine.esp+8#32) = word s.machine.mem (L.cell next).toNat

def createdMemory (L : Layout Task) (mem : Memory) (i : Task) (entry : Word) : Memory :=
  let stack := initialStack mem (L.top i) L.taskExit entry
  setWord stack.1 (L.cell i).toNat stack.2

-- The task that runs may do anything but touch what is kept for the others.
def switching (L : Layout Task) : System (World Task) (Event Task) where
  initial s := s.created = [s.current]
  step s event after := match event with
    | .work => after.current = s.current ∧ after.created = s.created ∧
        ∀ i ∈ s.created,i ≠ s.current → ∀ x,Reserved L s.machine.mem i x → after.machine.mem x = s.machine.mem x
    | .switch next => next ∈ s.created ∧ next ≠ s.current ∧ Calling L s next ∧
        after = {s with machine:=taskSwitch s.machine,current:=next}
    | .create i entry => i ∉ s.created ∧ L.low i+28 ≤ (L.top i).toNat ∧
        after = {s with machine:={s.machine with mem:=createdMemory L s.machine.mem i entry},created:=i::s.created}

variable {L : Layout Task} {s first middle final after : World Task} {mem : Memory} {i : Task}

def Kept (L : Layout Task) (mem after : Memory) (i : Task) : Prop := ∀ x,Reserved L mem i x → after x = mem x

theorem kept_saved {after : Memory} (kept : Kept L mem after i) : saved L after i = saved L mem i :=
  congrArg BitVec.toNat (word_congr fun x inside => kept _ (.inl ⟨by omega,by omega⟩))

theorem kept_trans {middle after : Memory} (first : Kept L mem middle i) (second : Kept L middle after i) : Kept L mem after i := by
  intro x reserved
  have same := kept_saved first
  refine (second x ?_).trans (first x reserved)
  unfold Reserved at reserved ⊢
  rwa [same]

-- Every task that waits has its frame inside its own stack.
def Standing (L : Layout Task) (s : World Task) : Prop :=
  ∀ i ∈ s.created,i ≠ s.current → L.low i ≤ saved L s.machine.mem i ∧ saved L s.machine.mem i+24 ≤ (L.top i).toNat

theorem calling_parks (calling : Calling L s next) : Parked s.machine (L.cell s.current).toNat := by
  obtain ⟨lower,upper⟩ := calling.room
  have apart := L.apart s.current s.current
  exact switch_parks (congrArg BitVec.toNat calling.save) (by omega) (by omega)

theorem step_kept (standing : Standing L s) (there : i ∈ s.created) (waits : i ≠ s.current)
    (step : (switching L).step s event after) : Kept L s.machine.mem after.machine.mem i := by
  obtain ⟨low,_⟩ := standing i there waits
  cases event with
  | work => exact step.2.2 i there waits
  | switch next =>
    obtain ⟨_,_,calling,rfl⟩ := step
    obtain ⟨lower,upper⟩ := calling.room
    have parked := calling_parks calling
    have cells := L.cells i s.current waits
    have stacksApart := L.disjoint i s.current waits
    have mine := L.apart i s.current
    have others := L.apart s.current i
    intro x reserved
    change (taskSwitch s.machine).mem x = s.machine.mem x
    rw [switch_saves]
    exact parked.outside x (by unfold Reserved at reserved; omega) (by unfold Reserved at reserved; omega)
  | create j entry =>
    obtain ⟨new,room,rfl⟩ := step
    have different : i ≠ j := fun same => new (same ▸ there)
    have built : Built s.machine.mem (L.top j) L.taskExit entry (initialStack s.machine.mem (L.top j) L.taskExit entry) :=
      stack_built _ _ _ (by omega)
    have cells := L.cells i j different
    have stacksApart := L.disjoint i j different
    have mine := L.apart i j
    have others := L.apart j i
    intro x reserved
    change setWord _ (L.cell j).toNat _ x = s.machine.mem x
    rw [set_outside _ _ (by unfold Reserved at reserved; omega)]
    exact built.outside x (by unfold Reserved at reserved; omega)

theorem created_parts (room : L.low i+28 ≤ (L.top i).toNat) (mem : Memory) (entry : Word) :
    saved L (createdMemory L mem i entry) i = (L.top i).toNat-28 ∧
    Holds (createdMemory L mem i entry) ((L.top i).toNat-28) (firstFrame entry).words ∧
    word (createdMemory L mem i entry) ((L.top i).toNat-4) = L.taskExit := by
  have built : Built mem (L.top i) L.taskExit entry (initialStack mem (L.top i) L.taskExit entry) := stack_built _ _ _ (by omega)
  have mine := L.apart i i
  refine ⟨?_,?_,?_⟩
  · rw [saved,createdMemory,word_set,built.pointer]
  · refine holds_congr built.words fun x above below => set_outside _ _ ?_
    change x < _+24 at below
    omega
  · refine Eq.trans (word_congr fun x inside => set_outside _ _ ?_) built.leave
    omega

theorem step_standing (standing : Standing L s) (step : (switching L).step s event after) : Standing L after := by
  intro i there waits
  by_cases old : i ∈ s.created ∧ i ≠ s.current
  · rw [kept_saved (step_kept standing old.1 old.2 step)]
    exact standing i old.1 old.2
  · cases event with
    | work =>
      obtain ⟨current,created,_⟩ := step
      rw [current] at waits
      rw [created] at there
      exact absurd ⟨there,waits⟩ old
    | switch next =>
      obtain ⟨_,_,calling,rfl⟩ := step
      obtain rfl : i = s.current := by
        by_contra other
        exact old ⟨there,other⟩
      obtain ⟨lower,upper⟩ := calling.room
      have pointer : saved L (taskSwitch s.machine).mem s.current = s.machine.esp.toNat-20 := by
        rw [switch_saves]
        exact (calling_parks calling).pointer
      dsimp only
      omega
    | create j entry =>
      obtain ⟨_,room,rfl⟩ := step
      rcases List.mem_cons.mp there with rfl | there
      · have pointer := (created_parts room s.machine.mem entry).1
        dsimp only
        omega
      · exact absurd ⟨there,waits⟩ old

theorem reached_standing (reached : Reached (switching L) s) : Standing L s := by
  refine reached.invariant (fun s only i there waits => ?_) fun _ _ _ standing step => step_standing standing step
  rw [show s.created = [s.current] from only] at there
  exact absurd (List.mem_singleton.mp there) waits

-- A task that waits and is not switched to goes on waiting, and nobody touches what is
-- kept for it.
structure Waiting (L : Layout Task) (first middle : World Task) (i : Task) : Prop where
  standing : Standing L middle
  created : i ∈ middle.created
  waits : i ≠ middle.current
  kept : Kept L first.machine.mem middle.machine.mem i

theorem step_waiting (waiting : Waiting L first middle i) (step : (switching L).step middle event after)
    (away : ∀ next,event = .switch next → next ≠ i) : Waiting L first after i := by
  have standing := step_standing waiting.standing step
  have kept := kept_trans waiting.kept (step_kept waiting.standing waiting.created waiting.waits step)
  cases event with
  | work =>
    obtain ⟨current,created,_⟩ := step
    exact ⟨standing,by rw [created]; exact waiting.created,by rw [current]; exact waiting.waits,kept⟩
  | switch next =>
    obtain ⟨_,_,_,rfl⟩ := step
    exact ⟨standing,waiting.created,(away next rfl).symm,kept⟩
  | create j entry =>
    obtain ⟨_,_,rfl⟩ := step
    exact ⟨standing,List.mem_cons_of_mem _ waiting.created,waiting.waits,kept⟩

theorem run_waiting (start : Waiting L first first i) (path : Runs (switching L) first events middle)
    (away : ∀ next,.switch next ∈ events → next ≠ i) : Waiting L first middle i := by
  induction path with
  | nil => exact start
  | step prior step ih =>
    have earlier := ih fun next member => away next (List.mem_append_left _ member)
    refine step_waiting earlier step fun next same => away next ?_
    rw [same]
    exact List.mem_append_right _ (List.mem_singleton_self _)

theorem waiting_resumed (waiting : Waiting L first middle i) (step : (switching L).step middle (.switch i) final)
    (holds : Holds first.machine.mem (saved L first.machine.mem i) f.words) :
    Resumed final.machine f (saved L first.machine.mem i+24) ∧ Kept L first.machine.mem final.machine.mem i := by
  have kept := kept_trans waiting.kept (step_kept waiting.standing waiting.created waiting.waits step)
  obtain ⟨low,room⟩ := waiting.standing i waiting.created waiting.waits
  obtain ⟨_,_,calling,rfl⟩ := step
  have place : (peek middle.machine (middle.machine.esp+8#32)).toNat = saved L first.machine.mem i := by
    rw [calling.load]
    exact kept_saved waiting.kept
  have small := (L.top i).isLt
  rw [kept_saved waiting.kept] at room
  have memory : (taskSwitch middle.machine).mem = parkedMemory middle.machine := switch_saves _
  have frame : Holds (parkedMemory middle.machine) (peek middle.machine (middle.machine.esp+8#32)).toNat f.words := by
    rw [place,←memory]
    refine holds_congr holds fun x above below => kept x (.inr ⟨above,?_⟩)
    change x < _+24 at below
    omega
  have resumed := switch_loads frame (by omega)
  rw [place] at resumed
  exact ⟨resumed,kept⟩

def Present (s : World Task) : Prop := s.current ∈ s.created

theorem reached_present (reached : Reached (switching L) s) : Present s := by
  refine reached.invariant (fun s only => ?_) fun s event after member step => ?_
  · rw [Present,show s.created = [s.current] from only]
    exact List.mem_singleton_self _
  · cases event with
    | work =>
      obtain ⟨current,created,_⟩ := step
      rw [Present,current,created]
      exact member
    | switch next =>
      obtain ⟨there,_,_,rfl⟩ := step
      exact there
    | create j entry =>
      obtain ⟨_,_,rfl⟩ := step
      exact List.mem_cons_of_mem _ member

-- Between the two switches the other tasks run, are switched between and make new ones.
structure Away (L : Layout Task) (first final : World Task) (i : Task) : Prop where
  path : ∃ events middle,Runs (switching L) first events middle ∧ (∀ next,.switch next ∈ events → next ≠ i) ∧
    (switching L).step middle (.switch i) final

theorem away_resumed (standing : Standing L first) (there : i ∈ first.created) (waits : i ≠ first.current) (away : Away L first final i)
    (holds : Holds first.machine.mem (saved L first.machine.mem i) f.words) :
    Resumed final.machine f (saved L first.machine.mem i+24) ∧ Kept L first.machine.mem final.machine.mem i := by
  obtain ⟨events,middle,path,others,step⟩ := away.path
  exact waiting_resumed (run_waiting ⟨standing,there,waits,fun _ _ => rfl⟩ path others) step holds

-- A task goes on where it called task_switch, with the registers and the stack it had; one
-- that has never run starts at its entry point.
theorem switches_round_trip (reached : Reached (switching L) s) :
    (∀ other first final,(switching L).step s (.switch other) first → Away L first final s.current →
      Resumed final.machine (frameOf s.machine) (s.machine.esp.toNat+4) ∧
      ∀ x,s.machine.esp.toNat ≤ x → x < (L.top s.current).toNat → final.machine.mem x = s.machine.mem x) ∧
    ∀ i entry first final,(switching L).step s (.create i entry) first → Away L first final i →
      Resumed final.machine (firstFrame entry) ((L.top i).toNat-4) ∧ word final.machine.mem final.machine.esp.toNat = L.taskExit := by
  have standing := reached_standing reached
  have current := reached_present reached
  constructor
  · intro other first final step away
    have still := step_standing standing step
    obtain ⟨_,different,calling,rfl⟩ := step
    obtain ⟨lower,upper⟩ := calling.room
    have parked := calling_parks calling
    have memory : (taskSwitch s.machine).mem = parkedMemory s.machine := switch_saves _
    have pointer : saved L (taskSwitch s.machine).mem s.current = s.machine.esp.toNat-20 := by
      rw [memory]
      exact parked.pointer
    have mine := L.apart s.current s.current
    obtain ⟨resumed,kept⟩ := away_resumed (f:=frameOf s.machine) still current different.symm away (by
      dsimp only
      rw [pointer,memory]
      exact parked.words)
    dsimp only at resumed kept
    rw [pointer,show s.machine.esp.toNat-20+24 = s.machine.esp.toNat+4 by omega] at resumed
    refine ⟨resumed,fun x above below => ?_⟩
    rw [kept x (.inr ⟨by omega,below⟩),memory]
    exact parked.outside x (by omega) (by omega)
  · intro i entry first final step away
    have still := step_standing standing step
    obtain ⟨new,room,rfl⟩ := step
    obtain ⟨pointer,words,leave⟩ := created_parts room s.machine.mem entry
    obtain ⟨resumed,kept⟩ := away_resumed (f:=firstFrame entry) still (List.mem_cons_self ..) (fun same => new (same ▸ current)) away (by
      dsimp only
      rw [pointer]
      exact words)
    dsimp only at resumed kept
    rw [pointer,show (L.top i).toNat-28+24 = (L.top i).toNat-4 by omega] at resumed
    refine ⟨resumed,?_⟩
    rw [resumed.esp,←leave]
    exact word_congr fun x inside => kept _ (.inr ⟨by omega,by omega⟩)

-- Two tasks; the first makes the second and calls it, the second calls back.
def pairLayout : Layout Bool where
  taskExit := 0x700#32
  cell i := if i then 0x200#32 else 0x100#32
  low i := if i then 0x3000 else 0x1000
  top i := if i then 0x4000#32 else 0x2000#32
  cells := by decide
  disjoint := by decide
  apart := by decide

def callArguments (mem : Memory) (esp : Nat) (own next : Word) : Memory :=
  setWord (setWord (setWord mem esp 0x600#32) (esp+4) own) (esp+8) next

def alone : World Bool :=
  ⟨⟨callArguments (fun _ => 0#8) 0x1800 0x100#32 0x3FE4#32,0x1800#32,1#32,2#32,3#32,4#32,0#32,0#32,0x246#32,0#32⟩,false,[false]⟩
def paired : World Bool :=
  {alone with machine:={alone.machine with mem:=createdMemory pairLayout alone.machine.mem true 0x500#32},created:=[true,false]}
def started : World Bool := {paired with machine:=taskSwitch paired.machine,current:=true}
def worked : World Bool :=
  {started with machine:={started.machine with
    mem:=callArguments started.machine.mem 0x3F00 0x200#32 0x17EC#32,esp:=0x3F00#32,ebp:=9#32,ebx:=9#32,eflags:=2#32}}
def resumed : World Bool := {worked with machine:=taskSwitch worked.machine,current:=false}

theorem paired_words : peek paired.machine 0x1804#32 = 0x100#32 ∧ peek paired.machine 0x1808#32 = word paired.machine.mem 0x200 ∧
    peek worked.machine 0x3F04#32 = 0x200#32 ∧ peek worked.machine 0x3F08#32 = word worked.machine.mem 0x100 := by
  decide +kernel

theorem switches_round_trip_pair :
    Resumed started.machine (firstFrame 0x500#32) 0x3FFC ∧ Resumed resumed.machine (frameOf paired.machine) 0x1804 := by
  obtain ⟨one,two,three,four⟩ := paired_words
  have created : (switching pairLayout).step alone (.create true 0x500#32) paired := ⟨by decide,by decide,rfl⟩
  have called : (switching pairLayout).step paired (.switch true) started :=
    ⟨by decide,by decide,⟨⟨by decide,by decide⟩,one,two⟩,rfl⟩
  have work : (switching pairLayout).step started .work worked := by
    refine ⟨rfl,rfl,fun i member other x reserved => ?_⟩
    cases i with
    | true => exact absurd rfl other
    | false =>
      have place : x < 0x2000 := by
        rcases reserved with ⟨_,cell⟩ | ⟨_,stack⟩
        · change x < 0x104 at cell
          omega
        · exact stack
      change callArguments started.machine.mem 0x3F00 0x200#32 0x17EC#32 x = _
      rw [callArguments,set_outside _ _ (by omega),set_outside _ _ (by omega),set_outside _ _ (by omega)]
  have back : (switching pairLayout).step worked (.switch false) resumed :=
    ⟨by decide,by decide,⟨⟨by decide,by decide⟩,three,four⟩,rfl⟩
  have start : Reached (switching pairLayout) alone := ⟨alone,[],rfl,.nil⟩
  refine ⟨((switches_round_trip start).2 true 0x500#32 paired started created ⟨⟨[],paired,.nil,nofun,called⟩⟩).1,?_⟩
  refine ((switches_round_trip ⟨alone,_,rfl,.step .nil created⟩).1 true started resumed called ⟨⟨_,worked,.step .nil work,?_,back⟩⟩).1
  intro next member
  cases List.mem_singleton.mp member

end Arthic.ContextSwitch
