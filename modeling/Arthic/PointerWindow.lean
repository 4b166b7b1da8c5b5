import Arthic.Processes
import Arthic.SyscallSafety

namespace Arthic.PointerWindow
open ByteMemory Loader Paging Pmm Processes Scheduler Syscalls SyscallSafety Transition Unsigned Usermode

-- What a task is doing: it has not run yet, it runs in the kernel, program_task has set
-- the window and not jumped yet, or it is in ring 3, in a program or in the demo. A system
-- call or an interrupt on the way does not change this.
inductive Mode where
  | fresh
  | kernel
  | armed
  | program
  | demo
  deriving DecidableEq

-- The kernel, the variables of syscall.c and usermode.c, and for every task's serial what
-- it is doing. `begun` is no variable of the source: some program_task has set the window.
structure World where
  host : Host
  gate : Gate
  userStackTop : Nat
  mode : Nat → Mode
  begun : Bool

def World.sched (w : World) : Sched := w.host.kernel.sched
def World.self (w : World) : Task := w.sched.tasks w.sched.current
def World.now (w : World) : Mode := w.mode w.self.serial
def become (w : World) (serial : Nat) (mode : Mode) : World := {w with mode:=Function.update w.mode serial mode}

-- The exit functions of the tasks that were reaped are called.
def setSched (w : World) (s : Sched) : World :=
  {w with host:={w.host with kernel:=settle {w.host.kernel with sched:=s} w.sched.exits.length}}

def say (w : World) (text : String) : World := setSched w (kprintf w.sched text)

-- The entry function of a task that loader_run made. What another task's entry does is
-- the kernel's own code.
def programTask (w : World) : World :=
  if w.self.arg = 0 then become (say w "loader: task started with no program attached\n") w.self.serial .kernel
  else become {w with gate:=syscallSetUserRange w.gate userLoadAddr userStackTop,begun:=true} w.self.serial .armed

def begin_ (w : World) : World :=
  if w.self.onExit = Loader.programCleanup then programTask w else become w w.self.serial .kernel

def usermodeRun (w : World) (esp : Nat) : World :=
  if w.userStackTop = 0 then say w "usermode: not initialised\n"
  else become (setSched w {w.sched with kernelStack:=wrapSub 32 esp 256}) w.self.serial .demo

-- usermode_exit goes back to where usermode_run was called.
def dispatch (w : World) (bytes : Memory) (moved : Nat) (regs : Registers) : World :=
  let served := syscallDispatch w.gate w.sched bytes moved regs
  let after := {setSched w served.sched with gate:=served.gate}
  match served.reply with
  | .unwound => become after w.self.serial .kernel
  | _ => after

def fault (w : World) (resume : Nat) (f : Fault) : World :=
  let (text,end_) := pageFaultHandler resume (w.self.onExit != 0) f
  let s := kprintf w.sched text
  match end_ with
  | .terminated => setSched w (taskTerminate s)
  | .unwound => become (setSched w s) w.self.serial .kernel
  | _ => setSched w s

inductive Label where
  | act (act : Act)
  | begin_
  | jump
  | usermodeRun (esp : Nat)
  | syscall (bytes : Memory) (moved : Nat) (regs : Registers)
  | fault (resume : Nat) (f : Fault)
  | pipe (pipe : Pipes.Pipe)

def apply (w : World) : Label → World
  | .act act => {w with host:=Processes.apply w.host act}
  | .begin_ => begin_ w
  | .jump => become w w.self.serial .program
  | .usermodeRun esp => usermodeRun w esp
  | .syscall bytes moved regs => dispatch w bytes moved regs
  | .fault resume f => fault w resume f
  | .pipe pipe => {w with gate:={w.gate with ipcPipe:=pipe}}

-- Only loader.c passes program_cleanup to task_create_ex.
def Allowed (w : World) : Label → Prop
  | .act (.call (.taskCreateEx _ _ onExit)) => onExit ≠ Loader.programCleanup
  | .act act => Processes.Allowed w.host act
  | .begin_ => w.now = .fresh
  | .jump => w.now = .armed
  | .usermodeRun _ => w.now = .kernel
  | .syscall _ _ _ => w.now = .program ∨ w.now = .demo
  | .fault _ _ => w.now = .program ∨ w.now = .demo
  | .pipe _ => True

-- usermode_init and task_init are done; task 0 is the kernel's.
structure Started (image : Image) (kernelEnd : Nat) (mbi : MultibootInfo) (w : World) : Prop where
  demo : ∃ m,m.image = image ∧ w.gate = (usermodeInit m {}).gate ∧ w.userStackTop = (usermodeInit m {}).userStackTop ∧
    w.host.kernel.mmu = (usermodeInit m {}).mmu
  host : Processes.Started kernelEnd mbi w.host
  modes : ∀ serial,w.mode serial = if serial = 0 then .kernel else .fresh
  waiting : w.begun = false

def userland (image : Image) (kernelEnd : Nat) (mbi : MultibootInfo) : System World Label :=
  guarded (Started image kernelEnd mbi) Allowed apply

def window (w : World) : Nat × Nat := (w.gate.userRangeStart,w.gate.userRangeEnd)

-- The window that belongs to what is running in ring 3.
def windowOf (image : Image) (w : World) : Mode → Option (Nat × Nat)
  | .program => some (userLoadAddr,Loader.userStackTop)
  | .demo => some (image.userTextStart,w.userStackTop)
  | _ => none

structure Kept (image : Image) (w : World) : Prop where
  after : w.begun = true → window w = (userLoadAddr,Loader.userStackTop)
  before : w.begun = false → w.userStackTop ≠ 0 → window w = (image.userTextStart,w.userStackTop)
  none : w.begun = false → ∀ serial,w.mode serial ≠ .armed ∧ w.mode serial ≠ .program
  demo : ∀ serial,w.mode serial = .demo → w.userStackTop ≠ 0

theorem makeUserPage_fixed (flags : PageTree.Entry) (m : Mmu) (addr : Nat) :
    (makeUserPage flags m addr).image = m.image ∧ (makeUserPage flags m addr).active = m.active := by
  unfold makeUserPage pagingSetFlags
  dsimp only
  split
  · split
    · exact ⟨rfl,rfl⟩
    · exact ⟨rfl,rfl⟩
  · split
    · exact ⟨rfl,rfl⟩
    · exact ⟨rfl,rfl⟩

theorem makeUser_fixed (m : Mmu) (start end_ : Nat) (writable : Bool) :
    (pagingMakeUser m start end_ writable).image = m.image ∧ (pagingMakeUser m start end_ writable).active = m.active := by
  unfold pagingMakeUser
  generalize pagesFrom (roundDown start) end_ = pages
  induction pages generalizing m with
  | nil => exact ⟨rfl,rfl⟩
  | cons addr pages ih =>
    obtain ⟨image,active⟩ := makeUserPage_fixed (if writable then _ else _) m addr
    obtain ⟨sameImage,sameActive⟩ := ih (makeUserPage _ m addr)
    exact ⟨sameImage.trans image,sameActive.trans active⟩

theorem usermodeInit_fixed (m : Mmu) (g : Gate) :
    (usermodeInit m g).mmu.image = m.image ∧ (usermodeInit m g).mmu.active = m.active ∧
    ((usermodeInit m g).userStackTop ≠ 0 →
      (usermodeInit m g).gate = syscallSetUserRange g m.image.userTextStart (usermodeInit m g).userStackTop) := by
  unfold usermodeInit
  dsimp only
  split
  · exact ⟨rfl,rfl,fun none => absurd rfl none⟩
  · dsimp only
    simp only [makeUser_fixed,implies_true,and_self]

theorem started_kept (started : Started image kernelEnd mbi w) : Kept image w := by
  obtain ⟨m,rfl,gate,top,_⟩ := started.demo
  have modes := started.modes
  refine ⟨?_,?_,?_,?_⟩
  · intro begun
    rw [started.waiting] at begun
    cases begun
  · intro _ some
    rw [top] at some ⊢
    rw [window,gate,(usermodeInit_fixed m {}).2.2 some]
    rfl
  · intro _ serial
    rw [modes serial]
    split
    · exact ⟨nofun,nofun⟩
    · exact ⟨nofun,nofun⟩
  · intro serial running
    rw [modes serial] at running
    split at running
    · cases running
    · cases running

-- What leaves the window and the modes as they are.
theorem kept_same (kept : Kept image w) (window : (after.gate.userRangeStart,after.gate.userRangeEnd) =
    (w.gate.userRangeStart,w.gate.userRangeEnd)) (rest : (after.userStackTop,after.mode,after.begun) =
    (w.userStackTop,w.mode,w.begun)) : Kept image after := by
  simp only [Prod.mk.injEq] at rest
  obtain ⟨top,mode,begun⟩ := rest
  refine ⟨?_,?_,?_,?_⟩
  · rw [begun,PointerWindow.window,window]
    exact kept.after
  · rw [begun,top,PointerWindow.window,window]
    exact kept.before
  · rw [begun,mode]
    exact kept.none
  · rw [mode,top]
    exact kept.demo

-- A task turns to something that needs no window set first.
theorem kept_become (kept : Kept image w) (serial : Nat) (open_ : w.begun = false → mode ≠ .armed ∧ mode ≠ .program)
    (demo : mode = .demo → w.userStackTop ≠ 0) : Kept image (become w serial mode) := by
  refine ⟨kept.after,kept.before,?_,?_⟩
  · intro waiting other
    change Function.update w.mode serial mode other ≠ .armed ∧ Function.update w.mode serial mode other ≠ .program
    by_cases equal : other = serial
    · rw [equal,Function.update_self]
      exact open_ waiting
    · rw [Function.update_of_ne equal]
      exact kept.none waiting other
  · intro other running
    change Function.update w.mode serial mode other = .demo at running
    by_cases equal : other = serial
    · rw [equal,Function.update_self] at running
      exact demo running
    · rw [Function.update_of_ne equal] at running
      exact kept.demo other running

theorem dispatch_window (g : Gate) (s : Sched) (bytes : Memory) (moved : Nat) (regs : Registers) :
    ((syscallDispatch g s bytes moved regs).gate.userRangeStart,(syscallDispatch g s bytes moved regs).gate.userRangeEnd) =
      (g.userRangeStart,g.userRangeEnd) := by
  have started : ((ipcStart g).userRangeStart,(ipcStart g).userRangeEnd) = (g.userRangeStart,g.userRangeEnd) := by
    unfold ipcStart
    split
    · rfl
    · rfl
  unfold syscallDispatch
  split
  · dsimp only
    split
    · rfl
    · rfl
  split
  · rfl
  split
  · rfl
  split
  · rfl
  split
  · dsimp only
    split
    · exact started
    · exact started
  split
  · dsimp only
    split
    · exact started
    · exact started
  split
  · dsimp only
    split
    · rfl
    · rfl
  · rfl

theorem dispatch_kept (kept : Kept image w) (bytes : Memory) (moved : Nat) (regs : Registers) :
    Kept image (dispatch w bytes moved regs) := by
  unfold dispatch
  have served := dispatch_window w.gate w.sched bytes moved regs
  generalize syscallDispatch w.gate w.sched bytes moved regs = answer at *
  have after : Kept image {setSched w answer.sched with gate:=answer.gate} := kept_same kept served rfl
  dsimp only
  split
  · exact kept_become after _ (fun _ => ⟨nofun,nofun⟩) nofun
  · exact after

theorem fault_kept (kept : Kept image w) (resume : Nat) (f : Fault) : Kept image (fault w resume f) := by
  unfold fault
  generalize pageFaultHandler resume (w.self.onExit != 0) f = answer
  obtain ⟨text,end_⟩ := answer
  cases end_ with
  | terminated => exact kept_same kept rfl rfl
  | unwound =>
    have after : Kept image (setSched w (kprintf w.sched text)) := kept_same kept rfl rfl
    exact kept_become after _ (fun _ => ⟨nofun,nofun⟩) nofun
  | resumed eip => exact kept_same kept rfl rfl
  | halted => exact kept_same kept rfl rfl

theorem begin_kept (kept : Kept image w) : Kept image (begin_ w) := by
  unfold begin_
  split
  · unfold programTask
    split
    · have after : Kept image (say w "loader: task started with no program attached\n") := kept_same kept rfl rfl
      exact kept_become after _ (fun _ => ⟨nofun,nofun⟩) nofun
    · have set : Kept image {w with gate:=syscallSetUserRange w.gate userLoadAddr userStackTop,begun:=true} :=
        ⟨fun _ => rfl,nofun,nofun,kept.demo⟩
      exact kept_become set _ nofun nofun
  · exact kept_become kept _ (fun _ => ⟨nofun,nofun⟩) nofun

theorem kept_step (kept : Kept image w) (allowed : Allowed w label) : Kept image (apply w label) := by
  cases label with
  | act act => exact kept_same kept rfl rfl
  | begin_ => exact begin_kept kept
  | jump =>
    refine kept_become kept _ (fun waiting => ?_) nofun
    exact absurd allowed (kept.none waiting _).1
  | usermodeRun esp =>
    simp only [apply,usermodeRun]
    split
    · exact kept_same kept rfl rfl
    · rename_i ready
      have after : Kept image (setSched w {w.sched with kernelStack:=wrapSub 32 esp 256}) := kept_same kept rfl rfl
      exact kept_become after _ (fun _ => ⟨nofun,nofun⟩) fun _ => ready
  | syscall bytes moved regs => exact dispatch_kept kept bytes moved regs
  | fault resume f => exact fault_kept kept resume f
  | pipe pipe => exact kept_same kept rfl rfl

theorem runs_kept (path : Reached (userland image kernelEnd mbi) w) : Kept image w := by
  apply path.invariant
  · exact fun _ => started_kept
  · rintro w label next kept ⟨allowed,rfl⟩
    exact kept_step kept allowed

-- The demo's own window is never set again: it has the right one until the first program
-- runs and another one ever after.
theorem window_matches_caller (path : Reached (userland image kernelEnd mbi) w)
    (made : Allowed w (.syscall bytes moved regs)) :
    (w.now = .program ∨ w.begun = false → windowOf image w w.now = some (window w)) ∧
    (image.userTextStart ≠ userLoadAddr → windowOf image w w.now = some (window w) → w.now = .program ∨ w.begun = false) := by
  have kept := runs_kept path
  have inRing : w.now = .program ∨ w.now = .demo := made
  rcases inRing with program | demo
  · refine ⟨fun _ => ?_,fun _ _ => .inl program⟩
    cases begun : w.begun with
    | false => exact absurd program (kept.none begun _).2
    | true => rw [program,windowOf,kept.after begun]
  · rw [demo]
    refine ⟨?_,?_⟩
    · rintro (other | waiting)
      · cases other
      · rw [windowOf,kept.before waiting (kept.demo _ demo)]
    · intro apart same
      cases begun : w.begun with
      | false => exact .inr rfl
      | true =>
        rw [windowOf,kept.after begun] at same
        exact absurd (congrArg Prod.fst (Option.some.inj same)) apart

-- A machine of 640 frames as kernel_main leaves it: two page tables, the heap behind them,
-- the demo's stack, the shell, and a disk with one program.
def bootMap : MultibootInfo := ⟨0x40#32,[⟨0x100000#64,0x180000#64,1#32⟩]⟩
@[irreducible] def bootStart : Pmm.State 32 :=
  pmmInitWith (totalFrames32 bootMap.mmap) region32 0x105000 (fun _ => 0#32) bootMap.mmap
def emptyFrames : Pmm.State 32 :=
  ⟨fun word => if word < 8 then 0xFFFFFFFF#32 else if word = 8 then 0x3F#32 else 0#32,640,262⟩

theorem boot_alike : PmmOwnership.Alike bootStart emptyFrames := by
  have total : totalFrames32 bootMap.mmap = 640 := by decide
  have region : region32 ⟨0x100000#64,0x180000#64,1#32⟩ = some (0x100000,0x180000) := by decide
  obtain ⟨same,test⟩ := PmmOwnership.init_one region (by decide) (totalFrames32 bootMap.mmap) 0x105000 fun _ => 0#32
  unfold bootStart
  refine ⟨same.trans total,fun frame below => ?_⟩
  change frameTest (pmmInitWith _ _ _ _ [⟨0x100000#64,0x180000#64,1#32⟩]) frame = _
  rw [test,total]
  revert frame
  decide +kernel

def bootLedger : PmmOwnership.Ledger 32 := PmmOwnership.apply (PmmOwnership.apply ⟨bootStart,[]⟩ .allocFrame) .allocFrame

theorem bootLedger_reached : Reached (PmmOwnership.allocator 32 0x105000 bootMap) bootLedger := by
  have boots : pmmInit32 0x105000 (fun _ => 0#32) bootMap = some bootStart := by
    unfold bootStart pmmInit32
    rw [if_neg (by decide)]
  exact ⟨⟨bootStart,[]⟩,_,⟨.kernel32 boots,rfl⟩,(Runs.nil.act trivial).act trivial⟩

theorem twoTaken_pmm (p : Pmm.State 32) : (PmmOwnership.apply (PmmOwnership.apply ⟨p,[]⟩ .allocFrame) .allocFrame).pmm =
    (pmmAllocFrame (pmmAllocFrame p).2).2 := rfl

theorem boot_base : (pmmAllocFrames bootLedger.pmm Kheap.heapFrames).1 = 0x108000 := by
  have first := (PmmOwnership.alike_allocFrame (by decide) boot_alike).2
  have second := (PmmOwnership.alike_allocFrame (by decide) first).2
  rw [bootLedger,twoTaken_pmm,(PmmOwnership.alike_allocFrames (by decide) second Kheap.heapFrames).1]
  decide +kernel

theorem boot_heap : Reached (KheapRuns.allocator .i386 0x105000 bootMap) ⟨KheapRuns.freshHeap .i386 0x108000,[]⟩ := by
  have fresh := KheapRuns.init_fresh bootLedger.pmm boot_base (by decide)
  exact ⟨_,[],⟨⟨⟨fun _ => 0#8,0,0⟩,bootLedger,rfl,bootLedger_reached,fresh.symm⟩,rfl⟩,.nil⟩

def heapFramesTaken : Pmm.State 32 :=
  ⟨fun word => if word < 16 then 0xFFFFFFFF#32 else if word = 16 then 0xFF#32 else 0#32,640,520⟩
def bootMmu : Mmu := ⟨smallImage,bootMem,heapFramesTaken,0x103000,0x400000,2,true⟩
def bootDemo : Demo := usermodeInit bootMmu {}

-- task_init on what usermode_init left.
def bare (frames : Pmm.State 32) : Sched :=
  ⟨fun _ => {},0,0,0,false,0,0,KheapRuns.freshHeap .i386 0x108000,frames,[],0,0,0,[],0,[]⟩
def hostOf (d : Demo) (fs : FileSystem.Fs) : Host :=
  ⟨⟨taskInit (bare d.mmu.frames) 0x90000,d.mmu.image,d.mmu.mem,d.mmu.mappedLimit,d.mmu.kernelPdEntries,d.mmu.nxSupported,fs,
    fun _ => {}⟩,[]⟩
def shellOf (d : Demo) (fs : FileSystem.Fs) : World :=
  ⟨hostOf d fs,d.gate,d.userStackTop,fun serial => if serial = 0 then .kernel else .fresh,false⟩

theorem init_rest (s : Sched) (espNow : Nat) :
    (taskInit s espNow).frames = s.frames ∧ (taskInit s espNow).directory = s.directory := by
  unfold taskInit
  dsimp only
  split
  · exact ⟨rfl,rfl⟩
  · exact ⟨rfl,rfl⟩

theorem hostOf_mmu (d : Demo) (fs : FileSystem.Fs) (home : d.mmu.active = d.mmu.image.kernelPdpt) :
    (hostOf d fs).kernel.mmu = d.mmu := by
  unfold hostOf Kernel.mmu
  dsimp only
  rw [(init_rest _ _).1,(init_rest _ _).2]
  simp only [bare,if_true]
  rw [←home]

theorem hostOf_started (d : Demo) (fs : FileSystem.Fs) (home : d.mmu.active = d.mmu.image.kernelPdpt) :
    Processes.Started 0x105000 bootMap (hostOf d fs) := by
  have given : (Kheap.kmalloc .i386 (KheapRuns.freshHeap .i386 0x108000) sizeofTask).1 ≠ 0 := by decide
  have enabled := @SchedulerRuns.init_enabled 0x90000 (bare d.mmu.frames) given
  refine ⟨?_,?_⟩
  · unfold hostOf
    dsimp only
    generalize same : bare d.mmu.frames = before at *
    have fields : before.enabled = false ∧ before.nextId = 0 ∧ before.births = 0 ∧ before.reaped = [] ∧
        before.heap = KheapRuns.freshHeap .i386 0x108000 := by
      rw [←same]
      exact ⟨rfl,rfl,rfl,rfl,rfl⟩
    obtain ⟨off,first,none,unreaped,heap⟩ := fields
    refine ⟨⟨before,0x90000,rfl,off,first,none,unreaped,?_⟩,enabled⟩
    rw [heap]
    exact boot_heap
  · rw [hostOf_mmu d fs home]
    exact home

theorem shellOf_started (made : d = usermodeInit m {}) (home : m.active = m.image.kernelPdpt) (fs : FileSystem.Fs) :
    Started m.image 0x105000 bootMap (shellOf d fs) := by
  obtain ⟨image,active,_⟩ := usermodeInit_fixed m {}
  have same : d.mmu.active = d.mmu.image.kernelPdpt := by rw [made,image,active,home]
  refine ⟨⟨m,rfl,?_,?_,?_⟩,hostOf_started d fs same,fun _ => rfl,rfl⟩
  · rw [←made]
    rfl
  · rw [←made]
    rfl
  · rw [←made]
    exact hostOf_mmu d fs same

def shell : World := shellOf bootDemo tinyDisk

theorem shell_started : Started smallImage 0x105000 bootMap shell := @shellOf_started bootDemo bootMmu rfl rfl tinyDisk

-- The shell starts the program, which gets its turn and goes on in ring 3; the next tick
-- gives the shell its turn, and it runs the demo.
def firstTurn : List Label := [.act (.loaderRun tinyName none),.act (.call .taskSchedule)]
def armedTurn : List Label := firstTurn++[.begin_]
def programFirst : List Label := armedTurn++[.jump]
def shellTurn : List Label := programFirst++[.act (.call .taskSchedule)]
def demoAfter : List Label := shellTurn++[.usermodeRun 0x90000]

-- The modes on the way, from the shell on.
def Turns (w : World) : Prop :=
  (firstTurn.foldl apply w).now = .fresh ∧ (armedTurn.foldl apply w).now = .armed ∧
  (programFirst.foldl apply w).now = .program ∧ (shellTurn.foldl apply w).now = .kernel ∧
  (demoAfter.foldl apply w).now = .demo ∧
  windowOf smallImage (demoAfter.foldl apply w) .demo ≠ some (window (demoAfter.foldl apply w))

theorem turns_permitted (turns : Turns w) : Permitted Allowed apply w programFirst ∧ Permitted Allowed apply w demoAfter := by
  obtain ⟨fresh,armed,_,kernel,_⟩ := turns
  exact ⟨⟨trivial,trivial,fresh,armed,trivial⟩,⟨trivial,trivial,fresh,armed,trivial,kernel,trivial⟩⟩

instance (w : World) : Decidable (Turns w) := inferInstanceAs (Decidable (_ ∧ _ ∧ _ ∧ _ ∧ _ ∧ _))

theorem shell_turns : Turns shell := by decide +kernel

def inProgram : World := programFirst.foldl apply shell
def inDemo : World := demoAfter.foldl apply shell

theorem window_matches_caller_small : windowOf smallImage inProgram inProgram.now = some (window inProgram) := by
  obtain ⟨_,_,now,_⟩ := shell_turns
  have path : Reached (userland smallImage 0x105000 bootMap) inProgram := reached_by shell_started (turns_permitted shell_turns).1
  exact (@window_matches_caller _ _ _ _ (fun _ => 0#8) 0 ⟨sysWrite,0x20000000#32,0#32⟩ path (.inl now)).1 (.inl now)

-- user_program's first message is refused: it lies in the demo's window, and the window in
-- force is a program's.
theorem demo_checked_as_program : ∃ w regs,Reached (userland smallImage 0x105000 bootMap) w ∧
    Allowed w (.syscall (fun _ => 0#8) 0 regs) ∧ regs.eax = sysWrite ∧ windowOf smallImage w w.now ≠ some (window w) := by
  obtain ⟨_,_,_,_,now,apart⟩ := shell_turns
  rw [←now] at apart
  exact ⟨inDemo,⟨sysWrite,0x101000#32,0#32⟩,reached_by shell_started (turns_permitted shell_turns).2,.inr now,rfl,apart⟩

end Arthic.PointerWindow
