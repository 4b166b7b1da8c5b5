import Arthic.LoaderTwins

namespace Arthic.StaleMemory
open AddressSpaces ByteMemory ElfHeaders FileSystem KheapInvariant Latest LoadedImage Loader LoaderContents LoaderTraces LoaderTwins
  PageTree PageTables Paging Pmm Processes ProgramImage Scheduler SyscallSafety TableGrowth Unsigned
variable {m origin : Mmu} {k other : Kernel}

-- Two kernels that differ in free frames and in free heap memory alone.
structure Alike (k other : Kernel) : Prop where
  rest : other = {k with
    mem:=other.mem,sched:={k.sched with heap:={k.sched.heap with mem:=other.sched.heap.mem}}}
  frames : Twin k.sched.frames k.mem other.mem
  heap : ∃ blocks live,Held .i386 k.sched.heap blocks live ∧ Held .i386 other.sched.heap blocks live ∧
    ∀ ptr ∈ live,∀ x < Kheap.get .i386 k.sched.heap (Kheap.headerOf .i386 ptr) .size,
      other.sched.heap.mem (ptr+x) = k.sched.heap.mem (ptr+x)

-- A byte of an address space, if ring 3 may read it.
def readable (mem : Memory) (pdpt v : Nat) : Option Byte :=
  (walk mem pdpt v).bind fun page => if page.user = true then some (mem (address page.leaf+v%pageSize)) else none

def view (k : Kernel) (slot v : Nat) : Option Byte := readable k.mem (k.programs slot).pageDir v

-- What the program does not map itself and the kernel's tables leave open to ring 3 lies
-- on no frame that is still free when the image has its frames.
def Clean (m : Mmu) (file : Memory) (args : Option CString) : Prop :=
  ∀ v,Window v → latest Piece.number (imagePieces file (fileHeaders file) args (ArgsRoom m file)) (v/pageSize) = none →
    ∀ page,inherited m v = some page → has page.leaf pageUser = true →
      Taken (framesAfter m.frames (fileHeaders file)) (address page.leaf)

theorem alike_beside (alike : Alike k other) : Beside k.mmu other.mmu :=
  ⟨other.mem,by rw [alike.rest]; rfl,alike.frames⟩

-- The buffer holds the file, wherever it lies.
theorem file_bytes (held : Held .i386 k.sched.heap blocks live) (read : fileIn k name = some (size,file)) :
    size ≤ maxProgram ∧ ∃ bytes,fsRead k.fs name maxProgram = some (size,bytes) ∧ ∀ i < size,file i = bytes.getD i 0#8 := by
  unfold fileIn at read
  dsimp only at read
  split at read
  · cases read
  rename_i given
  obtain ⟨⟨length,bytes⟩,found,shape⟩ := Option.map_eq_some_iff.mp read
  obtain ⟨rfl,rfl⟩ := Prod.mk.inj shape
  have short := fsRead_short found
  have whole := fsRead_whole found
  obtain ⟨after,taken,wide,start,_⟩ := held_return held given
  have inside := KheapRuns.live_inside taken (List.mem_cons_self ..)
  have room := taken.room
  have fits : maxProgram ≤ Kheap.alignUp .i386 maxProgram := by decide
  refine ⟨Nat.le_trans whole short,bytes,found,fun i below => ?_⟩
  change _ < 2^32 at room
  rw [buffer,wrap_small (by omega)]
  dsimp only
  rw [patch_inside _ _ (by omega) (by omega),Nat.add_sub_cancel_left]

theorem alike_file (alike : Alike k other) (read : fileIn k name = some (size,file))
    (readToo : fileIn other name = some (size',file')) : size' = size ∧ ∀ i < size,file' i = file i := by
  obtain ⟨blocks,live,held,heldToo,_⟩ := alike.heap
  obtain ⟨_,bytes,found,same⟩ := file_bytes held read
  obtain ⟨_,bytesToo,foundToo,sameToo⟩ := file_bytes heldToo readToo
  have fs : other.fs = k.fs := by rw [alike.rest]
  rw [fs,found] at foundToo
  cases Option.some.inj foundToo
  exact ⟨rfl,fun i below => (sameToo i below).trans (same i below).symm⟩

theorem run_executable (read : fileIn k name = some (size,file)) (run : (loaderRun k name args).1 = true) :
    Executable file size := by
  rw [executable_iff]
  intro bad
  unfold loaderRun at run
  unfold fileIn at read
  cases found : freeSlot k with
  | none =>
    rw [found] at run
    cases run
  | some slot =>
    rw [found] at run
    have heap : (setProgram k slot {}).sched.heap = k.sched.heap := rfl
    dsimp only at run read
    rw [heap] at run
    split at read
    · cases read
    rename_i given
    rw [if_neg given] at run
    obtain ⟨⟨length,bytes⟩,opened,shape⟩ := Option.map_eq_some_iff.mp read
    obtain ⟨rfl,rfl⟩ := Prod.mk.inj shape
    have fs : ((setProgram k slot {}).setHeap (Kheap.kmalloc .i386 k.sched.heap maxProgram).2).fs = k.fs := rfl
    rw [fs,opened] at run
    dsimp only at run
    unfold runFile at run
    rw [if_pos bad] at run
    cases run

theorem load_same {file' : Memory} (same : ∀ i < size,file' i = file i) (inside : addr+width ≤ size) :
    load file' addr width = load file addr width := load_congr fun i below => same _ (by omega)

theorem file_matches {file' : Memory} (short : size ≤ maxProgram) (passed : Executable file size)
    (inside : HeadersInside file size) (same : ∀ i < size,file' i = file i) : Matches file file' size := by
  have whole := passed.1
  simp only [elfHeaderSize] at whole
  refine ⟨same,⟨load_same same (by omega),load_same same (by omega),load_same same (by omega)⟩,?_⟩
  intro i below
  refine header_agrees inside short below same ?_
  obtain ⟨offset,stride,count⟩ := fields_small file
  rcases (headers_inside short passed).mp inside with none | ⟨sum,_⟩
  · omega
  · have product : i*elfPhentsize file ≤ elfPhnum file*elfPhentsize file := Nat.mul_le_mul_right _ (Nat.le_of_lt below)
    rw [headerStart]
    omega

theorem matches_self (file : Memory) (size : Nat) : Matches file file size := ⟨fun _ _ => rfl,⟨rfl,rfl,rfl⟩,fun _ _ => rfl⟩

theorem twin_held (space : Space m root) (twin : Twin m.frames m.mem mem) :
    ∀ path table,Held pae m.mem root path table → ∀ x < span pae path,mem (table+x) = m.mem (table+x) := by
  intro path table held x inside
  have low : x/8 < pae.entries path.length := by
    cases path with
    | nil =>
      change x < pdptEntries*8 at inside
      change x/8 < pdptEntries
      omega
    | cons index path =>
      change x < tableEntries*8 at inside
      change x/8 < tableEntries
      omega
  apply twin
  rw [Taken,entry_page (x:=table+x) (k:=x/8) space held low (by omega) (by omega)]
  exact space.taken path table held

theorem inherited_wide (inside : Window v) (found : inherited m v = some page) : pdIndex userLoadAddr < m.kernelPdEntries := by
  obtain ⟨_,_,middle⟩ := window_index inside.1 inside.2
  unfold inherited at found
  split at found
  · rename_i shared
    rw [middle] at shared
    exact shared.2
  · cases found

-- A frame ring 3 can read in the window is not free.
theorem window_taken {now : Mmu} (backed : Backed m now own (imagePieces file (fileHeaders file) args (ArgsRoom m file)))
    (frames : pdIndex userLoadAddr < m.kernelPdEntries → now.frames = framesAfter m.frames (fileHeaders file))
    (clean : Clean m file args) (inside : Window v) (found : walk now.mem now.active v = some page)
    (user : page.user = true) : Taken now.frames (address page.leaf) := by
  have low := (window_index inside.1 inside.2).1
  cases last : latest Piece.number (imagePieces file (fileHeaders file) args (ArgsRoom m file)) (v/pageSize) with
  | some piece =>
    obtain ⟨frame,mine,_,shown⟩ := backed.shows _ _ last
    obtain ⟨other,mapped,entered⟩ := shown v low rfl
    cases Option.some.inj (mapped.symm.trans found)
    rw [Taken,entered.leads,frame_number]
    exact .inr (backed.owned.marked frame mine).2
  | none =>
    have old := backed.rest v low last
    rw [found,Option.map_some] at old
    obtain ⟨before,there,leaf⟩ := Option.map_eq_some_iff.mp old.symm
    rw [Page.user,Bool.and_eq_true] at user
    rw [frames (inherited_wide inside there),←leaf]
    exact clean v inside last before there (by rw [leaf]; exact user.2)

theorem taken_offset (e : Entry) (inside : x < pageSize) : Taken frames (address e+x) ↔ Taken frames (address e) := by
  have aligned := address_aligned e
  rw [Taken,Taken,show (address e+x)/pageSize = address e/pageSize by simp only [pageSize] at *; omega]

-- What ring 3 reads there is then the same in memory that is the same but for free frames.
theorem readable_same {now : Mmu} (space : Space now now.active) (twin : Twin now.frames now.mem mem) (low : v < 2^32)
    (taken : ∀ page,walk now.mem now.active v = some page → page.user = true → Taken now.frames (address page.leaf)) :
    readable mem now.active v = readable now.mem now.active v := by
  unfold readable
  rw [walk_congr (twin_held space twin) low]
  cases found : walk now.mem now.active v with
  | none => rfl
  | some page =>
    rw [Option.bind_some,Option.bind_some]
    split
    · rename_i user
      rw [twin _ ((taken_offset page.leaf (Nat.mod_lt _ (by decide))).mpr (taken page found user))]
    · rfl

-- A page of the kernel's that ring 3 may use, where the program maps none: the directory
-- entry above it serves the stack too.
theorem inherited_user {now : Mmu} (backed : Backed m now own (imagePieces file (fileHeaders file) args (ArgsRoom m file)))
    (inside : Window v) (last : latest Piece.number (imagePieces file (fileHeaders file) args (ArgsRoom m file)) (v/pageSize) = none)
    (found : inherited m v = some page) (user : has page.leaf pageUser = true) :
    ∃ now_,walk now.mem now.active v = some now_ ∧ now_.user = true ∧ address now_.leaf = address page.leaf := by
  obtain ⟨low,top,middle⟩ := window_index inside.1 inside.2
  have old := backed.rest v low last
  rw [found,Option.map_some] at old
  obtain ⟨here,there,leaf⟩ := Option.map_eq_some_iff.mp old
  have bottom : stackBottom < 2^32 := by decide
  have stack : (⟨stackBottom/pageSize,stackFlags,fun _ => 0#8⟩ : Piece) ∈
      imagePieces file (fileHeaders file) args (ArgsRoom m file) := by
    refine List.mem_append_left _ (List.mem_append_right _ (List.mem_map.mpr ⟨0,by decide,?_⟩))
    rw [Nat.zero_mul,Nat.add_zero,wrap_small bottom]
  cases final : latest Piece.number (imagePieces file (fileHeaders file) args (ArgsRoom m file)) (stackBottom/pageSize) with
  | none => exact absurd rfl (latest_none.mp final _ stack)
  | some piece =>
    obtain ⟨frame,_,_,shown⟩ := backed.shows _ _ final
    obtain ⟨other,mapped,entered⟩ := shown stackBottom bottom rfl
    have opened := entered.directory (pieces_user _ _ _ _ piece (latest_mem final).1)
    refine ⟨here,there,?_,by rw [leaf]⟩
    rw [Page.user,same_directory low bottom top middle there mapped,opened,leaf,user]
    rfl

theorem twin_ready (ready : Ready m) (twin : Twin m.frames m.mem mem) : Ready {m with mem:=mem} := by
  have same := twin_held ready.kernel.space twin
  refine ⟨@kernel_congr m {m with mem:=mem} ready.kernel ⟨rfl,rfl⟩ ready.kernel.space.sound same ready.kernel.space.taken,
    directories_same (fun e => has e pageNx = false) ready.plain same,?_,ready.zero⟩
  intro j below
  obtain ⟨table,held⟩ := ready.complete j below
  exact ⟨table,(held_congr same [0,j] table).mpr held⟩

-- Starting a program does as well in other free memory.
theorem runFile_twin {freed : Memory} (image : ∀ prog,(loadImage k.mmu file size args).1 = some prog →
      loadImage {k.mmu with mem:=mem} file size args = (some prog,{(loadImage k.mmu file size args).2 with mem:=later}))
    (run : (runFile k slot file freed size args).1 = true) :
    (runFile {k with mem:=mem} slot file freed size args).1 = true := by
  have mmu : ({k with mem:=mem} : Kernel).mmu = {k.mmu with mem:=mem} := rfl
  unfold runFile at run ⊢
  split at run
  · cases run
  rename_i good
  rw [if_neg good,mmu]
  generalize loadImage k.mmu file size args = answer at run image
  obtain ⟨loaded,after⟩ := answer
  cases loaded with
  | none => cases run
  | some prog =>
    rw [image prog rfl]
    dsimp only at run ⊢
    split at run
    · cases run
    rename_i created
    rw [if_neg]
    exact created

theorem loaderRun_twin (free : freeSlot k = some slot) (read : fileIn k name = some (size,file))
    (image : ∀ prog,(loadImage k.mmu file size args).1 = some prog →
      loadImage {k.mmu with mem:=mem} file size args = (some prog,{(loadImage k.mmu file size args).2 with mem:=later}))
    (run : (loaderRun k name args).1 = true) : (loaderRun {k with mem:=mem} name args).1 = true := by
  have slots : freeSlot {k with mem:=mem} = some slot := free
  unfold fileIn at read
  unfold loaderRun at run ⊢
  rw [free] at run
  rw [slots]
  have heap : (setProgram k slot {}).sched.heap = k.sched.heap := rfl
  have heapToo : (setProgram {k with mem:=mem} slot {}).sched.heap = k.sched.heap := rfl
  dsimp only at run read ⊢
  rw [heap] at run
  rw [heapToo]
  generalize Kheap.kmalloc .i386 k.sched.heap maxProgram = answer at run read ⊢
  obtain ⟨ptr,heap⟩ := answer
  dsimp only at run read ⊢
  split at read
  · cases read
  rename_i given
  rw [if_neg given] at run ⊢
  have fs : ((setProgram k slot {}).setHeap heap).fs = k.fs := rfl
  have fsToo : ((setProgram {k with mem:=mem} slot {}).setHeap heap).fs = k.fs := rfl
  rw [fs] at run
  rw [fsToo]
  generalize fsRead k.fs name maxProgram = answer at run read ⊢
  cases answer with
  | none => cases read
  | some answer =>
    obtain ⟨length,bytes⟩ := answer
    obtain ⟨rfl,rfl⟩ := Prod.mk.inj (Option.some.inj read)
    dsimp only at run ⊢
    generalize (Kheap.kfree .i386 _ ptr).2 = freed at run ⊢
    have mmu : (((setProgram k slot {}).setHeap heap).setHeap freed).mmu = k.mmu := rfl
    rw [←mmu] at image
    have moved : ((setProgram {k with mem:=mem} slot {}).setHeap heap).setHeap freed =
        {((setProgram k slot {}).setHeap heap).setHeap freed with mem:=mem} := rfl
    rw [moved]
    exact runFile_twin image run

-- A started program's address space, and what it is made of.
structure Built (m : Mmu) (file : Memory) (size : Nat) (args : Option CString) (prog : Program) (now : Mmu) : Prop where
  loaded : (loadImage m file size args).1 = some prog
  shape : now = {(loadImage m file size args).2 with active:=prog.pageDir}
  backed : ∃ own,Backed m now own (imagePieces file (fileHeaders file) args (ArgsRoom m file))
  frames : pdIndex userLoadAddr < m.kernelPdEntries → now.frames = framesAfter m.frames (fileHeaders file)

theorem headers_fit (accepted : ∀ ph ∈ fileHeaders file,acceptable {} size ph = true)
    (small : ∀ ph ∈ fileHeaders file,ph.vaddr.toNat+ph.memsz.toNat < 2^32) : ∀ ph ∈ fileHeaders file,CopyFits ph :=
  fun ph member => (header_small (accepted ph member) (Nat.le_of_lt (small ph member))).2

theorem image_built (ready : Ready m) (small : ∀ ph ∈ fileHeaders file,ph.vaddr.toNat+ph.memsz.toNat < 2^32)
    (loaded : (loadImage m file size args).1 = some prog) :
    Built m file size args prog {(loadImage m file size args).2 with active:=prog.pageDir} :=
  ⟨loaded,rfl,(loadImage_backed ready (headers_fit (image_accepted loaded) small) loaded).1,
    fun wide => loadImage_frames ready wide small loaded⟩

theorem loaderRun_built (ready : Ready k.mmu) (free : freeSlot k = some slot) (read : fileIn k name = some (size,file))
    (small : ∀ ph ∈ fileHeaders file,ph.vaddr.toNat+ph.memsz.toNat < 2^32) (run : (loaderRun k name args).1 = true) :
    ∃ prog now,Built k.mmu file size args prog now ∧ ∀ v,view (loaderRun k name args).2 slot v = readable now.mem now.active v := by
  obtain ⟨_,_,_,prog,freeToo,readToo,started⟩ := loaderRun_parts run
  cases Option.some.inj (free.symm.trans freeToo)
  cases Option.some.inj (read.symm.trans readToo)
  refine ⟨prog,_,image_built ready small started.loaded,fun v => ?_⟩
  rw [view,started.mem,started.dir]

theorem built_unique (one : Built m file size args prog now) (two : Built m file size args prog' later) : now = later := by
  cases Option.some.inj (one.loaded.symm.trans two.loaded)
  exact one.shape.trans two.shape.symm

-- In memory that differs in free frames alone the same is built, from a file that is the
-- same as far as it goes.
theorem built_twin {m other : Mmu} {file' : Memory} (ready : Ready m) (beside : Beside m other) (matched : Matches file file' size)
    (small : ∀ ph ∈ fileHeaders file,ph.vaddr.toNat+ph.memsz.toNat < 2^32) (built : Built m file size args prog now) :
    (loadImage other file' size args).1 = some prog ∧ ∃ mem,Twin now.frames now.mem mem ∧
      ({(loadImage other file' size args).2 with active:=prog.pageDir} : Mmu) = {now with mem:=mem} := by
  obtain ⟨loaded,mem,shape,twin⟩ := loadImage_beside ready beside (headers_fit (image_accepted built.loaded) small) matched
    built.loaded
  rw [built.shape,shape]
  exact ⟨loaded,mem,twin,rfl⟩

theorem loaderRun_twinned (alike : Alike k other) (ready : Ready k.mmu) (free : freeSlot k = some slot)
    (read : fileIn k name = some (size,file)) (inside : HeadersInside file size) (run : (loaderRun k name args).1 = true)
    (built : Built k.mmu file size args prog now) (small : ∀ ph ∈ fileHeaders file,ph.vaddr.toNat+ph.memsz.toNat < 2^32)
    (again : (loaderRun other name args).1 = true) :
    ∃ mem,Twin now.frames now.mem mem ∧ ∀ v,view (loaderRun other name args).2 slot v = readable mem now.active v := by
  obtain ⟨_,_,file',prog',freeToo,readToo,started⟩ := loaderRun_parts again
  have slots : freeSlot other = freeSlot k := by rw [alike.rest]; rfl
  cases Option.some.inj (free.symm.trans (slots.symm.trans freeToo))
  obtain ⟨rfl,same⟩ := alike_file alike read readToo
  obtain ⟨_,_,held,_,_⟩ := alike.heap
  have matched := file_matches (file_bytes held read).1 (run_executable read run) inside same
  obtain ⟨loaded,mem,twin,shape⟩ := built_twin ready (alike_beside alike) matched small built
  cases Option.some.inj (loaded.symm.trans started.loaded)
  refine ⟨mem,twin,fun v => ?_⟩
  have mems : (loadImage other.mmu file' _ args).2.mem = mem := congrArg Mmu.mem shape
  have dirs : prog.pageDir = now.active := congrArg Mmu.active shape
  rw [view,started.mem,started.dir,mems,dirs]

-- A kernel with another byte in a free frame.
def disturbed (k : Kernel) (x : Nat) : Kernel := {k with mem:=Function.update k.mem x (k.mem x+1#8)}

theorem next_byte : ∀ b : Byte,b+1#8 ≠ b := by decide

theorem disturbed_alike (heap : Held .i386 k.sched.heap blocks live) (free : ¬ Taken k.sched.frames x) :
    Alike k (disturbed k x) := by
  refine ⟨rfl,fun y taken => Function.update_of_ne ?_ .. ,blocks,live,heap,heap,fun _ _ _ _ => rfl⟩
  rintro rfl
  exact free taken

theorem twin_runs (alike : Alike k {k with mem:=mem}) (ready : Ready k.mmu) (free : freeSlot k = some slot)
    (read : fileIn k name = some (size,file)) (small : ∀ ph ∈ fileHeaders file,ph.vaddr.toNat+ph.memsz.toNat < 2^32)
    (run : (loaderRun k name args).1 = true) (built : Built k.mmu file size args prog now) :
    (loaderRun {k with mem:=mem} name args).1 = true := by
  obtain ⟨loaded,later,shape,_⟩ := loadImage_beside ready (alike_beside alike)
    (headers_fit (image_accepted built.loaded) small) (matches_self file size) built.loaded
  have image : ∀ found,(loadImage k.mmu file size args).1 = some found →
      loadImage {k.mmu with mem:=mem} file size args = (some found,{(loadImage k.mmu file size args).2 with mem:=later}) := by
    intro found there
    cases Option.some.inj (built.loaded.symm.trans there)
    exact Prod.ext loaded shape
  exact loaderRun_twin free read image run

-- A byte of a free frame that ring 3 can read is what it was before.
theorem spare_read (built : Built m file size args prog now) (found : walk now.mem now.active v = some page)
    (user : page.user = true) (free : ¬ Taken now.frames (address page.leaf+v%pageSize)) :
    readable now.mem now.active v = some (m.mem (address page.leaf+v%pageSize)) := by
  obtain ⟨own,backed⟩ := built.backed
  rw [readable,found,Option.bind_some,if_pos user,backed.spare _ free]

theorem leak_shown (ready : Ready k.mmu) (heap : Held .i386 k.sched.heap blocks live) (free : freeSlot k = some slot)
    (read : fileIn k name = some (size,file)) (small : ∀ ph ∈ fileHeaders file,ph.vaddr.toNat+ph.memsz.toNat < 2^32)
    (run : (loaderRun k name args).1 = true) (built : Built k.mmu file size args prog now) (low : v < 2^32)
    (found : walk now.mem now.active v = some page) (user : page.user = true)
    (spare : ¬ Taken now.frames (address page.leaf+v%pageSize)) :
    Alike k (disturbed k (address page.leaf+v%pageSize)) ∧
      (loaderRun (disturbed k (address page.leaf+v%pageSize)) name args).1 = true ∧
      view (loaderRun (disturbed k (address page.leaf+v%pageSize)) name args).2 slot v ≠
        view (loaderRun k name args).2 slot v := by
  obtain ⟨own,backed⟩ := built.backed
  have start : ¬ Taken k.sched.frames (address page.leaf+v%pageSize) := fun taken =>
    spare (accounted_taken backed.accounted taken)
  have alike := disturbed_alike heap start
  have again := twin_runs alike ready free read small run built
  refine ⟨alike,again,?_⟩
  obtain ⟨loaded,mem,twin,shape⟩ := built_twin ready (alike_beside alike) (matches_self file size) small built
  have readyToo : Ready (disturbed k (address page.leaf+v%pageSize)).mmu := twin_ready ready alike.frames
  have builtToo := image_built readyToo small loaded
  rw [shape] at builtToo
  have foundToo : walk mem now.active v = some page :=
    (walk_congr (twin_held backed.accounted.space twin) low).trans found
  obtain ⟨_,_,one,seen⟩ := loaderRun_built ready free read small run
  cases built_unique built one
  obtain ⟨_,_,two,seenToo⟩ := loaderRun_built readyToo free read small again
  cases built_unique builtToo two
  rw [seen,seenToo,spare_read built found user spare,spare_read builtToo foundToo user spare]
  intro same
  have byte := Option.some.inj same
  change Function.update k.mem _ _ _ = _ at byte
  rw [Function.update_self] at byte
  exact absurd byte (next_byte _)

-- A leaf the kernel's tables keep to a frame that is still free after loading.
theorem stale_shown (ready : Ready k.mmu) (heap : Held .i386 k.sched.heap blocks live) (free : freeSlot k = some slot)
    (read : fileIn k name = some (size,file)) (small : ∀ ph ∈ fileHeaders file,ph.vaddr.toNat+ph.memsz.toNat < 2^32)
    (run : (loaderRun k name args).1 = true) (window : Window v)
    (last : latest Piece.number (imagePieces file (fileHeaders file) args (ArgsRoom k.mmu file)) (v/pageSize) = none)
    (found : inherited k.mmu v = some page) (user : has page.leaf pageUser = true)
    (stale : ¬ Taken (framesAfter k.mmu.frames (fileHeaders file)) (address page.leaf)) :
    Alike k (disturbed k (address page.leaf+v%pageSize)) ∧
      (loaderRun (disturbed k (address page.leaf+v%pageSize)) name args).1 = true ∧
      view (loaderRun (disturbed k (address page.leaf+v%pageSize)) name args).2 slot v ≠
        view (loaderRun k name args).2 slot v := by
  obtain ⟨prog,now,built,_⟩ := loaderRun_built ready free read small run
  obtain ⟨own,backed⟩ := built.backed
  obtain ⟨here,there,open_,leaf⟩ := inherited_user backed window last found user
  have low := (window_index window.1 window.2).1
  have spare : ¬ Taken now.frames (address here.leaf+v%pageSize) := by
    rwa [leaf,taken_offset _ (Nat.mod_lt _ (by decide)),built.frames (inherited_wide window found)]
  rw [←leaf]
  exact leak_shown ready heap free read small run built low there open_ spare

theorem init_heap (held : Held .i386 s.heap blocks live) (espNow : Nat) :
    ∃ blocks live,Held .i386 (taskInit s espNow).heap blocks live := by
  have heap : (taskInit s espNow).heap = (Kheap.kmalloc .i386 s.heap sizeofTask).2 := by
    unfold taskInit
    dsimp only
    split
    · rfl
    · rfl
  rw [heap]
  rcases held_kmalloc held sizeofTask with failed | ⟨_,after,given⟩
  · rw [failed]
    exact ⟨_,_,held⟩
  · exact ⟨_,_,given⟩

theorem boot_held : ∃ blocks live,Held .i386 bootKernel.sched.heap blocks live := by
  refine init_heap (KheapRuns.held_single (by decide) rfl ?_ (by decide) (by decide)) 0x90000
  rw [KheapBlocks.header,KheapBlocks.Header.mk.injEq]
  decide

-- The kernel's tables end far below the window.
theorem boot_clean : Clean bootKernel.mmu tinyFile.2 none := fun v inside _ page found =>
  absurd (inherited_wide inside found) (by decide)

theorem tiny_headers_inside : HeadersInside tinyFile.2 tinyFile.1 ∧
    ∀ ph ∈ fileHeaders tinyFile.2,ph.vaddr.toNat+ph.memsz.toNat < 2^32 := by decide

-- A machine of 514 MB once it is up: 257 identity tables, in the last of which the 64 pages
-- of an earlier program are still open to ring 3, on frames that are free again.
def wideFrames : State 32 := ⟨fun word => if word < 25 then 0xFFFFFFFF#32 else 0#32,257*tableEntries,800⟩

def wideLeaf (n : Nat) : Nat :=
  if 256*tableEntries ≤ n ∧ n < 256*tableEntries+64 then (802+(n-256*tableEntries))*pageSize+7 else n*pageSize+3

def wideMem : Memory := fun x =>
  if 0x106000 ≤ x ∧ x < 0x207000 then digit (wideLeaf ((x-0x106000)/8)) (x % 8)
  else if 0x104000 ≤ x ∧ x < 0x104000+257*8 then digit (0x106003+(x-0x104000)/8*pageSize) (x % 8)
  else if 0x103000 ≤ x ∧ x < 0x103008 then digit 0x104001 (x % 8) else 0#8

def wideSched : Sched :=
  taskInit ⟨fun _ => {},0,0,0,false,0,0,KheapRuns.freshHeap .i386 0x207000,wideFrames,[],0,0,0,[],0,[]⟩ 0x90000

def wideKernel : Kernel := ⟨wideSched,smallImage,wideMem,257*0x200000,257,true,tinyDisk,fun _ => {}⟩

theorem wide_test (frame : Nat) : frameTest wideFrames frame = decide (frame < 800) := by
  rw [frameTest_member (by decide)]
  change (if frame/32 < 25 then 0xFFFFFFFF#32 else 0#32).getLsbD (frame % 32) = _
  split
  · have ones : ∀ i < 32,(0xFFFFFFFF#32).getLsbD i = true := by decide
    rw [ones _ (Nat.mod_lt _ (by decide)),decide_eq_true (by omega)]
  · rw [BitVec.getLsbD_zero,decide_eq_false (by omega)]

theorem wide_sound : Sound wideFrames :=
  sound_below wideFrames (by decide) (by decide) (by decide) fun frame _ => wide_test frame

theorem wide_marked (low : frame < 800) : frameTest wideFrames frame = true := by rw [wide_test,decide_eq_true low]

-- What its memory comes to: a directory of 257 tables whose entries keep nothing from being
-- written or executed, and a leaf of the earlier program.
theorem wide_memory : (∀ j < tableEntries,
      next pae wideMem 0x104000 j = (if j < 257 then some (0x106000+j*pageSize) else none) ∧
      (has (entry wideMem 0x104000 j) pagePresent = true → has (entry wideMem 0x104000 j) pageWrite = true ∧
        has (entry wideMem 0x104000 j) pageNx = false)) ∧
    next pae wideMem 0x103000 0 = some 0x104000 ∧ (∀ i < pdptEntries,0 < i → next pae wideMem 0x103000 i = none) ∧
    entry wideMem 0x104000 256 = 0x206003#64 ∧ entry wideMem 0x206000 (ptIndex 0x20028000) = 0x34A007#64 := by decide +kernel

theorem wide_tables (low : j < tableEntries) :
    next pae wideMem 0x104000 j = if j < 257 then some (0x106000+j*pageSize) else none := (wide_memory.1 j low).1

theorem wide_top : next pae wideMem 0x103000 0 = some 0x104000 := wide_memory.2.1
theorem wide_rest (i : Nat) (later : 0 < i) (low : i < pdptEntries) : next pae wideMem 0x103000 i = none :=
  wide_memory.2.2.1 i low later

theorem wide_space : Space wideKernel.mmu 0x103000 := by
  refine @one_directory wideKernel.mmu 0x103000 0x104000 wideMem wideFrames wide_sound (by decide) (by decide) (by decide)
    (by decide) ⟨.inr (by decide),.inr (by decide)⟩ wide_top wide_rest ?_ ?_
  · intro j low pt leads
    rw [wide_tables low] at leads
    split at leads
    · cases Option.some.inj leads
      refine ⟨by omega,.inr (wide_marked ?_),?_,?_⟩
      all_goals
        simp only [pageSize]
        omega
    · cases leads
  · intro j low l lowToo pt one two
    rw [wide_tables low] at one
    rw [wide_tables lowToo] at two
    split at one
    · split at two
      · have same := Option.some.inj (one.trans two.symm)
        simp only [pageSize] at same
        omega
      · cases two
    · cases one

theorem wide_ready : Ready wideKernel.mmu := by
  have directory : Held pae wideMem 0x103000 [0] 0x104000 := (held_one (by decide)).mpr wide_top
  refine ⟨kernel_one wide_space wide_top wide_rest (fun j low there => ((wide_memory.1 j low).2 there).1) (by decide),
    directories_one wide_top wide_rest fun j low there => ((wide_memory.1 j low).2 there).2,?_,.inr (wide_marked (by decide))⟩
  intro j below
  change j < 257 at below
  have low : j < tableEntries := by
    simp only [tableEntries]
    omega
  exact ⟨_,(held_two low).mpr ⟨_,directory,(wide_tables low).trans (if_pos below)⟩⟩

theorem wide_held : ∃ blocks live,Held .i386 wideKernel.sched.heap blocks live := by
  refine init_heap (KheapRuns.held_single (by decide) rfl ?_ (by decide) (by decide)) 0x90000
  exact KheapBlocks.header_written (by decide) (by decide) (by decide)

theorem wide_read : (fileIn wideKernel tinyName).isSome = true := by decide
def wideFile : Nat × Memory := (fileIn wideKernel tinyName).get wide_read

-- The new program starts. Of the earlier one's pages there is one it does not take the
-- place of, on a frame it does not take.
theorem wide_ran : (loaderRun wideKernel tinyName none).1 = true ∧ HeadersInside wideFile.2 wideFile.1 ∧
    (∀ ph ∈ fileHeaders wideFile.2,ph.vaddr.toNat+ph.memsz.toNat < 2^32) ∧
    0x20028000/pageSize ∉ (bodyPieces wideFile.2 (fileHeaders wideFile.2)).map Piece.number ∧
    ¬ Taken (framesAfter wideFrames (fileHeaders wideFile.2)) 0x34A000 := by decide +kernel

theorem wide_walk : walk wideMem 0x103000 0x20028000 = some ⟨0x206003#64,0x34A007#64⟩ := by
  have middle : next pae wideMem 0x104000 (pdIndex 0x20028000) = some 0x206000 := wide_tables (by decide)
  obtain ⟨_,_,_,directory,leaf⟩ := wide_memory
  rw [walk,show pdptIndex 0x20028000 = 0 from rfl,wide_top,Option.bind_some,middle,Option.bind_some,
    show pdIndex 0x20028000 = 256 from rfl,directory,leaf,if_pos (by decide)]

theorem wide_unmapped : latest Piece.number (imagePieces wideFile.2 (fileHeaders wideFile.2) none
    (ArgsRoom wideKernel.mmu wideFile.2)) (0x20028000/pageSize) = none := by
  refine latest_none.mpr fun piece member same => ?_
  rcases List.mem_append.mp member with inside | argument
  · exact wide_ran.2.2.2.1 (same ▸ List.mem_map_of_mem inside)
  · split at argument
    · cases List.mem_singleton.mp argument
      exact absurd same (by decide)
    · cases argument

end Arthic.StaleMemory
