import Arthic.ProgramOutput

namespace Arthic.LineBuffers
open ByteMemory Scheduler SchedulerRing Syscalls ProgramOutput TaskLifetimes Transition Unsigned

-- A stream cut into pieces: what has been handed on and what is still held.
def cutByte (c : List (List Byte) × List Byte) (byte : Byte) : List (List Byte) × List Byte :=
  if byte = 10#8 ∨ sizeofOutbuf-1 ≤ c.2.length+1 then (c.1++[c.2++[byte]],[]) else (c.1,c.2++[byte])

def cut (text : List Byte) : List (List Byte) × List Byte := text.foldl cutByte ([],[])

-- A whole line, or 127 bytes of a longer one.
def Piece (p : List Byte) : Prop :=
  (∃ body,p = body++[10#8] ∧ 10#8 ∉ body ∧ p.length ≤ sizeofOutbuf-1) ∨ p.length = sizeofOutbuf-1 ∧ 10#8 ∉ p

structure CutOff (text : List Byte) (pieces : List (List Byte)) (rest : List Byte) : Prop where
  stream : pieces.flatten++rest = text
  shape : ∀ p ∈ pieces,Piece p
  short : rest.length < sizeofOutbuf-1
  unended : 10#8 ∉ rest

theorem cut_snoc (text : List Byte) (byte : Byte) : cut (text++[byte]) = cutByte (cut text) byte := by
  rw [cut,List.foldl_append]
  rfl

theorem cut_off (text : List Byte) : CutOff text (cut text).1 (cut text).2 := by
  induction text using List.reverseRecOn with
  | nil => exact ⟨rfl,List.forall_mem_nil _,by decide,List.not_mem_nil⟩
  | append_singleton text byte ih =>
    obtain ⟨stream,shape,short,unended⟩ := ih
    rw [cut_snoc,cutByte]
    generalize cut text = c at *
    have long : (c.2++[byte]).length = c.2.length+1 := by simp
    split
    · rename_i ends
      refine ⟨?_,?_,(by decide : 0 < sizeofOutbuf-1),List.not_mem_nil⟩
      · dsimp only
        rw [List.flatten_append,List.flatten_singleton,List.append_nil,←List.append_assoc,stream]
      · dsimp only
        intro p member
        rcases List.mem_append.mp member with old | new
        · exact shape p old
        · rw [List.mem_singleton.mp new]
          by_cases newline : byte = 10#8
          · refine .inl ⟨c.2,by rw [newline],unended,?_⟩
            omega
          · have full := ends.resolve_left newline
            refine .inr ⟨by omega,?_⟩
            rw [List.mem_append,List.mem_singleton,not_or]
            exact ⟨unended,Ne.symm newline⟩
    · rename_i open_
      simp only [not_or,not_le] at open_
      refine ⟨?_,shape,?_,?_⟩
      · dsimp only
        rw [←List.append_assoc,stream]
      · dsimp only
        omega
      · dsimp only
        rw [List.mem_append,List.mem_singleton,not_or]
        exact ⟨unended,Ne.symm open_.1⟩

-- What is handed on stays handed on, and a short text without a newline is only held.
theorem fold_grows (text : List Byte) (c : List (List Byte) × List Byte) : ∃ more,(text.foldl cutByte c).1 = c.1++more := by
  induction text generalizing c with
  | nil => exact ⟨[],(List.append_nil _).symm⟩
  | cons byte text ih =>
    obtain ⟨more,rest⟩ := ih (cutByte c byte)
    rw [List.foldl_cons,rest,cutByte]
    split
    · exact ⟨[c.2++[byte]]++more,List.append_assoc ..⟩
    · exact ⟨more,rfl⟩

theorem fold_held (body : List Byte) (c : List (List Byte) × List Byte) (plain : 10#8 ∉ body)
    (room : c.2.length+body.length < sizeofOutbuf-1) : body.foldl cutByte c = (c.1,c.2++body) := by
  induction body generalizing c with
  | nil => rw [List.append_nil,List.foldl_nil]
  | cons byte body ih =>
    rw [List.mem_cons,not_or] at plain
    rw [List.length_cons] at room
    rw [List.foldl_cons,cutByte,if_neg (by rw [not_or]; exact ⟨Ne.symm plain.1,by omega⟩)]
    rw [ih _ plain.2 (by simp only [List.length_append,List.length_singleton]; omega)]
    dsimp only
    rw [List.append_assoc,List.singleton_append]

-- A line that starts on an empty buffer and has its newline among its first 127 bytes.
theorem whole_line (empty : (cut before).2 = []) (plain : 10#8 ∉ body) (room : body.length < sizeofOutbuf-1) :
    ∃ more,(cut (before++body++[10#8]++after)).1 = (cut before).1++(body++[10#8])::more := by
  have held := fold_held body (cut before) plain (by rw [empty]; simpa using room)
  rw [empty,List.nil_append] at held
  obtain ⟨more,grown⟩ := fold_grows after ((cut before).1++[body++[10#8]],[])
  refine ⟨more,?_⟩
  have line : cut (before++body++[10#8]) = ((cut before).1++[body++[10#8]],[]) := by
    rw [cut_snoc]
    have inner : cut (before++body) = body.foldl cutByte (cut before) := List.foldl_append ..
    rw [inner,held,cutByte,if_pos (.inl rfl)]
  have whole : cut (before++body++[10#8]++after) = after.foldl cutByte (cut (before++body++[10#8])) := List.foldl_append ..
  rw [whole,line,grown,List.append_assoc,List.singleton_append]

-- The calls of terminal_write for the task with that serial.
def pieces (s : Sched) (serial : Nat) : List (List Byte) :=
  (s.console.filter fun p => p.speaker == some serial).map Printed.text

section Records
variable {s : Sched} {byte : Byte} {text : List Byte} {t n i : Nat}

theorem show_pieces (sane : ∀ byte ∈ line (s.tasks t),byte ≠ 0#8) (n : Nat) :
    pieces (showLine s t) n = pieces s n++if n = serialOf s t then [line (s.tasks t)] else [] := by
  rw [showLine_line sane]
  change ((s.console++[(⟨some (serialOf s t),line (s.tasks t)⟩ : Printed)]).filter _).map _ = _
  by_cases own : n = serialOf s t
  · simp [pieces,own]
  · simp [pieces,own,Ne.symm own]

-- One round of the loop in buffered_write.
theorem byte_cut (sane : Sane (s.tasks t)) (text : byte ≠ 0#8) :
    (pieces (bufferByte t s byte) (serialOf s t),line ((bufferByte t s byte).tasks t)) =
      cutByte (pieces s (serialOf s t),line (s.tasks t)) byte ∧
    ∀ n,n ≠ serialOf s t → pieces (bufferByte t s byte) n = pieces s n := by
  obtain ⟨length,grown⟩ := taken_line sane byte
  have same : serialOf (taken s t byte) t = serialOf s t := by simp [serialOf,taken,setTask]
  have printable : ∀ other ∈ line ((taken s t byte).tasks t),other ≠ 0#8 := by
    rw [grown]
    intro other member
    rcases List.mem_append.mp member with old | new
    · exact sane.text other old
    · rw [List.mem_singleton.mp new]
      exact text
  have unsaid : ∀ n,pieces (taken s t byte) n = pieces s n := fun _ => rfl
  have empty := (show_speech printable).2
  have shows := show_pieces printable
  have unfolded : bufferByte t s byte = if byte = 10#8 ∨ sizeofOutbuf-1 ≤ ((taken s t byte).tasks t).lineLen then
      showLine (taken s t byte) t else taken s t byte := rfl
  rw [unfolded,length,cutByte,line_length]
  generalize taken s t byte = now at *
  split
  · refine ⟨?_,fun n other => ?_⟩
    · rw [shows,same,if_pos rfl,unsaid,empty,grown]
    · rw [shows,same,if_neg other,unsaid,List.append_nil]
  · exact ⟨by rw [unsaid,grown],fun n _ => unsaid n⟩

theorem text_cut (sane : Sane (s.tasks t)) (printable : ∀ byte ∈ text,byte ≠ 0#8) :
    (pieces (text.foldl (bufferByte t) s) (serialOf s t),line ((text.foldl (bufferByte t) s).tasks t)) =
      text.foldl cutByte (pieces s (serialOf s t),line (s.tasks t)) ∧
    ∀ n,n ≠ serialOf s t → pieces (text.foldl (bufferByte t) s) n = pieces s n := by
  induction text generalizing s with
  | nil => exact ⟨rfl,fun _ _ => rfl⟩
  | cons byte rest ih =>
    obtain ⟨head,tail⟩ := List.forall_mem_cons.mp printable
    have speech := (byte_speech sane head).1
    obtain ⟨first,alone⟩ := byte_cut sane head
    obtain ⟨later,still⟩ := ih speech.sane tail
    have serial := speech.serial
    rw [serial] at later still
    rw [List.foldl_cons,List.foldl_cons,←first]
    exact ⟨later,fun n other => (still n other).trans (alone n other)⟩

-- The terminator included, nothing is stored behind the 128 bytes of outbuf.
theorem show_inside (short : (s.tasks t).lineLen < sizeofOutbuf) (behind : sizeofOutbuf ≤ i) :
    ((showLine s t).tasks t).lineBuf i = (s.tasks t).lineBuf i := by
  unfold showLine setTask
  dsimp only
  rw [Function.update_self]
  exact Function.update_of_ne (by omega) ..

theorem byte_inside (sane : Sane (s.tasks t)) (byte : Byte) (behind : sizeofOutbuf ≤ i) :
    ((bufferByte t s byte).tasks t).lineBuf i = (s.tasks t).lineBuf i := by
  have short := sane.short
  obtain ⟨length,_⟩ := taken_line sane byte
  have stored : ((taken s t byte).tasks t).lineBuf i = (s.tasks t).lineBuf i := by
    simp only [taken,setTask,Function.update_self]
    exact Function.update_of_ne (by omega) ..
  change ((if byte = 10#8 ∨ sizeofOutbuf-1 ≤ ((taken s t byte).tasks t).lineLen then
      showLine (taken s t byte) t else taken s t byte).tasks t).lineBuf i = _
  split
  · rw [show_inside (by rw [length]; omega) behind]
    exact stored
  · exact stored

theorem text_inside (sane : Sane (s.tasks t)) (printable : ∀ byte ∈ text,byte ≠ 0#8) (behind : sizeofOutbuf ≤ i) :
    ((text.foldl (bufferByte t) s).tasks t).lineBuf i = (s.tasks t).lineBuf i := by
  induction text generalizing s with
  | nil => rfl
  | cons byte rest ih =>
    obtain ⟨head,tail⟩ := List.forall_mem_cons.mp printable
    exact (ih (byte_speech sane head).1.sane tail).trans (byte_inside sane byte behind)
end Records

section Accounts
variable {w next : World} {after : Sched} {ring : List Nat} {text : List Byte}

def isExit : Utterance → Bool
  | .exit => true
  | _ => false

-- Of a task that has only called SYS_WRITE, the pieces shown and the bytes held are its
-- strings cut up.
def Cut (w : World) : Prop := ∀ n,(∀ call ∈ w.calls n,isExit call = false) →
  (pieces w.sched n,unfinished (w.calls n)) = cut (said (w.calls n))

theorem cut_same (held : Cut w) (calls : next.calls = w.calls) (same : ∀ n,pieces next.sched n = pieces w.sched n) : Cut next := by
  intro n quiet
  rw [calls] at quiet ⊢
  rw [same]
  exact held n quiet

theorem console_pieces {s after : Sched} (same : after.console = s.console) (n : Nat) : pieces after n = pieces s n := by
  rw [pieces,same]
  rfl

theorem kprintf_pieces (s : Sched) (text : String) (n : Nat) : pieces (kprintf s text) n = pieces s n := by
  simp [pieces,kprintf]

theorem call_pieces (told : Told w ring) (call : SchedulerRuns.Call) (n : Nat) :
    pieces (SchedulerRuns.apply ⟨w.sched,w.others⟩ call).sched n = pieces w.sched n := by
  by_cases quiet : Quiet call
  · exact console_pieces (call_hushed w.others told.mute quiet).console n
  · cases call with
    | taskCreateEx pageDir arg onExit =>
      simp only [SchedulerRuns.apply]
      rcases create_joins told.valid told.running pageDir arg onExit with ⟨heap,frames,same,_⟩ | ⟨t,heap,frames,stack,_,made,_⟩
      · rw [same]
        rfl
      · rw [made]
        rfl
    | heap call => rfl
    | frames next => rfl
    | _ => exact absurd trivial quiet

theorem said_snoc (calls : List Utterance) (text : List Byte) : said (calls++[.wrote text]) = said calls++text := by
  rw [said_append,said,said,List.append_nil]

theorem unfinished_snoc (calls : List Utterance) (call : Utterance) :
    unfinished (calls++[call]) = hear (unfinished calls) call := by
  rw [unfinished,List.foldl_append]
  rfl

-- SYS_WRITE of the current task.
theorem cut_wrote (told : Told w ring) (held : Cut w) (printable : ∀ byte ∈ text,byte ≠ 0#8) :
    Cut (spoken w (bufferedWrite w.sched w.sched.current text) [.wrote text]) := by
  have current := told.alive _ told.valid.current
  obtain ⟨own,alone⟩ := text_cut current.sane printable
  have rest := (text_speech current.sane printable).2
  have real := told.valid.nonzero told.valid.current
  intro n quiet
  unfold spoken bufferedWrite at *
  dsimp only at *
  rw [if_neg real]
  by_cases mine : n = serialOf w.sched w.sched.current
  · subst mine
    rw [Function.update_self] at quiet ⊢
    have before := held _ (fun call member => quiet call (List.mem_append_left _ member))
    rw [said_snoc,unfinished_snoc,cut,List.foldl_append]
    change _ = text.foldl cutByte (cut _)
    have lineIs : line (w.sched.tasks w.sched.current) = unfinished (w.calls (serialOf w.sched w.sched.current)) := current.rest
    rw [←before,←lineIs,←own,rest]
    rfl
  · rw [Function.update_of_ne mine] at quiet ⊢
    rw [alone n mine]
    exact held n quiet

-- SYS_EXIT: the others are not concerned, and the caller is not one who only wrote.
theorem cut_exit (held : Cut w) (alone : ∀ n,n ≠ serialOf w.sched w.sched.current → pieces after n = pieces w.sched n) :
    Cut (spoken w after [.exit]) := by
  intro n quiet
  unfold spoken at *
  dsimp only at *
  by_cases mine : n = serialOf w.sched w.sched.current
  · subst mine
    rw [Function.update_self] at quiet
    have last := quiet .exit (List.mem_append_right _ (List.mem_singleton_self _))
    cases last
  · rw [Function.update_of_ne mine] at quiet ⊢
    rw [alone n mine]
    exact held n quiet

theorem flush_pieces {s : Sched} (sane : Sane (s.tasks t)) (n : Nat) (other : n ≠ serialOf s t) :
    pieces (syscallFlushOutput s t) n = pieces s n := by
  unfold syscallFlushOutput
  split
  · rfl
  · rw [show_pieces sane.text,if_neg other,List.append_nil]

theorem terminate_pieces {s : Sched} (mute : Mute s) (n : Nat) : pieces (taskTerminate s) n = pieces s n :=
  console_pieces (@call_hushed _ .taskTerminate [] mute trivial).console n

theorem cut_dispatched (told : Told w ring) (held : Cut w) (dispatched : Dispatched w.sched after calls) :
    Cut (spoken w after calls) := by
  have sane := (told.alive _ told.valid.current).sane
  have real := told.valid.nonzero told.valid.current
  cases dispatched with
  | unchanged =>
    rw [spoken_nothing]
    exact held
  | refused text =>
    rw [spoken_nothing]
    exact cut_same held rfl (kprintf_pieces w.sched text)
  | slept ticks =>
    rw [spoken_nothing]
    exact cut_same held rfl (call_pieces told (.taskSleep ticks))
  | wrote printable => exact cut_wrote told held printable
  | terminated ends =>
    obtain ⟨speech,rest⟩ := flush_speech real sane
    have mute : Mute (syscallFlushOutput w.sched w.sched.current) := (told_speech .exit told speech rest).mute
    refine cut_exit held fun n other => ?_
    rw [terminate_pieces mute,flush_pieces sane n other]
  | unwound => exact cut_exit held (flush_pieces sane)

theorem cut_step (told : Told w ring) (held : Cut w) (label : ProgramOutput.Label) : Cut (ProgramOutput.apply w label) := by
  cases label with
  | call call => exact cut_same held rfl (call_pieces told call)
  | syscall bytes moved regs =>
    have dispatched := cut_dispatched told held (dispatch_cases w.gate w.sched bytes moved regs)
    exact fun n => dispatched n
  | fault resume f =>
    refine cut_same held ?_ fun n => ?_
    · simp only [ProgramOutput.apply,faultStep]
    · simp only [ProgramOutput.apply,faultStep]
      split
      · exact (terminate_pieces (s:=kprintf w.sched _) told.mute n).trans (kprintf_pieces ..)
      · exact kprintf_pieces ..
  | window start end_ => exact cut_same held rfl fun _ => rfl
  | kprintf text => exact cut_same held rfl (kprintf_pieces w.sched text)

theorem runs_cut (path : Reached (speaking kernelEnd mbi) w) : (∃ ring,Told w ring) ∧ Cut w := by
  apply path.invariant
  · intro w started
    refine ⟨started_told started,fun n _ => ?_⟩
    have silent : pieces w.sched n = [] := by
      rw [pieces,List.filter_eq_nil_iff.mpr]
      · rfl
      · intro p member
        rw [started.silent p member]
        simp
    rw [silent,started.unheard]
    rfl
  · rintro w label next ⟨⟨ring,told⟩,held⟩ ⟨allowed,rfl⟩
    exact ⟨told_step told allowed,cut_step told held label⟩

-- One task's strings, pieces and buffer.
structure Buffered (w : World) (record : Task) : Prop where
  stream : (pieces w.sched record.serial).flatten++line record = said (w.calls record.serial)
  shape : ∀ p ∈ pieces w.sched record.serial,Piece p
  short : record.lineLen < sizeofOutbuf-1
  held : line record = (cut (said (w.calls record.serial))).2
  whole : ∀ before body after,said (w.calls record.serial) = before++body++[10#8]++after → (cut before).2 = [] →
    10#8 ∉ body → body.length+1 ≤ sizeofOutbuf-1 →
    ∃ first last,pieces w.sched record.serial = first++(body++[10#8])::last ∧ first.flatten = before

theorem accounted_buffered (accounted : Accounted w record) (held : Cut w)
    (quiet : ∀ call ∈ w.calls record.serial,isExit call = false) : Buffered w record := by
  have both := held _ quiet
  rw [←accounted.rest,Prod.mk.injEq] at both
  obtain ⟨shown,open_⟩ := both
  obtain ⟨stream,shape,_,_⟩ := cut_off (said (w.calls record.serial))
  rw [←shown] at stream shape
  rw [←open_] at stream
  refine ⟨stream,shape,accounted.sane.short,open_,?_⟩
  intro before body after text empty plain room
  obtain ⟨more,cuts⟩ := @whole_line _ body after empty plain room
  refine ⟨(cut before).1,more,?_,?_⟩
  · rw [shown,text]
    exact cuts
  · have earlier := (cut_off before).stream
    rwa [empty,List.append_nil] at earlier

-- Every task that has only written, whoever else wrote in between, and the stores of its
-- next call.
theorem line_buffering (path : Reached (speaking kernelEnd mbi) w) :
    ∃ ring,SchedulerRuns.Valid w.sched ring ∧
      (∀ t ∈ ring,(∀ call ∈ w.calls (serialOf w.sched t),isExit call = false) → Buffered w (w.sched.tasks t) ∧
        ∀ text,(∀ byte ∈ text,byte ≠ 0#8) → ∀ i,sizeofOutbuf ≤ i →
          ((bufferedWrite w.sched t text).tasks t).lineBuf i = (w.sched.tasks t).lineBuf i) ∧
      ∀ r ∈ w.sched.reaped,(∀ call ∈ w.calls r.record.serial,isExit call = false) → Buffered w r.record := by
  obtain ⟨⟨ring,told⟩,held⟩ := runs_cut path
  refine ⟨ring,SchedulerRuns.ring_valid told.valid told.running,?_,?_⟩
  · intro t member quiet
    have accounted := told.alive t member
    refine ⟨accounted_buffered accounted held quiet,fun text printable i behind => ?_⟩
    rw [bufferedWrite,if_neg (told.valid.nonzero member)]
    exact text_inside accounted.sane printable behind
  · exact fun r member quiet => accounted_buffered (told.dead r member) held quiet
end Accounts

-- Two programs take turns: one's line comes in two calls, around a text of the other's that
-- is longer than the buffer.
def writes (text : List Byte) : ProgramOutput.Label :=
  .syscall (fun addr => text.getD (addr-Loader.userLoadAddr) 0#8) 0 ⟨sysWrite,.ofNat 32 Loader.userLoadAddr,0#32⟩

def chatter : List ProgramOutput.Label :=
  [.call (.frames ⟨fun _ => 1#32,32,1⟩),.call (.taskCreateEx 0 1 Loader.programCleanup),
    .call (.taskCreateEx 0 2 Loader.programCleanup),.window Loader.userLoadAddr Loader.userStackTop,
    .call .taskSchedule,writes [97#8,98#8],.call .taskSchedule,writes (List.replicate 130 120#8),
    .call .taskSchedule,.call .taskSchedule,writes [99#8,10#8]]

def chatted : World := chatter.foldl ProgramOutput.apply silence

theorem chatted_reached : Reached (speaking 0x101000 KheapRuns.roomyMap) chatted := by
  refine @reached_by _ _ _ _ _ silence chatter silence_started ?_
  exact ⟨trivial,trivial,trivial,trivial,trivial,trivial,trivial,trivial,trivial,trivial,trivial,trivial⟩

theorem line_buffering_chatter : (∃ t,serialOf chatted.sched t = 1 ∧ Buffered chatted (chatted.sched.tasks t)) ∧
    (∃ t,serialOf chatted.sched t = 2 ∧ Buffered chatted (chatted.sched.tasks t)) ∧
    pieces chatted.sched 1 = [List.replicate 127 120#8] ∧ said (chatted.calls 1) = List.replicate 130 120#8 ∧
    pieces chatted.sched 2 = [[97#8,98#8,99#8,10#8]] := by
  obtain ⟨ring,valid,alive,_⟩ := line_buffering chatted_reached
  have facts : chatted.sched.births = 3 ∧ reapedSerials chatted.sched = [] ∧
      (chatted.calls 1++chatted.calls 2).all (fun call => !isExit call) = true := by decide +kernel
  obtain ⟨births,reaped,quiet⟩ := facts
  have both : ∀ n < 3,(∀ call ∈ chatted.calls n,call ∈ chatted.calls 1++chatted.calls 2) →
      ∃ t,serialOf chatted.sched t = n ∧ Buffered chatted (chatted.sched.tasks t) := by
    intro n below among
    obtain ⟨t,member,serial⟩ := List.mem_map.mp ((valid.complete n).mpr ⟨by omega,by rw [reaped]; exact List.not_mem_nil⟩)
    refine ⟨t,serial,(alive t member fun call said => ?_).1⟩
    rw [serial] at said
    have one := List.all_eq_true.mp quiet call (among call said)
    simpa using one
  refine ⟨both 1 (by decide) fun call => List.mem_append_left _,both 2 (by decide) fun call => List.mem_append_right _,?_⟩
  decide +kernel

end Arthic.LineBuffers
