import Arthic.Library.Chunks
import Arthic.Library.Numerals
import Arthic.PipeWakeups
import Mathlib.Data.List.GetD

namespace Arthic.ProgramPipe
open ByteMemory Chunks Numerals Pipes PipeStream PipeWakeups Scheduler Transition

-- What run_writer sends: its line with the two digits filled in, twenty times, and the
-- last word.
def lineText : List Byte := spell "line 00 through the pipe\n"
def figure (n : Nat) : Byte := BitVec.ofNat 8 (0x30+n)
def line (i : Nat) : List Byte := (lineText.set 5 (figure (i/10 % 10))).set 6 (figure (i % 10))
def lastWord : List Byte := spell "DONE\n"
def messages : List (List Byte) := (List.range 20).map (fun i => line (i+1))++[lastWord]

def chunkSize : Nat := 64

-- The loop of run_reader over what it got.
def seesDone (chunk : List Byte) : Bool := (List.range (chunk.length-3)).any fun i =>
  chunk.getD i 0#8 == character 'D' && chunk.getD (i+1) 0#8 == character 'O' && chunk.getD (i+2) 0#8 == character 'N' &&
    chunk.getD (i+3) 0#8 == character 'E'

def sentBy : Answer → Option (List Byte)
  | .write _ data _ => some data
  | .read _ _ _ _ => none
def gotBy : Answer → Option (List Byte)
  | .write _ _ _ => none
  | .read _ _ out _ => some out

def sent (w : World) : List (List Byte) := w.returned.filterMap sentBy
def chunks (w : World) : List (List Byte) := w.returned.filterMap gotBy
def printed (w : World) : List Byte := (chunks w).flatten
def finished (w : World) : Bool := (chunks w).any seesDone

-- The two programs on the pipe: the one writes its messages in order, the other reads
-- until it has seen the last word.
def Follows (writer reader : Nat) (w : World) : Label → Prop
  | .pipeWrite data => w.sched.current = writer ∧ messages[(sent w).length]? = some data
  | .pipeRead max => w.sched.current = reader ∧ max = chunkSize ∧ finished w = false
  | _ => True

def programs (writer reader : Nat) : System World Label :=
  guarded (fun w => Started w ∧ writer ≠ reader) (fun w label => Allowed created w label ∧
    Follows writer reader w label) apply

def WriterAt (w : World) : Control → Prop
  | .idle => bytes w.inserted = (sent w).flatten
  | .writing _ data i _ => messages[(sent w).length]? = some data ∧ i ≤ data.length ∧
    bytes w.inserted = (sent w).flatten++data.take i
  | .reading _ _ _ _ => False

def ReaderAt (w : World) : Control → Prop
  | .idle => bytes w.removed = printed w
  | .reading _ max out _ => max = chunkSize ∧ finished w = false ∧ bytes w.removed = printed w++out
  | .writing _ _ _ _ => False

def Asked : Answer → Prop
  | .write _ _ _ => True
  | .read _ max _ _ => max = chunkSize

structure Talking (writer reader : Nat) (w : World) : Prop where
  apart : writer ≠ reader
  said : sent w <+: messages
  writing : WriterAt w (w.control writer)
  reading : ReaderAt w (w.control reader)
  others : ∀ t,t ≠ writer → t ≠ reader → w.control t = .idle
  asked : ∀ reply ∈ w.returned,Asked reply

variable {writer reader : Nat} {w : World} {label : Label}

theorem writeSection_outcome (s : Sched) (p : Pipe) (byte : Byte) :
    (writeSection s p byte).1 = .moved byte ∨ (writeSection s p byte).1 = .parked := by
  unfold writeSection
  split
  · exact .inl rfl
  · exact .inr rfl

theorem readSection_outcome (s : Sched) (p : Pipe) (got : Nat) :
    (∃ byte,(readSection s p got).1 = .moved byte) ∨ (readSection s p got).1 = .stopped ∨
    (readSection s p got).1 = .parked := by
  unfold readSection
  split
  · exact .inl ⟨_,rfl⟩
  · split
    · exact .inr (.inl rfl)
    · exact .inr (.inr rfl)

-- What a section of a write leaves: a byte further, where it was, or done.
structure Shifted (w after : World) (control : Control) (inserted removed : List Byte) (returned : List Answer) :
    Prop where
  control : after.control = Function.update w.control w.sched.current control
  inserted : bytes after.inserted = inserted
  removed : bytes after.removed = removed
  returned : after.returned = returned

theorem write_shifts (w : World) (call : Nat) (data : List Byte) (i : Nat) :
    (i < data.length ∧ Shifted w (writeStep w call data i) (.writing call data (i+1) false)
      (bytes w.inserted++[data.getD i 0#8]) (bytes w.removed) w.returned) ∨
    Shifted w (writeStep w call data i) (.writing call data i true) (bytes w.inserted) (bytes w.removed) w.returned ∨
    (data.length ≤ i ∧ Shifted w (writeStep w call data i) .idle (bytes w.inserted) (bytes w.removed)
      (w.returned++[.write call data data.length])) := by
  unfold writeStep
  split
  · rename_i more
    dsimp only
    have outcome := writeSection_outcome w.sched w.pipe (data.getD i 0#8)
    generalize writeSection w.sched w.pipe (data.getD i 0#8) = result at *
    obtain ⟨found,sched,pipe⟩ := result
    rcases outcome with moved | parked
    · cases moved
      exact .inl ⟨more,rfl,bytes_snoc ..,rfl,rfl⟩
    · cases parked
      exact .inr (.inl ⟨rfl,rfl,rfl,rfl⟩)
  · rename_i spent
    exact .inr (.inr ⟨Nat.le_of_not_lt spent,rfl,rfl,rfl,rfl⟩)

theorem read_shifts (w : World) (call max : Nat) (out : List Byte) :
    (∃ byte,Shifted w (readStep w call max out) (.reading call max (out++[byte]) false) (bytes w.inserted) (bytes w.removed++[byte]) w.returned) ∨
    Shifted w (readStep w call max out) (.reading call max out true) (bytes w.inserted) (bytes w.removed) w.returned ∨
    Shifted w (readStep w call max out) .idle (bytes w.inserted) (bytes w.removed) (w.returned++[.read call max out out.length]) := by
  unfold readStep
  split
  · dsimp only
    have outcome := readSection_outcome w.sched w.pipe out.length
    generalize readSection w.sched w.pipe out.length = result at *
    obtain ⟨found,sched,pipe⟩ := result
    rcases outcome with ⟨byte,moved⟩ | stopped | parked
    · cases moved
      exact .inl ⟨byte,rfl,rfl,bytes_snoc ..,rfl⟩
    · cases stopped
      exact .inr (.inr ⟨rfl,rfl,rfl,rfl⟩)
    · cases parked
      exact .inr (.inl ⟨rfl,rfl,rfl,rfl⟩)
  · exact .inr (.inr ⟨rfl,rfl,rfl,rfl⟩)

theorem talking_start (started : Started w) (apart : writer ≠ reader) : Talking writer reader w := by
  obtain ⟨pipe,control,calls,inserted,removed,returned⟩ := started
  have none : sent w = [] ∧ chunks w = [] := by
    unfold sent chunks
    rw [returned]
    exact ⟨rfl,rfl⟩
  refine ⟨apart,?_,?_,?_,fun t _ _ => control t,by rw [returned]; nofun⟩
  · rw [none.1]
    exact List.nil_prefix
  · rw [control]
    unfold WriterAt
    rw [none.1,inserted]
    rfl
  · rw [control]
    unfold ReaderAt printed
    rw [none.2,removed]
    rfl

variable {call i max : Nat} {data out : List Byte} {resting : Bool}

theorem writes_here (talking : Talking writer reader w) (here : w.control w.sched.current = .writing call data i resting) :
    w.sched.current = writer := by
  by_contra other
  by_cases same : w.sched.current = reader
  · have reading := talking.reading
    rw [←same,here] at reading
    exact reading
  · rw [talking.others _ other same] at here
    cases here

theorem reads_here (talking : Talking writer reader w) (here : w.control w.sched.current = .reading call max out resting) :
    w.sched.current = reader := by
  by_contra other
  by_cases same : w.sched.current = writer
  · have writing := talking.writing
    rw [←same,here] at writing
    exact writing
  · rw [talking.others _ same other] at here
    cases here

-- The writer does something: the reader's side keeps what it tells.
theorem talking_writer {after : World} {control : Control} (talking : Talking writer reader w)
    (here : w.sched.current = writer)
    (moved : after.control = Function.update w.control w.sched.current control) (removed : bytes after.removed = bytes w.removed)
    (read : chunks after = chunks w) (said : sent after <+: messages) (writing : WriterAt after control)
    (asked : ∀ reply ∈ after.returned,Asked reply) : Talking writer reader after := by
  refine ⟨talking.apart,said,?_,?_,fun t other another => ?_,asked⟩
  · rw [moved,here,Function.update_self]
    exact writing
  · rw [moved,here,Function.update_of_ne talking.apart.symm]
    have reading := talking.reading
    cases at_ : w.control reader with
    | idle =>
      rw [at_] at reading
      unfold ReaderAt printed at *
      rw [removed,read]
      exact reading
    | reading call max out resting =>
      rw [at_] at reading
      unfold ReaderAt printed finished at *
      rw [removed,read]
      exact reading
    | writing call data i resting =>
      rw [at_] at reading
      exact reading.elim
  · rw [moved,here,Function.update_of_ne other]
    exact talking.others t other another

theorem talking_reader {after : World} {control : Control} (talking : Talking writer reader w)
    (here : w.sched.current = reader)
    (moved : after.control = Function.update w.control w.sched.current control) (inserted : bytes after.inserted = bytes w.inserted)
    (wrote : sent after = sent w) (reading : ReaderAt after control)
    (asked : ∀ reply ∈ after.returned,Asked reply) : Talking writer reader after := by
  refine ⟨talking.apart,wrote ▸ talking.said,?_,?_,fun t other another => ?_,asked⟩
  · rw [moved,here,Function.update_of_ne talking.apart]
    have writing := talking.writing
    cases at_ : w.control writer with
    | idle =>
      rw [at_] at writing
      unfold WriterAt at *
      rw [inserted,wrote]
      exact writing
    | writing call data i resting =>
      rw [at_] at writing
      unfold WriterAt at *
      rw [inserted,wrote]
      exact writing
    | reading call max out resting =>
      rw [at_] at writing
      exact writing.elim
  · rw [moved,here,Function.update_self]
    exact reading
  · rw [moved,here,Function.update_of_ne another]
    exact talking.others t other another

theorem asked_more {returned : List Answer} {reply : Answer} (asked : ∀ earlier ∈ returned,Asked earlier)
    (new : Asked reply) :
    ∀ later ∈ returned++[reply],Asked later := by
  intro later member
  rcases List.mem_append.mp member with old | last
  · exact asked later old
  · exact List.mem_singleton.mp last ▸ new

theorem talking_write (talking : Talking writer reader w) (here : w.control w.sched.current = .writing call data i resting) :
    Talking writer reader (writeStep w call data i) := by
  have owner := writes_here talking here
  have writing := talking.writing
  rw [←owner,here] at writing
  obtain ⟨message,inside,stream⟩ := writing
  rcases write_shifts w call data i with ⟨more,shift⟩ | shift | ⟨spent,shift⟩
  · have same : sent (writeStep w call data i) = sent w := congrArg (List.filterMap sentBy) shift.returned
    refine talking_writer talking owner shift.control shift.removed (congrArg (List.filterMap gotBy) shift.returned) (same ▸ talking.said) ⟨?_,more,?_⟩ (shift.returned ▸ talking.asked)
    · rw [same]
      exact message
    · rw [same,shift.inserted,stream,List.append_assoc,List.take_add_one,List.getD_eq_getElem?_getD,
      List.getElem?_eq_getElem more]
      rfl
  · have same : sent (writeStep w call data i) = sent w := congrArg (List.filterMap sentBy) shift.returned
    refine talking_writer talking owner shift.control shift.removed (congrArg (List.filterMap gotBy) shift.returned) (same ▸ talking.said) ⟨?_,inside,?_⟩ (shift.returned ▸ talking.asked)
    · rw [same]
      exact message
    · rw [same,shift.inserted,stream]
  · have grown : sent (writeStep w call data i) = sent w++[data] := by
      refine (congrArg (List.filterMap sentBy) shift.returned).trans ?_
      rw [List.filterMap_append]
      rfl
    have read : chunks (writeStep w call data i) = chunks w := by
      refine (congrArg (List.filterMap gotBy) shift.returned).trans ?_
      rw [List.filterMap_append]
      exact List.append_nil _
    refine talking_writer talking owner shift.control shift.removed read ?_ ?_ (shift.returned ▸ asked_more talking.asked trivial)
    · rw [grown]
      obtain ⟨rest,whole⟩ := talking.said
      rw [←whole,List.getElem?_append_right (Nat.le_refl _),Nat.sub_self] at message
      cases rest with
      | nil => cases message
      | cons first rest =>
        cases message
        exact ⟨rest,by rw [List.append_assoc]; exact whole⟩
    · unfold WriterAt
      rw [grown,shift.inserted,stream,List.flatten_append,List.flatten_singleton,List.take_of_length_le spent]

theorem talking_read (talking : Talking writer reader w) (here : w.control w.sched.current = .reading call max out resting) :
    Talking writer reader (readStep w call max out) := by
  have owner := reads_here talking here
  have reading := talking.reading
  rw [←owner,here] at reading
  obtain ⟨size,unfinished,stream⟩ := reading
  rcases read_shifts w call max out with ⟨byte,shift⟩ | shift | shift
  · have same : chunks (readStep w call max out) = chunks w := congrArg (List.filterMap gotBy) shift.returned
    refine talking_reader talking owner shift.control shift.inserted (congrArg (List.filterMap sentBy) shift.returned) ⟨size,?_,?_⟩
      (shift.returned ▸ talking.asked)
    · unfold finished at *
      rw [same]
      exact unfinished
    · unfold printed at *
      rw [same,shift.removed,stream,List.append_assoc]
  · have same : chunks (readStep w call max out) = chunks w := congrArg (List.filterMap gotBy) shift.returned
    refine talking_reader talking owner shift.control shift.inserted (congrArg (List.filterMap sentBy) shift.returned) ⟨size,?_,?_⟩
      (shift.returned ▸ talking.asked)
    · unfold finished at *
      rw [same]
      exact unfinished
    · unfold printed at *
      rw [same,shift.removed,stream]
  · have grown : chunks (readStep w call max out) = chunks w++[out] := by
      refine (congrArg (List.filterMap gotBy) shift.returned).trans ?_
      rw [List.filterMap_append]
      rfl
    have wrote : sent (readStep w call max out) = sent w := by
      refine (congrArg (List.filterMap sentBy) shift.returned).trans ?_
      rw [List.filterMap_append]
      exact List.append_nil _
    refine talking_reader talking owner shift.control shift.inserted wrote ?_ (shift.returned ▸ asked_more talking.asked size)
    unfold ReaderAt printed at *
    rw [grown,shift.removed,stream,List.flatten_append,List.flatten_singleton]

theorem talking_step (talking : Talking writer reader w) (allowed : Allowed created w label)
    (follows : Follows writer reader w label) :
    Talking writer reader (apply w label) := by
  cases label with
  | dispatch t => exact ⟨talking.apart,talking.said,talking.writing,talking.reading,talking.others,talking.asked⟩
  | pipeWrite data =>
    obtain ⟨here,message⟩ := follows
    have writing := talking.writing
    rw [←here,allowed.2.1] at writing
    refine talking_writer talking here rfl rfl rfl talking.said ⟨message,Nat.zero_le _,?_⟩ talking.asked
    rw [List.take_zero,List.append_nil]
    exact writing
  | pipeRead max =>
    obtain ⟨here,size,unfinished⟩ := follows
    have reading := talking.reading
    rw [←here,allowed.2.1] at reading
    refine talking_reader talking here rfl rfl rfl ⟨size,unfinished,?_⟩ talking.asked
    rw [List.append_nil]
    exact reading
  | proceed =>
    unfold apply
    dsimp only
    split
    · exact talking
    · rename_i call data i resting here
      exact talking_write talking here
    · rename_i call max out resting here
      exact talking_read talking here

theorem runs_talking (path : Reached (programs writer reader) w) : Talking writer reader w := by
  apply path.invariant
  · exact fun _ started => talking_start started.1 started.2
  · rintro w label next talking ⟨⟨allowed,follows⟩,rfl⟩
    exact talking_step talking allowed follows

-- The programs' calls are calls like any other.
theorem runs_traffic (path : Reached (programs writer reader) w) : Reached (traffic created) w := by
  obtain ⟨start,labels,⟨started,_⟩,path⟩ := path
  refine ⟨start,labels,started,?_⟩
  induction path with
  | nil => exact .nil
  | step _ step ih => exact .step ih ⟨step.1.1,step.2⟩

def doneWord : List Byte := spell "DONE"

theorem doneWord_bytes : doneWord = [character 'D',character 'O',character 'N',character 'E'] := rfl

theorem sees_doneWord (chunk : List Byte) : seesDone chunk = true ↔ doneWord <:+: chunk := by
  rw [doneWord_bytes]
  unfold seesDone
  rw [List.any_eq_true]
  constructor
  · intro ⟨i,member,found⟩
    have inside := List.mem_range.mp member
    simp only [Bool.and_eq_true,beq_iff_eq] at found
    obtain ⟨⟨⟨first,second⟩,third⟩,fourth⟩ := found
    rw [List.getD_eq_getElem _ _ (by omega)] at first second third fourth
    have piece : chunk.drop i = character 'D'::character 'O'::character 'N'::character 'E'::chunk.drop (i+1+1+1+1) := by
      rw [List.drop_eq_getElem_cons (by omega),List.drop_eq_getElem_cons (by omega),List.drop_eq_getElem_cons (by omega),
        List.drop_eq_getElem_cons (by omega),first,second,third,fourth]
    have begins : [character 'D',character 'O',character 'N',character 'E'] <+: chunk.drop i := ⟨_,piece.symm⟩
    exact begins.isInfix.trans (List.drop_suffix _ _).isInfix
  · rintro ⟨lead,tail,rfl⟩
    refine ⟨lead.length,List.mem_range.mpr (by simp; omega),?_⟩
    simp [List.getD_eq_getElem?_getD]

theorem line_plain : ∀ i : Fin 20,character 'D' ∉ line (i+1) ∧ (line (i+1)).length = 25 := by
  decide

def numbered : List (List Byte) := (List.range 20).map fun i => line (i+1)

theorem numbered_flat : character 'D' ∉ numbered.flatten ∧ numbered.flatten.length = 500 := by
  constructor
  · intro member
    obtain ⟨message,among,inside⟩ := List.mem_flatten.mp member
    obtain ⟨i,below,rfl⟩ := List.mem_map.mp among
    exact (line_plain ⟨i,List.mem_range.mp below⟩).1 inside
  · have same : ∀ message ∈ numbered,message.length = 25 := by
      intro message among
      obtain ⟨i,below,rfl⟩ := List.mem_map.mp among
      exact (line_plain ⟨i,List.mem_range.mp below⟩).2
    have lengths : numbered.map List.length = List.replicate 20 25 := by
      refine List.eq_replicate_iff.mpr ⟨rfl,fun length member => ?_⟩
      obtain ⟨message,among,rfl⟩ := List.mem_map.mp member
      exact same message among
    rw [List.length_flatten,lengths,List.sum_replicate_nat]

theorem stream_flat : messages.flatten = numbered.flatten++lastWord := by
  unfold messages numbered
  rw [List.flatten_append,List.flatten_singleton]

theorem word_once : Once lastWord doneWord 0 := by
  have near : ∀ i : Fin 5,doneWord <+: lastWord.drop i ↔ (i : Nat) = 0 := by decide
  intro i
  by_cases inside : i < 5
  · exact near ⟨i,inside⟩
  · rw [List.drop_eq_nil_of_le (show lastWord.length ≤ i from Nat.le_of_not_lt inside)]
    exact ⟨fun found => absurd found (by decide),fun zero => absurd (by omega) inside⟩

theorem stream_once : Once messages.flatten doneWord 500 := by
  rw [stream_flat,←numbered_flat.2]
  exact once_append numbered_flat.1 word_once

theorem printed_prefix (path : Reached (programs writer reader) w) : printed w <+: bytes w.removed ∧
    bytes w.removed <+: messages.flatten := by
  have talking := runs_talking path
  have order := (runs_stream (runs_traffic path)).flow.order
  constructor
  · have reading := talking.reading
    cases at_ : w.control reader with
    | idle =>
      rw [at_] at reading
      exact (show bytes w.removed = printed w from reading) ▸ List.prefix_refl _
    | reading call max out resting =>
      rw [at_] at reading
      rw [reading.2.2]
      exact List.prefix_append _ _
    | writing call data i resting =>
      rw [at_] at reading
      exact reading.elim
  · have taken : bytes w.removed <+: bytes w.inserted := ⟨_,order⟩
    refine taken.trans ?_
    obtain ⟨rest,whole⟩ := talking.said
    have writing := talking.writing
    rw [←whole,List.flatten_append]
    cases at_ : w.control writer with
    | idle =>
      rw [at_] at writing
      rw [show bytes w.inserted = (sent w).flatten from writing]
      exact List.prefix_append _ _
    | writing call data i resting =>
      rw [at_] at writing
      obtain ⟨message,_,stream⟩ := writing
      rw [←whole,List.getElem?_append_right (Nat.le_refl _),Nat.sub_self] at message
      cases rest with
      | nil => cases message
      | cons first rest =>
        cases message
        rw [stream,List.flatten_cons,List.prefix_append_right_inj]
        exact (List.take_prefix _ _).trans (List.prefix_append _ _)
    | reading call max out resting =>
      rw [at_] at writing
      exact writing.elim

theorem finished_exactly (path : Reached (programs writer reader) w) : finished w = true ↔
    504 ≤ (printed w).length ∧ ∀ cut ∈ cuts 0 (chunks w),cut ≤ 500 ∨ 504 ≤ cut := by
  obtain ⟨first,second⟩ := printed_prefix path
  have whole := marker_whole stream_once (by decide) (first.trans second)
  unfold finished
  rw [List.any_eq_true]
  simp only [sees_doneWord]
  exact whole

-- With nothing more to come, a reader that sleeps has had everything.
theorem sleeping_reader (path : Reached (programs writer reader) w) (said : sent w = messages)
    (parked : Parked restsReading w reader) :
    printed w = messages.flatten ∧ finished w = false := by
  have talking := runs_talking path
  have flow := (runs_stream (runs_traffic path)).flow
  obtain ⟨readers,wokenReaders,writers,wokenWriters,kept⟩ := runs_kept (runs_traffic path)
  have waits := (kept.reading.parkedIs reader).mpr parked
  have nobody : wokenReaders = [] := by
    refine List.eq_nil_iff_forall_not_mem.mpr fun t member => ?_
    obtain ⟨rests,awake⟩ := (kept.reading.wokenIs t).mp member
    by_cases atReader : t = reader
    · exact awake (atReader ▸ parked.2)
    · by_cases atWriter : t = writer
      · have writing := talking.writing
        rw [←atWriter] at writing
        cases at_ : w.control t with
        | idle => rw [at_] at rests; cases rests
        | writing call data i resting => rw [at_] at rests; cases rests
        | reading call max out resting => rw [at_] at writing; exact writing.elim
      · rw [talking.others t atWriter atReader] at rests
        cases rests
  have empty : w.pipe.count = 0 := by
    have enough := kept.enoughReaders fun none => by rw [none] at waits; cases waits
    rw [nobody] at enough
    exact Nat.le_zero.mp enough
  have drained : bytes w.removed = bytes w.inserted := by
    rw [←flow.order]
    unfold ringBytes
    rw [empty]
    exact (List.append_nil _).symm
  have everything : bytes w.inserted = messages.flatten := by
    have writing := talking.writing
    cases at_ : w.control writer with
    | idle =>
      rw [at_] at writing
      exact said ▸ writing
    | writing call data i resting =>
      rw [at_] at writing
      have message := writing.1
      rw [said,List.getElem?_eq_none (Nat.le_refl _)] at message
      cases message
    | reading call max out resting =>
      rw [at_] at writing
      exact writing.elim
  have reading := talking.reading
  have fits := kept.fits reader
  have rests := parked.1
  cases at_ : w.control reader with
  | idle => rw [at_] at rests; cases rests
  | writing call data i resting => rw [at_] at rests; cases rests
  | reading call max out resting =>
    rw [at_] at reading fits rests
    obtain ⟨_,unfinished,stream⟩ := reading
    rw [(fits rests).1,List.append_nil] at stream
    exact ⟨stream.symm.trans (drained.trans everything),unfinished⟩

theorem chunk_sizes (path : Reached (programs writer reader) w) : ∀ chunk ∈ chunks w,0 < chunk.length ∧
    chunk.length ≤ chunkSize := by
  intro chunk member
  obtain ⟨reply,among,got⟩ := List.mem_filterMap.mp member
  have asked := (runs_talking path).asked reply among
  have fits := ((runs_stream (runs_traffic path)).answered reply among).2.2
  cases reply with
  | write call data length => cases got
  | read call max out length =>
    cases got
    obtain ⟨counted,_,sized⟩ := fits
    have size : max = chunkSize := asked
    rw [size] at sized
    rw [counted] at sized
    exact sized (by decide)

theorem programs_talk (path : Reached (programs writer reader) w) :
    printed w <+: messages.flatten ∧ (∀ chunk ∈ chunks w,0 < chunk.length ∧ chunk.length ≤ chunkSize) ∧
    (finished w = true ↔ 504 ≤ (printed w).length ∧ ∀ cut ∈ cuts 0 (chunks w),cut ≤ 500 ∨ 504 ≤ cut) ∧
    (sent w = messages → Parked restsReading w reader →
      printed w = messages.flatten ∧ ∃ cut ∈ cuts 0 (chunks w),500 < cut ∧ cut < 504) := by
  obtain ⟨first,second⟩ := printed_prefix path
  refine ⟨first.trans second,chunk_sizes path,finished_exactly path,fun said parked => ?_⟩
  obtain ⟨whole,unfinished⟩ := sleeping_reader path said parked
  refine ⟨whole,?_⟩
  by_contra clear
  have seen := (finished_exactly path).mpr ⟨?_,fun cut ends => ?_⟩
  · rw [unfinished] at seen
    cases seen
  · rw [whole,stream_flat,List.length_append,numbered_flat.2]
    decide
  · by_contra inside
    exact clear ⟨cut,ends,by omega⟩

instance decidableIdle (control : Control) : Decidable (control = .idle) :=
  match control with
  | .idle => isTrue rfl
  | .writing _ _ _ _ => isFalse nofun
  | .reading _ _ _ _ => isFalse nofun

instance decidableFollows (writer reader : Nat) (w : World) (label : Label) :
    Decidable (Allowed created w label ∧ Follows writer reader w label) :=
  match label with
  | .dispatch t => inferInstanceAs (Decidable ((w.sched.tasks t).state = .ready ∧ True))
  | .pipeWrite data => inferInstanceAs (Decidable (((w.sched.tasks w.sched.current).state = .running ∧
      w.control w.sched.current = .idle ∧ (w.sched.current ≠ 0 ∧ w.sched.current ≠ w.sched.taskRing) ∧
        data.length < 2^32) ∧
      w.sched.current = writer ∧ messages[(sent w).length]? = some data))
  | .pipeRead max => inferInstanceAs (Decidable (((w.sched.tasks w.sched.current).state = .running ∧
      w.control w.sched.current = .idle ∧ (w.sched.current ≠ 0 ∧ w.sched.current ≠ w.sched.taskRing) ∧ max < 2^32) ∧
      w.sched.current = reader ∧ max = chunkSize ∧ finished w = false))
  | .proceed => inferInstanceAs (Decidable (((w.sched.tasks w.sched.current).state = .running ∧
      w.control w.sched.current ≠ .idle) ∧ True))

def tells (first count : Nat) : List Label :=
  (List.range count).flatMap fun k => .pipeWrite (messages.getD (first+k) [])::List.replicate ((messages.getD (first+k) []).length+1) .proceed
def hears (count : Nat) : List Label := .pipeRead chunkSize::List.replicate (count+1) .proceed

-- The reader has the first ten lines before the eleventh is sent, then the next five, and
-- then the rest is all there when it goes on: its chunks end at 250, 375, 439 and 503.
def split : List Label :=
  tells 0 10++.dispatch 2::hears 64++hears 64++hears 64++hears 58++.dispatch 1::tells 10 5++.dispatch 2::hears 64++hears 61++
    .dispatch 1::tells 15 6++.dispatch 2::hears 64++hears 64++hears 2++[.pipeRead chunkSize,.proceed]

def splitWorld : World := split.foldl apply quiet

theorem split_runs : Permitted (fun w label => Allowed created w label ∧ Follows 1 2 w label) apply quiet split ∧
    sent splitWorld = messages ∧ restsReading (splitWorld.control 2) = true ∧
    (splitWorld.sched.tasks 2).state = .blocked := by
  decide +kernel

theorem split_reached : Reached (programs 1 2) splitWorld :=
  reached_by (s:=quiet) ⟨⟨rfl,fun _ => rfl,rfl,rfl,rfl,rfl⟩,by decide⟩ split_runs.1

theorem split_parked : Parked restsReading splitWorld 2 := ⟨split_runs.2.2.1,split_runs.2.2.2⟩

theorem programs_talk_split : printed splitWorld = messages.flatten ∧ ∃ cut ∈ cuts 0 (chunks splitWorld),500 < cut ∧
    cut < 504 :=
  (programs_talk split_reached).2.2.2 split_runs.2.1 split_parked

end Arthic.ProgramPipe
