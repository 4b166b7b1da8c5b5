import Arthic.Pipes

namespace Arthic.PipeStream
open ByteMemory Scheduler Pipes RingBuffer Transition
variable {w : World} {users : Sched → Nat → Prop}

def ringBytes (p : Pipe) : List Byte := contents pipeCapacity p.buffer p.readPos p.count

def bytes (log : List (Nat × Byte)) : List Byte := log.map Prod.snd
def history (call : Nat) (log : List (Nat × Byte)) : List Byte := bytes (log.filter fun entry => entry.1 == call)

theorem bytes_snoc (log : List (Nat × Byte)) (entry : Nat × Byte) : bytes (log++[entry]) = bytes log++[entry.2] := by
  simp [bytes]

theorem history_own (call : Nat) (log : List (Nat × Byte)) (byte : Byte) :
    history call (log++[(call,byte)]) = history call log++[byte] := by
  simp [history,bytes,List.filter_append]

theorem history_other (different : other ≠ call) (log : List (Nat × Byte)) (byte : Byte) :
    history call (log++[(other,byte)]) = history call log := by
  simp [history,bytes,List.filter_append,different]

theorem history_fresh (fresh : ∀ entry ∈ log,entry.1 < call) : history call log = [] := by
  have none : log.filter (fun entry => entry.1 == call) = [] := by
    rw [List.filter_eq_nil_iff]
    intro entry member equal
    have below := fresh entry member
    simp only [beq_iff_eq] at equal
    omega
  rw [history,none]
  rfl

def Control.call : Control → Option Nat
  | .idle => none
  | .writing call _ _ _ => some call
  | .reading call _ _ _ => some call

def Answer.call : Answer → Nat
  | .write call _ _ => call
  | .read call _ _ _ => call

-- The ring holds what was inserted and not yet removed.
structure Flow (p : Pipe) (inserted removed : List Byte) : Prop where
  bound : p.count ≤ pipeCapacity
  reading : p.readPos < pipeCapacity
  writing : p.writePos = (p.readPos+p.count) % pipeCapacity
  order : removed++ringBytes p = inserted

theorem flow_insert (flow : Flow p inserted removed) (room : p.count < pipeCapacity) :
    Flow (putByte p byte) (inserted++[byte]) removed := by
  refine ⟨room,flow.reading,?_,?_⟩
  · simp only [putByte,flow.writing,Nat.mod_add_mod]
    rw [Nat.add_assoc]
  · rw [←flow.order]
    simp only [ringBytes,putByte,flow.writing]
    rw [contents_push room,List.append_assoc]

theorem flow_remove (flow : Flow p inserted removed) (some : 0 < p.count) :
    Flow (takeByte p).2 inserted (removed++[(takeByte p).1]) := by
  have reading := flow.reading
  have bound := flow.bound
  refine ⟨?_,Nat.mod_lt _ (by decide),?_,?_⟩
  · simp only [takeByte]; omega
  · simp only [takeByte,Nat.mod_add_mod,flow.writing]
    congr 1
    omega
  · have split := contents_pop pipeCapacity p.buffer p.readPos (p.count-1)
    rw [Nat.sub_add_cancel some,Nat.mod_eq_of_lt reading] at split
    rw [←flow.order]
    simp only [ringBytes,takeByte,split,List.append_assoc,List.singleton_append]

-- What a section does to the stream, whatever it does to the queues.
theorem writeSection_flow (flow : Flow p inserted removed) :
    (p.count < pipeCapacity ∧ (writeSection s p byte).1 = .moved byte ∧
      Flow (writeSection s p byte).2.2 (inserted++[byte]) removed) ∨
    ((writeSection s p byte).1 = .parked ∧ Flow (writeSection s p byte).2.2 inserted removed) := by
  unfold writeSection
  split
  · rename_i room
    have after := @flow_insert _ _ _ byte flow room
    exact .inl ⟨room,rfl,after.bound,after.reading,after.writing,after.order⟩
  · exact .inr ⟨rfl,flow.bound,flow.reading,flow.writing,flow.order⟩

theorem readSection_flow (flow : Flow p inserted removed) :
    (∃ byte,(readSection s p got).1 = .moved byte ∧ Flow (readSection s p got).2.2 inserted (removed++[byte])) ∨
    (0 < got ∧ (readSection s p got).1 = .stopped) ∨
    ((readSection s p got).1 = .parked ∧ Flow (readSection s p got).2.2 inserted removed) := by
  unfold readSection
  split
  · rename_i some
    have after := flow_remove flow some
    exact .inl ⟨_,rfl,after.bound,after.reading,after.writing,after.order⟩
  · split
    · rename_i some
      exact .inr (.inl ⟨some,rfl⟩)
    · exact .inr (.inr ⟨rfl,flow.bound,flow.reading,flow.writing,flow.order⟩)

def ControlFits (w : World) : Control → Prop
  | .idle => True
  | .writing call data i _ => i ≤ data.length ∧ history call w.inserted = data.take i
  | .reading call max out _ => out.length ≤ max ∧ history call w.removed = out

def AnswerFits (w : World) : Answer → Prop
  | .write call data length => length = data.length ∧ history call w.inserted = data
  | .read call max out got => got = out.length ∧ history call w.removed = out ∧ (0 < max → 1 ≤ got ∧ got ≤ max)

-- Every active call has a number of its own, and a number is not used again after its
-- call returned, so what a call moved stays what it was.
structure Stream (w : World) : Prop where
  flow : Flow w.pipe (bytes w.inserted) (bytes w.removed)
  insertedOld : ∀ entry ∈ w.inserted,entry.1 < w.calls
  removedOld : ∀ entry ∈ w.removed,entry.1 < w.calls
  active : ∀ t call,Control.call (w.control t) = some call → call < w.calls
  apart : ∀ t u call,Control.call (w.control t) = some call → Control.call (w.control u) = some call → t = u
  fits : ∀ t,ControlFits w (w.control t)
  answered : ∀ reply ∈ w.returned,Answer.call reply < w.calls ∧
    (∀ t,Control.call (w.control t) ≠ some (Answer.call reply)) ∧ AnswerFits w reply

theorem stream_start (started : Started w) : Stream w := by
  obtain ⟨pipe,idle,calls,inserted,removed,returned⟩ := started
  have none : ∀ t,Control.call (w.control t) = none := fun t => by rw [idle t]; rfl
  refine ⟨?_,by simp [inserted],by simp [removed],by simp [none],by simp [none],?_,by simp [returned]⟩
  · rw [pipe,inserted,removed]
    exact ⟨Nat.zero_le _,by decide,by decide,rfl⟩
  · intro t
    rw [idle t]
    trivial

-- A log that grew by at most one byte of one call.
def Grown (call : Nat) (before after : List (Nat × Byte)) : Prop :=
  after = before ∨ ∃ byte,after = before++[(call,byte)]

theorem grown_other (grown : Grown call before after) (different : call ≠ other) :
    history other after = history other before := by
  rcases grown with rfl | ⟨byte,rfl⟩
  · rfl
  · exact history_other different _ _

theorem grown_old (grown : Grown call before after) (old : ∀ entry ∈ before,entry.1 < calls) (below : call < calls) :
    ∀ entry ∈ after,entry.1 < calls := by
  rcases grown with rfl | ⟨byte,rfl⟩
  · exact old
  · intro entry member
    rcases List.mem_append.mp member with earlier | last
    · exact old entry earlier
    · rw [List.mem_singleton.mp last]
      exact below

theorem fits_other {after : World} {control : Control} (inserted : Grown call w.inserted after.inserted)
    (removed : Grown call w.removed after.removed) (different : Control.call control ≠ some call)
    (fits : ControlFits w control) : ControlFits after control := by
  cases control with
  | idle => trivial
  | writing other data i resting =>
    have apart : call ≠ other := fun equal => different (by rw [equal]; rfl)
    exact ⟨fits.1,(grown_other inserted apart).trans fits.2⟩
  | reading other max out resting =>
    have apart : call ≠ other := fun equal => different (by rw [equal]; rfl)
    exact ⟨fits.1,(grown_other removed apart).trans fits.2⟩

theorem answer_other {after : World} {reply : Answer} (inserted : Grown call w.inserted after.inserted)
    (removed : Grown call w.removed after.removed) (different : call ≠ Answer.call reply)
    (fits : AnswerFits w reply) : AnswerFits after reply := by
  cases reply with
  | write other data length => exact ⟨fits.1,(grown_other inserted different).trans fits.2⟩
  | read other max out got => exact ⟨fits.1,(grown_other removed different).trans fits.2.1,fits.2.2⟩

-- The current task goes on with its call, having moved at most one byte.
theorem stream_move {after : World} (valid : Stream w) (owner : Control.call (w.control w.sched.current) = some call)
    (control : after.control = Function.update w.control w.sched.current next) (same : Control.call next = some call)
    (calls : after.calls = w.calls) (returned : after.returned = w.returned)
    (inserted : Grown call w.inserted after.inserted) (removed : Grown call w.removed after.removed)
    (flow : Flow after.pipe (bytes after.inserted) (bytes after.removed)) (fits : ControlFits after next) :
    Stream after := by
  have callOf : ∀ t,Control.call (after.control t) = Control.call (w.control t) := by
    intro t
    rw [control]
    by_cases equal : t = w.sched.current
    · rw [equal,Function.update_self,same,owner]
    · rw [Function.update_of_ne equal]
  have below := valid.active _ _ owner
  refine ⟨flow,?_,?_,?_,?_,?_,?_⟩
  · rw [calls]; exact grown_old inserted valid.insertedOld below
  · rw [calls]; exact grown_old removed valid.removedOld below
  · intro t number found
    rw [calls]
    exact valid.active t number (callOf t ▸ found)
  · intro t u number first second
    exact valid.apart t u number (callOf t ▸ first) (callOf u ▸ second)
  · intro t
    rw [control]
    by_cases equal : t = w.sched.current
    · rw [equal,Function.update_self]; exact fits
    · rw [Function.update_of_ne equal]
      refine fits_other inserted removed (fun shared => equal ?_) (valid.fits t)
      exact valid.apart t _ call shared owner
  · rw [returned,calls]
    intro reply member
    obtain ⟨old,retired,right⟩ := valid.answered reply member
    refine ⟨old,fun t => callOf t ▸ retired t,answer_other inserted removed ?_ right⟩
    rintro rfl
    exact retired _ owner

theorem stream_begin (valid : Stream w) (new : Control.call next = some w.calls) (fits : ControlFits w next) :
    Stream {setControl w next with calls:=w.calls+1} := by
  have callOf : ∀ t number,Control.call (Function.update w.control w.sched.current next t) = some number →
      t = w.sched.current ∧ number = w.calls ∨ t ≠ w.sched.current ∧ Control.call (w.control t) = some number := by
    intro t number found
    by_cases equal : t = w.sched.current
    · rw [equal,Function.update_self,new] at found
      exact .inl ⟨equal,(Option.some.inj found).symm⟩
    · rw [Function.update_of_ne equal] at found
      exact .inr ⟨equal,found⟩
  refine ⟨valid.flow,?_,?_,?_,?_,?_,?_⟩
  · exact fun entry member => Nat.lt_succ_of_lt (valid.insertedOld entry member)
  · exact fun entry member => Nat.lt_succ_of_lt (valid.removedOld entry member)
  · intro t number found
    rcases callOf t number found with ⟨_,rfl⟩ | ⟨_,old⟩
    · exact Nat.lt_succ_self _
    · exact Nat.lt_succ_of_lt (valid.active t number old)
  · intro t u number first second
    rcases callOf t number first with ⟨atT,rfl⟩ | ⟨_,oldT⟩ <;> rcases callOf u _ second with ⟨atU,fresh⟩ | ⟨_,oldU⟩
    · rw [atT,atU]
    · exact absurd (valid.active _ _ oldU) (Nat.lt_irrefl _)
    · subst fresh; exact absurd (valid.active _ _ oldT) (Nat.lt_irrefl _)
    · exact valid.apart t u number oldT oldU
  · intro t
    change ControlFits w (Function.update w.control w.sched.current next t)
    by_cases equal : t = w.sched.current
    · rw [equal,Function.update_self]; exact fits
    · rw [Function.update_of_ne equal]; exact valid.fits t
  · intro reply member
    obtain ⟨old,retired,right⟩ := valid.answered reply member
    refine ⟨Nat.lt_succ_of_lt old,?_,right⟩
    intro t found
    rcases callOf t _ found with ⟨_,fresh⟩ | ⟨_,active⟩
    · omega
    · exact retired t active

theorem stream_answer (valid : Stream w) (owner : Control.call (w.control w.sched.current) = some (Answer.call reply))
    (right : AnswerFits w reply) : Stream (answer w reply) := by
  have callOf : ∀ t number,Control.call (Function.update w.control w.sched.current .idle t) = some number →
      t ≠ w.sched.current ∧ Control.call (w.control t) = some number := by
    intro t number found
    by_cases equal : t = w.sched.current
    · rw [equal,Function.update_self] at found
      cases found
    · rw [Function.update_of_ne equal] at found
      exact ⟨equal,found⟩
  refine ⟨valid.flow,valid.insertedOld,valid.removedOld,?_,?_,?_,?_⟩
  · exact fun t number found => valid.active t number (callOf t number found).2
  · exact fun t u number first second => valid.apart t u number (callOf t _ first).2 (callOf u _ second).2
  · intro t
    change ControlFits w (Function.update w.control w.sched.current .idle t)
    by_cases equal : t = w.sched.current
    · rw [equal,Function.update_self]; trivial
    · rw [Function.update_of_ne equal]; exact valid.fits t
  · intro other member
    rcases List.mem_append.mp member with earlier | last
    · obtain ⟨old,retired,fits⟩ := valid.answered other earlier
      exact ⟨old,fun t found => retired t (callOf t _ found).2,fits⟩
    · cases List.mem_singleton.mp last
      refine ⟨valid.active _ _ owner,?_,right⟩
      intro t found
      obtain ⟨different,active⟩ := callOf t _ found
      exact different (valid.apart t _ _ active owner)

theorem stream_write (valid : Stream w) (here : w.control w.sched.current = .writing call data i resting) :
    Stream (writeStep w call data i) := by
  have owner : Control.call (w.control w.sched.current) = some call := by rw [here]; rfl
  have fits := valid.fits w.sched.current
  rw [here] at fits
  unfold writeStep
  split
  · rename_i more
    dsimp only
    rcases @writeSection_flow _ _ _ w.sched (data.getD i 0#8) valid.flow with ⟨_,moved,flow⟩ | ⟨parked,flow⟩
    · generalize writeSection w.sched w.pipe (data.getD i 0#8) = result at *
      obtain ⟨outcome,sched,pipe⟩ := result
      cases moved
      refine stream_move valid owner rfl rfl rfl rfl (.inr ⟨_,rfl⟩) (.inl rfl) ?_ ⟨more,?_⟩
      · rw [bytes_snoc]; exact flow
      · rw [history_own,fits.2,List.take_add_one,List.getD_eq_getElem?_getD,List.getElem?_eq_getElem more]
        rfl
    · generalize writeSection w.sched w.pipe (data.getD i 0#8) = result at *
      obtain ⟨outcome,sched,pipe⟩ := result
      cases parked
      exact stream_move valid owner rfl rfl rfl rfl (.inl rfl) (.inl rfl) flow fits
  · rename_i done
    refine stream_answer valid owner ⟨rfl,?_⟩
    rw [fits.2,List.take_of_length_le (by omega)]

theorem stream_read {max : Nat} (valid : Stream w) (here : w.control w.sched.current = .reading call max out resting) :
    Stream (readStep w call max out) := by
  have owner : Control.call (w.control w.sched.current) = some call := by rw [here]; rfl
  have fits := valid.fits w.sched.current
  rw [here] at fits
  unfold readStep
  split
  · rename_i more
    dsimp only
    rcases @readSection_flow _ _ _ w.sched out.length valid.flow with
      ⟨byte,moved,flow⟩ | ⟨some,stopped⟩ | ⟨parked,flow⟩
    · generalize readSection w.sched w.pipe out.length = result at *
      obtain ⟨outcome,sched,pipe⟩ := result
      cases moved
      refine stream_move valid owner rfl rfl rfl rfl (.inl rfl) (.inr ⟨_,rfl⟩) ?_ ⟨?_,?_⟩
      · rw [bytes_snoc]; exact flow
      · rw [List.length_append]; exact more
      · rw [history_own,fits.2]
    · generalize readSection w.sched w.pipe out.length = result at *
      obtain ⟨outcome,sched,pipe⟩ := result
      cases stopped
      exact stream_answer valid owner ⟨rfl,fits.2,fun _ => ⟨some,fits.1⟩⟩
    · generalize readSection w.sched w.pipe out.length = result at *
      obtain ⟨outcome,sched,pipe⟩ := result
      cases parked
      exact stream_move valid owner rfl rfl rfl rfl (.inl rfl) (.inl rfl) flow fits
  · rename_i full
    exact stream_answer valid owner ⟨rfl,fits.2,fun positive => ⟨by omega,fits.1⟩⟩

theorem stream_step (valid : Stream w) (allowed : Allowed users w label) : Stream (apply w label) := by
  cases label with
  | dispatch t => exact {valid with}
  | pipeWrite data =>
    exact stream_begin valid rfl ⟨Nat.zero_le _,history_fresh valid.insertedOld⟩
  | pipeRead max =>
    exact stream_begin valid rfl ⟨Nat.zero_le _,history_fresh valid.removedOld⟩
  | proceed =>
    unfold apply
    dsimp only
    split
    · exact valid
    · rename_i call data i resting here; exact stream_write valid here
    · rename_i call max out resting here; exact stream_read valid here

theorem runs_stream (path : Reached (traffic users) w) : Stream w := by
  apply path.invariant
  · exact fun _ => stream_start
  · rintro w label next valid ⟨allowed,rfl⟩
    exact stream_step valid allowed

theorem stream_intact (path : Reached (traffic users) w) :
    bytes w.removed++ringBytes w.pipe = bytes w.inserted ∧ w.pipe.count ≤ pipeCapacity ∧
    w.pipe.writePos = (w.pipe.readPos+w.pipe.count) % pipeCapacity ∧
    (∀ call data length,.write call data length ∈ w.returned →
      length = data.length ∧ history call w.inserted = data) ∧
    (∀ call max out got,.read call max out got ∈ w.returned → got = out.length ∧ history call w.removed = out ∧
      (0 < max → 1 ≤ got ∧ got ≤ max)) := by
  have valid := runs_stream path
  exact ⟨valid.flow.order,valid.flow.bound,valid.flow.writing,
    fun _ _ _ reply => (valid.answered _ reply).2.2,fun _ _ _ _ reply => (valid.answered _ reply).2.2⟩

-- Task 1 reads before anything is there and parks; task 2 writes two bytes and wakes it.
def twoTasks : Sched :=
  ⟨fun t => {state:=if t = 1 then .running else .ready},1,9,0,true,0,0,⟨fun _ => 0#8,0,0⟩,⟨fun _ => 0#32,0,0⟩,
    [],0,0,0,[],0,[]⟩
def quiet : World := ⟨twoTasks,pipeInit,fun _ => .idle,0,[],[],[]⟩
def exchange : List Label :=
  [.pipeRead 4,.proceed,.dispatch 2,.pipeWrite [5#8,6#8],.proceed,.proceed,.dispatch 1,.proceed,.proceed,.proceed]
def exchanged : World := exchange.foldl apply quiet

theorem exchanged_reached : Reached (traffic fun _ _ => True) exchanged := by
  refine @reached_by _ _ _ _ _ quiet exchange ⟨rfl,fun _ => rfl,rfl,rfl,rfl,rfl⟩ ?_
  exact ⟨⟨rfl,rfl,trivial,by decide⟩,⟨rfl,nofun⟩,rfl,⟨rfl,rfl,trivial,by decide⟩,⟨rfl,nofun⟩,⟨rfl,nofun⟩,rfl,
    ⟨rfl,nofun⟩,⟨rfl,nofun⟩,⟨rfl,nofun⟩,trivial⟩

theorem stream_intact_small : exchanged.returned = [.read 0 4 [5#8,6#8] 2] ∧ history 0 exchanged.removed = [5#8,6#8] := by
  have reply : exchanged.returned = [.read 0 4 [5#8,6#8] 2] := rfl
  refine ⟨reply,((stream_intact exchanged_reached).2.2.2.2 0 4 [5#8,6#8] 2 ?_).2.1⟩
  rw [reply]
  exact List.mem_singleton_self _

end Arthic.PipeStream
