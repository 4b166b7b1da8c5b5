import Arthic.Library.Ia32

namespace Arthic.Segments
open ByteMemory Ia32

-- The descriptor tables of a processor in protected mode: where a table begins and the
-- offset of its last byte. `task` is what ltr found behind the selector it was given, `ldt`
-- what the register of the local table holds.
structure Table where
  base : Nat
  limit : Nat

structure Tables where
  gdt : Table
  idt : Table
  task : Table
  taskSelector : Selector
  ldt : Table

-- Descriptors and gates are eight bytes, read as one number.
def bits (d low count : Nat) : Nat := d/2^low%2^count

def segmentBase (d : Nat) : Nat := bits d 16 24+2^24*bits d 56 8
def segmentLimit (d : Nat) : Nat :=
  let pages := bits d 0 16+2^16*bits d 48 4
  if bits d 55 1 = 1 then 4096*pages+4095 else pages

def kind (d : Nat) : Nat := bits d 40 4
def ordinary (d : Nat) : Bool := bits d 44 1 == 1
def level (d : Nat) : Nat := bits d 45 2
def present (d : Nat) : Bool := bits d 47 1 == 1
def executable (d : Nat) : Bool := ordinary d && bits d 43 1 == 1
def conforming (d : Nat) : Bool := executable d && bits d 42 1 == 1
def writable (d : Nat) : Bool := ordinary d && !executable d && bits d 41 1 == 1
def readable (d : Nat) : Bool := ordinary d && (!executable d || bits d 41 1 == 1)

def entryAt (mem : Memory) (t : Table) (index : Nat) : Option Nat :=
  if 8*index+7 ≤ t.limit then some (load mem (t.base+8*index) 8) else none

-- A selector is an index, a bit for the local table and the ring it is asked for.
def index (s : Selector) : Nat := s.toNat/8
def isLocal (s : Selector) : Bool := s.toNat/4%2 == 1
def null (s : Selector) : Bool := s.toNat/4 == 0
def descriptorAt (mem : Memory) (t : Tables) (s : Selector) : Option Nat :=
  entryAt mem (if isLocal s then t.ldt else t.gdt) (index s)
def ranked (s : Selector) (ring : Nat) : Selector := (s &&& 0xFFFC#16) ||| BitVec.ofNat 16 ring

-- An interrupt comes from an int instruction, which has one behind it to go on with, or not.
inductive Cause where
  | software (next : Word)
  | exception
  | external

def Cause.ext : Cause → Nat
  | .software _ => 0
  | _ => 1

def Cause.resume (cause : Cause) (m : Cpu) : Cpu := match cause with
  | .software next => {m with eip:=next}
  | _ => m

-- Task gates, trap gates, 16-bit gates and the local table are not followed.
inductive Refusal where
  | fault (vector code : Nat)
  | elsewhere

def gateFor (mem : Memory) (t : Tables) (cause : Cause) (vector cpl : Nat) : Except Refusal Nat :=
  let code := 8*vector+2+cause.ext
  match entryAt mem t.idt vector with
  | none => .error (.fault 13 code)
  | some gate =>
    if ¬[5,6,7,14,15].contains (bits gate 40 5) then .error (.fault 13 code)
    else if cause.ext = 0 ∧ level gate < cpl then .error (.fault 13 code)
    else if present gate = false then .error (.fault 11 code)
    else if bits gate 40 5 ≠ 14 then .error .elsewhere
    else .ok gate

def gateSelector (gate : Nat) : Selector := BitVec.ofNat 16 (bits gate 16 16)
def gateOffset (gate : Nat) : Nat := bits gate 0 16+2^16*bits gate 48 16

def codeFor (mem : Memory) (t : Tables) (ext : Nat) (s : Selector) (cpl : Nat) : Except Refusal Nat :=
  if null s then .error (.fault 13 ext)
  else if isLocal s then .error .elsewhere
  else match entryAt mem t.gdt (index s) with
  | none => .error (.fault 13 (8*index s+ext))
  | some d =>
    if executable d = false ∨ cpl < level d then .error (.fault 13 (8*index s+ext))
    else if present d = false then .error (.fault 11 (8*index s+ext))
    else .ok d

-- The stack the task state segment has for a more privileged ring.
def stackFor (mem : Memory) (t : Tables) (ext ring : Nat) : Except Refusal Tss :=
  if t.task.limit < 8*ring+9 then .error (.fault 10 (8*index t.taskSelector+ext))
  else
    let s := BitVec.ofNat 16 (load mem (t.task.base+8*ring+8) 2)
    if null s then .error (.fault 10 ext)
    else if isLocal s then .error .elsewhere
    else match entryAt mem t.gdt (index s) with
    | none => .error (.fault 10 (8*index s+ext))
    | some d =>
      if Ia32.ring s ≠ ring ∨ level d ≠ ring ∨ writable d = false then .error (.fault 10 (8*index s+ext))
      else if present d = false then .error (.fault 12 (8*index s+ext))
      else .ok ⟨s,BitVec.ofNat 32 (load mem (t.task.base+8*ring+4) 4)⟩

-- Where an interrupt goes, and the stack it is given if it changes rings.
def target (mem : Memory) (t : Tables) (cause : Cause) (vector : Nat) (m : Cpu) : Except Refusal (Gate × Tss) :=
  match gateFor mem t cause vector (ring m.cs) with
  | .error refusal => .error refusal
  | .ok gate => match codeFor mem t cause.ext (gateSelector gate) (ring m.cs) with
    | .error refusal => .error refusal
    | .ok d =>
      let inner := conforming d = false ∧ level d < ring m.cs
      match if inner then stackFor mem t cause.ext (level d) else .ok ⟨m.ss,m.esp⟩ with
      | .error refusal => .error refusal
      | .ok stack =>
        if segmentLimit d < gateOffset gate then .error (.fault 13 cause.ext)
        else .ok (⟨ranked (gateSelector gate) (if inner then level d else ring m.cs),BitVec.ofNat 32 (gateOffset gate)⟩,stack)

-- A fault on the way to some exceptions is a double fault, which is not followed either.
def serious (cause : Cause) (vector : Nat) : Bool := match cause with
  | .exception => [0,8,10,11,12,13,14].contains vector
  | _ => false

def arrive (mem : Memory) (t : Tables) (cause : Cause) (vector : Nat) (code : Option Word) (m : Cpu) : Option Cpu :=
  match target mem t cause vector m with
  | .ok (gate,stack) => some (deliver stack gate code (cause.resume m))
  | .error .elsewhere => none
  | .error (.fault other value) =>
    if serious cause vector then none
    else match target mem t .exception other m with
    | .ok (gate,stack) => some (deliver stack gate (some (BitVec.ofNat 32 value)) m)
    | .error _ => none

-- Loading a selector into a data segment register or into ss.
def dataLoads (mem : Memory) (t : Tables) (cpl : Nat) (s : Selector) : Bool :=
  null s || match descriptorAt mem t s with
  | none => false
  | some d => readable d && (conforming d || (decide (ring s ≤ level d) && decide (cpl ≤ level d))) && present d

def stackLoads (mem : Memory) (t : Tables) (cpl : Nat) (s : Selector) : Bool :=
  !null s && match descriptorAt mem t s with
  | none => false
  | some d => ring s == cpl && level d == cpl && writable d && present d

-- Where a far jump or call to a selector leads.
inductive Far where
  | code
  | gate
  | task
  | refused
deriving DecidableEq

def farTarget (mem : Memory) (t : Tables) (cpl : Nat) (s : Selector) : Far :=
  if null s then .refused
  else match descriptorAt mem t s with
  | none => .refused
  | some d =>
    if executable d then
      if present d = false then .refused
      else if conforming d then if level d ≤ cpl then .code else .refused
      else if ring s ≤ cpl ∧ level d = cpl then .code else .refused
    else if ordinary d ∨ level d < cpl ∨ level d < ring s ∨ present d = false then .refused
    else if [4,12].contains (kind d) then .gate
    else if [1,5,9].contains (kind d) then .task
    else .refused

-- in and out: by the level in the flags, or by the bitmap behind the task state segment.
def portOpen (mem : Memory) (t : Tables) (m : Cpu) (port width : Nat) : Bool :=
  decide (ring m.cs ≤ bits m.eflags.toNat 12 2) ||
  let bitmap := load mem (t.task.base+102) 2
  decide (103 ≤ t.task.limit ∧ bitmap+port/8+1 ≤ t.task.limit) &&
    load mem (t.task.base+bitmap+port/8) 2/2^(port%8)%2^width == 0

def levelOf (mem : Memory) (t : Tables) (s : Selector) : Nat := ((descriptorAt mem t s).map level).getD 0

variable {mem other : Memory} {t : Tables} {m : Cpu} {s : Selector} {d gate : Nat} {stack : Tss}

theorem descriptor_global (shared : isLocal s = false) : descriptorAt mem t s = entryAt mem t.gdt (index s) := by
  rw [descriptorAt,shared]
  rfl

-- The first bytes of a number and the rest of it.
theorem load_split (mem : Memory) (addr first rest : Nat) :
    load mem addr (first+rest) = load mem addr first+256^first*load mem (addr+first) rest := by
  induction first generalizing addr with
  | zero => simp [load]
  | succ first ih =>
    rw [Nat.succ_add,load,load,ih (addr+1),Nat.mul_add,Nat.pow_succ',Nat.mul_assoc,Nat.add_assoc addr,
      Nat.add_comm 1 first,Nat.add_assoc]

-- A table that holds a number at every place.
def Filled (mem : Memory) (base count : Nat) (values : Nat → Nat) : Prop :=
  ∀ i,i < count → load mem (base+8*i) 8 = values i

theorem filled_congr {base count : Nat} {values : Nat → Nat} (filled : Filled mem base count values)
    (same : ∀ x,base ≤ x → x < base+8*count → other x = mem x) : Filled other base count values := by
  intro i inside
  rw [←filled i inside]
  exact load_congr fun k below => same _ (by omega) (by omega)

-- One entry is written: the others are not touched.
theorem filled_update {base count : Nat} {values : Nat → Nat} {i value : Nat} (filled : Filled mem base count values)
    (here : load other (base+8*i) 8 = value) (apart : ∀ x,x < base+8*i ∨ base+8*i+8 ≤ x → other x = mem x) :
    Filled other base count (Function.update values i value) := by
  intro j inside
  by_cases same : j = i
  · subst same
    rw [Function.update_self,here]
  · rw [Function.update_of_ne same,←filled j inside]
    exact load_congr fun k below => apart _ (by omega)

theorem entry_filled {base count last : Nat} {values : Nat → Nat} (filled : Filled mem base count values)
    (size : last+1 = 8*count) (i : Nat) :
    entryAt mem ⟨base,last⟩ i = if i < count then some (values i) else none := by
  unfold entryAt
  by_cases inside : i < count
  · rw [if_pos (by dsimp only; omega),if_pos inside,filled i inside]
  · rw [if_neg (by dsimp only; omega),if_neg inside]

-- Without a change of rings it does not matter which stack the task state segment has.
theorem deliver_stays (first second : Tss) (gate : Gate) (code : Option Word) (m : Cpu) (stays : ¬outer gate m) :
    deliver first gate code m = deliver second gate code m := by
  unfold deliver
  rw [if_neg stays,if_neg stays]

end Arthic.Segments
