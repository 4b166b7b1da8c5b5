import Arthic.Library.Segments
import Arthic.Library.Transition

namespace Arthic.Descriptors
open ByteMemory Ia32 Segments Transition

-- Where the linker put the tables, the two pointers to them and the stubs of interrupts.s.
structure Layout where
  gdt : Nat
  gdtPointer : Nat
  idt : Nat
  idtPointer : Nat
  tss : Nat
  isr : Nat → Word
  irq : Nat → Word

def Layout.spans (l : Layout) : List (Nat × Nat) :=
  [(l.gdt,48),(l.gdtPointer,6),(l.idt,2048),(l.idtPointer,6),(l.tss,104)]

structure Placed (l : Layout) : Prop where
  fits : ∀ span ∈ l.spans,span.1+span.2 ≤ 2^32
  apart : l.spans.Pairwise fun first second => first.1+first.2 ≤ second.1 ∨ second.1+second.2 ≤ first.1

def gdtKernelCode : Selector := 0x08#16
def gdtKernelData : Selector := 0x10#16
def gdtUserCode : Selector := 0x18#16 ||| 3#16
def gdtUserData : Selector := 0x20#16 ||| 3#16
def gdtTss : Selector := 0x28#16

-- An entry of the table at `gdt`; granularity is read back and written again.
def gdtSetGate (gdt : Nat) (mem : Memory) (index : Nat) (base limit : Word) (access granularity : Byte) : Memory :=
  let mem := store mem (gdt+8*index+2) 2 (base &&& 0xFFFF#32).toNat
  let mem := store mem (gdt+8*index+4) 1 ((base >>> 16) &&& 0xFF#32).toNat
  let mem := store mem (gdt+8*index+7) 1 ((base >>> 24) &&& 0xFF#32).toNat
  let mem := store mem (gdt+8*index) 2 (limit &&& 0xFFFF#32).toNat
  let mem := store mem (gdt+8*index+6) 1 ((limit >>> 16) &&& 0x0F#32).toNat
  let mem := store mem (gdt+8*index+6) 1 (mem (gdt+8*index+6) ||| (granularity &&& 0xF0#8)).toNat
  store mem (gdt+8*index+5) 1 access.toNat

-- What lgdt and lidt read: two bytes of limit and four of base.
def readPointer (mem : Memory) (p : Nat) : Table := ⟨load mem (p+2) 4,load mem p 2⟩

-- Loading a segment register sets the lowest access bit, as the comment in gdt_install has it.
def noteLoaded (gdt : Nat) (mem : Memory) (index : Nat) : Memory :=
  store mem (gdt+8*index+5) 1 (mem (gdt+8*index+5) ||| 1#8).toNat

-- lgdt, the far jump that loads cs and the moves to the other segment registers.
def gdtFlush (mem : Memory) (pointerAddress : Nat) : Memory × Table :=
  let table := readPointer mem pointerAddress
  (noteLoaded table.base (noteLoaded table.base mem (index gdtKernelCode)) (index gdtKernelData),table)

-- gdt_install up to its call of gdt_flush.
def gdtFilled (l : Layout) (mem : Memory) : Memory :=
  let mem := store mem l.gdtPointer 2 47
  let mem := store mem (l.gdtPointer+2) 4 l.gdt
  let mem := gdtSetGate l.gdt mem 0 0#32 0#32 0#8 0#8
  let mem := gdtSetGate l.gdt mem 1 0#32 0xFFFFF#32 0x9A#8 0xCF#8
  let mem := gdtSetGate l.gdt mem 2 0#32 0xFFFFF#32 0x92#8 0xCF#8
  let mem := gdtSetGate l.gdt mem 3 0#32 0xFFFFF#32 0xFA#8 0xCF#8
  let mem := gdtSetGate l.gdt mem 4 0#32 0xFFFFF#32 0xF2#8 0xCF#8
  gdtSetGate l.gdt mem 5 0#32 0#32 0#8 0#8

def gdtInstall (l : Layout) (mem : Memory) : Memory × Table := gdtFlush (gdtFilled l mem) l.gdtPointer

def gdtSetTss (l : Layout) (mem : Memory) (base limit : Word) : Memory :=
  gdtSetGate l.gdt mem 5 base (limit-1#32) 0x89#8 0x00#8

def idtSetGate (idt : Nat) (mem : Memory) (num : Nat) (base : Word) (selector : Selector) (flags : Byte) : Memory :=
  let mem := store mem (idt+8*num) 2 (base &&& 0xFFFF#32).toNat
  let mem := store mem (idt+8*num+6) 2 ((base >>> 16) &&& 0xFFFF#32).toNat
  let mem := store mem (idt+8*num+2) 2 selector.toNat
  let mem := store mem (idt+8*num+4) 1 0
  store mem (idt+8*num+5) 1 flags.toNat

def stubAddress (l : Layout) (vector : Nat) : Word :=
  if 32 ≤ vector ∧ vector < 48 then l.irq (vector-32) else l.isr vector

-- The 48 calls for isr0 to isr31 and irq0 to irq15 differ in the vector and the stub only.
def idtInstall (l : Layout) (mem : Memory) : Memory × Table :=
  let mem := store mem l.idtPointer 2 2047
  let mem := store mem (l.idtPointer+2) 4 l.idt
  let mem := (List.range 256).foldl (fun mem i => idtSetGate l.idt mem i 0#32 0#16 0#8) mem
  let mem := (List.range 48).foldl (fun mem i => idtSetGate l.idt mem i (stubAddress l i) gdtKernelCode 0x8E#8) mem
  let mem := idtSetGate l.idt mem 0x80 (l.isr 128) gdtKernelCode 0xEE#8
  (mem,readPointer mem l.idtPointer)

-- ltr takes the descriptor of an available task state segment and marks it busy.
def ltr (mem : Memory) (gdt : Table) (s : Selector) : Option (Memory × Table) :=
  if null s ∨ isLocal s then none
  else match entryAt mem gdt (index s) with
  | none => none
  | some d =>
    if bits d 40 5 = 9 ∧ present d then
      some (store mem (gdt.base+8*index s+5) 1 (mem (gdt.base+8*index s+5) ||| 2#8).toNat,⟨segmentBase d,segmentLimit d⟩)
    else none

-- kmemset of the structure, then ss0, esp0 and iomap_base.
def tssFilled (l : Layout) (mem : Memory) (kernelStackTop : Word) : Memory :=
  let mem := fill mem l.tss 104 0#8
  let mem := store mem (l.tss+8) 4 gdtKernelData.toNat
  let mem := store mem (l.tss+4) 4 kernelStackTop.toNat
  store mem (l.tss+102) 2 104

def tssInstall (l : Layout) (mem : Memory) (gdt : Table) (kernelStackTop : Word) : Option (Memory × Table) :=
  ltr (gdtSetTss l (tssFilled l mem kernelStackTop) (BitVec.ofNat 32 l.tss) 104#32) gdt gdtTss

def tssSetKernelStack (l : Layout) (mem : Memory) (stackTop : Word) : Memory := store mem (l.tss+4) 4 stackTop.toNat

structure World where
  mem : Memory
  tables : Tables

-- kernel_main's order. Nothing loads the register of the local table, so it stays as the
-- kernel found it.
def install (l : Layout) (ldt : Table) (mem : Memory) (kernelStackTop : Word) : Option World :=
  let (mem,gdt) := gdtInstall l mem
  let (mem,idt) := idtInstall l mem
  (tssInstall l mem gdt kernelStackTop).map fun (mem,task) => ⟨mem,gdt,idt,task,gdtTss,ldt⟩

inductive Event where
  | stack (top : Word)
  | loads (index : Nat)
  | writes

-- After that a stack is set and a segment loaded now and then, and everything else writes
-- outside the tables.
def kernel (l : Layout) (ldt : Table) (before : Memory) (kernelStackTop : Word) : System World Event where
  initial w := install l ldt before kernelStackTop = some w
  step w event after := match event with
    | .stack top => after = {w with mem:=tssSetKernelStack l w.mem top}
    | .loads index => 1 ≤ index ∧ index ≤ 4 ∧ after = {w with mem:=noteLoaded w.tables.gdt.base w.mem index}
    | .writes => after.tables = w.tables ∧
        ∀ span ∈ l.spans,∀ x,span.1 ≤ x → x < span.1+span.2 → after.mem x = w.mem x

def lastStack (kernelStackTop : Word) (events : List Event) : Word :=
  events.foldl (fun top event => match event with | .stack other => other | .loads _ | .writes => top) kernelStackTop

variable {l : Layout} {ldt : Table} {mem other : Memory} {w after : World} {top : Word} {events : List Event} {m : Cpu}

-- A gate's eight bytes as one number.
def gdtGate (base limit : Word) (access granularity : Byte) : Nat :=
  limit.toNat%2^16+2^16*(base.toNat%2^16)+2^32*(base.toNat/2^16%2^8)+2^40*access.toNat+
    2^48*(limit.toNat/2^16%2^4+2^4*(granularity.toNat/2^4))+2^56*(base.toNat/2^24)

theorem masked (value : Word) (k : Nat) (small : k ≤ 32) :
    (value &&& BitVec.ofNat 32 (2^k-1)).toNat = value.toNat%2^k := by
  have bound : 2^k ≤ 2^32 := Nat.pow_le_pow_right (by decide) small
  have positive : 0 < 2^k := Nat.two_pow_pos k
  rw [BitVec.toNat_and,BitVec.toNat_ofNat,Nat.mod_eq_of_lt (by omega),Nat.and_two_pow_sub_one_eq_mod]

theorem masked_shift (value : Word) (k j : Nat) (small : k ≤ 32) :
    ((value >>> j) &&& BitVec.ofNat 32 (2^k-1)).toNat = value.toNat/2^j%2^k := by
  rw [masked _ k small,BitVec.toNat_ushiftRight,Nat.shiftRight_eq_div_pow]

theorem byte_load (mem : Memory) (x : Nat) : load mem x 1 = (mem x).toNat := rfl

-- The two halves of the granularity byte.
theorem halves (low granularity : Byte) (small : low.toNat < 2^4) :
    (low ||| (granularity &&& 0xF0#8)).toNat = low.toNat+2^4*(granularity.toNat/2^4) := by
  have mask : (granularity &&& 0xF0#8).toNat = 2^4*(granularity.toNat/2^4) := by
    revert granularity
    decide
  rw [BitVec.toNat_or,mask,Nat.or_comm,←Nat.two_pow_add_eq_or_of_lt small,Nat.add_comm]

theorem gdtSetGate_outside (gdt : Nat) (mem : Memory) (index : Nat) (base limit : Word) (access granularity : Byte)
    {x : Nat}
    (outside : x < gdt+8*index ∨ gdt+8*index+8 ≤ x) : gdtSetGate gdt mem index base limit access granularity x = mem x := by
  unfold gdtSetGate store
  simp (disch := omega) only [patch_outside]

theorem gdtSetGate_entry (gdt : Nat) (mem : Memory) (index : Nat) (base limit : Word) (access granularity : Byte) :
    load (gdtSetGate gdt mem index base limit access granularity) (gdt+8*index) 8 = gdtGate base limit access granularity := by
  have limitLow := masked limit 16 (by decide)
  have limitHigh := masked_shift limit 4 16 (by decide)
  have baseLow := masked base 16 (by decide)
  have baseMiddle := masked_shift base 8 16 (by decide)
  have baseHigh := masked_shift base 8 24 (by decide)
  simp only [Nat.reducePow,Nat.reduceSub] at limitLow limitHigh baseLow baseMiddle baseHigh
  have whole := base.isLt
  have small := access.isLt
  unfold gdtSetGate
  dsimp only
  generalize gdt+8*index = e
  rw [limitLow,limitHigh,baseLow,baseMiddle,baseHigh]
  generalize earlier : store (store (store (store mem (e+2) 2 _) (e+4) 1 _) (e+7) 1 _) e 2 _ = before
  have nibble : (store before (e+6) 1 (limit.toNat/65536%16) (e+6)).toNat = limit.toNat/65536%16 := by
    rw [←byte_load]
    exact load_store _ _ (by omega)
  have joined := halves (store before (e+6) 1 (limit.toNat/65536%16) (e+6)) granularity (by rw [nibble]; omega)
  rw [nibble] at joined
  rw [joined]
  have high := granularity.isLt
  change load _ e (2+(2+(1+(1+(1+1))))) = _
  rw [load_split,load_split,load_split,load_split,load_split]
  simp (disch := omega) only [load_store_apart,load_store,Nat.add_assoc,Nat.reduceAdd]
  rw [←earlier]
  simp (disch := omega) only [load_store_apart,load_store]
  unfold gdtGate
  omega

theorem packed_bits {d a b c e g f h : Nat} (packed : d = a+2^16*b+2^32*c+2^40*e+2^48*(g+2^4*f)+2^56*h)
    (first : a < 2^16) (second : b < 2^16) (third : c < 2^8) (fourth : e < 2^8) (fifth : g < 2^4) (sixth : f < 2^4)
    (last : h < 2^8) : bits d 0 16 = a ∧ bits d 16 16 = b ∧ bits d 16 24 = b+2^16*c ∧ bits d 40 8 = e ∧
      bits d 48 4 = g ∧ bits d 48 16 = g+2^4*f+2^8*h ∧ bits d 52 4 = f ∧ bits d 56 8 = h := by
  unfold bits
  subst packed
  refine ⟨by omega,by omega,by omega,by omega,by omega,by omega,by omega,by omega⟩

-- The descriptor of the task state segment, available or busy.
def taskGate (l : Layout) (access : Byte) : Nat := gdtGate (BitVec.ofNat 32 l.tss) 103#32 access 0#8

-- What the processor reads out of a descriptor is what gdt_set_gate was given.
theorem gdtGate_read (base limit : Word) (access granularity : Byte) :
    let d := gdtGate base limit access granularity
    segmentBase d = base.toNat ∧ bits d 0 16+2^16*bits d 48 4 = limit.toNat%2^20 ∧ bits d 40 8 = access.toNat ∧
    bits d 52 4 = granularity.toNat/2^4 := by
  have small := base.isLt
  have byte := access.isLt
  have high := granularity.isLt
  obtain ⟨first,_,second,read,third,_,fourth,last⟩ := packed_bits (d:=gdtGate base limit access granularity) rfl
    (by omega) (by omega) (by omega) byte (by omega) (by omega) (by omega)
  refine ⟨?_,?_,read,fourth⟩
  · rw [segmentBase,second,last]
    omega
  · rw [first,third]
    omega

-- Gates of the interrupt table in the same way.
def idtGate (base : Word) (selector : Selector) (flags : Byte) : Nat :=
  base.toNat%2^16+2^16*selector.toNat+2^40*flags.toNat+2^48*(base.toNat/2^16)

theorem idtSetGate_outside (idt : Nat) (mem : Memory) (num : Nat) (base : Word) (selector : Selector) (flags : Byte)
    {x : Nat}
    (outside : x < idt+8*num ∨ idt+8*num+8 ≤ x) : idtSetGate idt mem num base selector flags x = mem x := by
  unfold idtSetGate store
  simp (disch := omega) only [patch_outside]

theorem idtSetGate_entry (idt : Nat) (mem : Memory) (num : Nat) (base : Word) (selector : Selector) (flags : Byte) :
    load (idtSetGate idt mem num base selector flags) (idt+8*num) 8 = idtGate base selector flags := by
  have low := masked base 16 (by decide)
  have high := masked_shift base 16 16 (by decide)
  simp only [Nat.reducePow,Nat.reduceSub] at low high
  have whole := base.isLt
  have short := selector.isLt
  have small := flags.isLt
  unfold idtSetGate
  dsimp only
  generalize idt+8*num = e
  rw [low,high]
  change load _ e (2+(2+(1+(1+2)))) = _
  rw [load_split,load_split,load_split,load_split]
  simp (disch := omega) only [load_store_apart,load_store,Nat.add_assoc,Nat.reduceAdd]
  unfold idtGate
  omega

theorem idtGate_read (base : Word) (selector : Selector) (flags : Byte) :
    let gate := idtGate base selector flags
    gateOffset gate = base.toNat ∧ gateSelector gate = selector ∧ bits gate 40 8 = flags.toNat := by
  have small := base.isLt
  have byte := flags.isLt
  have short := selector.isLt
  have packed : idtGate base selector flags = base.toNat%2^16+2^16*selector.toNat+2^32*0+2^40*flags.toNat+
      2^48*(base.toNat/2^16%2^4+2^4*(base.toNat/2^20%2^4))+2^56*(base.toNat/2^24) := by
    unfold idtGate
    omega
  obtain ⟨first,second,_,read,_,last,_⟩ := packed_bits packed (by omega) short (by omega) byte (by omega) (by omega) (by omega)
  refine ⟨?_,?_,read⟩
  · rw [gateOffset,first,last]
    omega
  · rw [gateSelector,second,BitVec.ofNat_toNat,BitVec.setWidth_eq]

-- The parts of the access byte.
theorem access_read {d value : Nat} (read : bits d 40 8 = value) :
    bits d 40 5 = value%32 ∧ kind d = value%16 ∧ ordinary d = (value/16%2 == 1) ∧ level d = value/32%4 ∧
    present d = (value/128%2 == 1) ∧ bits d 43 1 = value/8%2 ∧ bits d 42 1 = value/4%2 ∧ bits d 41 1 = value/2%2 := by
  subst read
  unfold kind ordinary level present bits
  refine ⟨by omega,by omega,?_,by omega,?_,by omega,by omega,by omega⟩
  · congr 1
    omega
  · congr 1
    omega

theorem placed_apart (placed : Placed l) :
    ((l.gdt+48 ≤ l.gdtPointer ∨ l.gdtPointer+6 ≤ l.gdt) ∧ (l.gdt+48 ≤ l.idt ∨ l.idt+2048 ≤ l.gdt) ∧
      (l.gdt+48 ≤ l.idtPointer ∨ l.idtPointer+6 ≤ l.gdt) ∧ (l.gdt+48 ≤ l.tss ∨ l.tss+104 ≤ l.gdt)) ∧
    (l.idt+2048 ≤ l.idtPointer ∨ l.idtPointer+6 ≤ l.idt) ∧ (l.idt+2048 ≤ l.tss ∨ l.tss+104 ≤ l.idt) := by
  have apart := placed.apart
  simp only [Layout.spans,List.pairwise_cons,List.mem_cons,List.not_mem_nil,or_false,forall_eq_or_imp,forall_eq] at apart
  exact ⟨⟨apart.1.1,apart.1.2.1,apart.1.2.2.1,apart.1.2.2.2⟩,apart.2.2.1.1,apart.2.2.1.2⟩

theorem placed_fits (placed : Placed l) : l.gdt+48 ≤ 2^32 ∧ l.idt+2048 ≤ 2^32 ∧ l.tss+104 ≤ 2^32 := by
  have fits := placed.fits
  simp only [Layout.spans,List.mem_cons,List.not_mem_nil,or_false,forall_eq_or_imp,forall_eq] at fits
  exact ⟨fits.1,fits.2.2.1,fits.2.2.2.2⟩

-- The segments of the flat model, loaded since or not; the last entry is the task state
-- segment's.
def accessed (i : Nat) (loaded : Bool) : Byte :=
  let access := [0#8,0x9A#8,0x92#8,0xFA#8,0xF2#8].getD i 0#8
  if loaded then access ||| 1#8 else access

def flat (i : Nat) (loaded : Bool) : Nat := if i = 0 then 0 else gdtGate 0#32 0xFFFFF#32 (accessed i loaded) 0xCF#8

def segments (loaded : Nat → Bool) (last i : Nat) : Nat := if i < 5 then flat i (loaded i) else last

theorem segments_update (loaded : Nat → Bool) (first last i : Nat) (inside : i < 6) :
    Function.update (segments loaded first) 5 last i = segments loaded last i := by
  match i,inside with
  | 0,_ | 1,_ | 2,_ | 3,_ | 4,_ | 5,_ => rfl

theorem gdtSetGate_filled {values : Nat → Nat} (gdt : Nat) (filled : Filled mem gdt 6 values) (index : Nat)
    (base limit : Word)
    (access granularity : Byte) : Filled (gdtSetGate gdt mem index base limit access granularity) gdt 6
      (Function.update values index (gdtGate base limit access granularity)) :=
  filled_update filled (gdtSetGate_entry ..) fun _ => gdtSetGate_outside gdt mem index base limit access granularity

theorem filled_same {values others : Nat → Nat} {base count : Nat} (filled : Filled mem base count values)
    (same : ∀ i,i < count → values i = others i) : Filled mem base count others :=
  fun i inside => (filled i inside).trans (same i inside)

-- Writing the table keeps to the table.
def Keeps (base count : Nat) (mem other : Memory) : Prop := ∀ x,x < base ∨ base+count ≤ x → other x = mem x

theorem keeps_trans {base count : Nat} {last : Memory} (first : Keeps base count mem other)
    (second : Keeps base count other last) :
    Keeps base count mem last := fun x outside => (second x outside).trans (first x outside)

theorem gdtSetGate_keeps (gdt : Nat) (mem : Memory) {index : Nat} (base limit : Word) (access granularity : Byte)
    (small : index < 6) :
    Keeps gdt 48 mem (gdtSetGate gdt mem index base limit access granularity) :=
  fun _ outside => gdtSetGate_outside gdt mem index base limit access granularity (by omega)

theorem pointer_kept {base count p : Nat} (keeps : Keeps base count mem other) (apart : base+count ≤ p ∨ p+6 ≤ base) :
    readPointer other p = readPointer mem p := by
  unfold readPointer
  rw [load_congr fun k below => keeps (p+2+k) (by omega),load_congr fun k below => keeps (p+k) (by omega)]

theorem pointer_written (mem : Memory) {p base last : Nat} (small : base < 2^32) (short : last < 2^16) :
    readPointer (store (store mem p 2 last) (p+2) 4 base) p = ⟨base,last⟩ := by
  unfold readPointer
  rw [load_store _ _ (by omega),load_store_apart _ _ (by omega),load_store _ _ (by omega)]

-- The access byte of a descriptor is changed in place.
theorem gdtGate_access (base limit : Word) (granularity : Byte) : ∃ low high,low < 2^40 ∧
    ∀ access,gdtGate base limit access granularity = low+2^40*access.toNat+2^48*high := by
  refine ⟨limit.toNat%2^16+2^16*(base.toNat%2^16)+2^32*(base.toNat/2^16%2^8),
    limit.toNat/2^16%2^4+2^4*(granularity.toNat/2^4)+2^8*(base.toNat/2^24),by omega,fun access => ?_⟩
  unfold gdtGate
  omega

theorem access_changed {base limit : Word} {access granularity : Byte} {e : Nat}
    (held : load mem e 8 = gdtGate base limit access granularity)
    (value : Byte) : mem (e+5) = access ∧ load (store mem (e+5) 1 value.toNat) e 8 = gdtGate base limit value granularity := by
  obtain ⟨low,high,below,gate⟩ := gdtGate_access base limit granularity
  have byte := access.isLt
  have small := value.isLt
  have first := load_lt mem e 5
  have second := load_lt mem (e+5) 1
  have split (other : Memory) : load other e 8 = load other e 5+256^5*(load other (e+5) 1+256^1*load other (e+6) 2) := by
    rw [←load_split other (e+5) 1 2,←load_split other e 5 (1+2)]
  have packed := (split mem).symm.trans held
  rw [gate] at packed
  constructor
  · apply BitVec.eq_of_toNat_eq
    rw [←byte_load]
    omega
  · rw [split,gate]
    simp (disch := omega) only [load_store_apart,load_store]
    omega

theorem noteLoaded_keeps (gdt : Nat) (mem : Memory) {index : Nat} (small : index < 6) :
    Keeps gdt 48 mem (noteLoaded gdt mem index) := fun _ outside => patch_outside _ _ (by omega)

theorem noteLoaded_filled {loaded : Nat → Bool} {last gdt i : Nat} (filled : Filled mem gdt 6 (segments loaded last))
    (first : 1 ≤ i) (small : i ≤ 4) :
    Filled (noteLoaded gdt mem i) gdt 6 (segments (Function.update loaded i true) last) := by
  have gate (b : Bool) : segments (fun _ => b) last i = gdtGate 0#32 0xFFFFF#32 (accessed i b) 0xCF#8 := by
    rw [segments,if_pos (by omega),flat,if_neg (by omega)]
  have held : load mem (gdt+8*i) 8 = gdtGate 0#32 0xFFFFF#32 (accessed i (loaded i)) 0xCF#8 :=
    (filled i (by omega)).trans (gate (loaded i))
  have again : accessed i (loaded i) ||| 1#8 = accessed i true := by
    unfold accessed
    dsimp only
    cases loaded i with
    | false => rfl
    | true => rw [if_pos rfl,BitVec.or_assoc,BitVec.or_self]
  obtain ⟨access,changed⟩ := access_changed held (accessed i true)
  unfold noteLoaded
  rw [access,again]
  refine filled_same (filled_update filled changed fun x far => patch_outside _ _ (by omega)) fun j inside => ?_
  by_cases same : j = i
  · subst same
    rw [Function.update_self,←gate,segments,segments,Function.update_self]
  · rw [Function.update_of_ne same,segments,segments,Function.update_of_ne same]

theorem gdtFilled_result (placed : Placed l) (mem : Memory) :
    Filled (gdtFilled l mem) l.gdt 6 (segments (fun _ => false) 0) ∧
    readPointer (gdtFilled l mem) l.gdtPointer = ⟨l.gdt,47⟩ := by
  obtain ⟨⟨apart,_⟩,_⟩ := placed_apart placed
  obtain ⟨fits,_⟩ := placed_fits placed
  unfold gdtFilled
  dsimp only
  generalize pointed : store (store mem l.gdtPointer 2 47) (l.gdtPointer+2) 4 l.gdt = start
  constructor
  · have blank : Filled start l.gdt 6 (fun i => load start (l.gdt+8*i) 8) := fun _ _ => rfl
    refine filled_same (gdtSetGate_filled l.gdt (gdtSetGate_filled l.gdt (gdtSetGate_filled l.gdt (gdtSetGate_filled l.gdt
      (gdtSetGate_filled l.gdt (gdtSetGate_filled l.gdt blank 0 _ _ _ _) 1 _ _ _ _) 2 _ _ _ _) 3 _ _ _ _)
      4 _ _ _ _) 5 _ _ _ _) ?_
    intro i inside
    match i,inside with
    | 0,_ | 1,_ | 2,_ | 3,_ | 4,_ | 5,_ => rfl
  · have keeps := fun mem index small base limit access granularity =>
      @gdtSetGate_keeps l.gdt mem index base limit access granularity small
    rw [pointer_kept (keeps _ 5 (by decide) _ _ _ _) apart,pointer_kept (keeps _ 4 (by decide) _ _ _ _) apart,
      pointer_kept (keeps _ 3 (by decide) _ _ _ _) apart,pointer_kept (keeps _ 2 (by decide) _ _ _ _) apart,
      pointer_kept (keeps _ 1 (by decide) _ _ _ _) apart,pointer_kept (keeps _ 0 (by decide) _ _ _ _) apart,←pointed]
    exact pointer_written mem (by omega) (by decide)

theorem gdtInstall_result (placed : Placed l) (mem : Memory) :
    (∃ loaded,Filled (gdtInstall l mem).1 l.gdt 6 (segments loaded 0)) ∧ (gdtInstall l mem).2 = ⟨l.gdt,47⟩ := by
  obtain ⟨filled,pointer⟩ := gdtFilled_result placed mem
  unfold gdtInstall gdtFlush
  rw [pointer]
  have code := noteLoaded_filled filled (show 1 ≤ index gdtKernelCode by decide) (by decide)
  exact ⟨⟨_,noteLoaded_filled code (show 1 ≤ index gdtKernelData by decide) (by decide)⟩,rfl⟩

theorem idtSetGate_keeps (idt : Nat) (mem : Memory) {num : Nat} (base : Word) (selector : Selector) (flags : Byte)
    (small : num < 256) :
    Keeps idt 2048 mem (idtSetGate idt mem num base selector flags) :=
  fun _ outside => idtSetGate_outside idt mem num base selector flags (by omega)

theorem idtSetGate_filled {values : Nat → Nat} (idt : Nat) (filled : Filled mem idt 256 values) (num : Nat) (base : Word)
    (selector : Selector) (flags : Byte) : Filled (idtSetGate idt mem num base selector flags) idt 256
      (Function.update values num (idtGate base selector flags)) :=
  filled_update filled (idtSetGate_entry ..) fun _ => idtSetGate_outside idt mem num base selector flags

-- A run of gates from the first on, all of one kind.
theorem gates_filled {values : Nat → Nat} (idt : Nat) (base : Nat → Word) (selector : Selector) (flags : Byte)
    (filled : Filled mem idt 256 values)
    (count : Nat) (small : count ≤ 256) :
    let after := (List.range count).foldl (fun mem i => idtSetGate idt mem i (base i) selector flags) mem
    Filled after idt 256 (fun i => if i < count then idtGate (base i) selector flags else values i) ∧
      Keeps idt 2048 mem after := by
  induction count with
  | zero => exact ⟨filled_same filled fun _ _ => (if_neg (Nat.not_lt_zero _)).symm,fun _ _ => rfl⟩
  | succ count ih =>
    obtain ⟨earlier,kept⟩ := ih (by omega)
    dsimp only at earlier kept ⊢
    rw [List.range_succ,List.foldl_append]
    refine ⟨filled_same (idtSetGate_filled idt earlier count (base count) selector flags) fun i inside => ?_,
      keeps_trans kept (idtSetGate_keeps idt _ _ _ _ (by omega))⟩
    by_cases same : i = count
    · subst same
      rw [Function.update_self,if_pos (Nat.lt_succ_self _)]
    · rw [Function.update_of_ne same]
      by_cases before : i < count
      · rw [if_pos before,if_pos (by omega)]
      · rw [if_neg before,if_neg (by omega)]

-- The vectors that have a stub, and the gates.
def Listed (vector : Nat) : Prop := vector < 48 ∨ vector = 0x80
instance : Decidable (Listed vector) := inferInstanceAs (Decidable (_ ∨ _))

def gates (l : Layout) (vector : Nat) : Nat :=
  if Listed vector then idtGate (stubAddress l vector) gdtKernelCode (if vector = 0x80 then 0xEE#8 else 0x8E#8) else 0

theorem idtInstall_result (placed : Placed l) (mem : Memory) : Filled (idtInstall l mem).1 l.idt 256 (gates l) ∧
    (idtInstall l mem).2 = ⟨l.idt,2047⟩ ∧
    ∀ x,(x < l.idt ∨ l.idt+2048 ≤ x) → (x < l.idtPointer ∨ l.idtPointer+6 ≤ x) → (idtInstall l mem).1 x = mem x := by
  obtain ⟨_,apart,_⟩ := placed_apart placed
  obtain ⟨_,fits,_⟩ := placed_fits placed
  unfold idtInstall
  dsimp only
  generalize pointed : store (store mem l.idtPointer 2 2047) (l.idtPointer+2) 4 l.idt = start
  have blank : Filled start l.idt 256 (fun i => load start (l.idt+8*i) 8) := fun _ _ => rfl
  obtain ⟨zeros,first⟩ := gates_filled l.idt (fun _ => 0#32) 0#16 0#8 blank 256 (Nat.le_refl _)
  generalize (List.range 256).foldl (fun mem i => idtSetGate l.idt mem i 0#32 0#16 0#8) start = cleared at zeros first ⊢
  obtain ⟨stubs,second⟩ := gates_filled l.idt (stubAddress l) gdtKernelCode 0x8E#8 zeros 48 (by decide)
  generalize (List.range 48).foldl (fun mem i => idtSetGate l.idt mem i (stubAddress l i) gdtKernelCode 0x8E#8) cleared =
    listed at stubs second ⊢
  have third := idtSetGate_keeps l.idt listed (l.isr 128) gdtKernelCode 0xEE#8 (show 0x80 < 256 by decide)
  have whole := keeps_trans (keeps_trans first second) third
  refine ⟨filled_same (idtSetGate_filled l.idt stubs 0x80 (l.isr 128) gdtKernelCode 0xEE#8) fun i inside => ?_,?_,
    fun x table pointer => ?_⟩
  · unfold gates
    by_cases call : i = 0x80
    · subst call
      rw [Function.update_self]
      rfl
    · rw [Function.update_of_ne call,if_neg call]
      by_cases below : i < 48
      · rw [if_pos below,if_pos (show Listed i from .inl below)]
      · rw [if_neg below,if_pos inside,if_neg (show ¬Listed i from fun either => either.elim below call)]
        rfl
  · rw [pointer_kept whole apart,←pointed]
    exact pointer_written mem (by omega) (by decide)
  · rw [whole x table,←pointed]
    unfold store
    rw [patch_outside _ _ (by omega),patch_outside _ _ (by omega)]

theorem task_read (placed : Placed l) : let d := taskGate l 0x89#8
    bits d 40 5 = 9 ∧ present d = true ∧ segmentBase d = l.tss ∧ segmentLimit d = 103 := by
  obtain ⟨_,_,fits⟩ := placed_fits placed
  unfold taskGate
  obtain ⟨base,limit,access,granularity⟩ := gdtGate_read (BitVec.ofNat 32 l.tss) 103#32 0x89#8 0#8
  obtain ⟨kind,_,_,_,present,_⟩ := access_read access
  refine ⟨kind,present,?_,?_⟩
  · rw [base,BitVec.toNat_ofNat,Nat.mod_eq_of_lt (by omega)]
  · have bytes : bits (gdtGate (BitVec.ofNat 32 l.tss) 103#32 0x89#8 0#8) 55 1 = 0 := by
      unfold bits at granularity ⊢
      rw [show (0#8 : Byte).toNat/2^4 = 0 from rfl] at granularity
      omega
    unfold segmentLimit
    dsimp only
    rw [bytes,limit]
    rfl

-- The structure tss_install fills in, and the descriptor ltr takes and marks.
structure Loaded (l : Layout) (loaded : Nat → Bool) (mem other : Memory) (top : Word) : Prop where
  gdt : Filled other l.gdt 6 (segments loaded (taskGate l 0x8B#8))
  esp0 : load other (l.tss+4) 4 = top.toNat
  ss0 : load other (l.tss+8) 2 = 0x10
  bitmap : load other (l.tss+102) 2 = 104
  outside : ∀ x,(x < l.gdt ∨ l.gdt+48 ≤ x) → (x < l.tss ∨ l.tss+104 ≤ x) → other x = mem x

theorem tssFilled_result (l : Layout) (mem : Memory) (top : Word) : Keeps l.tss 104 mem (tssFilled l mem top) ∧
    load (tssFilled l mem top) (l.tss+4) 4 = top.toNat ∧ load (tssFilled l mem top) (l.tss+8) 2 = 0x10 ∧
    load (tssFilled l mem top) (l.tss+102) 2 = 104 := by
  have small := top.isLt
  unfold tssFilled
  refine ⟨fun x far => ?_,?_,?_,load_store _ _ (by decide)⟩
  · unfold store fill
    simp (disch := omega) only [patch_outside]
  · simp (disch := omega) only [load_store_apart,load_store]
  · simp (disch := omega) only [load_store_apart,load_store_low]
    rfl

theorem ltr_result (placed : Placed l) {loaded : Nat → Bool}
    (filled : Filled mem l.gdt 6 (segments loaded (taskGate l 0x89#8))) :
    ltr mem ⟨l.gdt,47⟩ gdtTss = some (store mem (l.gdt+8*5+5) 1 (0x8B#8).toNat,⟨l.tss,103⟩) ∧
    Filled (store mem (l.gdt+8*5+5) 1 (0x8B#8).toNat) l.gdt 6 (segments loaded (taskGate l 0x8B#8)) := by
  have held : load mem (l.gdt+8*5) 8 = taskGate l 0x89#8 := filled 5 (by decide)
  obtain ⟨kind,present,base,limit⟩ := task_read placed
  obtain ⟨access,busy⟩ := access_changed held 0x8B#8
  have entry := entry_filled filled (show 47+1 = 8*6 by decide) 5
  rw [if_pos (by decide)] at entry
  constructor
  · unfold ltr
    rw [if_neg (by decide),show index gdtTss = 5 from rfl,entry]
    dsimp only
    rw [show segments loaded (taskGate l 0x89#8) 5 = taskGate l 0x89#8 from rfl,
      if_pos ⟨kind,present⟩,base,limit,access,show 0x89#8 ||| 2#8 = 0x8B#8 by decide]
  · exact filled_same (filled_update filled busy fun x far => patch_outside _ _ (by omega)) (segments_update _ _ _)

theorem tssInstall_result (placed : Placed l) {loaded : Nat → Bool} (filled : Filled mem l.gdt 6 (segments loaded 0))
    (top : Word) :
    ∃ other,tssInstall l mem ⟨l.gdt,47⟩ top = some (other,⟨l.tss,103⟩) ∧ Loaded l loaded mem other top := by
  obtain ⟨⟨_,_,_,apart⟩,_⟩ := placed_apart placed
  obtain ⟨outside,esp0,ss0,bitmap⟩ := tssFilled_result l mem top
  have cleared := filled_congr filled fun x above below => outside x (by omega)
  have gated : Filled (gdtSetTss l (tssFilled l mem top) (BitVec.ofNat 32 l.tss) 104#32) l.gdt 6
      (segments loaded (taskGate l 0x89#8)) := by
    have written := gdtSetGate_filled l.gdt cleared 5 (BitVec.ofNat 32 l.tss) (104#32-1#32) 0x89#8 0x00#8
    rw [show 104#32-1#32 = 103#32 by decide] at written
    exact filled_same written (segments_update _ _ _)
  have elsewhere : Keeps l.gdt 48 (tssFilled l mem top) (gdtSetTss l (tssFilled l mem top) (BitVec.ofNat 32 l.tss) 104#32) :=
    gdtSetGate_keeps l.gdt _ (BitVec.ofNat 32 l.tss) (104#32-1#32) 0x89#8 0x00#8 (by decide)
  obtain ⟨taken,marked⟩ := ltr_result placed gated
  change tssInstall l mem ⟨l.gdt,47⟩ top = _ at taken
  generalize gdtSetTss l (tssFilled l mem top) (BitVec.ofNat 32 l.tss) 104#32 = last at elsewhere marked taken
  have busy : Keeps l.gdt 48 last (store last (l.gdt+8*5+5) 1 (0x8B#8).toNat) := fun x far => patch_outside _ _ (by omega)
  have whole := keeps_trans elsewhere busy
  refine ⟨_,taken,marked,?_,?_,?_,fun x table task => ?_⟩
  · exact (load_congr fun k below => whole _ (by omega)).trans esp0
  · exact (load_congr fun k below => whole _ (by omega)).trans ss0
  · exact (load_congr fun k below => whole _ (by omega)).trans bitmap
  · exact (whole x table).trans (outside x task)

structure Installed (l : Layout) (ldt : Table) (w : World) (top : Word) : Prop where
  tables : w.tables = ⟨⟨l.gdt,47⟩,⟨l.idt,2047⟩,⟨l.tss,103⟩,gdtTss,ldt⟩
  gdt : ∃ loaded,Filled w.mem l.gdt 6 (segments loaded (taskGate l 0x8B#8))
  idt : Filled w.mem l.idt 256 (gates l)
  esp0 : load w.mem (l.tss+4) 4 = top.toNat
  ss0 : load w.mem (l.tss+8) 2 = 0x10
  bitmap : load w.mem (l.tss+102) 2 = 104

-- The three structures are put in place one after the other, each apart from the others.
theorem install_result (placed : Placed l) (mem : Memory) (top : Word) :
    ∃ w,install l ldt mem top = some w ∧ Installed l ldt w top := by
  obtain ⟨⟨_,gdtIdt,gdtIdtPointer,_⟩,_,idtTss⟩ := placed_apart placed
  obtain ⟨⟨loaded,flat⟩,pointer⟩ := gdtInstall_result placed mem
  obtain ⟨stubs,idtPointer,untouched⟩ := idtInstall_result placed (gdtInstall l mem).1
  have kept := filled_congr flat fun x above below => untouched x (by omega) (by omega)
  obtain ⟨other,taken,result⟩ := tssInstall_result placed kept top
  refine ⟨⟨other,⟨l.gdt,47⟩,⟨l.idt,2047⟩,⟨l.tss,103⟩,gdtTss,ldt⟩,?_,rfl,⟨loaded,result.gdt⟩,?_,
    result.esp0,result.ss0,result.bitmap⟩
  · unfold install
    dsimp only
    rw [pointer,idtPointer,taken]
    rfl
  · exact filled_congr stubs fun x above below => result.outside x (by omega) (by omega)

-- What leaves the interrupt table and the task state segment alone.
theorem installed_congr (installed : Installed l ldt w top) (tables : after.tables = w.tables)
    (gdt : ∃ loaded,Filled after.mem l.gdt 6 (segments loaded (taskGate l 0x8B#8)))
    (idt : ∀ x,l.idt ≤ x → x < l.idt+2048 → after.mem x = w.mem x)
    (tss : ∀ x,l.tss ≤ x → x < l.tss+104 → after.mem x = w.mem x) : Installed l ldt after top := by
  refine ⟨tables.trans installed.tables,gdt,filled_congr installed.idt idt,?_,?_,?_⟩
  · exact (load_congr fun k below => tss _ (by omega) (by omega)).trans installed.esp0
  · exact (load_congr fun k below => tss _ (by omega) (by omega)).trans installed.ss0
  · exact (load_congr fun k below => tss _ (by omega) (by omega)).trans installed.bitmap

theorem step_installed (placed : Placed l) {before : Memory} {first : Word} {event : Event}
    (installed : Installed l ldt w top)
    (step : (kernel l ldt before first).step w event after) : Installed l ldt after (lastStack top [event]) := by
  obtain ⟨⟨_,gdtIdt,_,gdtTss⟩,_,idtTss⟩ := placed_apart placed
  obtain ⟨loaded,filled⟩ := installed.gdt
  cases event with
  | stack other =>
    have small := other.isLt
    rw [show after = {w with mem:=tssSetKernelStack l w.mem other} from step]
    refine ⟨installed.tables,⟨loaded,filled_congr filled fun x above below => patch_outside _ _ (by omega)⟩,
      filled_congr installed.idt fun x above below => patch_outside _ _ (by omega),load_store _ _ small,?_,?_⟩
    · exact (load_store_apart _ _ (by omega)).trans installed.ss0
    · exact (load_store_apart _ _ (by omega)).trans installed.bitmap
  | loads i =>
    obtain ⟨above,below,rfl⟩ := step
    have base : w.tables.gdt.base = l.gdt := by rw [installed.tables]
    rw [base]
    have keeps := noteLoaded_keeps l.gdt w.mem (show i < 6 by omega)
    exact installed_congr installed rfl ⟨_,noteLoaded_filled filled above below⟩ (fun x _ _ => keeps x (by omega))
      fun x _ _ => keeps x (by omega)
  | writes =>
    obtain ⟨tables,same⟩ := step
    simp only [Layout.spans,List.mem_cons,List.not_mem_nil,or_false,forall_eq_or_imp,forall_eq] at same
    obtain ⟨gdt,_,idt,_,tss⟩ := same
    exact installed_congr installed tables ⟨loaded,filled_congr filled gdt⟩ idt tss

theorem run_installed (placed : Placed l) {before : Memory} {origin : World}
    (started : (kernel l ldt before top).initial origin)
    (path : Runs (kernel l ldt before top) origin events w) : Installed l ldt w (lastStack top events) := by
  induction path with
  | nil =>
    obtain ⟨first,given,installed⟩ := install_result placed before top
    have same : first = origin := Option.some.inj (given.symm.trans started)
    exact same ▸ installed
  | step earlier step ih =>
    have next := step_installed placed ih step
    unfold lastStack at next ⊢
    rw [List.foldl_append]
    exact next

variable {cause : Cause} {vector : Nat} {code : Option Word} {s : Selector}

theorem gdt_entry (installed : Installed l ldt w top) : ∃ loaded,∀ i,entryAt w.mem w.tables.gdt i =
    if i < 6 then some (segments loaded (taskGate l 0x8B#8) i) else none := by
  obtain ⟨loaded,filled⟩ := installed.gdt
  rw [installed.tables]
  exact ⟨loaded,entry_filled filled (by decide)⟩

-- What the checks read of the five segments, which is the same whether loaded or not.
structure Parts (d i : Nat) : Prop where
  readable : readable d = decide (0 < i)
  executable : executable d = decide (i = 1 ∨ i = 3)
  conforming : conforming d = false
  level : level d = if 3 ≤ i then 3 else 0
  present : present d = decide (0 < i)
  writable : writable d = decide (i = 2 ∨ i = 4)
  ordinary : ordinary d = decide (0 < i)
  limit : segmentLimit d = if 0 < i then 0xFFFFFFFF else 0

theorem flat_parts {i : Nat} (inside : i < 5) (loaded : Bool) : Parts (flat i loaded) i := by
  match i,inside with
  | 0,_ | 1,_ | 2,_ | 3,_ | 4,_ =>
    cases loaded with
    | false | true => exact ⟨by decide,by decide,by decide,by decide,by decide,by decide,by decide,by decide⟩

theorem segment_entry (installed : Installed l ldt w top) {i : Nat} (inside : i < 5) :
    ∃ d,entryAt w.mem w.tables.gdt i = some d ∧ Parts d i := by
  obtain ⟨loaded,entries⟩ := gdt_entry installed
  refine ⟨_,(entries i).trans (if_pos (by omega)),?_⟩
  rw [segments,if_pos inside]
  exact flat_parts inside (loaded i)

theorem idt_entry (installed : Installed l ldt w top) (small : vector < 256) :
    entryAt w.mem w.tables.idt vector = some (gates l vector) := by
  rw [installed.tables,entry_filled installed.idt (by decide),if_pos small]

-- What a gate with a stub says to the processor.
theorem gate_read (l : Layout) (listed : Listed vector) : bits (gates l vector) 40 5 = 14 ∧
    level (gates l vector) = (if vector = 0x80 then 3 else 0) ∧ present (gates l vector) = true ∧
    gateSelector (gates l vector) = gdtKernelCode ∧ gateOffset (gates l vector) = (stubAddress l vector).toNat := by
  unfold gates
  rw [if_pos listed]
  obtain ⟨offset,selector,flags⟩ := idtGate_read (stubAddress l vector) gdtKernelCode (if vector = 0x80 then 0xEE#8 else 0x8E#8)
  obtain ⟨kind,_,_,level,present,_⟩ := access_read flags
  refine ⟨kind.trans ?_,level.trans ?_,present.trans ?_,selector,offset⟩
  all_goals
    split
    · rfl
    · rfl

-- Every gate but one is closed to int instructions outside ring 0.
def Allowed (cause : Cause) (cpl vector : Nat) : Prop := vector = 0x80 ∨ vector < 48 ∧ (cause.ext = 0 → cpl = 0)
instance : Decidable (Allowed cause cpl vector) := inferInstanceAs (Decidable (_ ∨ _))

theorem gateFor_allowed (installed : Installed l ldt w top) (cpl : Nat) (small : cpl < 4)
    (allowed : Allowed cause cpl vector) :
    gateFor w.mem w.tables cause vector cpl = .ok (gates l vector) := by
  have listed : Listed vector := allowed.elim .inr fun both => .inl both.1
  have inside : vector < 256 := by
    unfold Listed at listed
    omega
  obtain ⟨kind,privilege,present,_⟩ := gate_read l listed
  have opened : ¬(cause.ext = 0 ∧ level (gates l vector) < cpl) := by
    rw [privilege]
    rintro ⟨software,lower⟩
    rcases allowed with call | ⟨_,inner⟩
    · rw [if_pos call] at lower
      omega
    · rw [inner software] at lower
      omega
  unfold gateFor
  rw [idt_entry installed inside]
  dsimp only
  rw [kind,if_neg (by decide),if_neg opened,present,if_neg nofun,if_neg nofun]

theorem gateFor_closed (installed : Installed l ldt w top) (cpl : Nat) (small : vector < 256)
    (closed : ¬Allowed cause cpl vector) :
    gateFor w.mem w.tables cause vector cpl = .error (.fault 13 (8*vector+2+cause.ext)) := by
  unfold gateFor
  rw [idt_entry installed small]
  dsimp only
  by_cases listed : Listed vector
  · obtain ⟨kind,privilege,_⟩ := gate_read l listed
    have guarded : vector < 48 ∧ cause.ext = 0 ∧ 0 < cpl := by
      unfold Allowed at closed
      unfold Listed at listed
      omega
    rw [if_neg (show ¬vector = 0x80 by omega)] at privilege
    rw [kind,if_neg (by decide),privilege,if_pos guarded.2]
  · unfold gates
    rw [if_neg listed,if_pos (by decide)]

-- The kernel's code segment is code of ring 0 that is not conforming, up to the last byte.
theorem codeFor_kernel (installed : Installed l ldt w top) (ext cpl : Nat) :
    ∃ d,codeFor w.mem w.tables ext gdtKernelCode cpl = .ok d ∧ level d = 0 ∧ conforming d = false ∧
      segmentLimit d = 0xFFFFFFFF := by
  obtain ⟨d,entry,parts⟩ := segment_entry installed (show 1 < 5 by decide)
  refine ⟨d,?_,parts.level,parts.conforming,parts.limit⟩
  unfold codeFor
  rw [if_neg (by decide),if_neg (by decide),show index gdtKernelCode = 1 from rfl,entry]
  dsimp only
  rw [parts.executable,parts.level,parts.present,if_neg (by simp),if_neg (by simp)]

theorem stackFor_kernel (installed : Installed l ldt w top) (ext : Nat) :
    stackFor w.mem w.tables ext 0 = .ok ⟨gdtKernelData,top⟩ := by
  obtain ⟨d,entry,parts⟩ := segment_entry installed (show 2 < 5 by decide)
  unfold stackFor
  rw [installed.tables] at entry ⊢
  dsimp only at entry ⊢
  rw [if_neg (by decide),Nat.mul_zero,Nat.add_zero,installed.ss0,installed.esp0,BitVec.ofNat_toNat,BitVec.setWidth_eq,
    if_neg (by decide),if_neg (by decide),show index (BitVec.ofNat 16 0x10) = 2 from rfl,entry]
  dsimp only
  rw [parts.level,parts.writable,parts.present,show ring (BitVec.ofNat 16 0x10) = 0 from rfl,if_neg (by simp),
    if_neg (by simp)]
  rfl

-- A gate that is open leads to its stub in ring 0, on the stack that was set last if the
-- ring was another one.
theorem target_allowed (installed : Installed l ldt w top) (allowed : Allowed cause (ring m.cs) vector) :
    target w.mem w.tables cause vector m =
      .ok (⟨gdtKernelCode,stubAddress l vector⟩,if 0 < ring m.cs then ⟨gdtKernelData,top⟩ else ⟨m.ss,m.esp⟩) := by
  have listed : Listed vector := allowed.elim .inr fun both => .inl both.1
  obtain ⟨_,_,_,selector,offset⟩ := gate_read l listed
  obtain ⟨d,code,level,conforming,limit⟩ := codeFor_kernel installed cause.ext (ring m.cs)
  have inside := (stubAddress l vector).isLt
  unfold target
  rw [gateFor_allowed installed (ring m.cs) (Nat.mod_lt _ (by decide)) allowed]
  dsimp only
  rw [selector,code]
  dsimp only
  rw [level,conforming,limit,offset,stackFor_kernel installed,BitVec.ofNat_toNat,BitVec.setWidth_eq]
  by_cases outside : 0 < ring m.cs
  · rw [if_pos ⟨rfl,outside⟩,if_pos ⟨rfl,outside⟩,if_pos outside]
    dsimp only
    rw [if_neg (by omega)]
    rfl
  · rw [if_neg fun both => outside both.2,if_neg fun both => outside both.2,if_neg outside]
    dsimp only
    rw [if_neg (by omega),show ring m.cs = 0 by omega]
    rfl

theorem target_closed (installed : Installed l ldt w top) (small : vector < 256)
    (closed : ¬Allowed cause (ring m.cs) vector) :
    target w.mem w.tables cause vector m = .error (.fault 13 (8*vector+2+cause.ext)) := by
  unfold target
  rw [gateFor_closed installed _ small closed]

-- On its own stack the kernel needs none of the task state segment.
theorem deliver_entry (l : Layout) (top : Word) (vector : Nat) (code : Option Word) (m : Cpu) (cs : Selector)
    (same : ring m.cs = ring cs) :
    deliver (if 0 < ring cs then ⟨gdtKernelData,top⟩ else ⟨m.ss,m.esp⟩) ⟨gdtKernelCode,stubAddress l vector⟩ code m =
      deliver ⟨gdtKernelData,top⟩ ⟨gdtKernelCode,stubAddress l vector⟩ code m := by
  by_cases outside : 0 < ring cs
  · rw [if_pos outside]
  · refine deliver_stays _ _ _ _ _ fun change => outside ?_
    unfold outer at change
    rw [same] at change
    exact Nat.lt_of_le_of_lt (Nat.zero_le _) change

theorem resume_same (cause : Cause) (m : Cpu) : (cause.resume m).cs = m.cs ∧ (cause.resume m).esp = m.esp ∧
    (cause.resume m).ss = m.ss := by
  cases cause with
  | software next => exact ⟨rfl,rfl,rfl⟩
  | exception | external => exact ⟨rfl,rfl,rfl⟩

-- An interrupt that may not come in is a general protection fault, and that always comes in.
theorem arrive_result (installed : Installed l ldt w top) (small : vector < 256) :
    arrive w.mem w.tables cause vector code m = some
    (if Allowed cause (ring m.cs) vector then
      deliver ⟨gdtKernelData,top⟩ ⟨gdtKernelCode,stubAddress l vector⟩ code (cause.resume m)
    else deliver ⟨gdtKernelData,top⟩ ⟨gdtKernelCode,stubAddress l 13⟩ (some (BitVec.ofNat 32 (8*vector+2+cause.ext))) m) := by
  unfold arrive
  by_cases allowed : Allowed cause (ring m.cs) vector
  · rw [target_allowed installed allowed,if_pos allowed]
    dsimp only
    obtain ⟨cs,esp,ss⟩ := resume_same cause m
    rw [←esp,←ss,deliver_entry l top vector code _ _ (congrArg ring cs)]
  · have handled : Allowed .exception (ring m.cs) 13 := .inr ⟨by decide,nofun⟩
    have mild : serious cause vector = false := by
      cases cause with
      | software next | external => rfl
      | exception =>
        by_contra listed
        rw [Bool.not_eq_false,serious,List.contains_iff_mem] at listed
        simp only [List.mem_cons,List.not_mem_nil,or_false] at listed
        exact allowed (.inr ⟨by omega,nofun⟩)
    rw [target_closed installed small allowed,if_neg allowed]
    dsimp only
    rw [mild,if_neg nofun,target_allowed installed handled]
    dsimp only
    rw [deliver_entry l top 13 _ m _ rfl]

theorem task_parts (l : Layout) : let d := taskGate l 0x8B#8
    readable d = false ∧ executable d = false ∧ writable d = false ∧ ordinary d = false ∧ level d = 0 := by
  obtain ⟨_,_,access,_⟩ := gdtGate_read (BitVec.ofNat 32 l.tss) 103#32 0x8B#8 0#8
  obtain ⟨_,_,ordinary,level,_⟩ := access_read access
  have plain : Segments.ordinary (taskGate l 0x8B#8) = false := ordinary
  refine ⟨?_,?_,?_,plain,level⟩
  · rw [readable,plain,Bool.false_and]
  · rw [executable,plain,Bool.false_and]
  · rw [writable,plain,Bool.false_and,Bool.false_and]

inductive Selected (w : World) (task : Nat) (s : Selector) : Prop where
  | segment (inside : index s < 5) (d : Nat) (entry : descriptorAt w.mem w.tables s = some d)
      (parts : Parts d (index s))
  | task (last : index s = 5) (entry : descriptorAt w.mem w.tables s = some task)
  | none (beyond : 5 < index s) (entry : descriptorAt w.mem w.tables s = .none)

theorem selected (installed : Installed l ldt w top) (s : Selector) (shared : isLocal s = false) :
    Selected w (taskGate l 0x8B#8) s := by
  have global := @descriptor_global w.mem w.tables s shared
  by_cases inside : index s < 5
  · obtain ⟨d,entry,parts⟩ := segment_entry installed inside
    exact .segment inside d (global.trans entry) parts
  · obtain ⟨loaded,entries⟩ := gdt_entry installed
    have entry := entries (index s)
    by_cases last : index s = 5
    · rw [if_pos (by omega),segments,if_neg inside] at entry
      exact .task last (global.trans entry)
    · rw [if_neg (by omega)] at entry
      exact .none (by omega) (global.trans entry)

-- What a program in ring 3 can load: null, the user code and the user data segment.
theorem data_loads (installed : Installed l ldt w top) (s : Selector) (shared : isLocal s = false) :
    dataLoads w.mem w.tables 3 s = true ↔ null s = true ∨ index s = 3 ∨ index s = 4 := by
  have rank : ring s ≤ 3 := Nat.le_of_lt_succ (Nat.mod_lt _ (by decide))
  unfold dataLoads
  rw [Bool.or_eq_true]
  refine or_congr_right ?_
  cases selected installed s shared with
  | segment inside d entry parts =>
    rw [entry]
    dsimp only
    rw [parts.readable,parts.conforming,parts.level,parts.present]
    simp only [Bool.false_or,Bool.and_eq_true,decide_eq_true_eq]
    split
    · omega
    · omega
  | task last entry =>
    obtain ⟨readable,_⟩ := task_parts l
    rw [entry]
    dsimp only
    rw [readable,Bool.false_and,Bool.false_and]
    exact ⟨nofun,fun user => by omega⟩
  | none beyond entry =>
    rw [entry]
    exact ⟨nofun,fun user => by omega⟩

theorem stack_loads (installed : Installed l ldt w top) (s : Selector) (shared : isLocal s = false) :
    stackLoads w.mem w.tables 3 s = true ↔ s = gdtUserData := by
  have same : s = gdtUserData ↔ index s = 4 ∧ ring s = 3 := by
    have apart : ¬s.toNat/4%2 = 1 := by simpa [isLocal] using shared
    rw [←BitVec.toNat_inj,show gdtUserData.toNat = 35 from rfl,index,ring]
    omega
  have filled : null s = true → index s = 0 := by
    unfold null index
    rw [beq_iff_eq]
    omega
  rw [same,stackLoads,Bool.and_eq_true,Bool.not_eq_true']
  cases selected installed s shared with
  | segment inside d entry parts =>
    rw [entry]
    dsimp only
    rw [parts.level,parts.present,parts.writable]
    simp only [Bool.and_eq_true,decide_eq_true_eq,beq_iff_eq]
    constructor
    · rintro ⟨_,⟨⟨rank,privilege⟩,data⟩,_⟩
      refine ⟨?_,rank⟩
      split at privilege
      · omega
      · omega
    · rintro ⟨user,rank⟩
      refine ⟨?_,⟨⟨rank,by rw [user]; rfl⟩,.inr user⟩,by omega⟩
      by_contra nothing
      rw [Bool.not_eq_false] at nothing
      have zero := filled nothing
      omega
  | task last entry =>
    obtain ⟨_,_,writable,_⟩ := task_parts l
    rw [entry]
    dsimp only
    rw [writable,Bool.and_false,Bool.false_and]
    exact ⟨nofun,fun user => by omega⟩
  | none beyond entry =>
    rw [entry]
    exact ⟨nofun,fun user => by omega⟩

theorem far_target (installed : Installed l ldt w top) (s : Selector) (shared : isLocal s = false) :
    farTarget w.mem w.tables 3 s = if index s = 3 then .code else .refused := by
  have rank : ring s ≤ 3 := Nat.le_of_lt_succ (Nat.mod_lt _ (by decide))
  unfold farTarget
  by_cases nothing : null s = true
  · have zero : index s = 0 := by
      rw [null,beq_iff_eq] at nothing
      unfold index
      omega
    rw [if_pos nothing,if_neg (by omega)]
  · rw [if_neg nothing]
    cases selected installed s shared with
    | segment inside d entry parts =>
      rw [entry]
      dsimp only
      rw [parts.executable,parts.conforming,parts.level,parts.present,parts.ordinary]
      by_cases user : index s = 3
      · rw [user]
        simp [rank]
      · rw [if_neg user]
        by_cases code : index s = 1
        · rw [code]
          simp
        · rw [if_neg (by simp only [decide_eq_true_eq]; omega)]
          simp only [decide_eq_true_eq,decide_eq_false_iff_not]
          exact if_pos (by omega)
    | task last entry =>
      obtain ⟨_,executable,_,ordinary,level⟩ := task_parts l
      rw [entry,if_neg (show ¬index s = 3 by omega)]
      dsimp only
      rw [executable,level,if_neg nofun,if_pos (.inr (.inl (by decide)))]
    | none beyond entry =>
      rw [entry,if_neg (show ¬index s = 3 by omega)]

-- The bitmap begins behind the structure, so it has a bit for no port.
theorem port_open (installed : Installed l ldt w top) (m : Cpu) (port width : Nat) :
    portOpen w.mem w.tables m port width = decide (ring m.cs ≤ bits m.eflags.toNat 12 2) := by
  unfold portOpen
  rw [installed.tables]
  dsimp only
  rw [installed.bitmap,decide_eq_false (show ¬(103 ≤ 103 ∧ 104+port/8+1 ≤ 103) by omega),Bool.false_and,Bool.or_false]

-- iret to ring 3 leaves the program no segment it could not have loaded.
theorem settled_loads (installed : Installed l ldt w top) (s : Selector) (shared : isLocal s = false) :
    dataLoads w.mem w.tables 3 (settle (levelOf w.mem w.tables) 3 s) = true := by
  have nothing : dataLoads w.mem w.tables 3 0#16 = true := (data_loads installed 0#16 rfl).mpr (.inl rfl)
  have taken (low : levelOf w.mem w.tables s < 3) : settle (levelOf w.mem w.tables) 3 s = 0#16 := if_pos low
  cases selected installed s shared with
  | segment inside d entry parts =>
    have privilege : levelOf w.mem w.tables s = if 3 ≤ index s then 3 else 0 := by
      rw [levelOf,entry,Option.map_some,Option.getD_some,parts.level]
    by_cases user : 3 ≤ index s
    · rw [if_pos user] at privilege
      rw [settle,privilege,if_neg (Nat.lt_irrefl 3),data_loads installed s shared]
      omega
    · rw [if_neg user] at privilege
      rw [taken (by omega)]
      exact nothing
  | task last entry =>
    obtain ⟨_,_,_,_,low⟩ := task_parts l
    have privilege : levelOf w.mem w.tables s = 0 := by
      rw [levelOf,entry,Option.map_some,Option.getD_some,low]
    rw [taken (by omega)]
    exact nothing
  | none beyond entry =>
    have privilege : levelOf w.mem w.tables s = 0 := by
      rw [levelOf,entry,Option.map_none,Option.getD_none]
    rw [taken (by omega)]
    exact nothing

-- What the tables do to everything that runs while they are in place.
structure Confined (l : Layout) (w : World) (top : Word) : Prop where
  arrives : ∀ m cause vector code,vector < 256 → arrive w.mem w.tables cause vector code m = some
    (if Allowed cause (ring m.cs) vector then
      deliver ⟨gdtKernelData,top⟩ ⟨gdtKernelCode,stubAddress l vector⟩ code (cause.resume m)
    else deliver ⟨gdtKernelData,top⟩ ⟨gdtKernelCode,stubAddress l 13⟩ (some (BitVec.ofNat 32 (8*vector+2+cause.ext))) m)
  data : ∀ s,isLocal s = false → (dataLoads w.mem w.tables 3 s = true ↔ null s = true ∨ index s = 3 ∨ index s = 4)
  stack : ∀ s,isLocal s = false → (stackLoads w.mem w.tables 3 s = true ↔ s = gdtUserData)
  far : ∀ s,isLocal s = false → farTarget w.mem w.tables 3 s = if index s = 3 then .code else .refused
  ports : ∀ m port width,portOpen w.mem w.tables m port width = decide (ring m.cs ≤ bits m.eflags.toNat 12 2)
  returns : ∀ s,isLocal s = false → dataLoads w.mem w.tables 3 (settle (levelOf w.mem w.tables) 3 s) = true

-- From gdt_install, idt_install and tss_install on, at whatever addresses, the processor finds
-- in the three tables what the kernel meant: every interrupt comes in through its stub on the
-- stack that was set last, int reaches vector 0x80 from ring 3 and no other, and a program in
-- ring 3 has of the global table its own two segments, no gate and no task, and it has no
-- port.
theorem tables_confine (placed : Placed l) {before : Memory} {origin : World}
    (started : (kernel l ldt before top).initial origin)
    (path : Runs (kernel l ldt before top) origin events w) : Confined l w (lastStack top events) := by
  have installed := run_installed placed started path
  exact ⟨fun _ _ _ _ small => arrive_result installed small,data_loads installed,stack_loads installed,
    far_target installed,port_open installed,settled_loads installed⟩

-- A program in ring 3 tries the timer's vector with an int instruction.
def demoLayout : Layout where
  gdt := 0x109000
  gdtPointer := 0x109040
  idt := 0x10A000
  idtPointer := 0x10A800
  tss := 0x10B000
  isr vector := BitVec.ofNat 32 (0x101000+16*vector)
  irq line := BitVec.ofNat 32 (0x102000+16*line)

def demoProgram : Cpu where
  regs r := BitVec.ofNat 32 (0x11*(r.ctorIdx+1))
  esp := 0x40000F00#32
  eip := 0x40000010#32
  eflags := 0x202#32
  cs := gdtUserCode
  ss := gdtUserData
  ds := gdtUserData
  es := gdtUserData
  fs := gdtUserData
  gs := gdtUserData
  mem _ := 0#8

theorem demo_placed : Placed demoLayout := by
  constructor
  · intro span among
    simp only [Layout.spans,demoLayout,List.mem_cons,List.not_mem_nil,or_false] at among
    rcases among with rfl | rfl | rfl | rfl | rfl
    all_goals decide
  · simp only [Layout.spans,demoLayout,List.pairwise_cons,List.mem_cons,List.not_mem_nil,or_false,forall_eq_or_imp,
      forall_eq]
    simp

-- The stack is set, and the return to ring 3 loads the user data segment before the attempt.
theorem tables_confine_timer : ∃ w,install demoLayout ⟨0,0xFFFF⟩ (fun _ => 0#8) 0x90000#32 = some w ∧
    arrive (noteLoaded w.tables.gdt.base (tssSetKernelStack demoLayout w.mem 0x95000#32) 4) w.tables
      (.software 0x40000012#32) 32 none demoProgram =
      some (deliver ⟨0x10#16,0x95000#32⟩ ⟨0x08#16,0x1010D0#32⟩ (some 0x102#32) demoProgram) := by
  obtain ⟨w,given,_⟩ := install_result demo_placed (fun _ => 0#8) 0x90000#32
  let called : World := {w with mem:=tssSetKernelStack demoLayout w.mem 0x95000#32}
  let returned : World := {called with mem:=noteLoaded w.tables.gdt.base called.mem 4}
  have sets : (kernel demoLayout ⟨0,0xFFFF⟩ (fun _ => 0#8) 0x90000#32).step w (.stack 0x95000#32) called := rfl
  have loads : (kernel demoLayout ⟨0,0xFFFF⟩ (fun _ => 0#8) 0x90000#32).step called (.loads 4) returned :=
    ⟨by decide,by decide,rfl⟩
  have confined := tables_confine demo_placed given (.step (.step .nil sets) loads)
  have arrived := confined.arrives demoProgram (.software 0x40000012#32) 32 none (by decide)
  rw [if_neg (show ¬Allowed (.software 0x40000012#32) (ring demoProgram.cs) 32 by decide),
    show stubAddress demoLayout 13 = 0x1010D0#32 by decide] at arrived
  exact ⟨w,given,arrived⟩

end Arthic.Descriptors
