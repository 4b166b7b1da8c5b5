import Arthic.Library.ByteMemory
import Mathlib.Logic.Function.Basic

namespace Arthic.PioDrive
open ByteMemory

def sectorWords : Nat := 256

def statusErr : Byte := 0x01#8
def statusDrq : Byte := 0x08#8
def statusDf : Byte := 0x20#8
def statusDrdy : Byte := 0x40#8
def statusBsy : Byte := 0x80#8

-- What a drive is built like. `delay` and `pause` tell for each thing it starts on how many
-- status reads find it busy, and how many more find no data yet; `noise` fills the bits
-- that mean nothing; `floating` is what a port with nothing behind it reads as. For a
-- sector that is not `writable` it takes no data; one that it fails to store, `stores` false,
-- it finds out about when it has the data.
structure Make where
  attached : Bool
  floating : Byte
  identity : Memory
  delay : Nat → Nat
  pause : Nat → Nat
  noise : Nat → Byte
  readable : Nat → Bool
  writable : Nat → Bool
  stores : Nat → Bool

structure TaskFile where
  count : Byte
  low : Byte
  mid : Byte
  high : Byte
  device : Byte

inductive Phase where
  | idle
  | failed
  | offering (content : Memory) (moved : Nat)
  | taking (lba : Nat) (content : Memory) (moved : Nat)

structure Drive where
  make : Make
  file : TaskFile
  phase : Phase
  busy : Nat
  lag : Nat
  turns : Nat
  reads : Nat
  sectors : Nat → Memory

def Phase.free : Phase → Bool
  | .idle => true
  | .failed => true
  | .offering _ _ => false
  | .taking _ _ _ => false

def clean (noise : Byte) : Byte := noise &&& ~~~(statusBsy ||| statusDf ||| statusDrq ||| statusErr) ||| statusDrdy

def Phase.bits (phase : Phase) (noise : Byte) : Byte :=
  match phase with
  | .idle => clean noise
  | .failed => clean noise ||| if noise.getLsbD 0 then statusDf else statusErr
  | .offering _ _ => clean noise ||| statusDrq
  | .taking _ _ _ => clean noise ||| statusDrq

def Drive.status (d : Drive) : Byte × Drive :=
  let noise := d.make.noise d.reads
  let next := {d with reads:=d.reads+1}
  if d.make.attached = false then (d.make.floating,d)
  else if d.busy ≠ 0 then (noise ||| statusBsy,{next with busy:=d.busy-1})
  else if d.lag ≠ 0 then (clean noise,{next with lag:=d.lag-1})
  else (d.phase.bits noise,next)

-- A command or a register is taken by a drive that is neither busy nor moving data.
def Drive.accepts (d : Drive) : Bool := d.make.attached && d.busy == 0 && d.lag == 0 && d.phase.free

def Drive.start (d : Drive) (phase : Phase) : Drive :=
  {d with phase:=phase,busy:=d.make.delay d.turns,lag:=if phase matches .idle then 0 else d.make.pause d.turns,turns:=d.turns+1}

def Drive.setFile (d : Drive) (change : TaskFile → TaskFile) : Drive :=
  if d.accepts then {d with file:=change d.file} else d

def TaskFile.address (file : TaskFile) : Nat :=
  file.low.toNat+2^8*file.mid.toNat+2^16*file.high.toNat+2^24*(file.device &&& 0x0F#8).toNat

-- The first drive on the bus, sectors by number, one at a time.
def TaskFile.plain (file : TaskFile) : Bool := file.device &&& 0x50#8 == 0x40#8 && file.count == 1#8

def Drive.command (d : Drive) (code : Byte) : Drive :=
  if d.accepts = false then d
  else if code = 0x20#8 then
    d.start (if d.file.plain && d.make.readable d.file.address then .offering (d.sectors d.file.address) 0 else .failed)
  else if code = 0x30#8 then
    d.start (if d.file.plain && d.make.writable d.file.address then .taking d.file.address (fun _ => 0#8) 0 else .failed)
  else if code = 0xE7#8 then d.start .idle
  else if code = 0xEC#8 then d.start (.offering d.make.identity 0)
  else d.start .failed

def Drive.ready (d : Drive) : Bool := d.make.attached && d.busy == 0 && d.lag == 0

def Drive.take (d : Drive) : BitVec 16 × Drive :=
  match d.phase with
  | .offering content moved =>
    if d.ready then
      (BitVec.ofNat 16 (load content (2*moved) 2),
        if moved+1 = sectorWords then d.start .idle else {d with phase:=.offering content (moved+1)})
    else (0#16,d)
  | _ => (0#16,d)

def Drive.keep (d : Drive) (lba : Nat) (content : Memory) : Drive := {d with sectors:=Function.update d.sectors lba content}

-- What becomes of a sector's data once it is in.
def Drive.finish (d : Drive) (lba : Nat) (content : Memory) : Drive :=
  if d.make.stores lba then (d.keep lba content).start .idle else {d.start .failed with lag:=0}

def Drive.give (d : Drive) (word : BitVec 16) : Drive :=
  match d.phase with
  | .taking lba content moved =>
    if d.ready then
      let content := store content (2*moved) 2 word.toNat
      if moved+1 = sectorWords then d.finish lba content else {d with phase:=.taking lba content (moved+1)}
    else d
  | _ => d

-- What waiting changes of a drive, and what it does not.
structure Later (d after : Drive) : Prop where
  make : after.make = d.make
  file : after.file = d.file
  phase : after.phase = d.phase
  turns : after.turns = d.turns
  sectors : after.sectors = d.sectors
  busy : after.busy ≤ d.busy
  lag : after.lag ≤ d.lag

variable {d after last : Drive} {n : Nat}

theorem later_refl (d : Drive) : Later d d := ⟨rfl,rfl,rfl,rfl,rfl,Nat.le_refl _,Nat.le_refl _⟩

theorem later_trans (first : Later d after) (second : Later after last) : Later d last where
  make := second.make.trans first.make
  file := second.file.trans first.file
  phase := second.phase.trans first.phase
  turns := second.turns.trans first.turns
  sectors := second.sectors.trans first.sectors
  busy := Nat.le_trans second.busy first.busy
  lag := Nat.le_trans second.lag first.lag

theorem status_later (d : Drive) : Later d d.status.2 := by
  unfold Drive.status
  split
  · exact later_refl d
  · split
    · exact ⟨rfl,rfl,rfl,rfl,rfl,Nat.sub_le ..,Nat.le_refl _⟩
    · split
      · exact ⟨rfl,rfl,rfl,rfl,rfl,Nat.le_refl _,Nat.sub_le ..⟩
      · exact ⟨rfl,rfl,rfl,rfl,rfl,Nat.le_refl _,Nat.le_refl _⟩

variable {noise mask : Byte} {phase : Phase}

theorem clean_and (inside : ~~~(statusBsy ||| statusDf ||| statusDrq ||| statusErr) &&& mask = 0#8) (apart : statusDrdy &&& mask = 0#8) :
    clean noise &&& mask = 0#8 := by
  unfold clean
  rw [BitVec.and_or_distrib_right,BitVec.and_assoc,inside,apart,BitVec.and_zero,BitVec.or_zero]

theorem clean_bsy : clean noise &&& statusBsy = 0#8 := clean_and (by decide) (by decide)
theorem clean_fault : clean noise &&& (statusErr ||| statusDf) = 0#8 := clean_and (by decide) (by decide)
theorem clean_drq : clean noise &&& statusDrq = 0#8 := clean_and (by decide) (by decide)

theorem or_nonzero {value bit : Byte} (apart : value &&& mask = 0#8) (shown : bit &&& mask ≠ 0#8) : (value ||| bit) &&& mask ≠ 0#8 := by
  rw [BitVec.and_or_distrib_right,apart,BitVec.zero_or]
  exact shown

theorem or_zero {value bit : Byte} (apart : value &&& mask = 0#8) (hidden : bit &&& mask = 0#8) : (value ||| bit) &&& mask = 0#8 := by
  rw [BitVec.and_or_distrib_right,apart,BitVec.zero_or]
  exact hidden

theorem busy_bsy (noise : Byte) : (noise ||| statusBsy) &&& statusBsy ≠ 0#8 := by
  intro zero
  have bit := congrArg (BitVec.getLsbD · 7) zero
  simp [statusBsy] at bit

theorem bits_bsy : phase.bits noise &&& statusBsy = 0#8 := by
  cases phase with
  | idle => exact clean_bsy
  | failed =>
    refine or_zero clean_bsy ?_
    split
    · decide
    · decide
  | offering content moved => exact or_zero clean_bsy (by decide)
  | taking lba content moved => exact or_zero clean_bsy (by decide)

theorem failed_fault (noise : Byte) : Phase.failed.bits noise &&& (statusErr ||| statusDf) ≠ 0#8 := by
  refine or_nonzero clean_fault ?_
  split
  · decide
  · decide

-- With data to move the drive reports no fault and says so.
theorem moving_bits (noise : Byte) (moving : phase.free = false) :
    phase.bits noise &&& (statusErr ||| statusDf) = 0#8 ∧ phase.bits noise &&& statusDrq ≠ 0#8 := by
  cases phase with
  | idle => cases moving
  | failed => cases moving
  | offering content moved => exact ⟨or_zero clean_fault (by decide),or_nonzero clean_drq (by decide)⟩
  | taking lba content moved => exact ⟨or_zero clean_fault (by decide),or_nonzero clean_drq (by decide)⟩

theorem bits_drdy (noise : Byte) (phase : Phase) : (phase.bits noise).getLsbD 6 = true := by
  cases phase with
  | idle => simp [Phase.bits,clean,statusDrdy]
  | failed => simp [Phase.bits,clean,statusDrdy]
  | offering content moved => simp [Phase.bits,clean,statusDrdy]
  | taking lba content moved => simp [Phase.bits,clean,statusDrdy]

-- A drive that is there never reports nothing at all.
theorem status_nonzero (attached : d.make.attached = true) : d.status.1 ≠ 0#8 := by
  unfold Drive.status
  rw [if_neg (by rw [attached]; exact nofun)]
  split
  · intro zero
    exact busy_bsy (d.make.noise d.reads) (by rw [show d.make.noise d.reads ||| statusBsy = 0#8 from zero]; rfl)
  · split
    · intro zero
      have bit := bits_drdy (d.make.noise d.reads) .idle
      rw [show Phase.idle.bits (d.make.noise d.reads) = 0#8 from zero] at bit
      exact absurd bit (by decide)
    · intro zero
      have bit := bits_drdy (d.make.noise d.reads) d.phase
      rw [show d.phase.bits (d.make.noise d.reads) = 0#8 from zero] at bit
      exact absurd bit (by decide)

theorem status_busy (attached : d.make.attached = true) (busy : d.busy ≠ 0) :
    d.status.1 &&& statusBsy ≠ 0#8 ∧ d.status.2.busy = d.busy-1 ∧ d.status.2.lag = d.lag := by
  unfold Drive.status
  rw [if_neg (by rw [attached]; exact nofun),if_pos busy]
  exact ⟨busy_bsy _,rfl,rfl⟩

theorem status_free (attached : d.make.attached = true) (free : d.busy = 0) : d.status.1 &&& statusBsy = 0#8 ∧ d.status.2.busy = 0 := by
  unfold Drive.status
  rw [if_neg (by rw [attached]; exact nofun),if_neg (not_not.mpr free)]
  split
  · exact ⟨clean_bsy,free⟩
  · exact ⟨bits_bsy,free⟩

theorem status_less (attached : d.make.attached = true) : d.status.2.busy = d.busy-1 := by
  by_cases free : d.busy = 0
  · rw [(status_free attached free).2,free]
  · exact (status_busy attached free).2.1

theorem status_absent (absent : d.make.attached = false) : d.status = (d.make.floating,d) := if_pos absent

theorem status_lag (attached : d.make.attached = true) (free : d.busy = 0) (lag : d.lag ≠ 0) :
    d.status.1 &&& (statusErr ||| statusDf) = 0#8 ∧ d.status.1 &&& statusDrq = 0#8 ∧ d.status.2.busy = 0 ∧ d.status.2.lag = d.lag-1 := by
  unfold Drive.status
  rw [if_neg (by rw [attached]; exact nofun),if_neg (not_not.mpr free),if_pos lag]
  exact ⟨clean_fault,clean_drq,free,rfl⟩

theorem status_ready (attached : d.make.attached = true) (free : d.busy = 0) (lag : d.lag = 0) :
    d.status.1 = d.phase.bits (d.make.noise d.reads) := by
  unfold Drive.status
  rw [if_neg (by rw [attached]; exact nofun),if_neg (not_not.mpr free),if_neg (not_not.mpr lag)]

-- Between two operations: nothing is left to move, and it may be busy with the last one.
structure Resting (d : Drive) : Prop where
  attached : d.make.attached = true
  free : d.phase.free = true
  lag : d.lag = 0

-- A drive that is never longer at anything than a number of status reads.
def Prompt (make : Make) (patience : Nat) : Prop := ∀ turn,make.delay turn < patience ∧ make.pause turn < patience

theorem accepts_resting (resting : Resting d) (idle : d.busy = 0) : d.accepts = true := by
  unfold Drive.accepts
  rw [resting.attached,idle,resting.lag,resting.free]
  rfl

theorem later_resting (resting : Resting d) (later : Later d after) : Resting after :=
  ⟨later.make ▸ resting.attached,later.phase ▸ resting.free,Nat.le_zero.mp (resting.lag ▸ later.lag)⟩

theorem refuses_moving (moving : d.phase.free = false) : d.accepts = false := by
  unfold Drive.accepts
  rw [moving,Bool.and_false]

theorem start_waits (d : Drive) (phase : Phase) : (d.start phase).busy = d.make.delay d.turns ∧ (d.start phase).lag ≤ d.make.pause d.turns := by
  refine ⟨rfl,?_⟩
  unfold Drive.start
  cases phase with
  | idle => exact Nat.zero_le _
  | failed => exact Nat.le_refl _
  | offering content moved => exact Nat.le_refl _
  | taking lba content moved => exact Nat.le_refl _

theorem digit_load (m : Memory) {k width : Nat} (addr : Nat) (inside : k < width) : digit (load m addr width) k = m (addr+k) := by
  induction k generalizing addr width with
  | zero =>
    obtain ⟨rest,rfl⟩ := Nat.exists_eq_add_of_lt inside
    rw [Nat.zero_add,load,digit,Nat.pow_zero,Nat.div_one,BitVec.ofNat_add,BitVec.ofNat_mul]
    simp
  | succ k ih =>
    obtain ⟨rest,rfl⟩ := Nat.exists_eq_add_of_lt (Nat.zero_lt_of_lt inside)
    rw [Nat.zero_add] at inside ⊢
    have later := ih (addr+1) (Nat.lt_of_succ_lt_succ inside)
    rw [load,show addr+(k+1) = addr+1+k by omega,←later,digit,digit,Nat.pow_succ',←Nat.div_div_eq_div_mul]
    have first := (m addr).isLt
    congr 2
    omega

-- All the words of a sector through the port, one after the other.
theorem take_word {content : Memory} {moved : Nat} (ready : d.ready = true) (phase : d.phase = .offering content moved)
    (more : moved+1 ≠ sectorWords) : d.take = (BitVec.ofNat 16 (load content (2*moved) 2),{d with phase:=.offering content (moved+1)}) := by
  unfold Drive.take
  rw [phase]
  dsimp only
  rw [if_pos ready,if_neg more]

theorem take_last {content : Memory} {moved : Nat} (ready : d.ready = true) (phase : d.phase = .offering content moved)
    (full : moved+1 = sectorWords) : d.take = (BitVec.ofNat 16 (load content (2*moved) 2),d.start .idle) := by
  unfold Drive.take
  rw [phase]
  dsimp only
  rw [if_pos ready,if_pos full]

theorem give_word {lba : Nat} {content : Memory} {moved : Nat} (word : BitVec 16) (ready : d.ready = true)
    (phase : d.phase = .taking lba content moved) (more : moved+1 ≠ sectorWords) :
    d.give word = {d with phase:=.taking lba (store content (2*moved) 2 word.toNat) (moved+1)} := by
  unfold Drive.give
  rw [phase]
  dsimp only
  rw [if_pos ready,if_neg more]

theorem give_last {lba : Nat} {content : Memory} {moved : Nat} (word : BitVec 16) (ready : d.ready = true)
    (phase : d.phase = .taking lba content moved) (full : moved+1 = sectorWords) : d.give word =
      d.finish lba (store content (2*moved) 2 word.toNat) := by
  unfold Drive.give
  rw [phase]
  dsimp only
  rw [if_pos ready,if_pos full]

end Arthic.PioDrive
