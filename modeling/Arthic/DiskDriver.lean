import Arthic.FileSystem
import Arthic.Library.PioDrive

namespace Arthic.DiskDriver
open ByteMemory PioDrive FileSystem

def ataError : Nat := 0x1F1
def ataSeccount : Nat := 0x1F2
def ataLbaLow : Nat := 0x1F3
def ataLbaMid : Nat := 0x1F4
def ataLbaHigh : Nat := 0x1F5
def ataDrive : Nat := 0x1F6
def ataCommand : Nat := 0x1F7

def cmdRead : Byte := 0x20#8
def cmdWrite : Byte := 0x30#8
def cmdFlush : Byte := 0xE7#8
def cmdIdentify : Byte := 0xEC#8

-- The ports as the drive decodes them. The driver reads the status port and moves the
-- data; 0x1F1 takes a value the drive has no use for.
def outb (d : Drive) (port : Nat) (value : Byte) : Drive :=
  if port = ataSeccount then d.setFile fun file => {file with count:=value}
  else if port = ataLbaLow then d.setFile fun file => {file with low:=value}
  else if port = ataLbaMid then d.setFile fun file => {file with mid:=value}
  else if port = ataLbaHigh then d.setFile fun file => {file with high:=value}
  else if port = ataDrive then d.setFile fun file => {file with device:=value}
  else if port = ataCommand then d.command value
  else d

def inbStatus (d : Drive) : Byte × Drive := d.status
def inwData (d : Drive) : BitVec 16 × Drive := d.take
def outwData (d : Drive) (word : BitVec 16) : Drive := d.give word

@[irreducible] def polls : Nat := 100000

def ataDelay (d : Drive) : Drive := Nat.iterate (fun d => (inbStatus d).2) 4 d

def pollBusy : Nat → Drive → Bool × Drive
  | 0,d => (false,d)
  | n+1,d =>
    let read := inbStatus d
    if read.1 &&& statusBsy = 0#8 then (true,read.2) else pollBusy n read.2

def waitNotBusy (d : Drive) : Bool × Drive := pollBusy polls d

def pollReady : Nat → Drive → Bool × Drive
  | 0,d => (false,d)
  | n+1,d =>
    let read := inbStatus d
    if read.1 &&& (statusErr ||| statusDf) ≠ 0#8 then (false,read.2)
    else if read.1 &&& statusDrq ≠ 0#8 then (true,read.2) else pollReady n read.2

def waitReady (d : Drive) : Bool × Drive :=
  let free := waitNotBusy d
  if free.1 = true then pollReady polls free.2 else (false,free.2)

def selectSector (d : Drive) (lba : Nat) (count : Byte) : Drive :=
  let d := outb d ataDrive (0xE0#8 ||| BitVec.ofNat 8 (lba >>> 24 &&& 0x0F))
  let d := outb d ataError 0x00#8
  let d := outb d ataSeccount count
  let d := outb d ataLbaLow (BitVec.ofNat 8 (lba &&& 0xFF))
  let d := outb d ataLbaMid (BitVec.ofNat 8 (lba >>> 8 &&& 0xFF))
  outb d ataLbaHigh (BitVec.ofNat 8 (lba >>> 16 &&& 0xFF))

-- The loops over the data port, after their first n rounds.
def readWords (d : Drive) (buffer : Memory) : Nat → Memory × Drive
  | 0 => (buffer,d)
  | n+1 =>
    let before := readWords d buffer n
    let read := inwData before.2
    (store before.1 (2*n) 2 read.1.toNat,read.2)

def writeWords (d : Drive) (buffer : Memory) : Nat → Drive
  | 0 => d
  | n+1 => outwData (writeWords d buffer n) (BitVec.ofNat 16 (load buffer (2*n) 2))

-- The drive, and the static variables of ata.c.
structure Ata where
  drive : Drive
  totalSectors : Nat
  present : Bool

def ataInit (a : Ata) : Bool × Ata :=
  let d := ataDelay (outb a.drive ataDrive 0xA0#8)
  let first := inbStatus d
  if first.1 = 0#8 then (false,{a with drive:=first.2}) else
  let d := ataDelay (outb (selectSector first.2 0 0#8) ataCommand cmdIdentify)
  let second := inbStatus d
  if second.1 = 0#8 then (false,{a with drive:=second.2}) else
  let ready := waitReady second.2
  if ready.1 = true then
    let identify := readWords ready.2 (fun _ => 0#8) (sectorSize/2)
    (true,⟨identify.2,load identify.1 (2*60) 2 ||| load identify.1 (2*61) 2 <<< 16,true⟩)
  else (false,{a with drive:=ready.2})

-- What ata_read_sector and ata_write_sector have in common, up to the data.
def request (d : Drive) (lba : Nat) (command : Byte) : Bool × Drive :=
  let free := waitNotBusy d
  if free.1 = true then waitReady (ataDelay (outb (selectSector free.2 lba 1#8) ataCommand command)) else (false,free.2)

def ataReadSector (a : Ata) (lba : Nat) (buffer : Memory) : Bool × Memory × Ata :=
  if a.present = true then
    let ready := request a.drive lba cmdRead
    if ready.1 = true then
      let read := readWords ready.2 buffer (sectorSize/2)
      (true,read.1,{a with drive:=read.2})
    else (false,buffer,{a with drive:=ready.2})
  else (false,buffer,a)

def ataWriteSector (a : Ata) (lba : Nat) (buffer : Memory) : Bool × Ata :=
  if a.present = true then
    let ready := request a.drive lba cmdWrite
    if ready.1 = true then
      let written := writeWords ready.2 buffer (sectorSize/2)
      (true,{a with drive:=(waitNotBusy (outb written ataCommand cmdFlush)).2})
    else (false,{a with drive:=ready.2})
  else (false,a)

variable {d after : Drive} {a : Ata} {n lba : Nat} {buffer : Memory}

theorem delay_later (d : Drive) : Later d (ataDelay d) :=
  later_trans (status_later d) (later_trans (status_later _) (later_trans (status_later _) (status_later _)))

theorem busy_later (n : Nat) (d : Drive) : Later d (pollBusy n d).2 := by
  induction n generalizing d with
  | zero => exact later_refl d
  | succ n ih =>
    unfold pollBusy
    dsimp only
    split
    · exact status_later d
    · exact later_trans (status_later d) (ih _)

theorem ready_later (n : Nat) (d : Drive) : Later d (pollReady n d).2 := by
  induction n generalizing d with
  | zero => exact later_refl d
  | succ n ih =>
    unfold pollReady
    dsimp only
    split
    · exact status_later d
    · split
      · exact status_later d
      · exact later_trans (status_later d) (ih _)

-- The drive is free in time exactly if it is busy for fewer reads than the loop makes.
theorem busy_polls (attached : d.make.attached = true) (n : Nat) :
    (pollBusy n d).1 = decide (d.busy < n) ∧ (pollBusy n d).2.busy = d.busy-n := by
  induction n generalizing d with
  | zero => exact ⟨by simp [pollBusy],rfl⟩
  | succ n ih =>
    unfold pollBusy
    dsimp only
    by_cases free : d.busy = 0
    · obtain ⟨clear,still⟩ := status_free attached free
      rw [if_pos (show (inbStatus d).1 &&& statusBsy = 0#8 from clear)]
      refine ⟨by simp [free],?_⟩
      change d.status.2.busy = d.busy-(n+1)
      rw [still,free,Nat.zero_sub]
    · obtain ⟨shown,less,_⟩ := status_busy attached free
      rw [if_neg (show (inbStatus d).1 &&& statusBsy ≠ 0#8 from shown)]
      obtain ⟨answer,left⟩ := ih (d:=d.status.2) ((status_later d).make ▸ attached)
      change (pollBusy n d.status.2).1 = _ ∧ (pollBusy n d.status.2).2.busy = _
      rw [answer,left,less]
      refine ⟨?_,by omega⟩
      rw [decide_eq_decide]
      omega

theorem ready_moving (attached : d.make.attached = true) (free : d.busy = 0) (moving : d.phase.free = false)
    (patient : d.lag < n) :
    (pollReady n d).1 = true ∧ (pollReady n d).2.ready = true := by
  induction n generalizing d with
  | zero => exact absurd patient (Nat.not_lt_zero _)
  | succ n ih =>
    unfold pollReady
    dsimp only
    have later := status_later d
    by_cases lag : d.lag = 0
    · obtain ⟨good,asks⟩ := moving_bits (d.make.noise d.reads) moving
      rw [←status_ready attached free lag] at good asks
      rw [if_neg (show ¬((inbStatus d).1 &&& (statusErr ||| statusDf) ≠ 0#8) from not_not.mpr good),
        if_pos (show (inbStatus d).1 &&& statusDrq ≠ 0#8 from asks)]
      refine ⟨rfl,?_⟩
      change d.status.2.ready = true
      have still : d.status.2.busy = 0 := Nat.le_zero.mp (free ▸ later.busy)
      have shown : d.status.2.lag = 0 := Nat.le_zero.mp (lag ▸ later.lag)
      unfold Drive.ready
      rw [later.make,attached,still,shown]
      rfl
    · obtain ⟨good,quiet,still,less⟩ := status_lag attached free lag
      rw [if_neg (show ¬((inbStatus d).1 &&& (statusErr ||| statusDf) ≠ 0#8) from not_not.mpr good),
        if_neg (show ¬((inbStatus d).1 &&& statusDrq ≠ 0#8) from not_not.mpr quiet)]
      exact ih (d:=d.status.2) (later.make ▸ attached) still (later.phase ▸ moving) (by omega)

theorem ready_failed (attached : d.make.attached = true) (free : d.busy = 0) (failed : d.phase = .failed)
    (patient : d.lag < n) :
    (pollReady n d).1 = false ∧ (pollReady n d).2.lag = 0 := by
  induction n generalizing d with
  | zero => exact absurd patient (Nat.not_lt_zero _)
  | succ n ih =>
    unfold pollReady
    dsimp only
    have later := status_later d
    by_cases lag : d.lag = 0
    · have bad := failed_fault (d.make.noise d.reads)
      rw [←failed,←status_ready attached free lag] at bad
      rw [if_pos (show (inbStatus d).1 &&& (statusErr ||| statusDf) ≠ 0#8 from bad)]
      exact ⟨rfl,Nat.le_zero.mp (lag ▸ later.lag)⟩
    · obtain ⟨good,quiet,still,less⟩ := status_lag attached free lag
      rw [if_neg (show ¬((inbStatus d).1 &&& (statusErr ||| statusDf) ≠ 0#8) from not_not.mpr good),
        if_neg (show ¬((inbStatus d).1 &&& statusDrq ≠ 0#8) from not_not.mpr quiet)]
      exact ih (d:=d.status.2) (later.make ▸ attached) still (later.phase ▸ failed) (by omega)

theorem wait_ready (attached : d.make.attached = true) (prompt : d.busy < polls) (moving : d.phase.free = false)
    (patient : d.lag < polls) : (waitReady d).1 = true ∧ (waitReady d).2.ready = true ∧ Later d (waitReady d).2 := by
  obtain ⟨answer,left⟩ := busy_polls attached polls
  have later := busy_later polls d
  unfold waitReady waitNotBusy
  dsimp only
  rw [if_pos (by rw [answer]; exact decide_eq_true prompt)]
  obtain ⟨asked,ready⟩ := ready_moving (n:=polls) (later.make ▸ attached) (by omega) (later.phase ▸ moving)
    (Nat.lt_of_le_of_lt later.lag patient)
  exact ⟨asked,ready,later_trans later (ready_later _ _)⟩

theorem wait_failed (attached : d.make.attached = true) (prompt : d.busy < polls) (failed : d.phase = .failed)
    (patient : d.lag < polls) : (waitReady d).1 = false ∧ (waitReady d).2.lag = 0 ∧ Later d (waitReady d).2 := by
  obtain ⟨answer,left⟩ := busy_polls attached polls
  have later := busy_later polls d
  unfold waitReady waitNotBusy
  dsimp only
  rw [if_pos (by rw [answer]; exact decide_eq_true prompt)]
  obtain ⟨refused,lag⟩ := ready_failed (n:=polls) (later.make ▸ attached) (by omega) (later.phase.trans failed)
    (Nat.lt_of_le_of_lt later.lag patient)
  exact ⟨refused,lag,later_trans later (ready_later _ _)⟩

theorem ready_waits (d : Drive) : Later d (waitReady d).2 := by
  unfold waitReady
  dsimp only
  split
  · exact later_trans (busy_later polls d) (ready_later polls _)
  · exact busy_later polls d

-- The registers select_sector writes name the sector by its low 28 bits.
def fileFor (lba : Nat) (count : Byte) : TaskFile :=
  ⟨count,BitVec.ofNat 8 (lba &&& 0xFF),BitVec.ofNat 8 (lba >>> 8 &&& 0xFF),BitVec.ofNat 8 (lba >>> 16 &&& 0xFF),
    0xE0#8 ||| BitVec.ofNat 8 (lba >>> 24 &&& 0x0F)⟩

theorem setFile_accepts (accepts : d.accepts = true) (change : TaskFile → TaskFile) : d.setFile change =
    {d with file:=change d.file} :=
  if_pos accepts

theorem select_file (accepts : d.accepts = true) (lba : Nat) (count : Byte) :
    selectSector d lba count = {d with file:=fileFor lba count} := by
  have stays : ∀ file,({d with file:=file} : Drive).accepts = true := fun _ => accepts
  unfold selectSector outb
  simp only [ataDrive,ataError,ataSeccount,ataLbaLow,ataLbaMid,ataLbaHigh,ataCommand]
  simp [setFile_accepts,accepts,stays,fileFor]

theorem nibble_device : ∀ n : Fin 16,(0xE0#8 ||| BitVec.ofNat 8 n) &&& 0x0F#8 = BitVec.ofNat 8 n ∧
    (0xE0#8 ||| BitVec.ofNat 8 n) &&& 0x50#8 = 0x40#8 := by
  decide

theorem low_byte (value : Nat) : value &&& 0xFF = value % 2^8 := Nat.and_two_pow_sub_one_eq_mod value 8

theorem file_address (lba : Nat) (count : Byte) : (fileFor lba count).address = lba28 lba ∧
    ((fileFor lba 1#8).plain = true) := by
  have nibble : lba >>> 24 &&& 0x0F = lba/2^24 % 2^4 := by
    rw [Nat.shiftRight_eq_div_pow]
    exact Nat.and_two_pow_sub_one_eq_mod _ 4
  obtain ⟨low,mode⟩ := nibble_device ⟨lba/2^24 % 2^4,Nat.mod_lt _ (by decide)⟩
  dsimp only at low mode
  constructor
  · unfold fileFor TaskFile.address lba28
    dsimp only
    rw [nibble,low,Nat.shiftRight_eq_div_pow,Nat.shiftRight_eq_div_pow,low_byte,low_byte,low_byte]
    simp only [BitVec.toNat_ofNat]
    omega
  · unfold fileFor TaskFile.plain
    dsimp only
    rw [nibble,mode]
    rfl

theorem patch_word (m source : Memory) (n : Nat) :
    store (patch m 0 (2*n) source) (2*n) 2 (BitVec.ofNat 16 (load source (2*n) 2)).toNat = patch m 0 (2*(n+1)) source := by
  have small : load source (2*n) 2 < 2^16 := load_lt source (2*n) 2
  rw [BitVec.toNat_ofNat,Nat.mod_eq_of_lt small]
  funext x
  unfold store
  by_cases new : 2*n ≤ x ∧ x < 2*n+2
  · rw [patch_inside _ _ new.1 new.2,digit_load source (2*n) (by omega),patch_inside _ _ (Nat.zero_le _) (by omega)]
    congr 1
    omega
  · rw [patch_outside _ _ (by omega)]
    unfold patch
    congr 1
    rw [eq_iff_iff]
    omega

theorem with_phase {phase : Phase} (known : d.phase = phase) : {d with phase:=phase} = d := by
  rw [←known]

theorem patch_none (m source : Memory) : patch m 0 (2*0) source = m := by
  funext x
  unfold patch
  exact if_neg (by omega)

theorem read_words (ready : d.ready = true) {content : Memory} (phase : d.phase = .offering content 0)
    (buffer : Memory) (short : n < sectorWords) :
    readWords d buffer n = (patch buffer 0 (2*n) content,{d with phase:=.offering content n}) := by
  induction n with
  | zero =>
    rw [with_phase phase]
    rw [patch_none]
    rfl
  | succ n ih =>
    unfold readWords inwData
    dsimp only
    rw [ih (by omega),take_word (d:={d with phase:=.offering content n}) ready rfl (by omega)]
    dsimp only
    rw [patch_word]

theorem read_sector (ready : d.ready = true) {content : Memory} (phase : d.phase = .offering content 0)
    (buffer : Memory) :
    readWords d buffer (sectorSize/2) = (patch buffer 0 sectorSize content,d.start .idle) := by
  change readWords d buffer (255+1) = _
  unfold readWords inwData
  dsimp only
  rw [read_words ready phase buffer (by decide),take_last (d:={d with phase:=.offering content 255}) ready rfl rfl]
  dsimp only
  rw [patch_word]
  rfl

theorem write_words (ready : d.ready = true) {start : Nat} (phase : d.phase = .taking start (fun _ => 0#8) 0)
    (buffer : Memory)
    (short : n < sectorWords) : writeWords d buffer n = {d with phase:=.taking start (patch (fun _ => 0#8) 0 (2*n) buffer) n} := by
  induction n with
  | zero =>
    rw [patch_none,with_phase phase]
    rfl
  | succ n ih =>
    unfold writeWords outwData
    rw [ih (by omega),give_word (d:={d with phase:=.taking start (patch (fun _ => 0#8) 0 (2*n) buffer) n}) _ ready rfl (by omega),patch_word]

theorem write_sector (ready : d.ready = true) {start : Nat} (phase : d.phase = .taking start (fun _ => 0#8) 0)
    (buffer : Memory) :
    writeWords d buffer (sectorSize/2) = d.finish start (patch (fun _ => 0#8) 0 sectorSize buffer) := by
  change writeWords d buffer (255+1) = _
  unfold writeWords outwData
  rw [write_words ready phase buffer (by decide),
    give_last (d:={d with phase:=.taking start (patch (fun _ => 0#8) 0 (2*255) buffer) 255}) _ ready rfl rfl,patch_word]
  rfl

-- A drive between two operations, and it will not keep the next one waiting too long.
structure Quiet (d : Drive) : Prop where
  resting : Resting d
  prompt : Prompt d.make polls
  busy : d.busy < polls

theorem later_quiet (quiet : Quiet d) (later : Later d after) : Quiet after :=
  ⟨later_resting quiet.resting later,later.make ▸ quiet.prompt,Nat.lt_of_le_of_lt later.busy quiet.busy⟩

theorem start_idle_quiet (attached : d.make.attached = true) (prompt : Prompt d.make polls) : Quiet (d.start .idle) :=
  ⟨⟨attached,rfl,rfl⟩,prompt,(prompt d.turns).1⟩

theorem finish_sectors (d : Drive) (lba : Nat) (content : Memory) : (d.finish lba content).make = d.make ∧
    (d.finish lba content).sectors = if d.make.stores lba = true then Function.update d.sectors lba content else d.sectors := by
  unfold Drive.finish
  split
  · exact ⟨rfl,rfl⟩
  · exact ⟨rfl,rfl⟩

-- Good or bad, the sector is done with.
theorem finish_quiet (attached : d.make.attached = true) (prompt : Prompt d.make polls) (lba : Nat) (content : Memory) :
    Quiet (d.finish lba content) := by
  unfold Drive.finish
  split
  · exact start_idle_quiet (d:=d.keep lba content) attached prompt
  · exact ⟨⟨attached,rfl,rfl⟩,prompt,(prompt d.turns).1⟩

theorem wait_free (quiet : Quiet d) : (waitNotBusy d).1 = true ∧ (waitNotBusy d).2.accepts = true ∧ Later d
    (waitNotBusy d).2 := by
  obtain ⟨answer,left⟩ := busy_polls quiet.resting.attached polls
  have later := busy_later polls d
  have busy := quiet.busy
  refine ⟨answer.trans (decide_eq_true busy),accepts_resting (later_resting quiet.resting later) ?_,later⟩
  change (pollBusy polls d).2.busy = 0
  omega

-- What a command makes the drive start on.
structure Starts (d : Drive) (lba : Nat) (command : Byte) (phase : Phase) : Prop where
  begun : ∀ e : Drive,Later d e → e.accepts = true →
    outb (selectSector e lba 1#8) ataCommand command = {e with file:=fileFor lba 1#8}.start phase

theorem requested {phase : Phase} {command : Byte} (quiet : Quiet d) (starts : Starts d lba command phase) : ∃ e : Drive,
    request d lba command = waitReady e ∧ e.make = d.make ∧ e.sectors = d.sectors ∧ e.phase = phase ∧
    e.busy < polls ∧ e.lag < polls := by
  obtain ⟨answer,accepts,later⟩ := wait_free quiet
  have begun := starts.begun _ later accepts
  have slow := delay_later (outb (selectSector (waitNotBusy d).2 lba 1#8) ataCommand command)
  refine ⟨ataDelay (outb (selectSector (waitNotBusy d).2 lba 1#8) ataCommand command),?_,?_,?_,?_,?_,?_⟩
  · unfold request
    dsimp only
    rw [if_pos answer]
  · rw [slow.make,begun]
    exact later.make
  · rw [slow.sectors,begun]
    exact later.sectors
  · rw [slow.phase,begun]
    rfl
  · refine Nat.lt_of_le_of_lt slow.busy ?_
    rw [begun]
    exact (later.make ▸ quiet.prompt (waitNotBusy d).2.turns).1
  · refine Nat.lt_of_le_of_lt slow.lag ?_
    rw [begun]
    exact Nat.lt_of_le_of_lt (start_waits ..).2 (later.make ▸ quiet.prompt (waitNotBusy d).2.turns).2

theorem requested_moving {phase : Phase} {command : Byte} (quiet : Quiet d) (starts : Starts d lba command phase)
    (moving : phase.free = false) :
    (request d lba command).1 = true ∧ (request d lba command).2.ready = true ∧ (request d lba command).2.phase = phase ∧
    (request d lba command).2.make = d.make ∧ (request d lba command).2.sectors = d.sectors := by
  obtain ⟨e,same,make,sectors,began,busy,lag⟩ := requested quiet starts
  obtain ⟨answer,ready,later⟩ := wait_ready (make ▸ quiet.resting.attached) busy (began ▸ moving) lag
  rw [same]
  exact ⟨answer,ready,later.phase.trans began,later.make.trans make,later.sectors.trans sectors⟩

theorem requested_failed {command : Byte} (quiet : Quiet d) (starts : Starts d lba command .failed) :
    (request d lba command).1 = false ∧ Quiet (request d lba command).2 ∧
    (request d lba command).2.make = d.make ∧ (request d lba command).2.sectors = d.sectors := by
  obtain ⟨e,same,make,sectors,began,busy,lag⟩ := requested quiet starts
  obtain ⟨answer,short,later⟩ := wait_failed (make ▸ quiet.resting.attached) busy began lag
  have still : (waitReady e).2.phase.free = true := by
    rw [later.phase,began]
    rfl
  have kept := later.make.trans make
  rw [same]
  exact ⟨answer,⟨⟨kept ▸ quiet.resting.attached,still,short⟩,kept ▸ quiet.prompt,Nat.lt_of_le_of_lt later.busy busy⟩,
    kept,later.sectors.trans sectors⟩

-- Setting the registers leaves a drive as ready for a command as it was.
theorem file_accepts {e : Drive} (accepts : e.accepts = true) (file : TaskFile) : ¬ Drive.accepts {e with file:=file} = false := by
  rw [show Drive.accepts {e with file:=file} = true from accepts]
  exact nofun

theorem starts_read (d : Drive) (lba : Nat) : Starts d lba cmdRead
    (if d.make.readable (lba28 lba) then .offering (d.sectors (lba28 lba)) 0 else .failed) := by
  refine ⟨fun e later accepts => ?_⟩
  obtain ⟨address,plain⟩ := file_address lba 1#8
  rw [select_file accepts]
  change Drive.command {e with file:=fileFor lba 1#8} cmdRead = _
  unfold Drive.command
  rw [if_neg (file_accepts accepts _),if_pos (show cmdRead = 0x20#8 from rfl)]
  dsimp only
  rw [plain,address,later.make,later.sectors,Bool.true_and]

theorem starts_write (d : Drive) (lba : Nat) : Starts d lba cmdWrite
    (if d.make.writable (lba28 lba) then .taking (lba28 lba) (fun _ => 0#8) 0 else .failed) := by
  refine ⟨fun e later accepts => ?_⟩
  obtain ⟨address,plain⟩ := file_address lba 1#8
  rw [select_file accepts]
  change Drive.command {e with file:=fileFor lba 1#8} cmdWrite = _
  unfold Drive.command
  rw [if_neg (file_accepts accepts _),if_neg (by decide),if_pos (show cmdWrite = 0x30#8 from rfl)]
  dsimp only
  rw [plain,address,later.make,Bool.true_and]

-- The drive takes the command that makes it write its data out, or is still busy and
-- does not; either way it goes on being waited for.
theorem flush_quiet (quiet : Quiet d) : Quiet (waitNotBusy (outb d ataCommand cmdFlush)).2 ∧
    (waitNotBusy (outb d ataCommand cmdFlush)).2.make = d.make ∧
    (waitNotBusy (outb d ataCommand cmdFlush)).2.sectors = d.sectors := by
  have flushed : outb d ataCommand cmdFlush = if d.accepts = false then d else d.start .idle := rfl
  have later := busy_later polls (outb d ataCommand cmdFlush)
  rw [flushed] at later ⊢
  split at later
  · rename_i refused
    rw [if_pos refused]
    exact ⟨later_quiet quiet later,later.make,later.sectors⟩
  · rename_i taken
    rw [if_neg taken]
    exact ⟨later_quiet (start_idle_quiet quiet.resting.attached quiet.prompt) later,later.make,later.sectors⟩

-- The drive and the driver's variables stand for the disk fs.c is given.
structure Shows (a : Ata) (disk : Disk) : Prop where
  present : a.present = disk.present
  totalSectors : a.totalSectors = disk.totalSectors
  readable : a.drive.make.readable = disk.readable
  writable : a.drive.make.writable = disk.writable
  stores : ∀ lba,a.drive.make.writable lba = true → a.drive.make.stores lba = true
  sectors : ∀ lba,∀ k < sectorSize,a.drive.sectors lba k = disk.sectors lba k

theorem shows_still {disk : Disk} (shows : Shows a disk) (make : after.make = a.drive.make)
    (sectors : after.sectors = a.drive.sectors) :
    Shows {a with drive:=after} disk where
  present := shows.present
  totalSectors := shows.totalSectors
  readable := (congrArg Make.readable make).trans shows.readable
  writable := (congrArg Make.writable make).trans shows.writable
  stores := make ▸ shows.stores
  sectors := fun lba k inside => (congrFun (congrFun sectors lba) k).trans (shows.sectors lba k inside)

theorem read_refines {disk : Disk} (shows : Shows a disk) (quiet : a.present = true → Quiet a.drive) (lba : Nat)
    (buffer : Memory) :
    (ataReadSector a lba buffer).1 = (FileSystem.ataReadSector disk lba).isSome ∧
    (∀ content ∈ FileSystem.ataReadSector disk lba,∀ k < sectorSize,(ataReadSector a lba buffer).2.1 k = content k) ∧
    Shows (ataReadSector a lba buffer).2.2 disk ∧
    ((ataReadSector a lba buffer).2.2.present = true → Quiet (ataReadSector a lba buffer).2.2.drive) := by
  have starts := starts_read a.drive lba
  unfold ataReadSector
  by_cases present : a.present = true
  · replace quiet := quiet present
    rw [if_pos present]
    by_cases readable : a.drive.make.readable (lba28 lba) = true
    · rw [if_pos readable] at starts
      obtain ⟨answer,ready,phase,make,sectors⟩ := requested_moving quiet starts rfl
      have given : FileSystem.ataReadSector disk lba = some (disk.sectors (lba28 lba)) :=
        if_pos ⟨shows.present ▸ present,shows.readable ▸ readable⟩
      dsimp only
      rw [given,if_pos answer,read_sector ready phase]
      refine ⟨rfl,fun content member k inside => ?_,shows_still shows make sectors,?_⟩
      · obtain rfl := Option.some.inj member
        exact (patch_inside buffer _ (Nat.zero_le k) (by omega)).trans (shows.sectors _ k inside)
      · exact fun _ => start_idle_quiet (make ▸ quiet.resting.attached) (make ▸ quiet.prompt)
    · rw [if_neg readable] at starts
      obtain ⟨answer,rests,make,sectors⟩ := requested_failed quiet starts
      have given : FileSystem.ataReadSector disk lba = none := if_neg fun both => readable (shows.readable ▸ both.2)
      dsimp only
      rw [given,if_neg (by rw [answer]; exact nofun)]
      exact ⟨rfl,nofun,shows_still shows make sectors,fun _ => rests⟩
  · have given : FileSystem.ataReadSector disk lba = none := if_neg fun both => present (shows.present.trans both.1)
    rw [if_neg present,given]
    exact ⟨rfl,nofun,shows,quiet⟩

-- A drive that takes a sector's data is told nothing more and asked nothing more, whether it
-- stores them or not.
theorem write_taken (present : a.present = true) (quiet : Quiet a.drive) (writable : a.drive.make.writable (lba28 lba) = true)
    (buffer : Memory) :
    ∃ d : Drive,ataWriteSector a lba buffer = (true,{a with drive:=d}) ∧ Quiet d ∧ d.make = a.drive.make ∧ d.sectors =
      if a.drive.make.stores (lba28 lba) = true then
        Function.update a.drive.sectors (lba28 lba) (patch (fun _ => 0#8) 0 sectorSize buffer)
      else a.drive.sectors := by
  have starts := starts_write a.drive lba
  rw [if_pos writable] at starts
  obtain ⟨answer,ready,phase,make,sectors⟩ := requested_moving quiet starts rfl
  have done := finish_quiet (d:=(request a.drive lba cmdWrite).2) (make ▸ quiet.resting.attached) (make ▸ quiet.prompt)
    (lba28 lba) (patch (fun _ => 0#8) 0 sectorSize buffer)
  obtain ⟨held,content⟩ := finish_sectors (request a.drive lba cmdWrite).2 (lba28 lba) (patch (fun _ => 0#8) 0 sectorSize buffer)
  obtain ⟨rests,kept,stored⟩ := flush_quiet done
  rw [make,sectors] at content
  refine ⟨_,?_,rests,kept.trans (held.trans make),stored.trans content⟩
  unfold ataWriteSector
  dsimp only
  rw [if_pos present,if_pos answer,write_sector ready phase]

theorem write_refines {disk : Disk} (shows : Shows a disk) (quiet : a.present = true → Quiet a.drive) (lba : Nat)
    (buffer : Memory) :
    (ataWriteSector a lba buffer).1 = (FileSystem.ataWriteSector disk lba buffer).1 ∧
    Shows (ataWriteSector a lba buffer).2 (FileSystem.ataWriteSector disk lba buffer).2 ∧
    ((ataWriteSector a lba buffer).2.present = true → Quiet (ataWriteSector a lba buffer).2.drive) := by
  by_cases present : a.present = true
  · replace quiet := quiet present
    by_cases writable : a.drive.make.writable (lba28 lba) = true
    · obtain ⟨d,written,rests,make,sectors⟩ := write_taken present quiet writable buffer
      have given : FileSystem.ataWriteSector disk lba buffer = (true,{disk with
          sectors:=Function.update disk.sectors (lba28 lba) buffer,log:=disk.log++[(lba28 lba,buffer)]}) :=
        if_pos ⟨shows.present ▸ present,shows.writable ▸ writable⟩
      rw [given,written]
      refine ⟨rfl,⟨shows.present,shows.totalSectors,(congrArg Make.readable make).trans shows.readable,
        (congrArg Make.writable make).trans shows.writable,make ▸ shows.stores,fun other k inside => ?_⟩,fun _ => rests⟩
      rw [if_pos (shows.stores _ writable)] at sectors
      refine (congrFun (congrFun sectors other) k).trans ?_
      dsimp only
      rw [Function.update_apply,Function.update_apply]
      split
      · exact patch_inside _ buffer (Nat.zero_le k) (by omega)
      · exact shows.sectors other k inside
    · have starts := starts_write a.drive lba
      rw [if_neg writable] at starts
      obtain ⟨answer,rests,make,sectors⟩ := requested_failed quiet starts
      have given : FileSystem.ataWriteSector disk lba buffer = (false,disk) :=
        if_neg fun both => writable (shows.writable ▸ both.2)
      unfold ataWriteSector
      dsimp only
      rw [given,if_pos present,if_neg (by rw [answer]; exact nofun)]
      exact ⟨rfl,shows_still shows make sectors,fun _ => rests⟩
  · have given : FileSystem.ataWriteSector disk lba buffer = (false,disk) :=
      if_neg fun both => present (shows.present.trans both.1)
    unfold ataWriteSector
    rw [if_neg present,given]
    exact ⟨rfl,shows,quiet⟩

theorem delay_busy (attached : d.make.attached = true) : (ataDelay d).busy = d.busy-4 := by
  have one := status_later d
  have two := status_later d.status.2
  have three := status_later d.status.2.status.2
  change d.status.2.status.2.status.2.status.2.busy = d.busy-4
  rw [status_less (by rw [three.make,two.make,one.make,attached]),status_less (by rw [two.make,one.make,attached]),
    status_less (by rw [one.make,attached]),status_less attached]
  omega

-- With nothing to move the drive never asks for data.
theorem ready_free (attached : d.make.attached = true) (busy : d.busy = 0) (free : d.phase.free = true) (n : Nat) :
    (pollReady n d).1 = false := by
  induction n generalizing d with
  | zero => rfl
  | succ n ih =>
    unfold pollReady
    dsimp only
    have later := status_later d
    have again := ih (d:=d.status.2) (later.make ▸ attached) (status_free attached busy).2 (later.phase ▸ free)
    by_cases lag : d.lag = 0
    · have shown := status_ready attached busy lag
      cases phase : d.phase with
      | idle =>
        rw [phase] at shown
        rw [if_neg (show ¬((inbStatus d).1 &&& _ ≠ 0#8) from not_not.mpr ((congrArg (· &&& _) shown).trans clean_fault)),
          if_neg (show ¬((inbStatus d).1 &&& _ ≠ 0#8) from not_not.mpr ((congrArg (· &&& _) shown).trans clean_drq))]
        exact again
      | failed =>
        rw [phase] at shown
        have bad := failed_fault (d.make.noise d.reads)
        rw [←shown] at bad
        rw [if_pos (show (inbStatus d).1 &&& (statusErr ||| statusDf) ≠ 0#8 from bad)]
      | offering content moved =>
        rw [phase] at free
        cases free
      | taking lba content moved =>
        rw [phase] at free
        cases free
    · obtain ⟨good,quiet,_⟩ := status_lag attached busy lag
      rw [if_neg (show ¬((inbStatus d).1 &&& _ ≠ 0#8) from not_not.mpr good),
        if_neg (show ¬((inbStatus d).1 &&& _ ≠ 0#8) from not_not.mpr quiet)]
      exact again

theorem wait_refused (resting : Resting d) : (waitReady d).1 = false := by
  obtain ⟨answer,left⟩ := busy_polls resting.attached polls
  have later := busy_later polls d
  unfold waitReady waitNotBusy
  dsimp only
  split
  · rename_i free
    have prompt := of_decide_eq_true (answer.symm.trans free)
    exact ready_free (later.make ▸ resting.attached) (by omega) (later.phase ▸ resting.free) polls
  · rfl

theorem absent_waits (absent : d.make.attached = false) (floats : d.make.floating &&& statusBsy ≠ 0#8) (n : Nat) :
    pollBusy n d = (false,d) := by
  induction n with
  | zero => rfl
  | succ n ih =>
    unfold pollBusy inbStatus
    rw [status_absent absent]
    dsimp only
    rw [if_neg floats,ih]

theorem load_halves (m : Memory) (addr : Nat) : load m addr 2 ||| load m (addr+2) 2 <<< 16 = load m addr 4 := by
  have small : load m addr 2 < 2^16 := load_lt m addr 2
  rw [Nat.or_comm,←Nat.shiftLeft_add_eq_or_of_lt small,Nat.shiftLeft_eq,
    show load m (addr+2) 2 = load m (addr+1+1) 2 from rfl]
  simp only [load]
  omega

theorem setFile_kept (d : Drive) (change : TaskFile → TaskFile) : (d.setFile change).make = d.make ∧
    (d.setFile change).phase = d.phase ∧
    (d.setFile change).busy = d.busy ∧ (d.setFile change).lag = d.lag ∧ (d.setFile change).sectors = d.sectors := by
  unfold Drive.setFile
  split
  · exact ⟨rfl,rfl,rfl,rfl,rfl⟩
  · exact ⟨rfl,rfl,rfl,rfl,rfl⟩

-- The first half of ata_init leaves a resting drive five status reads later.
theorem init_probes (resting : Resting d) : ∃ e : Drive,(inbStatus (ataDelay (outb d ataDrive 0xA0#8))).2 = e ∧
    Resting e ∧ e.make = d.make ∧ e.sectors = d.sectors ∧ e.busy = d.busy-5 ∧
    (inbStatus (ataDelay (outb d ataDrive 0xA0#8))).1 ≠ 0#8 := by
  obtain ⟨make,phase,busy,lag,sectors⟩ := setFile_kept d fun file => {file with device:=0xA0#8}
  have chosen : outb d ataDrive 0xA0#8 = d.setFile fun file => {file with device:=0xA0#8} := rfl
  rw [←chosen] at make phase busy lag sectors
  have rests : Resting (outb d ataDrive 0xA0#8) :=
    ⟨make ▸ resting.attached,phase ▸ resting.free,lag.trans resting.lag⟩
  have slow := delay_later (outb d ataDrive 0xA0#8)
  have later := later_trans slow (status_later _)
  have there : (ataDelay (outb d ataDrive 0xA0#8)).make.attached = true := slow.make ▸ rests.attached
  refine ⟨_,rfl,later_resting rests later,later.make.trans make,later.sectors.trans sectors,?_,status_nonzero there⟩
  change (ataDelay (outb d ataDrive 0xA0#8)).status.2.busy = d.busy-5
  rw [status_less there,delay_busy rests.attached,busy]
  omega

def identified (d : Drive) : Nat := load d.make.identity (2*60) 4

theorem identified_words (content : Memory) :
    load (patch (fun _ => 0#8) 0 sectorSize content) (2*60) 2 ||| load (patch (fun _ => 0#8) 0 sectorSize content) (2*61) 2 <<< 16 =
      load content (2*60) 4 := by
  rw [show 2*61 = 2*60+2 from rfl,load_halves]
  refine load_congr fun k inside => ?_
  rw [patch_inside _ _ (Nat.zero_le _) (by unfold sectorSize; omega),Nat.sub_zero]

-- ata_init once the drive has answered, down to its identity.
theorem init_identifies {e : Drive} (prompt : Prompt e.make polls) (accepts : e.accepts = true)
    (attached : e.make.attached = true) :
    ∃ f : Drive,ataDelay (outb (selectSector e 0 0#8) ataCommand cmdIdentify) = f ∧ (inbStatus f).1 ≠ 0#8 ∧
    (waitReady (inbStatus f).2).1 = true ∧ (waitReady (inbStatus f).2).2.ready = true ∧
    (waitReady (inbStatus f).2).2.phase = .offering e.make.identity 0 ∧ (waitReady (inbStatus f).2).2.make = e.make ∧
    (waitReady (inbStatus f).2).2.sectors = e.sectors := by
  have begun : outb (selectSector e 0 0#8) ataCommand cmdIdentify = {e with file:=fileFor 0 0#8}.start (.offering e.make.identity 0) := by
    rw [select_file accepts]
    change Drive.command {e with file:=fileFor 0 0#8} cmdIdentify = _
    unfold Drive.command
    rw [if_neg (file_accepts accepts _),if_neg (by decide),if_neg (by decide),if_neg (by decide),
      if_pos (show cmdIdentify = 0xEC#8 from rfl)]
  generalize started : outb (selectSector e 0 0#8) ataCommand cmdIdentify = g
  rw [started] at begun
  have slow := delay_later g
  have later := later_trans slow (status_later _)
  obtain ⟨busy,lag⟩ := start_waits {e with file:=fileFor 0 0#8} (.offering e.make.identity 0)
  rw [←begun] at busy lag
  have make : g.make = e.make := by rw [begun]; rfl
  have phase : g.phase = .offering e.make.identity 0 := by rw [begun]; rfl
  have sectors : g.sectors = e.sectors := by rw [begun]; rfl
  have there : (ataDelay g).make.attached = true := by rw [slow.make,make,attached]
  obtain ⟨answer,ready,last⟩ := wait_ready (d:=(ataDelay g).status.2) (by rw [later.make,make,attached])
    (Nat.lt_of_le_of_lt later.busy (busy ▸ (prompt e.turns).1)) (by rw [later.phase,phase]; rfl)
    (Nat.lt_of_le_of_lt later.lag (Nat.lt_of_le_of_lt lag (prompt e.turns).2))
  exact ⟨ataDelay g,rfl,status_nonzero there,answer,ready,last.phase.trans (later.phase.trans phase),
    last.make.trans (later.make.trans make),last.sectors.trans (later.sectors.trans sectors)⟩

theorem init_found (resting : Resting a.drive) (prompt : Prompt a.drive.make polls) (free : a.drive.busy ≤ 5) : ∃ d : Drive,
    ataInit a = (true,⟨d,identified a.drive,true⟩) ∧ Quiet d ∧ d.make = a.drive.make ∧ d.sectors = a.drive.sectors := by
  obtain ⟨e,probed,rests,make,sectors,busy,answered⟩ := init_probes resting
  obtain ⟨f,reached,asked,answer,ready,phase,kept,still⟩ :=
    init_identifies (make ▸ prompt) (accepts_resting rests (by omega)) rests.attached
  refine ⟨(waitReady (inbStatus f).2).2.start .idle,?_,start_idle_quiet (kept ▸ rests.attached) (kept ▸ make ▸ prompt),
    kept.trans make,still.trans sectors⟩
  unfold ataInit identified
  dsimp only
  rw [if_neg answered,probed,reached,if_neg asked,if_pos answer,read_sector ready phase]
  dsimp only
  rw [identified_words,make]

theorem outb_refused (refused : d.accepts = false) (port : Nat) (value : Byte) : outb d port value = d := by
  have unset : ∀ change,d.setFile change = d := fun _ => if_neg (by rw [refused]; exact nofun)
  have ignored : d.command value = d := if_pos refused
  unfold outb
  simp only [unset,ignored,ite_self]

theorem select_refused (refused : d.accepts = false) (lba : Nat) (count command : Byte) :
    outb (selectSector d lba count) ataCommand command = d := by
  unfold selectSector
  simp only [outb_refused refused]

-- A drive that is still busy then takes neither a register nor the command, and is waited
-- for in vain.
theorem init_missed (resting : Resting a.drive) (slow : 5 < a.drive.busy) : ∃ d : Drive,
    ataInit a = (false,{a with drive:=d}) ∧ d.make = a.drive.make ∧ d.sectors = a.drive.sectors := by
  obtain ⟨e,probed,rests,make,sectors,busy,answered⟩ := init_probes resting
  have refused : e.accepts = false := by
    unfold Drive.accepts
    rw [show (e.busy == 0) = false from beq_eq_false_iff_ne.mpr (by omega),Bool.and_false,Bool.false_and,Bool.false_and]
  have later := later_trans (delay_later e) (status_later _)
  have asked : (inbStatus (ataDelay e)).1 ≠ 0#8 := status_nonzero ((delay_later e).make ▸ rests.attached)
  have waits : (waitReady (inbStatus (ataDelay e)).2).1 = false := wait_refused (later_resting rests later)
  have whole := later_trans later (ready_waits _)
  refine ⟨(waitReady (inbStatus (ataDelay e)).2).2,?_,whole.make.trans make,whole.sectors.trans sectors⟩
  unfold ataInit
  dsimp only
  rw [if_neg answered,probed,select_refused refused,if_neg asked,if_neg (by rw [waits]; exact nofun)]

-- Whether ata_init finds a drive: it has the first five status reads to become free.
def awake (d : Drive) : Bool := decide (d.busy ≤ 5)

theorem init_exact (resting : Resting a.drive) (prompt : Prompt a.drive.make polls) : ∃ d : Drive,
    ataInit a = (awake a.drive,if awake a.drive = true then ⟨d,identified a.drive,true⟩ else {a with drive:=d}) ∧
    (awake a.drive = true → Quiet d) ∧ d.make = a.drive.make ∧ d.sectors = a.drive.sectors := by
  unfold awake
  by_cases free : a.drive.busy ≤ 5
  · obtain ⟨d,found,rests,make,sectors⟩ := init_found resting prompt free
    rw [decide_eq_true free]
    exact ⟨d,found,fun _ => rests,make,sectors⟩
  · obtain ⟨d,missed,make,sectors⟩ := init_missed resting (Nat.lt_of_not_le free)
    rw [decide_eq_false free]
    exact ⟨d,missed,nofun,make,sectors⟩

-- Ports with nothing behind them read as 0, or as a drive that never stops being busy.
theorem init_absent (absent : a.drive.make.attached = false)
    (floats : a.drive.make.floating = 0#8 ∨ a.drive.make.floating &&& statusBsy ≠ 0#8) :
    ataInit a = (false,a) := by
  have refused : a.drive.accepts = false := by
    unfold Drive.accepts
    rw [absent]
    rfl
  have read := status_absent absent
  have waits : ataDelay a.drive = a.drive := by
    have fixed : (inbStatus a.drive).2 = a.drive := by
      unfold inbStatus
      rw [read]
    exact Function.iterate_fixed fixed 4
  unfold ataInit
  dsimp only
  rw [outb_refused refused,waits,inbStatus,read]
  dsimp only
  split
  · rfl
  · rename_i present
    have never : waitReady a.drive = (false,a.drive) := by
      unfold waitReady waitNotBusy
      dsimp only
      rw [absent_waits absent (floats.resolve_left present) polls]
      rfl
    rw [select_refused refused,waits,inbStatus,read]
    dsimp only
    rw [if_neg present,never]
    rfl

inductive Request where
  | read (lba : Nat) (into : Memory)
  | write (lba : Nat) (content : Memory)

inductive Answer where
  | content (bytes : List Byte)
  | written
  | refused
  deriving DecidableEq

def sectorOf (m : Memory) : List Byte := (List.range sectorSize).map m

def serve (a : Ata) : Request → Answer × Ata
  | .read lba into =>
    let read := ataReadSector a lba into
    (if read.1 = true then .content (sectorOf read.2.1) else .refused,read.2.2)
  | .write lba content =>
    let written := ataWriteSector a lba content
    (if written.1 = true then .written else .refused,written.2)

def serveAll (a : Ata) : List Request → List Answer × Ata
  | [] => ([],a)
  | request::requests => ((serve a request).1::(serveAll (serve a request).2 requests).1,
    (serveAll (serve a request).2 requests).2)

def answer (disk : Disk) : Request → Answer × Disk
  | .read lba _ => ((FileSystem.ataReadSector disk lba).elim .refused fun content => .content (sectorOf content),disk)
  | .write lba content =>
    let written := FileSystem.ataWriteSector disk lba content
    (if written.1 = true then .written else .refused,written.2)

def answerAll (disk : Disk) : List Request → List Answer × Disk
  | [] => ([],disk)
  | request::requests => ((answer disk request).1::(answerAll (answer disk request).2 requests).1,
    (answerAll (answer disk request).2 requests).2)

theorem serve_answers {disk : Disk} (shows : Shows a disk) (quiet : a.present = true → Quiet a.drive)
    (request : Request) :
    (serve a request).1 = (answer disk request).1 ∧ Shows (serve a request).2 (answer disk request).2 ∧
    ((serve a request).2.present = true → Quiet (serve a request).2.drive) := by
  cases request with
  | read lba into =>
    obtain ⟨answered,copied,still,rests⟩ := read_refines shows quiet lba into
    refine ⟨?_,still,rests⟩
    unfold serve answer
    dsimp only
    cases given : FileSystem.ataReadSector disk lba with
    | none =>
      rw [given] at answered
      rw [answered]
      rfl
    | some content =>
      rw [given] at answered
      rw [answered]
      refine congrArg Answer.content (List.map_congr_left fun k member => ?_)
      exact copied content given k (List.mem_range.mp member)
  | write lba content =>
    obtain ⟨answered,still,rests⟩ := write_refines shows quiet lba content
    refine ⟨?_,still,rests⟩
    unfold serve answer
    dsimp only
    rw [answered]

theorem serveAll_answers (requests : List Request) : ∀ {a : Ata} {disk : Disk},Shows a disk →
    (a.present = true → Quiet a.drive) →
    (serveAll a requests).1 = (answerAll disk requests).1 ∧
    Shows (serveAll a requests).2 (answerAll disk requests).2 := by
  induction requests with
  | nil => exact fun shows _ => ⟨rfl,shows⟩
  | cons request requests ih =>
    intro a disk shows quiet
    obtain ⟨same,still,rests⟩ := serve_answers shows quiet request
    obtain ⟨later,last⟩ := ih still rests
    exact ⟨congrArg₂ List.cons same later,last⟩

-- What the driver needs of a drive. There is no drive on a bus that reads as 0 or as one that
-- never stops being busy. One that is there answers within the driver's polling, and stores
-- every sector that it takes the data of, since the driver does not look again.
structure Bootable (d : Drive) : Prop where
  there : d.make.attached = true → Resting d ∧ Prompt d.make polls
  absent : d.make.attached = false → d.make.floating = 0#8 ∨ d.make.floating &&& statusBsy ≠ 0#8
  stores : ∀ lba,d.make.writable lba = true → d.make.stores lba = true

def found (d : Drive) : Bool := d.make.attached && awake d

def diskOf (d : Drive) : Disk where
  present := found d
  totalSectors := if found d then identified d else 0
  readable := d.make.readable
  writable := d.make.writable
  sectors := d.sectors
  log := []

theorem boot_shows (bootable : Bootable d) : (ataInit ⟨d,0,false⟩).1 = found d ∧
    Shows (ataInit ⟨d,0,false⟩).2 (diskOf d) ∧
    ((ataInit ⟨d,0,false⟩).2.present = true → Quiet (ataInit ⟨d,0,false⟩).2.drive) := by
  unfold diskOf found
  cases attached : d.make.attached with
  | true =>
    obtain ⟨resting,prompt⟩ := bootable.there attached
    obtain ⟨e,found,rests,make,sectors⟩ := init_exact (a:=⟨d,0,false⟩) resting prompt
    rw [found,Bool.true_and]
    dsimp only at rests ⊢
    cases free : awake d with
    | true => exact ⟨rfl,⟨rfl,rfl,congrArg Make.readable make,congrArg Make.writable make,make ▸ bootable.stores,
        fun lba k _ => congrFun (congrFun sectors lba) k⟩,fun _ => rests free⟩
    | false => exact ⟨rfl,⟨rfl,rfl,congrArg Make.readable make,congrArg Make.writable make,make ▸ bootable.stores,
        fun lba k _ => congrFun (congrFun sectors lba) k⟩,nofun⟩
  | false =>
    rw [init_absent (a:=⟨d,0,false⟩) attached (bootable.absent attached)]
    exact ⟨rfl,⟨rfl,rfl,rfl,rfl,bootable.stores,fun _ _ _ => rfl⟩,nofun⟩

theorem requests_served (bootable : Bootable d) (requests : List Request) :
    (ataInit ⟨d,0,false⟩).1 = found d ∧
    (serveAll (ataInit ⟨d,0,false⟩).2 requests).1 = (answerAll (diskOf d) requests).1 ∧
    Shows (serveAll (ataInit ⟨d,0,false⟩).2 requests).2 (answerAll (diskOf d) requests).2 := by
  obtain ⟨answer,shows,quiet⟩ := boot_shows bootable
  exact ⟨answer,serveAll_answers requests shows quiet⟩

-- A drive that takes its commands at once, with the sectors below 1000 good.
def spinning : Drive where
  make := ⟨true,0#8,fun k => if k = 121 then 1#8 else 0#8,fun turn => turn % 3,fun _ => 1,fun _ => 0x16#8,
    fun lba => decide (lba < 1000),fun lba => decide (lba < 1000),fun _ => true⟩
  file := ⟨0#8,0#8,0#8,0#8,0#8⟩
  phase := .idle
  busy := 2
  lag := 0
  turns := 0
  reads := 0
  sectors := fun lba _ => BitVec.ofNat 8 lba

theorem spinning_bootable : Bootable spinning where
  there := fun _ => ⟨⟨rfl,rfl,rfl⟩,fun turn => ⟨by unfold polls; exact Nat.lt_trans (Nat.mod_lt turn (by decide)) (by decide),
    by unfold polls; exact (by decide : 1 < 100000)⟩⟩
  absent := nofun
  stores := fun _ _ => rfl

theorem requests_served_spinning :
    (serveAll (ataInit ⟨spinning,0,false⟩).2 [.read 7 fun _ => 0#8,.write (2^28+7) fun _ => 9#8,.read 7 fun _ => 0#8,
    .read 1000 fun _ => 0#8]).1 =
      [.content (List.replicate 512 7#8),.written,.content (List.replicate 512 9#8),.refused] :=
  (requests_served spinning_bootable _).2.1.trans (by decide +kernel)

-- A command the drive is still at when the driver has stopped waiting for it.
structure Pending (d : Drive) (phase : Phase) : Prop where
  attached : d.make.attached = true
  phase : d.phase = phase
  busy : d.busy < polls
  lag : d.lag < polls

theorem request_late {phase : Phase} {command : Byte} (resting : Resting d) (free : d.busy < polls)
    (starts : Starts d lba command phase)
    (late : polls+4 ≤ d.make.delay d.turns) (soon : d.make.delay d.turns < 2*polls+4) (pause : d.make.pause d.turns < polls) :
    (request d lba command).1 = false ∧ Pending (request d lba command).2 phase ∧
      (request d lba command).2.make = d.make ∧ (request d lba command).2.sectors = d.sectors := by
  obtain ⟨answer,left⟩ := busy_polls resting.attached polls
  have later := busy_later polls d
  have went := answer.trans (decide_eq_true free)
  change (waitNotBusy d).1 = true at went
  have begun := starts.begun _ later (accepts_resting (later_resting resting later) (by omega))
  obtain ⟨busy,lag⟩ := start_waits {(pollBusy polls d).2 with file:=fileFor lba 1#8} phase
  rw [←begun] at busy lag
  unfold request
  dsimp only
  rw [if_pos went]
  unfold waitNotBusy
  have make : (outb (selectSector (pollBusy polls d).2 lba 1#8) ataCommand command).make = d.make := by
    rw [begun]
    exact later.make
  have began : (outb (selectSector (pollBusy polls d).2 lba 1#8) ataCommand command).phase = phase := by rw [begun]; rfl
  have sectors : (outb (selectSector (pollBusy polls d).2 lba 1#8) ataCommand command).sectors = d.sectors := by
    rw [begun]
    exact later.sectors
  dsimp only at busy lag
  rw [later.make,later.turns] at busy lag
  generalize outb (selectSector (pollBusy polls d).2 lba 1#8) ataCommand command = e at *
  have slow := delay_later e
  have spent := delay_busy (d:=e) (make ▸ resting.attached)
  obtain ⟨waited,rest⟩ := busy_polls (d:=ataDelay e) (slow.make ▸ make ▸ resting.attached) polls
  have whole := later_trans slow (busy_later polls (ataDelay e))
  have gone : (waitNotBusy (ataDelay e)).1 = false := waited.trans (decide_eq_false (by omega))
  unfold waitReady
  dsimp only
  rw [if_neg (by rw [gone]; exact nofun)]
  exact ⟨rfl,⟨whole.make ▸ make ▸ resting.attached,whole.phase.trans began,
    by change (pollBusy polls _).2.busy < polls; omega,
    Nat.lt_of_le_of_lt whole.lag (Nat.lt_of_le_of_lt lag pause)⟩,whole.make.trans make,whole.sectors.trans sectors⟩

-- Whatever sector the next request is for, the drive goes on with its own.
theorem request_pending {phase : Phase} (pending : Pending d phase) (moving : phase.free = false) (other : Nat)
    (command : Byte) :
    (request d other command).1 = true ∧ (request d other command).2.ready = true ∧
    (request d other command).2.phase = phase ∧
    (request d other command).2.make = d.make ∧ (request d other command).2.sectors = d.sectors := by
  obtain ⟨answer,left⟩ := busy_polls pending.attached polls
  have later := busy_later polls d
  have went := answer.trans (decide_eq_true pending.busy)
  change (waitNotBusy d).1 = true at went
  have refused := refuses_moving (d:=(waitNotBusy d).2) (by rw [show (waitNotBusy d).2.phase = d.phase from later.phase,pending.phase,moving])
  unfold request
  dsimp only
  rw [if_pos went,select_refused refused]
  have whole := later_trans later (delay_later (waitNotBusy d).2)
  obtain ⟨asked,ready,last⟩ := wait_ready (whole.make ▸ pending.attached) (Nat.lt_of_le_of_lt whole.busy pending.busy)
    (by rw [whole.phase,pending.phase,moving]) (Nat.lt_of_le_of_lt whole.lag pending.lag)
  exact ⟨asked,ready,last.phase.trans (whole.phase.trans pending.phase),last.make.trans whole.make,
    last.sectors.trans whole.sectors⟩

theorem write_unwanted {content : Memory} (phase : d.phase = .offering content 0) (buffer : Memory) (n : Nat) :
    writeWords d buffer n = d := by
  induction n with
  | zero => rfl
  | succ n ih =>
    unfold writeWords outwData
    rw [ih]
    unfold Drive.give
    rw [phase]

theorem flush_sectors (d : Drive) : (waitNotBusy (outb d ataCommand cmdFlush)).2.sectors = d.sectors := by
  have flushed : outb d ataCommand cmdFlush = if d.accepts = false then d else d.start .idle := rfl
  refine (busy_later polls _).sectors.trans ?_
  rw [flushed]
  split
  · rfl
  · rfl

theorem late_sector (present : a.present = true) (resting : Resting a.drive) (free : a.drive.busy < polls)
    (late : polls+4 ≤ a.drive.make.delay a.drive.turns) (soon : a.drive.make.delay a.drive.turns < 2*polls+4)
    (pause : a.drive.make.pause a.drive.turns < polls) (lba other : Nat) (into buffer : Memory) :
    (a.drive.make.readable (lba28 lba) = true → (ataReadSector a lba into).1 = false ∧
      (ataReadSector (ataReadSector a lba into).2.2 other buffer).1 = true ∧
      (ataReadSector (ataReadSector a lba into).2.2 other buffer).2.1 = patch buffer 0 sectorSize (a.drive.sectors (lba28 lba)) ∧
      (ataWriteSector (ataReadSector a lba into).2.2 other buffer).1 = true ∧
      (ataWriteSector (ataReadSector a lba into).2.2 other buffer).2.drive.sectors = a.drive.sectors) ∧
    (a.drive.make.writable (lba28 lba) = true → (ataWriteSector a lba into).1 = false ∧
      (ataWriteSector (ataWriteSector a lba into).2 other buffer).1 = true ∧
      (ataWriteSector (ataWriteSector a lba into).2 other buffer).2.drive.sectors =
        if a.drive.make.stores (lba28 lba) = true then
          Function.update a.drive.sectors (lba28 lba) (patch (fun _ => 0#8) 0 sectorSize buffer)
        else a.drive.sectors) := by
  constructor
  · intro readable
    have starts := starts_read a.drive lba
    rw [if_pos readable] at starts
    obtain ⟨refused,pending,_,sectors⟩ := request_late resting free starts late soon pause
    have first : ataReadSector a lba into = (false,into,{a with drive:=(request a.drive lba cmdRead).2}) := by
      unfold ataReadSector
      dsimp only
      rw [if_pos present,if_neg (by rw [refused]; exact nofun)]
    rw [first]
    dsimp only
    obtain ⟨got,ready,phase,_⟩ := request_pending pending rfl other cmdRead
    obtain ⟨given,_,waiting,_,kept⟩ := request_pending pending rfl other cmdWrite
    unfold ataReadSector ataWriteSector
    dsimp only
    rw [if_pos present,if_pos present,if_pos got,if_pos given,read_sector ready phase,write_unwanted waiting]
    exact ⟨rfl,rfl,rfl,rfl,(flush_sectors _).trans (kept.trans sectors)⟩
  · intro writable
    have starts := starts_write a.drive lba
    rw [if_pos writable] at starts
    obtain ⟨refused,pending,make,sectors⟩ := request_late resting free starts late soon pause
    have first : ataWriteSector a lba into = (false,{a with drive:=(request a.drive lba cmdWrite).2}) := by
      unfold ataWriteSector
      dsimp only
      rw [if_pos present,if_neg (by rw [refused]; exact nofun)]
    rw [first]
    dsimp only
    obtain ⟨given,ready,phase,held,kept⟩ := request_pending pending rfl other cmdWrite
    unfold ataWriteSector
    dsimp only
    rw [if_pos present,if_pos given,write_sector ready phase]
    refine ⟨rfl,rfl,(flush_sectors _).trans ?_⟩
    rw [(finish_sectors ..).2,held,make,kept,sectors]

-- Its first command keeps it busy for longer than the driver waits.
def sleepy : Ata :=
  ⟨{spinning with make:={spinning.make with delay:=fun turn => if turn = 0 then 150000 else 0}},256,true⟩

theorem late_sector_sleepy :
    (ataReadSector sleepy 3 fun _ => 0#8).1 = false ∧
    (ataReadSector (ataReadSector sleepy 3 fun _ => 0#8).2.2 5 fun _ => 0#8).1 = true ∧
    (ataReadSector (ataReadSector sleepy 3 fun _ => 0#8).2.2 5 fun _ => 0#8).2.1 = patch (fun _ => 0#8) 0 sectorSize fun _ => 3#8 :=
  have stale := (late_sector (a:=sleepy) rfl ⟨rfl,rfl,rfl⟩ (by unfold polls; decide) (by unfold polls; decide) (by unfold polls; decide)
    (by unfold polls; decide) 3 5 (fun _ => 0#8) fun _ => 0#8).1 rfl
  ⟨stale.1,stale.2.1,stale.2.2.1⟩

end Arthic.DiskDriver
