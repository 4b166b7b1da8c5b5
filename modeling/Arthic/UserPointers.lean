import Arthic.Syscalls

namespace Arthic.UserPointers
open ByteMemory Sentinel Syscalls Unsigned

-- The window of arthic64/kernel/syscall.c, and its user_string_ok.
structure Window64 where
  userRangeStart : Nat := 0
  userRangeEnd : Nat := 0

def stringFrom64 (w : Window64) (bytes : Memory) (ptr : Nat) : Nat → Nat → Bool × List Nat
  | 0,_ => (false,[])
  | left+1,i =>
    let addr := wrap 64 (ptr+i)
    if w.userRangeEnd ≤ addr then (false,[])
    else if bytes addr = 0#8 then (true,[addr])
    else
      let (ok,rest) := stringFrom64 w bytes ptr left (i+1)
      (ok,addr::rest)

def userStringOk64 (w : Window64) (bytes : Memory) (ptr : BitVec 64) (maxLength : Nat) : Bool × List Nat :=
  if ptr.toNat < w.userRangeStart ∨ w.userRangeEnd ≤ ptr.toNat then (false,[])
  else stringFrom64 w bytes ptr.toNat maxLength 0

-- What the checks are for, with sums that do not wrap.
def Within (start end_ addr : Nat) : Prop := start ≤ addr ∧ addr < end_

def BufferWithin (start end_ ptr length : Nat) : Prop :=
  (1 ≤ length ∧ length ≤ 4096) ∧ ∀ i < length,Within start end_ (ptr+i)

def StringWithin (start end_ : Nat) (bytes : Memory) (ptr max : Nat) : Prop :=
  ∃ k < max,(∀ i ≤ k,Within start end_ (ptr+i)) ∧ bytes (ptr+k) = 0#8 ∧ ∀ i < k,bytes (ptr+i) ≠ 0#8

variable {g : Gate} {h : Window64} {bytes : Memory} {ptr length : BitVec 32} {start end_ p n w max addr i : Nat}

theorem within_run (positive : 0 < n) : (∀ i < n,Within start end_ (p+i)) ↔ start ≤ p ∧ p+n ≤ end_ := by
  constructor
  · intro all
    have first := all 0 positive
    have last := all (n-1) (Nat.sub_lt positive Nat.one_pos)
    unfold Within at first last
    omega
  · intro ⟨above,below⟩ i inside
    exact ⟨by omega,by omega⟩

theorem userBufferOk_exact (high : g.userRangeEnd < 2^32) :
    userBufferOk g ptr length = true ↔ BufferWithin g.userRangeStart g.userRangeEnd ptr.toNat length.toNat := by
  constructor
  · intro ok
    obtain ⟨above,positive,below⟩ := userBufferOk_parts ok high
    refine ⟨⟨positive,?_⟩,(within_run positive).mpr ⟨above,below⟩⟩
    unfold userBufferOk at ok
    split at ok
    · cases ok
    · rename_i sane
      rw [BitVec.lt_def] at sane
      simp only [not_or,not_lt] at sane
      exact sane.2
  · intro ⟨⟨positive,short⟩,all⟩
    obtain ⟨above,below⟩ := (within_run positive).mp all
    have exact_ : wrap 32 (ptr.toNat+length.toNat) = ptr.toNat+length.toNat := wrap_small (by omega)
    have sane : ¬ (length = 0#32 ∨ 4096#32 < length) := by
      rw [BitVec.lt_def,not_or,not_lt]
      refine ⟨?_,short⟩
      intro zero
      rw [zero] at positive
      exact absurd positive (by decide)
    unfold userBufferOk
    rw [if_neg sane,if_neg (by omega),exact_,if_neg (by omega),if_neg (by omega)]

theorem stringFrom64_scan : stringFrom64 h bytes p n i = scan 64 bytes 0#8 h.userRangeEnd p n i := by
  induction n generalizing i with
  | zero => rfl
  | succ n ih => rw [stringFrom64,scan,ih]

-- Both user_string_ok are the test of the first address and the scan.
theorem checked_scan (start max : Nat) (bytes : Memory) (high : end_ < 2^w) (low : p < 2^w) :
    let answer := if p < start ∨ end_ ≤ p then (false,[]) else scan w bytes 0#8 end_ p max 0
    (answer.1 = true ↔ StringWithin start end_ bytes p max) ∧ ∀ addr ∈ answer.2,Within start end_ addr := by
  have here : p+0 < 2^w := low
  dsimp only
  by_cases outside : p < start ∨ end_ ≤ p
  · rw [if_pos outside]
    refine ⟨⟨fun found => ?_,fun ⟨k,_,all,_⟩ => ?_⟩,fun _ member => ?_⟩
    · cases found
    · have first := all 0 (Nat.zero_le k)
      unfold Within at first
      omega
    · cases member
  · rw [if_neg outside,scan_found high here]
    refine ⟨⟨fun ⟨k,below,inside,ends,before⟩ => ?_,fun ⟨k,below,all,ends,before⟩ => ?_⟩,fun addr member => ?_⟩
    · exact ⟨k,below,fun i reached => ⟨by omega,by omega⟩,ends,before⟩
    · exact ⟨k,below,(all k (Nat.le_refl k)).2,ends,before⟩
    · obtain ⟨j,_,same,inside,_⟩ := (scan_reads high here).mp member
      exact ⟨by omega,by omega⟩

theorem userStringOk_scan (g : Gate) (bytes : Memory) (ptr : BitVec 32) (max : Nat) : userStringOk g bytes ptr max =
    if ptr.toNat < g.userRangeStart ∨ g.userRangeEnd ≤ ptr.toNat then (false,[])
    else scan 32 bytes 0#8 g.userRangeEnd ptr.toNat max 0 := by
  rw [userStringOk,stringFrom_scan]

theorem userStringOk64_scan (h : Window64) (bytes : Memory) (ptr : BitVec 64) (max : Nat) : userStringOk64 h bytes ptr max =
    if ptr.toNat < h.userRangeStart ∨ h.userRangeEnd ≤ ptr.toNat then (false,[])
    else scan 64 bytes 0#8 h.userRangeEnd ptr.toNat max 0 := by
  rw [userStringOk64,stringFrom64_scan]

theorem pointer_checks_exact (high : g.userRangeEnd < 2^32) (high64 : h.userRangeEnd < 2^64) (ptr length max : BitVec 32)
    (ptr64 max64 : BitVec 64) (bytes : Memory) :
    (userBufferOk g ptr length = true ↔ BufferWithin g.userRangeStart g.userRangeEnd ptr.toNat length.toNat) ∧
    ((userStringOk g bytes ptr max.toNat).1 = true ↔
      StringWithin g.userRangeStart g.userRangeEnd bytes ptr.toNat max.toNat) ∧
    (∀ addr ∈ (userStringOk g bytes ptr max.toNat).2,Within g.userRangeStart g.userRangeEnd addr) ∧
    ((userStringOk64 h bytes ptr64 max64.toNat).1 = true ↔
      StringWithin h.userRangeStart h.userRangeEnd bytes ptr64.toNat max64.toNat) ∧
    ∀ addr ∈ (userStringOk64 h bytes ptr64 max64.toNat).2,Within h.userRangeStart h.userRangeEnd addr := by
  have short := checked_scan g.userRangeStart max.toNat bytes high ptr.isLt
  have long := checked_scan h.userRangeStart max64.toNat bytes high64 ptr64.isLt
  dsimp only at short long
  rw [←userStringOk_scan] at short
  rw [←userStringOk64_scan] at long
  exact ⟨userBufferOk_exact high,short.1,short.2,long.1,long.2⟩

-- A window that ends at the last address there is, and a buffer whose end wraps.
def topWindow : Gate := {userRangeStart:=0xFFFFF000,userRangeEnd:=0xFFFFFFFF}
def topWindow64 : Window64 := ⟨0xFFFFFFFFFFFFF000,0xFFFFFFFFFFFFFFFF⟩

theorem pointer_checks_exact_top :
    (userBufferOk topWindow 0xFFFFFFF0#32 0x20#32 = true ↔ BufferWithin 0xFFFFF000 0xFFFFFFFF 0xFFFFFFF0 0x20) ∧
    ((userStringOk topWindow (fun _ => 1#8) 0xFFFFFFF0#32 0xFFFFFFFF).1 = true ↔
      StringWithin 0xFFFFF000 0xFFFFFFFF (fun _ => 1#8) 0xFFFFFFF0 0xFFFFFFFF) ∧
    userBufferOk topWindow 0xFFFFFFF0#32 0x20#32 = false := by
  have high : topWindow.userRangeEnd < 2^32 := by decide
  have high64 : topWindow64.userRangeEnd < 2^64 := by decide
  have checked := pointer_checks_exact high high64 0xFFFFFFF0#32 0x20#32 0xFFFFFFFF#32 0#64 0#64 fun _ => 1#8
  exact ⟨checked.1,checked.2.1,by decide⟩

end Arthic.UserPointers
