import Mathlib.Algebra.Group.Nat.Defs
import Mathlib.Data.Nat.Basic

namespace Arthic.ByteMemory

-- Memory is a byte for every address. Words are read and written little-endian at
-- any address and width, so that objects of different shapes may share the bytes.
abbrev Byte := BitVec 8
abbrev Memory := Nat → Byte

-- Everything that changes memory replaces one run of bytes.
def patch (m : Memory) (addr count : Nat) (source : Nat → Byte) : Memory :=
  fun x => if addr ≤ x ∧ x < addr+count then source (x-addr) else m x

def fill (m : Memory) (addr count : Nat) (value : Byte) : Memory := patch m addr count fun _ => value
def digit (value k : Nat) : Byte := BitVec.ofNat 8 (value/256^k)
def store (m : Memory) (addr width value : Nat) : Memory := patch m addr width (digit value)

def load (m : Memory) (addr : Nat) : Nat → Nat
  | 0 => 0
  | width+1 => (m addr).toNat+256*load m (addr+1) width

theorem patch_inside (m : Memory) (source : Nat → Byte) (lower : addr ≤ x) (upper : x < addr+count) :
    patch m addr count source x = source (x-addr) := by
  simp [patch,lower,upper]

theorem patch_outside (m : Memory) (source : Nat → Byte) (outside : x < addr ∨ addr+count ≤ x) :
    patch m addr count source x = m x := by
  unfold patch
  rw [if_neg]
  omega

theorem load_congr (same : ∀ k < width, m (addr+k) = other (addr+k)) : load m addr width = load other addr width := by
  induction width generalizing addr with
  | zero => rfl
  | succ width ih =>
    have first := same 0 (Nat.succ_pos width)
    have rest : load m (addr+1) width = load other (addr+1) width := by
      apply ih
      intro k below
      have later := same (k+1) (by omega)
      rwa [show addr+(k+1) = addr+1+k by omega] at later
    rw [Nat.add_zero] at first
    rw [load,load,first,rest]

theorem load_lt (m : Memory) (addr width : Nat) : load m addr width < 256^width := by
  induction width generalizing addr with
  | zero => exact Nat.one_pos
  | succ width ih =>
    have head := (m addr).isLt
    have tail := ih (addr+1)
    rw [load,Nat.pow_succ]
    omega

theorem load_digits (digits : ∀ k < width, m (addr+k) = digit value k) : load m addr width = value % 256^width := by
  induction width generalizing addr value with
  | zero => simp [load,Nat.mod_one]
  | succ width ih =>
    have first : (m addr).toNat = value % 256 := by
      have zero := digits 0 (Nat.succ_pos width)
      rw [Nat.add_zero] at zero
      simp [zero,digit]
    have rest : load m (addr+1) width = value/256 % 256^width := by
      apply ih
      intro k below
      have later := digits (k+1) (by omega)
      rw [show addr+(k+1) = addr+1+k by omega] at later
      rw [later,digit,digit,Nat.div_div_eq_div_mul,Nat.pow_succ']
    rw [load,first,rest,Nat.pow_succ',Nat.mod_mul]

-- A word may be read back narrower than it was written.
theorem load_store_low (m : Memory) (addr value : Nat) (narrow : width ≤ count) :
    load (store m addr count value) addr width = value % 256^width := by
  apply load_digits
  intro k below
  rw [store,patch_inside m _ (by omega) (by omega),Nat.add_sub_cancel_left]

theorem load_store (m : Memory) (addr : Nat) (small : value < 256^width) :
    load (store m addr width value) addr width = value := by
  rw [load_store_low m addr value (Nat.le_refl _),Nat.mod_eq_of_lt small]

theorem load_patch (m : Memory) (source : Nat → Byte) (apart : addr+width ≤ start ∨ start+count ≤ addr) :
    load (patch m start count source) addr width = load m addr width := by
  apply load_congr
  intro k below
  exact patch_outside m source (by omega)

theorem load_store_apart (m : Memory) (value : Nat) (apart : addr+width ≤ start ∨ start+count ≤ addr) :
    load (store m start count value) addr width = load m addr width := load_patch m _ apart

end Arthic.ByteMemory
