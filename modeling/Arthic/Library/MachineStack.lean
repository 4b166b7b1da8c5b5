import Arthic.Library.ByteMemory
import Mathlib.Data.List.Induction
import Mathlib.Logic.Function.Basic

namespace Arthic.MachineStack
open ByteMemory

-- A stack of machine words in byte memory. It grows down; a word has `bits` bits and takes
-- `bytes` bytes.
variable {bits bytes : Nat} {mem after : Memory} {sp : BitVec bits} {addr : Nat} {values : List (BitVec bits)}

def word (bytes : Nat) (mem : Memory) (addr : Nat) : BitVec bits := BitVec.ofNat bits (load mem addr bytes)
def setWord (bytes : Nat) (mem : Memory) (addr : Nat) (value : BitVec bits) : Memory := store mem addr bytes value.toNat

def push (bytes : Nat) (stack : Memory × BitVec bits) (value : BitVec bits) : Memory × BitVec bits :=
  (setWord bytes stack.1 (stack.2-BitVec.ofNat bits bytes).toNat value,stack.2-BitVec.ofNat bits bytes)

-- Consecutive words, the first at the lowest address.
def Holds (bytes : Nat) (mem : Memory) : Nat → List (BitVec bits) → Prop
  | _,[] => True
  | addr,value::values => word bytes mem addr = value ∧ Holds bytes mem (addr+bytes) values

theorem word_set (fits : 2^bits = 256^bytes) (mem : Memory) (addr : Nat) (value : BitVec bits) :
    word bytes (setWord bytes mem addr value) addr = value := by
  have small : value.toNat < 256^bytes := fits ▸ value.isLt
  rw [word,setWord,load_store mem addr small,BitVec.ofNat_toNat,BitVec.setWidth_eq]

theorem word_congr (same : ∀ x,addr ≤ x → x < addr+bytes → after x = mem x) :
    (word bytes after addr : BitVec bits) = word bytes mem addr := by
  rw [word,word,load_congr fun x below => same (addr+x) (by omega) (by omega)]

theorem set_outside (mem : Memory) (value : BitVec bits) (outside : x < addr ∨ addr+bytes ≤ x) :
    setWord bytes mem addr value x = mem x := patch_outside mem _ outside

theorem holds_congr (holds : Holds bytes mem addr values)
    (same : ∀ x,addr ≤ x → x < addr+bytes*values.length → after x = mem x) : Holds bytes after addr values := by
  induction values generalizing addr with
  | nil => trivial
  | cons value values ih =>
    rw [List.length_cons,Nat.mul_succ] at same
    constructor
    · exact (word_congr fun x above below => same x above (by omega)).trans holds.1
    · exact ih holds.2 fun x above below => same x (by omega) (by omega)

theorem holds_append {first second : List (BitVec bits)} :
    Holds bytes mem addr (first++second) ↔ Holds bytes mem addr first ∧ Holds bytes mem (addr+bytes*first.length) second := by
  induction first generalizing addr with
  | nil => simp [Holds]
  | cons value first ih =>
    have place : addr+bytes*(first.length+1) = addr+bytes+bytes*first.length := by rw [Nat.mul_succ]; omega
    rw [List.cons_append,Holds,Holds,ih,List.length_cons,place,and_assoc]

-- The words memory has at an address, however it came by them.
def words (bytes : Nat) (mem : Memory) (addr : Nat) : Nat → List (BitVec bits)
  | 0 => []
  | count+1 => word bytes mem addr::words bytes mem (addr+bytes) count

theorem words_held (mem : Memory) (addr count : Nat) : Holds bytes mem addr (words bytes mem addr count : List (BitVec bits)) := by
  induction count generalizing addr with
  | zero => trivial
  | succ count ih => exact ⟨rfl,ih (addr+bytes)⟩

theorem sp_lower (small : bytes < 2^bits) (room : bytes ≤ sp.toNat) :
    (sp-BitVec.ofNat bits bytes).toNat = sp.toNat-bytes := by
  have bound := sp.isLt
  rw [BitVec.toNat_sub,BitVec.toNat_ofNat,Nat.mod_eq_of_lt small,show 2^bits-bytes+sp.toNat = 2^bits+(sp.toNat-bytes) by omega,
    Nat.add_mod_left,Nat.mod_eq_of_lt (by omega)]

theorem sp_higher {count : Nat} (room : sp.toNat+count < 2^bits) : (sp+BitVec.ofNat bits count).toNat = sp.toNat+count := by
  rw [BitVec.toNat_add,BitVec.toNat_ofNat,Nat.mod_eq_of_lt (show count < 2^bits by omega),Nat.mod_eq_of_lt room]

-- What a run of pushes leaves: the words, last one lowest, and the rest of memory.
structure Pushed (bytes : Nat) (mem : Memory) (sp : BitVec bits) (values : List (BitVec bits)) (stack : Memory × BitVec bits) : Prop where
  pointer : stack.2.toNat+bytes*values.length = sp.toNat
  words : Holds bytes stack.1 stack.2.toNat values.reverse
  outside : ∀ x,x < stack.2.toNat ∨ sp.toNat ≤ x → stack.1 x = mem x

theorem Pushed.more (fits : 2^bits = 256^bytes) {stack : Memory × BitVec bits} (pushed : Pushed bytes mem sp values stack)
    (value : BitVec bits) (room : bytes*(values.length+1) ≤ sp.toNat) : Pushed bytes mem sp (values++[value]) (push bytes stack value) := by
  have small : bytes < 2^bits := fits ▸ Nat.lt_pow_self (by decide)
  have pointer := pushed.pointer
  rw [Nat.mul_succ] at room
  have lower : (stack.2-BitVec.ofNat bits bytes).toNat = stack.2.toNat-bytes := sp_lower small (by omega)
  constructor
  · rw [List.length_append,List.length_singleton,push,lower,Nat.mul_succ]
    omega
  · rw [List.reverse_append,List.reverse_singleton,List.singleton_append,push]
    constructor
    · exact word_set fits _ _ _
    · dsimp only
      rw [lower,show stack.2.toNat-bytes+bytes = stack.2.toNat by omega]
      exact holds_congr pushed.words fun x above _ => set_outside _ _ (by omega)
  · intro x far
    rw [push] at far ⊢
    dsimp only at far ⊢
    rw [lower] at far ⊢
    rw [set_outside _ _ (by omega),pushed.outside x (by omega)]

theorem push_all (fits : 2^bits = 256^bytes) (mem : Memory) (sp : BitVec bits) (values : List (BitVec bits))
    (room : bytes*values.length ≤ sp.toNat) : Pushed bytes mem sp values (values.foldl (push bytes) (mem,sp)) := by
  induction values using List.reverseRecOn with
  | nil => exact ⟨rfl,trivial,fun _ _ => rfl⟩
  | append_singleton values value ih =>
    rw [List.length_append,List.length_singleton] at room
    rw [List.foldl_append]
    exact (ih (by rw [Nat.mul_succ] at room; omega)).more fits value room

-- A word that is changed where it was pushed might have been pushed changed.
theorem set_push (bytes : Nat) (stack : Memory × BitVec bits) (value other : BitVec bits) :
    setWord bytes (push bytes stack value).1 (push bytes stack value).2.toNat other = (push bytes stack other).1 := by
  funext x
  by_cases inside : (push bytes stack value).2.toNat ≤ x ∧ x < (push bytes stack value).2.toNat+bytes
  · exact (patch_inside _ _ inside.1 inside.2).trans (patch_inside _ _ inside.1 inside.2).symm
  · have outside : x < (push bytes stack value).2.toNat ∨ (push bytes stack value).2.toNat+bytes ≤ x := by omega
    exact (set_outside _ _ outside).trans ((set_outside _ _ outside).trans (set_outside _ _ outside).symm)

-- Pops into registers. A word that is read twice into one register is read from two places,
-- so what is said of the values is said of the register they are for.
section Pops
variable {Reg : Type} [DecidableEq Reg]

def pop (bytes : Nat) (mem : Memory) (c : (Reg → BitVec bits) × BitVec bits) (r : Reg) : (Reg → BitVec bits) × BitVec bits :=
  (Function.update c.1 r (word bytes mem c.2.toNat),c.2+BitVec.ofNat bits bytes)

structure Popped (bytes : Nat) (sp : BitVec bits) (rs : List Reg) (regs saved : Reg → BitVec bits)
    (c : (Reg → BitVec bits) × BitVec bits) : Prop where
  pointer : c.2.toNat = sp.toNat+bytes*rs.length
  loaded : ∀ r ∈ rs,c.1 r = saved r
  others : ∀ r,r ∉ rs → c.1 r = regs r

theorem pop_all (rs : List Reg) (regs saved : Reg → BitVec bits) (sp : BitVec bits) (holds : Holds bytes mem sp.toNat (rs.map saved))
    (room : sp.toNat+bytes*rs.length < 2^bits) : Popped bytes sp rs regs saved (rs.foldl (pop bytes mem) (regs,sp)) := by
  induction rs generalizing regs sp with
  | nil => exact ⟨rfl,nofun,fun _ _ => rfl⟩
  | cons r rs ih =>
    rw [List.length_cons,Nat.mul_succ] at room
    have higher : (sp+BitVec.ofNat bits bytes).toNat = sp.toNat+bytes := sp_higher (by omega)
    have rest := ih (Function.update regs r (word bytes mem sp.toNat)) (sp+BitVec.ofNat bits bytes) (higher ▸ holds.2) (by omega)
    have pointer := rest.pointer
    constructor
    · rw [List.length_cons,Nat.mul_succ]
      exact pointer.trans (by omega)
    · intro other member
      by_cases later : other ∈ rs
      · exact rest.loaded other later
      · obtain rfl : other = r := (List.mem_cons.mp member).resolve_right later
        exact (rest.others other later).trans ((Function.update_self ..).trans holds.1)
    · intro other outside
      have different : other ≠ r := fun same => outside (same ▸ List.mem_cons_self ..)
      exact (rest.others other fun later => outside (List.mem_cons_of_mem _ later)).trans (Function.update_of_ne different ..)

end Pops
end Arthic.MachineStack
