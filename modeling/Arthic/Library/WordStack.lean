import Arthic.Library.ByteMemory
import Mathlib.Data.List.Induction

namespace Arthic.WordStack
open ByteMemory

-- Words of 32 bits in byte memory, and a stack of them that grows down.
abbrev Word := BitVec 32

def word (mem : Memory) (addr : Nat) : Word := BitVec.ofNat 32 (load mem addr 4)
def setWord (mem : Memory) (addr : Nat) (value : Word) : Memory := store mem addr 4 value.toNat

def push (stack : Memory × Word) (value : Word) : Memory × Word :=
  (setWord stack.1 (stack.2-4#32).toNat value,stack.2-4#32)

theorem word_set (mem : Memory) (addr : Nat) (value : Word) : word (setWord mem addr value) addr = value := by
  have small : value.toNat < 256^4 := value.isLt
  rw [word,setWord,load_store mem addr small,BitVec.ofNat_toNat,BitVec.setWidth_eq]

theorem word_congr (same : ∀ x < 4,after (addr+x) = mem (addr+x)) : word after addr = word mem addr := by
  rw [word,word,load_congr same]

theorem set_outside (mem : Memory) (value : Word) (outside : x < addr ∨ addr+4 ≤ x) : setWord mem addr value x = mem x :=
  patch_outside mem _ outside

-- Consecutive words, the first at the lowest address.
def Holds (mem : Memory) : Nat → List Word → Prop
  | _,[] => True
  | addr,value::values => word mem addr = value ∧ Holds mem (addr+4) values

theorem holds_congr (holds : Holds mem addr values) (same : ∀ x,addr ≤ x → x < addr+4*values.length → after x = mem x) :
    Holds after addr values := by
  induction values generalizing addr with
  | nil => trivial
  | cons value values ih =>
    rw [List.length_cons] at same
    refine ⟨(word_congr fun x inside => ?_).trans holds.1,ih holds.2 fun x above below => ?_⟩
    · exact same (addr+x) (by omega) (by omega)
    · exact same x (by omega) (by omega)

-- What a run of pushes leaves: the words, last one lowest, and the rest of memory.
structure Pushed (mem : Memory) (sp : Word) (values : List Word) (stack : Memory × Word) : Prop where
  pointer : stack.2.toNat+4*values.length = sp.toNat
  words : Holds stack.1 stack.2.toNat values.reverse
  outside : ∀ x,x < stack.2.toNat ∨ sp.toNat ≤ x → stack.1 x = mem x

theorem sub_four {sp : Word} (room : 4 ≤ sp.toNat) : (sp-4#32).toNat = sp.toNat-4 := by
  rw [BitVec.toNat_sub]
  have small := sp.isLt
  simp only [BitVec.toNat_ofNat]
  omega

theorem add_four {sp : Word} (room : sp.toNat+4 < 2^32) : (sp+4#32).toNat = sp.toNat+4 := by
  rw [BitVec.toNat_add,BitVec.toNat_ofNat,Nat.mod_eq_of_lt (by omega)]

theorem push_all (mem : Memory) (sp : Word) (values : List Word) (room : 4*values.length ≤ sp.toNat) :
    Pushed mem sp values (values.foldl push (mem,sp)) := by
  induction values using List.reverseRecOn with
  | nil => exact ⟨rfl,trivial,fun _ _ => rfl⟩
  | append_singleton values value ih =>
    rw [List.length_append,List.length_singleton] at room
    have pushed := ih (by omega)
    rw [List.foldl_append]
    generalize values.foldl push (mem,sp) = stack at pushed ⊢
    have pointer := pushed.pointer
    have lower : (stack.2-4#32).toNat = stack.2.toNat-4 := sub_four (by omega)
    change Pushed mem sp (values++[value]) (setWord stack.1 (stack.2-4#32).toNat value,stack.2-4#32)
    refine ⟨?_,?_,?_⟩
    · rw [List.length_append,List.length_singleton,lower]
      omega
    · rw [List.reverse_append,List.reverse_singleton,List.singleton_append]
      change word _ (stack.2-4#32).toNat = value ∧ Holds (setWord stack.1 _ value) ((stack.2-4#32).toNat+4) values.reverse
      refine ⟨word_set _ _ _,?_⟩
      rw [show (stack.2-4#32).toNat+4 = stack.2.toNat by omega]
      exact holds_congr pushed.words fun x above _ => set_outside _ _ (by omega)
    · intro x far
      dsimp only at far ⊢
      rw [set_outside _ _ (by omega),pushed.outside x (by omega)]

end Arthic.WordStack
