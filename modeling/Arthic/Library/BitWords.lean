import Mathlib.Algebra.Group.Nat.Defs
import Mathlib.Data.Finset.Card
import Mathlib.Data.Finset.Range

namespace Arthic.BitWords
variable {w : Nat}

-- A set of numbers packed into words of width w: member i is bit i % w of word
-- i / w. The operations are written as the masks and shifts that touch one word.
abbrev Words (w : Nat) := Nat → BitVec w

def mask (w i : Nat) : BitVec w := 1#w <<< (i % w)

def setBit (words : Words w) (i : Nat) : Words w :=
  Function.update words (i/w) (words (i/w) ||| mask w i)

def clearBit (words : Words w) (i : Nat) : Words w :=
  Function.update words (i/w) (words (i/w) &&& ~~~mask w i)

def testMask (words : Words w) (i : Nat) : Bool := (words (i/w) &&& mask w i) != 0#w

def testShift (words : Words w) (i : Nat) : Bool := (words (i/w) >>> (i % w)) &&& 1#w != 0#w

def member (words : Words w) (i : Nat) : Bool := (words (i/w)).getLsbD (i % w)

theorem mask_bit (pos : 0 < w) (i k : Nat) : (mask w i).getLsbD k = decide (k = i % w) := by
  have bound : i % w < w := Nat.mod_lt i pos
  simp only [mask,BitVec.getLsbD_shiftLeft,BitVec.getLsbD_one]
  by_cases equal : k = i % w
  · subst equal; simp [bound,pos]
  · by_cases below : k < i % w
    · simp [equal,below]
    · have : ¬ k - i % w = 0 := by omega
      simp [equal,this]

theorem same_index {i j : Nat} (word : i / w = j / w) (offset : i % w = j % w) : i = j := by
  rw [←Nat.div_add_mod i w,←Nat.div_add_mod j w,word,offset]

theorem member_setBit (pos : 0 < w) (words : Words w) (i j : Nat) :
    member (setBit words i) j = (decide (j = i) || member words j) := by
  by_cases word : j / w = i / w
  · have offsets : decide (j % w = i % w) = decide (j = i) :=
      decide_eq_decide.mpr ⟨fun offset => same_index word offset,fun equal => by rw [equal]⟩
    simp [member,setBit,word,mask_bit pos,offsets,Bool.or_comm]
  · have other : j ≠ i := fun equal => word (by rw [equal])
    simp [member,setBit,word,other]

theorem member_clearBit (pos : 0 < w) (words : Words w) (i j : Nat) :
    member (clearBit words i) j = (!decide (j = i) && member words j) := by
  by_cases word : j / w = i / w
  · have bound : j % w < w := Nat.mod_lt j pos
    have offsets : decide (j % w = i % w) = decide (j = i) :=
      decide_eq_decide.mpr ⟨fun offset => same_index word offset,fun equal => by rw [equal]⟩
    simp only [member,clearBit,word,Function.update_self,BitVec.getLsbD_and,BitVec.getLsbD_not,mask_bit pos,offsets,
      bound,decide_true,Bool.true_and]
    exact Bool.and_comm _ _
  · have other : j ≠ i := fun equal => word (by rw [equal])
    simp [member,clearBit,word,other]

theorem testMask_member (pos : 0 < w) (words : Words w) (i : Nat) : testMask words i = member words i := by
  have bound : i % w < w := Nat.mod_lt i pos
  have isolated : ∀ k, (words (i/w) &&& mask w i).getLsbD k = (decide (k = i % w) && member words i) := by
    intro k
    by_cases equal : k = i % w
    · simp [member,mask_bit pos,equal]
    · simp [mask_bit pos,equal]
  cases found : member words i with
  | true =>
    have nonzero : words (i/w) &&& mask w i ≠ 0#w := by
      intro zero
      have bit := isolated (i % w)
      rw [zero,found] at bit
      simp at bit
    simpa [testMask] using nonzero
  | false =>
    have zero : words (i/w) &&& mask w i = 0#w := by
      apply BitVec.eq_of_getLsbD_eq
      intro k _
      rw [isolated k,found]
      simp
    simp [testMask,zero]

theorem testShift_member (wide : 1 < w) (words : Words w) (i : Nat) : testShift words i = member words i := by
  have isolated : ∀ k, ((words (i/w) >>> (i % w)) &&& 1#w).getLsbD k = (decide (k = 0) && member words i) := by
    intro k
    by_cases equal : k = 0
    · simp [member,equal,show 0 < w by omega]
    · simp [equal]
  cases found : member words i with
  | true =>
    have nonzero : (words (i/w) >>> (i % w)) &&& 1#w ≠ 0#w := by
      intro zero
      have bit := isolated 0
      rw [zero,found] at bit
      simp at bit
    simpa [testShift] using nonzero
  | false =>
    have zero : (words (i/w) >>> (i % w)) &&& 1#w = 0#w := by
      apply BitVec.eq_of_getLsbD_eq
      intro k _
      rw [isolated k,found]
      simp
    simp [testShift,zero]

-- How many numbers below a bound are members.
def size (words : Words w) (n : Nat) : Nat := ((Finset.range n).filter fun i => member words i = true).card

theorem size_le (words : Words w) (n : Nat) : size words n ≤ n := by
  have bound := Finset.card_filter_le (Finset.range n) fun i => member words i = true
  simpa [size] using bound

theorem size_setBit (pos : 0 < w) (words : Words w) (below : i < n) (absent : member words i = false) :
    size (setBit words i) n = size words n + 1 := by
  have grown : ((Finset.range n).filter fun j => member (setBit words i) j = true) =
      insert i ((Finset.range n).filter fun j => member words j = true) := by
    ext j
    by_cases equal : j = i
    · simp [member_setBit pos,equal,below]
    · simp [member_setBit pos,equal]
  have fresh : i ∉ (Finset.range n).filter fun j => member words j = true := by simp [absent]
  rw [size,grown,Finset.card_insert_of_notMem fresh,size]

theorem size_clearBit (pos : 0 < w) (words : Words w) (below : i < n) (present : member words i = true) :
    size (clearBit words i) n + 1 = size words n := by
  have shrunk : ((Finset.range n).filter fun j => member (clearBit words i) j = true) =
      ((Finset.range n).filter fun j => member words j = true).erase i := by
    ext j
    by_cases equal : j = i
    · simp [member_clearBit pos,equal]
    · simp [member_clearBit pos,equal]
  have old : i ∈ (Finset.range n).filter fun j => member words j = true := by simp [present,below]
  rw [size,shrunk,Finset.card_erase_add_one old,size]

theorem size_below (words : Words w) (fits : k ≤ n) (below : ∀ i < n, member words i = decide (i < k)) : size words n = k := by
  have prefix_ : ((Finset.range n).filter fun i => member words i = true) = Finset.range k := by
    ext i
    simp only [Finset.mem_filter,Finset.mem_range]
    constructor
    · rintro ⟨inside,present⟩
      rw [below i inside] at present
      exact of_decide_eq_true present
    · intro small
      exact ⟨Nat.lt_of_lt_of_le small fits,(below i (Nat.lt_of_lt_of_le small fits)).trans (decide_eq_true small)⟩
  rw [size,prefix_,Finset.card_range]

theorem size_full (words : Words w) (full : ∀ i < n, member words i = true) : size words n = n :=
  size_below words (Nat.le_refl n) fun i inside => (full i inside).trans (decide_eq_true inside).symm

end Arthic.BitWords
