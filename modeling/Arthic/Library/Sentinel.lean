import Arthic.Library.Unsigned

namespace Arthic.Sentinel
open Unsigned

variable {α : Type} [DecidableEq α] {cell : Nat → α} {mark : α} {w stop base left i j addr : Nat}

-- Cells are looked at one after the other until one holds the mark, but no more than
-- `left` of them and none from `stop` on. The answer comes with the cells looked at.
def scan (w : Nat) (cell : Nat → α) (mark : α) (stop base : Nat) : Nat → Nat → Bool × List Nat
  | 0,_ => (false,[])
  | left+1,i =>
    let addr := wrap w (base+i)
    if stop ≤ addr then (false,[])
    else if cell addr = mark then (true,[addr])
    else
      let (found,rest) := scan w cell mark stop base left (i+1)
      (found,addr::rest)

-- The first j cells from index i on do not hold the mark.
def Unmarked (cell : Nat → α) (mark : α) (base i j : Nat) : Prop := ∀ k < j,cell (base+i+k) ≠ mark

omit [DecidableEq α] in
theorem unmarked_zero : Unmarked cell mark base i 0 := fun _ before => absurd before (Nat.not_lt_zero _)

omit [DecidableEq α] in
theorem unmarked_succ : Unmarked cell mark base i (j+1) ↔ cell (base+i) ≠ mark ∧ Unmarked cell mark base (i+1) j := by
  have shift : ∀ k,base+i+(k+1) = base+(i+1)+k := fun k => by omega
  unfold Unmarked
  rw [Nat.forall_lt_succ_left]
  simp only [shift,Nat.add_zero]

-- The scan comes to its end before the address comes to the top of the w-bit space.
theorem scan_reads (high : stop < 2^w) (low : base+i < 2^w) :
    addr ∈ (scan w cell mark stop base left i).2 ↔
      ∃ j < left,addr = base+i+j ∧ base+i+j < stop ∧ Unmarked cell mark base i j := by
  induction left generalizing i with
  | zero => simp [scan]
  | succ left ih =>
    have shift : ∀ k,base+i+(k+1) = base+(i+1)+k := fun k => by omega
    rw [scan,Nat.exists_lt_succ_left]
    dsimp only
    simp only [wrap_small low,unmarked_succ,shift,Nat.add_zero]
    by_cases outside : stop ≤ base+i
    · rw [if_pos outside]
      constructor
      · intro member
        cases member
      · rintro (⟨_,inside,_⟩ | ⟨j,_,_,inside,_⟩)
        · omega
        · omega
    rw [if_neg outside]
    have inside : base+i < stop := Nat.lt_of_not_le outside
    by_cases ends : cell (base+i) = mark
    · rw [if_pos ends]
      simp [inside,unmarked_zero,ends]
    · rw [if_neg ends,List.mem_cons,ih (by omega)]
      simp [inside,unmarked_zero,ends]

theorem scan_found (high : stop < 2^w) (low : base+i < 2^w) :
    (scan w cell mark stop base left i).1 = true ↔
      ∃ j < left,base+i+j < stop ∧ cell (base+i+j) = mark ∧ Unmarked cell mark base i j := by
  induction left generalizing i with
  | zero => simp [scan]
  | succ left ih =>
    have shift : ∀ k,base+i+(k+1) = base+(i+1)+k := fun k => by omega
    rw [scan,Nat.exists_lt_succ_left]
    dsimp only
    simp only [wrap_small low,unmarked_succ,shift,Nat.add_zero]
    by_cases outside : stop ≤ base+i
    · rw [if_pos outside]
      constructor
      · intro found
        cases found
      · rintro (⟨inside,_⟩ | ⟨j,_,inside,_⟩)
        · omega
        · omega
    rw [if_neg outside]
    have inside : base+i < stop := Nat.lt_of_not_le outside
    by_cases ends : cell (base+i) = mark
    · rw [if_pos ends]
      simp [inside,unmarked_zero,ends]
    · rw [if_neg ends]
      refine (ih (by omega)).trans ?_
      simp [ends]

end Arthic.Sentinel
