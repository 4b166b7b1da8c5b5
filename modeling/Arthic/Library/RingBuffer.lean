import Mathlib.Logic.Function.Basic

namespace Arthic.RingBuffer
variable {α : Type}

-- The elements of a circular buffer, oldest first: count of them from pos on.
def contents (capacity : Nat) (buffer : Nat → α) (pos count : Nat) : List α :=
  (List.range count).map fun k => buffer ((pos+k) % capacity)

theorem index_distinct {pos k count capacity : Nat} (room : count < capacity) (earlier : k < count) :
    (pos+k) % capacity ≠ (pos+count) % capacity := by
  intro equal
  have zero := Nat.sub_mod_eq_zero_of_mod_eq equal.symm
  rw [show pos+count-(pos+k) = count-k by omega,Nat.mod_eq_of_lt (by omega)] at zero
  omega

theorem contents_push (room : count < capacity) (buffer : Nat → α) (value : α) :
    contents capacity (Function.update buffer ((pos+count) % capacity) value) pos (count+1) =
      contents capacity buffer pos count++[value] := by
  unfold contents
  rw [List.range_succ,List.map_append,List.map_singleton,Function.update_self]
  congr 1
  apply List.map_congr_left
  intro k member
  exact Function.update_of_ne (index_distinct room (List.mem_range.mp member)) _ _

theorem contents_pop (capacity : Nat) (buffer : Nat → α) (pos count : Nat) :
    contents capacity buffer pos (count+1) =
      buffer (pos % capacity)::contents capacity buffer ((pos+1) % capacity) count := by
  unfold contents
  rw [List.range_succ_eq_map,List.map_cons,List.map_map,Nat.add_zero]
  congr 1
  apply List.map_congr_left
  intro k _
  simp only [Function.comp,Nat.mod_add_mod]
  rw [show pos+1+k = pos+Nat.succ k by omega]

end Arthic.RingBuffer
