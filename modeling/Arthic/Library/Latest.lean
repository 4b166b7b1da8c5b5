import Mathlib.Data.List.Basic

-- A list of entries with keys, in which a later entry replaces an earlier one of its key.
namespace Arthic.Latest
variable {α κ : Type} [DecidableEq κ] {key : α → κ} {list left right : List α}

def latest (key : α → κ) (list : List α) (k : κ) : Option α := (list.filter fun a => key a = k).getLast?

theorem latest_append (left right : List α) (k : κ) :
    latest key (left++right) k = (latest key right k).or (latest key left k) := by
  unfold latest
  rw [List.filter_append,List.getLast?_append]

theorem latest_snoc (list : List α) (a : α) (k : κ) :
    latest key (list++[a]) k = if key a = k then some a else latest key list k := by
  rw [latest_append]
  by_cases here : key a = k
  · rw [if_pos here,latest,List.filter_cons_of_pos (by simpa using here)]
    rfl
  · rw [if_neg here,latest,List.filter_cons_of_neg (by simpa using here)]
    rfl

theorem latest_mem (found : latest key list k = some a) : a ∈ list ∧ key a = k := by
  have member := List.mem_filter.mp (List.mem_of_getLast? found)
  exact ⟨member.1,by simpa using member.2⟩

theorem latest_none : latest key list k = none ↔ ∀ a ∈ list,key a ≠ k := by
  simp [latest]

-- The entry that is there when no other has its key.
theorem latest_single (member : a ∈ list) (single : ∀ b ∈ list,key b = key a → b = a) : latest key list (key a) = some a := by
  cases found : latest key list (key a) with
  | none => exact absurd rfl (latest_none.mp found a member)
  | some b =>
    obtain ⟨inside,same⟩ := latest_mem found
    rw [single b inside same]

end Arthic.Latest
