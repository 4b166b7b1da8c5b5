import Mathlib.Data.List.Basic
import Mathlib.Data.List.Infix

namespace Arthic.Chunks

variable {α : Type*} {stream marker chunk : List α} {chunks : List (List α)} {start p : Nat}

-- Where the chunks of a stream end, the first one beginning at `start`.
def cuts (start : Nat) : List (List α) → List Nat
  | [] => []
  | chunk::rest => (start+chunk.length)::cuts (start+chunk.length) rest

theorem cuts_past (start : Nat) (chunks : List (List α)) : ∀ cut ∈ cuts start chunks,start ≤ cut ∧ cut ≤ start+chunks.flatten.length := by
  induction chunks generalizing start with
  | nil => nofun
  | cons chunk rest ih =>
    intro cut member
    rw [List.flatten_cons,List.length_append]
    rcases List.mem_cons.mp member with here | later
    · omega
    · have bounds := ih _ cut later
      omega

-- The marker begins at one place of the stream and at no other.
def Once (stream marker : List α) (p : Nat) : Prop := ∀ i,marker <+: stream.drop i ↔ i = p

-- A marker whose first letter does not occur before the end of the stream.
theorem once_append {front back rest : List α} {head : α} (absent : head ∉ front) (once : Once back (head::rest) 0) :
    Once (front++back) (head::rest) front.length := by
  intro i
  by_cases inside : i < front.length
  · constructor
    · intro found
      rw [List.drop_append_of_le_length (Nat.le_of_lt inside),List.drop_eq_getElem_cons inside,List.cons_append] at found
      obtain ⟨same,_⟩ := List.cons_prefix_cons.mp found
      exact absurd (same ▸ List.getElem_mem inside) absent
    · intro equal
      omega
  · have past := once (i-front.length)
    rw [show i = front.length+(i-front.length) by omega,←List.drop_drop,List.drop_left,past]
    omega

theorem prefix_drop (before : List α) (followed : before++chunk <+: stream) (n : Nat) (short : n ≤ chunk.length) :
    chunk.drop n <+: stream.drop (before.length+n) := by
  obtain ⟨rest,rfl⟩ := followed
  refine ⟨rest,?_⟩
  rw [List.append_assoc,←List.drop_drop,List.drop_left,List.drop_append_of_le_length short]

theorem once_inside (once : Once stream marker p) (before : List α) (followed : before++chunk <+: stream) :
    marker <:+: chunk ↔ before.length ≤ p ∧ p+marker.length ≤ before.length+chunk.length := by
  constructor
  · rintro ⟨lead,tail,rfl⟩
    have place : marker <+: stream.drop (before.length+lead.length) := by
      refine List.IsPrefix.trans ?_ (prefix_drop before followed lead.length (by simp))
      rw [List.append_assoc,List.drop_left]
      exact List.prefix_append _ _
    have here := (once _).mp place
    simp only [List.length_append]
    omega
  · intro ⟨after,inside⟩
    have place := (once p).mpr rfl
    have piece := prefix_drop before followed (p-before.length) (by omega)
    rw [show before.length+(p-before.length) = p by omega] at piece
    have both := List.prefix_of_prefix_length_le place piece (by rw [List.length_drop]; omega)
    exact both.isInfix.trans (List.drop_suffix _ _).isInfix

theorem marker_from (once : Once stream marker p) (some : 0 < marker.length) (before : List α) (followed : before++chunks.flatten <+: stream) :
    (∃ chunk ∈ chunks,marker <:+: chunk) ↔ before.length ≤ p ∧ p+marker.length ≤ before.length+chunks.flatten.length ∧
      ∀ cut ∈ cuts before.length chunks,cut ≤ p ∨ p+marker.length ≤ cut := by
  induction chunks generalizing before with
  | nil =>
    constructor
    · rintro ⟨_,member,_⟩
      cases member
    · intro ⟨lower,upper,_⟩
      rw [List.flatten_nil,List.length_nil] at upper
      omega
  | cons chunk rest ih =>
    rw [List.flatten_cons,←List.append_assoc] at followed
    have first := once_inside once before ((List.prefix_append _ _).trans followed)
    have later := ih (before++chunk) followed
    rw [List.length_append] at later
    rw [List.flatten_cons,List.length_append,cuts]
    have past := cuts_past (before.length+chunk.length) rest
    constructor
    · rintro ⟨found,member,inside⟩
      rcases List.mem_cons.mp member with rfl | other
      · have place := first.mp inside
        refine ⟨place.1,by omega,fun cut ends => ?_⟩
        rcases List.mem_cons.mp ends with rfl | further
        · exact .inr place.2
        · exact .inr (Nat.le_trans place.2 (past cut further).1)
      · obtain ⟨lower,upper,clear⟩ := later.mp ⟨found,other,inside⟩
        refine ⟨by omega,by omega,fun cut ends => ?_⟩
        rcases List.mem_cons.mp ends with rfl | further
        · exact .inl lower
        · exact clear cut further
    · intro ⟨lower,upper,clear⟩
      rcases clear _ (List.mem_cons_self ..) with early | late
      · obtain ⟨found,member,inside⟩ := later.mpr ⟨early,by omega,fun cut ends => clear cut (List.mem_cons_of_mem _ ends)⟩
        exact ⟨found,List.mem_cons_of_mem _ member,inside⟩
      · exact ⟨chunk,List.mem_cons_self ..,first.mpr ⟨lower,late⟩⟩

-- A marker stands whole in one of the chunks exactly if the stream got past it and no
-- chunk ends inside it.
theorem marker_whole (once : Once stream marker p) (some : 0 < marker.length) (followed : chunks.flatten <+: stream) :
    (∃ chunk ∈ chunks,marker <:+: chunk) ↔ p+marker.length ≤ chunks.flatten.length ∧
      ∀ cut ∈ cuts 0 chunks,cut ≤ p ∨ p+marker.length ≤ cut := by
  have whole := marker_from once some [] followed
  simpa using whole

end Arthic.Chunks
