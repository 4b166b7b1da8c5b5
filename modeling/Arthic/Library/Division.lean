import Mathlib.Init

namespace Arthic.Division
universe u v
variable {Holder : Type u} {Item : Type v} {marked later : Item → Prop} {holds now : Holder → Item → Prop}

-- What is held is marked, and it has one holder.
structure Divided (marked : Item → Prop) (holds : Holder → Item → Prop) : Prop where
  taken : ∀ i x,holds i x → marked x
  single : ∀ i j x,holds i x → holds j x → i = j

-- One holder may come to hold more, of what was not marked.
theorem Divided.grow (divided : Divided marked holds) (holder : Holder)
    (old : ∀ i x,now i x → holds i x ∨ i = holder ∧ ¬ marked x) (taken : ∀ i x,now i x → later x) : Divided later now := by
  refine ⟨taken,?_⟩
  intro i j x first second
  cases old i x first with
  | inl mine =>
    cases old j x second with
    | inl yours => exact divided.single i j x mine yours
    | inr new => exact absurd (divided.taken i x mine) new.2
  | inr fresh =>
    cases old j x second with
    | inl yours => exact absurd (divided.taken j x yours) fresh.2
    | inr new => exact fresh.1.trans new.1.symm

theorem Divided.shrink (divided : Divided marked holds) (old : ∀ i x,now i x → holds i x)
    (taken : ∀ i x,now i x → later x) : Divided later now :=
  ⟨taken,fun i j x first second => divided.single i j x (old i x first) (old j x second)⟩

-- What holders who go give back is no loss to one who stays.
theorem Divided.spared {gone : Holder → Prop} {given : Item → Prop} (divided : Divided marked holds)
    (own : ∀ x,given x → ∃ j,gone j ∧ holds j x) (held : holds i x) (stays : ¬ gone i) : ¬ given x := by
  intro back
  obtain ⟨j,leaves,theirs⟩ := own x back
  cases divided.single i j x held theirs
  exact stays leaves

end Arthic.Division
