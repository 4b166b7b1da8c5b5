import Arthic.Library.ByteMemory
import Mathlib.Data.List.Induction

namespace Arthic.PageTree
open ByteMemory

-- Tables of 64-bit entries in byte memory. An entry of one level names the table of the
-- next; `depth` levels hold such entries and the tables below them hold the leaves. The
-- table that many levels below the root has `entries` entries.
abbrev Entry := BitVec 64

structure Format where
  present : Entry → Bool
  target : Entry → Nat
  entries : Nat → Nat
  depth : Nat
  absent : present 0#64 = false

def entry (mem : Memory) (table k : Nat) : Entry := BitVec.ofNat 64 (load mem (table+8*k) 8)
def setEntry (mem : Memory) (table k : Nat) (e : Entry) : Memory := store mem (table+8*k) 8 e.toNat

theorem entry_set (mem : Memory) (table k : Nat) (e : Entry) : entry (setEntry mem table k e) table k = e := by
  rw [entry,setEntry,load_store _ _ e.isLt,BitVec.ofNat_toNat,BitVec.setWidth_eq]

theorem entry_set_apart (mem : Memory) (e : Entry) (apart : table+8*k+8 ≤ other+8*l ∨ other+8*l+8 ≤ table+8*k) :
    entry (setEntry mem table k e) other l = entry mem other l := by
  rw [entry,setEntry,load_store_apart _ _ (by omega),entry]

theorem entry_congr (same : ∀ x < 8,after (table+8*k+x) = mem (table+8*k+x)) :
    entry after table k = entry mem table k := by
  rw [entry,load_congr same,entry]

theorem entry_zero (zero : ∀ x < 8,mem (table+8*k+x) = 0#8) : entry mem table k = 0#64 := by
  have digits : ∀ x < 8,mem (table+8*k+x) = digit 0 x := fun x below => by rw [zero x below]; simp [digit]
  rw [entry,load_digits digits,Nat.zero_mod]

-- The address field of an entry, from bit 12 up to bit `high`.
-- What an entry holds besides a field, when the rest has no bit in it.
theorem field_rest {mask flags : Entry} (plain : (flags &&& mask) = 0#64) (e : Entry) :
    (((e &&& mask) ||| flags) &&& ~~~mask) = flags := by
  apply BitVec.eq_of_getLsbD_eq
  intro i wide
  have clear := congrArg (·.getLsbD i) plain
  simp only [BitVec.getLsbD_and,BitVec.getLsbD_zero] at clear
  simp only [BitVec.getLsbD_and,BitVec.getLsbD_or,BitVec.getLsbD_not,wide,decide_true,Bool.true_and]
  cases bit : mask.getLsbD i with
  | true =>
    rw [bit,Bool.and_true] at clear
    simp [clear]
  | false => simp

section Field
variable {mask : Entry} (bits : ∀ i,mask.getLsbD i = decide (12 ≤ i ∧ i < high))
include bits

theorem field_aligned (e : Entry) : (e &&& mask).toNat % 2^12 = 0 := by
  apply Nat.eq_of_testBit_eq
  intro i
  rw [Nat.testBit_mod_two_pow,Nat.zero_testBit]
  by_cases low : i < 12
  · have clear : (e &&& mask).getLsbD i = false := by
      rw [BitVec.getLsbD_and,bits]
      simp
      omega
    rw [BitVec.testBit_toNat,clear,Bool.and_false]
  · simp [low]

theorem field_masked (aligned : phys % 2^12 = 0) (small : phys < 2^high) :
    (BitVec.ofNat 64 phys &&& mask) = BitVec.ofNat 64 phys := by
  apply BitVec.eq_of_getLsbD_eq
  intro i wide
  rw [BitVec.getLsbD_and,bits,BitVec.getLsbD_ofNat]
  by_cases low : i < 12
  · have zero : phys.testBit i = false := by
      have bit := Nat.testBit_mod_two_pow phys 12 i
      rw [aligned,Nat.zero_testBit] at bit
      simpa [low] using bit.symm
    simp [zero]
  · by_cases inside : i < high
    · simp [show 12 ≤ i by omega,inside]
    · have zero : phys.testBit i = false :=
        Nat.testBit_lt_two_pow (Nat.lt_of_lt_of_le small (Nat.pow_le_pow_right (by decide) (by omega)))
      simp [zero]
end Field

-- A loop that writes the entries of one table in order, from values the loop does not
-- disturb.
theorem fold_entries (value : Memory → Nat → Entry) {mem : Memory}
    (stable : ∀ other,(∀ x,x < table ∨ table+8*n ≤ x → other x = mem x) → ∀ i < n,value other i = value mem i) :
    let written := (List.range n).foldl (fun mem i => setEntry mem table i (value mem i)) mem
    (∀ x,x < table ∨ table+8*n ≤ x → written x = mem x) ∧ ∀ i < n,entry written table i = value mem i := by
  induction n with
  | zero => simp
  | succ n ih =>
    obtain ⟨outside,inside⟩ := ih fun other same i below =>
      stable other (fun x away => same x (by omega)) i (by omega)
    rw [List.range_succ,List.foldl_append]
    generalize (List.range n).foldl (fun mem i => setEntry mem table i (value mem i)) mem = written at *
    have last := stable written (fun x away => outside x (by omega)) n (by omega)
    simp only [List.foldl_cons,List.foldl_nil]
    refine ⟨?_,?_⟩
    · intro x away
      rw [setEntry,store,patch_outside _ _ (by omega),outside x (by omega)]
    · intro i below
      by_cases equal : i = n
      · rw [equal,entry_set,last]
      · rw [entry_set_apart _ _ (by omega),inside i (by omega)]

def next (F : Format) (mem : Memory) (table k : Nat) : Option Nat :=
  if F.present (entry mem table k) = true then some (F.target (entry mem table k)) else none

-- A path lists the index taken at each level.
def tableAt (F : Format) (mem : Memory) (root : Nat) (path : List Nat) : Option Nat := path.foldlM (next F mem) root

def InRange (F : Format) (path : List Nat) : Prop := ∀ l < path.length,path.getD l 0 < F.entries l

structure Held (F : Format) (mem : Memory) (root : Nat) (path : List Nat) (table : Nat) : Prop where
  short : path.length ≤ F.depth
  range : InRange F path
  leads : tableAt F mem root path = some table

variable {F : Format} {mem after : Memory} {root : Nat}

theorem range_snoc (F : Format) (path : List Nat) (k : Nat) :
    InRange F (path++[k]) ↔ InRange F path ∧ k < F.entries path.length := by
  constructor
  · intro range
    refine ⟨?_,?_⟩
    · intro l below
      have here := range l (by rw [List.length_append]; omega)
      simpa [List.getD_eq_getElem?_getD,List.getElem?_append_left below] using here
    · have last := range path.length (by simp)
      simpa [List.getD_eq_getElem?_getD] using last
  · rintro ⟨range,last⟩ l below
    rw [List.length_append,List.length_singleton] at below
    by_cases end_ : l = path.length
    · simpa [end_,List.getD_eq_getElem?_getD] using last
    · have here := range l (by omega)
      simpa [List.getD_eq_getElem?_getD,List.getElem?_append_left (show l < path.length by omega)] using here

theorem held_nil (F : Format) (mem : Memory) (root table : Nat) : Held F mem root [] table ↔ table = root := by
  constructor
  · intro held
    exact (Option.some.inj held.leads).symm
  · rintro rfl
    exact ⟨Nat.zero_le _,nofun,rfl⟩

theorem held_snoc (F : Format) (mem : Memory) (root table : Nat) (path : List Nat) (k : Nat) :
    Held F mem root (path++[k]) table ↔
      ∃ above,Held F mem root path above ∧ path.length < F.depth ∧ k < F.entries path.length ∧
        next F mem above k = some table := by
  have split : tableAt F mem root (path++[k]) = (tableAt F mem root path).bind fun above => next F mem above k := by
    simp [tableAt,List.foldlM_append]
  constructor
  · rintro ⟨short,range,leads⟩
    rw [split] at leads
    obtain ⟨above,upper,lower⟩ := Option.bind_eq_some_iff.mp leads
    rw [List.length_append,List.length_singleton] at short
    obtain ⟨range,last⟩ := (range_snoc F path k).mp range
    exact ⟨above,⟨by omega,range,upper⟩,by omega,last,lower⟩
  · rintro ⟨above,held,deeper,last,lower⟩
    refine ⟨by rw [List.length_append,List.length_singleton]; omega,(range_snoc F path k).mpr ⟨held.range,last⟩,?_⟩
    rw [split,held.leads]
    exact lower

theorem held_unique (first : Held F mem root path a) (second : Held F mem root path b) : a = b :=
  Option.some.inj (first.leads.symm.trans second.leads)

def span (F : Format) (path : List Nat) : Nat := 8*F.entries path.length
def Apart (a width b breadth : Nat) : Prop := a+width ≤ b ∨ b+breadth ≤ a

-- No two tables share a byte.
def Tree (F : Format) (mem : Memory) (root : Nat) : Prop :=
  ∀ p q a b,Held F mem root p a → Held F mem root q b → p ≠ q → Apart a (span F p) b (span F q)

theorem entry_kept (tree : Tree F mem root) (here : Held F mem root p a) (there : Held F mem root q b)
    (low : k < F.entries p.length) (lowToo : l < F.entries q.length) (different : p = q → k ≠ l) (e : Entry) :
    entry (setEntry mem a k e) b l = entry mem b l := by
  apply entry_set_apart
  by_cases same : p = q
  · subst same
    have := different rfl
    rw [held_unique here there]
    omega
  · have apart := tree p q a b here there same
    simp only [Apart,span] at apart
    omega

-- Memory that agrees on every table is the same tree.
theorem held_congr (same : ∀ q b,Held F mem root q b → ∀ x < span F q,after (b+x) = mem (b+x)) (path : List Nat)
    (table : Nat) : Held F after root path table ↔ Held F mem root path table := by
  induction path using List.reverseRecOn generalizing table with
  | nil => rw [held_nil,held_nil]
  | append_singleton path k ih =>
    rw [held_snoc,held_snoc]
    have step : ∀ above,Held F mem root path above → k < F.entries path.length →
        next F after above k = next F mem above k := by
      intro above held low
      have equal : entry after above k = entry mem above k := by
        apply entry_congr
        intro x below
        rw [Nat.add_assoc]
        exact same path above held _ (by simp only [span]; omega)
      rw [next,equal,next]
    constructor
    · rintro ⟨above,held,deeper,low,leads⟩
      have held := (ih above).mp held
      exact ⟨above,held,deeper,low,by rw [←step above held low]; exact leads⟩
    · rintro ⟨above,held,deeper,low,leads⟩
      exact ⟨above,(ih above).mpr held,deeper,low,by rw [step above held low]; exact leads⟩

theorem entry_same (same : ∀ q b,Held F mem root q b → ∀ x < span F q,after (b+x) = mem (b+x))
    (held : Held F mem root path table) (low : k < F.entries path.length) : entry after table k = entry mem table k := by
  apply entry_congr
  intro x below
  rw [Nat.add_assoc]
  exact same path table held _ (by simp only [span]; omega)

-- One entry changes and leads where it led, or is a leaf.
theorem held_set (tree : Tree F mem root) (here : Held F mem root p a) (low : k < F.entries p.length) {e : Entry}
    (keeps : p.length < F.depth → next F (setEntry mem a k e) a k = next F mem a k) (path : List Nat) (table : Nat) :
    Held F (setEntry mem a k e) root path table ↔ Held F mem root path table := by
  induction path using List.reverseRecOn generalizing table with
  | nil => rw [held_nil,held_nil]
  | append_singleton path l ih =>
    rw [held_snoc,held_snoc]
    have step : ∀ above,Held F mem root path above → path.length < F.depth → l < F.entries path.length →
        next F (setEntry mem a k e) above l = next F mem above l := by
      intro above held deeper lowToo
      by_cases same : p = path ∧ k = l
      · obtain ⟨rfl,rfl⟩ := same
        rw [held_unique held here]
        exact keeps deeper
      · rw [next,entry_kept tree here held low lowToo (fun equal index => same ⟨equal,index⟩),next]
    constructor
    · rintro ⟨above,held,deeper,lowToo,leads⟩
      have held := (ih above).mp held
      exact ⟨above,held,deeper,lowToo,by rw [←step above held deeper lowToo]; exact leads⟩
    · rintro ⟨above,held,deeper,lowToo,leads⟩
      exact ⟨above,(ih above).mpr held,deeper,lowToo,by rw [step above held deeper lowToo]; exact leads⟩

-- A table of zeros that no other table touches is hung where no table was.
theorem held_link (tree : Tree F mem root) (here : Held F mem root p a) (deeper : p.length < F.depth)
    (low : k < F.entries p.length) (none : next F mem a k = none) {e : Entry} (present : F.present e = true)
    (target : F.target e = new) (zero : ∀ x < span F (p++[k]),mem (new+x) = 0#8)
    (fresh : ∀ q b,Held F mem root q b → Apart new (span F (p++[k])) b (span F q)) (path : List Nat) (table : Nat) :
    Held F (setEntry mem a k e) root path table ↔
      Held F mem root path table ∨ path = p++[k] ∧ table = new := by
  have linked : next F (setEntry mem a k e) a k = some new := by
    rw [next,entry_set,if_pos present,target]
  have blank : ∀ l < F.entries (p.length+1),next F (setEntry mem a k e) new l = Option.none := by
    intro l below
    have apart := fresh p a here
    simp only [Apart,span,List.length_append,List.length_singleton] at apart
    have empty : entry mem new l = 0#64 := by
      apply entry_zero
      intro x small
      rw [Nat.add_assoc]
      exact zero _ (by simp only [span,List.length_append,List.length_singleton]; omega)
    rw [next,entry_set_apart _ _ (by omega),empty,F.absent]
    rfl
  induction path using List.reverseRecOn generalizing table with
  | nil =>
    rw [held_nil,held_nil]
    simp
  | append_singleton path l ih =>
    rw [held_snoc,held_snoc]
    have step : ∀ above,Held F mem root path above → l < F.entries path.length → (p = path → k ≠ l) →
        next F (setEntry mem a k e) above l = next F mem above l := by
      intro above held lowToo different
      rw [next,entry_kept tree here held low lowToo different,next]
    constructor
    · rintro ⟨above,held,further,lowToo,leads⟩
      rcases (ih above).mp held with old | ⟨rfl,rfl⟩
      · by_cases same : p = path ∧ k = l
        · obtain ⟨rfl,rfl⟩ := same
          rw [held_unique old here,linked] at leads
          exact .inr ⟨rfl,(Option.some.inj leads).symm⟩
        · rw [step above old lowToo (fun equal index => same ⟨equal,index⟩)] at leads
          exact .inl ⟨above,old,further,lowToo,leads⟩
      · rw [List.length_append,List.length_singleton] at lowToo
        rw [blank l lowToo] at leads
        cases leads
    · rintro (⟨above,old,further,lowToo,leads⟩ | ⟨equal,rfl⟩)
      · have different : p = path → k ≠ l := by
          rintro rfl rfl
          rw [held_unique old here,none] at leads
          cases leads
        exact ⟨above,(ih above).mpr (.inl old),further,lowToo,by rw [step above old lowToo different]; exact leads⟩
      · obtain ⟨rfl,last⟩ := List.append_inj' equal rfl
        cases List.singleton_inj.mp last
        exact ⟨a,(ih a).mpr (.inl here),deeper,low,linked⟩

theorem tree_congr (tree : Tree F mem root) (same : ∀ path table,Held F after root path table → Held F mem root path table) :
    Tree F after root := by
  intro p q a b first second different
  exact tree p q a b (same p a first) (same q b second) different

theorem tree_link (tree : Tree F mem root)
    (linked : ∀ path table,Held F after root path table → Held F mem root path table ∨ path = grown ∧ table = new)
    (fresh : ∀ q b,Held F mem root q b → Apart new (span F grown) b (span F q)) : Tree F after root := by
  intro p q a b first second different
  rcases linked p a first with old | ⟨rfl,rfl⟩
  · rcases linked q b second with other | ⟨rfl,rfl⟩
    · exact tree p q a b old other different
    · exact (fresh p a old).symm
  · rcases linked q b second with other | ⟨rfl,rfl⟩
    · exact fresh q b other
    · exact absurd rfl different

-- What the tree says of an index below a full path: the leaf, if it is present.
def leafAt (F : Format) (mem : Memory) (root : Nat) (path : List Nat) (k : Nat) : Option Entry :=
  (tableAt F mem root path).bind fun table =>
    if F.present (entry mem table k) = true then some (entry mem table k) else none

theorem leafAt_iff (full : path.length = F.depth) (range : InRange F path) : leafAt F mem root path k = some e ↔
    ∃ table,Held F mem root path table ∧ F.present e = true ∧ entry mem table k = e := by
  unfold leafAt
  rw [Option.bind_eq_some_iff]
  constructor
  · rintro ⟨table,leads,rest⟩
    split at rest
    · rename_i present
      cases Option.some.inj rest
      exact ⟨table,⟨Nat.le_of_eq full,range,leads⟩,present,rfl⟩
    · cases rest
  · rintro ⟨table,held,present,rfl⟩
    exact ⟨table,held.leads,if_pos present⟩

-- Two memories have the same leaves when they have the same full paths and the tables at
-- their ends agree; tables only one of them has are empty.
theorem leafAt_same (full : path.length = F.depth) (range : InRange F path)
    (kept : ∀ table,Held F mem root path table → Held F after root path table ∧ entry after table k = entry mem table k)
    (new : ∀ table,Held F after root path table → Held F mem root path table ∨ F.present (entry after table k) = false) :
    leafAt F after root path k = leafAt F mem root path k := by
  apply Option.ext
  intro e
  rw [leafAt_iff full range,leafAt_iff full range]
  constructor
  · rintro ⟨table,held,present,here⟩
    rcases new table held with old | absent
    · exact ⟨table,old,present,(kept table old).2.symm.trans here⟩
    · rw [here,present] at absent
      cases absent
  · rintro ⟨table,held,present,here⟩
    obtain ⟨still,same⟩ := kept table held
    exact ⟨table,still,present,same.trans here⟩

theorem leafAt_set (tree : Tree F mem root) (here : Held F mem root p a) (low : k < F.entries p.length) {e : Entry}
    (keeps : p.length < F.depth → next F (setEntry mem a k e) a k = next F mem a k) (full : path.length = F.depth)
    (range : InRange F path) (lowToo : l < F.entries path.length) : leafAt F (setEntry mem a k e) root path l =
      if path = p ∧ l = k then (if F.present e = true then some e else none) else leafAt F mem root path l := by
  have held := held_set tree here low keeps
  split
  · rename_i equal
    obtain ⟨rfl,rfl⟩ := equal
    unfold leafAt
    rw [((held path a).mpr here).leads,Option.bind_some,entry_set]
  · rename_i other
    refine leafAt_same full range ?_ fun table there => .inl ((held path table).mp there)
    intro table there
    exact ⟨(held path table).mpr there,entry_kept tree here there low lowToo (fun equal index => other ⟨equal.symm,index.symm⟩) e⟩

theorem leafAt_link (tree : Tree F mem root) (here : Held F mem root p a) (deeper : p.length < F.depth)
    (low : k < F.entries p.length) (none : next F mem a k = none) {e : Entry} (present : F.present e = true)
    (target : F.target e = new) (zero : ∀ x < span F (p++[k]),mem (new+x) = 0#8)
    (fresh : ∀ q b,Held F mem root q b → Apart new (span F (p++[k])) b (span F q)) (full : path.length = F.depth)
    (range : InRange F path) (lowToo : l < F.entries path.length) :
    leafAt F (setEntry mem a k e) root path l = leafAt F mem root path l := by
  have held := held_link tree here deeper low none present target zero fresh
  refine leafAt_same full range ?_ ?_
  · intro table there
    refine ⟨(held path table).mpr (.inl there),entry_kept tree here there low lowToo (fun equal => ?_) e⟩
    rw [equal] at deeper
    omega
  · intro table there
    rcases (held path table).mp there with old | ⟨rfl,rfl⟩
    · exact .inl old
    · have apart := fresh p a here
      have empty : entry mem table l = 0#64 := by
        apply entry_zero
        intro x small
        rw [Nat.add_assoc]
        exact zero _ (by simp only [span]; omega)
      rw [entry_set_apart _ _ (by simp only [Apart,span] at apart; omega),empty]
      exact .inr F.absent

end Arthic.PageTree
