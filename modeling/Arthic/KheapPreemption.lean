import Arthic.TaskLifetimes

namespace Arthic.KheapPreemption
open Kheap KheapBlocks KheapInvariant Scheduler SchedulerRing Transition Unsigned
variable {t : Target} {h : Heap} {live : List Nat}

-- Where a kmalloc that can be interrupted stands: about to test a block, about to go on
-- to the next one, about to split the block that fits, about to mark it used.
inductive Point where
  | test (b : Nat)
  | advance (b : Nat)
  | split (b : Nat)
  | mark (b : Nat)
  | done (ptr : Nat)
  deriving DecidableEq

def Point.busy : Point → Bool
  | .done _ => false
  | _ => true

def enter (h : Heap) (size : Nat) : Point := if h.heapStart = 0 ∨ size = 0 then .done 0 else .test h.heapStart

-- One elementary step; `size` is aligned.
def kmallocStep (t : Target) (h : Heap) (size : Nat) : Point → Heap × Point
  | .test b =>
    if b = 0 then (h,.done 0)
    else if get t h b .free ≠ 0 ∧ size ≤ get t h b .size then (h,.split b) else (h,.advance b)
  | .advance b => (h,.test (get t h b .next))
  | .split b => (split t h b size,.mark b)
  | .mark b => (put t h b .free 0,.done (payloadOf t b))
  | .done ptr => (h,.done ptr)

def stepped (t : Target) (size : Nat) (s : Heap × Point) : Heap × Point := kmallocStep t s.1 size s.2

-- Left alone, the steps do what kmalloc does.
theorem walk_agrees (laid : Laid t h before b blocks 0) (pos : 0 < b) (enough : blocks.length ≤ rounds) : ∃ n,
    (stepped t size)^[n] (h,.test (if blocks = [] then 0 else b)) =
      ((kmallocFrom t h size rounds (if blocks = [] then 0 else b)).2,
        .done (kmallocFrom t h size rounds (if blocks = [] then 0 else b)).1) := by
  induction blocks generalizing before b rounds with
  | nil =>
    refine ⟨1,?_⟩
    cases rounds with
    | zero => rfl
    | succ rounds => rfl
  | cons block blocks ih =>
    obtain ⟨here,_,tail⟩ := laid
    obtain ⟨_,_,_,nextIs,_⟩ := header_fields here
    cases rounds with
    | zero => simp at enough
    | succ rounds =>
      rw [if_neg (List.cons_ne_nil _ _),kmallocFrom,if_neg (Nat.ne_of_gt pos)]
      by_cases fits : get t h b .free ≠ 0 ∧ size ≤ get t h b .size
      · refine ⟨3,?_⟩
        have tested : stepped t size (h,.test b) = (h,.split b) := by
          simp only [stepped,kmallocStep]
          rw [if_neg (Nat.ne_of_gt pos),if_pos fits]
        rw [if_pos fits,Function.iterate_succ_apply,tested]
        rfl
      · have tested : stepped t size (h,.test b) = (h,.advance b) := by
          simp only [stepped,kmallocStep]
          rw [if_neg (Nat.ne_of_gt pos),if_neg fits]
        obtain ⟨n,rest⟩ := ih tail (by omega) (by simpa using enough)
        refine ⟨n+2,?_⟩
        rw [if_neg fits,nextIs,Function.iterate_succ_apply,tested,Function.iterate_succ_apply]
        simp only [stepped,kmallocStep]
        rw [nextIs]
        exact rest

theorem steps_agree (held : Held t h blocks live) (size : Nat) : ∃ n,
    (stepped t (alignUp t size))^[n] (h,enter h size) = ((kmalloc t h size).2,.done (kmalloc t h size).1) := by
  unfold enter kmalloc
  split
  · exact ⟨0,rfl⟩
  · have enough : blocks.length ≤ h.heapBytes := by
      rw [held.bytes,←held.tiled]
      exact length_extent t blocks
    have some : blocks ≠ [] := by
      intro empty
      have tiled := held.tiled
      rw [empty] at tiled
      cases tiled
    have walked := @walk_agrees t h 0 h.heapStart blocks h.heapBytes (alignUp t size) held.laid held.started enough
    rwa [if_neg some] at walked

-- A used block is a wall: nothing is merged across it.
theorem absorb_wall (block : Block) (left : List Block) (used : wall.free = false) (right : List Block) :
    absorb t block (left++wall::right) = absorb t block left++wall::right := by
  cases left with
  | nil => simp [absorb,used]
  | cons next left =>
    simp only [List.cons_append,absorb]
    split
    · rfl
    · rfl

theorem coalesce_append (front : List Block) (some : merged ≠ []) (right : List Block) :
    coalesce t front (merged++right) = coalesce t front merged++right := by
  unfold coalesce
  split
  · rfl
  · rename_i last _
    cases merged with
    | nil => exact absurd rfl some
    | cons first merged =>
      split
      · simp only [List.cons_append,absorb]
        split
        · simp
        · simp
      · simp

theorem absorb_some (t : Target) (block : Block) (rest : List Block) : absorb t block rest ≠ [] := by
  cases rest with
  | nil => simp [absorb]
  | cons next rest =>
    rw [absorb]
    split
    · simp
    · simp

theorem coalesce_behind (wall : front = [] → ∀ last ∈ left.getLast?,last.free = false) (merged : List Block) :
    coalesce t (left++front) merged = left++coalesce t front merged := by
  rcases List.eq_nil_or_concat front with rfl | ⟨front,last,rfl⟩
  · rw [List.append_nil,coalesce]
    split
    · rename_i none
      rw [List.getLast?_eq_none_iff.mp none]
      rfl
    · rename_i last found
      rw [if_neg (by simp [wall rfl last found])]
      rfl
  · rw [List.concat_eq_append,←List.append_assoc,coalesce,coalesce,List.getLast?_concat,List.getLast?_concat,
      List.dropLast_concat,List.dropLast_concat]
    dsimp only
    split
    · rw [List.append_assoc]
    · simp

-- The block at the cut cannot be merged into the one before it: it is the first, or it
-- stays used, or the one before it stays used.
def Sheltered (t : Target) (start : Nat) (front : List Block) (block : Block) (dead : List Nat) : Prop :=
  front = [] ∨ (block.free = false ∧ payloadOf t (start+extent t front) ∉ dead) ∨
    ∃ earlier size,front = earlier++[⟨size,false⟩] ∧ payloadOf t (start+extent t earlier) ∉ dead

theorem coalesce_head (block : Block) (front merged : List Block) : ∃ grown rest,
    coalesce t (block::front) merged = grown::rest ∧ grown.free = block.free ∧ block.size ≤ grown.size ∧
      (block.free = false ∨ front ≠ [] → grown = block) := by
  rcases List.eq_nil_or_concat front with rfl | ⟨front,last,rfl⟩
  · unfold coalesce
    simp only [List.getLast?_singleton,List.dropLast_singleton,List.nil_append]
    split
    · rename_i free
      cases merged with
      | nil => exact ⟨block,[],rfl,rfl,Nat.le_refl _,fun _ => rfl⟩
      | cons next merged =>
        rw [absorb]
        split
        · refine ⟨_,_,rfl,free.symm,by simp only; omega,?_⟩
          rintro (used | some)
          · rw [free] at used
            cases used
          · exact absurd rfl some
        · exact ⟨_,_,rfl,rfl,Nat.le_refl _,fun _ => rfl⟩
    · exact ⟨_,_,rfl,rfl,Nat.le_refl _,fun _ => rfl⟩
  · rw [List.concat_eq_append,←List.cons_append,coalesce,List.getLast?_concat,List.dropLast_concat]
    dsimp only
    split
    · exact ⟨_,_,rfl,rfl,Nat.le_refl _,fun _ => rfl⟩
    · exact ⟨_,_,rfl,rfl,Nat.le_refl _,fun _ => rfl⟩

-- What kfree does to a list cut at a sheltered block. A block that was just cut in two
-- keeps its rest behind it.
def Recut (t : Target) (start : Nat) (front : List Block) (block : Block) (back : List Block) (dead : List Nat)
    (after : List Block) : Prop :=
  ∃ newFront newBlock newBack,after = newFront++newBlock::newBack ∧ extent t newFront = extent t front ∧
    Sheltered t start newFront newBlock dead ∧ (block.free = true → newBlock.free = true) ∧ block.size ≤ newBlock.size ∧
    (block.free = true → ∀ r rest,back = ⟨r,true⟩::rest → Separated front → Separated back →
      newBlock = block ∧ (∃ r rest,newBack = ⟨r,true⟩::rest) ∧ Separated newFront ∧ Separated newBack)

theorem separated_used (used : wall.free = false) :
    Separated (left++wall::right) ↔ Separated left ∧ Separated right := by
  unfold Separated
  rw [List.isChain_append,List.isChain_cons]
  constructor
  · rintro ⟨before,⟨_,behind⟩,_⟩
    exact ⟨before,behind⟩
  · rintro ⟨before,behind⟩
    refine ⟨before,⟨fun _ _ both => ?_,behind⟩,fun _ _ first here both => ?_⟩
    · rw [used] at both
      cases both.1
    · cases Option.some.inj here
      rw [used] at both
      cases both.2

theorem sheltered_wall (shelter : Sheltered t start front block dead)
    (lost : block.free = true ∨ payloadOf t (start+extent t front) ∈ dead) :
    ∀ last ∈ front.getLast?,last.free = false := by
  rcases shelter with rfl | ⟨used,kept⟩ | ⟨earlier,size,rfl,_⟩
  · exact fun _ none => nomatch none
  · rcases lost with free | gone
    · rw [used] at free
      cases free
    · exact absurd gone kept
  · intro last found
    rw [List.getLast?_concat] at found
    cases Option.some.inj found
    rfl

-- The block itself is freed.
theorem recut_here (shelter : Sheltered t start front ⟨size,false⟩ dead) (gone : payloadOf t (start+extent t front) ∈ dead) :
    Recut t start front ⟨size,false⟩ back dead (coalesce t front (absorb t ⟨size,true⟩ back)) := by
  have wall := sheltered_wall shelter (.inr gone)
  have moved := @coalesce_behind t [] front (fun _ => wall) (absorb t ⟨size,true⟩ back)
  rw [List.append_nil] at moved
  obtain ⟨grown,rest,shape,_,large,_⟩ := @coalesce_head t ⟨size,true⟩ [] back
  have merged : absorb t ⟨size,true⟩ back = grown::rest := by
    simpa [coalesce] using shape
  rw [moved]
  refine ⟨front,grown,rest,by rw [merged]; rfl,rfl,?_,(fun free => by cases free),large,fun free => by cases free⟩
  rcases shelter with first | ⟨_,kept⟩ | before
  · exact .inl first
  · exact absurd gone kept
  · exact .inr (.inr before)

-- A block behind it is freed.
theorem recut_behind (shelter : Sheltered t start front block dead) (more : List Block) (s : Nat) (g : List Block) :
    Recut t start front block (more++⟨s,false⟩::g) dead (coalesce t (front++block::more) (absorb t ⟨s,true⟩ g)) := by
  obtain ⟨grown,rest,shape,free,large,same⟩ := @coalesce_head t block more (absorb t ⟨s,true⟩ g)
  rw [coalesce_behind fun none => absurd none (List.cons_ne_nil _ _),shape]
  refine ⟨front,grown,rest,rfl,rfl,?_,fun isFree => free.trans isFree,large,?_⟩
  · rcases shelter with first | ⟨used,kept⟩ | before
    · exact .inl first
    · rw [same (.inl used)]
      exact .inr (.inl ⟨used,kept⟩)
    · exact .inr (.inr before)
  · intro _ r tail cut left right
    cases more with
    | nil => cases cut
    | cons second more =>
      obtain ⟨rfl,_⟩ := List.cons.inj cut
      obtain ⟨before,behind⟩ := (separated_used rfl).mp right
      have moved : coalesce t ([block]++⟨r,true⟩::more) (absorb t ⟨s,true⟩ g) = _ :=
        coalesce_behind (fun none => absurd none (List.cons_ne_nil _ _)) _
      simp only [List.singleton_append] at moved
      obtain ⟨_,parts⟩ := List.cons.inj (shape.symm.trans moved)
      obtain ⟨next,others,form,nextFree,_,_⟩ := @coalesce_head t ⟨r,true⟩ more (absorb t ⟨s,true⟩ g)
      refine ⟨same (.inr (List.cons_ne_nil _ _)),⟨next.size,others,?_⟩,left,?_⟩
      · obtain ⟨size,flag⟩ := next
        change flag = true at nextFree
        rw [parts,form,nextFree]
      · rw [parts]
        exact separated_coalesce before (separated_absorb behind)

-- A block in front of it is freed, with the wall between the two.
theorem recut_front (f left : List Block) (s : Nat) (used : wall.free = false) :
    coalesce t f (absorb t ⟨s,true⟩ (left++wall::right)) = coalesce t f (absorb t ⟨s,true⟩ left)++wall::right ∧
    extent t (coalesce t f (absorb t ⟨s,true⟩ left)) = extent t (f++⟨s,false⟩::left) ∧
    (Separated (f++⟨s,false⟩::left) → Separated (coalesce t f (absorb t ⟨s,true⟩ left))) := by
  refine ⟨?_,?_,?_⟩
  · rw [absorb_wall _ _ used,coalesce_append _ (absorb_some t _ _)]
  · rw [coalesce_extent,extent_append,absorb_extent,extent_append]
    rfl
  · intro separated
    obtain ⟨before,behind⟩ := (separated_used rfl).mp separated
    exact separated_coalesce before (separated_absorb behind)

theorem recut (cut : front++block::back = f++⟨s,false⟩::g) (shelter : Sheltered t start front block dead)
    (freed : payloadOf t (start+extent t f) ∈ dead) :
    Recut t start front block back dead (coalesce t f (absorb t ⟨s,true⟩ g)) := by
  rcases List.append_eq_append_iff.mp cut with ⟨more,rfl,rest⟩ | ⟨more,rfl,rest⟩
  · cases more with
    | nil =>
      obtain ⟨rfl,rfl⟩ := List.cons.inj rest
      rw [List.append_nil] at *
      exact recut_here shelter freed
    | cons first more =>
      obtain ⟨rfl,rfl⟩ := List.cons.inj rest
      exact recut_behind shelter more s g
  · cases more with
    | nil =>
      obtain ⟨rfl,rfl⟩ := List.cons.inj rest
      rw [List.append_nil] at *
      exact recut_here shelter freed
    | cons first more =>
      rw [List.cons_append] at rest
      obtain ⟨rfl,rfl⟩ := List.cons.inj rest
      rcases shelter with none | ⟨used,kept⟩ | ⟨earlier,size,shape,kept⟩
      · simp at none
      · obtain ⟨after,same,_⟩ := @recut_front t _ back f more s used
        rw [after]
        refine ⟨_,_,_,rfl,same,.inr (.inl ⟨used,?_⟩),id,Nat.le_refl _,?_⟩
        · rwa [same]
        · intro free
          rw [used] at free
          cases free
      · rcases List.eq_nil_or_concat more with rfl | ⟨more,last,rfl⟩
        · obtain ⟨rfl,_⟩ := List.append_inj' shape rfl
          exact absurd freed kept
        · rw [List.concat_eq_append] at *
          rw [←List.cons_append,←List.append_assoc] at shape
          obtain ⟨rfl,same⟩ := List.append_inj' shape rfl
          cases List.singleton_inj.mp same
          obtain ⟨after,same,separates⟩ := @recut_front t ⟨size,false⟩ (block::back) f more s rfl
          rw [List.append_assoc,List.singleton_append,after]
          refine ⟨coalesce t f (absorb t ⟨s,true⟩ more)++[⟨size,false⟩],block,back,by simp,?_,.inr (.inr ⟨_,size,rfl,?_⟩),id,
            Nat.le_refl _,?_⟩
          · rw [extent_append,same,←extent_append,List.append_assoc,List.cons_append]
          · rwa [same]
          · intro _ r rest cut left right
            rw [←List.cons_append,←List.append_assoc] at left
            obtain ⟨before,_⟩ := (separated_used rfl).mp left
            exact ⟨rfl,⟨r,rest,cut⟩,(separated_used rfl).mpr ⟨separates before,List.isChain_nil⟩,right⟩

-- kmalloc stands on block b of the list; none of `dead` can merge the block away.
def On (t : Target) (h : Heap) (live : List Nat) (b : Nat) (holds : List Block → Block → List Block → Prop) : Prop :=
  ∃ front block back,Loose t h (front++block::back) live ∧ b = h.heapStart+extent t front ∧ holds front block back

def Posted (t : Target) (h : Heap) (live dead : List Nat) (b : Nat) (holds : List Block → Block → List Block → Prop) : Prop :=
  On t h live b fun front block back => Sheltered t h.heapStart front block dead ∧ holds front block back

def Walking (front : List Block) (block : Block) (back : List Block) : Prop := Separated (front++block::back)
def Fitting (size : Nat) (front : List Block) (block : Block) (back : List Block) : Prop :=
  Separated (front++block::back) ∧ Fits size block
def Divided (size : Nat) (front : List Block) (block : Block) (back : List Block) : Prop :=
  block = ⟨size,true⟩ ∧ (∃ r rest,back = ⟨r,true⟩::rest) ∧ Separated front ∧ Separated back

theorem freed_recut (loose : Loose t h (front++block::back) live) (shelter : Sheltered t h.heapStart front block dead)
    (member : ptr ∈ live) (gone : ptr ∈ dead) :
    ∃ after,Loose t (kfree t h ptr).2 after (live.erase ptr) ∧ (kfree t h ptr).2.heapStart = h.heapStart ∧
      Recut t h.heapStart front block back dead after ∧ (Separated (front++block::back) → Separated after) := by
  obtain ⟨f,s,g,cut,rfl⟩ := payload_cut ((loose.owned ptr).mp member)
  have changed := recut cut shelter gone
  rw [cut] at loose ⊢
  refine ⟨_,loose_freed loose,(kfree_parts loose).2.1,changed,?_⟩
  intro separated
  obtain ⟨left,right⟩ := (separated_used rfl).mp separated
  exact separated_coalesce left (separated_absorb right)

theorem walking_freed (posted : Posted t h live dead b Walking) (member : ptr ∈ live) (gone : ptr ∈ dead) :
    Posted t (kfree t h ptr).2 (live.erase ptr) dead b Walking := by
  obtain ⟨front,block,back,loose,place,shelter,separated⟩ := posted
  obtain ⟨_,freed,start,⟨newFront,newBlock,newBack,rfl,same,sheltered,_⟩,separates⟩ := freed_recut loose shelter member gone
  refine ⟨newFront,newBlock,newBack,freed,?_,?_,separates separated⟩
  · rw [place,start,same]
  · rwa [start]

theorem fitting_freed (posted : Posted t h live dead b (Fitting size)) (member : ptr ∈ live) (gone : ptr ∈ dead) :
    Posted t (kfree t h ptr).2 (live.erase ptr) dead b (Fitting size) := by
  obtain ⟨front,block,back,loose,place,shelter,separated,free,large⟩ := posted
  obtain ⟨_,freed,start,⟨newFront,newBlock,newBack,rfl,same,sheltered,stays,grows,_⟩,separates⟩ :=
    freed_recut loose shelter member gone
  refine ⟨newFront,newBlock,newBack,freed,?_,?_,separates separated,stays free,Nat.le_trans large grows⟩
  · rw [place,start,same]
  · rwa [start]

theorem divided_freed (posted : Posted t h live dead b (Divided size)) (member : ptr ∈ live) (gone : ptr ∈ dead) :
    Posted t (kfree t h ptr).2 (live.erase ptr) dead b (Divided size) := by
  obtain ⟨front,block,back,loose,place,shelter,rfl,⟨r,rest,rfl⟩,left,right⟩ := posted
  obtain ⟨_,freed,start,⟨newFront,newBlock,newBack,rfl,same,sheltered,_,_,divided⟩,_⟩ := freed_recut loose shelter member gone
  refine ⟨newFront,newBlock,newBack,freed,?_,?_,divided rfl r rest rfl left right⟩
  · rw [place,start,same]
  · rwa [start]

def freed (t : Target) (h : Heap) (ptrs : List Nat) : Heap := ptrs.foldl (fun h ptr => (kfree t h ptr).2) h

theorem freed_keeps {holds : Heap → List Nat → Prop}
    (keeps : ∀ {h live ptr},holds h live → ptr ∈ live → ptr ∈ dead → holds (kfree t h ptr).2 (live.erase ptr))
    (start : holds h live) (ptrs : List Nat) (owned : ptrs ⊆ live) (once : ptrs.Nodup) (among : ptrs ⊆ dead) :
    holds (freed t h ptrs) (live.diff ptrs) := by
  induction ptrs generalizing h live with
  | nil => exact start
  | cons ptr ptrs ih =>
    obtain ⟨apart,rest⟩ := List.nodup_cons.mp once
    have next := keeps start (owned (List.mem_cons_self ..)) (among (List.mem_cons_self ..))
    rw [List.diff_cons]
    refine ih next ?_ rest (List.subset_of_cons_subset among)
    intro other later
    refine (List.mem_erase_of_ne ?_).mpr (owned (List.mem_cons_of_mem _ later))
    rintro rfl
    exact apart later

-- The same read off the headers.
def Spares (t : Target) (h : Heap) (b : Nat) (dead : List Nat) : Prop :=
  get t h b .prev = 0 ∨ (get t h b .free = 0 ∧ payloadOf t b ∉ dead) ∨
    (get t h (get t h b .prev) .free = 0 ∧ payloadOf t (get t h b .prev) ∉ dead)

theorem spares_sheltered (loose : Loose t h (front++block::back) live) (spares : Spares t h (h.heapStart+extent t front) dead) :
    Sheltered t h.heapStart front block dead := by
  have started := loose.started
  obtain ⟨before,here,_⟩ := laid_append.mp loose.laid
  obtain ⟨_,_,freeIs,_,prevIs⟩ := header_fields here
  unfold Spares at spares
  rw [prevIs,freeIs] at spares
  rcases List.eq_nil_or_concat front with rfl | ⟨earlier,last,rfl⟩
  · exact .inl rfl
  · rw [List.concat_eq_append] at *
    rw [lastAddress_snoc] at spares
    have lastFree := (header_fields (laid_append.mp before).2.1).2.2.1
    rw [lastFree] at spares
    obtain ⟨size,free⟩ := last
    rcases spares with none | ⟨used,kept⟩ | ⟨used,kept⟩
    · omega
    · refine .inr (.inl ⟨?_,kept⟩)
      cases flagged : block.free with
      | false => rfl
      | true => simp [flagged,flag] at used
    · cases free with
      | true => simp [flag] at used
      | false => exact .inr (.inr ⟨earlier,size,rfl,kept⟩)

theorem on_posted (on : On t h live b holds) (spares : Spares t h b dead) : Posted t h live dead b holds := by
  obtain ⟨front,block,back,loose,rfl,held⟩ := on
  exact ⟨front,block,back,loose,rfl,spares_sheltered loose spares,held⟩

theorem posted_on (posted : Posted t h live dead b holds) : On t h live b holds := by
  obtain ⟨front,block,back,loose,place,_,held⟩ := posted
  exact ⟨front,block,back,loose,place,held⟩

def Stands (t : Target) (h : Heap) (live : List Nat) (size : Nat) : Point → Prop
  | .test b => (b = 0 ∧ ∃ blocks,Held t h blocks live) ∨ On t h live b Walking
  | .advance b => On t h live b Walking
  | .split b => On t h live b (Fitting size)
  | .mark b => On t h live b (Fitting size) ∨ On t h live b (Divided size)
  | .done ptr => ∃ blocks,Held t h blocks (if ptr = 0 then live else ptr::live)

-- Reaping these tasks does not merge away the block that kmalloc stands on.
def Careful (t : Target) (h : Heap) (dead : List Nat) : Point → Prop
  | .test b => b = 0 ∨ Spares t h b dead
  | .advance b => Spares t h b dead
  | .split b => Spares t h b dead
  | .mark b => Spares t h b dead
  | .done _ => True

instance (t : Target) (h : Heap) (b : Nat) (dead : List Nat) : Decidable (Spares t h b dead) :=
  inferInstanceAs (Decidable (_ ∨ _ ∧ _ ∨ _ ∧ _))

instance (t : Target) (h : Heap) (dead : List Nat) : (point : Point) → Decidable (Careful t h dead point)
  | .test _ => inferInstanceAs (Decidable (_ ∨ Spares ..))
  | .advance _ => inferInstanceAs (Decidable (Spares ..))
  | .split _ => inferInstanceAs (Decidable (Spares ..))
  | .mark _ => inferInstanceAs (Decidable (Spares ..))
  | .done _ => isTrue trivial

theorem on_freed {holds : List Block → Block → List Block → Prop}
    (keeps : ∀ {h live ptr},Posted t h live dead b holds → ptr ∈ live → ptr ∈ dead →
      Posted t (kfree t h ptr).2 (live.erase ptr) dead b holds)
    (on : On t h live b holds) (spares : Spares t h b dead) (owned : dead ⊆ live) (once : dead.Nodup) :
    On t (freed t h dead) (live.diff dead) b holds := by
  refine @posted_on t (freed t h dead) (live.diff dead) dead b holds ?_
  exact @freed_keeps t h live dead (fun h live => Posted t h live dead b holds) keeps (on_posted on spares) dead owned once
    (List.Subset.refl _)

theorem held_freed_all (held : Held t h blocks live) (owned : dead ⊆ live) (once : dead.Nodup) :
    ∃ after,Held t (freed t h dead) after (live.diff dead) := by
  refine @freed_keeps t h live dead (fun h live => ∃ blocks,Held t h blocks live) ?_ ⟨blocks,held⟩ dead owned once
    (List.Subset.refl _)
  rintro h live ptr ⟨blocks,held⟩ member _
  exact (held_kfree held member).2

theorem on_nonzero (on : On t h live b holds) : b ≠ 0 := by
  obtain ⟨_,_,_,loose,rfl,_⟩ := on
  have started := loose.started
  omega

theorem stands_freed (stands : Stands t h live size point) (careful : Careful t h dead point) (busy : point.busy = true)
    (owned : dead ⊆ live) (once : dead.Nodup) : Stands t (freed t h dead) (live.diff dead) size point := by
  cases point with
  | test b =>
    rcases stands with ⟨zero,_,held⟩ | on
    · exact .inl ⟨zero,held_freed_all held owned once⟩
    · exact .inr (on_freed walking_freed on (careful.resolve_left (on_nonzero on)) owned once)
  | advance b => exact on_freed walking_freed stands careful owned once
  | split b => exact on_freed fitting_freed stands careful owned once
  | mark b =>
    rcases stands with on | on
    · exact .inl (on_freed fitting_freed on careful owned once)
    · exact .inr (on_freed divided_freed on careful owned once)
  | done ptr => cases busy

theorem test_stands (on : On t h live b Walking) : Stands t h live size (kmallocStep t h size (.test b)).2 := by
  have real := on_nonzero on
  obtain ⟨front,block,back,loose,rfl,separated⟩ := on
  obtain ⟨_,sizeIs,freeIs,_,_⟩ := header_fields (laid_append.mp loose.laid).2.1
  simp only [kmallocStep]
  rw [if_neg real,freeIs,sizeIs]
  by_cases fits : flag block.free ≠ 0 ∧ size ≤ block.size
  · rw [if_pos fits]
    exact ⟨front,block,back,loose,rfl,separated,(KheapRuns.flag_free _).mp fits.1,fits.2⟩
  · rw [if_neg fits]
    exact ⟨front,block,back,loose,rfl,separated⟩

theorem advance_stands (on : On t h live b Walking) : Stands t h live size (.test (get t h b .next)) := by
  obtain ⟨front,block,back,loose,rfl,separated⟩ := on
  obtain ⟨_,_,_,nextIs,_⟩ := header_fields (laid_append.mp loose.laid).2.1
  rw [nextIs]
  cases back with
  | nil => exact .inl ⟨rfl,_,loose.held separated⟩
  | cons next back =>
    rw [if_neg (List.cons_ne_nil _ _)]
    refine .inr ⟨front++[block],next,back,?_,?_,?_⟩
    · simpa using loose
    · rw [extent_append]
      simp only [extent]
      omega
    · simpa [Walking] using separated

theorem split_stands (on : On t h live b (Fitting size)) (aligned : t.alignment ∣ size) :
    Stands t (split t h b size) live size (.mark b) := by
  obtain ⟨front,⟨wide,free⟩,back,loose,rfl,separated,isFree,large⟩ := on
  change free = true at isFree
  subst isFree
  have divided := loose_divide loose large aligned
  have start := (split_keeps t h (h.heapStart+extent t front) size).1
  unfold divide at divided
  obtain ⟨left,right,_⟩ := List.isChain_append.mp separated
  split at divided
  · exact .inl ⟨front,_,back,divided,by rw [start],separated,rfl,large⟩
  · refine .inr ⟨front,_,_::back,divided,by rw [start],rfl,⟨_,_,rfl⟩,left,?_⟩
    obtain ⟨joint,rest⟩ := List.isChain_cons.mp right
    exact List.isChain_cons.mpr ⟨fun next first both => joint next first ⟨rfl,both.2⟩,rest⟩

theorem mark_stands (stands : Stands t h live size (.mark b)) : Stands t (put t h b .free 0) live size (.done (payloadOf t b)) := by
  have real : payloadOf t b ≠ 0 := by
    have pos := header_pos t
    simp only [payloadOf]
    omega
  change ∃ blocks,Held t (put t h b .free 0) blocks (if payloadOf t b = 0 then live else payloadOf t b::live)
  rw [if_neg real]
  rcases stands with ⟨front,⟨wide,free⟩,back,loose,rfl,separated,isFree,_⟩ | ⟨front,block,back,loose,rfl,rfl,_,left,right⟩
  · change free = true at isFree
    subst isFree
    obtain ⟨left,right,_⟩ := List.isChain_append.mp separated
    exact ⟨_,(loose_mark loose).held ((separated_used rfl).mpr ⟨left,(List.isChain_cons.mp right).2⟩)⟩
  · exact ⟨_,(loose_mark loose).held ((separated_used rfl).mpr ⟨left,right⟩)⟩

theorem test_same (t : Target) (h : Heap) (size b : Nat) : (kmallocStep t h size (.test b)).1 = h := by
  simp only [kmallocStep]
  split
  · rfl
  · split
    · rfl
    · rfl

theorem stands_step (stands : Stands t h live size point) (aligned : t.alignment ∣ size) :
    Stands t (kmallocStep t h size point).1 live size (kmallocStep t h size point).2 := by
  cases point with
  | test b =>
    rcases stands with ⟨rfl,held⟩ | on
    · exact held
    · rw [test_same]
      exact test_stands on
  | advance b => exact advance_stands stands
  | split b => exact split_stands stands aligned
  | mark b => exact mark_stands stands
  | done ptr => exact stands

theorem enter_stands (held : Held t h blocks live) (size : Nat) : Stands t h live (alignUp t size) (enter h size) := by
  unfold enter
  split
  · exact ⟨blocks,held⟩
  · cases blocks with
    | nil => cases held.tiled
    | cons block blocks => exact .inr ⟨[],block,blocks,held.loose,rfl,held.separated⟩

-- The scheduler reads nothing of the heap: it frees the tasks it reaps.
theorem flush_swap (s : Sched) (g : Heap) (t : Nat) : taskFlushOutput {s with heap:=g} t = {taskFlushOutput s t with heap:=g} := by
  unfold taskFlushOutput
  dsimp only
  split
  · rfl
  · rfl

theorem reap_swap (s : Sched) (g : Heap) (prev dead : Nat) :
    reap {s with heap:=g} prev dead = {reap s prev dead with heap:=(kfree .i386 g dead).2} := by
  unfold reap
  have linked : setNext {s with heap:=g} prev (s.tasks dead).next = {setNext s prev (s.tasks dead).next with heap:=g} := rfl
  dsimp only
  rw [linked,flush_swap]
  generalize taskFlushOutput (setNext s prev (s.tasks dead).next) dead = now
  dsimp only
  split
  · rfl
  · rfl

theorem wake_swap (s : Sched) (g : Heap) (rounds t : Nat) :
    wakeFrom {s with heap:=g} rounds t = {wakeFrom s rounds t with heap:=g} := by
  have woken : setState {s with heap:=g} t .ready = {setState s t .ready with heap:=g} := rfl
  induction rounds generalizing s t with
  | zero =>
    simp only [wakeFrom]
    split
    · exact woken
    · rfl
  | succ rounds ih =>
    simp only [wakeFrom]
    split
    · rw [woken]
      generalize setState s t .ready = now
      dsimp only
      split
      · rfl
      · exact ih now _ rfl
    · dsimp only
      split
      · rfl
      · exact ih s _ rfl

theorem scan_swap (s : Sched) (guard scan : Nat) : ∃ dead,
    (scanFrom s guard scan).1.reaped.map Reaping.task = s.reaped.map Reaping.task++dead ∧
    ∀ g,scanFrom {s with heap:=g} guard scan =
      ({(scanFrom s guard scan).1 with heap:=freed .i386 g dead},(scanFrom s guard scan).2) := by
  induction guard generalizing s scan with
  | zero => exact ⟨[],by simp [scanFrom],fun g => rfl⟩
  | succ guard ih =>
    unfold scanFrom
    dsimp only
    split
    · exact ⟨[],by simp,fun g => rfl⟩
    · split
      · obtain ⟨dead,reaped,swaps⟩ := ih (reap s scan (s.tasks scan).next) scan
        refine ⟨(s.tasks scan).next::dead,?_,?_⟩
        · rw [reaped,(TaskLifetimes.reap_course s scan (s.tasks scan).next).reaped,List.append_assoc,List.singleton_append]
        · intro g
          rw [reap_swap,swaps]
          rfl
      · exact ⟨[],by simp,fun g => rfl⟩
      · exact ih s _

theorem resume_swap (s : Sched) (g : Heap) (next : Nat) : resume {s with heap:=g} next = {resume s next with heap:=g} := by
  have switches : ∀ target,switchTo {s with heap:=g} target = {switchTo s target with heap:=g} := by
    intro target
    simp only [switchTo,setState,setTask]
    split <;> dsimp only <;> split <;> dsimp only <;> split <;> rfl
  unfold resume
  dsimp only
  split
  · exact switches next
  · split
    · rfl
    · exact switches _

theorem schedule_swap (s : Sched) : ∃ dead,(taskSchedule s).reaped.map Reaping.task = s.reaped.map Reaping.task++dead ∧
    ∀ g,taskSchedule {s with heap:=g} = {taskSchedule s with heap:=freed .i386 g dead} := by
  unfold taskSchedule wakeSleepers
  dsimp only
  split
  · exact ⟨[],by simp,fun g => rfl⟩
  · obtain ⟨dead,reaped,swaps⟩ := scan_swap (wakeFrom s ringGuard s.taskRing) ringGuard (wakeFrom s ringGuard s.taskRing).current
    refine ⟨dead,?_,?_⟩
    · rw [(TaskLifetimes.resume_course _ _).reaped,List.append_nil,reaped,
        (TaskLifetimes.wakeFrom_course s ringGuard s.taskRing).reaped,List.append_nil]
    · intro g
      rw [wake_swap]
      dsimp only
      rw [swaps,resume_swap]

theorem loose_perm (loose : Loose t h blocks live) (perm : live.Perm after) : Loose t h blocks after :=
  {loose with
    owned:=fun ptr => (perm.mem_iff.symm).trans (loose.owned ptr)
    distinct:=perm.nodup_iff.mp loose.distinct}

theorem on_perm (on : On t h live b holds) (perm : live.Perm after) : On t h after b holds := by
  obtain ⟨front,block,back,loose,place,held⟩ := on
  exact ⟨front,block,back,loose_perm loose perm,place,held⟩

theorem stands_perm (stands : Stands t h live size point) (perm : live.Perm after) : Stands t h after size point := by
  cases point with
  | test b => exact stands.imp (fun ⟨zero,blocks,held⟩ => ⟨zero,blocks,held_perm held perm⟩) fun on => on_perm on perm
  | advance b => exact on_perm stands perm
  | split b => exact on_perm stands perm
  | mark b => exact stands.imp (fun on => on_perm on perm) fun on => on_perm on perm
  | done ptr =>
    obtain ⟨blocks,held⟩ := stands
    refine ⟨blocks,held_perm held ?_⟩
    split
    · exact perm
    · exact perm.cons ptr

-- The task `caller` is inside kmalloc, with interrupts on; `size` is the aligned request.
structure Machine where
  sched : Sched
  others : List Nat
  caller : Nat
  size : Nat
  point : Point

inductive Event where
  | step
  | tick

def ticked (s : Sched) : Sched := taskSchedule {s with ticks:=wrap 32 (s.ticks+1)}

-- The tasks that a tick reaps.
def reaps (s : Sched) : List Nat := ((ticked s).reaped.map Reaping.task).drop s.reaped.length

-- The caller goes on when it is its turn again. Ticks that come later do not matter here.
def Allowed (m : Machine) : Event → Prop
  | .step => m.sched.current = m.caller ∧ m.point.busy = true
  | .tick => m.point.busy = true

instance : (m : Machine) → (event : Event) → Decidable (Allowed m event)
  | _,.step => instDecidableAnd
  | _,.tick => inferInstanceAs (Decidable (_ = true))

def apply (m : Machine) : Event → Machine
  | .step =>
    let (heap,point) := kmallocStep .i386 m.sched.heap m.size m.point
    {m with sched:={m.sched with heap:=heap},point:=point}
  | .tick => {m with sched:=ticked m.sched}

def called (m : SchedulerRuns.Machine) (size : Nat) : Machine :=
  ⟨m.sched,m.others,m.sched.current,alignUp .i386 size,enter m.sched.heap size⟩

def Called (kernelEnd : Nat) (mbi : Pmm.MultibootInfo) (m : Machine) : Prop :=
  ∃ before size,Reached (SchedulerRuns.scheduler kernelEnd mbi) before ∧ size < 2^32 ∧ m = called before size

def preempted (kernelEnd : Nat) (mbi : Pmm.MultibootInfo) : System Machine Event :=
  guarded (Called kernelEnd mbi) Allowed apply

def Spared (m : Machine) : Event → Prop
  | .step => True
  | .tick => Careful .i386 m.sched.heap (reaps m.sched) m.point

instance : (m : Machine) → (event : Event) → Decidable (Spared m event)
  | _,.step => isTrue trivial
  | _,.tick => inferInstanceAs (Decidable (Careful ..))

def spared (kernelEnd : Nat) (mbi : Pmm.MultibootInfo) : System Machine Event :=
  guarded (Called kernelEnd mbi) (fun m event => Allowed m event ∧ Spared m event) apply

-- Between the split and the mark two free blocks touch, so the ring is stated over some
-- heap with the same payloads.
def Kept (m : Machine) : Prop :=
  Kheap.Target.alignment .i386 ∣ m.size ∧ ∃ ring g,Ring {m.sched with heap:=g} ring m.others ∧ Running m.sched ∧
    Stands .i386 m.sched.heap (ring++m.others) m.size m.point

theorem called_kept (started : Called kernelEnd mbi m) : Kept m := by
  obtain ⟨before,size,reached,_,rfl⟩ := started
  obtain ⟨ring,valid,running⟩ := SchedulerRuns.runs_kept reached
  obtain ⟨blocks,held⟩ := valid.heap
  exact ⟨alignUp_aligned _ _,ring,before.sched.heap,valid,running,enter_stands held size⟩

theorem diff_own (dead rest : List Nat) : (dead++rest).diff dead = rest := by
  induction dead with
  | nil => simp
  | cons first dead ih => rw [List.cons_append,List.diff_cons,List.erase_cons_head,ih]

theorem ticked_parts (s : Sched) : ∀ g,ticked {s with heap:=g} = {ticked s with heap:=freed .i386 g (reaps s)} := by
  obtain ⟨dead,reaped,swaps⟩ := schedule_swap {s with ticks:=wrap 32 (s.ticks+1)}
  have same : reaps s = dead := by
    unfold reaps ticked
    rw [reaped]
    simp
  rw [same]
  exact swaps

theorem kept_tick (kept : Kept m) (busy : m.point.busy = true) (careful : Careful .i386 m.sched.heap (reaps m.sched) m.point) :
    Kept (apply m .tick) := by
  obtain ⟨aligned,ring,g,valid,running,stands⟩ := kept
  have later : Ring {m.sched with heap:=g,ticks:=wrap 32 (m.sched.ticks+1)} ring m.others := {valid with}
  have swapped := ticked_parts m.sched
  obtain ⟨dead,left,course,after,perm,_⟩ := TaskLifetimes.schedule_passes later
  obtain ⟨_,_,runs⟩ := ring_schedule later
  change Running (ticked {m.sched with heap:=g}) at runs
  change Ring (ticked {m.sched with heap:=g}) left m.others at after
  have own : ticked m.sched = {ticked m.sched with heap:=freed .i386 m.sched.heap (reaps m.sched)} := swapped m.sched.heap
  have same : reaps m.sched = dead := by
    have reaped := course.reaped
    change (ticked {m.sched with heap:=g}).reaped.map Reaping.task = m.sched.reaped.map Reaping.task++dead at reaped
    rw [swapped g] at reaped
    unfold reaps
    rw [reaped]
    simp
  rw [swapped g] at after runs
  have all : (ring++m.others).Perm (dead++(left++m.others)) := by
    rw [←List.append_assoc]
    exact perm.append_right m.others
  have distinct : (ring++m.others).Nodup := by
    obtain ⟨_,held⟩ := valid.heap
    exact held.distinct
  have once : dead.Nodup := (List.nodup_append.mp (all.nodup_iff.mp distinct)).1
  have owned : dead ⊆ ring++m.others := fun ptr member => all.mem_iff.mpr (List.mem_append_left _ member)
  rw [same] at careful
  have moved := stands_freed stands careful busy owned once
  have remaining : ((ring++m.others).diff dead).Perm (left++m.others) := by
    have cut := all.diff_right dead
    rwa [diff_own] at cut
  refine ⟨aligned,left,_,after,runs,?_⟩
  change Stands .i386 (ticked m.sched).heap (left++m.others) m.size m.point
  rw [own,same]
  exact stands_perm moved remaining

theorem kept_step (kept : Kept m) : Kept (apply m .step) := by
  obtain ⟨aligned,ring,g,valid,running,stands⟩ := kept
  exact ⟨aligned,ring,g,valid,running,stands_step stands aligned⟩

theorem runs_kept (path : Reached (spared kernelEnd mbi) m) : Kept m := by
  apply path.invariant
  · exact fun _ => called_kept
  · rintro m event next kept ⟨⟨allowed,careful⟩,rfl⟩
    cases event with
    | step => exact kept_step kept
    | tick => exact kept_tick kept allowed careful

-- What is live when kmalloc has returned `ptr`.
def liveAfter (ptr : Nat) (ring others : List Nat) : List Nat := if ptr = 0 then ring++others else ptr::(ring++others)

def Intact (m : Machine) (ptr : Nat) : Prop :=
  ∃ ring list,SchedulerRuns.Valid m.sched ring ∧ KheapRuns.Valid .i386 ⟨m.sched.heap,liveAfter ptr ring m.others⟩ list ∧
    (ptr ≠ 0 → headerOf .i386 ptr ∈ list ∧ ptr ∉ ring++m.others)

theorem heap_survives_ticks (path : Reached (spared kernelEnd mbi) m) (returned : m.point = .done ptr) : Intact m ptr := by
  obtain ⟨_,ring,g,valid,running,stands⟩ := runs_kept path
  rw [returned] at stands
  obtain ⟨blocks,held⟩ := stands
  have heap := KheapRuns.held_valid held
  have tasks := SchedulerRuns.ring_valid valid running
  refine ⟨ring,_,{tasks with},heap,?_⟩
  intro given
  have live : (if ptr = 0 then ring++m.others else ptr::(ring++m.others)) = ptr::(ring++m.others) := if_neg given
  rw [live] at held heap
  obtain ⟨b,listed,_,rfl⟩ := (heap.live ptr).mp (List.mem_cons_self ..)
  refine ⟨?_,(List.nodup_cons.mp held.distinct).1⟩
  rwa [show headerOf .i386 (payloadOf .i386 b) = b by simp [headerOf,payloadOf]]

-- Task 0 has made a thread and killed it; the thread is still to be reaped.
def corpse : SchedulerRuns.Machine :=
  SchedulerRuns.apply (SchedulerRuns.apply SchedulerRuns.freshStart (.taskCreateEx 0 0 0)) (.taskKill 1)

theorem corpse_reached : Reached (SchedulerRuns.scheduler 0x101000 KheapRuns.roomyMap) corpse :=
  ⟨SchedulerRuns.freshStart,_,SchedulerRuns.freshStart_started,(Runs.nil.act trivial).act trivial⟩

theorem corpse_called (small : size < 2^32) : Called 0x101000 KheapRuns.roomyMap (called corpse size) :=
  ⟨corpse,size,corpse_reached,small,rfl⟩

-- The tick comes while the first block is looked at: the thread's block is merged with
-- the free one behind it, and kmalloc finds the whole.
def earlyTick : List Event := [.tick,.step,.step,.step,.step,.step]
def served : Machine := earlyTick.foldl apply (called corpse 328)

theorem served_reached : Reached (spared 0x101000 KheapRuns.roomyMap) served :=
  reached_by (corpse_called (by decide)) (by decide +kernel)

theorem heap_survives_ticks_small : served.point = .done 0x102178 ∧ Intact served 0x102178 := by
  have returned : served.point = .done 0x102178 := by decide +kernel
  exact ⟨returned,heap_survives_ticks served_reached returned⟩

-- The tick comes between the test and the split: kmalloc cuts up a block that is no
-- longer there.
def lateTick : List Event := [.step,.step,.step,.step,.step,.tick,.step,.step]
def broken : Machine := lateTick.foldl apply (called corpse 328)

theorem tick_loses_block : ∃ m ptr,Reached (preempted 0x101000 KheapRuns.roomyMap) m ∧ m.point = .done ptr ∧ ¬ Intact m ptr := by
  refine ⟨broken,0x1022D8,?_,by decide +kernel,?_⟩
  · exact reached_by (corpse_called (by decide)) (by decide +kernel)
  · rintro ⟨ring,list,_,heap,given⟩
    obtain ⟨listed,_⟩ := given (by decide)
    have start : broken.sched.heap.heapStart = 0x102000 := by decide +kernel
    have first : get .i386 broken.sched.heap 0x102000 .next = 0x102160 := by decide +kernel
    have second : get .i386 broken.sched.heap 0x102160 .next = 0 := by decide +kernel
    have head := heap.head
    have linked := heap.linked
    dsimp only at head linked
    rw [start] at head
    generalize broken.sched.heap = h at *
    cases list with
    | nil => cases head
    | cons a list =>
      cases Option.some.inj head
      cases list with
      | nil => simp [headerOf,header_i386] at listed
      | cons b list =>
        obtain ⟨one,rest⟩ := List.isChain_cons_cons.mp linked
        obtain rfl := first.symm.trans one.next
        cases list with
        | nil => simp [headerOf,header_i386] at listed
        | cons c list =>
          have two := (List.isChain_cons_cons.mp rest).1
          have order := two.ordered
          rw [←two.next,second] at order
          omega

end Arthic.KheapPreemption
