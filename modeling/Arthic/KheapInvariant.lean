import Arthic.KheapBlocks
import Arthic.PmmOwnership

namespace Arthic.KheapInvariant
open Kheap KheapBlocks ByteMemory Unsigned Transition
variable {t : Target} {h : Heap} {blocks : List Block} {live : List Nat}

def Separated (blocks : List Block) : Prop := blocks.IsChain fun b c => ¬ (b.free = true ∧ c.free = true)

-- The heap holds these blocks and exactly the payloads of the used ones are live.
structure Held (t : Target) (h : Heap) (blocks : List Block) (live : List Nat) : Prop where
  started : 0 < h.heapStart
  bytes : h.heapBytes = heapSize
  laid : Laid t h 0 h.heapStart blocks 0
  tiled : extent t blocks = heapSize
  room : h.heapStart+heapSize < 2^t.bits
  aligned : t.alignment ∣ h.heapStart
  separated : Separated blocks
  owned : ∀ ptr, ptr ∈ live ↔ ptr ∈ payloads t h.heapStart blocks
  distinct : live.Nodup

-- The same without the claim that no two free blocks touch.
structure Loose (t : Target) (h : Heap) (blocks : List Block) (live : List Nat) : Prop where
  started : 0 < h.heapStart
  bytes : h.heapBytes = heapSize
  laid : Laid t h 0 h.heapStart blocks 0
  tiled : extent t blocks = heapSize
  room : h.heapStart+heapSize < 2^t.bits
  aligned : t.alignment ∣ h.heapStart
  owned : ∀ ptr, ptr ∈ live ↔ ptr ∈ payloads t h.heapStart blocks
  distinct : live.Nodup

theorem Held.loose (held : Held t h blocks live) : Loose t h blocks live := {held with}

theorem Loose.held (loose : Loose t h blocks live) (separated : Separated blocks) : Held t h blocks live :=
  {loose with separated}

theorem heapSize_modest (t : Target) (small : size ≤ heapSize) : size+headerSize t+t.alignment < 2^t.bits := by
  have value : heapSize = 1048576 := by decide
  cases t
  · simp only [header_i386,Target.alignment,Target.bits,Target.wordBytes]; omega
  · simp only [header_amd64,Target.alignment,Target.bits,Target.wordBytes]; omega

theorem alignUp_aligned (t : Target) (n : Nat) : t.alignment ∣ alignUp t n := Nat.dvd_mul_left _ _

theorem length_extent (t : Target) (blocks : List Block) : blocks.length ≤ extent t blocks := by
  induction blocks with
  | nil => simp
  | cons block blocks ih =>
    have pos := header_pos t
    simp only [List.length_cons,extent]
    omega

theorem payload_bounds (member : ptr ∈ payloads t start blocks) :
    start+headerSize t ≤ ptr ∧ ptr ≤ start+extent t blocks := by
  induction blocks generalizing start with
  | nil => cases member
  | cons block blocks ih =>
    rw [extent]
    rcases List.mem_append.mp member with here | later
    · split at here
      · cases here
      · rw [List.mem_singleton.mp here,payloadOf]
        omega
    · have bounds := ih later
      omega

-- First fit: the walk stops at the first free block that is large enough, or runs off
-- the end having seen that there is none.
def Fits (size : Nat) (block : Block) : Prop := block.free = true ∧ size ≤ block.size

theorem kmallocFrom_parts (laid : Laid t h before b blocks 0) (pos : 0 < b) (enough : blocks.length ≤ steps) :
    ((∀ block ∈ blocks, ¬ Fits size block) ∧
      kmallocFrom t h size steps (if blocks = [] then 0 else b) = (0,h)) ∨
    ∃ front block back, blocks = front++block::back ∧ (∀ earlier ∈ front, ¬ Fits size earlier) ∧ Fits size block ∧
      kmallocFrom t h size steps (if blocks = [] then 0 else b) =
        (payloadOf t (b+extent t front),
          put t (split t h (b+extent t front) size) (b+extent t front) .free 0) := by
  induction blocks generalizing before b steps with
  | nil =>
    refine .inl ⟨by simp,?_⟩
    cases steps <;> simp [kmallocFrom]
  | cons block blocks ih =>
    obtain ⟨here,_,tail⟩ := laid
    obtain ⟨_,sizeIs,freeIs,nextIs,_⟩ := header_fields here
    cases steps with
    | zero => simp at enough
    | succ steps =>
      have test : (get t h b .free ≠ 0 ∧ size ≤ get t h b .size) ↔ Fits size block := by
        rw [freeIs,sizeIs,Fits]
        cases block.free <;> simp [flag]
      have start : (if block::blocks = [] then 0 else b) = b := if_neg (List.cons_ne_nil _ _)
      rw [start,kmallocFrom,if_neg (Nat.ne_of_gt pos)]
      by_cases fits : Fits size block
      · refine .inr ⟨[],block,blocks,rfl,by simp,fits,?_⟩
        rw [if_pos (test.mpr fits)]
        rfl
      · rw [if_neg (fun both => fits (test.mp both)),nextIs]
        rcases ih tail (by omega) (by simpa using enough) with ⟨none,walked⟩ | ⟨front,found,back,rfl,skipped,taken,walked⟩
        · refine .inl ⟨?_,walked⟩
          intro other member
          rcases List.mem_cons.mp member with rfl | later
          · exact fits
          · exact none other later
        · refine .inr ⟨block::front,found,back,rfl,?_,taken,?_⟩
          · intro other member
            rcases List.mem_cons.mp member with rfl | later
            · exact fits
            · exact skipped other later
          · rw [walked]
            simp only [extent]
            rw [show b+headerSize t+block.size+extent t front = b+(headerSize t+block.size+extent t front) by omega]

theorem split_keeps (t : Target) (h : Heap) (b size : Nat) :
    (split t h b size).heapStart = h.heapStart ∧ (split t h b size).heapBytes = h.heapBytes := by
  unfold split
  dsimp only
  split
  · exact ⟨rfl,rfl⟩
  · split <;> exact ⟨rfl,rfl⟩

theorem merge_keeps (t : Target) (h : Heap) (b : Nat) :
    (mergeWithNext t h b).heapStart = h.heapStart ∧ (mergeWithNext t h b).heapBytes = h.heapBytes := by
  unfold mergeWithNext
  dsimp only
  split
  · exact ⟨rfl,rfl⟩
  · split <;> exact ⟨rfl,rfl⟩

-- A list is cut at one block; whatever happens at and behind that block leaves the
-- headers in front of it alone.
theorem laid_front (laid : Laid t h before start (front++back) after) (some : back ≠ []) (other : back' ≠ [])
    (others : ∀ c, c+headerSize t ≤ start+extent t front → header t h' c = header t h c)
    (rest : Laid t h' (lastAddress t before start front) (start+extent t front) back' after) :
    Laid t h' before start (front++back') after := by
  rw [laid_append,if_neg some] at laid
  rw [laid_append,if_neg other]
  refine ⟨laid_congr ?_ laid.1,rest⟩
  intro c member
  exact others c (address_bounds member).2

theorem separated_carve (separated : Separated (front++block::back)) (free : block.free = true) :
    Separated (front++(carve t block size++back)) := by
  unfold Separated at *
  rw [List.isChain_append] at separated ⊢
  obtain ⟨left,right,joint⟩ := separated
  rw [List.isChain_cons] at right
  refine ⟨left,?_,?_⟩
  · unfold carve
    split
    · exact List.isChain_cons.mpr ⟨by simp,right.2⟩
    · refine List.isChain_cons.mpr ⟨by simp,List.isChain_cons.mpr ⟨?_,right.2⟩⟩
      intro next first both
      exact right.1 next first ⟨free,both.2⟩
  · intro last lastIn first firstIn both
    have used : first.free = false := by
      unfold carve at firstIn
      split at firstIn <;> cases Option.some.inj firstIn <;> rfl
    rw [used] at both
    cases both.2

theorem kmalloc_parts (held : Held t h blocks live) (size : Nat) :
    kmalloc t h size = (0,h) ∨
    ∃ front block back, blocks = front++block::back ∧ (∀ earlier ∈ front, ¬ Fits (alignUp t size) earlier) ∧
      Fits (alignUp t size) block ∧ kmalloc t h size = (payloadOf t (h.heapStart+extent t front),
        put t (split t h (h.heapStart+extent t front) (alignUp t size)) (h.heapStart+extent t front) .free 0) := by
  unfold kmalloc
  split
  · exact .inl rfl
  · have enough : blocks.length ≤ h.heapBytes := by
      rw [held.bytes,←held.tiled]
      exact length_extent t blocks
    have some : blocks ≠ [] := by
      intro empty
      have tiled := held.tiled
      rw [empty] at tiled
      cases tiled
    have walk := @kmallocFrom_parts _ _ _ _ _ _ (alignUp t size) held.laid held.started enough
    rw [if_neg some] at walk
    rcases walk with ⟨_,walked⟩ | found
    · exact .inl walked
    · exact .inr found

theorem laid_flag (value : Bool) (laid : Laid t h before start (front++⟨size,old⟩::back) after) :
    Laid t (put t h (start+extent t front) .free (flag value)) before start (front++⟨size,value⟩::back) after := by
  obtain ⟨_,here,aligned,tail⟩ := laid_append.mp laid
  refine laid_front laid (List.cons_ne_nil _ _) (List.cons_ne_nil _ _)
    (fun c before => header_put_far (.inr before)) ⟨?_,aligned,laid_put_far (.inl (Nat.le_add_right _ _)) tail⟩
  rw [header_free here (by cases value <;> decide)]

theorem divide_extent (t : Target) (block : Block) (wanted : Nat) :
    extent t (divide t block wanted) = headerSize t+block.size := by
  unfold divide
  split
  · simp only [extent]
    omega
  · simp only [extent]
    omega

theorem divide_payloads (t : Target) (start wanted : Nat) (free : block.free = true) :
    payloads t start (divide t block wanted) = [] := by
  unfold divide
  split
  · simp [payloads,free]
  · simp [payloads,free]

theorem loose_divide (loose : Loose t h (front++⟨size,true⟩::back) live) (large : wanted ≤ size)
    (aligned : t.alignment ∣ wanted) :
    Loose t (split t h (h.heapStart+extent t front) wanted) (front++(divide t ⟨size,true⟩ wanted++back)) live := by
  have started := loose.started
  have room := loose.room
  have tiled := loose.tiled
  rw [extent_append] at tiled
  have tail := (laid_append.mp loose.laid).2
  have modest : size ≤ heapSize := by simp only [extent] at tiled; omega
  obtain ⟨divided,others⟩ := laid_divide tail (by omega) (heapSize_modest t modest) large aligned (by omega)
  obtain ⟨sameStart,sameBytes⟩ := split_keeps t h (h.heapStart+extent t front) wanted
  have behind : extent t (divide t ⟨size,true⟩ wanted) = headerSize t+size := divide_extent t ⟨size,true⟩ wanted
  refine ⟨?_,?_,?_,?_,?_,?_,?_,loose.distinct⟩
  · rw [sameStart]; exact started
  · rw [sameBytes]; exact loose.bytes
  · rw [sameStart]
    refine laid_front loose.laid (List.cons_ne_nil _ _) ?_ others divided
    intro empty
    have none := (List.append_eq_nil_iff.mp empty).1
    have pos := header_pos t
    rw [none,extent] at behind
    omega
  · rw [extent_append,extent_append,behind]; simp only [extent] at tiled; omega
  · rw [sameStart]; exact room
  · rw [sameStart]; exact loose.aligned
  · intro ptr
    rw [sameStart,loose.owned ptr,payloads_append,payloads_append,payloads_append,divide_payloads t _ _ rfl,behind]
    simp only [payloads,if_true,List.nil_append,Nat.add_assoc]

theorem loose_mark (loose : Loose t h (front++⟨size,true⟩::back) live) :
    Loose t (put t h (h.heapStart+extent t front) .free 0) (front++⟨size,false⟩::back)
      (payloadOf t (h.heapStart+extent t front)::live) := by
  have tiled := loose.tiled
  have pos := header_pos t
  refine ⟨loose.started,loose.bytes,laid_flag false loose.laid,?_,loose.room,loose.aligned,?_,?_⟩
  · rw [extent_append] at tiled ⊢
    exact tiled
  · intro ptr
    have owned := loose.owned ptr
    change _ ↔ ptr ∈ payloads t h.heapStart _
    rw [payloads_append,List.mem_cons,owned,payloads_append]
    simp only [payloads,if_true,List.nil_append,List.mem_append,List.mem_singleton,Bool.false_eq_true,if_false]
    tauto
  · refine List.nodup_cons.mpr ⟨?_,loose.distinct⟩
    intro already
    have inside := (loose.owned _).mp already
    rw [payloads_append,List.mem_append] at inside
    simp only [payloads,if_true,List.nil_append,payloadOf] at inside
    rcases inside with earlier | later
    · have bounds := payload_bounds earlier
      omega
    · have bounds := payload_bounds later
      omega

theorem divide_head (t : Target) (block : Block) (wanted : Nat) : ∃ size rest,divide t block wanted = ⟨size,block.free⟩::rest ∧
    carve t block wanted = ⟨size,false⟩::rest := by
  unfold divide carve
  split
  · exact ⟨_,_,rfl,rfl⟩
  · exact ⟨_,_,rfl,rfl⟩

theorem held_carve (held : Held t h (front++block::back) live) (fits : Fits wanted block)
    (aligned : t.alignment ∣ wanted) :
    Held t (put t (split t h (h.heapStart+extent t front) wanted) (h.heapStart+extent t front) .free 0)
      (front++(carve t block wanted++back)) (payloadOf t (h.heapStart+extent t front)::live) := by
  obtain ⟨size,free⟩ := block
  obtain ⟨isFree,large⟩ := fits
  change free = true at isFree
  subst isFree
  have separated : Separated (front++(carve t ⟨size,true⟩ wanted++back)) := separated_carve held.separated rfl
  have divided := loose_divide held.loose large aligned
  have sameStart := (split_keeps t h (h.heapStart+extent t front) wanted).1
  obtain ⟨head,rest,parts,marked⟩ := divide_head t ⟨size,true⟩ wanted
  rw [parts] at divided
  have used := loose_mark divided
  rw [sameStart] at used
  rw [marked] at separated ⊢
  exact used.held separated

theorem held_kmalloc (held : Held t h blocks live) (size : Nat) :
    kmalloc t h size = (0,h) ∨
    (kmalloc t h size).1 ≠ 0 ∧ ∃ after, Held t (kmalloc t h size).2 after ((kmalloc t h size).1::live) := by
  rcases kmalloc_parts held size with failed | ⟨front,block,back,rfl,_,fits,taken⟩
  · exact .inl failed
  · refine .inr ?_
    rw [taken]
    refine ⟨?_,_,held_carve held fits (alignUp_aligned t size)⟩
    have started := held.started
    simp only [payloadOf]
    omega

-- A live pointer names exactly one used block.
theorem payload_cut (member : ptr ∈ payloads t start blocks) :
    ∃ front size back, blocks = front++⟨size,false⟩::back ∧ ptr = payloadOf t (start+extent t front) := by
  induction blocks generalizing start with
  | nil => cases member
  | cons block blocks ih =>
    rcases List.mem_append.mp member with here | later
    · obtain ⟨size,free⟩ := block
      cases free with
      | true => simp at here
      | false => exact ⟨[],size,blocks,rfl,by simpa [extent] using here⟩
    · obtain ⟨front,size,back,rfl,position⟩ := ih later
      refine ⟨block::front,size,back,rfl,?_⟩
      rw [position]
      simp only [payloadOf,extent]
      omega

theorem absorb_extent (t : Target) (block : Block) (rest : List Block) :
    extent t (absorb t block rest) = extent t (block::rest) := by
  cases rest with
  | nil => rfl
  | cons next rest =>
    rw [absorb]
    split
    · simp only [extent]; omega
    · rfl

theorem absorb_payloads (t : Target) (start : Nat) (free : block.free = true) (rest : List Block) :
    payloads t start (absorb t block rest) = payloads t start (block::rest) := by
  cases rest with
  | nil => rfl
  | cons next rest =>
    rw [absorb]
    split
    · rename_i nextFree
      simp only [payloads,free,nextFree,if_true,List.nil_append]
      rw [show start+headerSize t+(block.size+headerSize t+next.size) =
        start+headerSize t+block.size+headerSize t+next.size by omega]
    · rfl

theorem absorb_head (t : Target) (free : block.free = true) (rest : List Block) :
    ∃ first others, absorb t block rest = first::others ∧ first.free = true := by
  cases rest with
  | nil => exact ⟨block,[],rfl,free⟩
  | cons next rest =>
    rw [absorb]
    split
    · exact ⟨_,_,rfl,rfl⟩
    · exact ⟨_,_,rfl,free⟩

-- Behind a free block that absorbed its successor there is no free block.
theorem separated_absorb (separated : Separated rest) : Separated (absorb t block rest) := by
  unfold Separated at *
  cases rest with
  | nil => exact List.isChain_singleton _
  | cons next rest =>
    rw [List.isChain_cons] at separated
    rw [absorb]
    split
    · rename_i nextFree
      refine List.isChain_cons.mpr ⟨?_,separated.2⟩
      intro after first both
      exact separated.1 after first ⟨nextFree,both.2⟩
    · rename_i nextUsed
      refine List.isChain_cons.mpr ⟨?_,List.isChain_cons.mpr separated⟩
      intro after first both
      cases Option.some.inj first
      exact nextUsed both.2

-- What kfree makes of the list: the block absorbs a free successor, then a free
-- predecessor absorbs the result.
def coalesce (t : Target) (front merged : List Block) : List Block :=
  match front.getLast? with
  | none => merged
  | some last => if last.free then front.dropLast++absorb t last merged else front++merged

theorem laid_backward (laid : Laid t h 0 start (front++merged) 0) (shape : merged = first::others)
    (room : start+extent t (front++merged) < 2^t.bits) (pos : 0 < start) :
    Laid t (if get t h (start+extent t front) .prev ≠ 0 ∧ get t h (get t h (start+extent t front) .prev) .free ≠ 0
      then mergeWithNext t h (get t h (start+extent t front) .prev) else h) 0 start (coalesce t front merged) 0 := by
  have tail := (laid_append.mp laid).2
  have prevIs : get t h (start+extent t front) .prev = lastAddress t 0 start front := by
    rw [shape] at tail
    exact (header_fields tail.1).2.2.2.2
  rw [prevIs]
  rcases List.eq_nil_or_concat front with rfl | ⟨earlier,last,rfl⟩
  · simpa [lastAddress,coalesce] using laid
  · rw [List.concat_eq_append] at *
    rw [lastAddress_snoc]
    rw [List.append_assoc,List.singleton_append] at laid room
    obtain ⟨_,fromLast⟩ := laid_append.mp laid
    have freeIs := (header_fields fromLast.1).2.2.1
    rw [coalesce,List.getLast?_concat,List.dropLast_concat,freeIs]
    obtain ⟨lastSize,lastFree⟩ := last
    cases lastFree with
    | false => simpa [flag] using laid
    | true =>
      rw [extent_append] at room
      obtain ⟨absorbed,kept⟩ := laid_absorb fromLast (by omega) (by omega)
      rw [if_pos ⟨by omega,by simp [flag]⟩]
      exact laid_front laid (List.cons_ne_nil _ _) (by
        obtain ⟨head,rest,form,_⟩ := @absorb_head ⟨lastSize,true⟩ t rfl merged
        simp [form]) kept absorbed

theorem coalesce_extent (t : Target) (front merged : List Block) :
    extent t (coalesce t front merged) = extent t (front++merged) := by
  rcases List.eq_nil_or_concat front with rfl | ⟨earlier,last,rfl⟩
  · rfl
  · rw [List.concat_eq_append,coalesce,List.getLast?_concat,List.dropLast_concat]
    dsimp only
    split
    · rw [extent_append,absorb_extent,List.append_assoc,extent_append]
      rfl
    · rfl

theorem coalesce_payloads (t : Target) (start : Nat) (front merged : List Block) :
    payloads t start (coalesce t front merged) = payloads t start (front++merged) := by
  rcases List.eq_nil_or_concat front with rfl | ⟨earlier,last,rfl⟩
  · rfl
  · rw [List.concat_eq_append,coalesce,List.getLast?_concat,List.dropLast_concat]
    dsimp only
    split
    · rename_i free
      rw [payloads_append,absorb_payloads t _ free,List.append_assoc,payloads_append]
      rfl
    · rfl

theorem separated_coalesce (left : Separated front) (right : Separated merged) :
    Separated (coalesce t front merged) := by
  rcases List.eq_nil_or_concat front with rfl | ⟨earlier,last,rfl⟩
  · exact right
  · rw [List.concat_eq_append] at *
    rw [coalesce,List.getLast?_concat,List.dropLast_concat]
    dsimp only
    unfold Separated at left
    rw [List.isChain_append] at left
    split
    · rename_i free
      refine List.isChain_append.mpr ⟨left.1,separated_absorb right,?_⟩
      intro before beforeIn first _ both
      exact left.2.2 before beforeIn last rfl ⟨both.1,free⟩
    · rename_i used
      refine List.isChain_append.mpr ⟨List.isChain_append.mpr left,right,?_⟩
      intro before beforeIn first _ both
      rw [List.getLast?_concat] at beforeIn
      cases Option.some.inj beforeIn
      exact used both.1

theorem kfree_parts (held : Loose t h (front++⟨size,false⟩::back) live) :
    (kfree t h (payloadOf t (h.heapStart+extent t front))).1 = none ∧
    (kfree t h (payloadOf t (h.heapStart+extent t front))).2.heapStart = h.heapStart ∧
    (kfree t h (payloadOf t (h.heapStart+extent t front))).2.heapBytes = h.heapBytes ∧
    Laid t (kfree t h (payloadOf t (h.heapStart+extent t front))).2 0 h.heapStart
      (coalesce t front (absorb t ⟨size,true⟩ back)) 0 := by
  have started := held.started
  have room := held.room
  have tiled := held.tiled
  rw [extent_append] at tiled
  obtain ⟨magicIs,_,freeIs,_,_⟩ := header_fields (laid_append.mp held.laid).2.1
  have marked := laid_flag true held.laid
  obtain ⟨first,others,shape,_⟩ := @absorb_head ⟨size,true⟩ t rfl back
  obtain ⟨forward,kept⟩ := laid_absorb (laid_append.mp marked).2 (by simp only [extent] at *; omega) (by omega)
  have merged := laid_front marked (List.cons_ne_nil _ _) (by simp [shape]) kept forward
  have backward := laid_backward merged shape
    (by rw [extent_append,absorb_extent]; simp only [extent] at *; omega) started
  have header : headerOf t (payloadOf t (h.heapStart+extent t front)) = h.heapStart+extent t front := by
    simp [headerOf,payloadOf]
  have nonzero : payloadOf t (h.heapStart+extent t front) ≠ 0 := by simp only [payloadOf]; omega
  have stays := merge_keeps t (put t h (h.heapStart+extent t front) .free 1) (h.heapStart+extent t front)
  have busy : ¬ get t h (h.heapStart+extent t front) .free ≠ 0 := by rw [freeIs]; simp [flag]
  unfold kfree
  rw [if_neg nonzero]
  simp only [header]
  rw [if_neg (by simp [magicIs]),if_neg busy]
  refine ⟨rfl,?_,?_,backward⟩
  · split
    · exact (merge_keeps _ _ _).1.trans stays.1
    · exact stays.1
  · split
    · exact (merge_keeps _ _ _).2.trans stays.2
    · exact stays.2

theorem loose_freed (loose : Loose t h (front++⟨size,false⟩::back) live) :
    Loose t (kfree t h (payloadOf t (h.heapStart+extent t front))).2 (coalesce t front (absorb t ⟨size,true⟩ back))
      (live.erase (payloadOf t (h.heapStart+extent t front))) := by
  obtain ⟨_,sameStart,sameBytes,laid⟩ := kfree_parts loose
  have tiled := loose.tiled
  have pos := header_pos t
  refine ⟨?_,?_,?_,?_,?_,?_,?_,loose.distinct.erase _⟩
  · rw [sameStart]; exact loose.started
  · rw [sameBytes]; exact loose.bytes
  · rw [sameStart]; exact laid
  · rw [coalesce_extent,extent_append,absorb_extent]
    rw [extent_append] at tiled
    exact tiled
  · rw [sameStart]; exact loose.room
  · rw [sameStart]; exact loose.aligned
  · intro ptr
    have owned := loose.owned ptr
    rw [sameStart,coalesce_payloads,payloads_append,absorb_payloads t _ rfl,loose.distinct.mem_erase_iff,owned,
      payloads_append]
    simp only [payloads,if_true,List.nil_append,List.mem_append,List.mem_singleton,Bool.false_eq_true,if_false]
    constructor
    · rintro ⟨different,earlier | here | later⟩
      · exact .inl earlier
      · exact absurd here different
      · exact .inr later
    · rintro (earlier | later)
      · have bounds := payload_bounds earlier
        exact ⟨by simp only [payloadOf]; omega,.inl earlier⟩
      · have bounds := payload_bounds later
        exact ⟨by simp only [payloadOf]; omega,.inr (.inr later)⟩

theorem held_freed (held : Held t h (front++⟨size,false⟩::back) live) :
    Held t (kfree t h (payloadOf t (h.heapStart+extent t front))).2 (coalesce t front (absorb t ⟨size,true⟩ back))
      (live.erase (payloadOf t (h.heapStart+extent t front))) := by
  obtain ⟨left,right,_⟩ := List.isChain_append.mp held.separated
  exact (loose_freed held.loose).held (separated_coalesce left (separated_absorb (List.isChain_cons.mp right).2))

theorem held_kfree (held : Held t h blocks live) (member : ptr ∈ live) :
    (kfree t h ptr).1 = none ∧ ∃ after, Held t (kfree t h ptr).2 after (live.erase ptr) := by
  obtain ⟨front,size,back,rfl,rfl⟩ := payload_cut ((held.owned ptr).mp member)
  exact ⟨(kfree_parts held.loose).1,_,held_freed held⟩

-- A block goes back to where it was cut from: its rest is the only free neighbour it has.
theorem coalesce_carve (separated : Separated (front++block::back)) (free : block.free = true)
    (large : wanted ≤ block.size) (cut : carve t block wanted = ⟨size,false⟩::rest) :
    coalesce t front (absorb t ⟨size,true⟩ (rest++back)) = front++block::back := by
  obtain ⟨_,behind,joint⟩ := List.isChain_append.mp separated
  have usedNext : ∀ next ∈ back.head?,next.free = false := by
    intro next first
    have apart := (List.isChain_cons.mp behind).1 next first
    simpa [free] using apart
  have whole : absorb t ⟨size,true⟩ (rest++back) = block::back := by
    obtain ⟨blockSize,blockFree⟩ := block
    change blockFree = true at free
    subst free
    unfold carve at cut
    split at cut
    · obtain ⟨⟨rfl,_⟩,rfl⟩ := List.cons.inj cut
      cases back with
      | nil => rfl
      | cons next back =>
        have used := usedNext next rfl
        simp [absorb,used]
    · rename_i roomy
      obtain ⟨⟨rfl,_⟩,rfl⟩ := List.cons.inj cut
      simp only [List.singleton_append,absorb,if_true]
      congr 2
      simp only at roomy
      omega
  rw [whole]
  unfold coalesce
  cases last : front.getLast? with
  | none =>
    rw [List.getLast?_eq_none_iff.mp last]
    rfl
  | some node =>
    have apart := joint node last block rfl
    have used : node.free = false := by simpa [free] using apart
    simp [used]

theorem carve_head (t : Target) (block : Block) (wanted : Nat) (large : wanted ≤ block.size) :
    ∃ size rest,carve t block wanted = ⟨size,false⟩::rest ∧ wanted ≤ size := by
  unfold carve
  split
  · exact ⟨_,_,rfl,large⟩
  · exact ⟨_,_,rfl,Nat.le_refl _⟩

-- Taken and given back, with anything written into it meanwhile.
theorem held_return (held : Held t h blocks live) (given : (kmalloc t h size).1 ≠ 0) :
    ∃ after,Held t (kmalloc t h size).2 after ((kmalloc t h size).1::live) ∧
      alignUp t size ≤ get t (kmalloc t h size).2 (headerOf t (kmalloc t h size).1) .size ∧
      (kmalloc t h size).2.heapStart = h.heapStart ∧
      ∀ later : Heap,later.heapStart = h.heapStart → Held t later after ((kmalloc t h size).1::live) →
        Held t (kfree t later (kmalloc t h size).1).2 blocks live := by
  rcases kmalloc_parts held size with failed | ⟨front,block,back,rfl,_,fits,taken⟩
  · rw [failed] at given
    exact absurd rfl given
  obtain ⟨wide,rest,cut,enough⟩ := carve_head t block (alignUp t size) fits.2
  have carved := held_carve held fits (alignUp_aligned t size)
  have start : (kmalloc t h size).2.heapStart = h.heapStart := by
    rw [taken]
    exact (split_keeps t h (h.heapStart+extent t front) (alignUp t size)).1
  rw [taken] at start ⊢
  dsimp only at *
  rw [cut,List.cons_append] at carved
  refine ⟨_,carved,?_,start,?_⟩
  · have here := (laid_append.mp carved.laid).2.1
    rw [start] at here
    rw [show headerOf t (payloadOf t (h.heapStart+extent t front)) = h.heapStart+extent t front by
      simp [headerOf,payloadOf],(header_fields here).2.1]
    exact enough
  · intro later same kept
    rw [←same] at kept ⊢
    have freed := held_freed kept
    rw [coalesce_carve held.separated fits.1 fits.2 cut,List.erase_cons_head] at freed
    exact freed

end Arthic.KheapInvariant
