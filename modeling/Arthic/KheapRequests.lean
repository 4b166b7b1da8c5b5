import Arthic.KheapRuns

namespace Arthic.KheapRequests
open ByteMemory Kheap KheapBlocks KheapInvariant KheapRuns Transition Unsigned
variable {t : Target} {h : Heap} {blocks : List Block} {live : List Nat}

-- The blocks in the order in which kmalloc walks them.
def walkFrom (t : Target) (h : Heap) : Nat → Nat → List Nat
  | 0,_ => []
  | steps+1,b => if b = 0 then [] else b::walkFrom t h steps (get t h b .next)

def blockList (t : Target) (h : Heap) : List Nat := walkFrom t h h.heapBytes h.heapStart

theorem walkFrom_laid (laid : Laid t h before b blocks 0) (pos : 0 < b) (enough : blocks.length ≤ steps) :
    walkFrom t h steps (if blocks = [] then 0 else b) = addresses t b blocks := by
  induction blocks generalizing before b steps with
  | nil => cases steps <;> simp [walkFrom,addresses]
  | cons block blocks ih =>
    obtain ⟨here,_,tail⟩ := laid
    cases steps with
    | zero => simp at enough
    | succ steps =>
      rw [if_neg (List.cons_ne_nil _ _),walkFrom,if_neg (Nat.ne_of_gt pos),(header_fields here).2.2.2.1,addresses]
      rw [ih tail (by omega) (by simpa using enough)]

theorem held_some (held : Held t h blocks live) : blocks ≠ [] ∧ blocks.length ≤ h.heapBytes := by
  constructor
  · rintro rfl
    cases held.tiled
  · rw [held.bytes,←held.tiled]
    exact length_extent t blocks

theorem blockList_held (held : Held t h blocks live) : blockList t h = addresses t h.heapStart blocks := by
  obtain ⟨some,enough⟩ := held_some held
  have walked := walkFrom_laid held.laid held.started enough
  rwa [if_neg some] at walked

theorem blockList_blank (blank : h.heapStart = 0) : blockList t h = [] := by
  unfold blockList
  rw [blank]
  cases h.heapBytes <;> simp [walkFrom]

-- The used blocks: where the payload is and how much it holds.
def used (t : Target) (start : Nat) : List Block → List (Nat × Nat)
  | [] => []
  | block::rest =>
    (if block.free then [] else [(payloadOf t start,block.size)])++used t (start+headerSize t+block.size) rest

theorem used_append (t : Target) (start : Nat) (left right : List Block) :
    used t start (left++right) = used t start left++used t (start+extent t left) right := by
  induction left generalizing start with
  | nil => rfl
  | cons block left ih =>
    simp only [List.cons_append,used,extent,List.append_assoc]
    rw [ih]
    congr 3
    omega

theorem used_payloads (t : Target) (start : Nat) (blocks : List Block) :
    (used t start blocks).map Prod.fst = payloads t start blocks := by
  induction blocks generalizing start with
  | nil => rfl
  | cons block blocks ih =>
    rw [used,payloads,List.map_append,ih]
    cases block.free <;> rfl

theorem used_cut (member : (ptr,size) ∈ used t start blocks) :
    ∃ front back,blocks = front++⟨size,false⟩::back ∧ ptr = payloadOf t (start+extent t front) := by
  induction blocks generalizing start with
  | nil => cases member
  | cons block blocks ih =>
    obtain ⟨wide,free⟩ := block
    rcases List.mem_append.mp member with here | later
    · cases free with
      | true => cases here
      | false =>
        obtain ⟨rfl,rfl⟩ := Prod.mk.inj (List.mem_singleton.mp here)
        exact ⟨[],blocks,rfl,rfl⟩
    · obtain ⟨front,back,rfl,rfl⟩ := ih later
      refine ⟨⟨wide,free⟩::front,back,rfl,?_⟩
      simp only [extent]
      congr 1
      omega

-- What memory says of a used block.
theorem used_header (laid : Laid t h before start blocks after) (member : (ptr,size) ∈ used t start blocks) :
    headerOf t ptr ∈ addresses t start blocks ∧ get t h (headerOf t ptr) .free = 0 ∧ get t h (headerOf t ptr) .size = size := by
  obtain ⟨front,back,rfl,rfl⟩ := used_cut member
  have here := (laid_append.mp laid).2.1
  rw [headerOf,payloadOf,Nat.add_sub_cancel,addresses_append]
  exact ⟨List.mem_append_right _ (List.mem_cons_self ..),(header_fields here).2.2.1,(header_fields here).2.1⟩

theorem live_used (held : Held t h blocks live) (member : ptr ∈ live) :
    (ptr,get t h (headerOf t ptr) .size) ∈ used t h.heapStart blocks := by
  have payload := (held.owned ptr).mp member
  rw [←used_payloads,List.mem_map] at payload
  obtain ⟨⟨_,size⟩,inside,rfl⟩ := payload
  rw [(used_header held.laid inside).2.2]
  exact inside

theorem carve_used (t : Target) (start wanted : Nat) (free : block.free = true) (rest : List Block) :
    ∃ size,used t start (carve t block wanted++rest) = (payloadOf t start,size)::used t start (block::rest) ∧
      (wanted ≤ block.size → wanted ≤ size) := by
  unfold carve
  split
  · refine ⟨block.size,?_,id⟩
    simp [used,free]
  · rename_i room
    refine ⟨wanted,?_,fun _ => Nat.le_refl _⟩
    simp only [List.cons_append,List.nil_append,used,free,if_true]
    rw [if_neg (by simp),show start+headerSize t+wanted+headerSize t+(block.size-wanted-headerSize t) =
      start+headerSize t+block.size by omega]
    rfl

-- ALIGN_UP without the limits of size_t.
def roundUp (t : Target) (n : Nat) : Nat := (n+(t.alignment-1))/t.alignment*t.alignment

theorem alignUp_exact (small : n+(t.alignment-1) < 2^t.bits) : alignUp t n = roundUp t n := by
  rw [alignUp,wrap_small small,roundUp]

theorem roundUp_large (t : Target) (n : Nat) : n ≤ roundUp t n := by
  cases t <;> simp only [roundUp,Target.alignment] <;> omega

-- Where the sum runs over, nothing is left of it.
theorem alignUp_wrapped (fits : n < 2^t.bits) (large : 2^t.bits ≤ n+(t.alignment-1)) : alignUp t n = 0 := by
  cases t <;> simp only [alignUp,wrap,Target.alignment,Target.bits,Target.wordBytes] at * <;> omega

theorem bits_roomy (large : 2^t.bits ≤ n+(t.alignment-1)) : heapSize < n := by
  cases t <;> simp only [heapSize,heapFrames,Pmm.pageSize,Target.alignment,Target.bits,Target.wordBytes] at * <;> omega

def Suits (t : Target) (h : Heap) (n b : Nat) : Prop := get t h b .free ≠ 0 ∧ roundUp t n ≤ get t h b .size

structure Contract (t : Target) (s : Machine) (n : Nat) : Prop where
  null : (kmalloc t s.heap n).1 = 0 ↔ ∀ b ∈ blockList t s.heap,¬ Suits t s.heap n b
  unchanged : (kmalloc t s.heap n).1 = 0 → (kmalloc t s.heap n).2 = s.heap
  chosen : (kmalloc t s.heap n).1 ≠ 0 → ∃ b ∈ blockList t s.heap,(kmalloc t s.heap n).1 = payloadOf t b ∧ Suits t s.heap n b ∧
    (∀ c ∈ blockList t s.heap,c < b → ¬ Suits t s.heap n c) ∧ b ∈ blockList t (kmalloc t s.heap n).2 ∧
    get t (kmalloc t s.heap n).2 b .free = 0 ∧ n ≤ get t (kmalloc t s.heap n).2 b .size
  others : ∀ ptr ∈ s.live,headerOf t ptr ∈ blockList t (kmalloc t s.heap n).2 ∧
    get t (kmalloc t s.heap n).2 (headerOf t ptr) .free = 0 ∧
    get t (kmalloc t s.heap n).2 (headerOf t ptr) .size = get t s.heap (headerOf t ptr) .size

theorem kmalloc_search (held : Held t h blocks live) (some : n ≠ 0) :
    ((∀ block ∈ blocks,¬ Fits (alignUp t n) block) ∧ kmalloc t h n = (0,h)) ∨
    ∃ front block back,blocks = front++block::back ∧ (∀ earlier ∈ front,¬ Fits (alignUp t n) earlier) ∧
      Fits (alignUp t n) block ∧ kmalloc t h n = (payloadOf t (h.heapStart+extent t front),
        put t (split t h (h.heapStart+extent t front) (alignUp t n)) (h.heapStart+extent t front) .free 0) := by
  obtain ⟨filled,enough⟩ := held_some held
  have walk := @kmallocFrom_parts _ _ _ _ _ _ (alignUp t n) held.laid held.started enough
  rw [if_neg filled] at walk
  rw [kmalloc,if_neg (not_or.mpr ⟨Nat.ne_of_gt held.started,some⟩)]
  exact walk

-- Blocks and the headers in memory agree on what fits.
theorem fits_suits (laid : Laid t h before start (front++block::back) after) (rounded : alignUp t n = roundUp t n) :
    Fits (alignUp t n) block ↔ Suits t h n (start+extent t front) := by
  have here := (laid_append.mp laid).2.1
  rw [Fits,Suits,(header_fields here).2.2.1,(header_fields here).2.1,flag_free,rounded]

theorem kmalloc_kept (held : Held t h blocks live) (n : Nat) {after : List Block} {grown : List Nat}
    (now : Held t (kmalloc t h n).2 after grown) (more : ∀ entry ∈ used t h.heapStart blocks,
      entry ∈ used t (kmalloc t h n).2.heapStart after) :
    ∀ ptr ∈ live,headerOf t ptr ∈ blockList t (kmalloc t h n).2 ∧ get t (kmalloc t h n).2 (headerOf t ptr) .free = 0 ∧
      get t (kmalloc t h n).2 (headerOf t ptr) .size = get t h (headerOf t ptr) .size := by
  intro ptr member
  rw [blockList_held now]
  exact used_header now.laid (more _ (live_used held member))

theorem kmalloc_exact (held : Held t h blocks live) (some : n ≠ 0) (rounded : alignUp t n = roundUp t n) :
    Contract t ⟨h,live⟩ n := by
  have listed := blockList_held held
  rcases kmalloc_search held some with ⟨none,refused⟩ | ⟨front,block,back,rfl,skipped,fits,taken⟩
  · have unsuited : ∀ b ∈ blockList t h,¬ Suits t h n b := by
      intro b member
      rw [listed] at member
      obtain ⟨front,block,back,rfl,rfl⟩ := address_cut member
      rw [←fits_suits held.laid rounded]
      exact none block (by simp)
    have kept := @kmalloc_kept _ _ _ _ held n blocks live (by rw [refused]; exact held) (by rw [refused]; exact fun _ => id)
    exact ⟨⟨fun _ => unsuited,fun _ => by rw [refused]⟩,fun _ => by rw [refused],fun given => absurd (by rw [refused]) given,kept⟩
  · have aligned := alignUp_aligned t n
    have now := held_carve held fits aligned
    have startSame : (kmalloc t h n).2.heapStart = h.heapStart := by
      rw [taken]
      exact (split_keeps t h _ _).1
    obtain ⟨size,grown,large⟩ := carve_used t (h.heapStart+extent t front) (alignUp t n) fits.1 back
    have listedNow : used t h.heapStart (front++(carve t block (alignUp t n)++back)) =
        used t h.heapStart front++(payloadOf t (h.heapStart+extent t front),size)::used t (h.heapStart+extent t front) (block::back) := by
      rw [used_append,grown]
    have holds : Held t (kmalloc t h n).2 (front++(carve t block (alignUp t n)++back))
        (payloadOf t (h.heapStart+extent t front)::live) := by
      rw [taken]
      exact now
    have suits := (fits_suits held.laid rounded).mp fits
    have atList : h.heapStart+extent t front ∈ blockList t h := by
      rw [listed,addresses_append]
      exact List.mem_append_right _ (List.mem_cons_self ..)
    have nonzero : (kmalloc t h n).1 ≠ 0 := by
      have pos := held.started
      rw [taken]
      simp only [payloadOf]
      omega
    have more : ∀ entry ∈ used t h.heapStart (front++block::back),
        entry ∈ used t (kmalloc t h n).2.heapStart (front++(carve t block (alignUp t n)++back)) := by
      intro entry member
      rw [startSame,listedNow]
      rw [used_append] at member
      rcases List.mem_append.mp member with early | late
      · exact List.mem_append_left _ early
      · exact List.mem_append_right _ (List.mem_cons_of_mem _ late)
    refine ⟨⟨fun zero => absurd zero nonzero,fun none => absurd suits (none _ atList)⟩,fun zero => absurd zero nonzero,
      fun _ => ⟨_,atList,by rw [taken],suits,?_,?_⟩,kmalloc_kept held n holds more⟩
    · intro c member before
      rw [listed] at member
      obtain ⟨left,earlier,right,cut,rfl⟩ := address_cut member
      -- a block in front of the chosen one is one of those passed over
      have inFront : earlier ∈ front := by
        rcases List.append_eq_append_iff.mp cut with ⟨middle,rfl,rest⟩ | ⟨middle,rfl,rest⟩
        · rw [extent_append] at before
          omega
        · cases middle with
          | nil =>
            rw [List.append_nil] at before
            omega
          | cons first others =>
            cases (List.cons_eq_cons.mp rest).1
            simp
      rw [cut] at held
      rw [←fits_suits held.laid rounded]
      exact skipped earlier inFront
    · have found : (payloadOf t (h.heapStart+extent t front),size) ∈
          used t (kmalloc t h n).2.heapStart (front++(carve t block (alignUp t n)++back)) := by
        rw [startSame,listedNow]
        exact List.mem_append_right _ (List.mem_cons_self ..)
      obtain ⟨place,unfree,sized⟩ := used_header holds.laid found
      rw [headerOf,payloadOf,Nat.add_sub_cancel] at place unfree sized
      have enough := large fits.2
      have reach := roundUp_large t n
      rw [blockList_held holds]
      refine ⟨place,unfree,?_⟩
      rw [sized]
      omega

theorem kmalloc_contract (path : Reached (allocator t kernelEnd mbi) s) (some : 1 ≤ n) (fits : n < 2^t.bits) :
    Contract t s n ↔ n+(t.alignment-1) < 2^t.bits ∨ ∀ b ∈ blockList t s.heap,get t s.heap b .free = 0 := by
  obtain ⟨h,live⟩ := s
  rcases runs_kept path with ⟨blank,none⟩ | ⟨blocks,held⟩
  · dsimp only at *
    have refused : kmalloc t h n = (0,h) := by rw [kmalloc,if_pos (.inl blank)]
    have empty := @blockList_blank t _ blank
    refine ⟨fun _ => .inr (by rw [empty]; exact fun _ member => absurd member List.not_mem_nil),fun _ => ?_⟩
    refine ⟨⟨fun _ => ?_,fun _ => by rw [refused]⟩,fun _ => by rw [refused],fun given => absurd (by rw [refused]) given,?_⟩
    · rw [empty]
      exact fun _ member => absurd member List.not_mem_nil
    · rw [none]
      exact fun _ member => absurd member List.not_mem_nil
  · have listed := blockList_held held
    by_cases small : n+(t.alignment-1) < 2^t.bits
    · exact ⟨fun _ => .inl small,fun _ => kmalloc_exact held (by omega) (alignUp_exact small)⟩
    -- the request became one of no bytes
    have wrapped := alignUp_wrapped fits (Nat.le_of_not_lt small)
    have huge := bits_roomy (Nat.le_of_not_lt small)
    have unsuited : ∀ b ∈ blockList t h,¬ Suits t h n b := by
      rintro b member ⟨_,large⟩
      rw [listed] at member
      obtain ⟨front,block,back,rfl,rfl⟩ := address_cut member
      have tiled := held.tiled
      rw [(header_fields (laid_append.mp held.laid).2.1).2.1] at large
      rw [extent_append,extent] at tiled
      have reach := roundUp_large t n
      omega
    constructor
    · intro contract
      have zero := contract.null.mpr unsuited
      refine .inr fun b member => ?_
      rcases kmalloc_search held (show n ≠ 0 by omega) with ⟨none,_⟩ | ⟨front,_,_,_,_,_,taken⟩
      · rw [listed] at member
        obtain ⟨front,block,back,rfl,rfl⟩ := address_cut member
        by_contra free
        rw [(header_fields (laid_append.mp held.laid).2.1).2.2.1,←ne_eq,flag_free] at free
        refine none block (by simp) ⟨free,?_⟩
        rw [wrapped]
        exact Nat.zero_le _
      · have pos := held.started
        dsimp only at *
        rw [taken] at zero
        simp only [payloadOf] at zero
        omega
    · rintro (room | full)
      · exact absurd room small
      · have refused : kmalloc t h n = (0,h) := by
          rcases kmalloc_search held (show n ≠ 0 by omega) with ⟨_,refused⟩ | ⟨front,block,back,rfl,_,fitted,_⟩
          · exact refused
          · have free := full (h.heapStart+extent t front) (by
              rw [listed,addresses_append]
              exact List.mem_append_right _ (List.mem_cons_self ..))
            dsimp only at free
            rw [(header_fields (laid_append.mp held.laid).2.1).2.2.1,fitted.1] at free
            cases free
        have kept := @kmalloc_kept _ _ _ _ held n blocks live (by rw [refused]; exact held) (by rw [refused]; exact fun _ => id)
        exact ⟨⟨fun _ => unsuited,fun _ => by rw [refused]⟩,fun _ => by rw [refused],
          fun given => absurd (by rw [refused]) given,kept⟩

theorem kmalloc_contract_small : Contract .i386 roomyHeap 328 :=
  (kmalloc_contract ⟨roomyHeap,[],roomyHeap_initial,.nil⟩ (by decide) (by decide)).mpr (.inl (by decide))

-- A request for the whole address space is given a block of no bytes.
theorem largest_request_served : Reached (allocator .i386 0x101000 roomyMap) roomyHeap ∧
    ¬ Contract .i386 roomyHeap 0xFFFFFFFF := by
  refine ⟨⟨roomyHeap,[],roomyHeap_initial,.nil⟩,fun contract => ?_⟩
  have given : (kmalloc .i386 roomyHeap.heap 0xFFFFFFFF).1 ≠ 0 := by
    rw [roomyHeap_fresh]
    decide
  obtain ⟨b,_,_,⟨_,large⟩,_⟩ := contract.chosen given
  have small : get .i386 roomyHeap.heap b .size < 256^4 := load_lt _ _ _
  have whole : roundUp .i386 0xFFFFFFFF = 2^32 := by decide
  omega

end Arthic.KheapRequests
