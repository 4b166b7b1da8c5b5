import Arthic.KheapRequests

namespace Arthic.KheapOrders
open ByteMemory Kheap KheapBlocks KheapInvariant KheapRuns KheapRequests Transition Unsigned
variable {t : Target} {h : Heap} {blocks : List Block} {live : List Nat}

-- The block list as a client of the headers sees it: every block with all its fields.
def listing (t : Target) (h : Heap) : List (Nat × Header) := (blockList t h).map fun b => (b,header t h b)

def freed (t : Target) (s : Machine) (ptrs : List Nat) : Machine := ptrs.foldl (fun s ptr => apply t s (.kfree ptr)) s

theorem laid_alike (laid : Laid t h before start blocks after) (other : Laid t g before start blocks after) :
    ∀ b ∈ addresses t start blocks,header t g b = header t h b := by
  induction blocks generalizing before start with
  | nil => exact fun _ member => absurd member List.not_mem_nil
  | cons block blocks ih =>
    intro b member
    rcases List.mem_cons.mp member with rfl | later
    · exact other.1.trans laid.1.symm
    · exact ih laid.2.2 other.2.2 b later

theorem listing_alike (held : Held t h blocks live) (other : Held t g blocks left) (start : g.heapStart = h.heapStart) :
    listing t g = listing t h := by
  have laid := other.laid
  rw [start] at laid
  have same := laid_alike held.laid laid
  unfold listing
  rw [blockList_held held,blockList_held other,start]
  exact List.map_congr_left fun b member => by rw [same b member]

-- Merging moves no used block.
theorem used_absorb (t : Target) (start : Nat) (free : block.free = true) (rest : List Block) :
    used t start (absorb t block rest) = used t start (block::rest) := by
  cases rest with
  | nil => rfl
  | cons next rest =>
    rw [absorb]
    split
    · rename_i nextFree
      simp only [used,free,nextFree,if_true,List.nil_append]
      rw [show start+headerSize t+(block.size+headerSize t+next.size) =
        start+headerSize t+block.size+headerSize t+next.size by omega]
    · rfl

theorem used_coalesce (t : Target) (start : Nat) (front merged : List Block) :
    used t start (coalesce t front merged) = used t start (front++merged) := by
  rcases List.eq_nil_or_concat front with rfl | ⟨earlier,last,rfl⟩
  · rfl
  · rw [List.concat_eq_append,coalesce,List.getLast?_concat,List.dropLast_concat]
    dsimp only
    split
    · rename_i free
      rw [used_append,used_absorb t _ free,List.append_assoc,used_append]
      rfl
    · rfl

theorem used_bounds (member : entry ∈ used t start blocks) :
    start+headerSize t ≤ entry.1 ∧ entry.1 ≤ start+extent t blocks := by
  apply payload_bounds
  rw [←used_payloads]
  exact List.mem_map_of_mem member

theorem used_freed (t : Target) (start size : Nat) (front back : List Block) :
    used t start (coalesce t front (absorb t ⟨size,true⟩ back)) =
      (used t start (front++⟨size,false⟩::back)).filter fun entry => entry.1 ≠ payloadOf t (start+extent t front) := by
  have pos := header_pos t
  have others : ∀ entry ∈ used t start front,entry.1 ≠ payloadOf t (start+extent t front) := by
    intro entry member
    have bounds := used_bounds member
    simp only [payloadOf]
    omega
  have behind : ∀ entry ∈ used t (start+extent t front+headerSize t+size) back,
      entry.1 ≠ payloadOf t (start+extent t front) := by
    intro entry member
    have bounds := used_bounds member
    simp only [payloadOf]
    omega
  have kept : ∀ list : List (Nat × Nat),(∀ entry ∈ list,entry.1 ≠ payloadOf t (start+extent t front)) →
      list.filter (fun entry => entry.1 ≠ payloadOf t (start+extent t front)) = list :=
    fun list none => List.filter_eq_self.mpr fun entry member => by simpa using none entry member
  rw [used_coalesce,used_append,used_absorb t _ rfl,used_append,List.filter_append,kept _ others]
  simp only [used,if_true,List.nil_append,Bool.false_eq_true,if_false,List.singleton_append]
  rw [List.filter_cons_of_neg (by simp),kept _ behind]

-- A free block ends where the next used one starts, or with the region.
theorem free_head (separated : Separated (block::rest)) (free : block.free = true) :
    rest = [] ∨ ∃ size back,rest = ⟨size,false⟩::back := by
  cases rest with
  | nil => exact .inl rfl
  | cons next back =>
    obtain ⟨size,taken⟩ := next
    have apart := (List.isChain_cons.mp separated).1 _ rfl
    cases taken with
    | true => exact absurd ⟨free,rfl⟩ apart
    | false => exact .inr ⟨size,back,rfl⟩

theorem heads_same (separated : Separated (x::xs)) (other : Separated (y::ys)) (same : extent t (x::xs) = extent t (y::ys))
    (alike : used t start (x::xs) = used t start (y::ys)) : x = y := by
  have pos := header_pos t
  obtain ⟨wide,free⟩ := x
  obtain ⟨wide',free'⟩ := y
  simp only [used] at alike
  cases free <;> cases free'
  · simp only [Bool.false_eq_true,if_false,List.singleton_append] at alike
    cases (Prod.mk.inj (List.cons.inj alike).1).2
    rfl
  · simp only [Bool.false_eq_true,if_false,if_true,List.singleton_append,List.nil_append] at alike
    have bounds := used_bounds (alike ▸ List.mem_cons_self ..)
    simp only [payloadOf] at bounds
    omega
  · simp only [Bool.false_eq_true,if_false,if_true,List.singleton_append,List.nil_append] at alike
    have bounds := used_bounds (alike.symm ▸ List.mem_cons_self ..)
    simp only [payloadOf] at bounds
    omega
  · simp only [if_true,List.nil_append] at alike
    rcases free_head separated rfl with rfl | ⟨size,back,rfl⟩ <;> rcases free_head other rfl with rfl | ⟨size',back',rfl⟩
    · simp only [extent] at same
      congr 1
      omega
    · cases alike
    · cases alike
    · simp only [used,Bool.false_eq_true,if_false,List.singleton_append,payloadOf] at alike
      have place := (Prod.mk.inj (List.cons.inj alike).1).1
      congr 1
      omega

-- Where no two free blocks touch, the used blocks leave no choice for the others.
theorem blocks_unique (separated : Separated xs) (other : Separated ys) (same : extent t xs = extent t ys)
    (alike : used t start xs = used t start ys) : xs = ys := by
  have pos := header_pos t
  induction xs generalizing ys start with
  | nil =>
    cases ys with
    | nil => rfl
    | cons y ys =>
      simp only [extent] at same
      omega
  | cons x xs ih =>
    cases ys with
    | nil =>
      simp only [extent] at same
      omega
    | cons y ys =>
      cases heads_same separated other same alike
      simp only [extent] at same
      simp only [used] at alike
      rw [ih (List.isChain_cons.mp separated).2 (List.isChain_cons.mp other).2 (by omega) (List.append_cancel_left alike)]

theorem held_unique (held : Held t h blocks live) (other : Held t g others left) (start : g.heapStart = h.heapStart)
    (alike : used t h.heapStart blocks = used t g.heapStart others) : listing t g = listing t h := by
  rw [start] at alike
  cases blocks_unique held.separated other.separated (held.tiled.trans other.tiled.symm) alike
  exact listing_alike held other start

theorem freed_held (held : Held t s.heap blocks s.live) (member : ∀ ptr ∈ ptrs,ptr ∈ s.live) (once : ptrs.Nodup) :
    ∃ after,Held t (freed t s ptrs).heap after (freed t s ptrs).live ∧ (freed t s ptrs).heap.heapStart = s.heap.heapStart ∧
      used t s.heap.heapStart after = (used t s.heap.heapStart blocks).filter fun entry => entry.1 ∉ ptrs := by
  induction ptrs generalizing s blocks with
  | nil => exact ⟨blocks,held,rfl,by simp⟩
  | cons ptr ptrs ih =>
    obtain ⟨fresh,once⟩ := List.nodup_cons.mp once
    obtain ⟨front,size,back,rfl,place⟩ := payload_cut ((held.owned ptr).mp (member ptr (List.mem_cons_self ..)))
    have now := held_freed held
    have start := (kfree_parts held.loose).2.1
    rw [←place] at now start
    have left : ∀ other ∈ ptrs,other ∈ (apply t s (.kfree ptr)).live := by
      intro other later
      refine held.distinct.mem_erase_iff.mpr ⟨?_,member other (List.mem_cons_of_mem _ later)⟩
      rintro rfl
      exact fresh later
    obtain ⟨after,kept,same,rest⟩ := @ih _ (apply t s (.kfree ptr)) now left once
    refine ⟨after,kept,same.trans start,?_⟩
    have begin : (apply t s (.kfree ptr)).heap.heapStart = s.heap.heapStart := start
    rw [begin,used_freed,List.filter_filter,←place] at rest
    rw [rest]
    apply List.filter_congr
    intro entry _
    simp [Bool.and_comm]

-- The addresses the live blocks take up, headers included.
def Covered (t : Target) (s : Machine) (addr : Nat) : Prop :=
  ∃ ptr ∈ s.live,headerOf t ptr ≤ addr ∧ addr < ptr+get t s.heap (headerOf t ptr) .size

-- A stretch of the region that no live block reaches into and that cannot be extended.
structure Gap (t : Target) (s : Machine) (low high : Nat) : Prop where
  given : s.heap.heapStart ≠ 0
  lower : s.heap.heapStart ≤ low
  upper : high ≤ s.heap.heapStart+s.heap.heapBytes
  some : low < high
  empty : ∀ addr,low ≤ addr → addr < high → ¬ Covered t s addr
  left : low = s.heap.heapStart ∨ Covered t s (low-1)
  right : high = s.heap.heapStart+s.heap.heapBytes ∨ Covered t s high

structure Single (t : Target) (h : Heap) (low high : Nat) : Prop where
  listed : low ∈ blockList t h
  free : get t h low .free ≠ 0
  whole : low+headerSize t+get t h low .size = high
  alone : ∀ b ∈ blockList t h,low ≤ b → b < high → b = low

theorem block_at (lower : start ≤ a) (upper : a < start+extent t blocks) :
    ∃ front block back,blocks = front++block::back ∧ start+extent t front ≤ a ∧
      a < start+extent t front+headerSize t+block.size := by
  induction blocks generalizing start with
  | nil =>
    simp only [extent] at upper
    omega
  | cons block blocks ih =>
    by_cases here : a < start+headerSize t+block.size
    · exact ⟨[],block,blocks,rfl,lower,here⟩
    · simp only [extent] at upper
      obtain ⟨front,found,back,rfl,first,last⟩ := ih (Nat.le_of_not_lt here) (by omega)
      refine ⟨block::front,found,back,rfl,?_,?_⟩ <;> simp only [extent] <;> omega

-- Two cuts around one address are the same cut.
theorem cut_same (cut : front++block::back = front'++block'::back') (lower : extent t front ≤ a)
    (upper : a < extent t front+headerSize t+block.size) (lower' : extent t front' ≤ a)
    (upper' : a < extent t front'+headerSize t+block'.size) : front = front' ∧ block = block' ∧ back = back' := by
  rcases List.append_eq_append_iff.mp cut with ⟨middle,rfl,rest⟩ | ⟨middle,rfl,rest⟩
  · cases middle with
    | nil =>
      obtain ⟨rfl,rfl⟩ := List.cons.inj rest
      exact ⟨(List.append_nil _).symm,rfl,rfl⟩
    | cons first others =>
      obtain ⟨rfl,_⟩ := List.cons.inj rest
      simp only [extent_append,extent] at lower'
      omega
  · cases middle with
    | nil =>
      obtain ⟨rfl,rfl⟩ := List.cons.inj rest
      exact ⟨List.append_nil _,rfl,rfl⟩
    | cons first others =>
      obtain ⟨rfl,_⟩ := List.cons.inj rest
      simp only [extent_append,extent] at lower
      omega

theorem covered_block (held : Held t h (front++block::back) live) (lower : h.heapStart+extent t front ≤ addr)
    (upper : addr < h.heapStart+extent t front+headerSize t+block.size) : Covered t ⟨h,live⟩ addr ↔ block.free = false := by
  constructor
  · rintro ⟨ptr,member,first,last⟩
    have entry := live_used held member
    dsimp only at first last
    generalize get t h (headerOf t ptr) .size = size at entry last
    obtain ⟨front',back',cut,rfl⟩ := used_cut entry
    simp only [headerOf,payloadOf,Nat.add_sub_cancel] at first last
    obtain ⟨_,rfl,_⟩ := cut_same (a:=addr-h.heapStart) (t:=t) cut (by omega) (by omega) (by omega) (by dsimp only; omega)
    rfl
  · intro taken
    obtain ⟨size,free⟩ := block
    cases taken
    have inside : payloadOf t (h.heapStart+extent t front) ∈ live := by
      rw [held.owned,payloads_append]
      exact List.mem_append_right _ (List.mem_append_left _ (List.mem_singleton.mpr rfl))
    refine ⟨_,inside,?_,?_⟩ <;> rw [headerOf,payloadOf,Nat.add_sub_cancel]
    · exact lower
    · dsimp only
      rw [(header_fields (laid_append.mp held.laid).2.1).2.1]
      exact upper

theorem gap_single (held : Held t h blocks live) (gap : Gap t ⟨h,live⟩ low high) : Single t h low high := by
  obtain ⟨_,lower,upper,some,empty,left,right⟩ := gap
  dsimp only at *
  have pos := header_pos t
  have tiled := held.tiled
  rw [held.bytes] at upper right
  have inside : low < h.heapStart+extent t blocks := by omega
  obtain ⟨front,block,back,rfl,first,last⟩ := block_at lower inside
  have room := extent_append t front (block::back)
  rw [extent] at room
  have free : block.free = true := by
    by_contra taken
    exact empty low (Nat.le_refl _) some ((covered_block held first last).mpr (by simpa using taken))
  -- in front of the gap the block would go on
  have begins : h.heapStart+extent t front = low := by
    by_contra other
    rcases left with rfl | covered
    · omega
    · rw [covered_block held (by omega) (by omega),free] at covered
      cases covered
  have ends : h.heapStart+extent t front+headerSize t+block.size = high := by
    by_contra other
    by_cases beyond : high < h.heapStart+extent t front+headerSize t+block.size
    · rcases right with rfl | covered
      · omega
      · rw [covered_block held (by omega) beyond,free] at covered
        cases covered
    · -- behind it there would be a second free block
      have next := (List.isChain_append.mp held.separated).2.1
      cases back with
      | nil =>
        simp only [extent] at room
        omega
      | cons follower back =>
        have apart := (List.isChain_cons.mp next).1 follower rfl
        have taken : follower.free = false := by simpa [free] using apart
        rw [List.append_cons] at held
        have start : extent t (front++[block]) = extent t front+headerSize t+block.size := by
          rw [extent_append]
          simp only [extent]
          omega
        exact empty _ (by omega) (by omega : h.heapStart+extent t (front++[block]) < high)
          ((covered_block held (Nat.le_refl _) (by omega)).mpr taken)
  have here := header_fields (laid_append.mp held.laid).2.1
  subst begins
  refine ⟨?_,?_,?_,?_⟩
  · rw [blockList_held held,addresses_append]
    exact List.mem_append_right _ (List.mem_cons_self ..)
  · rw [here.2.2.1]
    exact (flag_free block.free).mpr free
  · rw [here.2.1]
    exact ends
  · intro b member after before
    rw [blockList_held held] at member
    obtain ⟨front',block',back',cut,rfl⟩ := address_cut member
    obtain ⟨rfl,_,_⟩ := cut_same (a:=extent t front') (t:=t) cut (by omega) (by omega) (Nat.le_refl _) (by omega)
    rfl

theorem kmallocFrom_start (t : Target) (h : Heap) (size steps b : Nat) :
    (kmallocFrom t h size steps b).2.heapStart = h.heapStart := by
  induction steps generalizing b with
  | zero => rfl
  | succ steps ih =>
    rw [kmallocFrom]
    split
    · rfl
    · split
      · exact (split_keeps t h b size).1
      · exact ih _

theorem kfree_start (t : Target) (h : Heap) (ptr : Nat) : (kfree t h ptr).2.heapStart = h.heapStart := by
  unfold kfree
  dsimp only
  split
  · rfl
  · split
    · rfl
    · split
      · rfl
      · split
        · exact (merge_keeps _ _ _).1.trans (merge_keeps _ _ _).1
        · exact (merge_keeps _ _ _).1

theorem apply_start (t : Target) (s : Machine) (call : Call) : (apply t s call).heap.heapStart = s.heap.heapStart := by
  cases call with
  | kmalloc size =>
    simp only [apply,kmalloc]
    split
    · rfl
    · exact kmallocFrom_start t s.heap _ _ _
  | kfree ptr => exact kfree_start t s.heap ptr
  | write addr value => rfl

theorem runs_start (path : Runs (allocator t kernelEnd mbi) origin calls s) : s.heap.heapStart = origin.heap.heapStart := by
  refine @Runs.guarded_invariant _ _ _ _ _ _ _ _ (fun s => s.heap.heapStart = origin.heap.heapStart) ?_ path rfl
  exact fun s call same _ => (apply_start t s call).trans same

-- What is left when nothing is live is what kheap_init wrote.
theorem single_headers (held : Held t h blocks []) :
    listing t h = [(h.heapStart,⟨blockMagic,heapSize-headerSize t,1,0,0⟩)] := by
  have none : payloads t h.heapStart blocks = [] :=
    List.eq_nil_iff_forall_not_mem.mpr fun ptr member => List.not_mem_nil ((held.owned ptr).mpr member)
  have tiled := held.tiled
  obtain ⟨some,_⟩ := held_some held
  cases blocks with
  | nil => exact absurd rfl some
  | cons block rest =>
    obtain ⟨size,free⟩ := block
    cases free with
    | false => cases none
    | true =>
      rcases free_head held.separated rfl with rfl | ⟨_,_,rfl⟩
      · simp only [extent] at tiled
        have here := held.laid.1
        rw [listing,blockList_held held]
        simp only [addresses,List.map_cons,List.map_nil]
        rw [here,show size = heapSize-headerSize t by omega]
        rfl
      · cases none

theorem freed_blank (none : s.live = []) (member : ∀ ptr ∈ ptrs,ptr ∈ s.live) : freed t s ptrs = s := by
  cases ptrs with
  | nil => rfl
  | cons ptr ptrs =>
    have inside := member ptr (List.mem_cons_self ..)
    rw [none] at inside
    cases inside

theorem free_order (initial : (allocator t kernelEnd mbi).initial origin) (path : Runs (allocator t kernelEnd mbi) origin calls s)
    (once : xs.Nodup) (member : ∀ ptr ∈ xs,ptr ∈ s.live) (order : ys.Perm xs) :
    listing t (freed t s ys).heap = listing t (freed t s xs).heap ∧
    (∀ low high,Gap t (freed t s xs) low high → Single t (freed t s xs).heap low high) ∧
    ((∀ ptr ∈ s.live,ptr ∈ xs) → listing t (freed t s xs).heap = listing t origin.heap ∧
      (s.heap.heapStart ≠ 0 → listing t (freed t s xs).heap =
        [(s.heap.heapStart,⟨blockMagic,heapSize-headerSize t,1,0,0⟩)])) := by
  have begin := runs_start path
  obtain ⟨started,fresh⟩ := initial
  have first := started_kept started
  rcases runs_kept ⟨origin,calls,⟨started,fresh⟩,path⟩ with ⟨blank,none⟩ | ⟨blocks,held⟩
  · rw [freed_blank none member,freed_blank none fun ptr inside => member ptr (order.mem_iff.mp inside)]
    refine ⟨rfl,fun low high gap => absurd blank gap.given,fun _ => ⟨?_,fun given => absurd blank given⟩⟩
    rw [listing,listing,blockList_blank blank,blockList_blank (begin ▸ blank)]
    rfl
  · obtain ⟨after,kept,start,rest⟩ := freed_held held member once
    obtain ⟨after',kept',start',rest'⟩ := freed_held held (fun ptr inside => member ptr (order.mem_iff.mp inside))
      (order.nodup_iff.mpr once)
    refine ⟨held_unique kept kept' (start'.trans start.symm) ?_,fun low high => gap_single kept,fun all => ?_⟩
    · rw [start,start',rest,rest']
      exact List.filter_congr fun entry _ => by simp only [order.mem_iff]
    · have empty : (freed t s xs).live = [] := by
        refine List.eq_nil_iff_forall_not_mem.mpr fun ptr inside => ?_
        rw [kept.owned,←used_payloads,start,rest,List.mem_map] at inside
        obtain ⟨entry,left,rfl⟩ := inside
        obtain ⟨used,outside⟩ := List.mem_filter.mp left
        have live : entry.1 ∈ s.live := by
          rw [held.owned,←used_payloads]
          exact List.mem_map_of_mem used
        simp [all _ live] at outside
      rw [empty] at kept
      have whole := single_headers kept
      rw [start] at whole
      refine ⟨?_,fun _ => whole⟩
      rcases first with ⟨zero,_⟩ | ⟨blocks',held'⟩
      · exact absurd (begin.trans zero) (Nat.ne_of_gt held.started)
      · have whole' : listing t origin.heap = _ := single_headers held'
        rw [whole,whole',begin]

theorem free_order_small : listing .i386 (freed .i386 roomyTaken [0x102178,0x102018]).heap =
      listing .i386 (freed .i386 roomyTaken [0x102018,0x102178]).heap ∧
    listing .i386 (freed .i386 roomyTaken [0x102018,0x102178]).heap =
      [(0x102000,⟨blockMagic,heapSize-headerSize .i386,1,0,0⟩)] := by
  have live := roomyTaken_live
  obtain ⟨origin,calls,initial,path⟩ := roomyTaken_reached
  have start : roomyTaken.heap.heapStart = 0x102000 := by
    rw [roomyTaken,apply_start,apply_start,roomyHeap_fresh]
    rfl
  have inside : ∀ ptr ∈ [0x102018,0x102178],ptr ∈ roomyTaken.live := by
    rw [live]
    decide
  have all : ∀ ptr ∈ roomyTaken.live,ptr ∈ [0x102018,0x102178] := by
    rw [live]
    decide
  obtain ⟨same,_,whole⟩ := free_order initial path (by decide) inside (List.Perm.swap 0x102018 0x102178 [])
  refine ⟨same,((whole all).2 ?_).trans ?_⟩
  · rw [start]
    decide
  · rw [start]

end Arthic.KheapOrders
