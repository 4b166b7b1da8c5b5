import Arthic.KheapRuns

namespace Arthic.KheapStale
open ByteMemory Kheap KheapBlocks KheapInvariant KheapRuns Transition Unsigned
variable {t : Target} {h : Heap} {blocks : List Block} {live : List Nat}

-- At this address there is nothing kfree would take for a header.
def Tame (t : Target) (h : Heap) (b : Nat) : Prop := get t h b .magic ≠ blockMagic

-- The four bytes where a magic number would be, next to a header somewhere else: either
-- apart from the field or at its beginning, and then the field is not any one.
theorem magic_word (spot : t.alignment ∣ a) (place : t.alignment ∣ b) (f : Field) :
    (a+t.offset .magic+t.width .magic ≤ b+t.offset f ∨ b+t.offset f+t.width f ≤ a+t.offset .magic) ∨
    a+t.offset .magic = b+t.offset f ∧ (a ≠ b → f = .free ∨ f = .prev) := by
  obtain ⟨x,rfl⟩ := spot
  obtain ⟨y,rfl⟩ := place
  cases t <;> cases f <;>
    simp only [Target.alignment,Target.offset,Field.index,Target.wordBytes,Target.width,reduceCtorEq,or_true,or_false,imp_true_iff,and_true,imp_false,not_not] <;> omega

theorem aligned_even (aligned : t.alignment ∣ a) : a%2 = 0 := by
  obtain ⟨x,rfl⟩ := aligned
  cases t <;> simp only [Target.alignment] <;> omega

-- What the allocator writes into headers, apart from new magic numbers.
def Mild (value : Nat) : Field → Prop
  | .magic => value = 0
  | .free => value ≤ 1
  | .prev => value%2 = 0
  | _ => True

theorem width_four (t : Target) (f : Field) : 4 ≤ t.width f := by cases t <;> cases f <;> decide

theorem put_elsewhere (spot : t.alignment ∣ a) (place : t.alignment ∣ b) (apart : a ≠ b) (mild : f ≠ .magic → Mild value f)
    (tame : Tame t h a) : Tame t (put t h b f value) a := by
  rcases magic_word spot place f with far | ⟨same,fields⟩
  · unfold Tame Kheap.get put
    dsimp only
    rw [load_store_apart _ _ far]
    exact tame
  · have low : get t (put t h b f value) a .magic = value%256^4 := by
      unfold Kheap.get put
      dsimp only
      rw [same]
      exact load_store_low _ _ _ (width_four t f)
    unfold Tame
    rw [low]
    rcases fields apart with rfl | rfl
    · have bound : value ≤ 1 := mild (by simp)
      simp only [blockMagic]
      omega
    · have even : value%2 = 0 := mild (by simp)
      simp only [blockMagic]
      omega

theorem put_mild (spot : t.alignment ∣ a) (place : t.alignment ∣ b) (mild : Mild value f) (tame : Tame t h a) :
    Tame t (put t h b f value) a := by
  by_cases apart : a = b
  · subst apart
    unfold Tame
    by_cases same : f = .magic
    · subst same
      cases mild
      rw [get_put_same (by cases t <;> decide)]
      decide
    · rw [get_put_field (Ne.symm same)]
      exact tame
  · exact put_elsewhere spot place apart (fun _ => mild) tame

-- An address may be trusted if it is a block's or is tame.
def Settled (t : Target) (h : Heap) (start : Nat) (blocks : List Block) (a : Nat) : Prop :=
  a ∈ addresses t start blocks ∨ Tame t h a

theorem next_aligned (place : t.alignment ∣ b) (laid : Laid t h before b (block::rest) 0) :
    t.alignment ∣ get t h b .next := by
  obtain ⟨here,aligned,_⟩ := laid
  rw [(header_fields here).2.2.2.1]
  split
  · exact Nat.dvd_zero _
  · exact Nat.dvd_add (Nat.dvd_add place (alignment_header t)) aligned

theorem split_tame (spot : t.alignment ∣ a) (place : t.alignment ∣ b) (wanted : t.alignment ∣ size)
    (next : t.alignment ∣ get t h b .next) (apart : a ≠ payloadOf t b+size) (tame : Tame t h a) :
    Tame t (split t h b size) a := by
  have rest : t.alignment ∣ payloadOf t b+size := Nat.dvd_add (Nat.dvd_add place (alignment_header t)) wanted
  have far : payloadOf t b+size+headerSize t ≤ b ∨ b+headerSize t ≤ payloadOf t b+size := by
    unfold payloadOf
    omega
  unfold split
  split
  · exact tame
  · dsimp only
    simp only [get_put_far far]
    refine put_mild spot place (by exact trivial) (put_mild spot place (by exact trivial) ?_)
    have written {sizeValue nextValue : Nat} : Tame t (put t (put t (put t (put t (put t h (payloadOf t b+size) .magic blockMagic)
        (payloadOf t b+size) .size sizeValue) (payloadOf t b+size) .free 1) (payloadOf t b+size) .next nextValue)
        (payloadOf t b+size) .prev b) a := by
      refine put_elsewhere spot rest apart (fun _ => by exact aligned_even place) ?_
      refine put_elsewhere spot rest apart (fun _ => by exact trivial) ?_
      refine put_elsewhere spot rest apart (fun _ => by exact Nat.le_refl 1) ?_
      refine put_elsewhere spot rest apart (fun _ => by exact trivial) ?_
      exact put_elsewhere spot rest apart (fun other => absurd rfl other) tame
    split
    · exact written
    · exact put_mild spot next (by exact aligned_even rest) written

theorem settled_put (spot : t.alignment ∣ a) (place : t.alignment ∣ b) (mild : Mild value f) (settled : Settled t h start blocks a) :
    Settled t (put t h b f value) start blocks a :=
  settled.imp id (put_mild spot place mild)

theorem merge_tame (laid : Laid t h before b (⟨size,true⟩::⟨wide,true⟩::rest) 0) (spot : t.alignment ∣ a)
    (place : t.alignment ∣ b) (settled : a = b+headerSize t+size ∨ Tame t h a) : Tame t (mergeWithNext t h b) a := by
  obtain ⟨here,aligned,tail⟩ := laid
  obtain ⟨_,sizeIs,freeIs,nextIs,_⟩ := header_fields here
  obtain ⟨_,wideIs,nextFreeIs,_,_⟩ := header_fields tail.1
  rw [if_neg (List.cons_ne_nil _ _)] at nextIs
  have pos := header_pos t
  have next : t.alignment ∣ b+headerSize t+size := Nat.dvd_add (Nat.dvd_add place (alignment_header t)) aligned
  have far : b+headerSize t ≤ b+headerSize t+size ∨ b+headerSize t+size+headerSize t ≤ b := .inl (Nat.le_add_right _ _)
  have beyond := next_aligned next tail
  unfold mergeWithNext
  simp only [nextIs,nextFreeIs,freeIs,flag,get_put_far far]
  rw [if_neg (by simp only [if_true]; omega)]
  by_cases absorbed : a = b+headerSize t+size
  · subst absorbed
    unfold Tame
    rw [get_put_same (by cases t <;> decide)]
    decide
  · have tame := settled.resolve_left absorbed
    have resized : Tame t (put t (put t h b .size (wrap t.bits (get t h b .size+headerSize t+get t h (b+headerSize t+size) .size)))
        b .next (get t h (b+headerSize t+size) .next)) a :=
      put_mild spot place (by exact trivial) (put_mild spot place (by exact trivial) tame)
    refine put_mild spot next (by exact rfl) ?_
    split
    · exact resized
    · exact put_mild spot beyond (by exact aligned_even place) resized

theorem settled_absorb (laid : Laid t h 0 start (front++⟨size,true⟩::rest) 0) (aligned : t.alignment ∣ start)
    (spot : t.alignment ∣ a) (settled : Settled t h start (front++⟨size,true⟩::rest) a) :
    Settled t (mergeWithNext t h (start+extent t front)) start (front++absorb t ⟨size,true⟩ rest) a := by
  obtain ⟨before,tail⟩ := laid_append.mp laid
  have place := Nat.dvd_add aligned (extent_aligned before)
  have unchanged (busy : ∀ next ∈ rest.head?,next.free = false) (same : absorb t ⟨size,true⟩ rest = ⟨size,true⟩::rest) :
      Settled t (mergeWithNext t h (start+extent t front)) start (front++absorb t ⟨size,true⟩ rest) a := by
    rw [unmerged tail busy,same]
    exact settled
  cases rest with
  | nil => exact unchanged (fun _ first => by cases first) rfl
  | cons next rest =>
    obtain ⟨wide,free⟩ := next
    cases free with
    | false => exact unchanged (fun _ first => by cases first; rfl) rfl
    | true =>
      have shorter : addresses t start (front++absorb t ⟨size,true⟩ (⟨wide,true⟩::rest)) = addresses t start front++
          (start+extent t front)::addresses t (start+extent t front+headerSize t+size+headerSize t+wide) rest := by
        rw [addresses_append,absorb]
        simp only [if_true,addresses]
        rw [show start+extent t front+headerSize t+(size+headerSize t+wide) =
          start+extent t front+headerSize t+size+headerSize t+wide by omega]
      unfold Settled at *
      rw [shorter]
      rw [addresses_append] at settled
      simp only [addresses,List.mem_append,List.mem_cons] at settled ⊢
      rcases settled with (early | rfl | gone | late) | tame
      · exact .inl (.inl early)
      · exact .inl (.inr (.inl rfl))
      · exact .inr (merge_tame tail spot place (.inl gone))
      · exact .inl (.inr (.inr late))
      · exact .inr (merge_tame tail spot place (.inr tame))

theorem addresses_flag (t : Target) (start : Nat) (front back : List Block) (free free' : Bool) :
    addresses t start (front++⟨size,free⟩::back) = addresses t start (front++⟨size,free'⟩::back) := by
  rw [addresses_append,addresses_append]
  rfl

theorem settled_backward (laid : Laid t h 0 start (front++merged) 0) (shape : merged = first::others)
    (aligned : t.alignment ∣ start) (pos : 0 < start) (spot : t.alignment ∣ a)
    (settled : Settled t h start (front++merged) a) :
    Settled t (if get t h (start+extent t front) .prev ≠ 0 ∧ get t h (get t h (start+extent t front) .prev) .free ≠ 0
      then mergeWithNext t h (get t h (start+extent t front) .prev) else h) start (coalesce t front merged) a := by
  have tail := (laid_append.mp laid).2
  have prevIs : get t h (start+extent t front) .prev = lastAddress t 0 start front := by
    rw [shape] at tail
    exact (header_fields tail.1).2.2.2.2
  rw [prevIs]
  rcases List.eq_nil_or_concat front with rfl | ⟨earlier,last,rfl⟩
  · simpa [lastAddress,coalesce] using settled
  · rw [List.concat_eq_append] at *
    rw [lastAddress_snoc]
    rw [List.append_assoc,List.singleton_append] at laid settled
    have freeIs := (header_fields (laid_append.mp laid).2.1).2.2.1
    rw [coalesce,List.getLast?_concat,List.dropLast_concat,freeIs]
    obtain ⟨lastSize,lastFree⟩ := last
    cases lastFree with
    | false => simpa [flag] using settled
    | true =>
      rw [if_pos ⟨by omega,by simp [flag]⟩]
      exact settled_absorb laid aligned spot settled

theorem kfree_settled (loose : Loose t h (front++⟨size,false⟩::back) live) (spot : t.alignment ∣ a)
    (settled : Settled t h h.heapStart (front++⟨size,false⟩::back) a) :
    Settled t (kfree t h (payloadOf t (h.heapStart+extent t front))).2 h.heapStart
      (coalesce t front (absorb t ⟨size,true⟩ back)) a := by
  have started := loose.started
  have room := loose.room
  have tiled := loose.tiled
  rw [extent_append] at tiled
  obtain ⟨before,here,_⟩ := laid_append.mp loose.laid
  obtain ⟨magicIs,_,freeIs,_,_⟩ := header_fields here
  have place := Nat.dvd_add loose.aligned (extent_aligned before)
  have marked := laid_flag true loose.laid
  obtain ⟨first,others,shape,_⟩ := @absorb_head ⟨size,true⟩ t rfl back
  obtain ⟨forward,kept⟩ := laid_absorb (laid_append.mp marked).2 (by simp only [extent] at *; omega) (by omega)
  have merged := laid_front marked (List.cons_ne_nil _ _) (by simp [shape]) kept forward
  have header : headerOf t (payloadOf t (h.heapStart+extent t front)) = h.heapStart+extent t front := by
    simp [headerOf,payloadOf]
  have nonzero : payloadOf t (h.heapStart+extent t front) ≠ 0 := by simp only [payloadOf]; omega
  have flagged : Settled t (put t h (h.heapStart+extent t front) .free 1) h.heapStart (front++⟨size,true⟩::back) a := by
    unfold Settled
    rw [addresses_flag t h.heapStart front back true false]
    exact settled_put spot place (by exact Nat.le_refl 1) settled
  have once := settled_absorb marked loose.aligned spot flagged
  unfold kfree
  rw [if_neg nonzero]
  simp only [header]
  rw [if_neg (by simp [magicIs]),if_neg (by rw [freeIs]; simp [flag])]
  exact settled_backward merged shape loose.aligned started spot once

theorem kmalloc_settled (held : Held t h (front++block::back) live) (spot : t.alignment ∣ a) (fits : Fits size block)
    (wanted : t.alignment ∣ size) (settled : Settled t h h.heapStart (front++block::back) a) :
    Settled t (put t (split t h (h.heapStart+extent t front) size) (h.heapStart+extent t front) .free 0) h.heapStart
      (front++(carve t block size++back)) a := by
  obtain ⟨before,tail⟩ := laid_append.mp held.laid
  have place := Nat.dvd_add held.aligned (extent_aligned before)
  refine settled_put spot place (by exact Nat.zero_le 1) ?_
  have tiled := held.tiled
  have wide : wrap t.bits (size+headerSize t+t.alignment) = size+headerSize t+t.alignment := by
    rw [extent_append,extent] at tiled
    exact wrap_small (heapSize_modest t (by have enough := fits.2; omega))
  by_cases small : block.size < size+headerSize t+t.alignment
  · have unsplit : split t h (h.heapStart+extent t front) size = h := by
      unfold split
      rw [(header_fields tail.1).2.1,wide,if_pos small]
    rw [unsplit,carve,if_pos small,List.singleton_append]
    obtain ⟨_,free⟩ := block
    unfold Settled
    rw [addresses_flag t h.heapStart front back false free]
    exact settled
  · have longer : addresses t h.heapStart (front++(carve t block size++back)) = addresses t h.heapStart front++
        (h.heapStart+extent t front)::(payloadOf t (h.heapStart+extent t front)+size)::
          addresses t (h.heapStart+extent t front+headerSize t+block.size) back := by
      rw [addresses_append,carve,if_neg small]
      simp only [addresses,List.cons_append,List.nil_append,payloadOf]
      rw [show h.heapStart+extent t front+headerSize t+size+headerSize t+(block.size-size-headerSize t) =
        h.heapStart+extent t front+headerSize t+block.size by omega]
    unfold Settled at *
    rw [longer]
    rw [addresses_append] at settled
    simp only [addresses,List.mem_append,List.mem_cons] at settled ⊢
    by_cases fresh : a = payloadOf t (h.heapStart+extent t front)+size
    · exact .inl (.inr (.inr (.inl fresh)))
    · rcases settled with (early | here | late) | tame
      · exact .inl (.inl early)
      · exact .inl (.inr (.inl here))
      · exact .inl (.inr (.inr (.inr late)))
      · exact .inr (split_tame spot place wanted (next_aligned place tail) fresh tame)

structure Client where
  machine : Machine
  ever : List Nat

-- Clients may hand any pointer they were ever given back, and write what they like into
-- what is theirs, except a magic number where they were once given a block.
inductive Request where
  | kmalloc (size : Nat)
  | kfree (ptr : Nat)
  | write (addr count : Nat) (source : Nat → Byte)

def written (h : Heap) (addr count : Nat) (source : Nat → Byte) : Heap := {h with mem:=patch h.mem addr count source}

def Proper (t : Target) (c : Client) : Request → Prop
  | .kmalloc size => size < 2^t.bits
  | .kfree ptr => ptr = 0 ∨ ptr ∈ c.ever
  | .write addr count source =>
    (∃ ptr ∈ c.machine.live,ptr ≤ addr ∧ addr+count ≤ ptr+get t c.machine.heap (headerOf t ptr) .size) ∧
    ∀ ptr ∈ c.ever,Tame t c.machine.heap (headerOf t ptr) → Tame t (written c.machine.heap addr count source) (headerOf t ptr)

def serve (t : Target) (c : Client) : Request → Client
  | .kmalloc size =>
    let (ptr,heap) := kmalloc t c.machine.heap size
    if ptr = 0 then ⟨⟨heap,c.machine.live⟩,c.ever⟩ else ⟨⟨heap,ptr::c.machine.live⟩,ptr::c.ever⟩
  | .kfree ptr => ⟨⟨(kfree t c.machine.heap ptr).2,c.machine.live.erase ptr⟩,c.ever⟩
  | .write addr count source => ⟨⟨written c.machine.heap addr count source,c.machine.live⟩,c.ever⟩

def clients (t : Target) (kernelEnd : Nat) (mbi : Pmm.MultibootInfo) : System Client Request :=
  guarded (fun c => Started t kernelEnd mbi c.machine.heap ∧ c.machine.live = [] ∧ c.ever = []) (Proper t) (serve t)

-- A pointer once given out names a place for a header, and what is there can be trusted.
structure Issued (t : Target) (h : Heap) (blocks : List Block) (ptr : Nat) : Prop where
  spot : t.alignment ∣ headerOf t ptr
  place : ptr = payloadOf t (headerOf t ptr)
  settled : Settled t h h.heapStart blocks (headerOf t ptr)

def Tidy (t : Target) (c : Client) : Prop :=
  (c.machine.heap.heapStart = 0 ∧ c.machine.live = [] ∧ c.ever = []) ∨
  ∃ blocks,Held t c.machine.heap blocks c.machine.live ∧ ∀ ptr ∈ c.ever,Issued t c.machine.heap blocks ptr

-- Neither a block that is free already nor a wiped header is touched.
theorem stale_ignored (held : Held t h blocks live) (issued : Issued t h blocks ptr) (stale : ptr ∉ live) :
    (kfree t h ptr).2 = h := by
  unfold kfree
  dsimp only
  split
  · rfl
  · rcases issued.settled with listed | tame
    · have free : get t h (headerOf t ptr) .free ≠ 0 := by
        intro busy
        exact stale ((held.owned ptr).mpr ((payloads_exact held.laid).mpr ⟨_,listed,busy,issued.place⟩))
      rw [if_pos free]
      split <;> rfl
    · unfold Tame at tame
      rw [if_pos tame]

theorem issued_moves (issued : Issued t h blocks ptr) (start : g.heapStart = h.heapStart)
    (settled : t.alignment ∣ headerOf t ptr → Settled t h h.heapStart blocks (headerOf t ptr) →
      Settled t g h.heapStart after (headerOf t ptr)) : Issued t g after ptr := by
  refine ⟨issued.spot,issued.place,?_⟩
  rw [start]
  exact settled issued.spot issued.settled

theorem tidy_step (tidy : Tidy t c) (proper : Proper t c request) : Tidy t (serve t c request) := by
  obtain ⟨⟨h,live⟩,ever⟩ := c
  rcases tidy with ⟨blank,none,never⟩ | ⟨blocks,held,issued⟩
  · dsimp only at *
    subst none never
    refine .inl ?_
    cases request with
    | kmalloc size =>
      have refused : kmalloc t h size = (0,h) := by simp [kmalloc,blank]
      simp only [serve,refused]
      exact ⟨blank,rfl,rfl⟩
    | kfree ptr =>
      rcases proper with rfl | member
      · exact ⟨blank,rfl,rfl⟩
      · cases member
    | write addr count source =>
      obtain ⟨⟨_,member,_⟩,_⟩ := proper
      cases member
  · dsimp only at *
    refine .inr ?_
    cases request with
    | kmalloc size =>
      rcases kmalloc_parts held size with refused | ⟨front,block,back,rfl,_,fits,taken⟩
      · simp only [serve,refused]
        exact ⟨blocks,held,issued⟩
      · have nonzero : payloadOf t (h.heapStart+extent t front) ≠ 0 := by
          have started := held.started
          simp only [payloadOf]
          omega
        have aligned := alignUp_aligned t size
        have now := held_carve held fits aligned
        have start := (split_keeps t h (h.heapStart+extent t front) (alignUp t size)).1
        have header : headerOf t (payloadOf t (h.heapStart+extent t front)) = h.heapStart+extent t front := by
          simp [headerOf,payloadOf]
        simp only [serve,taken,if_neg nonzero]
        refine ⟨_,now,fun ptr member => ?_⟩
        rcases List.mem_cons.mp member with rfl | old
        · have place := Nat.dvd_add held.aligned (extent_aligned (laid_append.mp held.laid).1)
          obtain ⟨size',rest,cut,_⟩ := carve_head t block (alignUp t size) fits.2
          refine ⟨by rw [header]; exact place,by rw [header],.inl ?_⟩
          rw [header,cut,addresses_append]
          refine List.mem_append_right _ ?_
          change _ ∈ ((split t h (h.heapStart+extent t front) (alignUp t size)).heapStart+extent t front)::_
          rw [start]
          exact List.mem_cons_self ..
        · exact issued_moves (issued ptr old) start fun spot settled => kmalloc_settled held spot fits aligned settled
    | kfree ptr =>
      by_cases alive : ptr ∈ live
      · obtain ⟨front,size,back,rfl,rfl⟩ := payload_cut ((held.owned ptr).mp alive)
        exact ⟨_,held_freed held,fun other member => issued_moves (issued other member) (kfree_parts held.loose).2.1
          fun spot settled => kfree_settled held.loose spot settled⟩
      · have ignored : (kfree t h ptr).2 = h := by
          rcases proper with rfl | member
          · rfl
          · exact stale_ignored held (issued ptr member) alive
        simp only [serve,ignored,List.erase_of_not_mem alive]
        exact ⟨blocks,held,issued⟩
    | write addr count source =>
      obtain ⟨⟨ptr,alive,lower,upper⟩,harmless⟩ := proper
      refine ⟨blocks,held_patch held alive lower upper,fun other member => issued_moves (issued other member) rfl
        fun _ settled => settled.imp id (harmless other member)⟩

theorem runs_tidy (path : Reached (clients t kernelEnd mbi) c) : Tidy t c := by
  apply path.invariant
  · rintro ⟨⟨h,live⟩,ever⟩ ⟨started,none,never⟩
    dsimp only at *
    subst none never
    exact (started_kept started).imp (fun blank => ⟨blank.1,rfl,rfl⟩) fun ⟨blocks,held⟩ =>
      ⟨blocks,held,fun _ member => by cases member⟩
  · rintro c request next tidy ⟨proper,rfl⟩
    exact tidy_step tidy proper

theorem stale_free_harmless (path : Reached (clients t kernelEnd mbi) c) (given : ptr ∈ c.ever) (stale : ptr ∉ c.machine.live) :
    (kfree t c.machine.heap ptr).2 = c.machine.heap := by
  rcases runs_tidy path with ⟨_,_,never⟩ | ⟨blocks,held,issued⟩
  · rw [never] at given
    cases given
  · exact stale_ignored held (issued ptr given) stale

-- Two blocks are given back and merged, a larger one is given out over both, and its owner
-- writes over what was the second's header.
def coverings : List Request :=
  [.kmalloc 64,.kmalloc 64,.kfree 0x102018,.kfree 0x102070,.kmalloc 328,.write 0x102018 328 fun _ => 255#8]
def covered : Client := coverings.foldl (serve .i386) ⟨roomyHeap,[]⟩

theorem covered_reached : Reached (clients .i386 0x101000 roomyMap) covered := by
  obtain ⟨started,none⟩ := roomyHeap_initial
  refine reached_by ⟨started,none,rfl⟩ ?_
  rw [roomyHeap_fresh]
  simp only [coverings,Permitted,Proper,Tame]
  decide

theorem stale_free_harmless_covered : 0x102070 ∈ covered.ever ∧ covered.machine.live = [0x102018] ∧
    (kfree .i386 covered.machine.heap 0x102070).2 = covered.machine.heap := by
  have given : covered.ever = [0x102018,0x102070,0x102018] ∧ covered.machine.live = [0x102018] := by
    rw [covered,roomyHeap_fresh]
    decide
  obtain ⟨ever,live⟩ := given
  have member : 0x102070 ∈ covered.ever := by
    rw [ever]
    decide
  refine ⟨member,live,stale_free_harmless covered_reached member ?_⟩
  rw [live]
  decide

end Arthic.KheapStale
