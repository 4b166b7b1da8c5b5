import Arthic.KheapInvariant

namespace Arthic.KheapRuns
open Kheap KheapBlocks KheapInvariant ByteMemory Unsigned Transition
variable {t : Target} {h : Heap} {blocks : List Block} {live : List Nat}

theorem address_cut (member : b ∈ addresses t start blocks) :
    ∃ front block back, blocks = front++block::back ∧ b = start+extent t front := by
  induction blocks generalizing start with
  | nil => cases member
  | cons block blocks ih =>
    rcases List.mem_cons.mp member with rfl | later
    · exact ⟨[],block,blocks,rfl,rfl⟩
    · obtain ⟨front,found,back,rfl,rfl⟩ := ih later
      refine ⟨block::front,found,back,rfl,?_⟩
      simp only [extent]
      omega

theorem addresses_append (t : Target) (start : Nat) (left right : List Block) :
    addresses t start (left++right) = addresses t start left++addresses t (start+extent t left) right := by
  induction left generalizing start with
  | nil => rfl
  | cons block left ih =>
    simp only [List.cons_append,addresses,extent,ih]
    rw [show start+headerSize t+block.size+extent t left = start+(headerSize t+block.size+extent t left) by omega]

-- A client writes where it may, inside a live payload; no header is there.
def write (h : Heap) (addr : Nat) (value : Byte) : Heap := {h with mem:=fill h.mem addr 1 value}

theorem header_patch {source : Nat → Byte} (far : c+headerSize t ≤ addr ∨ addr+count ≤ c) :
    header t {h with mem:=patch h.mem addr count source} c = header t h c := by
  have untouched : ∀ f, get t {h with mem:=patch h.mem addr count source} c f = get t h c f := by
    intro f
    have inside := field_inside t f
    exact @load_patch (c+t.offset f) (t.width f) addr count h.mem source (by omega)
  simp [header,untouched]

theorem held_patch {source : Nat → Byte} (held : Held t h blocks live) (member : ptr ∈ live) (lower : ptr ≤ addr)
    (upper : addr+count ≤ ptr+get t h (headerOf t ptr) .size) :
    Held t {h with mem:=patch h.mem addr count source} blocks live := by
  obtain ⟨front,size,back,rfl,rfl⟩ := payload_cut ((held.owned ptr).mp member)
  have tail := (laid_append.mp held.laid).2
  have sizeIs := (header_fields tail.1).2.1
  rw [show headerOf t (payloadOf t (h.heapStart+extent t front)) = h.heapStart+extent t front by
    simp [headerOf,payloadOf],sizeIs] at upper
  refine {held with laid:=laid_congr ?_ held.laid}
  intro c present
  change c ∈ addresses t h.heapStart _ at present
  rw [addresses_append,List.mem_append,addresses,List.mem_cons] at present
  simp only [payloadOf] at lower upper
  apply header_patch
  rcases present with before | rfl | behind
  · have bounds := address_bounds before
    omega
  · omega
  · have bounds := address_bounds behind
    simp only at bounds
    omega

theorem live_inside (held : Held t h blocks live) (member : ptr ∈ live) :
    ptr+get t h (headerOf t ptr) .size ≤ h.heapStart+heapSize := by
  obtain ⟨front,size,back,rfl,rfl⟩ := payload_cut ((held.owned ptr).mp member)
  have sizeIs := (header_fields (laid_append.mp held.laid).2.1).2.1
  rw [show headerOf t (payloadOf t (h.heapStart+extent t front)) = h.heapStart+extent t front by
    simp [headerOf,payloadOf],sizeIs]
  have whole := held.tiled
  rw [extent_append,extent] at whole
  simp only [payloadOf] at *
  omega

theorem held_write (held : Held t h blocks live) (member : ptr ∈ live) (lower : ptr ≤ addr)
    (upper : addr < ptr+get t h (headerOf t ptr) .size) : Held t (write h addr value) blocks live :=
  held_patch held member lower upper

-- One block that spans the region.
theorem held_single (started : 0 < h.heapStart) (bytes : h.heapBytes = heapSize)
    (written : header t h h.heapStart = ⟨blockMagic,heapSize-headerSize t,1,0,0⟩) (room : h.heapStart+heapSize < 2^t.bits)
    (aligned : t.alignment ∣ h.heapStart) : Held t h [⟨heapSize-headerSize t,true⟩] [] := by
  have header : headerSize t ≤ heapSize := by cases t <;> decide
  have whole : extent t [⟨heapSize-headerSize t,true⟩] = heapSize := by
    simp only [extent]
    omega
  refine ⟨started,bytes,⟨written,?_,trivial⟩,whole,room,aligned,List.isChain_singleton _,by simp [payloads],List.nodup_nil⟩
  exact Nat.dvd_sub (by cases t <;> decide) (alignment_header t)

theorem held_init (low : ∀ frame < first.totalFrames,frame*Pmm.pageSize < Pmm.kernelStart → Pmm.frameTest first frame = true)
    (owned : PmmOwnership.Owned first ledger) (blank : h.heapStart = 0) :
    (kheapInit t h ledger.pmm).1.heapStart = 0 ∨
    ∃ blocks, Held t (kheapInit (w:=t.bits) t h ledger.pmm).1 blocks [] := by
  rcases Pmm.allocFrames_parts owned.sound heapFrames with failed | ⟨start,_,fits,clear,taken⟩
  · refine .inl ?_
    simpa [kheapInit,failed] using blank
  · refine .inr ⟨[⟨heapSize-headerSize t,true⟩],?_⟩
    have counted := Nat.lt_of_lt_of_le (Nat.lt_add_of_pos_right (by decide : 0 < heapFrames)) fits
    have positive := PmmOwnership.owned_not_zero low owned counted (clear start (Nat.le_refl _) (by simp [heapFrames]))
    have addressable := owned.sound.addressable
    have small : heapSize < 2^t.bits := by cases t <;> decide
    have header : headerSize t ≤ heapSize := by cases t <;> decide
    have span : (start+heapFrames)*Pmm.pageSize ≤ ledger.pmm.totalFrames*Pmm.pageSize := Nat.mul_le_mul_right _ fits
    rw [Nat.add_mul] at span
    change start*Pmm.pageSize+heapSize ≤ _ at span
    have base : start*Pmm.pageSize ≠ 0 := Nat.mul_ne_zero positive (by decide)
    simp only [kheapInit,taken,if_neg base]
    refine held_single (Nat.pos_of_ne_zero base) rfl ?_ (Nat.lt_of_le_of_lt span addressable)
      (Nat.dvd_mul_left_of_dvd (by cases t <;> decide) start)
    exact header_written (by omega) (Nat.two_pow_pos _) (Nat.two_pow_pos _)

structure Machine where
  heap : Heap
  live : List Nat

inductive Call where
  | kmalloc (size : Nat)
  | kfree (ptr : Nat)
  | write (addr : Nat) (value : Byte)

def Allowed (t : Target) (s : Machine) : Call → Prop
  | .kmalloc size => size < 2^t.bits
  | .kfree ptr => ptr ∈ s.live
  | .write addr _ => ∃ ptr ∈ s.live, ptr ≤ addr ∧ addr < ptr+get t s.heap (headerOf t ptr) .size

def apply (t : Target) (s : Machine) : Call → Machine
  | .kmalloc size =>
    let (ptr,heap) := kmalloc t s.heap size
    ⟨heap,if ptr = 0 then s.live else ptr::s.live⟩
  | .kfree ptr => ⟨(kfree t s.heap ptr).2,s.live.erase ptr⟩
  | .write addr value => ⟨write s.heap addr value,s.live⟩

-- kheap_init runs once, over the frames that are left when it is called. heap_start is
-- static and so 0 until then; memory may hold anything.
def Started (t : Target) (kernelEnd : Nat) (mbi : Pmm.MultibootInfo) (h : Heap) : Prop :=
  ∃ before ledger, before.heapStart = 0 ∧ Reached (PmmOwnership.allocator t.bits kernelEnd mbi) ledger ∧
    h = (kheapInit t before ledger.pmm).1

def allocator (t : Target) (kernelEnd : Nat) (mbi : Pmm.MultibootInfo) : System Machine Call :=
  guarded (fun s => Started t kernelEnd mbi s.heap ∧ s.live = []) (Allowed t) (apply t)

theorem booted_initial {before : Heap} (boot : PmmOwnership.Booted (w:=t.bits) kernelEnd mbi p)
    (blank : before.heapStart = 0) : (allocator t kernelEnd mbi).initial ⟨(kheapInit t before p).1,[]⟩ :=
  ⟨⟨before,⟨p,[]⟩,blank,⟨⟨p,[]⟩,[],⟨boot,rfl⟩,.nil⟩,rfl⟩,rfl⟩

-- Without a region there is nothing to give out; with one, the blocks tile it.
def Kept (t : Target) (s : Machine) : Prop :=
  s.heap.heapStart = 0 ∧ s.live = [] ∨ ∃ blocks, Held t s.heap blocks s.live

theorem started_kept (started : Started t kernelEnd mbi h) : Kept t ⟨h,[]⟩ := by
  obtain ⟨before,ledger,blank,⟨origin,calls,⟨boot,none⟩,path⟩,rfl⟩ := started
  obtain ⟨first,_⟩ := origin
  cases none
  have owned := PmmOwnership.runs_owned boot path
  rcases held_init (PmmOwnership.booted_low boot) owned blank with failed | held
  · exact .inl ⟨failed,rfl⟩
  · exact .inr held

theorem kept_step (kept : Kept t s) (allowed : Allowed t s call) : Kept t (apply t s call) := by
  rcases kept with ⟨blank,none⟩ | ⟨blocks,held⟩
  · cases call with
    | kmalloc size =>
      have refused : kmalloc t s.heap size = (0,s.heap) := by simp [kmalloc,blank]
      simp only [apply,refused]
      exact .inl ⟨blank,none⟩
    | kfree ptr =>
      change ptr ∈ s.live at allowed
      rw [none] at allowed
      cases allowed
    | write addr value =>
      obtain ⟨ptr,member,_⟩ := allowed
      rw [none] at member
      cases member
  · refine .inr ?_
    cases call with
    | kmalloc size =>
      rcases held_kmalloc held size with refused | ⟨nonzero,after,kept⟩
      · simp only [apply,refused]
        exact ⟨blocks,held⟩
      · simp only [apply,if_neg nonzero]
        exact ⟨after,kept⟩
    | kfree ptr => exact (held_kfree held allowed).2
    | write addr value =>
      obtain ⟨ptr,member,lower,upper⟩ := allowed
      exact ⟨blocks,held_write held member lower upper⟩

theorem runs_kept (path : Reached (allocator t kernelEnd mbi) s) : Kept t s := by
  apply path.invariant
  · rintro ⟨heap,live⟩ ⟨started,rfl⟩
    exact started_kept started
  · rintro s call next kept ⟨allowed,rfl⟩
    exact kept_step kept allowed

-- The same facts read off the headers in memory.
structure Linked (t : Target) (h : Heap) (b c : Nat) : Prop where
  next : get t h b .next = c
  prev : get t h c .prev = b
  adjacent : c = b+headerSize t+get t h b .size
  ordered : b < c
  separated : ¬ (get t h b .free ≠ 0 ∧ get t h c .free ≠ 0)

theorem flag_free (free : Bool) : flag free ≠ 0 ↔ free = true := by cases free <;> simp [flag]

theorem laid_linked (laid : Laid t h before start blocks after) (separated : Separated blocks) :
    (addresses t start blocks).IsChain (Linked t h) := by
  induction blocks generalizing before start with
  | nil => exact List.isChain_nil
  | cons block blocks ih =>
    obtain ⟨here,_,tail⟩ := laid
    obtain ⟨_,sizeIs,freeIs,nextIs,_⟩ := header_fields here
    obtain ⟨border,rest⟩ := List.isChain_cons.mp separated
    refine List.isChain_cons.mpr ⟨?_,ih tail rest⟩
    cases blocks with
    | nil => simp [addresses]
    | cons next blocks =>
      intro c first
      cases Option.some.inj first
      obtain ⟨_,_,nextFree,_,nextPrev⟩ := header_fields tail.1
      have pos := header_pos t
      refine ⟨by simpa using nextIs,nextPrev,by rw [sizeIs],by omega,?_⟩
      rw [freeIs,nextFree,flag_free,flag_free]
      exact border next rfl

theorem linked_apart {list : List Nat} (linked : list.IsChain (Linked t h)) :
    list.Pairwise fun b c => b+headerSize t+get t h b .size ≤ c := by
  have transitive : IsTrans Nat fun b c => b+headerSize t+get t h b .size ≤ c :=
    ⟨fun _ _ _ first second => by omega⟩
  exact List.isChain_iff_pairwise.mp (linked.imp fun _ _ link => Nat.le_of_eq link.adjacent.symm)

theorem payloads_exact (laid : Laid t h before start blocks after) :
    ptr ∈ payloads t start blocks ↔ ∃ b ∈ addresses t start blocks,get t h b .free = 0 ∧ ptr = payloadOf t b := by
  induction blocks generalizing before start with
  | nil => simp [payloads,addresses]
  | cons block blocks ih =>
    obtain ⟨here,_,tail⟩ := laid
    have freeIs := (header_fields here).2.2.1
    simp only [payloads,addresses,List.mem_append,List.mem_cons,exists_eq_or_imp,freeIs,ih tail]
    cases block.free <;> simp [flag]

-- What the list found from heap_start looks like, and what is live in it.
structure Valid (t : Target) (s : Machine) (list : List Nat) : Prop where
  head : list.head? = some s.heap.heapStart
  linked : list.IsChain (Linked t s.heap)
  first : get t s.heap s.heap.heapStart .prev = 0
  last : ∀ b ∈ list.getLast?,get t s.heap b .next = 0 ∧
    b+headerSize t+get t s.heap b .size = s.heap.heapStart+heapSize
  magic : ∀ b ∈ list,get t s.heap b .magic = blockMagic
  aligned : ∀ b ∈ list,t.alignment ∣ get t s.heap b .size
  live : ∀ ptr,ptr ∈ s.live ↔ ∃ b ∈ list,get t s.heap b .free = 0 ∧ ptr = payloadOf t b
  once : s.live.Nodup
  inside : ∀ ptr ∈ s.live,t.alignment ∣ ptr ∧ s.heap.heapStart ≤ headerOf t ptr ∧
    ptr+get t s.heap (headerOf t ptr) .size ≤ s.heap.heapStart+heapSize
  disjoint : ∀ p ∈ s.live,∀ q ∈ s.live,p ≠ q →
    p+get t s.heap (headerOf t p) .size ≤ q ∨ q+get t s.heap (headerOf t q) .size ≤ p

theorem extent_aligned (laid : Laid t h before start blocks after) : t.alignment ∣ extent t blocks := by
  induction blocks generalizing before start with
  | nil => exact Nat.dvd_zero _
  | cons block blocks ih =>
    obtain ⟨_,aligned,tail⟩ := laid
    exact Nat.dvd_add (Nat.dvd_add (alignment_header t) aligned) (ih tail)

theorem addresses_last (some : blocks ≠ []) :
    ∃ front last,blocks = front++[last] ∧ (addresses t start blocks).getLast? = .some (start+extent t front) := by
  rcases List.eq_nil_or_concat blocks with rfl | ⟨front,last,rfl⟩
  · exact absurd rfl some
  · refine ⟨front,last,List.concat_eq_append,?_⟩
    rw [List.concat_eq_append,addresses_append,addresses,addresses,List.getLast?_concat]

theorem held_inside (held : Held t h blocks live) (member : ptr ∈ live) :
    t.alignment ∣ ptr ∧ h.heapStart ≤ headerOf t ptr ∧
      ptr+get t h (headerOf t ptr) .size ≤ h.heapStart+heapSize := by
  obtain ⟨front,size,back,rfl,rfl⟩ := payload_cut ((held.owned ptr).mp member)
  obtain ⟨before,here,_,_⟩ := laid_append.mp held.laid
  have tiled := held.tiled
  rw [extent_append,extent] at tiled
  have header : headerOf t (payloadOf t (h.heapStart+extent t front)) = h.heapStart+extent t front := by
    simp [headerOf,payloadOf]
  rw [header,(header_fields here).2.1]
  refine ⟨?_,Nat.le_add_right _ _,by simp only [payloadOf] at *; omega⟩
  exact Nat.dvd_add (Nat.dvd_add held.aligned (extent_aligned before)) (alignment_header t)

theorem held_valid (held : Held t h blocks live) : Valid t ⟨h,live⟩ (addresses t h.heapStart blocks) := by
  have linked := laid_linked held.laid held.separated
  have owned : ∀ ptr,ptr ∈ live ↔ ∃ b ∈ addresses t h.heapStart blocks,get t h b .free = 0 ∧ ptr = payloadOf t b :=
    fun ptr => (held.owned ptr).trans (payloads_exact held.laid)
  have some : blocks ≠ [] := by
    intro empty
    have tiled := held.tiled
    rw [empty] at tiled
    cases tiled
  have atAddress : ∀ b ∈ addresses t h.heapStart blocks,
      get t h b .magic = blockMagic ∧ t.alignment ∣ get t h b .size := by
    intro b member
    obtain ⟨front,block,back,rfl,rfl⟩ := address_cut member
    obtain ⟨here,aligned,_⟩ := (laid_append.mp held.laid).2
    rw [(header_fields here).1,(header_fields here).2.1]
    exact ⟨rfl,aligned⟩
  refine ⟨?_,linked,?_,?_,fun b member => (atAddress b member).1,fun b member => (atAddress b member).2,owned,
    held.distinct,fun _ => held_inside held,?_⟩
  · cases blocks with
    | nil => exact absurd rfl some
    | cons block blocks => rfl
  · cases blocks with
    | nil => exact absurd rfl some
    | cons block blocks => exact (header_fields held.laid.1).2.2.2.2
  · intro b isLast
    obtain ⟨front,last,rfl,found⟩ := @addresses_last t _ h.heapStart some
    cases Option.some.inj (found.symm.trans isLast)
    have here := (laid_append.mp held.laid).2.1
    have tiled := held.tiled
    rw [extent_append,extent,extent] at tiled
    rw [(header_fields here).2.1,(header_fields here).2.2.2.1]
    exact ⟨rfl,by change h.heapStart+_+_+_ = h.heapStart+_; omega⟩
  · intro p pLive q qLive different
    obtain ⟨b,bIn,_,rfl⟩ := (owned p).mp pLive
    obtain ⟨c,cIn,_,rfl⟩ := (owned q).mp qLive
    have apart : b+headerSize t+get t h b .size ≤ c ∨ c+headerSize t+get t h c .size ≤ b := by
      have either := (linked_apart linked).imp (S:=fun b c => b+headerSize t+get t h b .size ≤ c ∨
        c+headerSize t+get t h c .size ≤ b) fun apart => .inl apart
      have symmetric : Std.Symm fun b c => b+headerSize t+get t h b .size ≤ c ∨ c+headerSize t+get t h c .size ≤ b :=
        ⟨fun _ _ => Or.symm⟩
      refine either.forall bIn cIn ?_
      rintro rfl
      exact different rfl
    simp only [headerOf,payloadOf,Nat.add_sub_cancel]
    omega

theorem heap_stays_valid (path : Reached (allocator t kernelEnd mbi) s) :
    (s.heap.heapStart = 0 → s.live = []) ∧ (s.heap.heapStart ≠ 0 → ∃ list,Valid t s list) := by
  rcases runs_kept path with ⟨blank,none⟩ | ⟨blocks,held⟩
  · exact ⟨fun _ => none,fun started => absurd blank started⟩
  · exact ⟨fun blank => absurd blank (Nat.ne_of_gt held.started),fun _ => ⟨_,held_valid held⟩⟩

-- A run on the 32-bit kernel in which a request wraps to a block of no bytes.
def roomyMap : Pmm.MultibootInfo := ⟨0x40#32,[⟨0x100000#64,0x103000#64,1#32⟩]⟩
def roomyStart : Pmm.State 32 :=
  Pmm.pmmInitWith (Pmm.totalFrames32 roomyMap.mmap) Pmm.region32 0x101000 (fun _ => 0#32) roomyMap.mmap
def roomyHeap : Machine := ⟨(kheapInit .i386 ⟨fun _ => 0#8,0,0⟩ roomyStart).1,[]⟩
def roomyTaken : Machine := apply .i386 (apply .i386 roomyHeap (.kmalloc 328)) (.kmalloc 0xFFFFFFFF)

-- One free block, as kheap_init writes it.
def freshHeap (t : Target) (base : Nat) : Heap :=
  let h : Heap := ⟨fun _ => 0#8,base,heapSize⟩
  let h := put t h base .magic blockMagic
  let h := put t h base .size (heapSize-headerSize t)
  put t (put t (put t h base .free 1) base .next 0) base .prev 0

theorem init_fresh (p : Pmm.State 32) (given : (Pmm.pmmAllocFrames p heapFrames).1 = base) (nonzero : base ≠ 0) :
    (kheapInit .i386 ⟨fun _ => 0#8,0,0⟩ p).1 = freshHeap .i386 base := by
  unfold kheapInit
  generalize Pmm.pmmAllocFrames p heapFrames = answer at *
  obtain ⟨start,frames⟩ := answer
  dsimp only at *
  rw [given,if_neg nonzero]
  rfl

-- The same allocator with its bitmap written out.
def roomyFrames : Pmm.State 32 :=
  ⟨fun word => if word < 8 then 0xFFFFFFFF#32 else if word = 8 then 0x3#32 else 0#32,515,258⟩

theorem roomy_alike : PmmOwnership.Alike roomyStart roomyFrames := by
  have total : Pmm.totalFrames32 roomyMap.mmap = 515 := by decide
  have region : Pmm.region32 ⟨0x100000#64,0x103000#64,1#32⟩ = some (0x100000,0x103000) := by decide
  obtain ⟨same,test⟩ := PmmOwnership.init_one region (by decide) (Pmm.totalFrames32 roomyMap.mmap) 0x101000 fun _ => 0#32
  refine ⟨same.trans total,fun frame below => ?_⟩
  change Pmm.frameTest (Pmm.pmmInitWith _ _ _ _ [⟨0x100000#64,0x103000#64,1#32⟩]) frame = _
  rw [test,total]
  revert frame
  decide +kernel

theorem roomy_base : (Pmm.pmmAllocFrames roomyStart heapFrames).1 = 0x102000 := by
  rw [(PmmOwnership.alike_allocFrames (by decide) roomy_alike heapFrames).1]
  decide +kernel

theorem roomyHeap_fresh : roomyHeap = ⟨freshHeap .i386 0x102000,[]⟩ := by
  rw [roomyHeap,init_fresh roomyStart roomy_base (by decide)]

theorem roomyTaken_live : roomyTaken.live = [0x102178,0x102018] := by
  rw [roomyTaken,roomyHeap_fresh]
  decide

theorem roomyHeap_initial : (allocator .i386 0x101000 roomyMap).initial roomyHeap := by
  have boot : PmmOwnership.Booted 0x101000 roomyMap roomyStart := @PmmOwnership.Booted.kernel32 _ _ (fun _ => 0#32) _ rfl
  exact @booted_initial .i386 _ _ _ ⟨fun _ => 0#8,0,0⟩ boot rfl

theorem roomyTaken_reached : Reached (allocator .i386 0x101000 roomyMap) roomyTaken := by
  have taken : Runs (allocator .i386 0x101000 roomyMap) roomyHeap [.kmalloc 328,.kmalloc 0xFFFFFFFF] roomyTaken :=
    (Runs.nil.act (by unfold Allowed; decide)).act (by unfold Allowed; decide)
  exact ⟨roomyHeap,_,roomyHeap_initial,taken⟩

theorem heap_stays_valid_small : roomyTaken.live = [0x102178,0x102018] ∧ ∃ list,Valid .i386 roomyTaken list := by
  have live := roomyTaken_live
  obtain ⟨blank,valid⟩ := heap_stays_valid roomyTaken_reached
  refine ⟨live,valid fun zero => ?_⟩
  rw [blank zero] at live
  cases live

end Arthic.KheapRuns
