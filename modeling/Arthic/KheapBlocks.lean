import Mathlib.Data.List.Chain
import Arthic.Kheap

namespace Arthic.KheapBlocks
open Kheap ByteMemory Unsigned
variable {t : Target} {h : Heap}

theorem header_i386 : headerSize .i386 = 24 := by decide
theorem header_amd64 : headerSize .amd64 = 48 := by decide

theorem alignment_header (t : Target) : t.alignment ∣ headerSize t := by
  cases t
  · rw [header_i386]; decide
  · rw [header_amd64]; decide

theorem alignment_pos (t : Target) : 0 < t.alignment := by cases t <;> decide

theorem header_pos (t : Target) : 0 < headerSize t := by
  cases t
  · rw [header_i386]; decide
  · rw [header_amd64]; decide

theorem field_inside (t : Target) (f : Field) : t.offset f+t.width f ≤ headerSize t := by
  cases t
  · rw [header_i386]; cases f <;> decide
  · rw [header_amd64]; cases f <;> decide

theorem fields_apart (t : Target) (different : g ≠ f) :
    t.offset g+t.width g ≤ t.offset f ∨ t.offset f+t.width f ≤ t.offset g := by
  cases t <;> cases f <;> cases g <;> first | decide | exact absurd rfl different

theorem get_put_same (small : value < 256^t.width f) : get t (put t h b f value) b f = value :=
  load_store _ _ small

theorem get_put_field (different : g ≠ f) : get t (put t h b f value) b g = get t h b g := by
  apply load_store_apart
  have apart := fields_apart t different
  omega

theorem get_put_far (far : b+headerSize t ≤ c ∨ c+headerSize t ≤ b) :
    get t (put t h b f value) c g = get t h c g := by
  apply load_store_apart
  have first := field_inside t f
  have second := field_inside t g
  omega

-- A header as one value, so that a block's description is one equation.
structure Header where
  magic : Nat
  size : Nat
  free : Nat
  next : Nat
  prev : Nat

def header (t : Target) (h : Heap) (b : Nat) : Header :=
  ⟨get t h b .magic,get t h b .size,get t h b .free,get t h b .next,get t h b .prev⟩

def Header.set (x : Header) (value : Nat) : Field → Header
  | .magic => {x with magic:=value}
  | .size => {x with size:=value}
  | .free => {x with free:=value}
  | .next => {x with next:=value}
  | .prev => {x with prev:=value}

theorem header_put (small : value < 256^t.width f) :
    header t (put t h b f value) b = (header t h b).set value f := by
  cases f
  all_goals simp [header,Header.set,get_put_same small,get_put_field]

theorem header_put_far (far : b+headerSize t ≤ c ∨ c+headerSize t ≤ b) :
    header t (put t h b f value) c = header t h c := by
  simp [header,get_put_far far]

theorem word_fits (t : Target) (small : value < 2^t.bits) (word : f = .size ∨ f = .next ∨ f = .prev) :
    value < 256^t.width f := by
  have power : 256^t.wordBytes = 2^t.bits := by cases t <;> decide
  rcases word with rfl | rfl | rfl <;> simpa [Target.width,power] using small

theorem int_fits (t : Target) (small : value < 256^4) (int : f = .magic ∨ f = .free) : value < 256^t.width f := by
  rcases int with rfl | rfl <;> exact small

-- Writing all five fields, in the order kheap_init and split write them.
theorem header_written (size : sizeValue < 2^t.bits) (next : nextValue < 2^t.bits) (prev : prevValue < 2^t.bits) :
    header t (put t (put t (put t (put t (put t h b .magic blockMagic) b .size sizeValue) b .free 1)
      b .next nextValue) b .prev prevValue) b = ⟨blockMagic,sizeValue,1,nextValue,prevValue⟩ := by
  rw [header_put (word_fits t prev (by simp)),header_put (word_fits t next (by simp)),
    header_put (int_fits t (by decide) (by simp)),header_put (word_fits t size (by simp)),
    header_put (int_fits t (by decide) (by simp))]
  rfl

-- The abstract heap: the blocks in address order. Where a block lies follows from the
-- sizes before it, because the blocks tile the region.
structure Block where
  size : Nat
  free : Bool
  deriving DecidableEq,Repr

def extent (t : Target) : List Block → Nat
  | [] => 0
  | block::rest => headerSize t+block.size+extent t rest

def addresses (t : Target) (start : Nat) : List Block → List Nat
  | [] => []
  | block::rest => start::addresses t (start+headerSize t+block.size) rest

def payloads (t : Target) (start : Nat) : List Block → List Nat
  | [] => []
  | block::rest => (if block.free then [] else [payloadOf t start])++payloads t (start+headerSize t+block.size) rest

def lastAddress (t : Target) (before start : Nat) : List Block → Nat
  | [] => before
  | block::rest => lastAddress t start (start+headerSize t+block.size) rest

def flag (free : Bool) : Nat := if free then 1 else 0

-- Memory holds these blocks from `start` on: `before` is the block in front, `after`
-- is what the last block's next pointer says.
def Laid (t : Target) (h : Heap) (before start : Nat) : List Block → Nat → Prop
  | [],_ => True
  | block::rest,after =>
    header t h start = ⟨blockMagic,block.size,flag block.free,
      if rest = [] then after else start+headerSize t+block.size,before⟩ ∧
    t.alignment ∣ block.size ∧ Laid t h start (start+headerSize t+block.size) rest after

theorem extent_append (t : Target) (left right : List Block) :
    extent t (left++right) = extent t left+extent t right := by
  induction left with
  | nil => simp [extent]
  | cons block left ih => simp only [List.cons_append,extent,ih]; omega

theorem payloads_append (t : Target) (start : Nat) (left right : List Block) :
    payloads t start (left++right) = payloads t start left++payloads t (start+extent t left) right := by
  induction left generalizing start with
  | nil => simp [payloads,extent]
  | cons block left ih =>
    simp only [List.cons_append,payloads,extent,ih,List.append_assoc]
    rw [show start+headerSize t+block.size+extent t left = start+(headerSize t+block.size+extent t left) by omega]

theorem address_bounds (member : b ∈ addresses t start blocks) :
    start ≤ b ∧ b+headerSize t ≤ start+extent t blocks := by
  induction blocks generalizing start with
  | nil => cases member
  | cons block blocks ih =>
    rw [extent]
    rcases List.mem_cons.mp member with rfl | later
    · omega
    · have bounds := ih later
      omega

theorem laid_append : Laid t h before start (left++right) after ↔
    Laid t h before start left (if right = [] then after else start+extent t left) ∧
    Laid t h (lastAddress t before start left) (start+extent t left) right after := by
  induction left generalizing before start with
  | nil => simp [Laid,lastAddress,extent]
  | cons block left ih =>
    have position : start+headerSize t+block.size+extent t left = start+extent t (block::left) := by
      simp only [extent]; omega
    simp only [List.cons_append,Laid,lastAddress,ih,position,and_assoc]
    have links : (if left++right = [] then after else start+headerSize t+block.size) =
        (if left = [] then (if right = [] then after else start+extent t (block::left))
          else start+headerSize t+block.size) := by
      cases left with
      | nil => cases right <;> simp [extent,Nat.add_assoc]
      | cons _ _ => simp
    rw [links]

theorem laid_congr (same : ∀ b ∈ addresses t start blocks, header t other b = header t h b)
    (laid : Laid t h before start blocks after) : Laid t other before start blocks after := by
  induction blocks generalizing before start with
  | nil => trivial
  | cons block blocks ih =>
    obtain ⟨here,aligned,rest⟩ := laid
    refine ⟨?_,aligned,ih (fun b member => same b (List.mem_cons_of_mem _ member)) rest⟩
    rw [same start (List.mem_cons_self ..)]
    exact here

theorem laid_put_far (far : b+headerSize t ≤ start ∨ start+extent t blocks ≤ b)
    (laid : Laid t h before start blocks after) : Laid t (put t h b f value) before start blocks after := by
  apply laid_congr _ laid
  intro c member
  have bounds := address_bounds member
  exact header_put_far (by omega)

theorem laid_relink (some : blocks ≠ []) (small : before' < 2^t.bits)
    (laid : Laid t h before start blocks after) :
    Laid t (put t h start .prev before') before' start blocks after := by
  cases blocks with
  | nil => exact absurd rfl some
  | cons block blocks =>
    obtain ⟨here,aligned,rest⟩ := laid
    refine ⟨?_,aligned,laid_put_far (by omega) rest⟩
    rw [header_put (word_fits t small (by simp)),here]
    rfl

theorem lastAddress_snoc (t : Target) (before start : Nat) (front : List Block) (block : Block) :
    lastAddress t before start (front++[block]) = start+extent t front := by
  induction front generalizing before start with
  | nil => simp [lastAddress,extent]
  | cons head front ih =>
    simp only [List.cons_append,lastAddress,ih,extent]
    omega

-- What kmalloc does to the block it takes, and what merge_with_next does to a free
-- block and its successor.
def carve (t : Target) (block : Block) (size : Nat) : List Block :=
  if block.size < size+headerSize t+t.alignment then [⟨block.size,false⟩]
  else [⟨size,false⟩,⟨block.size-size-headerSize t,true⟩]

-- The same before the block is marked used.
def divide (t : Target) (block : Block) (size : Nat) : List Block :=
  if block.size < size+headerSize t+t.alignment then [block]
  else [⟨size,block.free⟩,⟨block.size-size-headerSize t,true⟩]

def absorb (t : Target) (block : Block) : List Block → List Block
  | [] => [block]
  | next::rest => if next.free then ⟨block.size+headerSize t+next.size,true⟩::rest else block::next::rest

theorem header_fields (here : header t h b = ⟨magic,size,free,next,prev⟩) :
    get t h b .magic = magic ∧ get t h b .size = size ∧ get t h b .free = free ∧
      get t h b .next = next ∧ get t h b .prev = prev :=
  ⟨congrArg Header.magic here,congrArg Header.size here,congrArg Header.free here,congrArg Header.next here,
    congrArg Header.prev here⟩

theorem header_free (here : header t h b = ⟨magic,size,free,next,prev⟩) (small : value < 256^4) :
    header t (put t h b .free value) b = ⟨magic,size,value,next,prev⟩ := by
  rw [header_put (int_fits t small (by simp)),here]
  rfl

-- The successor's back pointer, when there is a successor.
theorem laid_successor (room : start+extent t blocks < 2^t.bits) (pos : 0 < start) (small : before' < start)
    (laid : Laid t h before start blocks 0) :
    Laid t (if (if blocks = [] then 0 else start) = 0 then h
      else put t h (if blocks = [] then 0 else start) .prev before') before' start blocks 0 := by
  by_cases empty : blocks = []
  · subst empty; trivial
  · rw [if_neg empty,if_neg (by omega)]
    exact laid_relink empty (by omega) laid

theorem successor_far (blocks : List Block) (far : c+headerSize t ≤ start) :
    header t (if (if blocks = [] then 0 else start) = 0 then h
      else put t h (if blocks = [] then 0 else start) .prev value) c = header t h c := by
  by_cases empty : blocks = []
  · simp [empty]
  · rw [if_neg empty]
    split
    · rfl
    · exact header_put_far (.inr far)

theorem split_parts (here : header t h b = ⟨blockMagic,size,free,if rest = [] then 0 else b+headerSize t+size,before⟩)
    (laid : Laid t h b (b+headerSize t+size) rest 0) (room : b+headerSize t+size+extent t rest < 2^t.bits)
    (large : wanted+headerSize t+t.alignment ≤ size) (pos : 0 < b) :
    header t (split t h b wanted) b = ⟨blockMagic,wanted,free,b+headerSize t+wanted,before⟩ ∧
    header t (split t h b wanted) (b+headerSize t+wanted) = ⟨blockMagic,size-wanted-headerSize t,1,
      if rest = [] then 0 else b+headerSize t+size,b⟩ ∧
    Laid t (split t h b wanted) (b+headerSize t+wanted) (b+headerSize t+size) rest 0 ∧
    ∀ c, c+headerSize t ≤ b → header t (split t h b wanted) c = header t h c := by
  obtain ⟨_,sizeIs,freeIs,nextIs,prevIs⟩ := header_fields here
  have align := alignment_pos t
  have hpos := header_pos t
  have bound : wrap t.bits (wanted+headerSize t+t.alignment) = wanted+headerSize t+t.alignment :=
    wrap_small (by omega)
  have successorSmall : (if rest = [] then 0 else b+headerSize t+size) < 2^t.bits := by split <;> omega
  -- Reads of b between the writes to the remainder see the old header.
  have apart : b+headerSize t+wanted+headerSize t ≤ b ∨ b+headerSize t ≤ b+headerSize t+wanted := by omega
  unfold split
  rw [sizeIs,bound,if_neg (by omega)]
  simp only [payloadOf,get_put_far apart,sizeIs,nextIs]
  refine ⟨?_,?_,?_,?_⟩
  · rw [header_put (word_fits t (by omega) (by simp)),header_put (word_fits t (by omega) (by simp)),
      successor_far rest (by omega)]
    simp only [header_put_far apart,here]
    rfl
  · rw [header_put_far (by omega),header_put_far (by omega),successor_far rest (by omega)]
    exact header_written (by omega) successorSmall (by omega)
  · apply laid_put_far (by omega)
    apply laid_put_far (by omega)
    apply laid_successor (by omega) (by omega) (by omega)
    iterate 5 apply laid_put_far (by omega)
    exact laid
  · intro c before
    rw [header_put_far (by omega),header_put_far (by omega),successor_far rest (by omega)]
    iterate 5 rw [header_put_far (by omega)]

theorem laid_divide (laid : Laid t h before b (⟨size,true⟩::rest) 0)
    (room : b+extent t (⟨size,true⟩::rest) < 2^t.bits) (modest : size+headerSize t+t.alignment < 2^t.bits)
    (fits : wanted ≤ size) (aligned : t.alignment ∣ wanted) (pos : 0 < b) :
    Laid t (split t h b wanted) before b (divide t ⟨size,true⟩ wanted++rest) 0 ∧
    ∀ c, c+headerSize t ≤ b → header t (split t h b wanted) c = header t h c := by
  obtain ⟨here,sizeAligned,tail⟩ := laid
  simp only [extent] at here sizeAligned tail room
  unfold divide
  by_cases small : size < wanted+headerSize t+t.alignment
  · have unsplit : split t h b wanted = h := by
      unfold split
      rw [(header_fields here).2.1,wrap_small (by omega),if_pos small]
    rw [unsplit,if_pos small]
    exact ⟨⟨here,sizeAligned,tail⟩,fun c before => rfl⟩
  · obtain ⟨hereAfter,restAfter,tailAfter,others⟩ := @split_parts _ _ _ _ _ _ _ wanted here tail (by omega) (by omega) pos
    have hpos := header_pos t
    rw [if_neg small]
    refine ⟨⟨?_,aligned,?_,?_,?_⟩,others⟩
    · rw [hereAfter]
      simp
    · rw [restAfter]
      have position : b+headerSize t+wanted+headerSize t+(size-wanted-headerSize t) = b+headerSize t+size := by omega
      simp [flag,position]
    · exact Nat.dvd_sub (Nat.dvd_sub sizeAligned aligned) (alignment_header t)
    · rw [show b+headerSize t+wanted+headerSize t+(size-wanted-headerSize t) = b+headerSize t+size by omega]
      exact tailAfter

theorem merge_parts (here : header t h b = ⟨blockMagic,size,1,b+headerSize t+size,before⟩)
    (next : header t h (b+headerSize t+size) = ⟨blockMagic,nextSize,1,
      if rest = [] then 0 else b+headerSize t+size+headerSize t+nextSize,b⟩)
    (laid : Laid t h (b+headerSize t+size) (b+headerSize t+size+headerSize t+nextSize) rest 0)
    (room : b+headerSize t+size+headerSize t+nextSize+extent t rest < 2^t.bits) (pos : 0 < b) :
    header t (mergeWithNext t h b) b = ⟨blockMagic,size+headerSize t+nextSize,1,
      if rest = [] then 0 else b+headerSize t+size+headerSize t+nextSize,before⟩ ∧
    Laid t (mergeWithNext t h b) b (b+headerSize t+size+headerSize t+nextSize) rest 0 ∧
    ∀ c, c+headerSize t ≤ b → header t (mergeWithNext t h b) c = header t h c := by
  obtain ⟨_,sizeIs,freeIs,nextIs,prevIs⟩ := header_fields here
  obtain ⟨_,nextSizeIs,nextFreeIs,nextNextIs,_⟩ := header_fields next
  have hpos := header_pos t
  have apart : b+headerSize t ≤ b+headerSize t+size ∨ b+headerSize t+size+headerSize t ≤ b := by omega
  have successorSmall : (if rest = [] then 0 else b+headerSize t+size+headerSize t+nextSize) < 2^t.bits := by
    split <;> omega
  unfold mergeWithNext
  simp only [nextIs,nextFreeIs,freeIs,sizeIs,nextSizeIs,get_put_far apart,nextNextIs]
  rw [if_neg (by omega),wrap_small (by omega)]
  refine ⟨?_,?_,?_⟩
  · rw [header_put_far (by omega),successor_far rest (by omega),header_put (word_fits t successorSmall (by simp)),
      header_put (word_fits t (by omega) (by simp)),here]
    rfl
  · apply laid_put_far (by omega)
    apply laid_successor (by omega) (by omega) (by omega)
    apply laid_put_far (by omega)
    apply laid_put_far (by omega)
    exact laid
  · intro c before
    rw [header_put_far (by omega),successor_far rest (by omega),header_put_far (by omega),header_put_far (by omega)]

theorem unmerged (laid : Laid t h before b (block::rest) 0) (busy : ∀ next ∈ rest.head?,next.free = false) :
    mergeWithNext t h b = h := by
  obtain ⟨here,_,tail⟩ := laid
  unfold mergeWithNext
  rw [(header_fields here).2.2.2.1]
  cases rest with
  | nil => simp
  | cons next rest =>
    simp only [List.cons_ne_nil,if_false,(header_fields tail.1).2.2.1]
    simp [flag,busy next rfl]

theorem laid_absorb (laid : Laid t h before b (⟨size,true⟩::rest) 0)
    (room : b+extent t (⟨size,true⟩::rest) < 2^t.bits) (pos : 0 < b) :
    Laid t (mergeWithNext t h b) before b (absorb t ⟨size,true⟩ rest) 0 ∧
    ∀ c, c+headerSize t ≤ b → header t (mergeWithNext t h b) c = header t h c := by
  cases rest with
  | nil =>
    rw [unmerged laid fun _ first => by cases first]
    exact ⟨laid,fun _ _ => rfl⟩
  | cons next rest =>
    obtain ⟨nextSize,nextFree⟩ := next
    cases nextFree with
    | false =>
      rw [unmerged laid fun _ first => by cases first; rfl]
      exact ⟨laid,fun _ _ => rfl⟩
    | true =>
      obtain ⟨here,sizeAligned,nextHere,nextAligned,nextTail⟩ := laid
      simp only [extent] at *
      obtain ⟨merged,relinked,others⟩ := merge_parts here nextHere nextTail (by omega) pos
      have position : b+headerSize t+(size+headerSize t+nextSize) =
          b+headerSize t+size+headerSize t+nextSize := by omega
      refine ⟨⟨?_,?_,?_⟩,others⟩
      · simp only [position]
        exact merged
      · exact Nat.dvd_add (Nat.dvd_add sizeAligned (alignment_header t)) nextAligned
      · simpa only [position] using relinked

end Arthic.KheapBlocks
