import Arthic.LoaderContents
import Arthic.SyscallSafety

namespace Arthic.ProgramImage
open AddressSpaces ByteMemory FileSystem Latest LoadedImage Loader LoaderContents LoaderTraces PageTree PageTables Paging Pmm
  SyscallSafety TableGrowth Unsigned
variable {m now origin : Mmu} {own : List Nat} {pieces : List Piece}

def executable (page : Page) : Bool := !has page.directory pageNx && !has page.leaf pageNx

-- A byte as the program finds it.
structure Seen (mem : Memory) (pdpt v : Nat) (page : Page) (value : Byte) : Prop where
  found : walk mem pdpt v = some page
  user : page.user = true
  byte : mem (address page.leaf+v%pageSize) = value

theorem seen_unique (one : Seen mem pdpt v page value) (other : Seen mem pdpt v page' value') : page = page' ∧ value = value' := by
  cases Option.some.inj (one.found.symm.trans other.found)
  exact ⟨rfl,one.byte.symm.trans other.byte⟩

-- What a program header says of itself.
def writes (ph : ProgramHeader) : Bool := ph.flags &&& pfW != 0#32
def executes (ph : ProgramHeader) : Bool := ph.flags &&& pfX != 0#32
def declaredByte (file : Memory) (ph : ProgramHeader) (i : Nat) : Byte :=
  if i < ph.filesz.toNat then file (ph.offset.toNat+i) else 0#8

-- The image is the one the file describes, and the argument page, if there is one, holds
-- the string.
structure Described (nx : Bool) (k : Kernel) (slot : Nat) (file : Memory) (args : Option CString) : Prop where
  segments : ∀ ph ∈ fileHeaders file,∀ i < ph.memsz.toNat,ph.vaddr.toNat+i < 2^32 ∧
    ∃ page,Seen k.mem (k.programs slot).pageDir (ph.vaddr.toNat+i) page (declaredByte file ph i) ∧
      page.writable = writes ph ∧ (nx = true → executable page = executes ph)
  args : (k.programs slot).argsPhys ≠ 0 → ∀ i < pageSize,
    ∃ page,Seen k.mem (k.programs slot).pageDir (userArgsAddr+i) page (textByte args i)

-- A page that takes the place of one of the header's own and comes out the same.
structure Agrees (nx : Bool) (file : Memory) (ph : ProgramHeader) (i : Nat) (piece : Piece) : Prop where
  byte : piece.bytes ((ph.vaddr.toNat+i)%pageSize) = declaredByte file ph i
  writes : has piece.flags pageWrite = writes ph
  executes : nx = true → has piece.flags pageNx = !executes ph

-- No segment passes the last address, and whatever is mapped over a page of one later puts
-- the same there.
def Undisturbed (m : Mmu) (file : Memory) (args : Option CString) : Prop :=
  ∀ before ph after,fileHeaders file = before++ph::after → ph.vaddr.toNat+ph.memsz.toNat ≤ 2^32 ∧
    ∀ i < ph.memsz.toNat,∀ piece,
      latest Piece.number (imagePieces file after args (ArgsRoom m file)) ((ph.vaddr.toNat+i)/pageSize) = some piece →
      Agrees m.nxSupported file ph i piece

theorem flags_segment (elfFlags : BitVec 32) : has (flagsForSegment elfFlags) pageWrite = (elfFlags &&& pfW != 0#32) ∧
    has (flagsForSegment elfFlags) pageNx = !(elfFlags &&& pfX != 0#32) := by
  unfold flagsForSegment
  dsimp only
  by_cases write : elfFlags &&& pfW = 0#32
  · by_cases execute : elfFlags &&& pfX = 0#32
    · rw [if_pos write,if_pos execute,write,execute]
      decide
    · rw [if_pos write,if_neg execute,write,bne_iff_ne.mpr execute]
      decide
  · by_cases execute : elfFlags &&& pfX = 0#32
    · rw [if_neg write,if_pos execute,bne_iff_ne.mpr write,execute]
      decide
    · rw [if_neg write,if_neg execute,bne_iff_ne.mpr write,bne_iff_ne.mpr execute]
      decide

-- What the checks leave of a header that does not pass the last address.
theorem header_small (accepted : acceptable prog size ph = true) (small : ph.vaddr.toNat+ph.memsz.toNat ≤ 2^32) :
    ph.pages = (ph.within+ph.memsz.toNat+pageSize-1)/pageSize ∧ CopyFits ph := by
  obtain ⟨_,_,smaller,_,_,low,_⟩ := acceptable_parts accepted
  obtain ⟨_,start,offset⟩ := page_within ph
  have pages : ph.pages = (ph.within+ph.memsz.toNat+pageSize-1)/pageSize := by
    rw [ProgramHeader.pages,wrap_small]
    simp only [pageSize,userLoadAddr] at *
    omega
  refine ⟨pages,?_⟩
  rw [CopyFits,pages]
  simp only [pageSize] at *
  omega

-- The page of its own a byte of a segment lies in.
theorem own_piece (accepted : acceptable prog size ph = true) (small : ph.vaddr.toNat+ph.memsz.toNat ≤ 2^32)
    (inside : i < ph.memsz.toNat) (file : Memory) (nx : Bool) :
    ∃ piece,latest Piece.number (segmentPieces file ph) ((ph.vaddr.toNat+i)/pageSize) = some piece ∧ Agrees nx file ph i piece := by
  obtain ⟨pages,_⟩ := header_small accepted small
  obtain ⟨aligned,start,offset⟩ := page_within ph
  have numbers : ∀ j < ph.pages,wrap 32 (ph.pageStart+j*pageSize)/pageSize = ph.pageStart/pageSize+j := by
    intro j below
    rw [pages] at below
    rw [wrap_small]
    all_goals
      simp only [pageSize] at *
      omega
  obtain ⟨n,page⟩ : ∃ n,n = (ph.within+i)/pageSize := ⟨_,rfl⟩
  have below : n < ph.pages := by
    rw [pages]
    simp only [pageSize] at *
    omega
  have place : (ph.vaddr.toNat+i)/pageSize = ph.pageStart/pageSize+n ∧ (ph.vaddr.toNat+i)%pageSize+n*pageSize = ph.within+i := by
    simp only [pageSize] at *
    omega
  refine ⟨⟨wrap 32 (ph.pageStart+n*pageSize)/pageSize,flagsForSegment ph.flags,fun x => segmentByte file ph (n*pageSize+x)⟩,?_,?_⟩
  · rw [place.1,←numbers n below]
    refine @latest_single _ _ _ _ (segmentPieces file ph) _ (List.mem_map_of_mem (List.mem_range.mpr below)) ?_
    intro other member same
    obtain ⟨j,inside,rfl⟩ := List.mem_map.mp member
    have short := List.mem_range.mp inside
    dsimp only at same
    rw [numbers j short,numbers n below] at same
    rw [show j = n by omega]
  · obtain ⟨write,execute⟩ := flags_segment ph.flags
    refine ⟨?_,write,fun _ => execute⟩
    dsimp only
    rw [Nat.add_comm,place.2,segmentByte,declaredByte]
    by_cases filed : i < ph.filesz.toNat
    · rw [if_pos ⟨by omega,by omega⟩,if_pos filed,Nat.add_sub_cancel_left]
    · rw [if_neg (by omega),if_neg filed]

theorem headers_accepted {indices : List Nat} (done : (loadHeaders m prog file size phoff phentsize indices).1 = true) :
    ∀ ph ∈ loadable file phoff phentsize indices,acceptable {} size ph = true := by
  induction indices generalizing m prog with
  | nil => exact fun _ member => absurd member List.not_mem_nil
  | cons i rest ih =>
    unfold loadHeaders at done
    rw [loadable_cons]
    by_cases other : (programHeader file (phoff+i*phentsize)).type = ptLoad
    · have parts := @loadSegment_parts m prog file size (programHeader file (phoff+i*phentsize))
      simp only [if_neg (not_not.mpr other),if_pos other] at done ⊢
      generalize loadSegment m prog file size (programHeader file (phoff+i*phentsize)) = answer at *
      obtain ⟨loaded,next,middle⟩ := answer
      cases loaded with
      | false => cases done
      | true =>
        intro ph member
        rcases List.mem_cons.mp member with rfl | later
        · exact ((acceptable_room prog size _).mp (parts rfl).1).1
        · exact ih done ph later
    · simp only [if_pos other,if_neg other,List.nil_append] at done ⊢
      exact ih done

theorem image_accepted (done : (loadImage m file size args).1 = some prog) :
    ∀ ph ∈ fileHeaders file,acceptable {} size ph = true := by
  unfold loadImage at done
  dsimp only at done
  split at done
  · cases done
  split at done
  · cases done
  rename_i accepted
  exact headers_accepted (by simpa using fun failed => accepted (.inl failed))

-- A page as its last piece says, as the program finds it.
theorem piece_seen (backed : Backed origin now own pieces) (low : v < 2^32)
    (last : latest Piece.number pieces (v/pageSize) = some piece) (user : has piece.flags pageUser = true) :
    ∃ page,Seen now.mem now.active v page (piece.bytes (v%pageSize)) ∧ page.writable = has piece.flags pageWrite ∧
      (now.nxSupported = true → executable page = !has piece.flags pageNx) := by
  obtain ⟨frame,_,bytes,mapped⟩ := backed.shows _ _ last
  obtain ⟨page,found,entered⟩ := mapped v low rfl
  obtain ⟨pd,pt,one,two,_,shape⟩ := (walk_iff low).mp found
  have middle := (index_bounds low).2.1
  have plain := backed.plain _ _ _ one middle (held_present two middle one)
  refine ⟨page,⟨found,?_,?_⟩,?_,?_⟩
  · rw [Page.user,entered.directory user,entered.user,user]
    rfl
  · rw [entered.leads]
    exact bytes _ (Nat.mod_lt _ (by decide))
  · rw [Page.writable,directory_writable backed.broad low found,entered.write,Bool.true_and]
  · intro nx
    have directory : has page.directory pageNx = false := by rw [shape]; exact plain
    rw [executable,directory,entered.execute,dropNx,if_pos nx,Bool.not_false,Bool.true_and]

theorem pieces_user (file : Memory) (headers : List ProgramHeader) (args : Option CString) (room : Prop) [Decidable room] :
    ∀ piece ∈ imagePieces file headers args room,has piece.flags pageUser = true := by
  intro piece member
  rcases List.mem_append.mp member with body | argument
  · rcases List.mem_append.mp body with segment | stack
    · obtain ⟨ph,_,inside⟩ := List.mem_flatMap.mp segment
      obtain ⟨i,_,rfl⟩ := List.mem_map.mp inside
      exact (flags_parts ph.flags).2
    · obtain ⟨i,_,rfl⟩ := List.mem_map.mp stack
      show has stackFlags pageUser = true
      decide
  · split at argument
    · cases List.mem_singleton.mp argument
      show has argsFlags pageUser = true
      decide
    · cases argument

theorem image_split (file : Memory) (before after : List ProgramHeader) (ph : ProgramHeader) (args : Option CString)
    (room : Prop) [Decidable room] (number : Nat) :
    latest Piece.number (imagePieces file (before++ph::after) args room) number =
      (latest Piece.number (imagePieces file after args room) number).or
        ((latest Piece.number (segmentPieces file ph) number).or (latest Piece.number (headerPieces file before) number)) := by
  have shape : imagePieces file (before++ph::after) args room =
      (headerPieces file before++segmentPieces file ph)++imagePieces file after args room := by
    simp only [imagePieces,bodyPieces,headerPieces,List.flatMap_append,List.flatMap_cons,List.append_assoc]
  rw [shape,latest_append,latest_append]

-- What the claim of a header comes to for one byte, given the page's last piece.
theorem byte_described (backed : Backed origin now own pieces) (low : ph.vaddr.toNat+i < 2^32)
    (last : latest Piece.number pieces ((ph.vaddr.toNat+i)/pageSize) = some piece) (user : has piece.flags pageUser = true) :
    (∃ page,Seen now.mem now.active (ph.vaddr.toNat+i) page (declaredByte file ph i) ∧ page.writable = writes ph ∧
      (now.nxSupported = true → executable page = executes ph)) ↔ Agrees now.nxSupported file ph i piece := by
  obtain ⟨page,seen,write,execute⟩ := piece_seen backed low last user
  constructor
  · rintro ⟨other,declared,writable,executing⟩
    obtain ⟨rfl,value⟩ := seen_unique seen declared
    refine ⟨value,write.symm.trans writable,fun nx => ?_⟩
    rw [←executing nx,execute nx,Bool.not_not]
  · intro agrees
    refine ⟨page,⟨seen.found,seen.user,seen.byte.trans agrees.byte⟩,write.trans agrees.writes,fun nx => ?_⟩
    rw [execute nx,agrees.executes nx,Bool.not_not]

theorem segments_described (backed : Backed origin now own (imagePieces file (fileHeaders file) args (ArgsRoom m file)))
    (accepted : ∀ ph ∈ fileHeaders file,acceptable {} size ph = true) (nx : now.nxSupported = m.nxSupported)
    (small : ∀ ph ∈ fileHeaders file,ph.vaddr.toNat+ph.memsz.toNat ≤ 2^32) :
    (∀ ph ∈ fileHeaders file,∀ i < ph.memsz.toNat,ph.vaddr.toNat+i < 2^32 ∧
      ∃ page,Seen now.mem now.active (ph.vaddr.toNat+i) page (declaredByte file ph i) ∧
        page.writable = writes ph ∧ (now.nxSupported = true → executable page = executes ph)) ↔ Undisturbed m file args := by
  have user := pieces_user file (fileHeaders file) args (ArgsRoom m file)
  constructor
  · intro described before ph after split
    have member : ph ∈ fileHeaders file := by rw [split]; simp
    refine ⟨small ph member,fun i inside piece last => ?_⟩
    obtain ⟨low,seen⟩ := described ph member i inside
    have all := image_split file before after ph args (ArgsRoom m file) ((ph.vaddr.toNat+i)/pageSize)
    rw [last,Option.some_or,←split] at all
    rw [←nx]
    exact (byte_described backed low all (user piece (latest_mem all).1)).mp seen
  · intro undisturbed ph member i inside
    obtain ⟨before,after,split⟩ := List.append_of_mem member
    obtain ⟨_,agrees⟩ := undisturbed before ph after split
    have bound := small ph member
    obtain ⟨piece,own,agreeing⟩ := own_piece (accepted ph member) bound inside file now.nxSupported
    have all := image_split file before after ph args (ArgsRoom m file) ((ph.vaddr.toNat+i)/pageSize)
    rw [own,Option.some_or,←split] at all
    refine ⟨by omega,?_⟩
    cases replaced : latest Piece.number (imagePieces file after args (ArgsRoom m file)) ((ph.vaddr.toNat+i)/pageSize) with
    | none =>
      rw [replaced,Option.none_or] at all
      exact (byte_described backed (by omega) all (user piece (latest_mem all).1)).mpr agreeing
    | some later =>
      rw [replaced,Option.some_or] at all
      have same := agrees i inside later replaced
      rw [←nx] at same
      exact (byte_described backed (by omega) all (user later (latest_mem all).1)).mpr same

theorem args_described {room : Prop} [Decidable room] (backed : Backed origin now own (imagePieces file headers args room))
    (there : room) (below : i < pageSize) : ∃ page,Seen now.mem now.active (userArgsAddr+i) page (textByte args i) := by
  have place : (userArgsAddr+i)/pageSize = userArgsAddr/pageSize ∧ (userArgsAddr+i)%pageSize = i := by
    simp only [userArgsAddr,pageSize] at *
    omega
  have last : latest Piece.number (imagePieces file headers args room) ((userArgsAddr+i)/pageSize) =
      some ⟨userArgsAddr/pageSize,argsFlags,textByte args⟩ := by
    rw [place.1,imagePieces,if_pos there,argsPieces,latest_snoc,if_pos rfl]
  have low : userArgsAddr+i < 2^32 := by
    simp only [userArgsAddr,pageSize] at *
    omega
  have user : has argsFlags pageUser = true := by decide
  obtain ⟨page,seen,_⟩ := piece_seen backed low last user
  rw [place.2] at seen
  exact ⟨page,seen⟩

theorem boot_ready : Ready bootKernel.mmu := by
  have top : next pae bootMem 0x103000 0 = some 0x104000 := by decide
  have rest : ∀ i < pdptEntries,0 < i → next pae bootMem 0x103000 i = none := by decide
  have directory : Held pae bootMem 0x103000 [0] 0x104000 := (held_one (by decide)).mpr top
  refine ⟨boot_kernelSpace,?_,?_,.inr (by decide)⟩
  · refine directories_one top (fun i later low => rest i low later) ?_
    show ∀ j < tableEntries,has (entry bootMem 0x104000 j) pagePresent = true → has (entry bootMem 0x104000 j) pageNx = false
    decide +kernel
  · intro j below
    change j < 2 at below
    have table : ∃ table,next pae bootMem 0x104000 j = some table := by
      have both : ∀ j < 2,(next pae bootMem 0x104000 j).isSome = true := by decide
      exact Option.isSome_iff_exists.mp (both j below)
    obtain ⟨table,leads⟩ := table
    exact ⟨table,(held_two (by simp only [tableEntries]; omega)).mpr ⟨_,directory,leads⟩⟩

theorem tiny_headers : (fileHeaders tinyFile.2).map (fun ph => (ph.vaddr,ph.memsz)) = [(0x20000000#32,4#32)] := by decide

theorem tiny_undisturbed : Undisturbed bootKernel.mmu tinyFile.2 none := by
  have last : ∀ room : Bool,latest Piece.number (imagePieces tinyFile.2 [] none room) 0x20000 = none := by
    intro room
    refine latest_none.mpr fun piece member same => ?_
    have numbers : ∀ room : Bool,0x20000 ∉ (imagePieces tinyFile.2 [] none room).map Piece.number := by decide
    exact numbers room (same ▸ List.mem_map_of_mem member)
  intro before ph after split
  have shape := tiny_headers
  rw [split,List.map_append,List.map_cons] at shape
  have lengths := congrArg List.length shape
  simp only [List.length_append,List.length_map,List.length_cons,List.length_nil] at lengths
  cases List.length_eq_zero_iff.mp (show before.length = 0 by omega)
  cases List.length_eq_zero_iff.mp (show after.length = 0 by omega)
  obtain ⟨start,size⟩ := Prod.mk.inj (List.cons_eq_cons.mp shape).1
  have place : ph.vaddr.toNat = 0x20000000 ∧ ph.memsz.toNat = 4 := by
    rw [start,size]
    decide
  refine ⟨by omega,fun i inside piece found => ?_⟩
  have page : (ph.vaddr.toNat+i)/pageSize = 0x20000 := by
    simp only [pageSize]
    omega
  have none := last (ArgsRoom bootKernel.mmu tinyFile.2)
  simp only [decide_eq_true_eq] at none
  rw [page,none] at found
  cases found

-- Two segments that meet in one page: the page of the second takes the place of the first's.
def meetElf : Memory :=
  [(44,2,2),(56,4,116),(76,4,5),(84,4,1),(88,4,116),(92,4,0x20000800),(100,4,4),(104,4,4),(108,4,6),(116,4,0xFEEB)].foldl
    (fun m (addr,width,value) => store m addr width value) tinyElf

def meetKernel : Kernel :=
  {bootKernel with fs:={tinyDisk with
    disk:={tinyDisk.disk with sectors:=fun lba => if lba = 18 then meetElf else fun _ => 0#8},
    directory:=store tinyDisk.directory 32 4 120}}

theorem meet_read : (fileIn meetKernel tinyName).isSome = true := by decide +kernel
def meetFile : Nat × Memory := (fileIn meetKernel tinyName).get meet_read

-- The program starts, and finds a zero where its first segment begins.
theorem meet_ran : (loaderRun meetKernel tinyName none).1 = true ∧
    (fileHeaders meetFile.2).map (fun ph => (ph.vaddr.toNat,ph.memsz.toNat,declaredByte meetFile.2 ph 0)) =
      [(0x20000000,4,0xEB#8),(0x20000800,4,0xEB#8)] ∧
    (walk (loaderRun meetKernel tinyName none).2.mem ((loaderRun meetKernel tinyName none).2.programs 0).pageDir
      0x20000000).map (fun page => (loaderRun meetKernel tinyName none).2.mem (address page.leaf)) = some 0#8 := by decide +kernel

end Arthic.ProgramImage
