import Arthic.FileWrites

namespace Arthic.FileTable
open BitWords ByteMemory Unsigned FileSystem FileLayout FileWrites
variable {f after : Fs} {count : Nat → Nat}

-- The string that starts at a is exactly these bytes.
def Spells (a : Nat → Byte) (bytes : List Byte) : Prop :=
  (∀ k < bytes.length,a k = bytes.getD k 0#8) ∧ a bytes.length = 0#8

theorem kstrcmp_spells (terminated : 0#8 ∉ bytes) : kstrcmp a bytes = 0 ↔ Spells a bytes := by
  induction bytes generalizing a with
  | nil =>
    simp only [kstrcmp,Spells,List.length_nil,Nat.not_lt_zero,false_implies,implies_true,true_and]
    rw [Int.natCast_eq_zero]
    exact ⟨fun zero => BitVec.eq_of_toNat_eq zero,fun zero => by rw [zero]; rfl⟩
  | cons b rest ih =>
    simp only [List.mem_cons,not_or] at terminated
    unfold kstrcmp
    by_cases here : a 0 ≠ 0#8 ∧ a 0 = b
    · rw [if_pos here,ih terminated.2]
      constructor
      · rintro ⟨later,ends⟩
        refine ⟨?_,ends⟩
        intro k below
        cases k with
        | zero => exact here.2
        | succ k => exact later k (by simpa using below)
      · rintro ⟨all,ends⟩
        exact ⟨fun k below => all (k+1) (by simpa using below),ends⟩
    · rw [if_neg here]
      constructor
      · intro difference
        have equal : a 0 = b := BitVec.eq_of_toNat_eq (by omega)
        exact absurd ⟨fun zero => terminated.1 (zero.symm.trans equal),equal⟩ here
      · rintro ⟨all,_⟩
        have equal : a 0 = b := all 0 (by simp)
        exact absurd ⟨fun zero => terminated.1 (zero.symm.trans equal),equal⟩ here

theorem spells_shorter (first : Spells a bytes) (second : Spells a other) (terminated : 0#8 ∉ other) :
    other.length ≤ bytes.length := by
  by_contra longer
  have inside := second.1 bytes.length (by omega)
  rw [first.2,List.getD_eq_getElem?_getD,List.getElem?_eq_getElem (by omega),Option.getD_some] at inside
  exact terminated (inside ▸ List.getElem_mem _)

theorem spells_unique (first : Spells a bytes) (second : Spells a other) (terminated : 0#8 ∉ bytes)
    (terminatedToo : 0#8 ∉ other) : bytes = other := by
  have lengths : bytes.length = other.length :=
    Nat.le_antisymm (spells_shorter second first terminated) (spells_shorter first second terminatedToo)
  apply List.ext_getElem lengths
  intro k below belowToo
  have here := (first.1 k below).symm.trans (second.1 k belowToo)
  simpa [List.getD_eq_getElem?_getD,List.getElem?_eq_getElem below,List.getElem?_eq_getElem belowToo] using here

theorem CString.same {name other : CString} (bytes : name.bytes = other.bytes) : name = other := by
  cases name; cases other; cases bytes; rfl

def claims (f : Fs) (i : Nat) : Nat := if get f i .used = 0 then 0 else blocks (get f i .size)
def contentOf (f : Fs) (i : Nat) : List Byte := (List.range (get f i .size)).map (byteAt f i)

-- What an entry says: nothing, or that a file of this name has this content.
abbrev Row := Option (CString × List Byte)

def Shows (f : Fs) (i : Nat) : Row → Prop
  | none => get f i .used = 0
  | some (name,content) => get f i .used ≠ 0 ∧ Spells (nameOf f i) name.bytes ∧ name.bytes ≠ [] ∧
      name.bytes.length < fsNameMax ∧ content = contentOf f i

structure Table (f : Fs) (rows : Nat → Row) : Prop where
  mounted : f.mounted = true
  layout : Layout f (claims f)
  shows : ∀ i < fsMaxFiles,Shows f i (rows i)
  distinct : ∀ i < fsMaxFiles,∀ j < fsMaxFiles,∀ name c d,rows i = some (name,c) → rows j = some (name,d) → i = j

theorem shows_unused (table : Table f rows) (entry : i < fsMaxFiles) : get f i .used = 0 ↔ rows i = none := by
  have here := table.shows i entry
  cases row : rows i with
  | none =>
    rw [row] at here
    exact ⟨fun _ => rfl,fun _ => here⟩
  | some pair =>
    obtain ⟨name,content⟩ := pair
    rw [row] at here
    exact ⟨fun zero => absurd zero here.1,nofun⟩

theorem matches_row (table : Table f rows) (entry : i < fsMaxFiles) (name : CString) :
    (get f i .used ≠ 0 ∧ kstrcmp (nameOf f i) name.bytes = 0) ↔ ∃ content,rows i = some (name,content) := by
  have here := table.shows i entry
  rw [kstrcmp_spells name.terminated]
  cases row : rows i with
  | none =>
    rw [row] at here
    exact ⟨fun both => absurd here both.1,nofun⟩
  | some pair =>
    obtain ⟨own,content⟩ := pair
    rw [row] at here
    obtain ⟨used,spelled,_,_,_⟩ := here
    constructor
    · rintro ⟨_,same⟩
      have equal := CString.same (spells_unique same spelled name.terminated own.terminated)
      exact ⟨content,by rw [equal]⟩
    · rintro ⟨other,equal⟩
      cases Option.some.inj equal
      exact ⟨used,spelled⟩

theorem findEntry_parts (table : Table f rows) (name : CString) :
    findEntry f name = none ∧ (∀ i < fsMaxFiles,∀ content,rows i ≠ some (name,content)) ∨
    ∃ i < fsMaxFiles,∃ content,findEntry f name = some i ∧ rows i = some (name,content) := by
  cases found : findEntry f name with
  | none =>
    refine .inl ⟨rfl,?_⟩
    intro i entry content row
    have missed := List.find?_eq_none.mp found i (List.mem_range.mpr entry)
    exact missed (decide_eq_true ((matches_row table entry name).mpr ⟨content,row⟩))
  | some i =>
    have entry := List.mem_range.mp (List.mem_of_find?_eq_some found)
    unfold findEntry at found
    have hit := List.find?_some found
    simp only [decide_eq_true_eq] at hit
    obtain ⟨content,row⟩ := (matches_row table entry name).mp hit
    exact .inr ⟨i,entry,content,rfl,row⟩

theorem get_head (heads : ∀ x < 40,after.directory (i*entrySize+x) = f.directory (i*entrySize+x))
    (low : field.offset+4 ≤ 40) : get after i field = get f i field := by
  apply load_congr
  intro k below
  rw [Nat.add_assoc]
  exact heads _ (by omega)

theorem claims_head (heads : ∀ x < 40,after.directory (i*entrySize+x) = f.directory (i*entrySize+x)) :
    claims after i = claims f i := by
  rw [claims,get_head heads (by decide),get_head heads (by decide),claims]

-- Entries whose heads and data are as they were show what they showed.
theorem shows_same (shown : Shows f i row) (heads : ∀ x < 40,after.directory (i*entrySize+x) = f.directory (i*entrySize+x))
    (data : ∀ k < claims f i,
      dataBlock after i k = dataBlock f i k ∧ block after (dataBlock f i k) = block f (dataBlock f i k)) :
    Shows after i row ∧ claims after i = claims f i := by
  have used : get after i .used = get f i .used := get_head heads (by decide)
  have size : get after i .size = get f i .size := get_head heads (by decide)
  refine ⟨?_,by rw [claims,used,size,claims]⟩
  cases row with
  | none => rw [Shows,used]; exact shown
  | some pair =>
    obtain ⟨name,content⟩ := pair
    obtain ⟨busy,⟨spelled,ends⟩,nonempty,short,content⟩ := shown
    refine ⟨by rw [used]; exact busy,⟨?_,?_⟩,nonempty,short,?_⟩
    · intro k below
      rw [nameOf,heads k (by simp only [fsNameMax] at short; omega)]
      exact spelled k below
    · rw [nameOf,heads _ (by simp only [fsNameMax] at short; omega)]
      exact ends
    · rw [content,contentOf,contentOf,size]
      apply List.map_congr_left
      intro p member
      have below := List.mem_range.mp member
      obtain ⟨place,same⟩ := data (p/fsBlockSize) (by
        rw [claims,if_neg busy]
        simp only [blocks,fsBlockSize]
        omega)
      rw [byteAt,byteAt,place,same]

-- One entry changed; the rest of the table is as before.
theorem table_change (table : Table f rows) (mounted : after.mounted = true) (layout : Layout after (claims after))
    (heads : ∀ j < fsMaxFiles,j ≠ i → ∀ x < 40,after.directory (j*entrySize+x) = f.directory (j*entrySize+x))
    (others : OthersKept (claims f) i f after) (here : i < fsMaxFiles → Shows after i row)
    (new : ∀ j < fsMaxFiles,j ≠ i → ∀ name c d,row = some (name,c) → rows j ≠ some (name,d)) :
    Table after (Function.update rows i row) := by
  refine ⟨mounted,layout,?_,?_⟩
  · intro j entry
    by_cases equal : j = i
    · subst equal
      rw [Function.update_self]
      exact here entry
    · rw [Function.update_of_ne equal]
      exact (shows_same (table.shows j entry) (heads j entry equal) (others j entry equal)).1
  · intro j entryJ k entryK name c d first second
    by_cases atJ : j = i
    · by_cases atK : k = i
      · rw [atJ,atK]
      · subst atJ
        rw [Function.update_self] at first
        rw [Function.update_of_ne atK] at second
        exact absurd second (new k entryK atK name c d first)
    · rw [Function.update_of_ne atJ] at first
      by_cases atK : k = i
      · subst atK
        rw [Function.update_self] at second
        exact absurd first (new j entryJ atJ name d c second)
      · rw [Function.update_of_ne atK] at second
        exact table.distinct j entryJ k entryK name c d first second

-- The metadata sectors hold no file data.
theorem writeDirectory_parts (ready : Ready f) (sectors : List Nat) (low : ∀ i ∈ sectors,i < fsDirSectors) :
    ∃ disk,writeDirectoryFrom f sectors = (true,{f with disk:=disk}) ∧ Ready {f with disk:=disk} ∧
      ∀ b,block {f with disk:=disk} b = block f b := by
  induction sectors generalizing f with
  | nil => exact ⟨f.disk,rfl,ready,fun _ => rfl⟩
  | cons i rest ih =>
    have below := low i (List.mem_cons_self ..)
    have enough := ready.enough
    have small : fsDirStart+i < f.disk.totalSectors ∧ fsDirStart+i < 2^28 := by
      simp only [fsDirStart,fsDirSectors,fsDataStart] at *
      omega
    obtain ⟨disk,written,still,same⟩ := ih (@ready_putSector _ (fsDirStart+i) (fun k => f.directory (i*sectorSize+k)) ready) (fun j member => low j (List.mem_cons_of_mem _ member))
    refine ⟨disk,?_,still,?_⟩
    · unfold writeDirectoryFrom
      rw [write_sector ready small.1 small.2]
      exact written
    · intro b
      refine (same b).trans ?_
      simp only [block,putSector]
      rw [Function.update_of_ne]
      simp only [fsDataStart,fsDirStart,fsDirSectors] at *
      omega

theorem save_parts (ready : Ready f) :
    ∃ disk,saveMetadata f = (true,{f with disk:=disk}) ∧ Ready {f with disk:=disk} ∧
      ∀ b,block {f with disk:=disk} b = block f b := by
  obtain ⟨disk,written,still,same⟩ := writeDirectory_parts ready (List.range fsDirSectors)
    (fun i member => List.mem_range.mp member)
  have enough := still.enough
  have small : fsBitmapSector < disk.totalSectors := by
    simp only [fsDataStart,fsBitmapSector] at *
    omega
  refine ⟨(putSector {f with disk:=disk} fsBitmapSector f.bitmap).disk,?_,ready_putSector still,?_⟩
  · rw [saveMetadata,writeDirectory,written]
    dsimp only
    rw [if_neg (by simp),write_sector (f:={f with disk:=disk}) still small (by decide)]
  · intro b
    rw [←same b]
    simp only [block,putSector]
    rw [Function.update_of_ne]
    simp only [fsDataStart,fsBitmapSector]
    omega

-- A change of the disk that leaves every block is no change.
theorem table_disk {disk : Disk} (table : Table f rows) (ready : Ready {f with disk:=disk})
    (same : ∀ b,block {f with disk:=disk} b = block f b) : Table {f with disk:=disk} rows := by
  have data : ∀ i k,dataBlock {f with disk:=disk} i k = dataBlock f i k := by
    intro i k
    unfold dataBlock
    split
    · rfl
    · rw [same]
      rfl
  refine ⟨table.mounted,layout_same table.layout ready rfl (fun _ _ => rfl) (fun i _ k _ => data i k) (fun _ marked => marked),
    ?_,table.distinct⟩
  intro i entry
  exact (@shows_same _ {f with disk:=disk} _ _ (table.shows i entry) (fun _ _ => rfl)
    (fun k _ => ⟨data i k,same _⟩)).1

theorem saved_table (table : Table f rows) : (saveMetadata f).1 = true ∧ Table (saveMetadata f).2 rows := by
  obtain ⟨disk,saved,ready,same⟩ := save_parts table.layout.ready
  rw [saved]
  exact ⟨rfl,table_disk table ready same⟩

theorem layout_clear (valid : Layout f count) (none : count i = 0) : Layout (clearEntry f i) count := by
  have others : ∀ j,j ≠ i → ∀ field,Field.fits field → get (clearEntry f i) j field = get f j field :=
    fun j different field fits => get_clear_other different.symm fits
  have claimed : ∀ j k,k < count j → j ≠ i := by
    rintro j k less rfl
    omega
  refine layout_shrink valid ⟨valid.ready.present,valid.ready.works,valid.ready.start,valid.ready.tracked,
    valid.ready.enough⟩ rfl (fun _ _ => Nat.le_refl _) ?_ ?_ ?_ (fun _ _ marked => marked)
  · intro j _ some
    by_cases equal : j = i
    · subst equal
      exact absurd (get_clear (by trivial)) some
    · exact others j equal _ (by trivial)
  · intro j entry more
    rw [others j (claimed j _ more) _ (by trivial)]
    exact valid.reach j entry more
  · intro j entry k less
    unfold dataBlock
    split
    · rename_i direct; exact others j (claimed j k less) _ direct
    · rw [others j (claimed j k less) _ (by trivial)]
      rfl

-- A change inside the first forty bytes of one entry.
theorem layout_head (valid : Layout f count) (low : i*entrySize ≤ addr) (high : addr+length ≤ i*entrySize+40)
    (source : Nat → Byte) : Layout {f with directory:=patch f.directory addr length source} count := by
  have fields : ∀ j field,40 ≤ field.offset → Field.fits field →
      get {f with directory:=patch f.directory addr length source} j field = get f j field := by
    intro j field behind fits
    obtain ⟨_,_,_⟩ := offset_bounds fits
    apply load_patch
    simp only [entrySize] at *
    omega
  refine layout_same valid ⟨valid.ready.present,valid.ready.works,valid.ready.start,valid.ready.tracked,
    valid.ready.enough⟩ rfl (fun j _ => fields j .indirect (by decide) (by trivial)) ?_ (fun _ marked => marked)
  intro j entry k less
  unfold dataBlock
  split
  · rename_i direct
    exact fields j _ (by simp only [Field.offset,fsNameMax]; omega) direct
  · rw [fields j .indirect (by decide) (by trivial)]
    rfl

-- Only the directory's bytes of one entry have changed.
structure Edited (i : Nat) (f after : Fs) : Prop where
  disk : after.disk = f.disk
  super : after.super = f.super
  mounted : after.mounted = f.mounted
  bitmap : after.bitmap = f.bitmap
  outside : ∀ j,j ≠ i → ∀ x < entrySize,after.directory (j*entrySize+x) = f.directory (j*entrySize+x)

theorem edited_trans {middle : Fs} (first : Edited i f middle) (second : Edited i middle after) : Edited i f after :=
  ⟨second.disk.trans first.disk,second.super.trans first.super,second.mounted.trans first.mounted,
    second.bitmap.trans first.bitmap,
    fun j different x below => (second.outside j different x below).trans (first.outside j different x below)⟩

theorem edited_patch (f : Fs) (low : i*entrySize ≤ addr) (high : addr+length ≤ i*entrySize+entrySize)
    (source : Nat → Byte) : Edited i f {f with directory:=patch f.directory addr length source} := by
  refine ⟨rfl,rfl,rfl,rfl,?_⟩
  intro j different x inside
  apply patch_outside
  simp only [entrySize] at *
  omega

theorem edited_clear (f : Fs) (i : Nat) : Edited i f (clearEntry f i) :=
  edited_patch f (Nat.le_refl _) (Nat.le_refl _) (fun _ => 0#8)

theorem edited_put (f : Fs) (i value : Nat) (fits : Field.fits field) : Edited i f (put f i field value) := by
  obtain ⟨_,_,_⟩ := offset_bounds fits
  exact edited_patch f (by omega) (by simp only [entrySize]; omega) (digit value)

theorem edited_get (edited : Edited i f after) (different : j ≠ i) (fits : Field.fits field) :
    get after j field = get f j field := by
  obtain ⟨_,_,_⟩ := offset_bounds fits
  apply load_congr
  intro k below
  rw [Nat.add_assoc]
  exact edited.outside j different _ (by simp only [entrySize]; omega)

theorem edited_others (edited : Edited i f after) (count : Nat → Nat) : OthersKept count i f after := by
  intro j _ different k _
  have same : block after = block f := by
    funext b
    rw [block,edited.disk,block]
  refine ⟨?_,by rw [same]⟩
  unfold dataBlock
  split
  · rename_i direct
    exact edited_get edited different direct
  · rw [same,edited_get edited different (by trivial)]

theorem others_trans {middle : Fs} (first : OthersKept count i f middle) (second : OthersKept count i middle after) :
    OthersKept count i f after := by
  intro j entry different k less
  obtain ⟨placeFirst,sameFirst⟩ := first j entry different k less
  obtain ⟨placeSecond,sameSecond⟩ := second j entry different k less
  rw [placeFirst] at placeSecond sameSecond
  exact ⟨placeSecond,sameSecond.trans sameFirst⟩

theorem edited_heads (edited : Edited i f after) (different : j ≠ i) (below : x < 40) :
    after.directory (j*entrySize+x) = f.directory (j*entrySize+x) :=
  edited.outside j different x (by simp only [entrySize]; omega)

theorem byteAt_head (f : Fs) (i p : Nat) (high : addr+length ≤ i*entrySize+40) (source : Nat → Byte) :
    byteAt {f with directory:=patch f.directory addr length source} i p = byteAt f i p := by
  have fields : ∀ field : Field,40 ≤ field.offset →
      get {f with directory:=patch f.directory addr length source} i field = get f i field := by
    intro field behind
    apply load_patch
    omega
  unfold byteAt dataBlock
  rw [fields .indirect (by decide),fields (.direct _) (by simp only [Field.offset,fsNameMax]; omega)]
  rfl

theorem layout_put (valid : Layout f count) (head : field.offset+4 ≤ 40) (i value : Nat) :
    Layout (put f i field value) count := layout_head (i:=i) valid (by omega) (by omega) (digit value)

theorem byteAt_put (f : Fs) (i p value : Nat) (head : field.offset+4 ≤ 40) : byteAt (put f i field value) i p = byteAt f i p :=
  byteAt_head f i p (by omega) (digit value)

end Arthic.FileTable
