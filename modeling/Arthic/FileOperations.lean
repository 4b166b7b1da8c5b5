import Arthic.FileTable
import Mathlib.Data.List.GetD

namespace Arthic.FileOperations
open BitWords ByteMemory Unsigned FileSystem FileLayout FileWrites FileTable
variable {f after : Fs} {rows : Nat → Row} {i : Nat}

theorem content_same (size : get after i .size = get f i .size)
    (bytes : ∀ p < get f i .size,byteAt after i p = byteAt f i p) : contentOf after i = contentOf f i := by
  rw [contentOf,contentOf,size]
  apply List.map_congr_left
  intro p member
  exact bytes p (List.mem_range.mp member)

theorem content_length (f : Fs) (i : Nat) : (contentOf f i).length = get f i .size := by simp [contentOf]

theorem content_is (size : get f i .size = content.length) (bytes : ∀ p < content.length,byteAt f i p = content.getD p 0#8) :
    contentOf f i = content := by
  apply List.ext_getElem (by rw [content_length,size])
  intro p below belowToo
  have here := bytes p belowToo
  rw [List.getD_eq_getElem?_getD,List.getElem?_eq_getElem belowToo,Option.getD_some] at here
  simpa [contentOf] using here

-- The three ways an operation ends: the table with one row changed.
theorem table_update (table : Table f rows) (mounted : after.mounted = f.mounted) (layout : Layout after (claims after))
    (heads : ∀ j < fsMaxFiles,j ≠ i → ∀ x < 40,after.directory (j*entrySize+x) = f.directory (j*entrySize+x))
    (others : OthersKept (claims f) i f after) (here : Shows after i row)
    (new : ∀ j < fsMaxFiles,j ≠ i → ∀ name c d,row = some (name,c) → rows j ≠ some (name,d)) :
    Table after (Function.update rows i row) :=
  table_change table (mounted.trans table.mounted) layout heads others (fun _ => here) new

-- The counts of a layout whose other entries are as before.
theorem layout_claims (layout : Layout after (Function.update (claims f) i n)) (here : claims after i ≤ n)
    (heads : ∀ j < fsMaxFiles,j ≠ i → ∀ x < 40,after.directory (j*entrySize+x) = f.directory (j*entrySize+x)) :
    Layout after (claims after) := by
  apply layout_mono layout
  intro j entry
  by_cases equal : j = i
  · rw [equal,Function.update_self]
    exact here
  · rw [Function.update_of_ne equal,claims_head (heads j entry equal)]

section Create
variable {name : CString} {data : List Byte}

theorem named_edited (f : Fs) (i : Nat) (name : CString) (short : length < fsNameMax) :
    Edited i f (nameEntry f i name length) := by
  refine edited_trans (edited_clear f i) (edited_patch (clearEntry f i) (Nat.le_refl _) ?_ _)
  simp only [fsNameMax,entrySize] at *
  omega

theorem named_head (f : Fs) (i : Nat) (name : CString) (short : length < fsNameMax) (fits : Field.fits field) :
    get (nameEntry f i name length) i field = 0 := by
  obtain ⟨low,_,_⟩ := offset_bounds fits
  rw [←get_clear (f:=f) (i:=i) fits]
  change load (patch (clearEntry f i).directory (i*entrySize) length _) _ 4 = load (clearEntry f i).directory _ 4
  apply load_patch
  simp only [fsNameMax] at short
  omega

theorem named_spells (f : Fs) (i : Nat) (short : name.bytes.length < fsNameMax) :
    Spells (nameOf (nameEntry f i name name.bytes.length) i) name.bytes := by
  have bytes : ∀ k,nameOf (nameEntry f i name name.bytes.length) i k = patch (clearEntry f i).directory (i*entrySize)
      name.bytes.length (fun k => name.bytes.getD k 0#8) (i*entrySize+k) := fun _ => rfl
  constructor
  · intro k below
    rw [bytes,patch_inside _ _ (by omega) (by omega),Nat.add_sub_cancel_left]
  · rw [bytes,patch_outside _ _ (by omega)]
    refine @patch_inside (i*entrySize) _ entrySize f.directory (fun _ => 0#8) (by omega) ?_
    simp only [fsNameMax,entrySize] at *
    omega

theorem named_layout (table : Table f rows) (unused : claims f i = 0) (short : length < fsNameMax) :
    Layout (nameEntry f i name length) (claims f) := by
  refine layout_head (layout_clear table.layout unused) (Nat.le_refl _) ?_ _
  simp only [fsNameMax] at short
  omega

theorem create_stored (table : Table f rows) (entry : i < fsMaxFiles)
    (absent : ∀ j < fsMaxFiles,∀ content,rows j ≠ some (name,content)) (nonempty : name.bytes ≠ [])
    (short : name.bytes.length < fsNameMax) (small : data.length < 2^32)
    (progress : Progress (nameEntry f i name name.bytes.length) after (claims f) i 0 data data.length) :
    Table (put (put after i .size data.length) i .used 1) (Function.update rows i (some (name,data))) := by
  have edited : Edited i after (put (put after i .size data.length) i .used 1) :=
    edited_trans (edited_put after i _ (by trivial)) (edited_put _ i _ (by trivial))
  have heads : ∀ j < fsMaxFiles,j ≠ i → ∀ x < 40,
      (put (put after i .size data.length) i .used 1).directory (j*entrySize+x) = f.directory (j*entrySize+x) := by
    intro j slot different x below
    rw [edited_heads edited different below,progress.frame.heads j slot x below,
      edited_heads (named_edited f i name short) different below]
  have used : get (put (put after i .size data.length) i .used 1) i .used = 1 := get_put_same (by decide)
  have size : get (put (put after i .size data.length) i .used 1) i .size = data.length := by
    rw [get_put_other (by trivial) (by trivial) (.inr (by simp)),get_put_same small]
  have bytes : ∀ p,byteAt (put (put after i .size data.length) i .used 1) i p = byteAt after i p := by
    intro p
    exact (byteAt_put _ i p _ (by decide)).trans (byteAt_put _ i p _ (by decide))
  have layout : Layout (put (put after i .size data.length) i .used 1) (Function.update (claims f) i (blocks data.length)) := by
    have stored := progress.layout
    rw [Nat.zero_add] at stored
    exact layout_put (layout_put stored (by decide) i _) (by decide) i _
  refine table_update table ?_ (layout_claims layout ?_ heads) heads ?_ ?_ ?_
  · exact (edited.mounted.trans progress.frame.mounted).trans (named_edited f i name short).mounted
  · rw [claims,used,size]
    exact Nat.le_refl _
  · exact others_trans (edited_others (named_edited f i name short) _) (others_trans progress.others (edited_others edited _))
  · have spelled := @named_spells name f i short
    have same : ∀ x < 32,nameOf (put (put after i .size data.length) i .used 1) i x = nameOf (nameEntry f i name name.bytes.length) i x := by
      intro x below
      rw [nameOf,nameOf,←progress.frame.heads i entry x (by omega)]
      refine (@patch_outside _ (i*entrySize+Field.used.offset) 4 _ (digit 1) ?_).trans
        (@patch_outside _ (i*entrySize+Field.size.offset) 4 _ (digit data.length) ?_) <;>
      · simp only [Field.offset,fsNameMax]
        omega
    refine ⟨by rw [used]; decide,⟨?_,?_⟩,nonempty,short,(content_is size ?_).symm⟩
    · intro k below
      rw [same k (by simp only [fsNameMax] at short; omega)]
      exact spelled.1 k below
    · rw [same _ short]
      exact spelled.2
    · intro p below
      rw [bytes,←progress.new p below,Nat.zero_add]
  · intro j slot _ other c d equal row
    cases Option.some.inj equal
    exact absent j slot d row

theorem create_refused (table : Table f rows) (short : name.bytes.length < fsNameMax) (unused : rows i = none) (free : claims f i = 0)
    (refused : Refused (nameEntry f i name name.bytes.length) after (claims f) i 0) : Table (clearEntry after i) rows := by
  have edited := edited_clear after i
  have heads : ∀ j < fsMaxFiles,j ≠ i → ∀ x < 40,
      (clearEntry after i).directory (j*entrySize+x) = f.directory (j*entrySize+x) := by
    intro j slot different x below
    rw [edited_heads edited different below,refused.frame.heads j slot x below,
      edited_heads (named_edited f i name short) different below]
  have used : get (clearEntry after i) i .used = 0 := get_clear (by trivial)
  have none : claims (clearEntry after i) i = 0 := by rw [claims,if_pos used]
  have layout : Layout (clearEntry after i) (Function.update (claims f) i 0) := by
    rw [←free,Function.update_eq_self]
    exact layout_clear refused.layout free
  have changed := @table_update _ _ _ _ Option.none table
    ((edited.mounted.trans refused.frame.mounted).trans (named_edited f i name short).mounted)
    (layout_claims layout (by omega) heads) heads
    (others_trans (edited_others (named_edited f i name short) _) (others_trans refused.others (edited_others edited _)))
    used (fun _ _ _ _ _ _ wrong => by cases wrong)
  rwa [←unused,Function.update_eq_self] at changed

-- The requests turned away before anything is touched.
def Denied (f : Fs) (name : CString) : Prop :=
  name.bytes = [] ∨ fsNameMax ≤ name.bytes.length ∨ (findEntry f name).isSome ∨ findFreeEntry f = none

theorem create_form (table : Table f rows) (name : CString) (data : List Byte) :
    fsCreate f name data = (false,f) ∧ Denied f name ∨
    ∃ i < fsMaxFiles,rows i = none ∧ ¬ Denied f name ∧ findFreeEntry f = some i ∧
      (∀ j < fsMaxFiles,∀ content,rows j ≠ some (name,content)) ∧ name.bytes ≠ [] ∧ name.bytes.length < fsNameMax ∧
      fsCreate f name data =
        if (writeAt (nameEntry f i name name.bytes.length) i 0 data).1 = false then
          (false,clearEntry (writeAt (nameEntry f i name name.bytes.length) i 0 data).2 i)
        else saveMetadata (put (put (writeAt (nameEntry f i name name.bytes.length) i 0 data).2 i .size data.length) i .used 1) := by
  have mounted := table.mounted
  by_cases denied : Denied f name
  · refine .inl ⟨?_,denied⟩
    unfold fsCreate
    by_cases bad : f.mounted = false ∨ name.bytes = []
    · rw [if_pos bad]
    rw [if_neg bad]
    by_cases long : fsNameMax ≤ min name.bytes.length fsNameMax
    · rw [if_pos long]
    rw [if_neg long]
    rcases denied with empty | longer | taken | none
    · exact absurd (.inr empty) bad
    · omega
    · rw [if_pos taken]
    · rw [none]
      split <;> rfl
  · have nonempty : name.bytes ≠ [] := fun empty => denied (.inl empty)
    have short : name.bytes.length < fsNameMax := Nat.lt_of_not_le fun long => denied (.inr (.inl long))
    cases free : findFreeEntry f with
    | none => exact absurd (.inr (.inr (.inr free))) denied
    | some i =>
      have entry := List.mem_range.mp (List.mem_of_find?_eq_some free)
      have zero : get f i .used = 0 := by
        unfold findFreeEntry at free
        simpa using List.find?_some free
      rcases findEntry_parts table name with ⟨missing,absent⟩ | ⟨j,_,_,found,_⟩
      · refine .inr ⟨i,entry,(shows_unused table entry).mp zero,denied,rfl,absent,nonempty,short,?_⟩
        unfold fsCreate
        rw [if_neg (by rw [mounted]; simp [nonempty]),if_neg (by omega),missing,if_neg (by simp),free]
        dsimp only
        rw [Nat.min_eq_left (Nat.le_of_lt short)]
      · exact absurd (.inr (.inr (.inl (by rw [found]; rfl)))) denied

theorem fsCreate_parts (table : Table f rows) (name : CString) (data : List Byte) (small : data.length < 2^32) :
    (fsCreate f name data).1 = true ∧ (∀ j < fsMaxFiles,∀ content,rows j ≠ some (name,content)) ∧
      (∃ i < fsMaxFiles,rows i = none ∧ Table (fsCreate f name data).2 (Function.update rows i (some (name,data)))) ∨
    (fsCreate f name data).1 = false ∧ Table (fsCreate f name data).2 rows := by
  rcases create_form table name data with ⟨form,_⟩ | ⟨i,entry,unused,_,_,absent,nonempty,short,form⟩
  · rw [form]
    exact .inr ⟨rfl,table⟩
  · have nothing : claims f i = 0 := by rw [claims,if_pos ((shows_unused table entry).mpr unused)]
    have empty : get (nameEntry f i name name.bytes.length) i .size = 0 := named_head f i name short (by trivial)
    have outcome := writeAt_parts (@named_layout _ _ _ name _ table nothing short) entry (by rw [nothing,empty]; rfl) data
    rw [empty] at outcome
    rw [form]
    generalize writeAt (nameEntry f i name name.bytes.length) i 0 data = answer at *
    obtain ⟨written,after⟩ := answer
    rcases outcome with ⟨succeeded,progress⟩ | ⟨failed,refused⟩
    · cases succeeded
      obtain ⟨saved,final⟩ := saved_table (create_stored table entry absent nonempty short small progress)
      exact .inl ⟨saved,absent,i,entry,unused,final⟩
    · cases failed
      exact .inr ⟨rfl,create_refused table short unused nothing refused⟩

end Create

section Append
variable {name : CString} {data old : List Byte}

-- What the row of a file says of its entry.
theorem shows_file (table : Table f rows) (entry : i < fsMaxFiles) (row : rows i = some (name,old)) :
    Shows f i (some (name,old)) ∧ claims f i = blocks (get f i .size) ∧ blocks (get f i .size) ≤ fsMaxBlocks := by
  have shown := table.shows i entry
  rw [row] at shown
  have claimed : claims f i = blocks (get f i .size) := by rw [claims,if_neg shown.1]
  refine ⟨shown,claimed,?_⟩
  rw [←claimed]
  exact table.layout.short i entry

-- The name and the flag are as before, the content is the one given.
theorem shows_rewritten (shown : Shows f i (some (name,old))) (used : get after i .used = get f i .used)
    (names : ∀ x < 32,after.directory (i*entrySize+x) = f.directory (i*entrySize+x)) (content : contentOf after i = now) :
    Shows after i (some (name,now)) := by
  obtain ⟨busy,⟨spelled,ends⟩,nonempty,short,_⟩ := shown
  refine ⟨by rw [used]; exact busy,⟨?_,?_⟩,nonempty,short,content.symm⟩
  · intro k below
    rw [nameOf,names k (by simp only [fsNameMax] at short; omega)]
    exact spelled k below
  · rw [nameOf,names _ short]
    exact ends

theorem append_stored (table : Table f rows) (entry : i < fsMaxFiles) (row : rows i = some (name,old))
    (progress : Progress f after (claims f) i (get f i .size) data data.length) :
    Table (put after i .size (wrap 32 (get after i .size+data.length)))
      (Function.update rows i (some (name,old++data))) := by
  obtain ⟨shown,_,_⟩ := shows_file table entry row
  have sizeNow : get after i .size = get f i .size := frame_head progress.frame entry (by decide)
  have short := progress.layout.short i entry
  rw [Function.update_self] at short
  have total : wrap 32 (get after i .size+data.length) = get f i .size+data.length := by
    rw [sizeNow]
    apply wrap_small
    simp only [blocks,fsBlockSize,fsMaxBlocks,fsDirectBlocks,fsPerIndirect] at short
    omega
  rw [total]
  have edited : Edited i after (put after i .size (get f i .size+data.length)) := edited_put after i _ (by trivial)
  have heads : ∀ j < fsMaxFiles,j ≠ i → ∀ x < 40,
      (put after i .size (get f i .size+data.length)).directory (j*entrySize+x) = f.directory (j*entrySize+x) := by
    intro j slot different x below
    rw [edited_heads edited different below,progress.frame.heads j slot x below]
  have used : get (put after i .size (get f i .size+data.length)) i .used = get f i .used := by
    rw [get_put_other (by trivial) (by trivial) (.inr (by simp))]
    exact frame_head progress.frame entry (by decide)
  have size : get (put after i .size (get f i .size+data.length)) i .size = get f i .size+data.length := by
    rw [←total]
    exact get_put_same (wrap_lt 32 _)
  have names : ∀ x < 32,(put after i .size (get f i .size+data.length)).directory (i*entrySize+x) =
      f.directory (i*entrySize+x) := by
    intro x below
    rw [←progress.frame.heads i entry x (by omega)]
    apply patch_outside
    simp only [Field.offset,fsNameMax]
    omega
  have length : old.length = get f i .size := by rw [shown.2.2.2.2,content_length]
  have content : contentOf (put after i .size (get f i .size+data.length)) i = old++data := by
    apply content_is
    · rw [size,List.length_append,length]
    · intro p below
      rw [List.length_append] at below
      rw [byteAt_put _ _ _ _ (by decide)]
      by_cases before : p < old.length
      · rw [List.getD_append _ _ _ _ before,progress.old p (by omega),shown.2.2.2.2,contentOf]
        simp [List.getD_eq_getElem?_getD,show p < get f i .size by omega]
      · have position : p = get f i .size+(p-old.length) := by omega
        rw [List.getD_append_right _ _ _ _ (by omega),position,progress.new _ (by omega),←position]
  refine table_update table (edited.mounted.trans progress.frame.mounted)
    (layout_claims (layout_put progress.layout (by decide) i _) ?_ heads) heads
    (others_trans progress.others (edited_others edited _)) (shows_rewritten shown used names content) ?_
  · rw [claims,used,if_neg shown.1,size]
  · intro j slot different other c d equal taken
    cases Option.some.inj equal
    exact different (table.distinct j slot i entry name d old taken row)

theorem append_refused (table : Table f rows) (entry : i < fsMaxFiles) (row : rows i = some (name,old))
    (refused : Refused f after (claims f) i (get f i .size)) : Table after rows := by
  obtain ⟨shown,_,_⟩ := shows_file table entry row
  have heads : ∀ j < fsMaxFiles,∀ x < 40,after.directory (j*entrySize+x) = f.directory (j*entrySize+x) :=
    refused.frame.heads
  have layout : Layout after (claims after) := by
    apply layout_mono refused.layout
    intro j slot
    rw [claims_head (heads j slot)]
  have content : contentOf after i = old :=
    (content_same (frame_head refused.frame entry (by decide)) refused.old).trans shown.2.2.2.2.symm
  have changed := table_update table refused.frame.mounted layout (fun j slot _ => heads j slot) refused.others
    (shows_rewritten shown (frame_head refused.frame entry (by decide)) (fun x below => heads i entry x (by omega)) content)
    (fun j slot different other c d equal taken => by
      cases Option.some.inj equal
      exact different (table.distinct j slot i entry name d old taken row))
  rwa [←row,Function.update_eq_self] at changed

theorem append_form (table : Table f rows) (name : CString) (data : List Byte) :
    fsAppend f name data = (false,f) ∧ findEntry f name = none ∧ (∀ j < fsMaxFiles,∀ content,rows j ≠ some (name,content)) ∨
    ∃ i < fsMaxFiles,∃ old,rows i = some (name,old) ∧ findEntry f name = some i ∧
      fsAppend f name data =
        if (writeAt f i (get f i .size) data).1 = false then (false,(writeAt f i (get f i .size) data).2)
        else saveMetadata (put (writeAt f i (get f i .size) data).2 i .size
          (wrap 32 (get (writeAt f i (get f i .size) data).2 i .size+data.length))) := by
  unfold fsAppend
  rw [if_neg (by rw [table.mounted]; simp)]
  rcases findEntry_parts table name with ⟨missing,absent⟩ | ⟨i,entry,old,found,row⟩
  · rw [missing]
    exact .inl ⟨rfl,rfl,absent⟩
  · rw [found]
    exact .inr ⟨i,entry,old,row,rfl,rfl⟩

theorem fsAppend_parts (table : Table f rows) (name : CString) (data : List Byte) :
    (fsAppend f name data).1 = true ∧ (∃ i < fsMaxFiles,∃ old,rows i = some (name,old) ∧
      Table (fsAppend f name data).2 (Function.update rows i (some (name,old++data)))) ∨
    (fsAppend f name data).1 = false ∧ Table (fsAppend f name data).2 rows := by
  rcases append_form table name data with ⟨form,_,_⟩ | ⟨i,entry,old,row,_,form⟩
  · rw [form]
    exact .inr ⟨rfl,table⟩
  · obtain ⟨_,claimed,_⟩ := shows_file table entry row
    have outcome := writeAt_parts table.layout entry claimed data
    rw [form]
    generalize writeAt f i (get f i .size) data = answer at *
    obtain ⟨written,after⟩ := answer
    rcases outcome with ⟨succeeded,progress⟩ | ⟨failed,refused⟩
    · cases succeeded
      obtain ⟨saved,final⟩ := saved_table (append_stored table entry row progress)
      exact .inl ⟨saved,i,entry,old,row,final⟩
    · cases failed
      exact .inr ⟨rfl,append_refused table entry row refused⟩

end Append

section Delete
variable {name : CString} {old : List Byte}

-- Freeing blocks changes no number that tells which blocks there are to free.
theorem freed_parts (f : Fs) (i : Nat) (ks : List Nat) (marks : Words 8) :
    ∃ bitmap,ks.foldl (fun f k => freeBlock f i k) {f with bitmap:=marks} = {f with bitmap:=bitmap} ∧
      ∀ b,member bitmap b = true ↔ member marks b = true ∧ ∀ k ∈ ks,blockAt f i k ≠ noBlock → b ≠ blockAt f i k := by
  induction ks generalizing marks with
  | nil => exact ⟨marks,rfl,fun _ => by simp⟩
  | cons k rest ih =>
    have one : ∃ middle,freeBlock {f with bitmap:=marks} i k = {f with bitmap:=middle} ∧
        ∀ b,member middle b = true ↔ member marks b = true ∧ (blockAt f i k ≠ noBlock → b ≠ blockAt f i k) := by
      unfold freeBlock
      by_cases none : blockAt f i k = noBlock
      · exact ⟨marks,if_pos none,fun _ => by simp [none]⟩
      · refine ⟨clearBit marks (blockAt f i k),if_neg none,?_⟩
        intro b
        rw [member_clearBit (by decide)]
        simp [none,and_comm]
    obtain ⟨middle,freed,kept⟩ := one
    obtain ⟨bitmap,rest,keptToo⟩ := ih middle
    refine ⟨bitmap,by rw [List.foldl_cons,freed,rest],?_⟩
    intro b
    rw [keptToo b,kept b]
    simp [and_assoc]

theorem delete_table {marks : Words 8} (table : Table f rows) (entry : i < fsMaxFiles)
    (kept : ∀ b,(∀ k < claims f i,b ≠ dataBlock f i k) → (get f i .indirect ≠ 0 → b ≠ get f i .indirect) →
      member f.bitmap b = true → member marks b = true) :
    Table (clearEntry {f with bitmap:=marks} i) (Function.update rows i none) := by
  have cleared := edited_clear {f with bitmap:=marks} i
  have heads : ∀ j < fsMaxFiles,j ≠ i → ∀ x < 40,
      (clearEntry {f with bitmap:=marks} i).directory (j*entrySize+x) = f.directory (j*entrySize+x) :=
    fun j _ different x below => cleared.outside j different x (by simp only [entrySize]; omega)
  have others : OthersKept (claims f) i f (clearEntry {f with bitmap:=marks} i) := edited_others cleared _
  have used : get (clearEntry {f with bitmap:=marks} i) i .used = 0 := get_clear (by trivial)
  have indirect : get (clearEntry {f with bitmap:=marks} i) i .indirect = 0 := get_clear (by trivial)
  have same : ∀ j,j ≠ i → get (clearEntry {f with bitmap:=marks} i) j .indirect = get f j .indirect :=
    fun j different => (edited_get cleared different (by trivial)).trans rfl
  have none : claims (clearEntry {f with bitmap:=marks} i) i = 0 := by rw [claims,if_pos used]
  have elsewhere : ∀ j k,k < Function.update (claims f) i 0 j → j ≠ i ∧ k < claims f j := by
    intro j k less
    by_cases equal : j = i
    · rw [equal,Function.update_self] at less
      omega
    · rw [Function.update_of_ne equal] at less
      exact ⟨equal,less⟩
  have layout : Layout (clearEntry {f with bitmap:=marks} i) (Function.update (claims f) i 0) := by
    refine layout_shrink table.layout ⟨table.layout.ready.present,table.layout.ready.works,table.layout.ready.start,
      table.layout.ready.tracked,table.layout.ready.enough⟩ rfl ?_ ?_ ?_ ?_ ?_
    · intro j _
      by_cases equal : j = i
      · rw [equal,Function.update_self]
        omega
      · rw [Function.update_of_ne equal]
    · intro j _ some
      by_cases equal : j = i
      · rw [equal] at some
        exact absurd indirect some
      · exact same j equal
    · intro j slot more
      obtain ⟨different,less⟩ := elsewhere j _ more
      rw [same j different]
      exact table.layout.reach j slot less
    · intro j slot k less
      obtain ⟨different,owned⟩ := elsewhere j k less
      exact (others j slot different k owned).1
    · -- a slot of another entry names none of the blocks given back
      intro slot owned marked
      have foreign : Owned f (claims f) slot ∧ (∀ k,slot ≠ .data i k) ∧ slot ≠ .indirect i := by
        cases slot with
        | data j k =>
          obtain ⟨different,less⟩ := elsewhere j k owned.2
          refine ⟨⟨owned.1,less⟩,fun l equal => ?_,by simp⟩
          cases equal
          exact different rfl
        | indirect j =>
          have different : j ≠ i := by
            rintro rfl
            exact owned.2 indirect
          refine ⟨⟨owned.1,by rw [←same j different]; exact owned.2⟩,fun _ => by simp,fun equal => ?_⟩
          cases equal
          exact different rfl
      obtain ⟨own,notData,notIndirect⟩ := foreign
      refine kept _ ?_ ?_ marked
      · intro k less equal
        exact notData k (table.layout.apart slot (.data i k) own ⟨entry,less⟩ equal)
      · intro some equal
        exact notIndirect (table.layout.apart slot (.indirect i) own ⟨entry,some⟩ equal)
  exact table_update table rfl (layout_claims layout (by omega) heads) heads others used
    (fun _ _ _ _ _ _ wrong => by cases wrong)

-- The bitmap of the deleted file's successor: its own blocks cleared, the others as they were.
def Freed (f : Fs) (i : Nat) (marks : Words 8) : Prop :=
  ∀ b,member marks b = true ↔ member f.bitmap b = true ∧ (∀ k < claims f i,b ≠ dataBlock f i k) ∧
    (get f i .indirect ≠ 0 → b ≠ get f i .indirect)

theorem delete_form (table : Table f rows) (name : CString) :
    fsDelete f name = (false,f) ∧ (∀ j < fsMaxFiles,∀ content,rows j ≠ some (name,content)) ∨
    ∃ i < fsMaxFiles,∃ old marks,rows i = some (name,old) ∧ findEntry f name = some i ∧ Freed f i marks ∧
      fsDelete f name = saveMetadata (clearEntry {f with bitmap:=marks} i) := by
  unfold fsDelete
  rw [if_neg (by rw [table.mounted]; simp)]
  rcases findEntry_parts table name with ⟨missing,absent⟩ | ⟨i,entry,old,found,row⟩
  · rw [missing]
    exact .inl ⟨rfl,absent⟩
  · rw [found]
    dsimp only
    obtain ⟨_,claimed,short⟩ := shows_file table entry row
    obtain ⟨bitmap,freed,kept⟩ := freed_parts f i (List.range (blocksFor (get f i .size))) f.bitmap
    change _ = {f with bitmap:=bitmap} at freed
    rw [freed]
    have data : ∀ b,member bitmap b = true ↔ member f.bitmap b = true ∧ ∀ k < claims f i,b ≠ dataBlock f i k := by
      intro b
      rw [kept b,blocksFor_whole _ short,←claimed]
      refine and_congr_right fun _ => ?_
      constructor
      · intro all k less
        obtain ⟨place,_,real⟩ := blockAt_owned table.layout entry less
        rw [←place]
        exact all k (List.mem_range.mpr less) (by rw [place]; exact real)
      · intro all k member _
        rw [(blockAt_owned table.layout entry (List.mem_range.mp member)).1]
        exact all k (List.mem_range.mp member)
    by_cases none : get f i .indirect = 0
    · refine .inr ⟨i,entry,old,bitmap,row,rfl,?_,?_⟩
      · intro b
        rw [data b]
        simp [none]
      · change saveMetadata (clearEntry (if get f i .indirect = 0 then _ else _) i) = _
        rw [if_pos none]
    · refine .inr ⟨i,entry,old,clearBit bitmap (get f i .indirect),row,rfl,?_,?_⟩
      · intro b
        rw [member_clearBit (by decide),Bool.and_eq_true,data b]
        rw [Bool.not_eq_true',decide_eq_false_iff_not,and_comm,and_assoc]
        simp [none]
      · change saveMetadata (clearEntry (if get f i .indirect = 0 then _ else _) i) = _
        rw [if_neg none]
        rfl

theorem fsDelete_parts (table : Table f rows) (name : CString) :
    (fsDelete f name).1 = true ∧ (∃ i < fsMaxFiles,∃ old,rows i = some (name,old) ∧
      Table (fsDelete f name).2 (Function.update rows i none)) ∨
    (fsDelete f name).1 = false ∧ Table (fsDelete f name).2 rows := by
  rcases delete_form table name with ⟨form,_⟩ | ⟨i,entry,old,marks,row,_,freed,form⟩
  · rw [form]
    exact .inr ⟨rfl,table⟩
  · rw [form]
    have cleared := delete_table table entry fun b data indirect marked => (freed b).mpr ⟨marked,data,indirect⟩
    obtain ⟨saved,final⟩ := saved_table cleared
    exact .inl ⟨saved,i,entry,old,row,final⟩

end Delete

section Read
variable {name : CString} {old : List Byte}

-- What has been copied after each turn: all bytes before the next block, or all there are.
theorem readFrom_parts (table : Table f rows) (entry : i < fsMaxFiles) (row : rows i = some (name,old)) {size : Nat}
    (most : size ≤ get f i .size) (copied : copy ≤ size) (whole : copy = index*fsBlockSize ∨ copy = size)
    (enough : size ≤ copy+turns) :
    readFrom f i size turns index ((List.range copy).map (byteAt f i)) = some ((List.range size).map (byteAt f i)) := by
  induction turns generalizing index copy with
  | zero =>
    rw [show size = copy by omega]
    rfl
  | succ turns ih =>
    unfold readFrom
    rw [List.length_map,List.length_range]
    by_cases all : size ≤ copy
    · rw [if_pos all,show size = copy by omega]
    · rw [if_neg all]
      obtain ⟨_,claimed,_⟩ := shows_file table entry row
      have position : copy = index*fsBlockSize := by omega
      have below : index < claims f i := by
        rw [claimed]
        simp only [blocks,fsBlockSize] at *
        omega
      obtain ⟨found,inside,real⟩ := blockAt_owned table.layout entry below
      dsimp only
      rw [found,if_neg real,read_block table.layout.ready inside]
      have chunk : (List.range (min (size-copy) fsBlockSize)).map (block f (dataBlock f i index)) =
          ((List.range (min (size-copy) fsBlockSize)).map (copy+·)).map (byteAt f i) := by
        rw [List.map_map]
        apply List.map_congr_left
        intro k member
        have less := List.mem_range.mp member
        have place : (copy+k)/fsBlockSize = index ∧ (copy+k) % fsBlockSize = k := by
          simp only [fsBlockSize] at *
          omega
        rw [Function.comp,byteAt,place.1,place.2]
      dsimp only
      rw [chunk,←List.map_append,←List.range_add]
      apply ih
      · omega
      · rw [Nat.succ_mul]
        omega
      · simp only [fsBlockSize]
        omega

theorem fsRead_parts (table : Table f rows) (name : CString) (max : Nat) :
    fsRead f name max = none ∧ (∀ j < fsMaxFiles,∀ content,rows j ≠ some (name,content)) ∨
    ∃ i < fsMaxFiles,∃ content,rows i = some (name,content) ∧
      fsRead f name max = some (min content.length max,content.take (min content.length max)) := by
  unfold fsRead
  rw [if_neg (by rw [table.mounted]; simp)]
  rcases findEntry_parts table name with ⟨missing,absent⟩ | ⟨i,entry,content,found,row⟩
  · rw [missing]
    exact .inl ⟨rfl,absent⟩
  · rw [found]
    obtain ⟨shown,_,_⟩ := shows_file table entry row
    have length : content.length = get f i .size := by rw [shown.2.2.2.2,content_length]
    refine .inr ⟨i,entry,content,row,?_⟩
    dsimp only
    have read := @readFrom_parts _ _ _ _ _ 0 0 (min (get f i .size) max) table entry row
      _ (Nat.min_le_left (get f i .size) max) (Nat.zero_le _) (.inl (Nat.zero_mul _).symm) (by omega)
    rw [List.range_zero,List.map_nil] at read
    rw [read,length,shown.2.2.2.2,contentOf,←List.map_take,List.take_range,Nat.min_assoc,Nat.min_comm max,←Nat.min_assoc,
      Nat.min_self]
    rfl

end Read

section Format

-- A disk as the identify command and every transfer would have it.
structure Works (d : Disk) : Prop where
  present : d.present = true
  works : ∀ lba < d.totalSectors,d.readable lba = true ∧ d.writable lba = true

theorem fill_zero (m : Memory) (inside : addr+width ≤ count) : load (fill m 0 count 0#8) addr width = 0 := by
  have zeros : ∀ k < width,fill m 0 count 0#8 (addr+k) = digit 0 k := by
    intro k below
    rw [fill,patch_inside _ _ (by omega) (by omega)]
    simp [digit]
  rw [load_digits zeros,Nat.zero_mod]

theorem table_empty (ready : Ready f) (mounted : f.mounted = true)
    (empty : f.directory = fill after.directory 0 (fsMaxFiles*entrySize) 0#8) : Table f fun _ => none := by
  have zero : ∀ i < fsMaxFiles,∀ field,Field.fits field → get f i field = 0 := by
    intro i entry field fits
    obtain ⟨_,_,_⟩ := offset_bounds fits
    rw [FileSystem.get,empty]
    apply fill_zero
    simp only [fsMaxFiles,entrySize] at *
    omega
  have none : ∀ i < fsMaxFiles,claims f i = 0 := fun i entry => by
    rw [claims,if_pos (zero i entry .used (by trivial))]
  have unowned : ∀ slot,¬ Owned f (claims f) slot := by
    rintro (⟨i,k⟩ | i) ⟨entry,claim⟩
    · rw [none i entry] at claim
      omega
    · exact claim (zero i entry .indirect (by trivial))
  refine ⟨mounted,⟨ready,?_,?_,?_,?_⟩,fun i entry => zero i entry .used (by trivial),
    fun _ _ _ _ _ _ _ wrong => by cases wrong⟩
  · intro i entry
    rw [none i entry]
    omega
  · intro i entry more
    rw [none i entry] at more
    omega
  · intro slot claim
    exact absurd claim (unowned slot)
  · intro slot _ claim
    exact absurd claim (unowned slot)

theorem blank_ready (works : Works f.disk) (room : fsDataStart < f.disk.totalSectors) : Ready (blankFs f) := by
  refine ⟨works.present,works.works,rfl,Nat.min_le_right _ _,?_⟩
  dsimp only [blankFs]
  omega

theorem fsFormat_parts (works : Works f.disk) (room : fsDataStart < f.disk.totalSectors) :
    (fsFormat f).1 = true ∧ Table (fsFormat f).2 fun _ => none := by
  unfold fsFormat
  rw [if_neg (by omega)]
  have ready := blank_ready works room
  have empty : (blankFs f).directory = fill f.directory 0 (fsMaxFiles*entrySize) 0#8 := rfl
  have sectors : (blankFs f).disk.totalSectors = f.disk.totalSectors := rfl
  generalize blankFs f = blank at *
  dsimp only
  rw [write_sector ready (by omega) (by decide)]
  obtain ⟨disk,saved,still,_⟩ := save_parts (@ready_putSector _ 0 (superSector blank.super) ready)
  change saveMetadata {blank with disk:=(putSector blank 0 (superSector blank.super)).disk} = _ at saved
  dsimp only
  rw [if_neg (by simp),saved]
  exact ⟨rfl,@table_empty _ f ⟨still.present,still.works,still.start,still.tracked,still.enough⟩ rfl empty⟩

end Format

end Arthic.FileOperations
