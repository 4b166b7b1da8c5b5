import Arthic.FileCrash

namespace Arthic.FileConservation
open BitWords ByteMemory Unsigned Transition FileSystem FileLayout FileWrites FileTable FileOperations FileMap FileDisk FileDrafts
open FileDurable
variable {f g m after origin : Fs} {rows : Nat → Row} {count : Nat → Nat} {i index within : Nat} {bytes data : List Byte}

-- Every mark is some slot's, and only files past the direct blocks have a block of numbers.
structure Exact (f : Fs) (count : Nat → Nat) : Prop where
  marks : ∀ b < sectorSize*8,member f.bitmap b = true → ∃ slot,Owned f count slot ∧ slotBlock f slot = b
  number : ∀ j < fsMaxFiles,get f j .indirect ≠ 0 → fsDirectBlocks < count j

theorem exact_turn (exact : Exact m count) (valid : Layout m count) (entry : i < fsMaxFiles)
    (turn : Turn m count i index within bytes true after) :
    Exact after (Function.update count i (max (count i) (index+1))) := by
  obtain ⟨others,slots,_⟩ := turn_keeps valid entry turn
  have more : ∀ j,count j ≤ Function.update count i (max (count i) (index+1)) j := by
    intro j
    by_cases here : j = i
    · rw [here,Function.update_self]
      exact Nat.le_max_left _ _
    · rw [Function.update_of_ne here]
  have here : Function.update count i (max (count i) (index+1)) i = max (count i) (index+1) := Function.update_self ..
  have kept : ∀ b < sectorSize*8,member m.bitmap b = true →
      ∃ slot,Owned after (Function.update count i (max (count i) (index+1))) slot ∧ slotBlock after slot = b := by
    intro b low marked
    obtain ⟨slot,claim,place⟩ := exact.marks b low marked
    have same := slots slot claim
    refine ⟨slot,?_,same.trans place⟩
    cases slot with
    | data j k => exact ⟨claim.1,Nat.lt_of_lt_of_le claim.2 (more j)⟩
    | indirect j => exact ⟨claim.1,by change get after j .indirect = get m j .indirect at same; rw [same]; exact claim.2⟩
  have latest : ∃ slot,Owned after (Function.update count i (max (count i) (index+1))) slot ∧
      slotBlock after slot = dataBlock after i index := by
    refine ⟨.data i index,⟨entry,?_⟩,rfl⟩
    rw [here]
    omega
  have numbers : (get after i .indirect ≠ 0 → fsDirectBlocks < max (count i) (index+1)) →
      ∀ j < fsMaxFiles,get after j .indirect ≠ 0 → fsDirectBlocks < Function.update count i (max (count i) (index+1)) j := by
    intro own j slot some
    by_cases same : j = i
    · rw [same] at some ⊢
      rw [here]
      exact own some
    · rw [Function.update_of_ne same]
      rw [alike_get (others j same) (by trivial)] at some
      exact exact.number j slot some
  cases turn_takes valid entry turn with
  | none below directory bitmap =>
    refine ⟨?_,numbers fun some => ?_⟩
    · intro b low marked
      rw [bitmap] at marked
      exact kept b low marked
    · rw [FileSystem.get,directory] at some
      exact Nat.lt_of_lt_of_le (exact.number i entry some) (Nat.le_max_left _ _)
  | one next first bitmap same reach =>
    refine ⟨?_,numbers fun some => ?_⟩
    · intro b low marked
      rw [bitmap,member_setBit (by decide)] at marked
      by_cases new : b = dataBlock after i index
      · rw [new]
        exact latest
      · exact kept b low (by simpa [new] using marked)
    · rw [same] at some
      exact Nat.lt_of_lt_of_le (exact.number i entry some) (Nat.le_max_left _ _)
  | two next far none first second bitmap =>
    refine ⟨?_,numbers fun _ => by omega⟩
    intro b low marked
    rw [bitmap,member_setBit (by decide),member_setBit (by decide)] at marked
    by_cases number : b = get after i .indirect
    · exact ⟨.indirect i,⟨entry,lowest_nonzero first second⟩,number.symm⟩
    · by_cases new : b = dataBlock after i index
      · rw [new]
        exact latest
      · exact kept b low (by simpa [new,number] using marked)

theorem writeAt_exact (exact : Exact g count) (valid : Layout g count) (entry : i < fsMaxFiles)
    (claimed : count i = blocks (get g i .size)) (data : List Byte) (ok : (writeAt g i (get g i .size) data).1 = true) :
    Exact (writeAt g i (get g i .size) data).2 (Function.update count i (blocks (get g i .size+data.length))) := by
  have outcome := @writeAt_turns _ _ _
    (fun written m => Exact m (Function.update count i (blocks (get g i .size+written)))) (fun _ => True) valid entry claimed data (by
      intro middle after written chunk ok progress exact more cut turn
      refine ⟨fun stored => ?_,fun _ => trivial⟩
      subst stored
      have next := exact_turn exact progress.layout entry turn
      have reached : max (blocks (get g i .size+written)) ((get g i .size+written)/fsBlockSize+1) =
          blocks (get g i .size+(written+chunk)) := by
        rw [cut,chunkSize]
        simp only [blocks,fsBlockSize] at *
        omega
      rwa [Function.update_self,Function.update_idem,reached] at next)
    (by rw [Nat.add_zero,←claimed,Function.update_eq_self]; exact exact)
  rcases outcome with ⟨_,_,final⟩ | ⟨failed,_⟩
  · exact final
  · rw [ok] at failed
    cases failed

-- Marks and slots as they were, under the counts of the directory.
theorem exact_claims (exact : Exact f count) (bitmap : after.bitmap = f.bitmap)
    (slots : ∀ slot,slotBlock after slot = slotBlock f slot) (counts : ∀ j < fsMaxFiles,claims after j = count j) :
    Exact after (claims after) := by
  have numbers : ∀ j,get after j .indirect = get f j .indirect := fun j => slots (.indirect j)
  refine ⟨?_,?_⟩
  · intro b low marked
    rw [bitmap] at marked
    obtain ⟨slot,claim,place⟩ := exact.marks b low marked
    refine ⟨slot,?_,(slots slot).trans place⟩
    cases slot with
    | data j k => exact ⟨claim.1,by rw [counts j claim.1]; exact claim.2⟩
    | indirect j => exact ⟨claim.1,by rw [numbers]; exact claim.2⟩
  · intro j entry some
    rw [counts j entry]
    exact exact.number j entry (by rw [←numbers]; exact some)

theorem exact_saved (exact : Exact m (claims m)) : Exact (saved m) (claims (saved m)) :=
  exact_claims exact rfl (saved_slot m) fun _ _ => rfl

section Calls
variable {name : CString}

theorem create_exact (durable : Durable f rows) (exact : Exact f (claims f)) (name : CString) (data : List Byte)
    (small : data.length < 2^32) (ok : (fsCreate f name data).1 = true) :
    Exact (fsCreate f name data).2 (claims (fsCreate f name data).2) := by
  rcases create_form durable.memory name data with ⟨form,_⟩ | ⟨i,entry,unused,_,_,absent,nonempty,short,form⟩
  · rw [form] at ok
    cases ok
  have nothing : claims f i = 0 := if_pos ((shows_unused durable.memory entry).mpr unused)
  have empty : get (nameEntry f i name name.bytes.length) i .size = 0 := named_head f i name short (by trivial)
  have others : ∀ j,j ≠ i → Alike j f (nameEntry f i name name.bytes.length) := (named_edited f i name short).outside
  have layout := @named_layout _ _ _ name _ durable.memory nothing short
  have start : Exact (nameEntry f i name name.bytes.length) (claims f) := by
    refine ⟨?_,?_⟩
    · intro b low marked
      obtain ⟨slot,claim,place⟩ := exact.marks b low marked
      have used := FileCrash.owned_used durable.tidy claim
      have different : holder slot ≠ i := by
        rintro rfl
        exact used ((shows_unused durable.memory entry).mpr unused)
      obtain ⟨_,same⟩ := alike_slot (others _ different) (fun _ => rfl)
      refine ⟨slot,?_,same.trans place⟩
      cases slot with
      | data j k => exact claim
      | indirect j => exact ⟨claim.1,by change get _ j .indirect = get f j .indirect at same; rw [same]; exact claim.2⟩
    · intro j slot some
      by_cases here : j = i
      · rw [here,named_head f i name short (by trivial)] at some
        exact absurd rfl some
      · rw [alike_get (others j here) (by trivial)] at some
        exact exact.number j slot some
  have claimed : claims f i = blocks (get (nameEntry f i name name.bytes.length) i .size) := by
    rw [nothing,empty]
    rfl
  have outcome := writeAt_parts layout entry claimed data
  have final := writeAt_exact start layout entry claimed data
  rw [empty] at outcome final
  rw [form] at ok ⊢
  generalize writeAt (nameEntry f i name name.bytes.length) i 0 data = answer at *
  obtain ⟨written,after⟩ := answer
  rcases outcome with ⟨succeeded,progress⟩ | ⟨failed,_⟩
  · cases succeeded
    have table := create_stored durable.memory entry absent nonempty short small progress
    rw [if_neg (by simp),save_commits table.layout.ready]
    refine exact_saved (exact_claims (final rfl) rfl
      (fun slot => (slot_put _ slot i _ (by decide)).trans (slot_put _ slot i _ (by decide))) ?_)
    intro j slot
    rw [claims_row table slot]
    by_cases here : j = i
    · rw [here,Function.update_self,Function.update_self,Nat.zero_add]
      rfl
    · rw [Function.update_of_ne here,Function.update_of_ne here,claims_row durable.memory slot]
  · cases failed
    cases ok

theorem append_exact (durable : Durable f rows) (exact : Exact f (claims f)) (name : CString) (data : List Byte)
    (ok : (fsAppend f name data).1 = true) : Exact (fsAppend f name data).2 (claims (fsAppend f name data).2) := by
  rcases append_form durable.memory name data with ⟨form,_⟩ | ⟨i,entry,old,row,_,form⟩
  · rw [form] at ok
    cases ok
  obtain ⟨shown,claimed,_⟩ := shows_file durable.memory entry row
  have outcome := writeAt_parts durable.memory.layout entry claimed data
  have final := writeAt_exact exact durable.memory.layout entry claimed data
  rw [form] at ok ⊢
  generalize writeAt f i (get f i .size) data = answer at *
  obtain ⟨written,after⟩ := answer
  rcases outcome with ⟨succeeded,progress⟩ | ⟨failed,_⟩
  · cases succeeded
    have table := append_stored durable.memory entry row progress
    have length : old.length = get f i .size := by rw [shown.2.2.2.2,content_length]
    rw [if_neg (by simp),save_commits table.layout.ready]
    refine exact_saved (exact_claims (final rfl) rfl (fun slot => slot_put _ slot i _ (by decide)) ?_)
    intro j slot
    rw [claims_row table slot]
    by_cases here : j = i
    · rw [here,Function.update_self,Function.update_self,rowBlocks,List.length_append,length]
    · rw [Function.update_of_ne here,Function.update_of_ne here,claims_row durable.memory slot]
  · cases failed
    cases ok

theorem delete_exact (durable : Durable f rows) (exact : Exact f (claims f)) (name : CString)
    (ok : (fsDelete f name).1 = true) : Exact (fsDelete f name).2 (claims (fsDelete f name).2) := by
  rcases delete_form durable.memory name with ⟨form,_⟩ | ⟨i,entry,old,marks,row,_,freed,form⟩
  · rw [form] at ok
    cases ok
  have committed := delete_committed durable entry row freed
  rw [form,save_commits committed.table.layout.ready]
  refine exact_saved ⟨?_,?_⟩
  · intro b low marked
    obtain ⟨before,data,number⟩ := (freed b).mp marked
    obtain ⟨slot,claim,place⟩ := exact.marks b low before
    have different : holder slot ≠ i := by
      rintro rfl
      cases slot with
      | data j k => exact data k claim.2 place.symm
      | indirect j => exact number claim.2 place.symm
    obtain ⟨owned,same⟩ := alike_slot (committed.others _ different) (fun _ => rfl)
    exact ⟨slot,owned.mpr claim,same.trans place⟩
  · intro j slot some
    by_cases here : j = i
    · rw [here,get_clear (by trivial)] at some
      exact absurd rfl some
    · rw [alike_claims (committed.others j here)]
      rw [alike_get (committed.others j here) (by trivial)] at some
      exact exact.number j slot some
end Calls

theorem answer_yes (said : answer ok = .yes) : ok = true := by
  cases ok with
  | true => rfl
  | false => cases said

-- A call that returned 1, or read.
def Completed : Call → Reply → Prop
  | .read _ _,_ => True
  | _,reply => reply = .yes

theorem perform_exact (durable : Durable f rows) (exact : Exact f (claims f)) (call : Call) (sized : Sized call)
    (completed : Completed call (perform f call).1) : Exact (perform f call).2 (claims (perform f call).2) := by
  cases call with
  | create name data => exact create_exact durable exact name data sized (answer_yes completed)
  | append name data => exact append_exact durable exact name data (answer_yes completed)
  | delete name => exact delete_exact durable exact name (answer_yes completed)
  | read name limit => exact exact

def completed : System Fs (Call × Reply) :=
  ⟨Formatted,fun f said after => storage.step f said after ∧ Completed said.1 said.2⟩

theorem formatted_exact (works : Works f.disk) (room : fsDataStart < f.disk.totalSectors) :
    Exact (fsFormat f).2 (claims (fsFormat f).2) := by
  have durable := formatted_durable works room
  rw [format_form works room] at durable ⊢
  refine exact_saved ⟨?_,?_⟩
  · intro b low marked
    have zero : (stampedFs f).bitmap (b/8) = 0#8 := by
      refine @patch_inside 0 (b/8) sectorSize f.bitmap (fun _ => 0#8) (Nat.zero_le _) ?_
      simp only [sectorSize] at *
      omega
    rw [member,zero] at marked
    simp at marked
  · intro j entry some
    have unused := (shows_unused durable.memory entry).mpr rfl
    exact absurd (tidy_indirect durable.tidy entry unused) some

theorem runs_exact (reached : Reached completed f) : ∃ rows,Durable f rows ∧ Exact f (claims f) := by
  apply reached.invariant
  · rintro f ⟨blank,works,room,made⟩
    have durable := formatted_durable works room
    have exact := formatted_exact works room
    rw [made] at durable exact
    exact ⟨_,durable,exact⟩
  · rintro f ⟨call,reply⟩ next ⟨rows,durable,exact⟩ ⟨⟨sized,performed⟩,finished⟩
    have stays := perform_durable durable call sized
    have counts := perform_exact durable exact call sized (by rw [performed]; exact finished)
    rw [performed] at stays counts
    obtain ⟨now,kept⟩ := stays
    exact ⟨now,kept,counts⟩

-- ceil(size/512) data blocks and, past eight of them, the block of numbers.
def accountable (f : Fs) (i : Nat) : List Nat :=
  (List.range (blocks (get f i .size))).map (blockAt f i)++
    if fsDirectBlocks < blocks (get f i .size) then [get f i .indirect] else []

theorem exact_accountable (durable : Durable f rows) (exact : Exact f (claims f)) (low : b < sectorSize*8) :
    blockUsed f b = true ↔ ∃ i < fsMaxFiles,get f i .used ≠ 0 ∧ b ∈ accountable f i := by
  have layout := durable.memory.layout
  rw [blockUsed,testShift_member (by decide)]
  constructor
  · intro marked
    obtain ⟨slot,claim,rfl⟩ := exact.marks b low marked
    have used := FileCrash.owned_used durable.tidy claim
    cases slot with
    | data i k =>
      have claimed : claims f i = blocks (get f i .size) := if_neg used
      refine ⟨i,claim.1,used,List.mem_append_left _ (List.mem_map.mpr ⟨k,?_,(blockAt_owned layout claim.1 claim.2).1⟩)⟩
      rw [List.mem_range,←claimed]
      exact claim.2
    | indirect i =>
      have claimed : claims f i = blocks (get f i .size) := if_neg used
      have many := exact.number i claim.1 claim.2
      refine ⟨i,claim.1,used,List.mem_append_right _ ?_⟩
      rw [if_pos (by rw [←claimed]; exact many)]
      exact List.mem_singleton.mpr rfl
  · rintro ⟨i,entry,used,listed⟩
    have claimed : claims f i = blocks (get f i .size) := if_neg used
    rcases List.mem_append.mp listed with data | number
    · obtain ⟨k,below,rfl⟩ := List.mem_map.mp data
      rw [List.mem_range,←claimed] at below
      rw [(blockAt_owned layout entry below).1]
      exact (layout.inside (.data i k) ⟨entry,below⟩).2
    · by_cases many : fsDirectBlocks < blocks (get f i .size)
      · rw [if_pos many] at number
        rw [List.mem_singleton.mp number]
        exact (layout.inside (.indirect i) ⟨entry,layout.reach i entry (by rw [claimed]; exact many)⟩).2
      · rw [if_neg many] at number
        cases number

-- The other entries have the blocks they had.
def Elsewhere (i : Nat) (f after : Fs) : Prop :=
  ∀ slot,holder slot ≠ i → (Owned after (claims after) slot ↔ Owned f (claims f) slot) ∧
    (Owned f (claims f) slot → slotBlock after slot = slotBlock f slot)

theorem elsewhere_trans (first : Elsewhere i f m) (second : Elsewhere i m after) : Elsewhere i f after := by
  intro slot different
  obtain ⟨ownedFirst,sameFirst⟩ := first slot different
  obtain ⟨ownedSecond,sameSecond⟩ := second slot different
  exact ⟨ownedSecond.trans ownedFirst,fun claim => (sameSecond (ownedFirst.mpr claim)).trans (sameFirst claim)⟩

theorem elsewhere_saved {now : Nat → Row} {name : CString} (durable : Durable f rows)
    (committed : Committed f m rows now i name) : Elsewhere i f (saved m) := by
  intro slot different
  have alike := committed.others _ different
  have owned : Owned (saved m) (claims (saved m)) slot ↔ Owned f (claims f) slot := by
    change Owned m (claims m) slot ↔ _
    cases slot with
    | data j k => rw [Owned,Owned,alike_claims (j:=j) alike]
    | indirect j => rw [Owned,Owned,alike_get (j:=j) alike (by trivial)]
  refine ⟨owned,fun claim => ?_⟩
  rw [saved_slot]
  cases slot with
  | data j k =>
    -- both the old and the new directory draw this block from one layout
    have unread := (unread_stored committed.passes).1
    obtain ⟨r,count,_,_,old,new⟩ := committed.drawn
    have known : Owned (stored f.disk) (claims (stored f.disk)) (.data j k) :=
      ⟨claim.1,by rw [claims_stored durable claim.1]; exact claim.2⟩
    have ours : Owned m (claims m) (.data j k) := owned.mpr claim
    rw [←(new _ ours).2,(old _ ((unread_owned unread).mpr known)).2,unread_slot unread known,
      durable.backed _ known]
  | indirect j => exact alike_get alike (by trivial)

section Life
variable {name : CString} {old : List Byte}

-- A file of this name is entry i's.
theorem same_entry (durable : Durable f rows) (mine : rows i = some (name,old)) (entry : i < fsMaxFiles) (other : j < fsMaxFiles)
    (row : rows j = some (name,older)) : j = i :=
  durable.memory.distinct j other i entry name older old row mine

theorem appends_elsewhere (entry : i < fsMaxFiles) (durable : Durable f rows) (exact : Exact f (claims f))
    (mine : rows i = some (name,old)) (pieces : List (List Byte))
    (sized : ∀ piece ∈ pieces,piece.length < 2^32)
    (granted : ∀ said ∈ transcript f (pieces.map fun piece => .append name piece),said.2 = .yes) :
    ∃ now later,Durable (performAll f (pieces.map fun piece => .append name piece)) now ∧
      Exact (performAll f (pieces.map fun piece => .append name piece))
        (claims (performAll f (pieces.map fun piece => .append name piece))) ∧
      now i = some (name,later) ∧ Elsewhere i f (performAll f (pieces.map fun piece => .append name piece)) := by
  induction pieces generalizing f rows old with
  | nil => exact ⟨rows,old,durable,exact,mine,fun _ _ => ⟨Iff.rfl,fun _ => rfl⟩⟩
  | cons piece rest ih =>
    have yes : (perform f (.append name piece)).1 = .yes := granted _ (List.mem_cons_self ..)
    have counts := perform_exact durable exact (.append name piece) (sized piece (List.mem_cons_self ..)) yes
    rcases append_outcome durable name piece with ⟨failed,_⟩ | ⟨j,m,older,done,_,row,committed⟩
    · rw [answer_yes yes] at failed
      cases failed
    cases same_entry durable mine entry committed.entry row
    have after : (perform f (.append name piece)).2 = saved m := congrArg Prod.snd done
    have apart := elsewhere_saved durable committed
    have kept := durable_saved durable committed
    rw [after] at counts
    have onward := ih kept counts (Function.update_self ..)
      (fun other member => sized other (List.mem_cons_of_mem _ member))
      (fun said member => granted said (by
        change said ∈ _::transcript (perform f (.append name piece)).2 _
        rw [after]
        exact List.mem_cons_of_mem _ member))
    obtain ⟨now,later,final,exactly,held,away⟩ := onward
    have whole : performAll f ((piece::rest).map fun piece => .append name piece) =
        performAll (saved m) (rest.map fun piece => .append name piece) := by
      rw [←after]
      rfl
    rw [whole]
    exact ⟨now,later,final,exactly,held,elsewhere_trans apart away⟩

theorem transcript_append (f : Fs) (first second : List Call) :
    transcript f (first++second) = transcript f first++transcript (performAll f first) second := by
  induction first generalizing f with
  | nil => rfl
  | cons call rest ih => exact congrArg _ (ih _)

-- A file from its creation to its end.
def life (name : CString) (data : List Byte) (pieces : List (List Byte)) : List Call :=
  .create name data::((pieces.map fun piece => .append name piece)++[.delete name])

theorem unused_marks (durable : Durable f rows) (exact : Exact f (claims f)) (unused : get f i .used = 0) (low : b < sectorSize*8)
    (marked : member f.bitmap b = true) : ∃ slot,holder slot ≠ i ∧ Owned f (claims f) slot ∧ slotBlock f slot = b := by
  obtain ⟨slot,claim,place⟩ := exact.marks b low marked
  refine ⟨slot,?_,claim,place⟩
  rintro rfl
  exact FileCrash.owned_used durable.tidy claim unused

theorem life_restores (durable : Durable f rows) (exact : Exact f (claims f)) (small : data.length < 2^32)
    (pieces : List (List Byte)) (sized : ∀ piece ∈ pieces,piece.length < 2^32)
    (granted : ∀ said ∈ transcript f (life name data pieces),said.2 = .yes) (low : b < sectorSize*8) :
    blockUsed (performAll f (life name data pieces)) b = blockUsed f b := by
  have created : (perform f (.create name data)).1 = .yes := granted _ (List.mem_cons_self ..)
  have counts := perform_exact durable exact (.create name data) small created
  rcases create_outcome durable name data small with ⟨failed,_⟩ | ⟨i,m,done,free,committed⟩
  · rw [answer_yes created] at failed
    cases failed
  have entry := committed.entry
  have unused : get f i .used = 0 := by
    unfold findFreeEntry at free
    simpa using List.find?_some free
  have born : (perform f (.create name data)).2 = saved m := congrArg Prod.snd done
  have later : ∀ said ∈ transcript (saved m) ((pieces.map fun piece => .append name piece)++[.delete name]),said.2 = .yes := by
    intro said member
    rw [←born] at member
    exact granted said (List.mem_cons_of_mem _ member)
  rw [transcript_append] at later
  rw [born] at counts
  obtain ⟨now,content,grown,exactly,mine,away⟩ := appends_elsewhere entry (durable_saved durable committed) counts
    (Function.update_self ..) pieces sized (fun said member => later said (List.mem_append_left _ member))
  have whole : performAll f (life name data pieces) =
      (perform (performAll (saved m) (pieces.map fun piece => .append name piece)) (.delete name)).2 := by
    rw [←born]
    exact List.foldl_append
  rw [whole]
  generalize performAll (saved m) (pieces.map fun piece => .append name piece) = last at *
  have deleted : (perform last (.delete name)).1 = .yes := later _ (List.mem_append_right _ (List.mem_cons_self ..))
  have final := perform_exact grown exactly (.delete name) trivial deleted
  rcases delete_outcome grown name with ⟨failed,_⟩ | ⟨j,gone,_,done,_,row,removed⟩
  · rw [answer_yes deleted] at failed
    cases failed
  cases same_entry grown mine entry removed.entry row
  have died : (perform last (.delete name)).2 = saved gone := congrArg Prod.snd done
  rw [died] at final ⊢
  have ended := durable_saved grown removed
  have apart := elsewhere_trans (elsewhere_trans (elsewhere_saved durable committed) away) (elsewhere_saved grown removed)
  have vacant : get (saved gone) i .used = 0 := (shows_unused ended.memory entry).mpr (Function.update_self ..)
  rw [blockUsed,testShift_member (by decide),blockUsed,testShift_member (by decide),Bool.eq_iff_iff]
  constructor
  · intro marked
    obtain ⟨slot,different,claim,rfl⟩ := unused_marks ended final vacant low marked
    have owned := (apart slot different).1.mp claim
    rw [(apart slot different).2 owned]
    exact (durable.memory.layout.inside slot owned).2
  · intro marked
    obtain ⟨slot,different,claim,rfl⟩ := unused_marks durable exact unused low marked
    rw [←(apart slot different).2 claim]
    exact (ended.memory.layout.inside slot ((apart slot different).1.mpr claim)).2
end Life

theorem blocks_conserved (reached : Reached completed f) :
    (∀ b < sectorSize*8,blockUsed f b = true ↔ ∃ i < fsMaxFiles,get f i .used ≠ 0 ∧ b ∈ accountable f i) ∧
    ∀ name data pieces,data.length < 2^32 → (∀ piece ∈ pieces,piece.length < 2^32) →
      (∀ said ∈ transcript f (life name data pieces),said.2 = .yes) →
      ∀ b < sectorSize*8,blockUsed (performAll f (life name data pieces)) b = blockUsed f b := by
  obtain ⟨rows,durable,exact⟩ := runs_exact reached
  refine ⟨fun b low => exact_accountable durable exact low,?_⟩
  intro name data pieces small sized granted b low
  exact life_restores durable exact small pieces sized granted low

-- A file comes and goes on a new disk.
theorem blocks_conserved_small :
    (∀ b < sectorSize*8,blockUsed (fsFormat smallDisk).2 b = true ↔
      ∃ i < fsMaxFiles,get (fsFormat smallDisk).2 i .used ≠ 0 ∧ b ∈ accountable (fsFormat smallDisk).2 i) ∧
    blockUsed (performAll (fsFormat smallDisk).2 (life smallName [1#8] [[2#8]])) 0 = blockUsed (fsFormat smallDisk).2 0 := by
  obtain ⟨marks,restores⟩ := blocks_conserved ⟨_,[],small_formatted,.nil⟩
  have granted : (transcript (fsFormat smallDisk).2 (life smallName [1#8] [[2#8]])).map Prod.snd = [.yes,.yes,.yes] := by
    decide
  refine ⟨marks,restores smallName [1#8] [[2#8]] (by decide) (by simp) ?_ 0 (by decide)⟩
  intro said member
  have listed : said.2 ∈ [Reply.yes,.yes,.yes] := granted ▸ List.mem_map_of_mem member
  simpa using listed

end Arthic.FileConservation
