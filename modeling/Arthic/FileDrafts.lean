import Arthic.FileDisk

namespace Arthic.FileDrafts
open BitWords ByteMemory FileSystem FileLayout FileWrites FileTable FileOperations FileDisk
variable {f v g m after : Fs} {rows : Nat → Row} {count : Nat → Nat} {i index within : Nat} {bytes : List Byte} {ok : Bool}

-- What a turn leaves of the slots there were.
theorem turn_keeps (valid : Layout f count) (entry : i < fsMaxFiles) (turn : Turn f count i index within bytes ok after) :
    (∀ j,j ≠ i → Alike j f after) ∧ (∀ slot,Owned f count slot → slotBlock after slot = slotBlock f slot) ∧
    ∀ b,member f.bitmap b = true → member after.bitmap b = true := by
  have data : ∀ j < fsMaxFiles,∀ k < count j,dataBlock after j k = dataBlock f j k := by
    intro j slot k less
    rcases (turn_parts valid entry turn).2 with ⟨_,_,undisturbed⟩ | ⟨_,stored⟩
    · exact (undisturbed j slot k less).1
    · exact stored.places j slot k less
  have numbers : (∀ j,get f j .indirect ≠ 0 → get after j .indirect = get f j .indirect) →
      ∀ slot,Owned f count slot → slotBlock after slot = slotBlock f slot := by
    intro same slot claim
    cases slot with
    | data j k => exact data j claim.1 k claim.2
    | indirect j => exact same j claim.2
  cases turn with
  | rewrite | ceiling | full => exact ⟨fun _ _ _ _ => rfl,numbers fun _ _ => rfl,fun _ marked => marked⟩
  | stranded => exact ⟨fun _ _ _ _ => rfl,numbers fun _ _ => rfl,fun _ => mark_keeps _ _⟩
  | @direct b next near first =>
    have fits : Field.fits (.direct index) := near
    refine ⟨fun j different => (edited_put (blockMark f b true) i b fits).outside j different,numbers ?_,
      fun _ => mark_keeps _ _⟩
    intro j _
    have same : get (put (blockMark f b true) i (.direct index) b) j .indirect = get (blockMark f b true) j .indirect :=
      get_put_other fits (by trivial) (.inr (by simp))
    exact same
  | linked => exact ⟨fun _ _ _ _ => rfl,numbers fun _ _ => rfl,fun _ => mark_keeps _ _⟩
  | @extended b c next room far none first second =>
    refine ⟨fun j different => (edited_put (blockMark (blockMark f b true) c true) i c (by trivial)).outside j different,
      numbers ?_,fun _ marked => mark_keeps _ _ (mark_keeps _ _ marked)⟩
    intro j some
    have different : i ≠ j := by
      rintro rfl
      exact some none
    exact @put_indirect (blockMark (blockMark f b true) c true) i j c different

theorem passes_last {P : Disk → Prop} {d last : Disk} (passes : Passes P d last) : P last := by
  obtain ⟨writes,rfl,_,cuts⟩ := passes
  exact cuts writes (List.prefix_refl _)

-- Memory and disk part company while a file is written: v is what is on the disk, and what
-- it needs is still marked in memory and not written over.
structure Drafted (v g m : Fs) (i : Nat) : Prop where
  passes : Passes (fun d => Unread v (stored d)) g.disk m.disk
  backed : ∀ slot,Owned v (claims v) slot → slotBlock m slot = slotBlock v slot
  outside : ∀ j,j ≠ i → Alike j g m
  marks : ∀ b,member g.bitmap b = true → member m.bitmap b = true

theorem backed_owned (drafted : Drafted v g m i) (less : ∀ j < fsMaxFiles,claims v j ≤ count j) (claim : Owned v (claims v) slot) : Owned m count slot := by
  have same := drafted.backed slot claim
  cases slot with
  | data j k => exact ⟨claim.1,Nat.lt_of_lt_of_le claim.2 (less j claim.1)⟩
  | indirect j => exact ⟨claim.1,by change get m j .indirect = get v j .indirect at same; rw [same]; exact claim.2⟩

theorem spare_free (drafted : Drafted v g m i) (valid : Layout m count) (less : ∀ j < fsMaxFiles,claims v j ≤ count j)
    (free : member m.bitmap b = false) : ∀ slot,Owned v (claims v) slot → slotBlock v slot ≠ b := by
  intro slot claim
  rw [←drafted.backed slot claim]
  exact owned_marked valid free (backed_owned drafted less claim)

-- A slot of memory's that the disk does not have.
theorem spare_slot (drafted : Drafted v g m i) (valid : Layout m count) (less : ∀ j < fsMaxFiles,claims v j ≤ count j)
    (slot : Slot) (claim : Owned m count slot) (foreign : ¬ Owned v (claims v) slot) :
    ∀ other,Owned v (claims v) other → slotBlock v other ≠ slotBlock m slot := by
  intro other owned same
  rw [←drafted.backed other owned] at same
  have equal := valid.apart other slot (backed_owned drafted less owned) claim same
  exact foreign (equal ▸ owned)

theorem unread_spare (table : Table v rows) {u : Fs} (unread : Unread v u)
    (unowned : ∀ slot,Owned v (claims v) slot → slotBlock v slot ≠ b) (sector : Sector) :
    Unread v (putBlock u b sector) := by
  refine unread_trans unread (unread_unowned (unread_table unread table) ?_ sector)
  intro slot claim
  have owned := (unread_owned unread).mp claim
  rw [unread_slot unread owned]
  exact unowned slot owned

theorem passes_spare (table : Table v rows) (middle : Fs)
    (passes : Passes (fun d => Unread v (stored d)) g.disk middle.disk)
    (unowned : ∀ slot,Owned v (claims v) slot → slotBlock v slot ≠ b) (sector : Sector) :
    Passes (fun d => Unread v (stored d)) g.disk (putBlock middle b sector).disk := by
  refine passes_put passes ?_
  rw [stored_put]
  exact unread_spare table (passes_last passes) unowned sector

-- The number of one more block, behind those the disk knows of.
theorem passes_number (table : Table v rows) (drafted : Drafted v g m i) (valid : Layout m count)
    (less : ∀ j < fsMaxFiles,claims v j ≤ count j) (entry : i < fsMaxFiles) (far : fsDirectBlocks ≤ count i) (some : get m i .indirect ≠ 0) :
    Passes (fun d => Unread v (stored d)) g.disk (putBlock m (get m i .indirect)
      (store (block m (get m i .indirect)) (4*(count i-fsDirectBlocks)) 4 b)).disk := by
  have unread := passes_last drafted.passes
  refine passes_put drafted.passes ?_
  rw [stored_put]
  by_cases known : get v i .indirect = 0
  · exact unread_spare table unread (spare_slot drafted valid less (.indirect i) ⟨entry,some⟩ fun owned => owned.2 known) _
  have place : get m i .indirect = get v i .indirect := drafted.backed (.indirect i) ⟨entry,known⟩
  have tableNow := unread_table unread table
  have own : get (stored m.disk) i .indirect = get m i .indirect := by rw [unread_get unread,place]
  refine unread_trans unread (unread_put _ _ _ ?_ ?_)
  · intro j slot same k below many
    have owner : Slot.indirect j = Slot.indirect i := tableNow.layout.apart _ _
      ⟨slot,by rw [same]; exact some⟩ ⟨entry,by rw [own]; exact some⟩ (same.trans own.symm)
    cases Slot.indirect.inj owner
    have bound := less i entry
    rw [unread_claims unread] at below
    rw [load_store_apart _ _ (by omega),dataBlock,if_neg (by omega),own]
    rfl
  · intro j slot used p below same
    have claimed : p/fsBlockSize < claims (stored m.disk) j := by
      rw [claims,if_neg used]
      simp only [blocks,fsBlockSize]
      omega
    have wrong := tableNow.layout.apart (.data j (p/fsBlockSize)) (.indirect i) ⟨slot,claimed⟩
      ⟨entry,by rw [own]; exact some⟩ (same.trans own.symm)
    cases wrong

-- The rest of the last block, behind the bytes the disk knows of.
theorem passes_rewrite (table : Table v rows) (drafted : Drafted v g m i) (valid : Layout m count)
    (less : ∀ j < fsMaxFiles,claims v j ≤ count j) (entry : i < fsMaxFiles) (below : index < count i)
    (behind : get v i .used ≠ 0 → get v i .size ≤ index*fsBlockSize+within) :
    Passes (fun d => Unread v (stored d)) g.disk
      (putBlock m (dataBlock m i index) (overlay (block m (dataBlock m i index)) within bytes)).disk := by
  have unread := passes_last drafted.passes
  refine passes_put drafted.passes ?_
  rw [stored_put]
  have owner : ∀ slot,Owned (stored m.disk) (claims (stored m.disk)) slot →
      slotBlock (stored m.disk) slot = dataBlock m i index → slot = .data i index := by
    intro slot claim same
    have owned := (unread_owned unread).mp claim
    rw [unread_slot unread owned,←drafted.backed slot owned] at same
    exact valid.apart slot (.data i index) (backed_owned drafted less owned) ⟨entry,below⟩ same
  refine unread_trans unread (unread_put _ _ _ ?_ ?_)
  · intro j slot same k less many
    have some := (unread_table unread table).layout.reach j slot (by omega)
    cases owner (.indirect j) ⟨slot,some⟩ same
  · intro j slot used p short same
    have claimed : p/fsBlockSize < claims (stored m.disk) j := by
      rw [claims,if_neg used]
      simp only [blocks,fsBlockSize]
      omega
    have equal := owner (.data j (p/fsBlockSize)) ⟨slot,claimed⟩ same
    obtain ⟨rfl,rfl⟩ := Slot.data.inj equal
    rw [unread_get unread] at used short
    have before := behind used
    rw [overlay_outside _ _ (by simp only [fsBlockSize] at *; omega),byteAt,same]
    rfl

theorem drafted_turn (table : Table v rows) (drafted : Drafted v g m i) (valid : Layout m count)
    (less : ∀ j < fsMaxFiles,claims v j ≤ count j) (entry : i < fsMaxFiles) (behind : get v i .used ≠ 0 → get v i .size ≤ index*fsBlockSize+within)
    (turn : Turn m count i index within bytes ok after) : Drafted v g after i := by
  obtain ⟨others,slots,marks⟩ := turn_keeps valid entry turn
  refine ⟨?_,?_,?_,fun b marked => marks b (drafted.marks b marked)⟩
  · have fresh := fun c => @spare_free v g m count i c drafted valid less
    cases turn with
    | rewrite below => exact passes_rewrite table drafted valid less entry below behind
    | ceiling | full | stranded => exact drafted.passes
    | @direct b next near first =>
      exact passes_spare table (put (blockMark m b true) i (.direct index) b) drafted.passes
        (fresh b first.free) _
    | @linked b next room far some first =>
      subst next
      have numbered := @passes_number v g m rows count i b table drafted valid less entry far some
      exact passes_spare table (putBlock (blockMark m b true) _ _) numbered (fresh b first.free) _
    | @extended b c next room far none first second =>
      have free : member m.bitmap c = false := by
        by_contra marked
        have kept := mark_keeps m b (Bool.eq_true_of_not_eq_false marked)
        rw [second.free] at kept
        cases kept
      have zeroed := passes_spare table (put (blockMark (blockMark m b true) c true) i .indirect c)
        drafted.passes (fresh c free) fun _ => 0#8
      have numbered := passes_spare table _ zeroed (fresh c free)
        (store (fun _ => 0#8) (4*(index-fsDirectBlocks)) 4 b)
      exact passes_spare table _ numbered (fresh b first.free) _
  · intro slot claim
    rw [slots slot (backed_owned drafted less claim)]
    exact drafted.backed slot claim
  · intro j different x below
    exact (others j different x below).trans (drafted.outside j different x below)

-- The blocks a turn takes: none, or the next block of the file, or that and a block of
-- numbers.
inductive Takes (f after : Fs) (count : Nat → Nat) (i index : Nat) : Prop where
  | none (below : index < count i) (directory : after.directory = f.directory) (bitmap : after.bitmap = f.bitmap)
  | one (next : index = count i) (first : Lowest f (dataBlock after i index))
      (bitmap : after.bitmap = setBit f.bitmap (dataBlock after i index))
      (same : get after i .indirect = get f i .indirect) (reach : fsDirectBlocks ≤ index → get f i .indirect ≠ 0)
  | two (next : index = count i) (far : fsDirectBlocks ≤ index) (none : get f i .indirect = 0)
      (first : Lowest f (dataBlock after i index))
      (second : Lowest (blockMark f (dataBlock after i index) true) (get after i .indirect))
      (bitmap : after.bitmap = setBit (setBit f.bitmap (dataBlock after i index)) (get after i .indirect))

theorem turn_takes (valid : Layout f count) (entry : i < fsMaxFiles) (turn : Turn f count i index within bytes true after) :
    Takes f after count i index := by
  have small : ∀ b < f.super.totalBlocks,b < 2^32 := by
    intro b below
    have tracked := valid.ready.tracked
    simp only [sectorSize] at tracked
    omega
  cases turn with
  | rewrite below => exact .none below rfl rfl
  | @direct b next near first =>
    have fits : Field.fits (.direct index) := near
    have here : dataBlock (putBlock (put (blockMark f b true) i (.direct index) b) b (overlay (fun _ => 0#8) within bytes))
        i index = b := by
      rw [dataBlock,if_pos near]
      exact get_put_same (small b first.inside)
    have same : get (put (blockMark f b true) i (.direct index) b) i .indirect = get (blockMark f b true) i .indirect :=
      get_put_other fits (by trivial) (.inr (by simp))
    exact .one next (by rw [here]; exact first) (by rw [here]; rfl) same (by omega)
  | @linked b next room far some first =>
    have apart : get f i .indirect ≠ b := @owned_marked f count b (.indirect i) valid first.free ⟨entry,some⟩
    have here : dataBlock (putBlock (putBlock (blockMark f b true) (get f i .indirect)
        (store (block f (get f i .indirect)) (4*(index-fsDirectBlocks)) 4 b)) b (overlay (fun _ => 0#8) within bytes))
        i index = b := by
      rw [dataBlock,if_neg (by omega)]
      change load (block (putBlock _ b _) (get f i .indirect)) _ 4 = b
      rw [block_put,if_neg apart,block_put,if_pos rfl]
      exact load_store _ _ (small b first.inside)
    exact .one next (by rw [here]; exact first) (by rw [here]; rfl) rfl (fun _ => some)
  | @extended b c next room far none first second =>
    have own : get (put (blockMark (blockMark f b true) c true) i .indirect c) i .indirect = c :=
      get_put_same (small c second.inside)
    have apart : c ≠ b := by
      rintro rfl
      have marked := mark_marked f c
      rw [second.free] at marked
      cases marked
    have here : dataBlock (putBlock (putBlock (putBlock (put (blockMark (blockMark f b true) c true) i .indirect c) c
        fun _ => 0#8) c (store (fun _ => 0#8) (4*(index-fsDirectBlocks)) 4 b)) b (overlay (fun _ => 0#8) within bytes))
        i index = b := by
      rw [dataBlock,if_neg (by omega)]
      change load (block (putBlock _ b _) (get (put (blockMark (blockMark f b true) c true) i .indirect c) i .indirect)) _ 4 = b
      rw [own,block_put,if_neg apart,block_put,if_pos rfl]
      exact load_store _ _ (small b first.inside)
    refine .two next far none (by rw [here]; exact first) ?_ ?_
    · rw [here]
      change Lowest _ (get (put (blockMark (blockMark f b true) c true) i .indirect c) i .indirect)
      rw [own]
      exact second
    · rw [here]
      change _ = setBit _ (get (put (blockMark (blockMark f b true) c true) i .indirect c) i .indirect)
      rw [own]
      rfl

theorem lowest_nonzero (first : Lowest f b) (second : Lowest (blockMark f b true) c) : c ≠ 0 := by
  rintro rfl
  have zero := mark_zero first.lower
  rw [second.free] at zero
  cases zero

-- What is new of the file was free when the operation began; while nothing is, memory is
-- as it was.
structure Grown (g m : Fs) (i old now : Nat) : Prop where
  fresh : ∀ k,old ≤ k → k < now → member g.bitmap (dataBlock m i k) = false
  still : now = old → m.directory = g.directory ∧ m.bitmap = g.bitmap

theorem grown_start (g : Fs) (i old : Nat) : Grown g g i old old :=
  ⟨fun k low high => absurd high (by omega),fun _ => ⟨rfl,rfl⟩⟩

theorem grown_turn (grown : Grown g m i old (count i)) (least : old ≤ count i) (valid : Layout m count)
    (entry : i < fsMaxFiles) (marks : ∀ b,member g.bitmap b = true → member m.bitmap b = true)
    (turn : Turn m count i index within bytes true after) : Grown g after i old (max (count i) (index+1)) := by
  have slots := (turn_keeps valid entry turn).2.1
  have free : ∀ b,member m.bitmap b = false → member g.bitmap b = false := by
    intro b unmarked
    by_contra marked
    rw [marks b (Bool.eq_true_of_not_eq_false marked)] at unmarked
    cases unmarked
  have earlier : ∀ k,old ≤ k → k < count i → member g.bitmap (dataBlock after i k) = false := by
    intro k low high
    have same : dataBlock after i k = dataBlock m i k := slots (.data i k) ⟨entry,high⟩
    rw [same]
    exact grown.fresh k low high
  have latest : index = count i → Lowest m (dataBlock after i index) →
      ∀ k,old ≤ k → k < max (count i) (index+1) → member g.bitmap (dataBlock after i k) = false := by
    intro next first k low high
    by_cases last : k = index
    · rw [last]
      exact free _ first.free
    · exact earlier k low (by omega)
  cases turn_takes valid entry turn with
  | none below directory bitmap =>
    rw [Nat.max_eq_left below]
    refine ⟨earlier,fun same => ?_⟩
    rw [directory,bitmap]
    exact grown.still same
  | one next first => exact ⟨latest next first,fun same => by omega⟩
  | two next far none first => exact ⟨latest next first,fun same => by omega⟩

end Arthic.FileDrafts
