import Arthic.LoaderContents
import Mathlib.Data.List.TakeWhile

namespace Arthic.LoaderRehearsal
open AddressSpaces ByteMemory FileSystem FrameReturns LoadedImage Loader LoaderContents Loading LoaderTraces
open PageTree PageTables Paging Pmm TableGrowth
  Unsigned

-- What loading asks of the frame allocator: a run of frames, a table unless it is there
-- already, or a frame that may be wanting.
inductive Step where
  | run (count : Nat)
  | table (path : List Nat)
  | spare
  deriving DecidableEq

-- The allocator, and by their paths the tables the address space has.
structure Rehearsal where
  frames : State 32
  tables : List (List Nat)

def take (r : Rehearsal) : Step → Option Rehearsal
  | .run count =>
    let (phys,frames) := pmmAllocFrames r.frames count
    if phys = 0 then none else some {r with frames:=frames}
  | .table path =>
    if path ∈ r.tables then some r else
    let (phys,frames) := pmmAllocFrame r.frames
    if phys = 0 then none else some ⟨frames,path::r.tables⟩
  | .spare => some {r with frames:=(pmmAllocFrame r.frames).2}

-- As far as the frames last.
def reach (r : Rehearsal) : List Step → Bool × Rehearsal
  | [] => (true,r)
  | step::rest =>
    match take r step with
    | none => (false,r)
    | some later => reach later rest

variable {m base : Mmu} {r : Rehearsal} {left right steps : List Step} {permits : Nat → Prop} {prog : Program}

theorem take_there (member : path ∈ r.tables) : take r (.table path) = some r := if_pos member

theorem reach_short (taken : take r step = none) : reach r (step::steps) = (false,r) := by rw [reach,taken]
theorem reach_step (taken : take r step = some later) : reach r (step::steps) = reach later steps := by rw [reach,taken]

theorem reach_stops (stops : (reach r left).1 = false) : reach r (left++right) = reach r left := by
  induction left generalizing r with
  | nil => cases stops
  | cons step left ih =>
    rw [List.cons_append]
    cases taken : take r step with
    | none => rw [reach_short taken,reach_short taken]
    | some later =>
      rw [reach_step taken] at stops
      rw [reach_step taken,reach_step taken]
      exact ih stops

theorem reach_onward (done : (reach r left).1 = true) : reach r (left++right) = reach (reach r left).2 right := by
  induction left generalizing r with
  | nil => rfl
  | cons step left ih =>
    rw [List.cons_append]
    cases taken : take r step with
    | none =>
      rw [reach_short taken] at done
      cases done
    | some later =>
      rw [reach_step taken] at done
      rw [reach_step taken,reach_step taken]
      exact ih done

theorem take_grows {later : Rehearsal} (taken : take r step = some later) : r.tables ⊆ later.tables := by
  unfold take at taken
  cases step with
  | run count =>
    dsimp only at taken
    split at taken
    · cases taken
    · cases Option.some.inj taken
      exact List.Subset.refl _
  | table path =>
    dsimp only at taken
    split at taken
    · cases Option.some.inj taken
      exact List.Subset.refl _
    split at taken
    · cases taken
    · cases Option.some.inj taken
      exact List.subset_cons_self _ _
  | spare =>
    cases Option.some.inj taken
    exact List.Subset.refl _

theorem reach_grows (r : Rehearsal) (steps : List Step) : r.tables ⊆ (reach r steps).2.tables := by
  induction steps generalizing r with
  | nil => exact List.Subset.refl _
  | cons step steps ih =>
    cases taken : take r step with
    | none =>
      rw [reach_short taken]
      exact List.Subset.refl _
    | some later =>
      rw [reach_step taken]
      exact List.Subset.trans (take_grows taken) (ih later)

theorem take_tabled {later : Rehearsal} (taken : take r (.table path) = some later) : path ∈ later.tables := by
  unfold take at taken
  dsimp only at taken
  split at taken
  · rename_i there
    cases Option.some.inj taken
    exact there
  split at taken
  · cases taken
  · cases Option.some.inj taken
    exact List.mem_cons_self ..

theorem reach_tabled (done : (reach r steps).1 = true) (member : Step.table path ∈ steps) :
    path ∈ (reach r steps).2.tables := by
  induction steps generalizing r with
  | nil => cases member
  | cons step steps ih =>
    cases taken : take r step with
    | none =>
      rw [reach_short taken] at done
      cases done
    | some later =>
      rw [reach_step taken] at done ⊢
      rcases List.mem_cons.mp member with rfl | further
      · exact reach_grows later steps (take_tabled taken)
      · exact ih done further

-- No table comes from nowhere.
theorem take_within {later : Rehearsal} (taken : take r step = some later) (member : path ∈ later.tables) :
    path ∈ r.tables ∨ step = .table path := by
  unfold take at taken
  cases step with
  | run count =>
    dsimp only at taken
    split at taken
    · cases taken
    · cases Option.some.inj taken
      exact .inl member
  | table other =>
    dsimp only at taken
    split at taken
    · cases Option.some.inj taken
      exact .inl member
    split at taken
    · cases taken
    · cases Option.some.inj taken
      exact (List.mem_cons.mp member).symm.imp id fun same => by rw [same]
  | spare =>
    cases Option.some.inj taken
    exact .inl member

theorem reach_within (member : path ∈ (reach r steps).2.tables) : path ∈ r.tables ∨ .table path ∈ steps := by
  induction steps generalizing r with
  | nil => exact .inl member
  | cons step steps ih =>
    cases taken : take r step with
    | none =>
      rw [reach_short taken] at member
      exact .inl member
    | some later =>
      rw [reach_step taken] at member
      rcases ih member with before | further
      · exact (take_within taken before).imp id fun same => by rw [same]; exact List.mem_cons_self ..
      · exact .inr (List.mem_cons_of_mem _ further)

-- The rehearsal knows the allocator and which tables there are.
structure Follows (r : Rehearsal) (m : Mmu) : Prop where
  frames : r.frames = m.frames
  charts : ∀ path,path ∈ r.tables ↔ ∃ table,Held pae m.mem m.active path table

-- A part of loading that did what its rehearsal did.
structure Rehearsed (r : Rehearsal) (steps : List Step) (done : Bool) (m : Mmu) : Prop where
  done : (reach r steps).1 = done
  follows : Follows (reach r steps).2 m

theorem rehearsed_nothing (follows : Follows r m) : Rehearsed r [] true m := ⟨rfl,follows⟩

theorem rehearsed_stops (stopped : Rehearsed r left false m) (right : List Step) : Rehearsed r (left++right) false m := by
  have same := @reach_stops r left right stopped.done
  exact ⟨by rw [same]; exact stopped.done,by rw [same]; exact stopped.follows⟩

theorem rehearsed_onward (first : Rehearsed r left true m) (second : Rehearsed (reach r left).2 right done after) :
    Rehearsed r (left++right) done after := by
  have onward := @reach_onward r left right first.done
  exact ⟨by rw [onward]; exact second.done,by rw [onward]; exact second.follows⟩

theorem follows_there (follows : Follows r m) (there : Held pae m.mem m.active path table) :
    Rehearsed r [.table path] true m := by
  have reached : reach r [.table path] = (true,r) := reach_step (take_there ((follows.charts path).mpr ⟨table,there⟩))
  exact ⟨by rw [reached],by rw [reached]; exact follows⟩

theorem linkTable_rehearsed (space : Space m m.active) (zero : Taken m.frames 0) (follows : Follows r m)
    (here : Held pae m.mem m.active p a) (deeper : p.length < pae.depth) (low : k < pae.entries p.length)
    (none : next pae m.mem a k = none) (present : has flags pagePresent = true) (clear : (flags &&& addressMask) = 0#64) :
    Rehearsed r [.table (p++[k])] (linkTable m a k flags).1 (linkTable m a k flags).2 := by
  have missing : p++[k] ∉ r.tables := by
    rw [follows.charts]
    rintro ⟨table,there⟩
    obtain ⟨above,first,_,_,leads⟩ := (held_snoc ..).mp there
    rw [held_unique first here,none] at leads
    cases leads
  have taken : take r (.table (p++[k])) = if (pmmAllocFrame m.frames).1 = 0 then Option.none else
      some ⟨(pmmAllocFrame m.frames).2,(p++[k])::r.tables⟩ := by
    rw [take,if_neg missing,follows.frames]
  rcases linkTable_hung space zero here deeper low none present clear with failed | ⟨made,frame,hung⟩
  · have full : (pmmAllocFrame m.frames).1 = 0 := by
      unfold linkTable at failed
      dsimp only at failed
      split at failed
      · assumption
      · cases failed
    rw [if_pos full] at taken
    have reached : reach r [.table (p++[k])] = (false,r) := reach_short taken
    rw [failed]
    exact ⟨by rw [reached],by rw [reached]; exact follows⟩
  · have room : (pmmAllocFrame m.frames).1 ≠ 0 ∧ (linkTable m a k flags).2.frames = (pmmAllocFrame m.frames).2 := by
      unfold linkTable at made ⊢
      dsimp only at made ⊢
      split at made
      · cases made
      · rename_i real
        rw [if_neg real]
        exact ⟨real,rfl⟩
    rw [if_neg room.1] at taken
    have reached : reach r [.table (p++[k])] = (true,⟨(pmmAllocFrame m.frames).2,(p++[k])::r.tables⟩) := reach_step taken
    rw [made]
    refine ⟨by rw [reached],?_⟩
    rw [reached]
    refine ⟨room.2.symm,fun path => ?_⟩
    rw [hung.linked.kept.active]
    simp only [hung.linked.held,List.mem_cons,follows.charts]
    constructor
    · rintro (rfl | ⟨table,old⟩)
      · exact ⟨_,.inr ⟨rfl,rfl⟩⟩
      · exact ⟨table,.inl old⟩
    · rintro ⟨table,old | ⟨rfl,_⟩⟩
      · exact .inr ⟨table,old⟩
      · exact .inl rfl

theorem follows_set (follows : Follows r m) (space : Space m m.active) (here : Held pae m.mem m.active p a)
    (low : k < pae.entries p.length) {e : Entry}
    (keeps : p.length < pae.depth → next pae (setEntry m.mem a k e) a k = next pae m.mem a k) :
    Follows r {m with mem:=setEntry m.mem a k e} := by
  refine ⟨follows.frames,fun path => ?_⟩
  rw [follows.charts]
  exact exists_congr fun table => (held_set space.tree here low keeps path table).symm

theorem ensurePd_rehearsed (space : Space m m.active) (zero : Taken m.frames 0) (follows : Follows r m) (low : v < 2^32) :
    Rehearsed r [.table [pdptIndex v]] (ensurePd m v).1 (ensurePd m v).2 := by
  obtain ⟨top,_,_⟩ := index_bounds low
  unfold ensurePd
  cases found : has (entry m.mem m.active (pdptIndex v)) pagePresent with
  | true => exact follows_there follows ((held_one top).mpr (next_present found))
  | false =>
    rw [if_neg (by simp)]
    exact linkTable_rehearsed space zero follows ((held_nil ..).mpr rfl) (by decide) top (next_absent found) (by decide) (by decide)

theorem ensurePt_rehearsed (space : Space m m.active) (zero : Taken m.frames 0) (follows : Follows r m) (low : v < 2^32)
    (here : Held pae m.mem m.active [pdptIndex v] pd) (flags : Entry) :
    Rehearsed r [.table [pdptIndex v,pdIndex v]] (ensurePt m pd v flags).1 (ensurePt m pd v flags).2 := by
  obtain ⟨_,middle,_⟩ := index_bounds low
  unfold ensurePt
  rw [show (flags &&& pageUser) = userBit flags from rfl]
  cases found : has (entry m.mem pd (pdIndex v)) pagePresent with
  | false =>
    rw [if_pos rfl]
    have bits : ((pagePresent ||| pageWrite ||| userBit flags) &&& addressMask) = 0#64 ∧
        has (pagePresent ||| pageWrite ||| userBit flags) pagePresent = true := by
      rw [userBit_cases]
      split <;> decide
    exact linkTable_rehearsed space zero follows here Nat.one_lt_two middle (next_absent found) bits.2 bits.1
  | true =>
    rw [if_neg (by simp)]
    have there := follows_there follows ((held_two middle).mpr ⟨pd,here,next_present found⟩)
    cases allowed : has flags pageUser with
    | false => exact there
    | true =>
      obtain ⟨target,presence⟩ := or_keeps (entry m.mem pd (pdIndex v)) flags
      rw [userBit_cases,allowed,if_pos rfl] at target presence
      refine ⟨there.done,follows_set there.follows space here middle fun _ => ?_⟩
      rw [next_present found,next_present (by rw [entry_set,presence,found]),entry_set,target]

def pageSteps (v : Nat) : List Step := [.table [pdptIndex v],.table [pdptIndex v,pdIndex v]]

theorem pages_there (top : [pdptIndex v] ∈ r.tables) (below : [pdptIndex v,pdIndex v] ∈ r.tables) :
    reach r (pageSteps v) = (true,r) := by
  rw [pageSteps,reach_step (take_there top),reach_step (take_there below),reach]

theorem pagingMap_rehearsed (space : Space m m.active) (zero : Taken m.frames 0) (follows : Follows r m) (low : v < 2^32)
    (phys : Nat) (flags : Entry) : Rehearsed r (pageSteps v) (pagingMap m v phys flags).1 (pagingMap m v phys flags).2 := by
  obtain ⟨_,_,last⟩ := index_bounds low
  have upper := ensurePd_rehearsed space zero follows low
  obtain ⟨kept,still,_,directory⟩ := ensurePd_parts space low
  change Rehearsed r ([.table [pdptIndex v]]++[.table [pdptIndex v,pdIndex v]]) _ _
  unfold pagingMap
  generalize ensurePd m v = answer at *
  obtain ⟨made,first⟩ := answer
  dsimp only at *
  cases made with
  | false => exact rehearsed_stops upper _
  | true =>
    rw [if_neg (by simp)]
    have here := directory rfl
    rw [←kept.active] at here still
    generalize address (entry first.mem first.active (pdptIndex v)) = pd at *
    have lower := ensurePt_rehearsed still (kept.taken 0 zero) upper.follows low here flags
    obtain ⟨keptToo,again,outcome⟩ := ensurePt_parts still low here flags
    generalize ensurePt first pd v flags = answer at *
    obtain ⟨found,second⟩ := answer
    dsimp only at *
    cases found with
    | false => exact rehearsed_onward upper lower
    | true =>
      rw [if_neg (by simp)]
      obtain ⟨_,tabled⟩ := outcome.resolve_left fun failed => by cases failed.1
      have table := tabled.table
      rw [←keptToo.active] at table again
      refine rehearsed_onward upper ⟨lower.done,?_⟩
      exact follows_set lower.follows again table last fun deeper => absurd deeper (Nat.lt_irrefl 2)

def runSteps (start : Nat) (indices : List Nat) : List Step := indices.flatMap fun i => pageSteps (wrap 32 (start+i*pageSize))

theorem mapRun_rehearsed {indices : List Nat} (space : Space m m.active) (zero : Taken m.frames 0) (follows : Follows r m)
    (start phys : Nat) (flags : Entry) : Rehearsed r (runSteps start indices) (mapRun m start phys flags indices).1
      (mapRun m start phys flags indices).2 := by
  induction indices generalizing m r with
  | nil => exact rehearsed_nothing follows
  | cons i rest ih =>
    have low := wrap_lt 32 (start+i*pageSize)
    have page := pagingMap_rehearsed space zero follows low (wrap 32 (phys+i*pageSize)) flags
    have kept := @pagingMap_rule m _ (fun now => Space now now.active ∧ Taken now.frames 0) low (by
      rintro before now still ⟨_,taken⟩ edit
      refine ⟨?_,(edit_kept edit).taken 0 taken⟩
      rw [(edit_kept edit).active]
      exact edit_space still edit) space zero ⟨space,zero⟩ (wrap 32 (phys+i*pageSize)) flags
    rw [runSteps,List.flatMap_cons]
    unfold mapRun
    generalize pagingMap _ _ _ _ = answer at *
    obtain ⟨mapped,after⟩ := answer
    cases mapped with
    | false => exact rehearsed_stops page _
    | true => exact rehearsed_onward page (ih kept.1 kept.2 page.follows)

def segmentSteps (ph : ProgramHeader) : List Step := .run ph.pages::runSteps ph.pageStart (List.range ph.pages)
def stackSteps : List Step := .run (userStackSize/pageSize)::runSteps stackBottom (List.range (userStackSize/pageSize))

theorem take_run (follows : Follows r m) (count : Nat) : take r (.run count) =
    if (pmmAllocFrames m.frames count).1 = 0 then none else some {r with frames:=(pmmAllocFrames m.frames count).2} := by
  rw [take,follows.frames]

theorem run_short (follows : Follows r m) (full : pmmAllocFrames m.frames count = (0,m.frames)) (steps : List Step) :
    Rehearsed r (.run count::steps) false m := by
  have taken := take_run follows count
  rw [full,if_pos rfl] at taken
  have reached : reach r (.run count::steps) = (false,r) := reach_short taken
  exact ⟨by rw [reached],by rw [reached]; exact follows⟩

-- A part that gives its frames back if it fails, and that fails too where it refuses to go
-- on. The tables it made stay.
structure Retraced (r : Rehearsal) (steps : List Step) (whole : Prop) (made : Bool) (m : Mmu) : Prop where
  ends : made = true ↔ (reach r steps).1 = true ∧ whole
  charts : ∀ path,path ∈ (reach r steps).2.tables ↔ ∃ table,Held pae m.mem m.active path table
  frames : made = true → (reach r steps).2.frames = m.frames

theorem retraced_stops (retraced : Retraced r left True false m) (right : List Step) (whole : Prop) :
    Retraced r (left++right) whole false m := by
  have stops : (reach r left).1 = false := by simpa using fun reached => retraced.ends.mpr ⟨reached,trivial⟩
  have same := @reach_stops r left right stops
  refine ⟨?_,by rw [same]; exact retraced.charts,nofun⟩
  rw [same,stops]
  simp

theorem retraced_onward (first : Retraced r left part true m) (second : Retraced (reach r left).2 right whole made after) :
    Retraced r (left++right) whole made after := by
  have onward := @reach_onward r left right (first.ends.mp rfl).1
  exact ⟨by rw [onward]; exact second.ends,by rw [onward]; exact second.charts,by rw [onward]; exact second.frames⟩

theorem retraced_follows (retraced : Retraced r steps whole true m) : Follows (reach r steps).2 m :=
  ⟨retraced.frames rfl,retraced.charts⟩

theorem rehearsed_retraced (rehearsed : Rehearsed r steps made m) : Retraced r steps True made m :=
  ⟨by rw [rehearsed.done]; simp,rehearsed.follows.charts,fun _ => rehearsed.follows.frames⟩

theorem retraced_failed (retraced : Retraced r steps whole false m) (mem : after.mem = m.mem) (active : after.active = m.active) :
    Retraced r steps whole false after :=
  ⟨retraced.ends,by rw [mem,active]; exact retraced.charts,nofun⟩

theorem admitted_none (refused : acceptable prog size ph = false) (headers : List ProgramHeader) :
    admitted size (maxSegments-prog.segments.length) (ph::headers) = [] := by
  have none : ¬ (acceptable {} size ph = true ∧ prog.segments.length < maxSegments) := by
    rw [←acceptable_room,refused]
    exact Bool.false_ne_true
  rw [admitted]
  by_cases good : acceptable {} size ph = true
  · have full : ¬ prog.segments.length < maxSegments := fun room => none ⟨good,room⟩
    rw [show maxSegments-prog.segments.length = 0 by omega,List.take_zero]
  · rw [List.takeWhile_cons_of_neg good,List.take_nil]

theorem admitted_cons (fine : acceptable prog size ph = true) (headers : List ProgramHeader) :
    admitted size (maxSegments-prog.segments.length) (ph::headers) =
      ph::admitted size (maxSegments-(prog.segments.length+1)) headers := by
  obtain ⟨good,room⟩ := (acceptable_room prog size ph).mp fine
  rw [admitted,List.takeWhile_cons_of_pos good,
    show maxSegments-prog.segments.length = maxSegments-(prog.segments.length+1)+1 by omega,List.take_succ_cons]
  rfl

theorem loadHeaders_count {indices : List Nat} (done : (loadHeaders m prog file size phoff phentsize indices).1 = true) :
    (loadHeaders m prog file size phoff phentsize indices).2.1.segments.length =
      prog.segments.length+(loadable file phoff phentsize indices).length := by
  induction indices generalizing m prog with
  | nil => rfl
  | cons i rest ih =>
    unfold loadHeaders at done ⊢
    rw [loadable,List.map_cons]
    dsimp only at done ⊢
    by_cases other : (programHeader file (phoff+i*phentsize)).type = ptLoad
    · rw [List.filter_cons_of_pos (by simpa using other),List.length_cons]
      rw [if_neg (not_not.mpr other)] at done ⊢
      have parts := @loadSegment_parts m prog file size (programHeader file (phoff+i*phentsize))
      generalize loadSegment m prog file size _ = answer at *
      obtain ⟨loaded,read,onward⟩ := answer
      cases loaded with
      | false => cases done
      | true =>
        obtain ⟨_,phys,_,_,grown⟩ := parts rfl
        dsimp only at *
        rw [if_pos rfl,ih done,grown,List.length_append,List.length_singleton,loadable]
        omega
    · rw [List.filter_cons_of_neg (by simpa using other)]
      rw [if_pos other] at done ⊢
      exact ih done

section Stages
variable (begun : Accounted first base base.active []) (zero : Taken base.frames 0)
include begun zero

-- Writing to the frames of the run leaves the tables alone.
theorem run_follows (loads : Loads permits base m own) (follows : Follows r m) (room : start+count ≤ m.frames.totalFrames)
    (clear : ∀ frame,start ≤ frame → frame < start+count → frameTest m.frames frame = false) {mem : Memory}
    (outside : ∀ x,x < start*pageSize ∨ start*pageSize+count*pageSize ≤ x → mem x = m.mem x) :
    Follows {r with frames:=claimRun m.frames start count} {m with mem:=mem,frames:=claimRun m.frames start count} := by
  obtain ⟨accounted,_⟩ := loads_accounted begun zero loads
  have held := held_congr (free_same accounted.space room clear outside)
  refine ⟨rfl,fun path => ?_⟩
  rw [follows.charts]
  exact exists_congr fun table => (held path table).symm

-- A run that is given, written to and mapped, page by page.
theorem run_rehearsed {indices : List Nat} (loads : Loads permits base m own) (follows : Follows r m) (real : start*pageSize ≠ 0)
    (room : start+count ≤ m.frames.totalFrames)
    (clear : ∀ frame,start ≤ frame → frame < start+count → frameTest m.frames frame = false)
    (given : pmmAllocFrames m.frames count = (start*pageSize,claimRun m.frames start count)) {mem : Memory}
    (outside : ∀ x,x < start*pageSize ∨ start*pageSize+count*pageSize ≤ x → mem x = m.mem x) (address : Nat) (flags : Entry) :
    Rehearsed r (.run count::runSteps address indices)
      (mapRun {m with mem:=mem,frames:=claimRun m.frames start count} address (start*pageSize) flags indices).1
      (mapRun {m with mem:=mem,frames:=claimRun m.frames start count} address (start*pageSize) flags indices).2 := by
  obtain ⟨counted,further⟩ := loads_accounted begun zero (loads.take room clear outside)
  have taken := take_run follows count
  rw [given,if_neg real] at taken
  obtain ⟨done,ended⟩ := @mapRun_rehearsed _ _ indices counted.space (further.taken 0 zero)
    (run_follows begun zero loads follows room clear outside) address (start*pageSize) flags
  have reached : reach r (.run count::runSteps address indices) = reach _ _ := reach_step taken
  rw [←reached] at done ended
  exact ⟨done,ended⟩

theorem loadSegment_retraced (draft : Drafted permits base m prog) (follows : Follows r m) (fits : CopyFits ph)
    (fine : acceptable prog size ph = true) :
    Retraced r (segmentSteps ph) True (loadSegment m prog file size ph).1 (loadSegment m prog file size ph).2.2 := by
  obtain ⟨own,loads,_⟩ := draft.loads
  obtain ⟨accounted,kept⟩ := loads_accounted begun zero loads
  unfold loadSegment
  rw [if_neg (by simp [fine])]
  rcases allocFrames_cases accounted.space.sound (kept.taken 0 zero) ph.pages with full | ⟨start,real,room,clear,given⟩
  · have reached := run_short follows full (runSteps ph.pageStart (List.range ph.pages))
    rw [full]
    exact rehearsed_retraced reached
  have onward : Rehearsed r (segmentSteps ph) _ _ := run_rehearsed begun zero loads follows real room clear given
    (fun x => copySegment_outside fits m.mem (start*pageSize) file) ph.pageStart (flagsForSegment ph.flags)
  rw [given]
  simp only [if_neg real]
  generalize mapRun _ _ _ _ _ = answer at *
  obtain ⟨mapped,after⟩ := answer
  have retraced := rehearsed_retraced onward
  -- what is given back are frames: the tables stay
  cases mapped with
  | false => exact retraced_failed retraced rfl rfl
  | true => exact retraced

theorem loadHeaders_retraced {indices : List Nat} (draft : Drafted (fun _ => True) base m prog) (follows : Follows r m)
    (fits : ∀ i ∈ indices,(programHeader file (phoff+i*phentsize)).type = ptLoad →
      CopyFits (programHeader file (phoff+i*phentsize))) :
    Retraced r ((admitted size (maxSegments-prog.segments.length) (loadable file phoff phentsize indices)).flatMap segmentSteps)
      (admitted size (maxSegments-prog.segments.length) (loadable file phoff phentsize indices) = loadable file phoff phentsize indices)
      (loadHeaders m prog file size phoff phentsize indices).1 (loadHeaders m prog file size phoff phentsize indices).2.2 := by
  induction indices generalizing m r prog with
  | nil =>
    have none : admitted size (maxSegments-prog.segments.length) (loadable file phoff phentsize []) = [] := List.take_nil
    rw [none]
    exact ⟨iff_of_true rfl ⟨rfl,rfl⟩,follows.charts,fun _ => follows.frames⟩
  | cons i rest ih =>
    have here := fits i (by simp)
    have later := fun j member => fits j (List.mem_cons_of_mem i member)
    unfold loadHeaders
    dsimp only
    by_cases other : (programHeader file (phoff+i*phentsize)).type = ptLoad
    · rw [if_neg (not_not.mpr other)]
      have shape : loadable file phoff phentsize (i::rest) =
          programHeader file (phoff+i*phentsize)::loadable file phoff phentsize rest := by
        rw [loadable,List.map_cons,List.filter_cons_of_pos (by simpa using other),loadable]
      rw [shape]
      generalize programHeader file (phoff+i*phentsize) = ph at *
      cases fine : acceptable prog size ph with
      | false =>
        have refused : loadSegment m prog file size ph = (false,prog,m) := if_pos fine
        rw [refused,admitted_none fine]
        exact ⟨iff_of_false Bool.false_ne_true (fun both => by cases both.2),follows.charts,fun loaded => by cases loaded⟩
      | true =>
        have segment : Retraced r _ _ (loadSegment m prog file size ph).1 (loadSegment m prog file size ph).2.2 :=
          loadSegment_retraced begun zero draft follows (here other) fine
        have came : Came _ base (loadSegment m prog file size ph).2.2 (loadSegment m prog file size ph).2.1 _
          (segmentTrace m prog file size ph) := loadSegment_came begun zero draft (here other) fun _ _ _ => trivial
        have parts := @loadSegment_parts m prog file size ph
        rw [admitted_cons fine,List.flatMap_cons,List.cons_inj_right]
        generalize segmentTrace m prog file size ph = maps at *
        generalize loadSegment m prog file size ph = answer at *
        obtain ⟨loaded,read,onward⟩ := answer
        dsimp only at *
        cases loaded with
        | false => exact retraced_stops segment _ _
        | true =>
          obtain ⟨_,phys,_,_,grown⟩ := parts rfl
          have longer : read.segments.length = prog.segments.length+1 := by rw [grown,List.length_append,List.length_singleton]
          rw [←longer]
          exact retraced_onward segment (ih (came_drafted came).1 (retraced_follows segment) later)
    · have shape : loadable file phoff phentsize (i::rest) = loadable file phoff phentsize rest := by
        rw [loadable,List.map_cons,List.filter_cons_of_neg (by simpa using other),loadable]
      rw [if_pos other,shape]
      exact ih draft follows later

theorem loadStack_rehearsed (draft : Drafted permits base m prog) (follows : Follows r m) :
    Rehearsed r stackSteps (loadStack m prog).1 (loadStack m prog).2.2 := by
  obtain ⟨own,loads,_⟩ := draft.loads
  obtain ⟨accounted,kept⟩ := loads_accounted begun zero loads
  unfold loadStack
  rcases allocFrames_cases accounted.space.sound (kept.taken 0 zero) (userStackSize/pageSize) with
    full | ⟨start,real,room,clear,given⟩
  · have reached := run_short follows full (runSteps stackBottom (List.range (userStackSize/pageSize)))
    rw [full]
    exact reached
  have outside : ∀ x,x < start*pageSize ∨ start*pageSize+userStackSize/pageSize*pageSize ≤ x →
      fill m.mem (start*pageSize) userStackSize 0#8 x = m.mem x := fun x => patch_outside _ _
  have onward : Rehearsed r stackSteps _ _ :=
    run_rehearsed begun zero loads follows real room clear given outside stackBottom stackFlags
  rw [given]
  simp only [if_neg real]
  exact onward

-- The argument page lies among pages that have their tables.
theorem loadArgs_rehearsed (draft : Drafted permits base m prog) (follows : Follows r m) (top : [pdptIndex userArgsAddr] ∈ r.tables)
    (below : [pdptIndex userArgsAddr,pdIndex userArgsAddr] ∈ r.tables) (args : Option CString) :
    Rehearsed r [.spare] true (loadArgs m prog args).2 := by
  obtain ⟨own,loads,_⟩ := draft.loads
  obtain ⟨accounted,kept⟩ := loads_accounted begun zero loads
  have reached : reach r [.spare] = (true,{r with frames:=(pmmAllocFrame m.frames).2}) := by
    rw [←follows.frames]
    rfl
  refine ⟨by rw [reached],?_⟩
  rw [reached]
  unfold loadArgs
  rcases allocFrame_parts accounted.space.sound with full | ⟨frame,inside,free,given⟩
  · rw [full]
    exact ⟨rfl,follows.charts⟩
  have real : frame*pageSize ≠ 0 := fun address => by
    have other := frame_free free inside 0 (kept.taken 0 zero)
    rw [address] at other
    exact other rfl
  rw [given]
  simp only [if_neg real]
  generalize list : ((args.elim [] CString.bytes).take (userArgsMax-1)) = text
  have short : text.length ≤ userArgsMax-1 := by
    rw [←list,List.length_take]
    omega
  have room : frame+1 ≤ m.frames.totalFrames := inside
  have clear : ∀ other,frame ≤ other → other < frame+1 → frameTest m.frames other = false := by
    intro other lower upper
    rw [show other = frame by omega,free]
  have outside : ∀ x,x < frame*pageSize ∨ frame*pageSize+1*pageSize ≤ x →
      patch (fill m.mem (frame*pageSize) pageSize 0#8) (frame*pageSize) text.length (fun k => text.getD k 0#8) x = m.mem x := by
    intro x apart
    rw [patch_outside _ _ (by simp only [userArgsMax,pageSize] at *; omega)]
    exact @patch_outside _ (frame*pageSize) pageSize _ _ (by simp only [pageSize] at *; omega)
  have grown := loads.take room clear outside
  obtain ⟨counted,further⟩ := loads_accounted begun zero grown
  have written := run_follows begun zero loads follows room clear outside
  have page := pagingMap_rehearsed counted.space (further.taken 0 zero) written (show userArgsAddr < 2^32 by decide)
    (frame*pageSize) argsFlags
  have still := @pages_there {r with frames:=claimRun m.frames frame 1} _ top below
  obtain ⟨_,ended⟩ := page
  rw [still] at ended
  exact ended

theorem drafted_active (draft : Drafted permits base m prog) : m.active = base.active := by
  obtain ⟨_,loads,_⟩ := draft.loads
  exact (loads_accounted begun zero loads).2.active

-- Behind the segments; the stack's pages have the tables the argument page needs.
theorem stackArgs_rehearsed (draft : Drafted (fun _ => True) base m prog) (follows : Follows r m) (unset : prog.stackPhys = 0)
    (argless : prog.argsPhys = 0) (stacked : (loadStack m prog).1 = true) (args : Option CString) :
    Rehearsed r (stackSteps++[.spare]) true (loadArgs (loadStack m prog).2.2 (loadStack m prog).2.1 args).2 ∧
    (loadArgs (loadStack m prog).2.2 (loadStack m prog).2.1 args).2.active = base.active := by
  have stack := loadStack_rehearsed begun zero draft follows
  rw [stacked] at stack
  have standing := (loadStack_came begun zero draft unset fun _ _ => trivial).1
  have there : ∀ path,.table path ∈ stackSteps → path ∈ (reach r stackSteps).2.tables :=
    fun path member => reach_tabled stack.done member
  have argued := loadArgs_rehearsed begun zero standing stack.follows (there _ (by decide)) (there _ (by decide)) args
  have last := (loadArgs_came begun zero standing ((loadStack_record m prog).1.trans argless) trivial args).1
  exact ⟨rehearsed_onward stack argued,drafted_active begun zero last⟩

end Stages

-- What paging_create_address_space takes, and what its directory is to have from the kernel.
def spaceSteps : List Step := [.table [],.table [0]]
def rehearsal (m : Mmu) : Rehearsal := ⟨m.frames,(List.range m.kernelPdEntries).map fun j => [0,j]⟩

theorem space_steps (m : Mmu) : reach (rehearsal m) spaceSteps =
    if (pmmAllocFrame m.frames).1 = 0 then (false,rehearsal m)
    else if (pmmAllocFrame (pmmAllocFrame m.frames).2).1 = 0 then
      (false,⟨(pmmAllocFrame m.frames).2,[]::(rehearsal m).tables⟩)
    else (true,⟨(pmmAllocFrame (pmmAllocFrame m.frames).2).2,[0]::[]::(rehearsal m).tables⟩) := by
  have root : ([] : List Nat) ∉ (rehearsal m).tables := by simp [rehearsal]
  have directory : [0] ∉ []::(rehearsal m).tables := by simp [rehearsal]
  have one : take (rehearsal m) (.table []) = if (pmmAllocFrame m.frames).1 = 0 then none else
      some ⟨(pmmAllocFrame m.frames).2,[]::(rehearsal m).tables⟩ := if_neg root
  rw [spaceSteps]
  split
  · rename_i full
    rw [if_pos full] at one
    exact reach_short one
  rename_i real
  rw [if_neg real] at one
  rw [reach_step one]
  have two : take ⟨(pmmAllocFrame m.frames).2,[]::(rehearsal m).tables⟩ (.table [0]) =
      if (pmmAllocFrame (pmmAllocFrame m.frames).2).1 = 0 then none else
        some ⟨(pmmAllocFrame (pmmAllocFrame m.frames).2).2,[0]::[]::(rehearsal m).tables⟩ := if_neg directory
  split
  · rename_i full
    rw [if_pos full] at two
    exact reach_short two
  · rename_i room
    rw [if_neg room] at two
    rw [reach_step two,reach]

theorem create_rehearsed (kernel : KernelSpace m) (zero : Taken m.frames 0) (complete : Complete m)
    (made : (pagingCreateAddressSpace m).1 ≠ 0) :
    Rehearsed (rehearsal m) spaceSteps true (pagingSwitch (pagingCreateAddressSpace m).2 (pagingCreateAddressSpace m).1) := by
  have begun := created_begun kernel zero complete made
  have copied := begun.accounted.complete
  rw [begun.kept.2] at copied
  obtain ⟨mem,frames,pd,equal,fresh⟩ := create_fresh kernel made
  have rooms : (pmmAllocFrame m.frames).1 ≠ 0 ∧ (pmmAllocFrame (pmmAllocFrame m.frames).2).1 ≠ 0 ∧
      (pagingCreateAddressSpace m).2.frames = (pmmAllocFrame (pmmAllocFrame m.frames).2).2 := by
    unfold pagingCreateAddressSpace at made ⊢
    dsimp only at made ⊢
    split at made
    · exact absurd rfl made
    rename_i real
    rw [if_neg real]
    split at made
    · exact absurd rfl made
    rename_i realToo
    rw [if_neg realToo]
    exact ⟨real,realToo,rfl⟩
  have reached := space_steps m
  rw [if_neg rooms.1,if_neg rooms.2.1,←rooms.2.2] at reached
  unfold pagingSwitch at *
  rw [if_neg made] at *
  refine ⟨by rw [reached],?_⟩
  rw [reached]
  refine ⟨rfl,fun path => ?_⟩
  dsimp only at copied ⊢
  rw [equal] at copied ⊢
  dsimp only at copied ⊢
  constructor
  · intro member
    rcases List.mem_cons.mp member with rfl | rest
    · exact ⟨pd,(held_one (by decide)).mpr fresh.top⟩
    rcases List.mem_cons.mp rest with rfl | shared
    · exact ⟨_,(held_nil ..).mpr rfl⟩
    obtain ⟨j,below,rfl⟩ := List.mem_map.mp shared
    exact copied j (List.mem_range.mp below)
  · rintro ⟨table,there⟩
    rcases fresh_held kernel fresh there with ⟨rfl,_⟩ | ⟨rfl,_⟩ | ⟨j,below,rfl,_⟩
    · simp
    · simp
    · simp [rehearsal,below]

theorem create_fails (failed : (pagingCreateAddressSpace m).1 = 0) : (reach (rehearsal m) spaceSteps).1 = false := by
  rw [space_steps]
  unfold pagingCreateAddressSpace at failed
  dsimp only at failed
  split at failed
  · rename_i full
    rw [if_pos full]
  rename_i real
  rw [if_neg real]
  split at failed
  · rename_i full
    rw [if_pos full]
  · exact absurd failed real

-- load_segment accepts every header there is, and there is one.
def Whole (file : Memory) (size : Nat) : Prop :=
  fileHeaders file ≠ [] ∧ (fileHeaders file).length ≤ maxSegments ∧ ∀ ph ∈ fileHeaders file,acceptable {} size ph = true

instance (file : Memory) (size : Nat) : Decidable (Whole file size) := inferInstanceAs (Decidable (_ ∧ _ ∧ _))

theorem admits_whole (file : Memory) (size : Nat) :
    Whole file size ↔ fileHeaders file ≠ [] ∧ admits file size = fileHeaders file := by
  refine and_congr_right fun _ => ?_
  change _ ↔ admitted size maxSegments (fileHeaders file) = fileHeaders file
  rw [admitted]
  constructor
  · rintro ⟨few,all⟩
    rw [List.takeWhile_eq_self_iff.mpr all,List.take_of_length_le few]
  · intro same
    have shorter := (List.takeWhile_prefix (acceptable {} size) (l:=fileHeaders file)).length_le
    have length := congrArg List.length same
    rw [List.length_take] at length
    refine ⟨by omega,List.takeWhile_eq_self_iff.mp ?_⟩
    exact (List.takeWhile_prefix _).eq_of_length (by omega)

-- From the new address space to the argument page.
def imageSteps (file : Memory) (size : Nat) : List Step :=
  spaceSteps++(admits file size).flatMap segmentSteps++if Whole file size then stackSteps++[.spare] else []

theorem unload_mem (m : Mmu) (dir : Nat) (prog : Program) : (unload (pagingSwitch m dir) prog).mem = m.mem := by
  rw [unload_frees]
  rfl

-- The headers were not all loaded, or there are none: of a file without fault one ran short.
theorem headers_stop (copied : Retraced r left (admits file size = fileHeaders file) loaded m)
    (stops : loaded = false ∨ fileHeaders file = []) (right : List Step) :
    Retraced r (left++if Whole file size then right else []) (Whole file size) false m := by
  by_cases good : Whole file size
  · have failed : loaded = false := stops.resolve_right good.1
    rw [failed] at copied
    have short : (reach r left).1 = false := by
      simpa using fun reached => copied.ends.mpr ⟨reached,((admits_whole file size).mp good).2⟩
    have same := @reach_stops r left (if Whole file size then right else []) short
    exact ⟨by rw [same,short]; simp,by rw [same]; exact copied.charts,nofun⟩
  · rw [if_neg good,List.append_nil]
    exact ⟨by simp [good],copied.charts,nofun⟩

theorem loadImage_retraced (kernel : KernelSpace m) (zero : Taken m.frames 0) (complete : Complete m) (fits : CopiesFit file)
    (made : (pagingCreateAddressSpace m).1 ≠ 0) (args : Option CString) :
    Retraced (rehearsal m) (imageSteps file size) (Whole file size) (loadImage m file size args).1.isSome
      {(loadImage m file size args).2 with active:=(pagingCreateAddressSpace m).1} := by
  have begun := created_begun kernel zero complete made
  have first := rehearsed_retraced (create_rehearsed kernel zero complete made)
  have whole := admits_whole file size
  unfold loadImage imageSteps
  generalize pagingCreateAddressSpace m = answer at *
  obtain ⟨dir,fresh⟩ := answer
  dsimp only at *
  rw [if_neg made]
  have active : (pagingSwitch fresh dir).active = dir := if_neg made
  generalize pagingSwitch fresh dir = base at *
  have draft : Drafted (fun _ => True) base base {pageDir:=dir} := ⟨⟨[],.start,.refl _⟩,active.symm⟩
  have copies : ∀ i ∈ List.range (elfPhnum file),(programHeader file (elfPhoff file+i*elfPhentsize file)).type = ptLoad →
      CopyFits (programHeader file (elfPhoff file+i*elfPhentsize file)) := fun i member => fits i (List.mem_range.mp member)
  have headers : Retraced _ ((admits file size).flatMap segmentSteps) (admits file size = fileHeaders file) _ _ :=
    loadHeaders_retraced begun.accounted begun.zero draft (retraced_follows first) copies
  have came := @loadHeaders_came _ _ _ (fun _ => True) _ begun.accounted begun.zero file (elfPhoff file) (elfPhentsize file) size _
    draft copies fun _ _ _ _ => trivial
  have record := loadHeaders_record base {pageDir:=dir} file size (elfPhoff file) (elfPhentsize file) (List.range (elfPhnum file))
  have count := @loadHeaders_count base {pageDir:=dir} file size (elfPhoff file) (elfPhentsize file) (List.range (elfPhnum file))
  have copied := retraced_onward first headers
  generalize headersTrace _ _ _ _ _ _ _ = calls at *
  generalize loadHeaders _ _ _ _ _ _ _ = answer at *
  obtain ⟨loaded,read,mapped⟩ := answer
  dsimp only at *
  have empty : loaded = true → (read.segments = [] ↔ fileHeaders file = []) := fun done => by
    rw [←List.length_eq_zero_iff,count done,List.length_nil,Nat.zero_add,List.length_eq_zero_iff,fileHeaders]
  have home : mapped.active = dir := by
    obtain ⟨now,_,_,_,loads,_,rfl,_⟩ := came
    exact (loads_accounted begun.accounted begun.zero loads).2.active.trans active
  by_cases stops : loaded = false ∨ read.segments = []
  · rw [if_pos stops]
    refine retraced_failed (headers_stop copied ?_ _) (unload_mem _ _ _) home.symm
    cases loaded with
    | false => exact .inl rfl
    | true => exact .inr ((empty rfl).mp (stops.resolve_left (by simp)))
  have done : loaded = true := by simpa using fun failed => stops (.inl failed)
  subst done
  have good : Whole file size := whole.mpr ⟨fun none => stops (.inr ((empty rfl).mpr none)),(headers.ends.mp rfl).2⟩
  rw [if_neg stops,if_pos good]
  obtain ⟨drafted,_⟩ := came_drafted came
  have stack := loadStack_rehearsed begun.accounted begun.zero drafted (retraced_follows copied)
  have standing_ := (loadStack_came begun.accounted begun.zero drafted record.1 fun _ _ => trivial).1
  have argued := fun stacked =>
    stackArgs_rehearsed begun.accounted begun.zero drafted (retraced_follows copied) record.1 record.2.1 stacked args
  generalize loadStack mapped read = answer at *
  obtain ⟨stacked,ready,standing⟩ := answer
  dsimp only at *
  cases stacked with
  | false =>
    rw [if_pos rfl,←List.append_assoc]
    exact retraced_failed (retraced_stops (retraced_onward copied (rehearsed_retraced stack)) [.spare] (Whole file size))
      (unload_mem _ _ _) ((drafted_active begun.accounted begun.zero standing_).trans active).symm
  | true =>
    rw [if_neg (by simp)]
    obtain ⟨furnished,last⟩ := argued rfl
    have ended := retraced_onward copied (rehearsed_retraced furnished)
    generalize loadArgs standing ready args = answer at *
    obtain ⟨prog,final⟩ := answer
    dsimp only at *
    refine ⟨iff_of_true rfl ⟨(ended.ends.mp rfl).1,good⟩,?_,ended.frames⟩
    rw [←active,←last]
    exact ended.charts

theorem reach_run (r : Rehearsal) (steps : List Step) (count : Nat) : (reach r (steps++[.run count])).1 = true ↔
    (reach r steps).1 = true ∧ (pmmAllocFrames (reach r steps).2.frames count).1 ≠ 0 := by
  cases done : (reach r steps).1 with
  | false => rw [reach_stops done,done]; simp
  | true =>
    rw [reach_onward done]
    have last : take (reach r steps).2 (.run count) = if (pmmAllocFrames (reach r steps).2.frames count).1 = 0 then none else
      some {(reach r steps).2 with frames:=(pmmAllocFrames (reach r steps).2.frames count).2} := rfl
    by_cases full : (pmmAllocFrames (reach r steps).2.frames count).1 = 0
    · rw [if_pos full] at last
      rw [reach_short last]
      simp [full]
    · rw [if_neg full] at last
      rw [reach_step last,reach]
      simp [full]

-- A table is made that paging_destroy_address_space does not come to: it looks under
-- directory 0 only.
def Strays (r : Rehearsal) : Prop := ∃ path ∈ r.tables,path.headD 0 ≠ 0
instance (r : Rehearsal) : Decidable (Strays r) := inferInstanceAs (Decidable (∃ path ∈ r.tables,_))

theorem charts_flat (charts : ∀ path,path ∈ r.tables ↔ ∃ table,Held pae mem root path table) :
    Flat mem root ↔ ¬ Strays r := by
  constructor
  · rintro flat ⟨path,member,high⟩
    obtain ⟨table,there⟩ := (charts path).mp member
    cases path with
    | nil => exact high rfl
    | cons i rest => exact high (flat i rest table there)
  · intro none i rest table there
    by_contra high
    exact none ⟨i::rest,(charts _).mpr ⟨table,there⟩,high⟩

theorem shared_low (member : path ∈ (rehearsal m).tables) : path.headD 0 = 0 := by
  obtain ⟨j,_,rfl⟩ := List.mem_map.mp member
  rfl

theorem space_low (member : .table path ∈ spaceSteps) : path.headD 0 = 0 := by
  rcases List.mem_cons.mp member with same | last
  · cases same
    rfl
  · cases List.mem_singleton.mp last
    rfl

-- Without a new address space there is nothing to go wrong.
theorem space_strays (m : Mmu) : ¬ Strays (reach (rehearsal m) spaceSteps).2 := by
  rintro ⟨path,member,high⟩
  exact high ((reach_within member).elim shared_low space_low)

theorem pages_low (low : v < 2^30) (member : .table path ∈ pageSteps v) : path.headD 0 = 0 := by
  have top : pdptIndex v = 0 := Nat.div_eq_of_lt low
  rcases List.mem_cons.mp member with same | rest
  · cases same
    exact top
  · cases List.mem_singleton.mp rest
    exact top

theorem runs_low {indices : List Nat} (low : ∀ i ∈ indices,wrap 32 (start+i*pageSize) < 2^30)
    (member : .table path ∈ runSteps start indices) : path.headD 0 = 0 := by
  obtain ⟨i,inside,page⟩ := List.mem_flatMap.mp member
  exact pages_low (low i inside) page

-- No page of a segment that load_segment accepts begins at 1 GB or above.
def Low (file : Memory) (size : Nat) : Prop :=
  ∀ ph ∈ admits file size,∀ i < ph.pages,wrap 32 (ph.pageStart+i*pageSize) < 2^30

theorem low_strays (low : Low file size) (m : Mmu) : ¬ Strays (reach (rehearsal m) (imageSteps file size)).2 := by
  rintro ⟨path,member,high⟩
  rcases reach_within member with shared | made
  · exact high (shared_low shared)
  rw [imageSteps,List.mem_append,List.mem_append] at made
  rcases made with (space | segment) | rest
  · exact high (space_low space)
  · obtain ⟨ph,accepted,inside⟩ := List.mem_flatMap.mp segment
    rcases List.mem_cons.mp inside with same | page
    · cases same
    · exact high (runs_low (fun i below => low ph accepted i (List.mem_range.mp below)) page)
  · split at rest
    · rcases List.mem_append.mp rest with stack | last
      · rcases List.mem_cons.mp stack with same | page
        · cases same
        · exact high (runs_low (by decide) page)
      · cases List.mem_singleton.mp last
    · cases rest

end Arthic.LoaderRehearsal
