import Arthic.Formatting
import Arthic.Terminal
import Mathlib.Data.List.Induction

namespace Arthic.LineEditing
open ByteMemory Numerals Terminal

def shellBufferSize : Nat := 128
def backspace : Byte := 8#8

-- The static variables of shell.c.
structure Shell where
  buffer : Nat → Byte
  bufferLength : Nat

def promptText : List Byte := spell "arthic> "
def prompt : List Call := promptText.map .putchar

-- A key, and what it makes the shell do to the terminal. `execute` is what the command in
-- the buffer does to it.
def shellInput (execute : (Nat → Byte) → List Call) (sh : Shell) (c : Byte) : Shell × List Call :=
  if c = newline then
    let buffer := Function.update sh.buffer sh.bufferLength 0#8
    (⟨buffer,0⟩,.putchar newline::execute buffer++prompt)
  else if c = backspace then
    if sh.bufferLength > 0 then ({sh with bufferLength:=sh.bufferLength-1},[.backspace]) else (sh,[])
  else if sh.bufferLength < shellBufferSize-1 then
    (⟨Function.update sh.buffer sh.bufferLength c,sh.bufferLength+1⟩,[.putchar c])
  else (sh,[])

def typeKey (execute : (Nat → Byte) → List Call) (at_ : Shell × List Call) (c : Byte) : Shell × List Call :=
  let (sh,calls) := shellInput execute at_.1 c
  (sh,at_.2++calls)

def typed (execute : (Nat → Byte) → List Call) (buffer : Nat → Byte) (keys : List Byte) : Shell × List Call :=
  keys.foldl (typeKey execute) (⟨buffer,0⟩,[])

def line (sh : Shell) : List Byte := (List.range sh.bufferLength).map sh.buffer

-- How many rows leave the screen at its top.
def scrolls (s : Screen) : Call → Nat
  | .putchar ch => if (ch = newline ∨ s.column+1 = vgaWidth) ∧ s.row+1 = vgaHeight then 1 else 0
  | _ => 0

def scrolled (s : Screen) : List Call → Nat
  | [] => 0
  | call::calls => scrolls s call+scrolled (apply s call) calls

-- What stands between the place where the cursor was and the one where it is after the
-- calls, row by row, and the rows have moved up since.
def displayed (s : Screen) (calls : List Call) : List Byte :=
  let now := calls.foldl apply s
  let gone := scrolled s calls
  let start := s.row*vgaWidth+s.column
  (List.range ((now.row+gone)*vgaWidth+now.column-start)).map fun k =>
    charAt now ((start+k)/vgaWidth-gone) ((start+k)%vgaWidth)

-- How many characters the keys leave in a line that was empty.
def heldAfter (n : Nat) (c : Byte) : Nat := if c = backspace then n-1 else min (n+1) (shellBufferSize-1)
def held (keys : List Byte) : Nat := keys.foldl heldAfter 0

-- The line goes on in the next row, and the first character there has not been typed.
def wrapsAt : Nat := vgaWidth-promptText.length

-- No backspace is typed with the cursor at the start of a row.
def WithinRows (keys : List Byte) : Prop := ∀ before after,keys = before++backspace::after → held before ≠ wrapsAt

-- A page read along its rows.
def position (d : Document) : Nat := d.row*vgaWidth+d.column
def cell (d : Document) (k : Nat) : Byte := d.cells (k/vgaWidth) (k%vgaWidth)
def textFrom (d : Document) (start : Nat) : List Byte := (List.range (position d-start)).map fun k => cell d (start+k)

variable {s : Screen} {d : Document} {ch : Byte} {start k n : Nat}

theorem set_cell (wide : n < vgaWidth) (ch : Byte) (k : Nat) :
    cell (d.set n ch) k = if k = d.row*vgaWidth+n then ch else cell d k := by
  unfold cell
  rw [set_cells]
  congr 1
  rw [eq_iff_iff]
  unfold vgaWidth at *
  omega

theorem put_cell (wide : d.column < vgaWidth) (plain : ch ≠ newline) : (d.put ch).column < vgaWidth ∧
    position (d.put ch) = position d+1 ∧ ∀ k,cell (d.put ch) k = if k = position d then ch else cell d k := by
  have written := set_cell (d:=d) wide ch
  unfold Document.put
  rw [if_neg plain]
  split
  · rename_i full
    refine ⟨(by decide : 0 < vgaWidth),?_,written⟩
    change (d.row+1)*vgaWidth+0 = d.row*vgaWidth+d.column+1
    rw [Nat.add_assoc,full,Nat.succ_mul,Nat.add_zero]
  · rename_i room
    refine ⟨?_,rfl,written⟩
    change d.column+1 < vgaWidth
    omega

theorem erase_cell (wide : d.column < vgaWidth) (inside : d.column ≠ 0) : d.erase.column < vgaWidth ∧
    position d.erase+1 = position d ∧ ∀ k,cell d.erase k = if k+1 = position d then blank else cell d k := by
  have wiped := set_cell (d:=d) (n:=d.column-1) (by omega) blank
  unfold Document.erase
  rw [if_neg inside]
  refine ⟨?_,?_,fun k => ?_⟩
  · change d.column-1 < vgaWidth
    omega
  · change d.row*vgaWidth+(d.column-1)+1 = d.row*vgaWidth+d.column
    omega
  · refine (wiped k).trans ?_
    congr 1
    rw [eq_iff_iff]
    unfold position
    omega

theorem put_text (wide : d.column < vgaWidth) (plain : ch ≠ newline) (behind : start ≤ position d) :
    textFrom (d.put ch) start = textFrom d start++[ch] := by
  obtain ⟨_,moved,cells⟩ := put_cell wide plain
  unfold textFrom
  rw [moved,show position d+1-start = position d-start+1 by omega,List.range_succ,List.map_append,List.map_singleton]
  congr 1
  · refine List.map_congr_left fun k member => ?_
    have below := List.mem_range.mp member
    rw [cells,if_neg (by omega)]
  · rw [cells,if_pos (by omega)]

theorem erase_text (wide : d.column < vgaWidth) (inside : d.column ≠ 0) (behind : start < position d) :
    textFrom d.erase start = (textFrom d start).dropLast := by
  obtain ⟨_,moved,cells⟩ := erase_cell wide inside
  unfold textFrom
  rw [←moved,show position d.erase+1-start = position d.erase-start+1 by omega,List.range_succ,List.map_append,
    List.map_singleton,List.dropLast_concat]
  refine List.map_congr_left fun k member => ?_
  have below := List.mem_range.mp member
  rw [cells,if_neg (by omega)]

-- The screen as the first rows of a page.
def restart (s : Screen) : Document := ⟨fun y x => if y < vgaHeight ∧ x < vgaWidth then charAt s y x else blank,s.row,s.column⟩

theorem shows_restart (shows : Shows s d) : Shows s (restart s) := by
  obtain ⟨low,wide⟩ := shows.bounds
  refine ⟨?_,rfl,wide,fun y tall x inside => ?_,fun y x under => ?_⟩
  · change s.row = min s.row (vgaHeight-1)
    unfold vgaHeight at *
    omega
  · have top : (restart s).row+1-vgaHeight = 0 := Nat.sub_eq_zero_of_le low
    rw [top,Nat.zero_add]
    exact (if_pos ⟨tall,inside⟩).symm
  · change s.row < y at under
    change (if y < vgaHeight ∧ x < vgaWidth then charAt s y x else blank) = blank
    split
    · rename_i inside
      rw [shows.cells y inside.1 x inside.2]
      apply shows.below
      have row := shows.row
      unfold vgaHeight at *
      omega
    · rfl

-- kprintf gives terminal_putchar the prompt as it stands.
theorem prompt_printed {bytes : Memory} {fmt : Formatting.Word} (format : Formatting.Holds bytes fmt.toNat promptText) :
    ∃ reads,Formatting.kprintf bytes fmt [] = some ⟨[],promptText,reads⟩ := by
  have rendered : Formatting.reference promptText [] = some promptText := by decide
  obtain ⟨reads,result,_⟩ := Formatting.kprintf_finishes format .nil rendered []
  exact ⟨reads,result⟩

-- Nothing but clearing the screen takes the page back to its start.
theorem apply_scrolls (shows : Shows s d) (call : Call) (kept : call ≠ .clear) :
    (d.apply call).row-(apply s call).row = d.row-s.row+scrolls s call := by
  have before := shows.row
  have after := (shows_apply shows call).row
  have column := shows.column
  rw [after]
  cases call with
  | putchar ch =>
    have row : (d.put ch).row = if ch = newline ∨ d.column+1 = vgaWidth then d.row+1 else d.row := by
      unfold Document.put
      split
      · rename_i feed
        rw [if_pos (.inl feed)]
        rfl
      · rename_i plain
        split
        · rename_i full
          rw [if_pos (.inr full)]
          rfl
        · rename_i room
          rw [if_neg (not_or.mpr ⟨plain,room⟩)]
          rfl
    change (d.put ch).row-min (d.put ch).row (vgaHeight-1) = _
    rw [row,scrolls,column]
    by_cases feeds : ch = newline ∨ d.column+1 = vgaWidth
    · simp only [feeds,if_true,true_and]
      unfold vgaHeight at *
      split
      · omega
      · omega
    · simp only [feeds,if_false,false_and,Nat.add_zero]
      rw [before]
  | backspace =>
    have row : d.erase.row = d.row := by
      unfold Document.erase
      split
      · rfl
      · rfl
    change d.erase.row-min d.erase.row (vgaHeight-1) = _
    rw [row,before]
    rfl
  | setColour colour =>
    change d.row-min d.row (vgaHeight-1) = _
    rw [before]
    rfl
  | clear => exact absurd rfl kept

theorem run_scrolled (shows : Shows s d) (calls : List Call) (kept : .clear ∉ calls) :
    (calls.foldl Document.apply d).row-(calls.foldl apply s).row = d.row-s.row+scrolled s calls := by
  induction calls generalizing s d with
  | nil => rfl
  | cons call calls ih =>
    rw [List.mem_cons,not_or] at kept
    have first := apply_scrolls shows call (Ne.symm kept.1)
    have rest := ih (shows_apply shows call) kept.2
    rw [List.foldl_cons,List.foldl_cons,rest,first,scrolled,Nat.add_assoc]

theorem displayed_length (shows : Shows s d) (home : d.row = s.row) (calls : List Call) (kept : .clear ∉ calls) :
    (displayed s calls).length = position (calls.foldl Document.apply d)-position d := by
  have gone := run_scrolled shows calls kept
  have now := shows_run shows calls
  have row := now.row
  have column := now.column
  have first := shows.column
  unfold displayed position
  dsimp only
  rw [List.length_map,List.length_range,column,first,home]
  congr 3
  omega

-- As long as the first of the rows is on the screen, the cells are.
theorem displayed_text (shows : Shows s d) (home : d.row = s.row) (calls : List Call) (kept : .clear ∉ calls)
    (near : (calls.foldl Document.apply d).row < d.row+vgaHeight) :
    displayed s calls = textFrom (calls.foldl Document.apply d) (position d) := by
  have long := displayed_length shows home calls kept
  have gone := run_scrolled shows calls kept
  have now := shows_run shows calls
  have row := now.row
  have same : s.row*vgaWidth+s.column = position d := by rw [position,home,shows.column]
  unfold displayed at long ⊢
  dsimp only at long ⊢
  rw [List.length_map,List.length_range] at long
  rw [long,same]
  unfold textFrom
  refine List.map_congr_left fun k member => ?_
  have below := List.mem_range.mp member
  generalize calls.foldl Document.apply d = page at *
  generalize calls.foldl apply s = screen at *
  have wide := now.width
  have inside : (position d+k)/vgaWidth ≤ page.row := by
    refine Nat.lt_succ_iff.mp (Nat.div_lt_of_lt_mul ?_)
    unfold position vgaWidth at *
    omega
  have top : d.row ≤ (position d+k)/vgaWidth := by
    rw [Nat.le_div_iff_mul_le (by decide),position]
    omega
  unfold cell
  rw [now.cells _ _ _ (Nat.mod_lt _ (by decide))]
  · congr 1
    unfold vgaHeight at *
    omega
  · unfold vgaHeight at *
    omega

section Keys
variable {execute : (Nat → Byte) → List Call} {buffer : Nat → Byte} {sh : Shell} {keys : List Byte} {c : Byte}

theorem line_length (sh : Shell) : (line sh).length = sh.bufferLength := by rw [line,List.length_map,List.length_range]

theorem line_typed (sh : Shell) (c : Byte) :
    line ⟨Function.update sh.buffer sh.bufferLength c,sh.bufferLength+1⟩ = line sh++[c] := by
  unfold line
  dsimp only
  rw [List.range_succ,List.map_append,List.map_singleton,Function.update_self]
  congr 1
  refine List.map_congr_left fun k member => ?_
  exact Function.update_of_ne (Nat.ne_of_lt (List.mem_range.mp member)) ..

theorem line_erased (some : 0 < sh.bufferLength) : line {sh with bufferLength:=sh.bufferLength-1} = (line sh).dropLast := by
  obtain ⟨n,length⟩ := Nat.exists_eq_succ_of_ne_zero (Nat.ne_of_gt some)
  unfold line
  rw [length,Nat.succ_sub_one,List.range_succ,List.map_append,List.map_singleton,List.dropLast_concat]

theorem held_snoc (keys : List Byte) (c : Byte) : held (keys++[c]) = heldAfter (held keys) c := by
  rw [held,List.foldl_append]
  rfl

theorem held_small (keys : List Byte) : held keys ≤ shellBufferSize-1 := by
  induction keys using List.reverseRecOn with
  | nil => exact Nat.zero_le _
  | append_singleton keys c ih =>
    rw [held_snoc,heldAfter]
    split
    · exact Nat.le_trans (Nat.sub_le ..) ih
    · exact Nat.min_le_right ..

theorem within_nil : WithinRows [] := by
  intro before after none
  simp at none

theorem within_snoc : WithinRows (keys++[c]) ↔ WithinRows keys ∧ (c = backspace → held keys ≠ wrapsAt) := by
  constructor
  · intro within
    refine ⟨fun before after same => ?_,fun back => ?_⟩
    · exact within before (after++[c]) (by rw [same,List.append_assoc,List.cons_append])
    · exact within keys [] (by rw [back])
  · intro ⟨within,last⟩ before after same
    cases after using List.reverseRecOn with
    | nil =>
      obtain ⟨rfl,back⟩ := List.append_inj' same rfl
      exact last (List.cons.inj back).1
    | append_singleton after other =>
      rw [←List.cons_append,←List.append_assoc] at same
      exact within before after (List.append_inj' same rfl).1

-- A page written by the keys. Where they have crossed the start of a row backwards, more
-- is to be seen than the buffer holds, and so it stays.
structure Follows (start : Nat) (d : Document) (sh : Shell) (keys : List Byte) : Prop where
  wide : d.column < vgaWidth
  behind : start ≤ position d
  length : sh.bufferLength = held keys
  same : WithinRows keys → textFrom d start = line sh
  apart : ¬ WithinRows keys → sh.bufferLength < position d-start

theorem Follows.covers (follows : Follows start d sh keys) : sh.bufferLength ≤ position d-start := by
  by_cases within : WithinRows keys
  · have equal := congrArg List.length (follows.same within)
    rw [line_length,textFrom,List.length_map,List.length_range] at equal
    exact Nat.le_of_eq equal.symm
  · exact Nat.le_of_lt (follows.apart within)

theorem typed_follows (follows : Follows start d sh keys) (plain : c ≠ newline) (key : c ≠ backspace)
    (room : sh.bufferLength < shellBufferSize-1) :
    Follows start (d.put c) ⟨Function.update sh.buffer sh.bufferLength c,sh.bufferLength+1⟩ (keys++[c]) := by
  obtain ⟨wide,moved,_⟩ := put_cell follows.wide plain
  have behind := follows.behind
  have length := follows.length
  have within : WithinRows (keys++[c]) ↔ WithinRows keys := by
    rw [within_snoc]
    exact and_iff_left fun back => absurd back key
  refine ⟨wide,by omega,?_,fun inside => ?_,fun outside => ?_⟩
  · rw [held_snoc,heldAfter,if_neg key,←length]
    exact (Nat.min_eq_left room).symm
  · rw [put_text follows.wide plain behind,line_typed,follows.same (within.mp inside)]
  · have more := follows.apart fun inside => outside (within.mpr inside)
    rw [moved]
    dsimp only
    omega

theorem dropped_follows (follows : Follows start d sh keys) (key : c ≠ backspace) (full : ¬ sh.bufferLength < shellBufferSize-1) :
    Follows start d sh (keys++[c]) := by
  have small := held_small keys
  have length := follows.length
  have within : WithinRows (keys++[c]) ↔ WithinRows keys := by
    rw [within_snoc]
    exact and_iff_left fun back => absurd back key
  refine ⟨follows.wide,follows.behind,?_,fun inside => follows.same (within.mp inside),fun outside => ?_⟩
  · rw [held_snoc,heldAfter,if_neg key]
    omega
  · exact follows.apart fun inside => outside (within.mpr inside)

theorem empty_follows (follows : Follows start d sh keys) (none : ¬ 0 < sh.bufferLength) :
    Follows start d sh (keys++[backspace]) := by
  have length := follows.length
  have zero : held keys = 0 := by omega
  have within : WithinRows (keys++[backspace]) ↔ WithinRows keys := by
    rw [within_snoc,zero]
    exact and_iff_left fun _ => by decide
  refine ⟨follows.wide,follows.behind,?_,fun inside => follows.same (within.mp inside),fun outside => ?_⟩
  · rw [held_snoc,heldAfter,if_pos rfl,←length]
    omega
  · exact follows.apart fun inside => outside (within.mpr inside)

-- In a line that agrees with its page the cursor is at the start of a row when the line
-- has filled the prompt's.
theorem edge_length (follows : Follows start d sh keys) (within : WithinRows keys)
    (home : start % vgaWidth = promptText.length) : d.column = 0 ↔ held keys = wrapsAt := by
  have small := held_small keys
  have length := follows.length
  have wide := follows.wide
  have behind := follows.behind
  have equal := congrArg List.length (follows.same within)
  rw [line_length,textFrom,List.length_map,List.length_range] at equal
  have eight : promptText.length = 8 := by decide
  have edge : wrapsAt = 72 := by decide
  have size : shellBufferSize-1 = 127 := rfl
  unfold position at equal behind
  rw [eight] at home
  rw [edge]
  unfold vgaWidth at *
  omega

theorem erased_follows (follows : Follows start d sh keys) (some : 0 < sh.bufferLength)
    (home : start % vgaWidth = promptText.length) :
    Follows start d.erase {sh with bufferLength:=sh.bufferLength-1} (keys++[backspace]) := by
  have length := follows.length
  have behind := follows.behind
  have covers := follows.covers
  have counted : sh.bufferLength-1 = held (keys++[backspace]) := by rw [held_snoc,heldAfter,if_pos rfl,length]
  by_cases start_ : d.column = 0
  · have still : d.erase = d := if_pos start_
    rw [still]
    refine ⟨follows.wide,behind,counted,fun inside => ?_,fun _ => ?_⟩
    · obtain ⟨before,edge⟩ := within_snoc.mp inside
      exact absurd ((edge_length follows before home).mp start_) (edge rfl)
    · dsimp only
      omega
  · obtain ⟨wide,moved,_⟩ := erase_cell follows.wide start_
    refine ⟨wide,by omega,counted,fun inside => ?_,fun outside => ?_⟩
    · rw [erase_text follows.wide start_ (by omega),line_erased some,follows.same (within_snoc.mp inside).1]
    · have before : ¬ WithinRows keys := by
        intro inside
        refine outside (within_snoc.mpr ⟨inside,fun _ edge => ?_⟩)
        exact start_ ((edge_length follows inside home).mpr edge)
      have more := follows.apart before
      dsimp only
      omega

theorem key_follows (follows : Follows start d sh keys) (plain : c ≠ newline) (home : start % vgaWidth = promptText.length) :
    Follows start ((shellInput execute sh c).2.foldl Document.apply d) (shellInput execute sh c).1 (keys++[c]) := by
  unfold shellInput
  rw [if_neg plain]
  split
  · rename_i back
    subst back
    split
    · rename_i some
      exact erased_follows follows some home
    · rename_i none
      exact empty_follows follows none
  · rename_i key
    split
    · rename_i room
      exact typed_follows follows plain key room
    · rename_i full
      exact dropped_follows follows key full

theorem key_kept (plain : c ≠ newline) : .clear ∉ (shellInput execute sh c).2 := by
  unfold shellInput
  rw [if_neg plain]
  split
  · split
    · simp
    · simp
  · split
    · simp
    · simp

theorem typed_snoc (keys : List Byte) (c : Byte) : typed execute buffer (keys++[c]) =
    ((shellInput execute (typed execute buffer keys).1 c).1,
      (typed execute buffer keys).2++(shellInput execute (typed execute buffer keys).1 c).2) := by
  rw [typed,List.foldl_append]
  rfl

theorem keys_follow (execute : (Nat → Byte) → List Call) (buffer : Nat → Byte) (wide : d.column < vgaWidth)
    (home : position d % vgaWidth = promptText.length) (plain : newline ∉ keys) :
    Follows (position d) ((typed execute buffer keys).2.foldl Document.apply d) (typed execute buffer keys).1 keys ∧
    .clear ∉ (typed execute buffer keys).2 := by
  induction keys using List.reverseRecOn with
  | nil =>
    refine ⟨⟨wide,Nat.le_refl _,rfl,fun _ => ?_,fun outside => absurd within_nil outside⟩,List.not_mem_nil⟩
    change textFrom d (position d) = []
    rw [textFrom,Nat.sub_self]
    rfl
  | append_singleton keys c ih =>
    rw [List.mem_append,List.mem_singleton,not_or] at plain
    obtain ⟨follows,kept⟩ := ih plain.1
    rw [typed_snoc,List.foldl_append]
    refine ⟨key_follows follows (Ne.symm plain.2) home,?_⟩
    rw [List.mem_append,not_or]
    exact ⟨kept,key_kept (Ne.symm plain.2)⟩

theorem puts_page (text : List Byte) (plain : newline ∉ text) (room : d.column+text.length < vgaWidth) :
    ((text.map .putchar).foldl Document.apply d).row = d.row ∧
    ((text.map .putchar).foldl Document.apply d).column = d.column+text.length := by
  induction text generalizing d with
  | nil => exact ⟨rfl,rfl⟩
  | cons ch text ih =>
    rw [List.mem_cons,not_or] at plain
    rw [List.length_cons] at room
    have moved : d.put ch = {d.set d.column ch with column:=d.column+1} := by
      unfold Document.put
      rw [if_neg (Ne.symm plain.1),if_neg (by omega)]
    have column : (d.put ch).column = d.column+1 := by rw [moved]
    have row : (d.put ch).row = d.row := by
      rw [moved]
      rfl
    obtain ⟨sameRow,further⟩ := ih (d:=d.put ch) plain.2 (by omega)
    refine ⟨sameRow.trans row,further.trans ?_⟩
    rw [column,List.length_cons]
    omega

theorem prompt_column (shows : Shows s d) (home : s.column = 0) :
    Shows (prompt.foldl apply s) (prompt.foldl Document.apply d) ∧ (prompt.foldl apply s).column = promptText.length := by
  have printed := shows_run shows prompt
  have column : d.column = 0 := shows.column.symm.trans home
  have moved := (puts_page (d:=d) promptText (by decide) (by rw [column]; decide)).2
  refine ⟨printed,printed.column.trans (moved.trans ?_)⟩
  rw [column,Nat.zero_add]

theorem line_agrees (shows : Shows s d) (home : s.column = promptText.length) (plain : newline ∉ keys) :
    (displayed s (typed execute buffer keys).2 = line (typed execute buffer keys).1 ↔ WithinRows keys) ∧
    (typed execute buffer keys).1.bufferLength ≤ shellBufferSize-1 := by
  have fresh := shows_restart shows
  have column : position (restart s) % vgaWidth = promptText.length := by
    change (s.row*vgaWidth+s.column) % vgaWidth = promptText.length
    rw [home,Nat.mul_add_mod_self_right]
    rfl
  obtain ⟨follows,kept⟩ := keys_follow execute buffer fresh.width column plain
  have long := displayed_length fresh rfl _ kept
  have small : (typed execute buffer keys).1.bufferLength ≤ shellBufferSize-1 := by
    rw [follows.length]
    exact held_small keys
  refine ⟨⟨fun same => ?_,fun within => ?_⟩,small⟩
  · by_contra outside
    have more := follows.apart outside
    rw [same,line_length] at long
    omega
  · rw [←follows.same within]
    refine displayed_text fresh rfl _ kept ?_
    have equal := congrArg List.length (follows.same within)
    have behind := follows.behind
    have wide := fresh.width
    rw [line_length,textFrom,List.length_map,List.length_range] at equal
    unfold position at equal behind
    unfold shellBufferSize at small
    unfold vgaWidth vgaHeight at *
    omega

-- Whatever has been on the terminal before, and wherever the prompt has been printed.
theorem shown_as_held (start : Screen) (calls : List Call) (home : (calls.foldl apply (terminalInitialise start)).column = 0)
    (plain : newline ∉ keys) :
    let s := prompt.foldl apply (calls.foldl apply (terminalInitialise start))
    let (sh,made) := typed execute buffer keys
    (displayed s made = line sh ↔ WithinRows keys) ∧ sh.bufferLength ≤ 127 := by
  have begun : Shows (terminalInitialise start) .empty :=
    shows_cursor (shows_blank (s:={start with row:=0,column:=0,colour:=_,buffer:=_}) _ rfl rfl rfl) 0 0
  obtain ⟨printed,column⟩ := prompt_column (shows_run begun calls) home
  exact line_agrees printed column plain

end Keys

def dark : Screen := ⟨0,0,0#8,fun _ => 0#16,0⟩
def typedOn (keys : List Byte) : Shell × List Call := typed (fun _ => []) (fun _ => 0#8) keys

theorem dark_shows : Shows (terminalInitialise dark) .empty :=
  shows_cursor (shows_blank (s:={dark with colour:=_,buffer:=_}) _ rfl rfl rfl) 0 0

-- A slip of the finger within a row.
theorem shown_as_held_short : displayed (prompt.foldl apply (terminalInitialise dark))
    (typedOn [character 'l',character 'x',backspace,character 's']).2 =
    line (typedOn [character 'l',character 'x',backspace,character 's']).1 := by
  have key : ∀ c ∈ [character 'l',character 'x',character 's'],c ≠ backspace := by decide
  have first : WithinRows ([]++[character 'l']) := within_snoc.mpr ⟨within_nil,fun back => absurd back (key _ (by decide))⟩
  have second : WithinRows ([character 'l']++[character 'x']) :=
    within_snoc.mpr ⟨first,fun back => absurd back (key _ (by decide))⟩
  have third : WithinRows ([character 'l',character 'x']++[backspace]) := within_snoc.mpr ⟨second,fun _ => by decide⟩
  have within : WithinRows ([character 'l',character 'x',backspace]++[character 's']) :=
    within_snoc.mpr ⟨third,fun back => absurd back (key _ (by decide))⟩
  have home : (terminalInitialise dark).column = 0 := rfl
  have plain : newline ∉ [character 'l',character 'x',backspace,character 's'] := by decide
  exact (shown_as_held dark [] home plain).1.mpr within

-- The row is filled and one character taken back: the last of the row stays on the screen.
theorem wrapped_backspace : displayed (prompt.foldl apply (terminalInitialise dark))
    (typedOn (List.replicate 72 (character 'a')++[backspace])).2 ≠
    line (typedOn (List.replicate 72 (character 'a')++[backspace])).1 := by
  obtain ⟨printed,column⟩ := prompt_column dark_shows rfl
  intro same
  have within := (line_agrees printed column (by decide)).1.mp same
  have filled : held (List.replicate 72 (character 'a')) = wrapsAt := by decide +kernel
  exact within _ [] rfl filled

end Arthic.LineEditing
