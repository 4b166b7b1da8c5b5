import Arthic.Library.ByteMemory
import Arthic.Library.Transition
import Arthic.Library.Unsigned
import Mathlib.Logic.Function.Basic

namespace Arthic.Terminal
open ByteMemory Transition Unsigned

def vgaWidth : Nat := 80
def vgaHeight : Nat := 25
def blank : Byte := 32#8
def newline : Byte := 10#8

-- The static variables of terminal.c, the same in both kernels, and the position the VGA
-- controller draws its cursor at. The buffer is what lies at 0xB8000, cell by cell, and
-- goes on behind the 80x25 cells that are shown.
structure Screen where
  row : Nat
  column : Nat
  colour : BitVec 8
  buffer : Nat → BitVec 16
  cursor : Nat

def vgaEntryColour (fg bg : BitVec 8) : BitVec 8 := fg ||| bg <<< 4
def vgaEntry (ch : Byte) (colour : BitVec 8) : BitVec 16 := ch.setWidth 16 ||| colour.setWidth 16 <<< 8

def terminalMoveCursor (s : Screen) (x y : Nat) : Screen := {s with cursor:=wrap 16 (y*vgaWidth+x)}

def blankRow (entry : BitVec 16) (b : Nat → BitVec 16) (y : Nat) : Nat → BitVec 16 :=
  (List.range vgaWidth).foldl (fun b x => Function.update b (y*vgaWidth+x) entry) b

def blankAll (entry : BitVec 16) (b : Nat → BitVec 16) : Nat → BitVec 16 :=
  (List.range vgaHeight).foldl (blankRow entry) b

def terminalInitialise (s : Screen) : Screen :=
  let colour := vgaEntryColour 7#8 0#8
  terminalMoveCursor {s with row:=0,column:=0,colour:=colour,buffer:=blankAll (vgaEntry blank colour) s.buffer} 0 0

def terminalSetColour (s : Screen) (colour : BitVec 8) : Screen := {s with colour:=colour}

def terminalPutAt (s : Screen) (ch : Byte) (colour : BitVec 8) (x y : Nat) : Screen :=
  {s with buffer:=Function.update s.buffer (y*vgaWidth+x) (vgaEntry ch colour)}

def terminalClear (s : Screen) : Screen :=
  terminalMoveCursor {s with buffer:=blankAll (vgaEntry blank s.colour) s.buffer,row:=0,column:=0} 0 0

def terminalBackspace (s : Screen) : Screen :=
  if s.column > 0 then
    let s := {s with column:=s.column-1}
    terminalMoveCursor (terminalPutAt s blank s.colour s.column s.row) s.column s.row
  else s

-- One row of terminal_scroll, copied up in place from left to right.
def copyUp (b : Nat → BitVec 16) (y : Nat) : Nat → BitVec 16 :=
  (List.range vgaWidth).foldl (fun b x => Function.update b ((y-1)*vgaWidth+x) (b (y*vgaWidth+x))) b

def terminalScroll (s : Screen) : Screen :=
  let moved := (List.range' 1 (vgaHeight-1)).foldl copyUp s.buffer
  {s with buffer:=blankRow (vgaEntry blank s.colour) moved (vgaHeight-1)}

def terminalPutchar (s : Screen) (ch : Byte) : Screen :=
  let s :=
    if ch = newline then {s with column:=0,row:=s.row+1}
    else
      let s := terminalPutAt s ch s.colour s.column s.row
      let s := {s with column:=s.column+1}
      if s.column = vgaWidth then {s with column:=0,row:=s.row+1} else s
  let s := if s.row = vgaHeight then {terminalScroll s with row:=vgaHeight-1} else s
  terminalMoveCursor s s.column s.row

inductive Call where
  | putchar (ch : Byte)
  | backspace
  | setColour (colour : BitVec 8)
  | clear

def apply (s : Screen) : Call → Screen
  | .putchar ch => terminalPutchar s ch
  | .backspace => terminalBackspace s
  | .setColour colour => terminalSetColour s colour
  | .clear => terminalClear s

-- What the screen is a view of: rows of 80 cells without an end, the last of them the
-- one that is being written.
structure Document where
  cells : Nat → Nat → Byte
  row : Nat
  column : Nat

def Document.empty : Document := ⟨fun _ _ => blank,0,0⟩

def Document.set (d : Document) (x : Nat) (ch : Byte) : Document :=
  {d with cells:=Function.update d.cells d.row (Function.update (d.cells d.row) x ch)}

def Document.newRow (d : Document) : Document := {d with row:=d.row+1,column:=0}

def Document.put (d : Document) (ch : Byte) : Document :=
  if ch = newline then d.newRow
  else if d.column+1 = vgaWidth then (d.set d.column ch).newRow
  else {d.set d.column ch with column:=d.column+1}

def Document.erase (d : Document) : Document :=
  if d.column = 0 then d else {d.set (d.column-1) blank with column:=d.column-1}

def Document.apply (d : Document) : Call → Document
  | .putchar ch => d.put ch
  | .backspace => d.erase
  | .setColour _ => d
  | .clear => .empty

-- Its last 25 rows, with blank rows behind them when it has fewer.
def Document.shown (d : Document) (y x : Nat) : Byte :=
  let top := d.row+1-vgaHeight
  if top+y ≤ d.row then d.cells (top+y) x else blank

def charAt (s : Screen) (y x : Nat) : Byte := (s.buffer (y*vgaWidth+x)).setWidth 8

variable {s : Screen} {d : Document} {b : Nat → BitVec 16} {entry : BitVec 16} {ch : Byte} {i n x y : Nat}

-- The loops, cell by cell.
theorem copyUp_cell (behind : 0 < y) (b : Nat → BitVec 16) (i : Nat) :
    copyUp b y i = if (y-1)*vgaWidth ≤ i ∧ i < y*vgaWidth then b (i+vgaWidth) else b i := by
  have part : ∀ n ≤ vgaWidth,∀ i,(List.range n).foldl (fun b x => Function.update b ((y-1)*vgaWidth+x) (b (y*vgaWidth+x))) b i =
      if (y-1)*vgaWidth ≤ i ∧ i < (y-1)*vgaWidth+n then b (i+vgaWidth) else b i := by
    intro n
    induction n with
    | zero =>
      intro _ i
      rw [if_neg (by omega)]
      rfl
    | succ n ih =>
      intro fits i
      have source : y*vgaWidth = (y-1)*vgaWidth+vgaWidth := by
        obtain ⟨k,rfl⟩ := Nat.exists_eq_succ_of_ne_zero (Nat.ne_of_gt behind)
        rw [Nat.succ_sub_one,Nat.succ_mul]
      rw [List.range_succ,List.foldl_append,List.foldl_cons,List.foldl_nil]
      by_cases here : i = (y-1)*vgaWidth+n
      · -- the cell below has not been written yet
        subst here
        rw [Function.update_self,ih (by omega),if_neg (by omega),if_pos (by omega),source]
        congr 1
        omega
      · rw [Function.update_of_ne here,ih (by omega)]
        congr 1
        rw [eq_iff_iff]
        omega
  have whole : y*vgaWidth = (y-1)*vgaWidth+vgaWidth := by
    obtain ⟨k,rfl⟩ := Nat.exists_eq_succ_of_ne_zero (Nat.ne_of_gt behind)
    rw [Nat.succ_sub_one,Nat.succ_mul]
  rw [copyUp,part vgaWidth (Nat.le_refl _) i,whole]

theorem rows_moved (b : Nat → BitVec 16) (n i : Nat) :
    (List.range' 1 n).foldl copyUp b i = if i < n*vgaWidth then b (i+vgaWidth) else b i := by
  induction n generalizing i with
  | zero =>
    rw [Nat.zero_mul,if_neg (Nat.not_lt_zero _)]
    rfl
  | succ n ih =>
    rw [List.range'_concat,List.foldl_append,List.foldl_cons,List.foldl_nil,copyUp_cell (by omega),ih,ih,Nat.one_mul,
      Nat.add_sub_cancel_left,Nat.add_comm 1 n,Nat.succ_mul]
    split
    · rw [if_neg (by omega),if_pos (by omega)]
    · by_cases before : i < n*vgaWidth
      · rw [if_pos before,if_pos (by omega)]
      · rw [if_neg before,if_neg (by omega)]

theorem blankRow_cell (entry : BitVec 16) (b : Nat → BitVec 16) (y i : Nat) :
    blankRow entry b y i = if y*vgaWidth ≤ i ∧ i < y*vgaWidth+vgaWidth then entry else b i := by
  unfold blankRow
  generalize vgaWidth = width
  have part : ∀ n i,(List.range n).foldl (fun b x => Function.update b (y*width+x) entry) b i =
      if y*width ≤ i ∧ i < y*width+n then entry else b i := by
    intro n
    induction n with
    | zero =>
      intro i
      rw [if_neg (by omega)]
      rfl
    | succ n ih =>
      intro i
      rw [List.range_succ,List.foldl_append,List.foldl_cons,List.foldl_nil]
      by_cases here : i = y*width+n
      · subst here
        rw [Function.update_self,if_pos (by omega)]
      · rw [Function.update_of_ne here,ih]
        congr 1
        rw [eq_iff_iff]
        omega
  exact part width i

theorem blankAll_cell (entry : BitVec 16) (b : Nat → BitVec 16) (i : Nat) :
    blankAll entry b i = if i < vgaHeight*vgaWidth then entry else b i := by
  unfold blankAll
  generalize vgaHeight = height
  induction height generalizing i with
  | zero =>
    rw [Nat.zero_mul,if_neg (Nat.not_lt_zero _)]
    rfl
  | succ height ih =>
    rw [List.range_succ,List.foldl_append,List.foldl_cons,List.foldl_nil,blankRow_cell,ih,Nat.succ_mul]
    split
    · rw [if_pos (by omega)]
    · by_cases before : i < height*vgaWidth
      · rw [if_pos before,if_pos (by omega)]
      · rw [if_neg before,if_neg (by omega)]

theorem scroll_cell (s : Screen) (i : Nat) : (terminalScroll s).buffer i =
    if i < (vgaHeight-1)*vgaWidth then s.buffer (i+vgaWidth)
    else if i < vgaHeight*vgaWidth then vgaEntry blank s.colour else s.buffer i := by
  have last : vgaHeight*vgaWidth = (vgaHeight-1)*vgaWidth+vgaWidth := rfl
  unfold terminalScroll
  dsimp only
  rw [blankRow_cell,rows_moved,last]
  split
  · rw [if_neg (by omega),if_pos (by omega)]
  · by_cases before : i < (vgaHeight-1)*vgaWidth
    · rw [if_pos before,if_pos before]
    · rw [if_neg before,if_neg before,if_neg (by omega)]

theorem vgaEntry_char (ch : Byte) (colour : BitVec 8) : (vgaEntry ch colour).setWidth 8 = ch := by
  apply BitVec.eq_of_getLsbD_eq
  intro k below
  simp [vgaEntry,below]

-- The page behind the screen, less where the controller's cursor is.
structure Shows (s : Screen) (d : Document) : Prop where
  row : s.row = min d.row (vgaHeight-1)
  column : s.column = d.column
  width : d.column < vgaWidth
  cells : ∀ y < vgaHeight,∀ x < vgaWidth,charAt s y x = d.cells (d.row+1-vgaHeight+y) x
  below : ∀ y x,d.row < y → d.cells y x = blank

theorem Shows.bounds (shows : Shows s d) : s.row < vgaHeight ∧ s.column < vgaWidth := by
  have row := shows.row
  refine ⟨?_,by rw [shows.column]; exact shows.width⟩
  unfold vgaHeight at *
  omega

theorem cell_unique (fits : x < vgaWidth) (other : n < vgaWidth) : y*vgaWidth+x = i*vgaWidth+n ↔ y = i ∧ x = n := by
  unfold vgaWidth at *
  omega

theorem putAt_char (s : Screen) (ch : Byte) (colour : BitVec 8) (inside : n < vgaWidth) (fits : x < vgaWidth) :
    charAt (terminalPutAt s ch colour n i) y x = if y = i ∧ x = n then ch else charAt s y x := by
  unfold charAt terminalPutAt
  dsimp only
  by_cases here : y = i ∧ x = n
  · rw [if_pos here,here.1,here.2,Function.update_self,vgaEntry_char]
  · rw [if_neg here,Function.update_of_ne]
    rw [Ne,cell_unique fits inside]
    exact here

theorem set_cells (d : Document) (place : Nat) (ch : Byte) (y x : Nat) :
    (d.set place ch).cells y x = if y = d.row ∧ x = place then ch else d.cells y x := by
  unfold Document.set
  dsimp only
  by_cases row : y = d.row
  · subst row
    by_cases column : x = place <;> simp [column]
  · simp [row]

theorem shows_set (shows : Shows s d) (inside : n < vgaWidth) (ch : Byte) (colour : BitVec 8) :
    Shows (terminalPutAt s ch colour n s.row) (d.set n ch) := by
  have row := shows.row
  refine ⟨row,shows.column,shows.width,?_,?_⟩
  · intro y tall x wide
    change _ = (d.set n ch).cells (d.row+1-vgaHeight+y) x
    rw [putAt_char s ch colour inside wide,set_cells,shows.cells y tall x wide]
    congr 1
    rw [eq_iff_iff]
    unfold vgaHeight at *
    omega
  · intro y x behind
    rw [set_cells,if_neg (by have := Nat.ne_of_gt behind; exact fun both => this both.1)]
    exact shows.below y x behind

-- What a newline and a full row do.
def feed (s : Screen) : Screen :=
  if s.row+1 = vgaHeight then {terminalScroll {s with column:=0,row:=s.row+1} with row:=vgaHeight-1}
  else {s with column:=0,row:=s.row+1}

theorem shows_feed (shows : Shows s d) : Shows (feed s) d.newRow := by
  have row := shows.row
  have below : ∀ y x,d.newRow.row < y → d.newRow.cells y x = blank := fun y x behind =>
    shows.below y x (Nat.lt_of_succ_lt behind)
  unfold feed
  split
  · rename_i full
    have high : d.row+1 = d.row+1-vgaHeight+vgaHeight := by
      unfold vgaHeight at *
      omega
    refine ⟨?_,rfl,(by decide : 0 < vgaWidth),?_,below⟩
    · change vgaHeight-1 = min (d.row+1) (vgaHeight-1)
      unfold vgaHeight at *
      omega
    · intro y tall x wide
      have top : d.newRow.row+1-vgaHeight = d.row+1-vgaHeight+1 := by
        change d.row+1+1-vgaHeight = _
        omega
      rw [top]
      change (((terminalScroll {s with column:=0,row:=s.row+1}).buffer (y*vgaWidth+x)).setWidth 8 : Byte) = d.cells _ x
      rw [scroll_cell]
      by_cases last : y = vgaHeight-1
      · subst last
        rw [if_neg (by omega),if_pos (by unfold vgaHeight vgaWidth at *; omega),vgaEntry_char]
        refine (shows.below _ _ ?_).symm
        unfold vgaHeight at *
        omega
      · have inside : y+1 < vgaHeight := by
          unfold vgaHeight at *
          omega
        rw [if_pos (by unfold vgaHeight vgaWidth at *; omega)]
        have moved := shows.cells (y+1) inside x wide
        unfold charAt at moved
        rw [show y*vgaWidth+x+vgaWidth = (y+1)*vgaWidth+x by unfold vgaWidth; omega,
          show d.row+1-vgaHeight+1+y = d.row+1-vgaHeight+(y+1) by omega]
        exact moved
  · rename_i room
    have low : d.row+2 ≤ vgaHeight := by
      unfold vgaHeight at *
      omega
    refine ⟨?_,rfl,(by decide : 0 < vgaWidth),?_,below⟩
    · change s.row+1 = min (d.row+1) (vgaHeight-1)
      unfold vgaHeight at *
      omega
    · intro y tall x wide
      have moved := shows.cells y tall x wide
      have top : d.newRow.row+1-vgaHeight = d.row+1-vgaHeight := by
        change d.row+1+1-vgaHeight = _
        omega
      rw [top]
      exact moved

theorem putchar_parts (shows : Shows s d) (ch : Byte) : terminalPutchar s ch =
    let s := if ch = newline then feed s else
      if s.column+1 = vgaWidth then feed (terminalPutAt s ch s.colour s.column s.row)
      else {terminalPutAt s ch s.colour s.column s.row with column:=s.column+1}
    terminalMoveCursor s s.column s.row := by
  have low := shows.bounds.1
  have row : (terminalPutAt s ch s.colour s.column s.row).row = s.row := rfl
  have column : (terminalPutAt s ch s.colour s.column s.row).column = s.column := rfl
  unfold terminalPutchar feed
  dsimp only
  generalize terminalPutAt s ch s.colour s.column s.row = written at *
  rw [column]
  split
  · rfl
  · split
    · rfl
    · -- the row has not changed, so nothing scrolls
      rw [if_neg]
      rw [row]
      exact Nat.ne_of_lt low

theorem shows_cursor (shows : Shows s d) (x y : Nat) : Shows (terminalMoveCursor s x y) d :=
  ⟨shows.row,shows.column,shows.width,shows.cells,shows.below⟩

theorem shows_putchar (shows : Shows s d) (ch : Byte) : Shows (terminalPutchar s ch) (d.put ch) := by
  rw [putchar_parts shows]
  apply shows_cursor
  unfold Document.put
  have column := shows.column
  have wide := shows.width
  split
  · exact shows_feed shows
  · have written := shows_set shows wide ch s.colour
    rw [column]
    split
    · exact shows_feed written
    · rename_i room
      exact ⟨written.row,rfl,by change d.column+1 < vgaWidth; omega,written.cells,written.below⟩

theorem shows_backspace (shows : Shows s d) : Shows (terminalBackspace s) d.erase := by
  have column := shows.column
  have wide := shows.width
  unfold terminalBackspace Document.erase
  rw [column]
  split
  · rename_i back
    rw [if_neg (Nat.ne_of_gt back)]
    apply shows_cursor
    have wiped := shows_set shows (n:=d.column-1) (by omega) blank s.colour
    exact ⟨wiped.row,rfl,by change d.column-1 < vgaWidth; omega,wiped.cells,wiped.below⟩
  · rename_i start
    rw [if_pos (Nat.eq_zero_of_not_pos start)]
    exact shows

theorem shows_blank (s : Screen) (colour : BitVec 8) (row : s.row = 0) (column : s.column = 0)
    (wiped : s.buffer = blankAll (vgaEntry blank colour) b) : Shows s .empty := by
  refine ⟨by rw [row]; rfl,column,(by decide : 0 < vgaWidth),fun y tall x wide => ?_,fun _ _ _ => rfl⟩
  rw [charAt,wiped,blankAll_cell,if_pos,vgaEntry_char]
  · rfl
  · unfold vgaHeight vgaWidth at *
    omega

theorem shows_apply (shows : Shows s d) (call : Call) : Shows (apply s call) (d.apply call) := by
  cases call with
  | putchar ch => exact shows_putchar shows ch
  | backspace => exact shows_backspace shows
  | setColour colour => exact ⟨shows.row,shows.column,shows.width,shows.cells,shows.below⟩
  | clear => exact shows_cursor (shows_blank _ s.colour rfl rfl rfl) 0 0

theorem shows_run (shows : Shows s d) (calls : List Call) : Shows (calls.foldl apply s) (calls.foldl Document.apply d) := by
  induction calls generalizing s d with
  | nil => exact shows
  | cons call calls ih => exact ih (shows_apply shows call)

-- What lies behind the 80x25 cells is not touched, and the controller follows.
structure Tidy (s : Screen) (b : Nat → BitVec 16) : Prop where
  outside : ∀ i,vgaHeight*vgaWidth ≤ i → s.buffer i = b i
  cursor : s.cursor = s.row*vgaWidth+s.column

theorem moveCursor_exact (low : s.row < vgaHeight) (wide : s.column < vgaWidth) (outside : ∀ i,vgaHeight*vgaWidth ≤ i → s.buffer i = b i) :
    Tidy (terminalMoveCursor s s.column s.row) b := by
  refine ⟨outside,wrap_small ?_⟩
  unfold vgaHeight vgaWidth at *
  omega

theorem putAt_outside (s : Screen) (ch : Byte) (colour : BitVec 8) (low : y < vgaHeight) (wide : x < vgaWidth)
    (behind : vgaHeight*vgaWidth ≤ i) : (terminalPutAt s ch colour x y).buffer i = s.buffer i := by
  refine Function.update_of_ne ?_ ..
  unfold vgaHeight vgaWidth at *
  omega

theorem feed_outside (s : Screen) (behind : vgaHeight*vgaWidth ≤ i) : (feed s).buffer i = s.buffer i := by
  unfold feed
  split
  · refine (scroll_cell _ i).trans ?_
    rw [if_neg (by unfold vgaHeight vgaWidth at *; omega),if_neg (by omega)]
  · rfl

theorem tidy_apply (tidy : Tidy s b) (shows : Shows s d) (call : Call) : Tidy (apply s call) b := by
  obtain ⟨low,wide⟩ := shows.bounds
  have after := shows_apply shows call
  cases call with
  | putchar ch =>
    change Tidy (terminalPutchar s ch) b
    change Shows (terminalPutchar s ch) _ at after
    obtain ⟨lowThen,wideThen⟩ := after.bounds
    rw [putchar_parts shows] at lowThen wideThen ⊢
    refine moveCursor_exact lowThen wideThen fun i behind => ?_
    rw [←tidy.outside i behind]
    split
    · exact feed_outside s behind
    · have written := putAt_outside s ch s.colour low wide behind
      split
      · exact (feed_outside _ behind).trans written
      · exact written
  | backspace =>
    change Tidy (terminalBackspace s) b
    unfold terminalBackspace
    split
    · have inside : s.column-1 < vgaWidth := by omega
      refine moveCursor_exact low inside fun i behind => ?_
      rw [←tidy.outside i behind]
      exact putAt_outside {s with column:=s.column-1} blank s.colour low inside behind
    · exact tidy
  | setColour colour => exact ⟨tidy.outside,tidy.cursor⟩
  | clear =>
    refine ⟨fun i behind => ?_,rfl⟩
    rw [←tidy.outside i behind]
    refine (blankAll_cell _ _ i).trans ?_
    rw [if_neg (by omega)]

theorem tidy_run (tidy : Tidy s b) (shows : Shows s d) (calls : List Call) : Tidy (calls.foldl apply s) b := by
  induction calls generalizing s d with
  | nil => exact tidy
  | cons call calls ih => exact ih (tidy_apply tidy shows call) (shows_apply shows call)

theorem shown_cells (shows : Shows s d) (tall : y < vgaHeight) (wide : x < vgaWidth) : charAt s y x = d.shown y x := by
  rw [shows.cells y tall x wide]
  unfold Document.shown
  dsimp only
  split
  · rfl
  · exact shows.below _ _ (by omega)

-- Whatever has been called since terminal_initialise, the screen is the end of the page.
theorem screen_shows_tail (start : Screen) (calls : List Call) :
    let s := calls.foldl apply (terminalInitialise start)
    let d := calls.foldl Document.apply .empty
    (s.row < vgaHeight ∧ s.column < vgaWidth) ∧
    (∀ y < vgaHeight,∀ x < vgaWidth,charAt s y x = d.shown y x) ∧
    (∀ i,vgaHeight*vgaWidth ≤ i → s.buffer i = start.buffer i) ∧ s.cursor = s.row*vgaWidth+s.column := by
  have begun : Shows (terminalInitialise start) .empty := shows_cursor (shows_blank _ _ rfl rfl rfl) 0 0
  have kept : Tidy (terminalInitialise start) start.buffer := by
    refine ⟨fun i behind => ?_,rfl⟩
    refine (blankAll_cell _ _ i).trans ?_
    rw [if_neg (by omega)]
  have shows := shows_run begun calls
  have tidy := tidy_run kept begun calls
  exact ⟨shows.bounds,fun y tall x wide => shown_cells shows tall wide,tidy.outside,tidy.cursor⟩

end Arthic.Terminal
