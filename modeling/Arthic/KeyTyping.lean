import Arthic.Interrupts
import Mathlib.Data.List.GetD

namespace Arthic.KeyTyping
open ByteMemory Interrupts

def newline : Byte := 0x0A#8
def backspace : Byte := 0x08#8

-- The keyboard and the shell behind it: the modifiers, the line so far and the lines that
-- were handed to execute.
structure Console where
  keys : Keys
  buffer : List Byte
  lines : List (List Byte)

-- The characters keyboard_irq gives its callback, and the modifiers it is left with.
def deliver (keys : Keys) : List (BitVec 8) → Keys × List Byte
  | [] => (keys,[])
  | code::codes =>
    let after := deliver (keyboardIrq keys code).1 codes
    (after.1,(keyboardIrq keys code).2.toList++after.2)

def input (console : Console) (c : Byte) : Console :=
  let after := shellInput console.buffer c
  {console with buffer:=after.1,lines:=console.lines++after.2.toList}

def setKeys (console : Console) (keys : Keys) : Console := {console with keys:=keys}

def press (console : Console) (code : BitVec 8) : Console :=
  let after := keyboardIrq console.keys code
  after.2.toList.foldl input (setKeys console after.1)

-- A way to type a character with both modifiers off: the key, or the key under shift.
def up (code : BitVec 8) : BitVec 8 := code ||| scReleased
def tap (code : BitVec 8) : List (BitVec 8) := [code,up code]
def keyOf (table : List Byte) (c : Byte) : BitVec 8 := BitVec.ofNat 8 (table.idxOf c)
def stroke (c : Byte) : List (BitVec 8) :=
  if c ∈ scancodeToAscii then tap (keyOf scancodeToAscii c)
  else scLshift::tap (keyOf scancodeToAsciiShift c)++[up scLshift]

def Typeable (c : Byte) : Prop := c ≠ 0#8 ∧ (c ∈ scancodeToAscii ∨ c ∈ scancodeToAsciiShift)

-- Both modifiers off, whatever they were.
def settle (keys : Keys) : List (BitVec 8) := up scLshift::if keys.capsLock then tap scCapslock else []

def plainKeys : Keys := ⟨false,false⟩

variable {table : List Byte} {keys : Keys} {console : Console} {line chars : List Byte} {codes : List (BitVec 8)} {c : Byte}

instance : DecidableEq Keys := fun a b => decidable_of_iff (a.shiftHeld = b.shiftHeld ∧ a.capsLock = b.capsLock)
  ⟨fun ⟨shift,caps⟩ => by cases a; cases b; cases shift; cases caps; rfl,fun same => by rw [same]; exact ⟨rfl,rfl⟩⟩

instance : Decidable (Typeable c) := inferInstanceAs (Decidable (_ ∧ _))

theorem scancodeToAscii_bytes : scancodeToAscii =
    [0x00#8,0x00#8,0x31#8,0x32#8,0x33#8,0x34#8,0x35#8,0x36#8,0x37#8,0x38#8,0x39#8,0x30#8,0x2D#8,0x3D#8,0x08#8,
    0x09#8,0x71#8,0x77#8,0x65#8,0x72#8,0x74#8,0x79#8,0x75#8,0x69#8,0x6F#8,0x70#8,0x5B#8,0x5D#8,0x0A#8,0x00#8,
    0x61#8,0x73#8,0x64#8,0x66#8,0x67#8,0x68#8,0x6A#8,0x6B#8,0x6C#8,0x3B#8,0x27#8,0x60#8,0x00#8,0x5C#8,0x7A#8,
    0x78#8,0x63#8,0x76#8,0x62#8,0x6E#8,0x6D#8,0x2C#8,0x2E#8,0x2F#8,0x00#8,0x2A#8,0x00#8,0x20#8] := rfl

theorem scancodeToAsciiShift_bytes : scancodeToAsciiShift =
    [0x00#8,0x00#8,0x21#8,0x40#8,0x23#8,0x24#8,0x25#8,0x5E#8,0x26#8,0x2A#8,0x28#8,0x29#8,0x5F#8,0x2B#8,0x08#8,
    0x09#8,0x51#8,0x57#8,0x45#8,0x52#8,0x54#8,0x59#8,0x55#8,0x49#8,0x4F#8,0x50#8,0x7B#8,0x7D#8,0x0A#8,0x00#8,
    0x41#8,0x53#8,0x44#8,0x46#8,0x47#8,0x48#8,0x4A#8,0x4B#8,0x4C#8,0x3A#8,0x22#8,0x7E#8,0x00#8,0x7C#8,0x5A#8,
    0x58#8,0x43#8,0x56#8,0x42#8,0x4E#8,0x4D#8,0x3C#8,0x3E#8,0x3F#8,0x00#8,0x2A#8,0x00#8,0x20#8] := rfl

theorem printable_typeable : ∀ n : Fin 95,Typeable (BitVec.ofNat 8 (0x20+n.val)) := by
  unfold Typeable
  rw [scancodeToAscii_bytes,scancodeToAsciiShift_bytes]
  decide

-- A letter in the one table is flipped to the letter at its place in the other.
theorem flip_places : ∀ i : Fin 58,
    (flipCase (scancodeToAscii.getD i 0#8) = scancodeToAscii.getD i 0#8 ∨
      flipCase (scancodeToAscii.getD i 0#8) = scancodeToAsciiShift.getD i 0#8) ∧
    (flipCase (scancodeToAsciiShift.getD i 0#8) = scancodeToAsciiShift.getD i 0#8 ∨
      flipCase (scancodeToAsciiShift.getD i 0#8) = scancodeToAscii.getD i 0#8) := by
  rw [scancodeToAscii_bytes,scancodeToAsciiShift_bytes]
  decide

theorem code_bits : ∀ n : Fin 0x80,BitVec.ofNat 8 n &&& scReleased = 0#8 ∧ up (BitVec.ofNat 8 n) &&& scReleased ≠ 0#8 ∧
    up (BitVec.ofNat 8 n) &&& ~~~scReleased = BitVec.ofNat 8 n := by
  decide

theorem deliver_append (keys : Keys) (first second : List (BitVec 8)) : deliver keys (first++second) =
    ((deliver (deliver keys first).1 second).1,(deliver keys first).2++(deliver (deliver keys first).1 second).2) := by
  induction first generalizing keys with
  | nil => rfl
  | cons code first ih =>
    rw [List.cons_append,deliver,deliver,ih]
    dsimp only
    rw [List.append_assoc]

theorem input_keys (chars : List Byte) (console : Console) (keys : Keys) :
    chars.foldl input (setKeys console keys) = setKeys (chars.foldl input console) keys := by
  induction chars generalizing console with
  | nil => rfl
  | cons c chars ih => exact ih (input console c)

-- The shell sees the characters and nothing else of the scancodes.
theorem press_delivers (codes : List (BitVec 8)) (console : Console) : codes.foldl press console =
    setKeys ((deliver console.keys codes).2.foldl input console) (deliver console.keys codes).1 := by
  induction codes generalizing console with
  | nil => rfl
  | cons code codes ih =>
    have typed : press console code =
        setKeys ((keyboardIrq console.keys code).2.toList.foldl input console) (keyboardIrq console.keys code).1 :=
      input_keys ..
    rw [List.foldl_cons,ih,typed,input_keys,deliver]
    dsimp only
    rw [List.foldl_append]
    rfl

-- One of the two tables: the codes that are not characters have no character in it.
structure Layout (table : List Byte) : Prop where
  short : table.length < 0x80
  lshift : table.getD scLshift.toNat 0#8 = 0#8
  rshift : table.getD scRshift.toNat 0#8 = 0#8
  capslock : table.getD scCapslock.toNat 0#8 = 0#8

theorem scancodeToAscii_layout : Layout scancodeToAscii := by
  rw [scancodeToAscii_bytes]
  exact ⟨by decide,rfl,rfl,rfl⟩

theorem scancodeToAsciiShift_layout : Layout scancodeToAsciiShift := by
  rw [scancodeToAsciiShift_bytes]
  exact ⟨by decide,rfl,rfl,rfl⟩

theorem keyOf_toNat (layout : Layout table) (member : c ∈ table) : (keyOf table c).toNat = table.idxOf c := by
  have place := List.idxOf_lt_length_of_mem member
  have short := layout.short
  unfold keyOf
  rw [BitVec.toNat_ofNat]
  exact Nat.mod_eq_of_lt (by omega)

theorem keyOf_types (layout : Layout table) (member : c ∈ table) : table.getD (keyOf table c).toNat 0#8 = c := by
  have place := List.idxOf_lt_length_of_mem member
  rw [keyOf_toNat layout member,List.getD_eq_getElem?_getD,List.getElem?_eq_getElem place,List.getElem_idxOf place]
  rfl

-- With Caps Lock off a key gives its character, and nothing when it comes up again.
theorem tap_types (layout : Layout table) (member : c ∈ table) (visible : c ≠ 0#8) (shift : Bool)
    (chosen : (if shift then scancodeToAsciiShift else scancodeToAscii) = table) :
    deliver ⟨shift,false⟩ (tap (keyOf table c)) = (⟨shift,false⟩,[c]) := by
  have typed := keyOf_types layout member
  have low : (keyOf table c).toNat < 0x80 := by
    rw [keyOf_toNat layout member]
    exact (List.idxOf_lt_length_of_mem member).trans layout.short
  have differs : ∀ code : BitVec 8,table.getD code.toNat 0#8 = 0#8 → keyOf table c ≠ code := by
    intro code empty same
    rw [same,empty] at typed
    exact visible typed.symm
  have left := differs scLshift layout.lshift
  have right := differs scRshift layout.rshift
  have caps := differs scCapslock layout.capslock
  generalize keyOf table c = key at *
  obtain ⟨down,released,again⟩ := code_bits ⟨key.toNat,low⟩
  simp only [BitVec.ofNat_toNat,BitVec.setWidth_eq] at down released again
  have press : keyboardIrq ⟨shift,false⟩ key = (⟨shift,false⟩,some c) := by
    unfold keyboardIrq
    rw [if_neg (not_not.mpr down),if_neg (not_or.mpr ⟨left,right⟩),if_neg caps]
    dsimp only
    rw [chosen,typed,if_neg visible]
    rfl
  have release : keyboardIrq ⟨shift,false⟩ (up key) = (⟨shift,false⟩,none) := by
    unfold keyboardIrq
    rw [if_pos released,again]
    dsimp only
    rw [if_neg (not_or.mpr ⟨left,right⟩)]
  unfold tap
  simp only [deliver]
  rw [press,release]
  rfl

theorem stroke_types (typeable : Typeable c) : deliver plainKeys (stroke c) = (plainKeys,[c]) := by
  obtain ⟨visible,either⟩ := typeable
  unfold stroke
  split
  · rename_i plain
    exact tap_types scancodeToAscii_layout plain visible false rfl
  · rename_i other
    have shifted := either.resolve_left other
    have typed := tap_types scancodeToAsciiShift_layout shifted visible true rfl
    have held : deliver plainKeys [scLshift] = (⟨true,false⟩,[]) := by decide
    have dropped : deliver ⟨true,false⟩ [up scLshift] = (plainKeys,[]) := by decide
    rw [←List.singleton_append,List.append_assoc,deliver_append,held,deliver_append,typed,dropped]
    rfl

theorem strokes_type (typeable : ∀ c ∈ line,Typeable c) : deliver plainKeys (line.flatMap stroke) = (plainKeys,line) := by
  induction line with
  | nil => rfl
  | cons c line ih =>
    rw [List.flatMap_cons,deliver_append,stroke_types (typeable c (List.mem_cons_self ..)),
      ih fun other member => typeable other (List.mem_cons_of_mem _ member)]
    rfl

theorem settle_plain (keys : Keys) : deliver keys (settle keys) = (plainKeys,[]) := by
  obtain ⟨shift,caps⟩ := keys
  cases shift with
  | false =>
    cases caps with
    | false => decide
    | true => decide
  | true =>
    cases caps with
    | false => decide
    | true => decide

-- What backspace and the length of the buffer make of the characters of a line.
def editKey (buffer : List Byte) (c : Byte) : List Byte :=
  if c = backspace then buffer.dropLast else if buffer.length < shellBufferSize-1 then buffer++[c] else buffer
def edit (chars : List Byte) : List Byte := chars.foldl editKey []

theorem input_edits (other : c ≠ newline) : input console c = {console with buffer:=editKey console.buffer c} := by
  unfold input shellInput editKey
  rw [if_neg (show c ≠ 0x0A#8 from other)]
  by_cases erases : c = backspace
  · rw [if_pos (show c = 0x08#8 from erases),if_pos erases]
    simp
  · rw [if_neg (show c ≠ 0x08#8 from erases),if_neg erases]
    split
    · simp
    · simp

theorem input_enters (console : Console) : input console newline = {console with buffer:=[],lines:=console.lines++[console.buffer]} := rfl

theorem inputs_edit (chars : List Byte) (none : newline ∉ chars) (console : Console) :
    chars.foldl input console = {console with buffer:=chars.foldl editKey console.buffer} := by
  induction chars generalizing console with
  | nil => rfl
  | cons c chars ih =>
    have other : c ≠ newline := fun same => none (same ▸ List.mem_cons_self ..)
    rw [List.foldl_cons,input_edits other,ih fun member => none (List.mem_cons_of_mem _ member)]
    rfl

theorem edit_plain (plain : ∀ c ∈ chars,c ≠ backspace) (short : line.length+chars.length ≤ shellBufferSize-1) :
    chars.foldl editKey line = line++chars := by
  induction chars generalizing line with
  | nil => rw [List.foldl_nil,List.append_nil]
  | cons c chars ih =>
    rw [List.length_cons] at short
    rw [List.foldl_cons,editKey,if_neg (plain c (List.mem_cons_self ..)),if_pos (by omega),
      ih (fun other member => plain other (List.mem_cons_of_mem _ member)) (by rw [List.length_append,List.length_singleton]; omega),
      List.append_assoc,List.singleton_append]

-- Characters fall into the lines Enter ended and what has been typed since.
theorem split_lines (chars : List Byte) : ∃ done rest : List _,chars = done.flatMap (·++[newline])++rest ∧
    (∀ ended ∈ done,newline ∉ ended) ∧ newline ∉ rest := by
  induction chars with
  | nil => exact ⟨[],[],rfl,nofun,nofun⟩
  | cons c chars ih =>
    obtain ⟨done,rest,rfl,plain,open_⟩ := ih
    by_cases enter : c = newline
    · refine ⟨[]::done,rest,by rw [enter]; rfl,fun ended member => ?_,open_⟩
      rcases List.mem_cons.mp member with rfl | later
      · exact nofun
      · exact plain ended later
    · cases done with
      | nil =>
        refine ⟨[],c::rest,rfl,nofun,fun member => ?_⟩
        rcases List.mem_cons.mp member with same | later
        · exact enter same.symm
        · exact open_ later
      | cons first done =>
        refine ⟨(c::first)::done,rest,rfl,fun ended member => ?_,open_⟩
        rcases List.mem_cons.mp member with rfl | later
        · intro inside
          rcases List.mem_cons.mp inside with same | further
          · exact enter same.symm
          · exact plain first (List.mem_cons_self ..) further
        · exact plain ended (List.mem_cons_of_mem _ later)

theorem inputs_lines (done : List (List Byte)) (rest : List Byte) (plain : ∀ ended ∈ done,newline ∉ ended) (open_ : newline ∉ rest)
    (lines : List (List Byte)) : (done.flatMap (·++[newline])++rest).foldl input ⟨keys,[],lines⟩ = ⟨keys,edit rest,lines++done.map edit⟩ := by
  induction done generalizing lines with
  | nil =>
    rw [List.flatMap_nil,List.nil_append,inputs_edit rest open_,List.map_nil,List.append_nil]
    rfl
  | cons first done ih =>
    rw [List.flatMap_cons,List.append_assoc,List.append_assoc,List.foldl_append,inputs_edit first (plain first (List.mem_cons_self ..)),
      List.singleton_append,List.foldl_cons,input_enters]
    dsimp only
    rw [ih fun ended member => plain ended (List.mem_cons_of_mem _ member),List.map_cons,List.append_assoc]
    rfl

theorem flip_visible (visible : c ≠ 0#8) : flipCase c ≠ 0#8 := by
  unfold flipCase
  split
  · bv_omega
  · split
    · bv_omega
    · exact visible

theorem layout_member (i : Nat) (visible : table.getD i 0#8 ≠ 0#8) : i < table.length ∧ table.getD i 0#8 ∈ table := by
  have inside : i < table.length := by
    by_contra outside
    exact visible (List.getD_eq_default _ _ (not_lt.mp outside))
  refine ⟨inside,?_⟩
  rw [List.getD_eq_getElem _ _ inside]
  exact List.getElem_mem inside

theorem flip_member {other : List Byte} (i : Nat) (visible : table.getD i 0#8 ≠ 0#8)
    (flipped : flipCase (table.getD i 0#8) = table.getD i 0#8 ∨ flipCase (table.getD i 0#8) = other.getD i 0#8) :
    flipCase (table.getD i 0#8) ∈ table ∨ flipCase (table.getD i 0#8) ∈ other := by
  have shown := flip_visible visible
  rcases flipped with same | moved
  · rw [same]
    exact .inl (layout_member i visible).2
  · rw [moved] at shown ⊢
    exact .inr (layout_member i shown).2

-- Whatever the modifiers, a key gives a character that one of the two tables has.
theorem table_typeable (table : List Byte) (shift : Bool)
    (chosen : (if shift then scancodeToAsciiShift else scancodeToAscii) = table) (i : Nat) (visible : table.getD i 0#8 ≠ 0#8) : Typeable (table.getD i 0#8) ∧ Typeable (flipCase (table.getD i 0#8)) := by
  obtain ⟨inside,member⟩ := layout_member i visible
  have flipped := flip_visible visible
  have lengths : scancodeToAscii.length = 58 ∧ scancodeToAsciiShift.length = 58 := by
    rw [scancodeToAscii_bytes,scancodeToAsciiShift_bytes]
    exact ⟨rfl,rfl⟩
  cases shift with
  | false =>
    have same : scancodeToAscii = table := chosen
    subst same
    exact ⟨⟨visible,.inl member⟩,flipped,flip_member i visible (flip_places ⟨i,inside.trans_eq lengths.1⟩).1⟩
  | true =>
    have same : scancodeToAsciiShift = table := chosen
    subst same
    exact ⟨⟨visible,.inr member⟩,flipped,(flip_member i visible (flip_places ⟨i,inside.trans_eq lengths.2⟩).2).symm⟩

theorem pressed_typeable (keys : Keys) (code : BitVec 8) : ∀ c ∈ (keyboardIrq keys code).2,Typeable c := by
  have typeable := fun table chosen => table_typeable table keys.shiftHeld chosen code.toNat
  unfold keyboardIrq
  split
  · nofun
  · split
    · nofun
    · split
      · nofun
      · generalize (if keys.shiftHeld = true then scancodeToAsciiShift else scancodeToAscii) = table at *
        dsimp only
        intro c sent
        by_cases empty : table.getD code.toNat 0#8 = 0#8
        · rw [if_pos empty] at sent
          exact absurd sent nofun
        · rw [if_neg empty] at sent
          have known := typeable table rfl empty
          split at sent
          · exact Option.some.inj sent ▸ known.2
          · exact Option.some.inj sent ▸ known.1

theorem delivered_typeable (codes : List (BitVec 8)) (keys : Keys) : ∀ c ∈ (deliver keys codes).2,Typeable c := by
  induction codes generalizing keys with
  | nil => nofun
  | cons code codes ih =>
    intro c member
    rcases List.mem_append.mp member with here | later
    · exact pressed_typeable keys code c (Option.mem_toList.mp here)
    · exact ih _ c later

-- A line execute can be given.
structure Executable (line : List Byte) : Prop where
  short : line.length ≤ shellBufferSize-1
  typeable : ∀ c ∈ line,Typeable c
  plain : ∀ c ∈ line,c ≠ newline ∧ c ≠ backspace

theorem edit_executable (given : ∀ c ∈ chars,Typeable c ∧ c ≠ newline) (line : List Byte) (fits : Executable line) :
    Executable (chars.foldl editKey line) := by
  induction chars generalizing line with
  | nil => exact fits
  | cons c chars ih =>
    refine ih (fun other member => given other (List.mem_cons_of_mem _ member)) _ ?_
    obtain ⟨typeable,other⟩ := given c (List.mem_cons_self ..)
    unfold editKey
    split
    · exact ⟨by rw [List.length_dropLast]; exact (Nat.sub_le ..).trans fits.short,
        fun c member => fits.typeable c (List.dropLast_subset _ member),fun c member => fits.plain c (List.dropLast_subset _ member)⟩
    · rename_i kept
      split
      · rename_i room
        refine ⟨by rw [List.length_append,List.length_singleton]; omega,fun d member => ?_,fun d member => ?_⟩
        · rcases List.mem_append.mp member with old | new
          · exact fits.typeable d old
          · exact List.mem_singleton.mp new ▸ typeable
        · rcases List.mem_append.mp member with old | new
          · exact fits.plain d old
          · exact List.mem_singleton.mp new ▸ ⟨other,kept⟩
      · exact fits

theorem lines_executable (codes : List (BitVec 8)) (keys : Keys) :
    ∀ line ∈ (codes.foldl press ⟨keys,[],[]⟩).lines,Executable line := by
  have typeable := delivered_typeable codes keys
  rw [press_delivers]
  change ∀ line ∈ ((deliver keys codes).2.foldl input ⟨keys,[],[]⟩).lines,Executable line
  obtain ⟨done,rest,split,plain,open_⟩ := split_lines (deliver keys codes).2
  rw [split] at typeable ⊢
  rw [inputs_lines done rest plain open_]
  intro line member
  obtain ⟨ended,among,rfl⟩ := List.mem_map.mp member
  refine edit_executable (fun c inside => ⟨typeable c ?_,fun same => plain ended among (same ▸ inside)⟩) [] ⟨Nat.zero_le _,nofun,nofun⟩
  exact List.mem_append_left _ (List.mem_flatMap.mpr ⟨ended,among,List.mem_append_left _ inside⟩)

theorem newline_typeable : Typeable newline := by decide

-- The keys that type the lines, from any state of the modifiers.
def keystrokes (keys : Keys) (wanted : List (List Byte)) : List (BitVec 8) :=
  settle keys++(wanted.flatMap (·++[newline])).flatMap stroke

theorem keystrokes_deliver {wanted : List (List Byte)} (given : ∀ line ∈ wanted,Executable line) (keys : Keys) :
    deliver keys (keystrokes keys wanted) = (plainKeys,wanted.flatMap (·++[newline])) := by
  unfold keystrokes
  rw [deliver_append,settle_plain,strokes_type,List.nil_append]
  intro c member
  obtain ⟨line,among,inside⟩ := List.mem_flatMap.mp member
  rcases List.mem_append.mp inside with old | new
  · exact (given line among).typeable c old
  · exact List.mem_singleton.mp new ▸ newline_typeable

theorem keystrokes_type {wanted : List (List Byte)} (given : ∀ line ∈ wanted,Executable line) (keys : Keys) :
    (keystrokes keys wanted).foldl press ⟨keys,[],[]⟩ = ⟨plainKeys,[],wanted⟩ := by
  rw [press_delivers]
  dsimp only
  rw [keystrokes_deliver given,←List.append_nil (wanted.flatMap _),
    inputs_lines wanted [] (fun line among inside => ((given line among).plain _ inside).1 rfl) nofun,List.nil_append]
  have same : wanted.map edit = wanted := by
    refine (List.map_congr_left fun line among => ?_).trans (List.map_id _)
    have short : ([] : List Byte).length+line.length ≤ shellBufferSize-1 := by simpa using (given line among).short
    exact edit_plain (fun c inside => ((given line among).plain c inside).2) short
  rw [same]
  rfl

theorem typed_lines (keys : Keys) (wanted : List (List Byte)) :
    (∃ codes : List (BitVec 8),(codes.foldl press ⟨keys,[],[]⟩).lines = wanted) ↔ ∀ line ∈ wanted,Executable line := by
  constructor
  · intro ⟨codes,made⟩
    exact made ▸ lines_executable codes keys
  · intro given
    exact ⟨keystrokes keys wanted,by rw [keystrokes_type given]⟩

end Arthic.KeyTyping
