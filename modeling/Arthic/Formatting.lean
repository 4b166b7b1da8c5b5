import Arthic.Library.Numerals
import Arthic.Library.Unsigned
import Mathlib.Data.List.Forall2

namespace Arthic.Formatting
open ByteMemory Numerals Unsigned

abbrev Word := BitVec 32

def percent : Byte := character '%'
def digits : List Byte := ['0','1','2','3','4','5','6','7','8','9','a','b','c','d','e','f'].map character

-- sizeof(buf) of terminal_write_uint.
def sizeofBuf : Nat := 32

-- The loop that fills buf from its first byte on. Nothing but a full buffer has no answer.
def digitLoop (base : Word) : Nat → Word → List Byte → Option (List Byte)
  | room,value,buf =>
    if value = 0#32 then some buf
    else match room with
      | 0 => none
      | room+1 => digitLoop base room (value/base) (buf++[digits.getD (value%base).toNat 0#8])

-- What is given to terminal_putchar, one byte after the other.
def terminalWriteUint (value base : Word) : Option (List Byte) :=
  if value = 0#32 then some [character '0'] else (digitLoop base sizeofBuf value []).map List.reverse

def terminalWriteInt (value : Word) : Option (List Byte) :=
  if value.slt 0#32 then (terminalWriteUint (-value) 10#32).map (character '-'::·) else terminalWriteUint value 10#32

-- The loop of terminal_write from index i on.
def terminalWrite (bytes : Memory) (str : Nat) : Nat → Nat → Option (List Byte)
  | 0,_ => none
  | left+1,i =>
    let ch := bytes (wrap 32 (str+i))
    if ch = 0#8 then some [] else (terminalWrite bytes str left (i+1)).map (ch::·)

-- A call of kprintf on its way: the arguments it has not taken, what it has given to
-- terminal_putchar and the indexes it has looked at in its format.
structure Printing where
  args : List Word
  out : List Byte
  reads : List Nat

def Printing.look (p : Printing) (i : Nat) : Printing := {p with reads:=p.reads++[i]}
def Printing.put (p : Printing) (text : List Byte) : Printing := {p with out:=p.out++text}

-- An argument that the caller has not passed has no value.
def Printing.vaArg (p : Printing) : Option (Word × Printing) :=
  match p.args with
  | [] => none
  | word::args => some (word,{p with args:=args})

-- The strings end within the 2^32 addresses there are, or not at all.
def addresses : Nat := 2^32

-- The switch, with the index behind it.
def specifier (bytes : Memory) (fmt : Nat) (p : Printing) (i : Nat) : Option (Printing × Nat) :=
  let ch := bytes (wrap 32 (fmt+i))
  if ch = character 'd' then do
    let (word,p) ← p.vaArg
    let text ← terminalWriteInt word
    some (p.put text,i)
  else if ch = character 'u' then do
    let (word,p) ← p.vaArg
    let text ← terminalWriteUint word 10#32
    some (p.put text,i)
  else if ch = character 'x' then do
    let (word,p) ← p.vaArg
    let text ← terminalWriteUint word 16#32
    some (p.put text,i)
  else if ch = character 's' then do
    let (word,p) ← p.vaArg
    let text ← terminalWrite bytes word.toNat addresses 0
    some (p.put text,i)
  else if ch = character 'c' then do
    let (word,p) ← p.vaArg
    some (p.put [word.setWidth 8],i)
  else if ch = percent then some (p.put [percent],i)
  else if ch = 0#8 then some (p,i-1)
  else some (p.put [percent,ch],i)

def formatLoop (bytes : Memory) (fmt : Nat) : Nat → Printing → Nat → Option Printing
  | 0,_,_ => none
  | left+1,p,i =>
    let ch := bytes (wrap 32 (fmt+i))
    let p := p.look i
    if ch = 0#8 then some p
    else if ch ≠ percent then formatLoop bytes fmt left (p.put [ch]) (i+1)
    else do
      let (p,i) ← specifier bytes fmt (p.look (i+1)) (i+1)
      formatLoop bytes fmt left p (i+1)

def kprintf (bytes : Memory) (fmt : Word) (args : List Word) : Option Printing :=
  formatLoop bytes fmt.toNat addresses ⟨args,[],[]⟩ 0

-- Between '0' and '9', as chars with a sign.
def Digit (c : Byte) : Prop := (character '0').sle c ∧ c.sle (character '9')

instance (c : Byte) : Decidable (Digit c) := inferInstanceAs (Decidable (_ ∧ _))

-- The shell's parse_number from s on. The NUL behind the string is no digit.
def parseFrom : Word → List Byte → Word
  | value,[] => value
  | value,c::s =>
    if Digit c then parseFrom (value*10#32+(c.signExtend 32-(character '0').signExtend 32)) s else value

def parseNumber (s : List Byte) : Word := parseFrom 0#32 s

-- What kprintf is for: a format as a list of directives, each written out by itself.
inductive Conversion where
  | signed
  | unsigned
  | hexadecimal
  | string
  | char
  deriving DecidableEq

inductive Directive where
  | plain (ch : Byte)
  | value (conversion : Conversion)
  | percent
  | unknown (ch : Byte)

def directive (ch : Byte) : Directive :=
  if ch = character 'd' then .value .signed
  else if ch = character 'u' then .value .unsigned
  else if ch = character 'x' then .value .hexadecimal
  else if ch = character 's' then .value .string
  else if ch = character 'c' then .value .char
  else if ch = percent then .percent
  else .unknown ch

def directives : List Byte → List Directive
  | [] => []
  | [ch] => if ch = percent then [] else [.plain ch]
  | ch::next::rest =>
    if ch = percent then directive next::directives rest else .plain ch::directives (next::rest)

inductive Value where
  | number (word : Word)
  | text (bytes : List Byte)

def written : Conversion → Value → Option (List Byte)
  | .signed,.number word => some (signedNumeral word.toInt)
  | .unsigned,.number word => some (numeral 10 word.toNat)
  | .hexadecimal,.number word => some (numeral 16 word.toNat)
  | .string,.text bytes => some bytes
  | .char,.number word => some [word.setWidth 8]
  | _,_ => none

-- There is no rendering of values that do not match.
def render : List Directive → List Value → Option (List Byte)
  | [],[] => some []
  | [],_::_ => none
  | .plain ch::rest,values => (render rest values).map ([ch]++·)
  | .percent::rest,values => (render rest values).map ([percent]++·)
  | .unknown ch::rest,values => (render rest values).map ([percent,ch]++·)
  | .value _::_,[] => none
  | .value conversion::rest,value::values => do
    let text ← written conversion value
    let later ← render rest values
    some (text++later)

def reference (format : List Byte) (values : List Value) : Option (List Byte) := render (directives format) values

def conversionOf : Directive → Option Conversion
  | .value conversion => some conversion
  | _ => none

def conversions (format : List Byte) : List Conversion := (directives format).filterMap conversionOf

def Suits : Conversion → Value → Prop
  | .string,.text _ => True
  | .string,.number _ => False
  | _,.text _ => False
  | _,.number _ => True

-- A C string at an address.
def Holds (bytes : Memory) (addr : Nat) : List Byte → Prop
  | [] => bytes (wrap 32 addr) = 0#8
  | ch::text => (bytes (wrap 32 addr) = ch ∧ ch ≠ 0#8) ∧ Holds bytes (addr+1) text

def Passed (bytes : Memory) : Value → Word → Prop
  | .number value,word => word = value
  | .text text,word => Holds bytes word.toNat text

section Numbers
variable {value base : Word} {buf : List Byte} {room d : Nat}

theorem digits_char (small : d < 16) : digits.getD d 0#8 = character d.digitChar := by
  revert d
  decide

theorem digitLoop_numeral (real : 1 < base.toNat) (low : base.toNat ≤ 16) (fits : value.toNat < base.toNat^room) :
    digitLoop base room value buf =
      some (buf++if value = 0#32 then [] else (numeral base.toNat value.toNat).reverse) := by
  induction room generalizing value buf with
  | zero =>
    have zero : value = 0#32 := BitVec.eq_of_toNat_eq (by simpa using fits)
    rw [digitLoop,if_pos zero,if_pos zero,List.append_nil]
  | succ room ih =>
    rw [digitLoop]
    by_cases zero : value = 0#32
    · rw [if_pos zero,if_pos zero,List.append_nil]
    have quotient : (value/base).toNat = value.toNat/base.toNat := BitVec.toNat_udiv
    have last : (value%base).toNat = value.toNat%base.toNat := BitVec.toNat_umod
    have small : value.toNat%base.toNat < base.toNat := Nat.mod_lt _ (by omega)
    have less : (value/base).toNat < base.toNat^room := by
      rw [quotient]
      exact Nat.div_lt_of_lt_mul (by rwa [Nat.pow_succ,Nat.mul_comm] at fits)
    rw [if_neg zero,if_neg zero,ih less,last,digits_char (by omega),List.append_assoc]
    congr 2
    by_cases single : value.toNat < base.toNat
    · have done : value/base = 0#32 := by
        apply BitVec.eq_of_toNat_eq
        rw [quotient,Nat.div_eq_of_lt single]
        rfl
      rw [if_pos done,numeral_digit single,Nat.mod_eq_of_lt single]
      rfl
    · have more : value/base ≠ 0#32 := by
        intro done
        have none := congrArg BitVec.toNat done
        rw [quotient] at none
        have some := Nat.div_pos (Nat.le_of_not_lt single) (Nat.zero_lt_of_lt real)
        exact absurd none (Nat.ne_of_gt some)
      rw [if_neg more,numeral_step real (Nat.le_of_not_lt single),List.reverse_append,quotient]
      rfl

theorem writeUint_numeral (value : Word) (real : 1 < base.toNat) (low : base.toNat ≤ 16) :
    terminalWriteUint value base = some (numeral base.toNat value.toNat) := by
  unfold terminalWriteUint
  by_cases zero : value = 0#32
  · rw [if_pos zero,zero]
    exact congrArg some (numeral_digit (Nat.zero_lt_of_lt real)).symm
  · have fits : value.toNat < base.toNat^sizeofBuf := Nat.lt_of_lt_of_le value.isLt (Nat.pow_le_pow_left real 32)
    rw [if_neg zero,digitLoop_numeral real low fits,if_neg zero,List.nil_append,Option.map_some,List.reverse_reverse]

theorem writeInt_numeral (value : Word) : terminalWriteInt value = some (signedNumeral value.toInt) := by
  have real : 1 < (10#32).toNat := by decide
  have low : (10#32).toNat ≤ 16 := by decide
  have negative : value.slt 0#32 = decide (value.toInt < 0) := by
    rw [BitVec.slt_eq_decide]
    rfl
  have bound := value.isLt
  unfold terminalWriteInt signedNumeral
  rw [negative]
  by_cases below : value.toInt < 0
  · -- the magnitude of the least number is its own pattern
    have magnitude : (-value).toNat = value.toInt.natAbs := by
      rw [BitVec.toInt_eq_toNat_cond] at below ⊢
      rw [BitVec.toNat_neg]
      split at below
      · omega
      · omega
    rw [if_pos (decide_eq_true below),if_pos below,writeUint_numeral _ real low,magnitude]
    rfl
  · have magnitude : value.toNat = value.toInt.natAbs := by
      rw [BitVec.toInt_eq_toNat_cond] at below ⊢
      split at below
      · omega
      · omega
    rw [if_neg (by simpa using below),if_neg below,writeUint_numeral _ real low,magnitude]
    rfl

theorem digit_read (small : d < 10) : Digit (character d.digitChar) ∧
    (character d.digitChar).signExtend 32-(character '0').signExtend 32 = .ofNat 32 d := by
  revert d
  decide

theorem parseFrom_digit (small : d < 10) (rest : List Byte) :
    parseFrom value (character d.digitChar::rest) = parseFrom (value*10#32+.ofNat 32 d) rest := by
  obtain ⟨digit,read⟩ := digit_read small
  rw [parseFrom,if_pos digit,read]

theorem parseFrom_numeral (n : Nat) (rest : List Byte) :
    parseFrom 0#32 (numeral 10 n++rest) = parseFrom (.ofNat 32 n) rest := by
  have read : ∀ rest,parseFrom 0#32 (numeral 10 n++rest) = parseFrom (.ofNat 32 n) rest := by
    induction n using numeral_induction (by decide : 1 < 10) with
    | digit n small =>
      intro rest
      rw [List.singleton_append,parseFrom_digit small]
      simp
    | step n d front positive small ih =>
      intro rest
      rw [List.append_assoc,ih,List.singleton_append,parseFrom_digit small]
      congr 1
      rw [BitVec.ofNat_add,BitVec.ofNat_mul,BitVec.mul_comm]
  exact read rest

theorem parse_numeral (value : Word) (rest : List Byte) (ends : ∀ c ∈ rest.head?,¬ Digit c) :
    parseNumber (numeral 10 value.toNat++rest) = value := by
  rw [parseNumber,parseFrom_numeral,BitVec.ofNat_toNat,BitVec.setWidth_eq]
  cases rest with
  | nil => rfl
  | cons c rest => rw [parseFrom,if_neg (ends c rfl)]

end Numbers

section Formats
variable {bytes : Memory} {fmt i left addr : Nat} {ch : Byte} {p : Printing} {text out before : List Byte}
  {values : List Value} {words extra : List Word} {seen : List Nat} {value : Value} {word : Word} {conversion : Conversion}

theorem holds_at (holds : Holds bytes addr text) :
    (∀ i < text.length,bytes (wrap 32 (addr+i)) ≠ 0#8) ∧ bytes (wrap 32 (addr+text.length)) = 0#8 := by
  induction text generalizing addr with
  | nil => exact ⟨fun _ before => absurd before (Nat.not_lt_zero _),holds⟩
  | cons ch text ih =>
    obtain ⟨⟨here,plain⟩,later⟩ := holds
    obtain ⟨inside,ends⟩ := ih later
    have shift : ∀ i,addr+(i+1) = addr+1+i := fun i => by omega
    rw [List.length_cons,shift]
    refine ⟨?_,ends⟩
    rw [Nat.forall_lt_succ_left]
    refine ⟨?_,fun i below => ?_⟩
    · rw [Nat.add_zero,here]
      exact plain
    · rw [shift]
      exact inside i below

-- Within 2^32 addresses every string comes to its end.
theorem holds_short (holds : Holds bytes addr text) : text.length < addresses := by
  obtain ⟨inside,ends⟩ := holds_at holds
  by_cases short : text.length < addresses
  · exact short
  · have large : addresses ≤ text.length := Nat.le_of_not_lt short
    have again : wrap 32 (addr+(text.length-addresses)) = wrap 32 (addr+text.length) := by
      unfold wrap addresses at *
      omega
    refine absurd ends ?_
    rw [←again]
    exact inside _ (Nat.sub_lt (Nat.lt_of_lt_of_le (by decide) large) (by decide))

theorem write_holds (holds : Holds bytes (addr+i) text) (room : text.length < left) :
    terminalWrite bytes addr left i = some text := by
  induction text generalizing i left with
  | nil =>
    obtain ⟨left,rfl⟩ := Nat.exists_eq_succ_of_ne_zero (Nat.ne_of_gt room)
    rw [terminalWrite]
    exact if_pos holds
  | cons ch text ih =>
    obtain ⟨⟨here,plain⟩,later⟩ := holds
    obtain ⟨left,rfl⟩ := Nat.exists_eq_succ_of_ne_zero (Nat.ne_of_gt (Nat.zero_lt_of_lt room))
    rw [List.length_cons] at room
    rw [terminalWrite,here,if_neg plain,ih later (by omega)]
    rfl

-- What the switch writes for one argument.
def emitted (bytes : Memory) : Conversion → Word → Option (List Byte)
  | .signed,word => terminalWriteInt word
  | .unsigned,word => terminalWriteUint word 10#32
  | .hexadecimal,word => terminalWriteUint word 16#32
  | .string,word => terminalWrite bytes word.toNat addresses 0
  | .char,word => some [word.setWidth 8]

theorem emitted_written (passed : Passed bytes value word) (shown : written conversion value = some text) :
    emitted bytes conversion word = some text := by
  cases value with
  | number same =>
    cases passed
    cases conversion with
    | signed => exact (writeInt_numeral _).trans shown
    | unsigned => exact (writeUint_numeral _ (by decide) (by decide)).trans shown
    | hexadecimal => exact (writeUint_numeral _ (by decide) (by decide)).trans shown
    | string => cases shown
    | char => exact shown
  | text stored =>
    cases conversion with
    | string =>
      cases shown
      exact write_holds passed (holds_short passed)
    | signed => cases shown
    | unsigned => cases shown
    | hexadecimal => cases shown
    | char => cases shown

theorem specifier_directive (here : bytes (wrap 32 (fmt+i)) = ch) (inside : ch ≠ 0#8) : specifier bytes fmt p i =
    match directive ch with
    | .value conversion => do
      let (word,p) ← p.vaArg
      let text ← emitted bytes conversion word
      some (p.put text,i)
    | .percent => some (p.put [percent],i)
    | .unknown ch => some (p.put [percent,ch],i)
    | .plain _ => none := by
  unfold specifier directive
  dsimp only
  rw [here]
  split
  · rfl
  split
  · rfl
  split
  · rfl
  split
  · rfl
  split
  · rfl
  split
  · rfl
  · rfl

-- The NUL behind a last percent sign: the index goes back, for the loop to see it.
theorem specifier_end (ends : bytes (wrap 32 (fmt+i)) = 0#8) : specifier bytes fmt p i = some (p,i-1) := by
  unfold specifier
  dsimp only
  rw [ends]
  rfl

theorem loop_end (ends : bytes (wrap 32 (fmt+i)) = 0#8) : formatLoop bytes fmt (left+1) p i = some (p.look i) := by
  rw [formatLoop]
  exact if_pos ends

theorem loop_plain (here : bytes (wrap 32 (fmt+i)) = ch) (inside : ch ≠ 0#8) (plain : ch ≠ percent) :
    formatLoop bytes fmt (left+1) p i = formatLoop bytes fmt left ((p.look i).put [ch]) (i+1) := by
  rw [formatLoop]
  dsimp only
  rw [here,if_neg inside,if_pos plain]

theorem loop_percent (here : bytes (wrap 32 (fmt+i)) = percent) : formatLoop bytes fmt (left+1) p i =
    (specifier bytes fmt ((p.look i).look (i+1)) (i+1)).bind fun next => formatLoop bytes fmt left next.1 (next.2+1) := by
  rw [formatLoop]
  dsimp only
  rw [here,if_neg (by decide),if_neg (not_not.mpr rfl)]
  rfl

-- What is left of a call: its output and its arguments are these, and it looks nowhere
-- behind the index given.
def Finishes (result : Option Printing) (extra : List Word) (out : List Byte) (seen : List Nat) (last : Nat) : Prop :=
  ∃ reads,result = some ⟨extra,out,seen++reads⟩ ∧ ∀ k ∈ reads,k ≤ last

theorem Finishes.later {result : Option Printing} {more : List Nat} {last : Nat}
    (finishes : Finishes result extra out (seen++more) last) (inside : ∀ k ∈ more,k ≤ last) :
    Finishes result extra out seen last := by
  obtain ⟨reads,result,all⟩ := finishes
  refine ⟨more++reads,by rw [result,List.append_assoc],?_⟩
  intro k member
  cases List.mem_append.mp member with
  | inl old => exact inside k old
  | inr new => exact all k new

theorem loop_done (ends : bytes (wrap 32 (fmt+i)) = 0#8) (room : 0 < left) :
    Finishes (formatLoop bytes fmt left ⟨extra,out,seen⟩ i) extra out seen i := by
  obtain ⟨left,rfl⟩ := Nat.exists_eq_succ_of_ne_zero (Nat.ne_of_gt room)
  refine ⟨[i],loop_end ends,fun k member => ?_⟩
  cases List.mem_singleton.mp member
  exact Nat.le_refl i

theorem plain_finishes {last : Nat} (here : bytes (wrap 32 (fmt+i)) = ch) (inside : ch ≠ 0#8) (plain : ch ≠ percent)
    (before_ : i ≤ last) (room : 0 < left)
    (rest : Finishes (formatLoop bytes fmt (left-1) ⟨words,before++[ch],seen++[i]⟩ (i+1)) extra out (seen++[i]) last) :
    Finishes (formatLoop bytes fmt left ⟨words,before,seen⟩ i) extra out seen last := by
  obtain ⟨left,rfl⟩ := Nat.exists_eq_succ_of_ne_zero (Nat.ne_of_gt room)
  rw [loop_plain here inside plain]
  refine Finishes.later rest fun k member => ?_
  cases List.mem_singleton.mp member
  exact before_

theorem percent_finishes {last : Nat} (here : bytes (wrap 32 (fmt+i)) = percent) (before_ : i+1 ≤ last) (room : 0 < left)
    (taken : specifier bytes fmt ⟨words,before,seen++[i,i+1]⟩ (i+1) = some (p,addr))
    (rest : Finishes (formatLoop bytes fmt (left-1) p (addr+1)) extra out (seen++[i,i+1]) last) :
    Finishes (formatLoop bytes fmt left ⟨words,before,seen⟩ i) extra out seen last := by
  obtain ⟨left,rfl⟩ := Nat.exists_eq_succ_of_ne_zero (Nat.ne_of_gt room)
  have looked : ((⟨words,before,seen⟩ : Printing).look i).look (i+1) = ⟨words,before,seen++[i,i+1]⟩ := by
    simp [Printing.look]
  rw [loop_percent here,looked,taken]
  refine Finishes.later rest fun k member => ?_
  simp only [List.mem_cons,List.not_mem_nil,or_false] at member
  omega

theorem directive_plain (ch other : Byte) : directive ch ≠ .plain other := by
  unfold directive
  split_ifs <;> exact Directive.noConfusion

-- One step takes a plain character, or a percent sign with the character behind it.
theorem loop_renders (holds : Holds bytes (fmt+i) text) (passed : List.Forall₂ (Passed bytes) values words)
    (rendered : render (directives text) values = some out) (room : text.length < left) :
    Finishes (formatLoop bytes fmt left ⟨words++extra,before,seen⟩ i) extra (before++out) seen (i+text.length) := by
  induction text using directives.induct generalizing i left values words out before seen with
  | case1 =>
    cases passed with
    | nil =>
      cases rendered
      rw [List.append_nil]
      exact loop_done holds room
    | cons => cases rendered
  | case2 =>
    obtain ⟨⟨here,_⟩,ends⟩ := holds
    rw [List.length_singleton] at room ⊢
    cases passed with
    | nil =>
      cases rendered
      rw [List.append_nil]
      have behind : bytes (wrap 32 (fmt+(i+1))) = 0#8 := ends
      exact percent_finishes here (Nat.le_refl _) (by omega) (specifier_end behind) (loop_done behind (by omega))
    | cons => cases rendered
  | case3 ch plain =>
    obtain ⟨⟨here,inside⟩,ends⟩ := holds
    rw [List.length_singleton] at room ⊢
    rw [directives,if_neg plain] at rendered
    obtain ⟨later,rest,rfl⟩ := Option.map_eq_some_iff.mp rendered
    cases passed with
    | nil =>
      cases rest
      rw [List.append_nil]
      exact plain_finishes here inside plain (Nat.le_succ i) (by omega) (loop_done ends (by omega))
    | cons => cases rest
  | case4 next rest ih =>
    obtain ⟨⟨here,_⟩,⟨shown,inside⟩,later⟩ := holds
    rw [List.length_cons,List.length_cons] at room ⊢
    rw [directives,if_pos rfl] at rendered
    have last : i+(rest.length+1+1) = i+2+rest.length := by omega
    have second : bytes (wrap 32 (fmt+(i+1))) = next := shown
    have switch := fun p => specifier_directive (p:=p) second inside
    rw [last]
    cases kind : directive next with
    | plain other => exact absurd kind (directive_plain next other)
    | percent =>
      rw [kind] at rendered switch
      obtain ⟨tail,rest,rfl⟩ := Option.map_eq_some_iff.mp rendered
      rw [←List.append_assoc]
      exact percent_finishes here (by omega) (by omega) (switch _) (ih later passed rest (by omega))
    | unknown other =>
      rw [kind] at rendered switch
      obtain ⟨tail,rest,rfl⟩ := Option.map_eq_some_iff.mp rendered
      rw [←List.append_assoc]
      exact percent_finishes here (by omega) (by omega) (switch _) (ih later passed rest (by omega))
    | value conversion =>
      rw [kind] at rendered switch
      cases passed with
      | nil => cases rendered
      | @cons value word values words first others =>
        obtain ⟨text,printed,more⟩ := Option.bind_eq_some_iff.mp rendered
        obtain ⟨tail,rest,same⟩ := Option.bind_eq_some_iff.mp more
        cases same
        have taken := switch ⟨word::(words++extra),before,seen++[i,i+1]⟩
        have written := emitted_written first printed
        simp only [Printing.vaArg,written,Option.bind_eq_bind,Option.bind_some] at taken
        rw [←List.append_assoc]
        exact percent_finishes here (by omega) (by omega) taken (ih later others rest (by omega))
  | case5 ch next rest plain ih =>
    obtain ⟨⟨here,inside⟩,later⟩ := holds
    rw [List.length_cons] at room ⊢
    rw [directives,if_neg plain] at rendered
    obtain ⟨tail,rest,rfl⟩ := Option.map_eq_some_iff.mp rendered
    rw [←List.append_assoc,show ∀ n,i+(n+1) = i+1+n by intro n; omega]
    exact plain_finishes here inside plain (by omega) (by omega) (ih later passed rest (by omega))

theorem kprintf_finishes {fmt : Word} (format : Holds bytes fmt.toNat text) (passed : List.Forall₂ (Passed bytes) values words)
    (rendered : reference text values = some out) (extra : List Word) :
    Finishes (kprintf bytes fmt (words++extra)) extra out [] text.length := by
  have run : Finishes (formatLoop bytes fmt.toNat addresses ⟨words++extra,[],[]⟩ 0) extra ([]++out) [] (0+text.length) :=
    loop_renders format passed rendered (holds_short format)
  rwa [Nat.zero_add] at run

theorem written_suits (suits : Suits conversion value) : ∃ text,written conversion value = some text := by
  cases value with
  | number word =>
    cases conversion with
    | string => cases suits
    | signed => exact ⟨_,rfl⟩
    | unsigned => exact ⟨_,rfl⟩
    | hexadecimal => exact ⟨_,rfl⟩
    | char => exact ⟨_,rfl⟩
  | text stored =>
    cases conversion with
    | string => exact ⟨_,rfl⟩
    | signed => cases suits
    | unsigned => cases suits
    | hexadecimal => cases suits
    | char => cases suits

theorem render_suits (list : List Directive) (suits : List.Forall₂ Suits (list.filterMap conversionOf) values) :
    ∃ out,render list values = some out := by
  induction list generalizing values with
  | nil =>
    cases suits
    exact ⟨[],rfl⟩
  | cons first list ih =>
    cases first with
    | value conversion =>
      cases suits with
      | cons head tail =>
        obtain ⟨text,shown⟩ := written_suits head
        obtain ⟨out,rest⟩ := ih tail
        refine ⟨text++out,?_⟩
        rw [render,shown,rest]
        rfl
    | plain ch =>
      obtain ⟨out,rest⟩ := ih suits
      exact ⟨[ch]++out,by rw [render,rest]; rfl⟩
    | percent =>
      obtain ⟨out,rest⟩ := ih suits
      exact ⟨[percent]++out,by rw [render,rest]; rfl⟩
    | unknown ch =>
      obtain ⟨out,rest⟩ := ih suits
      exact ⟨[percent,ch]++out,by rw [render,rest]; rfl⟩

-- The arguments behind the ones that the format asks for are not touched.
theorem kprintf_renders {fmt : Word} (format : Holds bytes fmt.toNat text) (suits : List.Forall₂ Suits (conversions text) values)
    (passed : List.Forall₂ (Passed bytes) values words) (extra : List Word) :
    (∃ out reads,reference text values = some out ∧
      kprintf bytes fmt (words++extra) = some ⟨extra,out,reads⟩ ∧ ∀ k ∈ reads,k ≤ text.length) ∧
    words.length = (conversions text).length ∧
    ∀ value rest,(∀ c ∈ rest.head?,¬ Digit c) →
      ∃ printed,terminalWriteUint value 10#32 = some printed ∧ parseNumber (printed++rest) = value := by
  obtain ⟨out,rendered⟩ := render_suits _ suits
  refine ⟨?_,passed.length_eq.symm.trans suits.length_eq.symm,fun value rest ends => ?_⟩
  · obtain ⟨reads,result,all⟩ := kprintf_finishes format passed rendered extra
    exact ⟨out,reads,rendered,result,all⟩
  · exact ⟨_,writeUint_numeral value (by decide) (by decide),parse_numeral value rest ends⟩

end Formats

-- The last of the lines with which kernel_main tries the directives.
def place (bytes : Memory) (addr : Nat) (text : List Byte) : Memory :=
  fun x => if addr ≤ x ∧ x < addr+text.length then text.getD (x-addr) 0#8 else bytes x

instance decideHolds (bytes : Memory) : (addr : Nat) → (text : List Byte) → Decidable (Holds bytes addr text)
  | addr,[] => inferInstanceAs (Decidable (bytes (wrap 32 addr) = 0#8))
  | addr,ch::text =>
    have : Decidable (Holds bytes (addr+1) text) := decideHolds bytes (addr+1) text
    inferInstanceAs (Decidable ((bytes (wrap 32 addr) = ch ∧ ch ≠ 0#8) ∧ Holds bytes (addr+1) text))

def mixedFormat : List Byte := spell "  mixed        %s v%d.%d at 0x%x\n"
def mixedMemory : Memory := place (place (fun _ => 0#8) 0x101000 mixedFormat) 0x101100 (spell "kernel")
def mixedValues : List Value := [.text (spell "kernel"),.number 1#32,.number 8#32,.number 0xB8000#32]
def mixedWords : List Word := [0x101100#32,1#32,8#32,0xB8000#32]

example : reference (spell "minimum %d, %q 100%%, %") [.number 0x80000000#32] =
    some (spell "minimum -2147483648, %q 100%, ") := by decide

theorem mixed_line : ∃ reads,kprintf mixedMemory 0x101000#32 mixedWords =
    some ⟨[],spell "  mixed        kernel v1.8 at 0xb8000\n",reads⟩ ∧ ∀ k ∈ reads,k ≤ 33 := by
  have format : Holds mixedMemory (0x101000#32).toNat mixedFormat := by decide
  have named : Holds mixedMemory (0x101100#32).toNat (spell "kernel") := by decide
  have asked : conversions mixedFormat = [.string,.signed,.signed,.hexadecimal] := by decide
  have suits : List.Forall₂ Suits (conversions mixedFormat) mixedValues := by
    rw [asked]
    exact .cons trivial (.cons trivial (.cons trivial (.cons trivial .nil)))
  have passed : List.Forall₂ (Passed mixedMemory) mixedValues mixedWords :=
    .cons named (.cons rfl (.cons rfl (.cons rfl .nil)))
  obtain ⟨⟨out,reads,rendered,result,all⟩,_⟩ := kprintf_renders format suits passed []
  have text : reference mixedFormat mixedValues = some (spell "  mixed        kernel v1.8 at 0xb8000\n") := by decide
  rw [text] at rendered
  cases rendered
  exact ⟨reads,result,all⟩

end Arthic.Formatting
