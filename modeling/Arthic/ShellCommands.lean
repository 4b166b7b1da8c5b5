import Arthic.FileSystem
import Arthic.Library.Numerals

namespace Arthic.ShellCommands
open ByteMemory FileSystem Numerals

-- Strings are the bytes before their NUL; a pointer into one is what is left from there.
def space : Byte := character ' '

def kstrcmp : List Byte → List Byte → Int
  | [],[] => 0
  | [],b::_ => -b.toNat
  | a::_,[] => a.toNat
  | a::as,b::bs => if a = b then kstrcmp as bs else a.toNat-b.toNat

def kstartswith : List Byte → List Byte → Bool
  | _,[] => true
  | [],_::_ => false
  | c::str,p::start => if c = p then kstartswith str start else false
termination_by structural _ start => start

def argumentAfter (line command : List Byte) : Option (List Byte) :=
  if kstartswith line command = false then none
  else
    let p := (line.dropWhile (· ≠ space)).dropWhile (· = space)
    if p = [] then none else some p

-- The loop that fills name, of which `room` bytes are free, and where it leaves the line.
def copyName : Nat → List Byte → List Byte × List Byte
  | 0,rest => ([],rest)
  | _+1,[] => ([],[])
  | room+1,c::rest =>
    if c = space then ([],c::rest)
    else
      let (name,behind) := copyName room rest
      (c::name,behind)

def splitName (rest : List Byte) : List Byte × List Byte :=
  let (name,behind) := copyName (fsNameMax-1) rest
  (name,behind.dropWhile (· = space))

-- The calls that the commands make of the other modules.
inductive Request where
  | fsCreate (name text : List Byte)
  | fsAppend (name text : List Byte)
  | loaderRun (name args : List Byte)
  deriving DecidableEq

-- A command prints how it is used, or makes its call and prints what came of it.
inductive Response where
  | usage (text : List Byte)
  | request (made : Request) (success failure : List Byte)

-- command_write and command_append.
def storeCommand (command usage : List Byte) (call : List Byte → List Byte → Request) (verb : List Byte)
    (failure : List Byte → List Byte) (line : List Byte) : Response :=
  match argumentAfter line command with
  | none => .usage usage
  | some rest =>
    let (name,text) := splitName rest
    if text.length = 0 then .usage usage
    else .request (call name text) (verb++numeral 10 text.length++spell " bytes to "++name++spell "\n") (failure name)

def commandWrite : List Byte → Response :=
  storeCommand (spell "write ") (spell "usage: write <name> <text>\n") .fsCreate (spell "wrote ") fun name =>
    spell "could not write "++name++spell " (exists, full, or no space)\n"

def commandAppend : List Byte → Response :=
  storeCommand (spell "append ") (spell "usage: append <name> <text>\n") .fsAppend (spell "appended ") fun name =>
    spell "could not append to "++name++spell "\n"

-- loader_run does its own printing.
def commandRun (line : List Byte) : Response :=
  match argumentAfter line (spell "run ") with
  | none => .usage (spell "usage: run <name> [argument]\n")
  | some rest =>
    let (name,args) := splitName rest
    .request (.loaderRun name args) [] []

-- The rows of execute: a whole line, or the start of one.
inductive Key where
  | word (text : List Byte)
  | start (text : List Byte)

def Key.accepts (line : List Byte) : Key → Bool
  | .word text => kstrcmp line text = 0
  | .start text => kstartswith line text

inductive Command where
  | help | about | ticks | ssptest | mem | alloc | heap | heaptest | tasks | install | run | ls | bigfile | df
  | format | write | cat | append | rm | spin | kill | pipetest | pipestat | racetest | locktest | spawn | user
  | wptest | clear | echoNothing | echo | unknown
  deriving DecidableEq

def rows : List (Key × Command) :=
  [(.word (spell "help"),.help),(.word (spell "about"),.about),(.word (spell "ticks"),.ticks),
    (.word (spell "ssptest"),.ssptest),(.word (spell "mem"),.mem),(.word (spell "alloc"),.alloc),
    (.word (spell "heap"),.heap),(.word (spell "heaptest"),.heaptest),(.word (spell "tasks"),.tasks),
    (.word (spell "install"),.install),(.start (spell "run "),.run),(.word (spell "ls"),.ls),
    (.word (spell "bigfile"),.bigfile),(.word (spell "df"),.df),(.word (spell "format"),.format),
    (.start (spell "write "),.write),(.start (spell "cat "),.cat),(.start (spell "append "),.append),
    (.start (spell "append "),.append),(.start (spell "rm "),.rm),(.word (spell "spin"),.spin),
    (.start (spell "kill "),.kill),(.word (spell "pipetest"),.pipetest),(.word (spell "pipestat"),.pipestat),
    (.word (spell "racetest"),.racetest),(.word (spell "locktest"),.locktest),(.word (spell "spawn"),.spawn),
    (.word (spell "user"),.user),(.word (spell "wptest"),.wptest),(.word (spell "clear"),.clear),
    (.word (spell "echo"),.echoNothing),(.start (spell "echo "),.echo)]

def execute (line : List Byte) : Option Command :=
  if line = [] then none else some (((rows.find? fun row => row.1.accepts line).map Prod.snd).getD .unknown)

-- What a line makes of the three commands that split their arguments.
def respond (line : List Byte) : Option Response :=
  match execute line with
  | some .write => some (commandWrite line)
  | some .append => some (commandAppend line)
  | some .run => some (commandRun line)
  | _ => none

def Response.made : Response → Option Request
  | .usage _ => none
  | .request made _ _ => some made

def calls (line : List Byte) : Option Request := (respond line).bind Response.made

-- The call that a line is meant to make.
inductive Verb where
  | write
  | append
  | run

def Verb.word : Verb → List Byte
  | .write => spell "write"
  | .append => spell "append"
  | .run => spell "run"

def Verb.request : Verb → List Byte → List Byte → Request
  | .write => .fsCreate
  | .append => .fsAppend
  | .run => .loaderRun

variable {line name rest text command : List Byte} {verb : Verb} {room n : Nat} {c : Byte}

theorem starts_itself (start behind : List Byte) : kstartswith (start++behind) start = true := by
  induction start with
  | nil => cases behind <;> rfl
  | cons c start ih =>
    rw [List.cons_append,kstartswith,if_pos rfl]
    exact ih

theorem skip_spaces (n : Nat) (head : ∀ c ∈ rest.head?,c ≠ space) :
    (List.replicate n space++rest).dropWhile (· = space) = rest := by
  induction n with
  | zero =>
    cases rest with
    | nil => rfl
    | cons c rest => exact List.dropWhile_cons_of_neg (by simpa using head c rfl)
  | succ n ih =>
    rw [List.replicate_succ,List.cons_append,List.dropWhile_cons_of_pos (by simp)]
    exact ih

theorem skip_word (plain : space ∉ command) (rest : List Byte) :
    (command++space::rest).dropWhile (· ≠ space) = space::rest := by
  induction command with
  | nil => exact List.dropWhile_cons_of_neg (by simp)
  | cons c command ih =>
    rw [List.mem_cons,not_or] at plain
    rw [List.cons_append,List.dropWhile_cons_of_pos (by simpa using Ne.symm plain.1)]
    exact ih plain.2

theorem argument_found (plain : space ∉ command) (n : Nat) (some_ : rest ≠ []) (head : ∀ c ∈ rest.head?,c ≠ space) :
    argumentAfter (command++List.replicate (n+1) space++rest) (command++[space]) = some rest := by
  have shape : command++List.replicate (n+1) space++rest = command++[space]++(List.replicate n space++rest) := by
    simp [List.replicate_succ]
  have word : command++[space]++(List.replicate n space++rest) = command++space::(List.replicate n space++rest) := by simp
  unfold argumentAfter
  rw [shape,if_neg (by rw [starts_itself]; decide)]
  dsimp only
  rw [word,skip_word plain,List.dropWhile_cons_of_pos (by simp),skip_spaces n head,if_neg some_]

-- The loop has two ends: the word's, and the buffer's.
theorem copyName_word (plain : space ∉ name) (ends : ∀ c ∈ rest.head?,c = space) (room : Nat) :
    copyName room (name++rest) = (name.take room,name.drop room++rest) := by
  induction name generalizing room with
  | nil =>
    cases room with
    | zero => rfl
    | succ room =>
      cases rest with
      | nil => rfl
      | cons c rest => exact if_pos (ends c rfl)
  | cons c name ih =>
    rw [List.mem_cons,not_or] at plain
    cases room with
    | zero => rfl
    | succ room =>
      rw [List.cons_append,copyName,if_neg (Ne.symm plain.1),ih plain.2]
      rfl

theorem splitName_word (plain : space ∉ name) (ends : ∀ c ∈ rest.head?,c = space) :
    splitName (name++rest) =
      (name.take (fsNameMax-1),(name.drop (fsNameMax-1)++rest).dropWhile (· = space)) := by
  rw [splitName,copyName_word plain ends]

theorem execute_verb (verb : Verb) (rest : List Byte) : execute (verb.word++space::rest) = some
    (match verb with
      | .write => .write
      | .append => .append
      | .run => .run) := by
  cases verb with
  | write => rfl
  | append => rfl
  | run => rfl

theorem store_made {call : List Byte → List Byte → Request} {usage verb : List Byte} {failure : List Byte → List Byte}
    (found : argumentAfter line command = some rest) : (storeCommand command usage call verb failure line).made =
      if (splitName rest).2 = [] then none else some (call (splitName rest).1 (splitName rest).2) := by
  unfold storeCommand
  rw [found]
  dsimp only
  by_cases empty : (splitName rest).2 = []
  · rw [if_pos (List.length_eq_zero_iff.mpr empty),if_pos empty]
    rfl
  · rw [if_neg (fun none => empty (List.length_eq_zero_iff.mp none)),if_neg empty]
    rfl

-- write and append have to be given a text.
def Verb.needsText : Verb → Prop
  | .run => False
  | _ => True

instance (verb : Verb) : Decidable verb.needsText := by
  cases verb <;> unfold Verb.needsText <;> infer_instance

theorem calls_verb (verb : Verb) (n : Nat) (some_ : rest ≠ []) (head : ∀ c ∈ rest.head?,c ≠ space) :
    calls (verb.word++List.replicate (n+1) space++rest) =
      if verb.needsText ∧ (splitName rest).2 = [] then none
      else some (verb.request (splitName rest).1 (splitName rest).2) := by
  have plain : space ∉ verb.word := by cases verb <;> decide
  have executed := execute_verb verb (List.replicate n space++rest)
  have found := argument_found plain n some_ head
  have shape : verb.word++List.replicate (n+1) space++rest = verb.word++space::(List.replicate n space++rest) := by
    simp [List.replicate_succ]
  rw [←shape] at executed
  generalize verb.word++List.replicate (n+1) space++rest = line at *
  unfold calls respond
  rw [executed]
  cases verb with
  | write =>
    have argument : argumentAfter line (spell "write ") = some rest := found
    refine (store_made argument).trans ?_
    simp only [Verb.needsText,true_and]
    rfl
  | append =>
    have argument : argumentAfter line (spell "append ") = some rest := found
    refine (store_made argument).trans ?_
    simp only [Verb.needsText,true_and]
    rfl
  | run =>
    change (commandRun line).made = _
    have argument : argumentAfter line (spell "run ") = some rest := found
    rw [commandRun,argument]
    rfl

theorem request_injective (same : verb.request name text = verb.request command rest) : name = command ∧ text = rest := by
  cases verb with
  | write => exact Request.fsCreate.inj same
  | append => exact Request.fsAppend.inj same
  | run => exact Request.loaderRun.inj same

-- A name that name[] has no room for is cut, and the text begins with what was cut off.
theorem arguments_kept (verb : Verb) (n : Nat) (word : name ≠ []) (plain : space ∉ name) (ends : ∀ c ∈ rest.head?,c = space) :
    (∀ made,calls (verb.word++List.replicate (n+1) space++(name++rest)) = some made →
      made = verb.request name (rest.dropWhile (· = space))) ↔ name.length < fsNameMax := by
  have head : ∀ c ∈ (name++rest).head?,c ≠ space := by
    intro c first
    cases name with
    | nil => exact absurd rfl word
    | cons d name =>
      cases first
      rw [List.mem_cons,not_or] at plain
      exact Ne.symm plain.1
  rw [calls_verb verb n (by simp [word]) head,splitName_word plain ends]
  dsimp only
  by_cases short : name.length < fsNameMax
  · have whole : name.length ≤ fsNameMax-1 := Nat.le_sub_one_of_lt short
    rw [List.take_of_length_le whole,List.drop_of_length_le whole,List.nil_append]
    refine iff_of_true (fun made found => ?_) short
    split at found
    · cases found
    · exact (Option.some.inj found).symm
  · have long : fsNameMax-1 < name.length := Nat.lt_of_lt_of_le (by decide) (Nat.le_of_not_lt short)
    obtain ⟨c,tail,cut⟩ := List.exists_cons_of_ne_nil (List.drop_eq_nil_iff.not.mpr (Nat.not_le_of_lt long))
    have letter : c ≠ space := by
      intro same
      have member : c ∈ name := List.mem_of_mem_drop (i:=fsNameMax-1) (by rw [cut]; exact List.mem_cons_self)
      exact plain (same ▸ member)
    have text : (name.drop (fsNameMax-1)++rest).dropWhile (· = space) ≠ [] := by
      rw [cut,List.cons_append,List.dropWhile_cons_of_neg (by simpa using letter)]
      exact List.cons_ne_nil _ _
    refine iff_of_false (fun all => ?_) short
    have same := all _ (if_neg fun none => text none.2)
    have cutName := congrArg List.length (request_injective same).1
    rw [List.length_take,Nat.min_eq_left (Nat.le_of_lt long)] at cutName
    exact absurd cutName (Nat.ne_of_lt long)

theorem arguments_kept_note : calls (spell "write  note a  b") = some (.fsCreate (spell "note") (spell "a  b")) := by
  have kept : ∀ made,calls (Verb.write.word++List.replicate 2 space++(spell "note"++spell " a  b")) = some made →
      made = Verb.write.request (spell "note") ((spell " a  b").dropWhile (· = space)) :=
    (arguments_kept .write 1 (by decide) (by decide) (by decide)).mpr (by decide)
  obtain ⟨made,found⟩ : ∃ made,calls (spell "write  note a  b") = some made := Option.isSome_iff_exists.mp (by decide)
  rw [found,kept made found]
  rfl

-- Of 32 letters 31 become the name, and the last of them the beginning of the text.
theorem long_name_cut : calls (spell "write "++List.replicate 32 (character 'a')++spell " b") =
      some (.fsCreate (List.replicate 31 (character 'a')) (spell "a b")) ∧
    List.replicate 31 (character 'a') ≠ List.replicate 32 (character 'a') := by decide

end Arthic.ShellCommands
