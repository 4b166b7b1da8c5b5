import Mathlib.Data.List.Basic
import Mathlib.Logic.Function.Basic

namespace Arthic.Pic8259

abbrev Byte := BitVec 8

inductive Expects where
  | icw2
  | icw3
  | icw4
  | commands
  deriving DecidableEq

-- One chip: how far its initialisation has got, what it was told there, and its three
-- registers of a bit for each line.
structure Chip where
  expects : Expects
  single : Bool
  fourth : Bool
  base : Byte
  wiring : Byte
  mode : Byte
  mask : Byte
  request : Byte
  service : Byte

def set (bits : Byte) (i : Nat) : Byte := bits ||| 1#8 <<< i
def clear (bits : Byte) (i : Nat) : Byte := bits &&& ~~~(1#8 <<< i)
def first (bits : Byte) : Option Nat := (List.range 8).find? bits.getLsbD

-- The end of an interrupt that is not named: the first line in service.
def retire (bits : Byte) : Byte := (first bits).elim bits (clear bits)

def Chip.command (c : Chip) (value : Byte) : Chip :=
  if value.getLsbD 4 then
    {c with expects:=.icw2,single:=value.getLsbD 1,fourth:=value.getLsbD 0,mask:=0#8,request:=0#8,service:=0#8}
  else if value = 0x20#8 then {c with service:=retire c.service}
  else c

def Chip.afterThird (c : Chip) : Expects := if c.fourth then .icw4 else .commands

def Chip.data (c : Chip) (value : Byte) : Chip :=
  match c.expects with
  | .icw2 => {c with base:=value &&& 0xF8#8,expects:=if c.single then c.afterThird else .icw3}
  | .icw3 => {c with wiring:=value,expects:=c.afterThird}
  | .icw4 => {c with mode:=value,expects:=.commands}
  | .commands => {c with mask:=value}

-- A line gets through if it is not masked and neither it nor one before it is in service.
def Chip.open_ (c : Chip) (i : Nat) : Bool := !c.mask.getLsbD i && (List.range (i+1)).all fun j => !c.service.getLsbD j
def Chip.offers (c : Chip) (asked : Byte) : Option Nat :=
  if c.expects = .commands then (List.range 8).find? fun i => asked.getLsbD i && c.open_ i else none
def Chip.grant (c : Chip) (i : Nat) : Chip := {c with service:=set c.service i,request:=clear c.request i}

-- Two chips, the second one's output being line 2 of the first.
structure Pair where
  master : Chip
  slave : Chip

def cascade : Nat := 2
def Pair.inner (p : Pair) : Option Nat := p.slave.offers p.slave.request
def Pair.asked (p : Pair) : Byte := if p.inner.isSome then set p.master.request cascade else p.master.request
def Pair.wired (p : Pair) : Bool := p.master.wiring.getLsbD cascade && p.slave.wiring == BitVec.ofNat 8 cascade

-- The processor asks which interrupt it is.
def Pair.acknowledge (p : Pair) : Option (Byte × Pair) :=
  (p.master.offers p.asked).bind fun i =>
    if i = cascade ∧ p.wired = true then
      p.inner.map fun j => (p.slave.base+BitVec.ofNat 8 j,⟨p.master.grant cascade,p.slave.grant j⟩)
    else some (p.master.base+BitVec.ofNat 8 i,{p with master:=p.master.grant i})

def Pair.raise (p : Pair) (line : Nat) : Pair :=
  if line < 8 then {p with master:={p.master with request:=set p.master.request line}}
  else {p with slave:={p.slave with request:=set p.slave.request (line-8)}}

variable {bits : Byte} {i j : Nat} {c : Chip}

theorem one_bit (i j : Nat) : (1#8 <<< i).getLsbD j = (decide (i = j) && decide (j < 8)) := by
  rw [BitVec.getLsbD_shiftLeft]
  by_cases same : i = j
  · simp [same]
  · by_cases below : j < i
    · simp [same,below]
    · simp [same,below,BitVec.getLsbD_one]
      omega

theorem set_bit (bits : Byte) (small : j < 8) : (set bits i).getLsbD j = (bits.getLsbD j || decide (i = j)) := by
  rw [set,BitVec.getLsbD_or,one_bit,decide_eq_true small,Bool.and_true]

theorem clear_bit (bits : Byte) (small : j < 8) : (clear bits i).getLsbD j = (bits.getLsbD j && !decide (i = j)) := by
  rw [clear,BitVec.getLsbD_and,BitVec.getLsbD_not,one_bit,decide_eq_true small,Bool.and_true,Bool.true_and]

-- The first bit goes and the others stay.
theorem retire_first (small : i < 8) (here : bits.getLsbD i = true) (before : ∀ j < i,bits.getLsbD j = false) : retire bits = clear bits i := by
  have found : first bits = some i :=
    List.find?_range_eq_some.mpr ⟨here,List.mem_range.mpr small,fun j below => by rw [before j below]; rfl⟩
  rw [retire,found]
  rfl

theorem open_iff : c.open_ i = true ↔ c.mask.getLsbD i = false ∧ ∀ j ≤ i,c.service.getLsbD j = false := by
  unfold Chip.open_
  simp only [Bool.and_eq_true,Bool.not_eq_true',List.all_eq_true,List.mem_range]
  exact and_congr_right fun _ => forall_congr' fun j => by rw [Nat.lt_succ_iff]

theorem offers_some {asked : Byte} (given : c.offers asked = some i) :
    c.expects = .commands ∧ i < 8 ∧ asked.getLsbD i = true ∧ c.open_ i = true := by
  unfold Chip.offers at given
  split at given
  · rename_i ready
    have found := List.find?_some given
    have member := List.mem_of_find?_eq_some given
    rw [Bool.and_eq_true] at found
    exact ⟨ready,List.mem_range.mp member,found⟩
  · cases given

theorem offers_isSome {asked : Byte} (ready : c.expects = .commands) :
    (c.offers asked).isSome = true ↔ ∃ i < 8,asked.getLsbD i = true ∧ c.open_ i = true := by
  unfold Chip.offers
  rw [if_pos ready,List.find?_isSome]
  simp only [List.mem_range,Bool.and_eq_true]

end Arthic.Pic8259
