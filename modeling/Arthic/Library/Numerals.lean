import Arthic.Library.ByteMemory
import Mathlib.Data.Nat.Basic

namespace Arthic.Numerals
open ByteMemory

def character (c : Char) : Byte := .ofNat 8 c.toNat
def spell (s : String) : List Byte := s.toList.map character

-- The shortest numeral, its first digit in front.
def numeral (base n : Nat) : List Byte := (Nat.toDigits base n).map character

def signedNumeral (z : Int) : List Byte :=
  if z < 0 then character '-'::numeral 10 z.natAbs else numeral 10 z.natAbs

variable {base n : Nat}

theorem numeral_digit (small : n < base) : numeral base n = [character n.digitChar] := by
  rw [numeral,Nat.toDigits_of_lt_base small,List.map_singleton]

theorem numeral_step (real : 1 < base) (large : base ≤ n) :
    numeral base n = numeral base (n/base)++[character (n%base).digitChar] := by
  rw [numeral,Nat.toDigits_of_base_le real large,List.map_append,List.map_singleton,numeral]

-- A numeral is made digit by digit.
theorem numeral_induction {P : Nat → List Byte → Prop} (real : 1 < base)
    (digit : ∀ n < base,P n [character n.digitChar])
    (step : ∀ n d front,0 < n → d < base → P n front → P (base*n+d) (front++[character d.digitChar])) (n : Nat) :
    P n (numeral base n) := by
  induction n using Nat.strongRecOn with
  | ind n ih =>
    by_cases small : n < base
    · rw [numeral_digit small]
      exact digit n small
    · have large : base ≤ n := Nat.le_of_not_lt small
      have positive : 0 < n/base := Nat.div_pos large (Nat.zero_lt_of_lt real)
      have less : n/base < n := Nat.div_lt_self (by omega) real
      have last : n%base < base := Nat.mod_lt n (Nat.zero_lt_of_lt real)
      rw [numeral_step real large]
      have made := step (n/base) (n%base) _ positive last (ih (n/base) less)
      rwa [Nat.div_add_mod] at made

end Arthic.Numerals
