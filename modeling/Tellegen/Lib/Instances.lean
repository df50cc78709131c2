import Mathlib.Algebra.GroupWithZero.Nat
import Mathlib.Data.Nat.Cast.Defs

/-!
Instances under names of their own. A definition that holds a numeral or looks an element up in a list refers to
these, and not to proofs that are named after the definition.
-/

instance atLeastTwo_two : Nat.AtLeastTwo 2 := ⟨by decide⟩

instance atLeastTwo_three : Nat.AtLeastTwo 3 := ⟨by decide⟩

instance atLeastTwo_four : Nat.AtLeastTwo 4 := ⟨by decide⟩

instance atLeastTwo_five : Nat.AtLeastTwo 5 := ⟨by decide⟩

instance atLeastTwo_ten : Nat.AtLeastTwo 10 := ⟨by decide⟩

instance atLeastTwo_twenty : Nat.AtLeastTwo 20 := ⟨by decide⟩

instance atLeastTwo_sixty : Nat.AtLeastTwo 60 := ⟨by decide⟩

instance atLeastTwo_sixtyNine : Nat.AtLeastTwo 69 := ⟨by decide⟩

instance atLeastTwo_hundred : Nat.AtLeastTwo 100 := ⟨by decide⟩

instance atLeastTwo_hundredTen : Nat.AtLeastTwo 110 := ⟨by decide⟩

instance atLeastTwo_twoHundredTwenty : Nat.AtLeastTwo 220 := ⟨by decide⟩

instance neZero_one : NeZero 1 := ⟨by decide⟩

instance neZero_two : NeZero 2 := ⟨by decide⟩

instance neZero_three : NeZero 3 := ⟨by decide⟩

instance neZero_four : NeZero 4 := ⟨by decide⟩

instance fin_lawfulBEq {n : ℕ} : LawfulBEq (Fin n) := inferInstance

instance pair_lawfulBEq : LawfulBEq (ℕ × ℕ) := inferInstance
