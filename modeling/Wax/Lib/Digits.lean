/-
Decimal numbers in names.

Design.  A number is told by its digits; at the end of a name, after an
underscore, it is told by the name (`Numbered.unique`), whatever stands before.
-/
import Mathlib.Data.Char
import Wax.Lib.Brackets

namespace Wax

theorem toDigits_injective : Function.Injective (Nat.toDigits 10) := by
  intro n m h
  rw [← Nat.ofDigitChars_ten_toDigits (n := n), h, Nat.ofDigitChars_ten_toDigits]

theorem isDigit_of_mem_toDigits {n : Nat} {c : Char} (h : c ∈ Nat.toDigits 10 n) :
    c.isDigit = true :=
  Nat.isDigit_of_mem_toDigits (by decide) (by decide) h

theorem notMem_toDigits {c : Char} (hc : c.isDigit = false) (n : Nat) : c ∉ Nat.toDigits 10 n := by
  intro h
  rw [isDigit_of_mem_toDigits h] at hc
  cases hc

theorem toList_toString (n : ℕ) : (toString n).toList = Nat.toDigits 10 n := Nat.toList_repr

/-- The name ends in an underscore and a number. -/
def Numbered (name : String) (n : ℕ) : Prop := ∃ stem, name = stem ++ "_" ++ toString n

/-- **A numbered name tells its number.** -/
theorem Numbered.unique {name : String} {m n : ℕ} (hm : Numbered name m) (hn : Numbered name n) :
    m = n := by
  obtain ⟨p, hp⟩ := hm
  obtain ⟨q, rfl⟩ := hn
  have hlist := congrArg (fun s : String => s.toList.reverse) hp
  simp only [String.toList_append, toList_toString, List.reverse_append, List.append_assoc] at hlist
  have hne (k : ℕ) : '_' ∉ (Nat.toDigits 10 k).reverse := by
    rw [List.mem_reverse]
    exact notMem_toDigits (by decide) k
  have hdigits := (Brackets.append_cons_inj (hne n) (hne m) hlist).1
  exact (toDigits_injective (List.reverse_injective hdigits)).symm

/-- A numbered name ends in a digit. -/
theorem Numbered.isDigit_last {name : String} {n : ℕ} (h : Numbered name n) :
    (name.toList.getLast?.map Char.isDigit) = some true := by
  obtain ⟨stem, rfl⟩ := h
  have hne : Nat.toDigits 10 n ≠ [] := Nat.toDigits_ne_nil
  rw [String.toList_append, toList_toString, List.getLast?_append_of_ne_nil _ hne,
    List.getLast?_eq_some_getLast hne]
  exact congrArg some (isDigit_of_mem_toDigits (List.getLast_mem hne))

end Wax
