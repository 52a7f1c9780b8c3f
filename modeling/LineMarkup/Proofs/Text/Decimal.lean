import LineMarkup.Text.Decimal

namespace LineMarkup.Text

variable {n : Nat} {c : Char}

theorem digitChar_reads (h : n < 10) :
    isDigit n.digitChar = true ∧ digitValue n.digitChar = n := by
  have hall : ∀ n < 10, isDigit n.digitChar = true ∧ digitValue n.digitChar = n := by decide
  exact hall n h

theorem decimal_ne_nil (n : Nat) : decimal n ≠ [] := by
  rw [decimal]
  split <;> simp

theorem isDigit_of_mem_decimal (h : c ∈ decimal n) : isDigit c = true := by
  fun_induction decimal n with
  | case1 n hlt => exact List.mem_singleton.mp h ▸ (digitChar_reads hlt).1
  | case2 n hge ih =>
    rcases List.mem_append.mp h with h | h
    · exact ih h
    · exact List.mem_singleton.mp h ▸ (digitChar_reads (Nat.mod_lt n (by decide))).1

theorem decimalValue_decimal (n : Nat) : decimalValue (decimal n) = n := by
  fun_induction decimal n with
  | case1 n hlt =>
    have hvalue : decimalValue [n.digitChar] = 10 * 0 + digitValue n.digitChar := rfl
    rw [hvalue, (digitChar_reads hlt).2, Nat.mul_zero, Nat.zero_add]
  | case2 n hge ih =>
    have hlast : n % 10 < 10 := Nat.mod_lt n (by decide)
    rw [decimalValue, List.foldl_append] at *
    rw [ih, List.foldl_cons, List.foldl_nil, (digitChar_reads hlast).2]
    exact Nat.div_add_mod n 10

theorem readWord?_decimal (word : UInt32) : readWord? (decimal word.toNat) = some word := by
  have hdigits := fun c => isDigit_of_mem_decimal (n := word.toNat) (c := c)
  have hsign : (decimal word.toNat).head? ≠ some '+' := fun h =>
    absurd (hdigits '+' (List.mem_of_head? h)) (by decide)
  have hread : ((decimal word.toNat).isEmpty || !(decimal word.toNat).all isDigit ||
      decide (UInt32.size ≤ decimalValue (decimal word.toNat))) = false := by
    simp [decimal_ne_nil, List.all_eq_true.mpr hdigits, decimalValue_decimal, word.toNat_lt]
  rw [readWord?, if_neg hsign, hread, decimalValue_decimal, UInt32.ofNat_toNat]
  rfl

end LineMarkup.Text
