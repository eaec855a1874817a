import Mathlib.Data.List.Basic
import Mathlib.Data.List.DropRight
import Mathlib.Data.Nat.Log
import Mathlib.Tactic.NormNum

/-!
# Numbers written as text

Two programs that exchange numbers as text agree only as far as their number
formats do. This file collects what is needed to compare such texts:

* `toDouble` — the double nearest to a natural number, ties to even; natural
  numbers up to `2 ^ 53` are represented exactly;
* `tostring` — the text a C `%.14g` conversion gives to an integral double,
  which is the decimal text below `10 ^ 14` (`tostring_of_lt`) and scientific notation
  from there, which is the text of no integer (`lt_of_tostring_eq`);
* `join_inj` — a text joined from two parts by a separator determines both parts
  when the separator does not occur in the second one.
-/

set_option autoImplicit false

namespace NumberText

/-- Division rounded to the nearest integer, ties to even. -/
def roundDiv (n d : ℕ) : ℕ :=
  if 2 * (n % d) < d ∨ 2 * (n % d) = d ∧ n / d % 2 = 0 then n / d else n / d + 1

/-- The double nearest to `n`: a significand of 53 bits, scaled by a power of
two. -/
def toDouble (n : ℕ) : ℕ :=
  roundDiv n (2 ^ (n.log2 - 52)) * 2 ^ (n.log2 - 52)

@[simp] theorem roundDiv_one (n : ℕ) : roundDiv n 1 = n := by
  simp [roundDiv, Nat.mod_one]

theorem div_le_roundDiv (n d : ℕ) : n / d ≤ roundDiv n d := by
  unfold roundDiv
  split_ifs <;> omega

/-- Naturals up to `2 ^ 53` are doubles. -/
theorem toDouble_of_le {n : ℕ} (h : n ≤ 2 ^ 53) : toDouble n = n := by
  rcases h.lt_or_eq with hlt | rfl
  · have hlog : n.log2 - 52 = 0 := by
      rcases Nat.eq_zero_or_pos n with rfl | hpos
      · simp
      · have := (Nat.log2_lt hpos.ne').mpr hlt
        omega
    simp [toDouble, hlog]
  · decide

theorem toDouble_pos {n : ℕ} (h : 0 < n) : 0 < toDouble n := by
  have hscale : 2 ^ (n.log2 - 52) ≤ n :=
    (Nat.pow_le_pow_right (by decide) (Nat.sub_le _ _)).trans (Nat.log2_self_le h.ne')
  have hquot : 0 < n / 2 ^ (n.log2 - 52) := Nat.div_pos hscale (by positivity)
  exact Nat.mul_pos (hquot.trans_le (div_le_roundDiv _ _)) (by positivity)

/-- Rounding does not cross a power of two downwards. -/
theorem two_pow_log2_le_toDouble {n : ℕ} (h : n ≠ 0) : 2 ^ n.log2 ≤ toDouble n := by
  have hsplit : 2 ^ n.log2 = 2 ^ (n.log2 - (n.log2 - 52)) * 2 ^ (n.log2 - 52) := by
    rw [← pow_add, Nat.sub_add_cancel (Nat.sub_le _ _)]
  have hquot : 2 ^ (n.log2 - (n.log2 - 52)) ≤ n / 2 ^ (n.log2 - 52) := by
    rw [Nat.le_div_iff_mul_le (by positivity), ← hsplit]
    exact Nat.log2_self_le h
  calc 2 ^ n.log2 = 2 ^ (n.log2 - (n.log2 - 52)) * 2 ^ (n.log2 - 52) := hsplit
    _ ≤ n / 2 ^ (n.log2 - 52) * 2 ^ (n.log2 - 52) := Nat.mul_le_mul_right _ hquot
    _ ≤ toDouble n := Nat.mul_le_mul_right _ (div_le_roundDiv _ _)

/-- A natural is below a bound up to `2 ^ 53` exactly when its double is. -/
theorem toDouble_lt_iff {n bound : ℕ} (hbound : bound ≤ 2 ^ 53) :
    toDouble n < bound ↔ n < bound := by
  rcases Nat.lt_or_ge (2 ^ 53) n with hlarge | hsmall
  · have hlog : 53 ≤ n.log2 := (Nat.le_log2 (by omega)).mpr hlarge.le
    have hdouble : 2 ^ 53 ≤ toDouble n :=
      (Nat.pow_le_pow_right (by decide) hlog).trans (two_pow_log2_le_toDouble (by omega))
    omega
  · rw [toDouble_of_le hsmall]

-- the first natural that is not a double is rounded down to its predecessor
example : toDouble (2 ^ 53 + 1) = 2 ^ 53 := by decide

/-- The `%.14g` text of an integral double: all digits when there are at most
fourteen, otherwise a significand rounded to fourteen digits, without trailing
zeros, and an exponent. -/
def tostring (n : ℕ) : String :=
  if n < 10 ^ 14 then toString n
  else
    let digits := (toString n).length
    let rounded := roundDiv n (10 ^ (digits - 14))
    -- rounding up may carry into a fifteenth digit
    let significand := if rounded = 10 ^ 14 then 10 ^ 13 else rounded
    let exponent := if rounded = 10 ^ 14 then digits else digits - 1
    match (toString significand).toList.rdropWhile (· = '0') with
    | [] => "0"
    | [d] => String.ofList [d] ++ "e+" ++ toString exponent
    | d :: rest => String.ofList (d :: '.' :: rest) ++ "e+" ++ toString exponent

theorem tostring_of_lt {n : ℕ} (h : n < 10 ^ 14) : tostring n = toString n := by
  rw [tostring, if_pos h]

example : tostring (10 ^ 14) = "1e+14" := by decide +kernel

example : tostring 123456789012345678 = "1.2345678901235e+17" := by decide +kernel

/-! ### Decimal texts -/

theorem isDigit_of_mem_toString {n : ℕ} {c : Char} (h : c ∈ (toString n).toList) :
    c.isDigit := by
  rw [Nat.toString_eq_repr, Nat.toList_repr] at h
  exact Nat.isDigit_of_mem_toDigits (by decide) (by decide) h

theorem natToString_inj {m n : ℕ} (h : toString m = toString n) : m = n := by
  rw [Nat.toString_eq_repr, Nat.toString_eq_repr] at h
  have hdigits : Nat.toDigits 10 m = Nat.toDigits 10 n := by
    rw [← Nat.toList_repr, ← Nat.toList_repr, h]
  have hm := Nat.ofDigitChars_toDigits (b := 10) (n := m) (by decide) (by decide)
  have hn := Nat.ofDigitChars_toDigits (b := 10) (n := n) (by decide) (by decide)
  rw [← hm, ← hn, hdigits]

/-- The text of an integer is a minus sign followed by a decimal text, or a
decimal text. -/
theorem intToString_cases (z : ℤ) :
    (∃ n : ℕ, z = n ∧ toString z = toString n) ∨
      ∃ n : ℕ, toString z = "-" ++ toString n := by
  rw [Int.toString_eq_repr, Int.repr_eq_if]
  by_cases hz : 0 ≤ z
  · exact Or.inl ⟨z.toNat, by omega, by simp [hz]⟩
  · exact Or.inr ⟨(-z).toNat, by simp [hz]⟩

theorem intToString_eq_natToString {z : ℤ} {n : ℕ} (h : toString z = toString n) : z = n := by
  rcases intToString_cases z with ⟨m, rfl, hm⟩ | ⟨m, hm⟩
  · rw [natToString_inj (hm.symm.trans h)]
  · have hminus : '-' ∈ (toString n).toList := by
      rw [← h, hm, String.toList_append]
      exact List.mem_append_left _ (by decide)
    exact absurd (isDigit_of_mem_toString hminus) (by decide)

/-- The text of an integer has no characters but digits and a minus sign. -/
theorem isDigit_of_mem_intToString {z : ℤ} {c : Char} (h : c ∈ (toString z).toList)
    (hminus : c ≠ '-') : c.isDigit := by
  rcases intToString_cases z with ⟨n, -, hn⟩ | ⟨n, hn⟩
  · rw [hn] at h
    exact isDigit_of_mem_toString h
  · rw [hn, String.toList_append, List.mem_append] at h
    rcases h with h | h
    · exact absurd (List.mem_singleton.mp h) hminus
    · exact isDigit_of_mem_toString h

theorem colon_notMem_intToString (z : ℤ) : ':' ∉ (toString z).toList := fun hmem =>
  absurd (isDigit_of_mem_intToString hmem (by decide)) (by decide)

/-- From `10 ^ 14` on the text has an exponent. -/
theorem e_mem_tostring {n : ℕ} (h : 10 ^ 14 ≤ n) : 'e' ∈ (tostring n).toList := by
  set digits := (toString n).length with hdigits
  set rounded := roundDiv n (10 ^ (digits - 14)) with hrounded
  set significand := if rounded = 10 ^ 14 then 10 ^ 13 else rounded with hsignificand
  have hlong : 14 < digits := by
    by_contra hshort
    exact absurd ((Nat.length_repr_le_iff (by decide)).mp (not_lt.mp hshort)) (not_lt.mpr h)
  have hquot : 0 < n / 10 ^ (digits - 14) := by
    refine Nat.div_pos ?_ (by positivity)
    by_contra hlt
    have hle := (Nat.length_repr_le_iff (n := n) (k := digits - 14) (by omega)).mpr (not_le.mp hlt)
    rw [← Nat.toString_eq_repr, ← hdigits] at hle
    omega
  have hpos : significand ≠ 0 := by
    have hround := div_le_roundDiv n (10 ^ (digits - 14))
    rw [hsignificand]
    split_ifs <;> omega
  -- the significand is not zero, so that some digit of it stays
  have hstays : (toString significand).toList.rdropWhile (· = '0') ≠ [] := by
    intro hnil
    have hzeros : ∀ c ∈ (toString significand).toList, c = '0' := by
      simpa using List.rdropWhile_eq_nil_iff.mp hnil
    have hvalue := Nat.ofDigitChars_toDigits (b := 10) (n := significand) (by decide) (by decide)
    rw [← Nat.toList_repr, ← Nat.toString_eq_repr, List.eq_replicate_of_mem hzeros,
      Nat.ofDigitChars_replicate_zero, Nat.mul_zero] at hvalue
    exact hpos hvalue.symm
  have htext : tostring n = match (toString significand).toList.rdropWhile (· = '0') with
      | [] => "0"
      | [d] => String.ofList [d] ++ "e+" ++
          toString (if rounded = 10 ^ 14 then digits else digits - 1)
      | d :: rest => String.ofList (d :: '.' :: rest) ++ "e+" ++
          toString (if rounded = 10 ^ 14 then digits else digits - 1) := by
    rw [tostring, if_neg (not_lt.mpr h)]
  rw [htext]
  split
  · exact absurd ‹_› hstays
  · simp [String.toList_append]
  · simp [String.toList_append]

/-- Such a text is that of no integer. -/
theorem lt_of_tostring_eq {n : ℕ} {z : ℤ} (h : tostring n = toString z) : n < 10 ^ 14 := by
  by_contra hlarge
  have hmem := e_mem_tostring (not_lt.mp hlarge)
  rw [h] at hmem
  exact absurd (isDigit_of_mem_intToString hmem (by decide)) (by decide)

/-! ### Joined texts -/

/-- A list cut at the last occurrence of a separator determines both parts. -/
theorem append_cons_inj {α : Type*} {sep : α} {as bs cs ds : List α}
    (hb : sep ∉ bs) (hd : sep ∉ ds) (h : as ++ sep :: bs = cs ++ sep :: ds) :
    as = cs ∧ bs = ds := by
  rcases List.append_eq_append_iff.mp h with ⟨es, rfl, hes⟩ | ⟨es, rfl, hes⟩
  · cases es with
    | nil => simp_all
    | cons e es =>
      obtain ⟨rfl, rfl⟩ : sep = e ∧ bs = es ++ sep :: ds := by simpa using hes
      simp at hb
  · cases es with
    | nil => simp_all
    | cons e es =>
      obtain ⟨rfl, rfl⟩ : sep = e ∧ ds = es ++ sep :: bs := by simpa using hes
      simp at hd

/-- A text joined by a colon determines both parts when the second has no colon. -/
theorem join_inj {a b c d : String} (hb : ':' ∉ b.toList) (hd : ':' ∉ d.toList)
    (h : a ++ ":" ++ b = c ++ ":" ++ d) : a = c ∧ b = d := by
  have hlist := congrArg String.toList h
  simp only [String.toList_append, List.append_assoc] at hlist
  obtain ⟨hac, hbd⟩ := append_cons_inj hb hd hlist
  exact ⟨String.toList_inj.mp hac, String.toList_inj.mp hbd⟩

end NumberText
