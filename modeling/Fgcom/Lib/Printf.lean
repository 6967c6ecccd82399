import Fgcom.Lib.Strto
import Mathlib.Data.Rat.Floor
import Mathlib.Algebra.Order.Archimedean.Basic
import Mathlib.Tactic.FieldSimp
import Mathlib.Tactic.IntervalCases

/-! # What `printf` writes for a number

The conversions `%d`, `%x` and `%.pf`, with what is read back from them.

* **`denotes_printInt`**, **`denotes_printHex`** — `strtol` in base 0 reads back the number written.
* **`isFloat_printFixed`** — `strtod` reads back a floating-point value up to half a unit of the
  last place. -/

namespace Printf

open DecimalText Strto

/-! ## Integers -/

/-- `%d`. -/
def printInt (z : ℤ) : List Char := printfD 0 z

/-- `%x`, for an `unsigned int`. -/
def printHex (n : ℕ) : List Char := Nat.toDigits 16 n

theorem printInt_natCast (n : ℕ) : printInt n = Nat.toDigits 10 n := by
  rw [printInt, printfD_natCast, padded_eq, Nat.zero_sub]
  rfl

theorem printInt_negSucc (n : ℕ) : printInt (.negSucc n) = '-' :: Nat.toDigits 10 (n + 1) := by
  rw [printInt, printfD, padded_eq, Nat.zero_sub]
  rfl

theorem valueIn_append_singleton (b : ℕ) (s : List Char) (c : Char) :
    valueIn b (s ++ [c]) = b * valueIn b s + digitValue c := by
  rw [valueIn, List.foldl_append]
  rfl

/-- A digit character has the value it was made for. -/
theorem digitValue_digitChar {d : ℕ} (hd : d < 16) : digitValue d.digitChar = d := by
  interval_cases d <;> rfl

/-- The digits of a number have its value. -/
theorem valueIn_toDigits {b : ℕ} (hb : 1 < b) (hb' : b ≤ 16) (n : ℕ) :
    valueIn b (Nat.toDigits b n) = n := by
  induction n using Nat.strongRecOn with
  | ind n ih =>
      rcases Nat.lt_or_ge n b with hn | hn
      · rw [Nat.toDigits_of_lt_base hn]
        show b * 0 + digitValue n.digitChar = n
        rw [digitValue_digitChar (by omega), Nat.mul_zero, Nat.zero_add]
      · have hmod : n % b < b := Nat.mod_lt n (by omega)
        rw [Nat.toDigits_of_base_le hb hn, valueIn_append_singleton,
          ih (n / b) (Nat.div_lt_self (by omega) hb), digitValue_digitChar (by omega)]
        exact Nat.div_add_mod n b

/-- A property of all digit characters below the base holds of the digits of a number. -/
theorem forall_mem_toDigits {b : ℕ} (hb : 1 < b) {p : Char → Prop}
    (hp : ∀ d < b, p d.digitChar) (n : ℕ) : ∀ c ∈ Nat.toDigits b n, p c := by
  induction n using Nat.strongRecOn with
  | ind n ih =>
      rcases Nat.lt_or_ge n b with hn | hn
      · rw [Nat.toDigits_of_lt_base hn]
        simpa using hp n hn
      · rw [Nat.toDigits_of_base_le hb hn, List.forall_mem_append]
        refine ⟨ih (n / b) (Nat.div_lt_self (by omega) hb), ?_⟩
        simpa using hp (n % b) (Nat.mod_lt n (by omega))

/-- A positive number does not start with a zero. -/
theorem exists_head_toDigits {n : ℕ} (hn : 0 < n) :
    ∃ c t, Nat.toDigits 10 n = c :: t ∧ c ≠ '0' := by
  induction n using Nat.strongRecOn with
  | ind n ih =>
      rcases Nat.lt_or_ge n 10 with hlt | hge
      · refine ⟨n.digitChar, [], Nat.toDigits_of_lt_base hlt, ?_⟩
        rw [Ne, Nat.digitChar_eq_zero]
        omega
      · obtain ⟨c, t, heq, hc⟩ := ih (n / 10) (by omega) (by omega)
        refine ⟨c, t ++ [(n % 10).digitChar], ?_, hc⟩
        rw [Nat.toDigits_of_base_le (by decide) hge, heq]
        rfl

/-- The decimal digits are a magnitude of base 0. -/
theorem magnitude_toDigits (n : ℕ) : Magnitude (Nat.toDigits 10 n) n := by
  rcases Nat.eq_zero_or_pos n with rfl | hn
  · have hnone : ∀ d ∈ ([] : List Char), isOctDigit d = true := by simp
    exact Magnitude.octal hnone
  · obtain ⟨c, t, heq, hc⟩ := exists_head_toDigits hn
    have hdigits : ∀ d ∈ c :: t, d.isDigit = true := fun d hd =>
      Nat.isDigit_of_mem_toDigits (by decide) (by decide) (heq ▸ hd)
    have hvalue := valueIn_toDigits (by decide : 1 < 10) (by decide) n
    rw [heq] at hvalue ⊢
    have hmagnitude := Magnitude.decimal (hdigits c List.mem_cons_self) hc
      fun d hd => hdigits d (List.mem_cons_of_mem c hd)
    rw [hvalue] at hmagnitude
    exact hmagnitude

/-- **`%d` is read back.** -/
theorem denotes_printInt (z : ℤ) : Denotes (printInt z) z := by
  cases z with
  | ofNat n =>
      rw [Int.ofNat_eq_natCast, printInt_natCast]
      exact ⟨[], [], _, n, rfl, by simp, magnitude_toDigits n, Or.inr ⟨Or.inr rfl, rfl⟩⟩
  | negSucc n =>
      rw [printInt_negSucc]
      exact ⟨[], ['-'], _, n + 1, rfl, by simp, magnitude_toDigits (n + 1), Or.inl ⟨rfl, rfl⟩⟩

/-- **`0x%x` is read back.** -/
theorem denotes_printHex (n : ℕ) : Denotes ("0x".toList ++ printHex n) n := by
  have hdigits : ∀ c ∈ printHex n, isHexDigit c = true :=
    forall_mem_toDigits (by decide) (by decide) n
  have hne : printHex n ≠ [] := Nat.toDigits_ne_nil
  have hmagnitude := Magnitude.hex (Or.inl rfl : 'x' = 'x' ∨ 'x' = 'X') hne hdigits
  rw [printHex, valueIn_toDigits (by decide) (by decide)] at hmagnitude
  exact ⟨[], [], _, n, rfl, by simp, hmagnitude, Or.inr ⟨Or.inr rfl, rfl⟩⟩

/-- The characters of `%d`. -/
theorem isDigit_or_of_mem_printInt {z : ℤ} {c : Char} (hc : c ∈ printInt z) :
    c.isDigit = true ∨ c = '-' := by
  cases z with
  | ofNat n =>
      rw [Int.ofNat_eq_natCast, printInt_natCast] at hc
      exact Or.inl (Nat.isDigit_of_mem_toDigits (by decide) (by decide) hc)
  | negSucc n =>
      rw [printInt_negSucc] at hc
      rcases List.mem_cons.mp hc with rfl | hc
      · exact Or.inr rfl
      · exact Or.inl (Nat.isDigit_of_mem_toDigits (by decide) (by decide) hc)

/-- `%d` of an `int` takes at most eleven characters. -/
theorem length_printInt_le {z : ℤ} (hlow : -2 ^ 31 ≤ z) (hhigh : z < 2 ^ 31) :
    (printInt z).length ≤ 11 := by
  have hten : ∀ n : ℕ, n < 10 ^ 10 → (Nat.toDigits 10 n).length ≤ 10 := fun n hn =>
    (Nat.length_toDigits_le_iff (by decide) (by decide)).mpr hn
  cases z with
  | ofNat n =>
      rw [Int.ofNat_eq_natCast, printInt_natCast]
      have hn := hten n (by rw [Int.ofNat_eq_natCast] at hhigh; omega)
      omega
  | negSucc n =>
      rw [printInt_negSucc, List.length_cons]
      have hn := hten (n + 1) (by rw [Int.negSucc_eq] at hlow; omega)
      omega

/-! ## Floating-point values -/

/-- A value of a floating-point type: a signed magnitude, an infinity or not a number. -/
inductive FloatValue
  | finite (neg : Bool) (magnitude : ℚ≥0)
  | inf (neg : Bool)
  | nan (neg : Bool)
  deriving DecidableEq

/-- A finite value is of at most this magnitude. -/
def FloatValue.AtMost (n : ℕ) : FloatValue → Prop
  | .finite _ magnitude => magnitude ≤ n
  | .inf _ | .nan _ => True

/-- The number a sign and a magnitude stand for. -/
def signed (neg : Bool) (magnitude : ℚ) : ℚ := if neg then -magnitude else magnitude

/-- The nearest natural number, the even one of two. -/
def roundHalfEven (q : ℚ≥0) : ℕ :=
  let n := q.num / q.den
  let r := q.num % q.den
  if 2 * r < q.den ∨ 2 * r = q.den ∧ n % 2 = 0 then n else n + 1

/-- The sign in front of a number. -/
def printSign (neg : Bool) : List Char := if neg then ['-'] else []

/-- A number of units of the `p`th place behind the point. -/
def printUnits (p units : ℕ) : List Char :=
  Nat.toDigits 10 (units / 10 ^ p) ++ '.' :: padded p (units % 10 ^ p)

/-- `%.pf`, for a positive `p`. -/
def printFixed (p : ℕ) : FloatValue → List Char
  | .finite neg magnitude => printSign neg ++ printUnits p (roundHalfEven (magnitude * 10 ^ p))
  | .inf neg => printSign neg ++ "inf".toList
  | .nan neg => printSign neg ++ "nan".toList

/-- Rounding moves a value by at most one half. -/
theorem abs_roundHalfEven_sub_le (q : ℚ≥0) : |(roundHalfEven q : ℚ) - q| ≤ 1 / 2 := by
  have hden : (0 : ℚ) < q.den := by exact_mod_cast q.den_pos
  have hdivmod : (q.num : ℚ) = q.den * (q.num / q.den : ℕ) + (q.num % q.den : ℕ) := by
    exact_mod_cast (Nat.div_add_mod q.num q.den).symm
  have hmul : (q : ℚ) * q.den = q.den * (q.num / q.den : ℕ) + (q.num % q.den : ℕ) := by
    rw [← hdivmod]
    exact_mod_cast q.mul_den_eq_num
  have hlow : (0 : ℚ) ≤ (q.num % q.den : ℕ) := Nat.cast_nonneg _
  have hhigh : ((q.num % q.den : ℕ) : ℚ) ≤ q.den := by
    exact_mod_cast (Nat.mod_lt _ q.den_pos).le
  unfold roundHalfEven
  simp only
  rw [abs_le]
  split
  next hdown =>
      have htwice : (2 : ℚ) * (q.num % q.den : ℕ) ≤ q.den := by
        exact_mod_cast hdown.elim le_of_lt fun h => h.1.le
      constructor <;> nlinarith
  next hup =>
      have htwice : (q.den : ℚ) ≤ 2 * (q.num % q.den : ℕ) := by
        exact_mod_cast not_lt.mp fun h => hup (Or.inl h)
      push_cast
      constructor <;> nlinarith

/-- The number `printUnits` writes. -/
theorem numeralValue_printUnits {p : ℕ} (hp : 0 < p) (neg : Bool) (units : ℕ) :
    numeralValue neg (Nat.toDigits 10 (units / 10 ^ p)) (padded p (units % 10 ^ p)) 0
      = signed neg (units / 10 ^ p) := by
  have hlen : (padded p (units % 10 ^ p)).length = p :=
    length_padded hp (Nat.mod_lt _ (by positivity))
  have hvalue : Nat.ofDigitChars 10
      (Nat.toDigits 10 (units / 10 ^ p) ++ padded p (units % 10 ^ p)) 0 = units := by
    rw [Nat.ofDigitChars_append, Nat.ofDigitChars_ten_toDigits,
      Nat.ofDigitChars_eq_ofDigitChars_zero, ofDigitChars_padded, hlen]
    exact Nat.div_add_mod units (10 ^ p)
  have hscale : scale (units : ℚ) (0 - (p : ℤ)) = units / 10 ^ p := by
    obtain ⟨k, rfl⟩ : ∃ k, p = k + 1 := ⟨p - 1, by omega⟩
    rw [show (0 : ℤ) - ((k + 1 : ℕ) : ℤ) = .negSucc k by omega]
    show (units : ℚ) / ((10 ^ (k + 1) : ℕ) : ℚ) = units / 10 ^ (k + 1)
    push_cast
    rfl
  unfold numeralValue signed
  rw [hvalue, hlen, hscale]

/-- A digit has no lower case. -/
theorem toLower_of_isDigit {c : Char} (hc : c.isDigit = true) : c.toLower = c := by
  rw [Char.isDigit_iff_toNat] at hc
  have h9 : '9'.toNat = 57 := rfl
  unfold Char.toLower
  rw [dif_neg]
  rintro ⟨hlow, -⟩
  have hA : 65 ≤ c.toNat := UInt32.le_iff_toNat_le.mp hlow
  omega

/-- No word of letters stands where a digit does. -/
theorem startsWithWord_digit {w c : Char} {word s : List Char} (hw : w.isDigit = false)
    (hc : c.isDigit = true) : startsWithWord (w :: word) (c :: s) = false := by
  unfold startsWithWord
  rw [List.length_cons, List.take_succ_cons, List.map_cons, toLower_of_isDigit hc,
    List.cons_beq_cons, beq_eq_false_iff_ne.mpr (by rintro rfl; exact absurd hc (by simp [hw])),
    Bool.false_and]

/-- A decimal numeral is no hexadecimal one. -/
theorem startsWithWord_hex {int frac : List Char} (hint : ∀ c ∈ int, c.isDigit = true) :
    startsWithWord "0x".toList (int ++ '.' :: frac) = false := by
  have hsecond : ∀ (c d : Char) (s : List Char), d.toLower ≠ 'x' →
      startsWithWord "0x".toList (c :: d :: s) = false := by
    intro c d s hd
    show ([c.toLower, d.toLower] == ['0', 'x']) = false
    simp [hd]
  match int with
  | [] => exact rfl
  | [c] => exact hsecond c '.' frac (by decide)
  | c :: d :: t =>
      have hd : d.isDigit = true := hint d (by simp)
      refine hsecond c d (t ++ '.' :: frac) ?_
      rw [toLower_of_isDigit hd]
      rintro rfl
      exact absurd hd (by decide)

/-- `strtod` reads a plain decimal numeral. -/
theorem isFloat_parts (neg : Bool) {int frac : List Char} (hint : int ≠ [])
    (hintd : ∀ c ∈ int, c.isDigit = true) (hfrac : frac ≠ [])
    (hfracd : ∀ c ∈ frac, c.isDigit = true) :
    IsFloat (printSign neg ++ (int ++ '.' :: frac)) (.finite (numeralValue neg int frac 0)) := by
  have hdrop := dropWhile_isSpace_append ⟨neg, int, frac, hint, hintd, hfrac, hfracd, rfl⟩ []
  have hread := readDecimal_parts neg hint hintd hfracd endsNumeral_nil
  rw [List.append_nil, List.append_assoc] at hdrop hread
  have hsign : readSign (printSign neg ++ (int ++ '.' :: frac)) = (neg, int ++ '.' :: frac) := by
    cases neg with
    | true => rfl
    | false => exact readSign_digits ('.' :: frac) hint hintd
  obtain ⟨c, t, rfl⟩ := List.exists_cons_of_ne_nil hint
  have hc : c.isDigit = true := hintd c List.mem_cons_self
  have hword : ∀ (w : Char) (word : List Char), w.isDigit = false →
      startsWithWord (w :: word) (c :: t ++ '.' :: frac) = false :=
    fun w word hw => startsWithWord_digit hw hc
  unfold IsFloat printSign
  rw [hdrop]
  unfold readFloat
  simp only [printSign] at hsign
  simp only [hsign, startsWithWord_hex hintd, hread]
  rw [if_neg, if_neg, if_neg]
  · rfl
  all_goals exact Bool.eq_false_iff.mp (hword _ _ (by decide))

/-- **`%.pf` is read back** up to half a unit of the last place. -/
theorem isFloat_printFixed {p : ℕ} (hp : 0 < p) (neg : Bool) (magnitude : ℚ≥0) :
    ∃ q : ℚ, IsFloat (printFixed p (.finite neg magnitude)) (.finite q) ∧
      |q - signed neg magnitude| ≤ 1 / 2 / 10 ^ p := by
  set units := roundHalfEven (magnitude * 10 ^ p)
  refine ⟨signed neg (units / 10 ^ p), ?_, ?_⟩
  · rw [← numeralValue_printUnits hp]
    refine isFloat_parts neg Nat.toDigits_ne_nil
      (fun c hc => Nat.isDigit_of_mem_toDigits (by decide) (by decide) hc) ?_
      fun c hc => isDigit_of_mem_padded hc
    exact List.ne_nil_of_length_pos (lt_of_lt_of_le hp (le_length_padded p _))
  · have hscale : (0 : ℚ) < 10 ^ p := by positivity
    have hround : |(units : ℚ) - (magnitude * 10 ^ p : ℚ≥0)| ≤ 1 / 2 :=
      abs_roundHalfEven_sub_le (magnitude * 10 ^ p)
    have hunits : |(units : ℚ) / 10 ^ p - magnitude| ≤ 1 / 2 / 10 ^ p := by
      rw [le_div_iff₀ hscale, ← abs_of_pos hscale, ← abs_mul, abs_of_pos hscale, sub_mul,
        div_mul_cancel₀ _ hscale.ne']
      push_cast at hround
      exact hround
    cases neg with
    | false => exact hunits
    | true =>
        show |-((units : ℚ) / 10 ^ p) - -(magnitude : ℚ)| ≤ _
        rw [neg_sub_neg, abs_sub_comm]
        exact hunits

/-- An infinity is read back. -/
theorem isFloat_printFixed_inf (p : ℕ) (neg : Bool) :
    IsFloat (printFixed p (.inf neg)) (.infinite neg) := by
  cases neg <;> rfl

/-- Not a number is read back. -/
theorem isFloat_printFixed_nan (p : ℕ) (neg : Bool) :
    IsFloat (printFixed p (.nan neg)) .nan := by
  cases neg <;> rfl

/-- The characters of `%.pf`. -/
theorem forall_mem_printFixed {P : Char → Prop} {p : ℕ} (hdigit : ∀ c, c.isDigit = true → P c)
    (hother : ∀ c ∈ "-.infa".toList, P c) (x : FloatValue) : ∀ c ∈ printFixed p x, P c := by
  have hsign : ∀ neg, ∀ c ∈ printSign neg, P c := by
    intro neg c hc
    cases neg with
    | false => exact absurd hc List.not_mem_nil
    | true => exact List.mem_singleton.mp hc ▸ hother '-' (by decide)
  have hinf : "inf".toList ⊆ "-.infa".toList := by simp
  have hnan : "nan".toList ⊆ "-.infa".toList := by simp
  cases x with
  | inf neg => exact List.forall_mem_append.mpr ⟨hsign neg, fun c hc => hother c (hinf hc)⟩
  | nan neg => exact List.forall_mem_append.mpr ⟨hsign neg, fun c hc => hother c (hnan hc)⟩
  | finite neg magnitude =>
      refine List.forall_mem_append.mpr ⟨hsign neg, List.forall_mem_append.mpr ⟨?_, ?_⟩⟩
      · exact fun c hc => hdigit c (Nat.isDigit_of_mem_toDigits (by decide) (by decide) hc)
      · exact List.forall_mem_cons.mpr
          ⟨hother '.' (by decide), fun c hc => hdigit c (isDigit_of_mem_padded hc)⟩

/-- Rounding stays within an integer bound. -/
theorem roundHalfEven_le {q : ℚ≥0} {n : ℕ} (hq : q ≤ n) : roundHalfEven q ≤ n := by
  have hround := (abs_le.mp (abs_roundHalfEven_sub_le q)).2
  have hqn : (q : ℚ) ≤ n := by exact_mod_cast hq
  have hlt : (roundHalfEven q : ℚ) < (n + 1 : ℕ) := by
    push_cast
    linarith
  exact Nat.lt_succ_iff.mp (by exact_mod_cast hlt)

/-- The length of `%.pf`, by the digits in front of the point. -/
theorem length_printFixed_le {p k n : ℕ} (hp : 0 < p) (hk : 2 < k) (hn : n < 10 ^ k)
    {x : FloatValue} (hx : x.AtMost n) : (printFixed p x).length ≤ k + p + 2 := by
  have hsign : ∀ neg, (printSign neg).length ≤ 1 := by decide
  cases x with
  | inf neg =>
      have hneg := hsign neg
      rw [printFixed, List.length_append, show "inf".toList.length = 3 from rfl]
      omega
  | nan neg =>
      have hneg := hsign neg
      rw [printFixed, List.length_append, show "nan".toList.length = 3 from rfl]
      omega
  | finite neg magnitude =>
      have hneg := hsign neg
      have hpow : 0 < 10 ^ p := by positivity
      have hscaled : magnitude * 10 ^ p ≤ (n * 10 ^ p : ℕ) := by
        push_cast
        exact mul_le_mul_left hx _
      have hunits : roundHalfEven (magnitude * 10 ^ p) / 10 ^ p < 10 ^ k :=
        (Nat.div_le_of_le_mul (by
          rw [Nat.mul_comm]
          exact roundHalfEven_le hscaled)).trans_lt hn
      have hint := (Nat.length_toDigits_le_iff (by decide : 1 < 10) (by omega : 0 < k)).mpr hunits
      have hfrac := length_padded hp (Nat.mod_lt (roundHalfEven (magnitude * 10 ^ p)) hpow)
      rw [printFixed, printUnits, List.length_append, List.length_append, List.length_cons, hfrac]
      omega

end Printf
