import Mathlib.Data.List.TakeWhile
import Mathlib.Order.Basic
import MonikerIndex.Json.Scan

/-!
# Tokens

How the scanner passes the three words, numbers and quoted texts. Where a word or a quoted text is
over shows at its last character. A number is over only at the character behind it, which must be
one that does not extend the number; so what the scanner has of a value at its end is described by
`Scan.Ends`, which says what the next character does.
-/

namespace MonikerIndex

/-! ### Values of numbers -/

namespace Numeral

theorem le_ofDigitChars (digits : List Char) (start : Nat) :
    start ≤ Nat.ofDigitChars 10 digits start := by
  induction digits generalizing start with
  | nil => exact Nat.le_refl start
  | cons digit digits ih =>
    rw [Nat.ofDigitChars_cons]
    have hnext := ih (10 * start + (digit.toNat - '0'.toNat))
    omega

/-- As long as the whole number fits, no digit is dropped. -/
theorem absorb_eq (digits : List Char) (start : Nat)
    (hfits : Nat.ofDigitChars 10 digits start < UInt64.size) :
    absorb start digits = (Nat.ofDigitChars 10 digits start, []) := by
  induction digits generalizing start with
  | nil => rfl
  | cons digit digits ih =>
    rw [Nat.ofDigitChars_cons] at hfits ⊢
    have hnext := le_ofDigitChars digits (10 * start + (digit.toNat - '0'.toNat))
    have hlt : 10 * start + (digit.toNat - 48) < UInt64.size := Nat.lt_of_le_of_lt hnext hfits
    rw [absorb, if_pos hlt]
    exact ih _ hfits

theorem nearestDouble_le {n : Nat} (hn : 0 < n) : nearestDouble n ≤ 2 * n := by
  have hunit : Nat.pow 2 (Nat.log2 n - 52) ≤ n := by
    calc Nat.pow 2 (Nat.log2 n - 52) ≤ 2 ^ Nat.log2 n :=
          Nat.pow_le_pow_right (by decide) (Nat.sub_le _ _)
      _ ≤ n := Nat.log2_self_le (Nat.pos_iff_ne_zero.mp hn)
  have hbelow := Nat.div_mul_le_self n (Nat.pow 2 (Nat.log2 n - 52))
  unfold nearestDouble
  simp only
  split
  · omega
  · rw [Nat.add_mul]
    omega

theorem isFinite_natural {n : Nat} (hn : n < UInt64.size) : isFinite ⟨n, 0⟩ = true := by
  by_cases hzero : n = 0
  · simp [isFinite, hzero]
  · have hdouble := nearestDouble_le (Nat.pos_of_ne_zero hzero)
    have hone : nearestDouble 1 = 1 := by decide +kernel
    have hroom : 2 * UInt64.size < overflow := by decide +kernel
    have hsmall : nearestDouble n < overflow := by omega
    simp [isFinite, hone, hsmall]

/-- Plain digits are taken as they are: nothing in them is a sign, a point or a mark. -/
theorem ofToken_digits {digits : List Char} (hdigits : ∀ c ∈ digits, c.isDigit = true)
    (hfits : Nat.ofDigitChars 10 digits 0 < UInt64.size) :
    ofToken digits = ⟨Nat.ofDigitChars 10 digits 0, 0⟩ := by
  have hne {c d : Char} (hc : c ∈ digits) (hd : d.isDigit = false) : c ≠ d := by
    intro heq
    rw [heq] at hc
    rw [hdigits d hc] at hd
    cases hd
  have hsign : digits.dropWhile (· == '-') = digits := by
    cases digits with
    | nil => rfl
    | cons c rest =>
      rw [List.dropWhile_cons_of_neg]
      simpa using hne (d := '-') List.mem_cons_self (by decide)
  have hmark : ∀ c ∈ digits, (c != 'e' && c != 'E') = true := by
    intro c hc
    simp [hne (d := 'e') hc (by decide), hne (d := 'E') hc (by decide)]
  have hpoint : ∀ c ∈ digits, (c != '.') = true := by
    intro c hc
    simp [hne (d := '.') hc (by decide)]
  simp only [ofToken, hsign, List.takeWhile_eq_self_iff.mpr hmark,
    List.dropWhile_eq_nil_iff.mpr hmark, List.takeWhile_eq_self_iff.mpr hpoint,
    List.dropWhile_eq_nil_iff.mpr hpoint, List.drop_nil, absorb_eq _ _ hfits]
  rfl

theorem reading_decimal {n : Nat} (hn : n < UInt64.size) :
    reading (Json.decimal n) = .nat n := by
  have hdigits : ∀ c ∈ Json.decimal n, c.isDigit = true := by
    intro c hc
    exact Nat.isDigit_of_mem_toDigits (by decide) (by decide) hc
  have hvalue : Nat.ofDigitChars 10 (Json.decimal n) 0 = n := Nat.ofDigitChars_ten_toDigits
  have htoken : ofToken (Json.decimal n) = ⟨n, 0⟩ := by
    rw [ofToken_digits hdigits (by rw [hvalue]; exact hn), hvalue]
  rw [reading, htoken, isFinite_natural hn, hvalue, List.all_eq_true.mpr hdigits]
  rfl

end Numeral

/-- A number other than zero is not written with a leading zero. -/
theorem Json.exists_decimal_eq_cons {n : Nat} (hn : 0 < n) :
    ∃ c rest, Json.decimal n = c :: rest ∧ c ≠ '0' := by
  induction n using Nat.strongRecOn with
  | ind n ih =>
    by_cases hlt : n < 10
    · refine ⟨n.digitChar, [], Nat.toDigits_of_lt_base hlt, ?_⟩
      intro hzero
      have hvalue : n.digitChar.toNat - 48 = n := Nat.toNat_digitChar_sub_48_of_lt_ten hlt
      rw [hzero] at hvalue
      exact absurd hvalue.symm (Nat.pos_iff_ne_zero.mp hn)
    · obtain ⟨c, rest, heq, hc⟩ := ih (n / 10) (by omega) (by omega)
      refine ⟨c, rest ++ [(n % 10).digitChar], ?_, hc⟩
      unfold decimal at heq ⊢
      rw [Nat.toDigits_of_base_le (by decide) (by omega), heq]
      rfl

namespace Scan

@[simp] theorem run_nil (scan : Scan) : scan.run [] = scan := rfl

@[simp] theorem run_cons (scan : Scan) (c : Char) (chars : List Char) :
    scan.run (c :: chars) = (scan.step c).run chars := rfl

@[simp] theorem run_append (scan : Scan) (first second : List Char) :
    scan.run (first ++ second) = (scan.run first).run second :=
  List.foldl_append

/-! ### Ends of values -/

/-- The characters that may stand behind a value. -/
def Closes (c : Char) : Prop :=
  isBlank c = true ∨ c = ',' ∨ c = ']' ∨ c = '\x7d'

/-- A value is over: the scanner goes on as behind the value, at any character that may stand
    there and at the end of the text. -/
structure Ends (scan : Scan) (slot : Context) (value : Reading) : Prop where
  step_eq : ∀ c, Closes c → scan.step c = afterValue slot value c
  settle_eq : scan.settle = complete slot value

theorem ends_complete (slot : Context) (value : Reading) :
    (complete slot value).Ends slot value := by
  cases slot with
  | top => exact ⟨fun _ _ => rfl, rfl⟩
  | item before outer => exact ⟨fun _ _ => rfl, rfl⟩
  | member before key outer => exact ⟨fun _ _ => rfl, rfl⟩

theorem isBlank_iff {c : Char} : isBlank c = true ↔ c = ' ' ∨ c = '\n' ∨ c = '\t' ∨ c = '\r' := by
  simp [isBlank, or_assoc]

/-! ### Numbers -/

/-- Nothing that may stand behind a value extends a number without fraction and exponent. -/
theorem ends_number {part : NumberPart} (hpart : part = .zero ∨ part = .whole) (token : List Char)
    (slot : Context) : (Scan.number part token slot).Ends slot (Numeral.reading token.reverse) := by
  constructor
  · intro c hc
    rw [Closes, isBlank_iff] at hc
    rcases hpart with rfl | rfl <;>
      rcases hc with (rfl | rfl | rfl | rfl) | rfl | rfl | rfl <;> rfl
  · rcases hpart with rfl | rfl <;> rfl

theorem run_digits (digits token : List Char) (slot : Context)
    (hdigits : ∀ c ∈ digits, c.isDigit = true) :
    (Scan.number .whole token slot).run digits = .number .whole (digits.reverse ++ token) slot := by
  induction digits generalizing token with
  | nil => rfl
  | cons c rest ih =>
    have hc : c.isDigit = true := hdigits c List.mem_cons_self
    have hstep : (Scan.number .whole token slot).step c = .number .whole (c :: token) slot := by
      simp [step, inNumber, NumberPart.next, hc]
    rw [run_cons, hstep, ih _ fun d hd => hdigits d (List.mem_cons_of_mem c hd)]
    simp

theorem ne_of_isDigit {c d : Char} (hc : c.isDigit = true) (hd : d.isDigit = false) : c ≠ d := by
  rintro rfl
  rw [hc] at hd
  cases hd

theorem isBlank_of_isDigit {c : Char} (hc : c.isDigit = true) : isBlank c = false := by
  rw [← Bool.not_eq_true, isBlank_iff]
  rintro (rfl | rfl | rfl | rfl) <;> cases hc

/-- A digit other than zero starts a number of any length. -/
theorem step_value_digit {c : Char} (hc : c.isDigit = true) (hzero : c ≠ '0') (slot : Context) :
    (Scan.value slot).step c = .number .whole [c] slot := by
  have hbrace : c ≠ '\x7b' := ne_of_isDigit hc (by decide)
  have hbracket : c ≠ '[' := ne_of_isDigit hc (by decide)
  have hquote : c ≠ '"' := ne_of_isDigit hc (by decide)
  have hminus : c ≠ '-' := ne_of_isDigit hc (by decide)
  simp [step, startValue, isBlank_of_isDigit hc, hc, hzero, hbrace, hbracket, hquote, hminus]

theorem run_decimal {n : Nat} (hn : n < UInt64.size) (slot : Context) :
    ((Scan.value slot).run (Json.decimal n)).Ends slot (.nat n) := by
  rw [← Numeral.reading_decimal hn]
  by_cases hzero : n = 0
  · subst hzero
    exact ends_number (.inl rfl) ['0'] slot
  · obtain ⟨c, rest, heq, hc⟩ := Json.exists_decimal_eq_cons (Nat.pos_of_ne_zero hzero)
    have hdigit : ∀ d ∈ c :: rest, d.isDigit = true := by
      rw [← heq]
      exact fun d hd => Nat.isDigit_of_mem_toDigits (by decide) (by decide) hd
    have hrun : (Scan.value slot).run (c :: rest) = .number .whole (c :: rest).reverse slot := by
      rw [run_cons, step_value_digit (hdigit c List.mem_cons_self) hc,
        run_digits _ _ _ fun d hd => hdigit d (List.mem_cons_of_mem c hd)]
      simp
    have hend := ends_number (.inr rfl) (c :: rest).reverse slot
    rw [heq, hrun]
    rwa [List.reverse_reverse] at hend

/-! ### Quoted texts -/

/-- A quoted text whose characters so far, the newest first, are the given ones. -/
def taken (chars : List Char) : TextScan := ⟨chars, none, true, .plain⟩

theorem hexValue_hexDigit : ∀ n < 16, TextScan.hexValue (Json.hexDigit n) = some n := by
  decide

theorem utf8Size_hexDigit : ∀ n < 16, (Json.hexDigit n).utf8Size = 1 := by
  decide

/-- A digit of a hexadecimal escape that is not its last one. -/
theorem step_hexDigit {left n : Nat} (hleft : 1 < left) (hn : n < 16) (chars : List Char)
    (high : Nat) (role : TextRole) :
    (Scan.text ⟨chars, none, true, .hex left (some high)⟩ role).step (Json.hexDigit n) =
      .text ⟨chars, none, true, .hex (left - 1) (some (16 * high + n))⟩ role := by
  simp [step, inText, TextScan.closes, TextScan.step, hexValue_hexDigit n hn,
    utf8Size_hexDigit n hn, hleft]

/-- The last digit of an escape that stands for no surrogate. -/
theorem step_lastHexDigit (high : Nat) {n : Nat} (hn : n < 16) (hunit : 16 * high + n < 0xD800)
    (chars : List Char) (role : TextRole) :
    (Scan.text ⟨chars, none, true, .hex 1 (some high)⟩ role).step (Json.hexDigit n) =
      .text (taken (Char.ofNat (16 * high + n) :: chars)) role := by
  have hlead : ¬ 0xD800 ≤ 16 * high + n := by omega
  have htrail : ¬ 0xDC00 ≤ 16 * high + n := by omega
  simp [step, inText, TextScan.closes, TextScan.step, hexValue_hexDigit n hn,
    utf8Size_hexDigit n hn, TextScan.pushUnit, TextScan.push, taken, hlead, htrail]

theorem run_hexEscape {n : Nat} (hn : n < 32) (chars : List Char) (role : TextRole) :
    (Scan.text (taken chars) role).run
      ['\\', 'u', '0', '0', Json.hexDigit (n / 16), Json.hexDigit (n % 16)] =
        .text (taken (Char.ofNat n :: chars)) role := by
  have hopen : (Scan.text (taken chars) role).run ['\\', 'u', Json.hexDigit 0, Json.hexDigit 0] =
      .text ⟨chars, none, true, .hex 2 (some 0)⟩ role := by
    rfl
  have hvalue : 16 * (16 * 0 + n / 16) + n % 16 = n := by omega
  calc (Scan.text (taken chars) role).run
        (['\\', 'u', Json.hexDigit 0, Json.hexDigit 0] ++
          [Json.hexDigit (n / 16), Json.hexDigit (n % 16)])
      = (Scan.text ⟨chars, none, true, .hex 2 (some 0)⟩ role).run
          [Json.hexDigit (n / 16), Json.hexDigit (n % 16)] := by rw [run_append, hopen]
    _ = (Scan.text ⟨chars, none, true, .hex 1 (some (16 * 0 + n / 16))⟩ role).run
          [Json.hexDigit (n % 16)] := by
        rw [run_cons, step_hexDigit (by decide) (by omega)]
    _ = .text (taken (Char.ofNat n :: chars)) role := by
        rw [run_cons, run_nil, step_lastHexDigit _ (Nat.mod_lt n (by decide)) (by omega), hvalue]

/-- One escaped character adds that character. -/
theorem run_escape (chars : List Char) (role : TextRole) (c : Char) :
    (Scan.text (taken chars) role).run (Json.escape c) = .text (taken (c :: chars)) role := by
  unfold Json.escape
  split_ifs with hquote hback hline htab hreturn hback' hfeed hcontrol
  · subst hquote; rfl
  · subst hback; rfl
  · subst hline; rfl
  · subst htab; rfl
  · subst hreturn; rfl
  · rw [← Char.ofNat_toNat c, hback']; rfl
  · rw [← Char.ofNat_toNat c, hfeed]; rfl
  · rw [run_hexEscape hcontrol, Char.ofNat_toNat]
  · simp [step, inText, TextScan.closes, TextScan.step, taken, hquote, hback, hcontrol,
      TextScan.push]

theorem run_escapes (text chars : List Char) (role : TextRole) :
    (Scan.text (taken chars) role).run (text.flatMap Json.escape) =
      .text (taken (text.reverse ++ chars)) role := by
  induction text generalizing chars with
  | nil => rfl
  | cons c rest ih =>
    rw [List.flatMap_cons, run_append, run_escape, ih]
    simp

theorem result_taken (s : String) : (taken (s.toList.reverse ++ [])).result = some s := by
  simp [TextScan.result, taken]

/-- A quoted text where a value stands. -/
theorem run_quote (s : String) (slot : Context) :
    (Scan.value slot).run (Json.quote s) = complete slot (.text s) := by
  have hopen : (Scan.value slot).step '"' = .text (taken []) (.value slot) := rfl
  rw [Json.quote, run_cons, hopen, run_append, run_escapes, run_cons, run_nil]
  change complete slot ((taken (s.toList.reverse ++ [])).result.elim .refused .text) = _
  rw [result_taken]
  rfl

/-- A quoted text where a key stands, with its opening quotation mark read. -/
theorem run_key (s : String) (members : List (Option String × Reading)) (outer : Context) :
    (startKey members outer '"').run (s.toList.flatMap Json.escape ++ ['"']) =
      .colon members (some s) outer := by
  have hopen : startKey members outer '"' = .text (taken []) (.key members outer) := rfl
  rw [hopen, run_append, run_escapes, run_cons, run_nil]
  change Scan.colon members (taken (s.toList.reverse ++ [])).result outer = _
  rw [result_taken]

end Scan

end MonikerIndex
