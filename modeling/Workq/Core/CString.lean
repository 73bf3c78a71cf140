import Mathlib.Algebra.Field.Rat
import Mathlib.Data.List.TakeWhile
import Mathlib.Data.Rat.Cast.CharZero

/-!
# C strings and their conversions

Text is a list of characters. `cstr` is what a NUL-terminated copy keeps of it,
`formatLong` is the conversion `%ld`, `snprintf` cuts a formatted text to its
buffer, and `atoi` reads a leading decimal number the way the C library does:
`strtol` saturates at the 64-bit range and the result is narrowed to 32 bits.
`leadingDecimal` reads a number with a fraction, which is what a comparison of a
text with a number does in SQL. `printf` is formatting with the conversions `%s` and `%d`.
-/

namespace Workq.Core

/-- The part of a buffer that a NUL-terminated copy keeps. -/
def cstr (s : List Char) : List Char := s.takeWhile (· ≠ '\x00')

/-- A text without NUL is its own C string. -/
theorem cstr_eq_self {s : List Char} (h : '\x00' ∉ s) : cstr s = s := by
  rw [cstr, List.takeWhile_eq_self_iff]
  intro c hc
  simp only [ne_eq, decide_eq_true_eq]
  intro he
  exact h (he ▸ hc)

/-- Cutting at the first NUL twice cuts nothing more. -/
@[simp] theorem cstr_cstr (s : List Char) : cstr (cstr s) = cstr s :=
  List.takeWhile_idem ..

/-- `!strcmp(a, b)`. -/
def strEqual (a b : List Char) : Bool := cstr a = cstr b

/-- The conversion `%ld`. -/
def formatLong : Int → List Char
  | .ofNat n => Nat.toDigits 10 n
  | .negSucc n => '-' :: Nat.toDigits 10 (n + 1)

theorem formatLong_ne_nil (i : Int) : formatLong i ≠ [] := by
  cases i with
  | ofNat n => exact Nat.toDigits_ne_nil
  | negSucc n => exact List.cons_ne_nil _ _

/-- A formatted text as it is left in a buffer of the given size, terminator included. -/
def snprintf (size : Nat) (text : List Char) : List Char := text.take (size - 1)

/-- The C library's `isspace` in the default locale. -/
def isSpace (c : Char) : Bool := c = ' ' ∨ ('\t' ≤ c ∧ c ≤ '\r')

/-- The value of the leading decimal digits. -/
def leadingNat (s : List Char) : Nat :=
  (s.takeWhile Char.isDigit).foldl (fun n c => 10 * n + (c.toNat - '0'.toNat)) 0

/-- The integer at the start of a text, zero when there is none. -/
def leadingInt (s : List Char) : Int :=
  match s.dropWhile isSpace with
  | '-' :: ds => -(leadingNat ds : Int)
  | '+' :: ds => leadingNat ds
  | ds => leadingNat ds

/-- A text that starts with a digit other than zero has a positive leading number. -/
theorem leadingNat_pos {c : Char} {s : List Char} (hd : c.isDigit = true) (h0 : c ≠ '0') :
    0 < leadingNat (c :: s) := by
  have hpos : ∀ (n : Nat) (s : List Char), 0 < n →
      0 < s.foldl (fun n c => 10 * n + (c.toNat - '0'.toNat)) n := by
    intro n s hn
    induction s generalizing n with
    | nil => exact hn
    | cons c s ih => exact ih _ (Nat.add_pos_left (Nat.mul_pos (by decide) hn) _)
  have hge : '0'.toNat ≤ c.toNat := by
    simp only [Char.isDigit, Bool.and_eq_true, decide_eq_true_eq] at hd
    exact hd.1
  have hne : c.toNat ≠ '0'.toNat := fun h => h0 (Char.toNat_inj.mp h)
  rw [leadingNat, List.takeWhile_cons_of_pos hd, List.foldl_cons]
  exact hpos _ _ (by omega)

/-- The value of the leading digits and of the fraction behind them. -/
def unsignedDecimal (s : List Char) : ℚ :=
  let digits := s.takeWhile Char.isDigit
  let fraction := match s.drop digits.length with
    | '.' :: ds => ds.takeWhile Char.isDigit
    | _ => []
  leadingNat (digits ++ fraction) / 10 ^ fraction.length

/-- The decimal number at the start of a text, zero when there is none. -/
def leadingDecimal (s : List Char) : ℚ :=
  match s.dropWhile isSpace with
  | '-' :: ds => -unsignedDecimal ds
  | '+' :: ds => unsignedDecimal ds
  | ds => unsignedDecimal ds

/-- A text that starts with a digit other than zero does not read as zero. -/
theorem leadingDecimal_ne_zero {c : Char} {s : List Char} (hd : c.isDigit = true)
    (h0 : c ≠ '0') : leadingDecimal (c :: s) ≠ 0 := by
  have hspace : isSpace c = false := by
    by_contra hs
    simp only [Bool.not_eq_false, isSpace, decide_eq_true_eq] at hs
    simp only [Char.isDigit, Bool.and_eq_true, decide_eq_true_eq] at hd
    rcases hs with rfl | hs
    · exact absurd hd (by decide)
    · have h : '0'.val ≤ '\r'.val := UInt32.le_trans hd.1 hs.2
      exact absurd h (by decide)
  have hminus : c ≠ '-' := by
    rintro rfl
    exact absurd hd (by decide)
  have hplus : c ≠ '+' := by
    rintro rfl
    exact absurd hd (by decide)
  have hnum : ∀ fraction : List Char,
      leadingNat ((c :: s).takeWhile Char.isDigit ++ fraction) ≠ 0 := by
    intro fraction
    rw [List.takeWhile_cons_of_pos hd, List.cons_append]
    exact (leadingNat_pos hd h0).ne'
  rw [leadingDecimal, List.dropWhile_cons_of_neg (by rw [hspace]; decide)]
  split
  · exact absurd (List.cons.inj ‹_›).1 hminus
  · exact absurd (List.cons.inj ‹_›).1 hplus
  · exact div_ne_zero (Nat.cast_ne_zero.mpr (hnum _)) (pow_ne_zero _ (by decide))

/-- A positive number is written with a leading digit other than zero. -/
theorem toDigits_head {n : Nat} (hn : 0 < n) :
    ∃ c cs, Nat.toDigits 10 n = c :: cs ∧ c.isDigit = true ∧ c ≠ '0' := by
  induction n using Nat.strongRecOn with
  | ind n ih =>
    rcases Nat.lt_or_ge n 10 with h | h
    · refine ⟨n.digitChar, [], Nat.toDigits_of_lt_base h, ?_, ?_⟩
      · rw [Nat.isDigit_digitChar, decide_eq_true h]
      · exact fun h0 => hn.ne' (Nat.digitChar_eq_zero.mp h0)
    · obtain ⟨c, cs, hcs, hc⟩ := ih (n / 10) (by omega) (by omega)
      rw [Nat.toDigits_of_base_le (by decide) h, hcs]
      exact ⟨c, cs ++ [Nat.digitChar (n % 10)], rfl, hc⟩

/-- The digits of a number tell it. -/
theorem toDigits_injective : Function.Injective (Nat.toDigits 10) := by
  intro m n h
  rw [← Nat.ofDigitChars_ten_toDigits (n := m), h, Nat.ofDigitChars_ten_toDigits]

theorem formatLong_injective : Function.Injective formatLong := by
  have hminus : ∀ m n, Nat.toDigits 10 m ≠ '-' :: Nat.toDigits 10 n := by
    intro m n h
    have hdigit : '-'.isDigit = true :=
      Nat.isDigit_of_mem_toDigits (by decide) (by decide) (h ▸ List.mem_cons_self)
    exact absurd hdigit (by decide)
  intro i j h
  cases i with
  | ofNat m =>
    cases j with
    | ofNat n => exact congrArg Int.ofNat (toDigits_injective h)
    | negSucc n => exact absurd h (hminus m (n + 1))
  | negSucc m =>
    cases j with
    | ofNat n => exact absurd h.symm (hminus n (m + 1))
    | negSucc n =>
      have hsucc := toDigits_injective (List.cons.inj h).2
      exact congrArg Int.negSucc (Nat.succ.inj hsucc)

/-- A formatted number has only digits, and perhaps a sign. -/
theorem notMem_formatLong {c : Char} (hdigit : c.isDigit = false) (hminus : c ≠ '-') (i : Int) :
    c ∉ formatLong i := by
  have hdigits : ∀ n, c ∉ Nat.toDigits 10 n := by
    intro n hc
    rw [Nat.isDigit_of_mem_toDigits (by decide) (by decide) hc] at hdigit
    contradiction
  cases i with
  | ofNat n => exact hdigits n
  | negSucc n =>
    rw [formatLong, List.mem_cons, not_or]
    exact ⟨hminus, hdigits (n + 1)⟩

/-- The number of digits is bounded by the power of ten above the number. -/
theorem length_formatLong_le {i : Int} {k : Nat} (h0 : 0 ≤ i) (hk : 0 < k) (hi : i < 10 ^ k) :
    (formatLong i).length ≤ k := by
  obtain ⟨n, rfl⟩ := Int.eq_ofNat_of_zero_le h0
  refine (Nat.length_toDigits_le_iff (by decide) hk).mpr ?_
  exact_mod_cast hi

/-- What a cut behind a separator keeps. -/
theorem take_append_separator {α : Type*} {a : List α} {n : Nat} (hn : a.length < n) (c : α)
    (x : List α) : (a ++ c :: x).take n = a ++ c :: x.take (n - a.length - 1) := by
  obtain ⟨m, rfl⟩ := Nat.exists_eq_add_of_lt hn
  rw [Nat.add_assoc, List.take_length_add_append, List.take_succ_cons]
  congr 3
  omega

/-- The text before the first separator and the text behind it are determined. -/
theorem append_separator_inj {α : Type*} {c : α} {a b x y : List α} (ha : c ∉ a) (hb : c ∉ b)
    (h : a ++ c :: x = b ++ c :: y) : a = b ∧ x = y := by
  induction a generalizing b with
  | nil =>
    cases b with
    | nil => exact ⟨rfl, (List.cons.inj h).2⟩
    | cons e b => exact absurd ((List.cons.inj h).1 ▸ List.mem_cons_self) hb
  | cons d a ih =>
    cases b with
    | nil => exact absurd ((List.cons.inj h).1.symm ▸ List.mem_cons_self) ha
    | cons e b =>
      obtain ⟨rfl, hrest⟩ := List.cons.inj h
      rw [List.mem_cons, not_or] at ha hb
      obtain ⟨rfl, hx⟩ := ih ha.2 hb.2 hrest
      exact ⟨rfl, hx⟩

/-- Two texts are equal up to a cut behind their first separators exactly if they agree
before the separators, and behind them up to the cut. -/
theorem take_append_separator_eq_iff {α : Type*} {c : α} {a b x y : List α} {n : Nat}
    (ha : c ∉ a) (hb : c ∉ b) (hna : a.length < n) (hnb : b.length < n) :
    (a ++ c :: x).take n = (b ++ c :: y).take n ↔
      a = b ∧ x.take (n - a.length - 1) = y.take (n - a.length - 1) := by
  rw [take_append_separator hna, take_append_separator hnb]
  constructor
  · intro h
    obtain ⟨rfl, hcut⟩ := append_separator_inj ha hb h
    exact ⟨rfl, hcut⟩
  · rintro ⟨rfl, hcut⟩
    rw [hcut]

/-- The range of a 64-bit `long`. -/
def longMin : Int := -0x8000000000000000

def longMax : Int := 0x7fffffffffffffff

/-- `atoi`: `strtol` saturating at the range of `long`, narrowed to a 32-bit `int`. -/
def atoi (s : List Char) : Int :=
  (max longMin (min longMax (leadingInt s))).bmod 0x100000000

theorem leadingNat_toDigits (n : Nat) : leadingNat (Nat.toDigits 10 n) = n := by
  have hdigits : (Nat.toDigits 10 n).takeWhile Char.isDigit = Nat.toDigits 10 n := by
    rw [List.takeWhile_eq_self_iff]
    intro c hc
    exact Nat.isDigit_of_mem_toDigits (by decide) (by decide) hc
  rw [leadingNat, hdigits]
  exact Nat.ofDigitChars_ten_toDigits

theorem isSpace_of_isDigit {c : Char} (hc : c.isDigit = true) : isSpace c = false := by
  simp only [Char.isDigit, Bool.and_eq_true, decide_eq_true_eq] at hc
  rw [isSpace, decide_eq_false_iff_not, not_or]
  refine ⟨?_, ?_⟩
  · rintro rfl
    exact absurd hc.1 (by decide)
  · rintro ⟨_, hle⟩
    have hlow : '0'.val ≤ c.val := hc.1
    exact absurd (UInt32.le_trans hlow hle) (by decide)

/-- A text that starts with a digit has no sign. -/
theorem leadingInt_of_isDigit {c : Char} {cs : List Char} (hc : c.isDigit = true) :
    leadingInt (c :: cs) = leadingNat (c :: cs) := by
  rw [leadingInt, List.dropWhile_cons_of_neg (by simp [isSpace_of_isDigit hc])]
  split
  · rename_i heq
    rw [(List.cons.inj heq).1] at hc
    exact absurd hc (by decide)
  · rename_i heq
    rw [(List.cons.inj heq).1] at hc
    exact absurd hc (by decide)
  · rfl

/-- Reading a number back. -/
theorem leadingInt_formatLong (i : Int) : leadingInt (formatLong i) = i := by
  cases i with
  | negSucc n =>
    have hsign : leadingInt ('-' :: Nat.toDigits 10 (n + 1)) =
        -(leadingNat (Nat.toDigits 10 (n + 1)) : Int) := rfl
    rw [formatLong, hsign, leadingNat_toDigits]
    rfl
  | ofNat n =>
    have hread := leadingNat_toDigits n
    rw [formatLong]
    cases hd : Nat.toDigits 10 n with
    | nil => exact absurd hd Nat.toDigits_ne_nil
    | cons c cs =>
      have hc : c.isDigit = true :=
        Nat.isDigit_of_mem_toDigits (by decide) (by decide) (hd ▸ List.mem_cons_self)
      rw [leadingInt_of_isDigit hc, ← hd, hread]
      rfl

/-- `atoi` reads back what `%ld` wrote of a number in the range of an `int`. -/
theorem atoi_formatLong {i : Int} (hlow : -0x80000000 ≤ i) (hhigh : i < 0x80000000) :
    atoi (formatLong i) = i := by
  have hmin : longMin ≤ i := le_trans (by decide) hlow
  have hmax : i ≤ longMax := le_trans hhigh.le (by decide)
  rw [atoi, leadingInt_formatLong, min_eq_right hmax, max_eq_right hmin]
  rw [Int.bmod_eq_of_le (by omega) (by omega)]

section Formatting

/-- An argument of `%s` or of `%d`. -/
inductive Arg where
  | s (text : List Char)
  | d (i : Int)
  deriving DecidableEq, Repr

/-- Formatting; `none` where a conversion is another one, or not that of its argument. -/
def printf : List Char → List Arg → Option (List Char)
  | [], _ => some []
  | '%' :: 's' :: format, .s text :: args => (printf format args).map fun out => text ++ out
  | '%' :: 'd' :: format, .d i :: args => (printf format args).map fun out => formatLong i ++ out
  | '%' :: _, _ => none
  | c :: format, args => (printf format args).map fun out => c :: out

theorem printf_cons {c : Char} (hc : c ≠ '%') (format : List Char) (args : List Arg) :
    printf (c :: format) args = (printf format args).map fun out => c :: out := by
  rw [printf]
  all_goals
    intros
    exact hc ‹c = '%'›

/-- What stands between the conversions is copied. -/
theorem printf_append {a : List Char} (ha : '%' ∉ a) (format : List Char) (args : List Arg) :
    printf (a ++ format) args = (printf format args).map fun out => a ++ out := by
  induction a with
  | nil => exact Option.map_id'.symm
  | cons c a ih =>
    rw [List.mem_cons, not_or] at ha
    rw [List.cons_append, printf_cons (Ne.symm ha.1), ih ha.2, Option.map_map]
    rfl

theorem printf_eq_self {a : List Char} (ha : '%' ∉ a) (args : List Arg) :
    printf a args = some a := by
  have happend := printf_append ha [] args
  rwa [List.append_nil, printf, Option.map_some, List.append_nil] at happend

end Formatting

end Workq.Core
