import Mathlib
import Ls8.Text.Numeral

/-! Numbers that were written are read back: in any radix up to ten, with or without leading
zeros. -/
namespace Ls8.Text

/-- Only digits of the radix; a digit has its distance from `0` as value. -/
def Digits (radix : Nat) (s : List Char) : Prop :=
  ∀ c ∈ s, digit? radix c = some (c.toNat - '0'.toNat)

theorem digit?_digitChar {radix d : Nat} (small : radix ≤ 10) (h : d < radix) :
    digit? radix d.digitChar = some d := by
  have table : ∀ d < 10, digit? 10 d.digitChar = some d := by decide
  have ten := table d (Nat.lt_of_lt_of_le h small)
  obtain ⟨known, below⟩ := Option.filter_eq_some_iff.mp ten
  exact Option.filter_eq_some_iff.mpr ⟨known, decide_eq_true h⟩

theorem digits_toDigits {radix : Nat} (large : 1 < radix) (small : radix ≤ 10) (n : Nat) :
    Digits radix (Nat.toDigits radix n) := by
  have last : ∀ d < radix, Digits radix [d.digitChar] := by
    intro d h c member
    rw [List.mem_singleton] at member
    have value : d.digitChar.toNat - '0'.toNat = d :=
      Nat.toNat_digitChar_sub_48_of_lt_ten (Nat.lt_of_lt_of_le h small)
    rw [member, value]
    exact digit?_digitChar small h
  induction n using Nat.base_induction radix large with
  | single m h =>
    rw [Nat.toDigits_of_lt_base h]
    exact last m h
  | digit m k h positive ih =>
    rw [← Nat.toDigits_append_toDigits large positive h, Nat.toDigits_of_lt_base h]
    intro c member
    rcases List.mem_append.mp member with front | ends
    · exact ih c front
    · exact last k h c ends

theorem digit?_zero {radix : Nat} (positive : 0 < radix) : digit? radix '0' = some 0 := by
  simp [digit?, positive]

theorem digits_padLeft {radix : Nat} (positive : 0 < radix) {s : List Char} (width : Nat)
    (h : Digits radix s) : Digits radix (padLeft '0' width s) := by
  have zero : digit? radix '0' = some ('0'.toNat - '0'.toNat) :=
    digit?_zero positive
  intro c member
  rcases List.mem_append.mp member with front | rest
  · rw [List.eq_of_mem_replicate front]
    exact zero
  · exact h c rest

theorem natural?_of_digits {radix : Nat} {s : List Char} (some_digit : s ≠ [])
    (h : Digits radix s) : natural? radix s = some (Nat.ofDigitChars radix s 0) := by
  have fold : ∀ n, s.foldlM (fun n c => (digit? radix c).map (radix * n + ·)) n =
      some (Nat.ofDigitChars radix s n) := by
    clear some_digit
    induction s with
    | nil => intro n; simp
    | cons c s ih =>
      intro n
      rw [List.foldlM_cons, h c List.mem_cons_self, Nat.ofDigitChars_cons]
      exact ih (fun d member => h d (List.mem_cons_of_mem c member)) _
  simp [natural?, some_digit, fold]

theorem ofDigitChars_padLeft (radix width : Nat) (s : List Char) :
    Nat.ofDigitChars radix (padLeft '0' width s) 0 = Nat.ofDigitChars radix s 0 := by
  simp [padLeft, Nat.ofDigitChars_append]

theorem natural?_padLeft_toDigits {radix : Nat} (large : 1 < radix) (small : radix ≤ 10)
    (width n : Nat) : natural? radix (padLeft '0' width (Nat.toDigits radix n)) = some n := by
  have written := digits_padLeft (Nat.zero_lt_of_lt large) width (digits_toDigits large small n)
  have some_digit : padLeft '0' width (Nat.toDigits radix n) ≠ [] := by
    simp [padLeft, Nat.toDigits_ne_nil]
  rw [natural?_of_digits some_digit written, ofDigitChars_padLeft,
    Nat.ofDigitChars_toDigits large small]

theorem natural?_decimal (n : Nat) : natural? 10 (decimal n) = some n := by
  have written := natural?_padLeft_toDigits (by decide : 1 < 10) (by decide) 0 n
  simpa [padLeft, decimal] using written

theorem natural?_address (n : Nat) : natural? 10 (address n) = some n :=
  natural?_padLeft_toDigits (by decide) (by decide) 3 n

theorem natural?_bits (b : UInt8) : natural? 2 (bits b) = some b.toNat :=
  natural?_padLeft_toDigits (by decide) (by decide) 8 b.toNat

theorem address_injective {m n : Nat} (h : address m = address n) : m = n := by
  have left := natural?_address m
  rw [h, natural?_address n] at left
  exact (Option.some.inj left).symm

theorem decimal_injective {m n : Nat} (h : decimal m = decimal n) : m = n := by
  have left := natural?_decimal m
  rw [h, natural?_decimal n] at left
  exact (Option.some.inj left).symm

theorem bits_injective {a b : UInt8} (h : bits a = bits b) : a = b := by
  have left := natural?_bits a
  rw [h, natural?_bits b] at left
  exact UInt8.toNat_inj.mp (Option.some.inj left).symm

theorem isDigit_of_mem_padLeft {radix : Nat} (positive : 0 < radix) (small : radix ≤ 10)
    {width n : Nat} {c : Char} (h : c ∈ padLeft '0' width (Nat.toDigits radix n)) :
    c.isDigit = true := by
  rcases List.mem_append.mp h with front | rest
  · rw [List.eq_of_mem_replicate front]
    rfl
  · exact Nat.isDigit_of_mem_toDigits positive small rest

theorem isDigit_of_mem_decimal {n : Nat} {c : Char} (h : c ∈ decimal n) : c.isDigit = true :=
  Nat.isDigit_of_mem_toDigits (by decide) (by decide) h

theorem decimal_head {n : Nat} (positive : 0 < n) : (decimal n).head? ≠ some '0' := by
  unfold decimal
  induction n using Nat.base_induction 10 (by decide) with
  | single m small =>
    have table : ∀ d < 10, 0 < d → ([d.digitChar].head? ≠ some '0') := by decide
    rw [Nat.toDigits_of_lt_base small]
    exact table m small positive
  | digit m k small front ih =>
    rw [← Nat.toDigits_append_toDigits (by decide) front small,
      List.head?_append_of_ne_nil _ Nat.toDigits_ne_nil]
    exact ih front

theorem isDigit_of_mem_address {n : Nat} {c : Char} (h : c ∈ address n) : c.isDigit = true :=
  isDigit_of_mem_padLeft (by decide) (by decide) h

theorem isDigit_of_mem_bits {b : UInt8} {c : Char} (h : c ∈ bits b) : c.isDigit = true :=
  isDigit_of_mem_padLeft (by decide) (by decide) h

theorem binary_of_mem_bits {b : UInt8} {c : Char} (h : c ∈ bits b) : c = '0' ∨ c = '1' := by
  have range := Char.isDigit_iff_toNat.mp (isDigit_of_mem_bits h)
  have value := digits_padLeft (by decide) 8 (digits_toDigits (by decide) (by decide) b.toNat) c h
  have small : c.toNat - '0'.toNat < 2 := of_decide_eq_true (Option.filter_eq_some_iff.mp value).2
  have zero : '0'.toNat = 48 := rfl
  have one : '1'.toNat = 49 := rfl
  rw [← Char.toNat_inj, ← Char.toNat_inj]
  omega

theorem integer?_of_digits {radix : Nat} {s : List Char} (h : ∀ c ∈ s, c.isDigit = true) :
    integer? radix s = (natural? radix s).map Int.ofNat := by
  unfold integer?
  split
  · next s => cases h '-' List.mem_cons_self
  · next s => cases h '+' List.mem_cons_self
  · rfl

theorem below?_lt {bound radix n : Nat} {s : List Char} (h : below? bound radix s = some n) :
    n < bound := by
  unfold below? at h
  split at h <;> exact of_decide_eq_true (Option.filter_eq_some_iff.mp h).2

theorem below?_of_digits {bound radix : Nat} {s : List Char} (h : ∀ c ∈ s, c.isDigit = true) :
    below? bound radix s = (natural? radix s).filter (· < bound) := by
  unfold below?
  split
  · next s => cases h '+' List.mem_cons_self
  · rfl

theorem word64?_of_digits {radix n : Nat} {s : List Char} (h : ∀ c ∈ s, c.isDigit = true)
    (read : natural? radix s = some n) (fits : n < 0x8000000000000000) :
    word64? radix s = some (n : Int) := by
  have inside : -0x8000000000000000 ≤ (n : Int) ∧ (n : Int) < 0x8000000000000000 := by omega
  rw [word64?, integer?_of_digits h, read]
  exact Option.filter_eq_some_iff.mpr ⟨rfl, decide_eq_true inside⟩

end Ls8.Text
