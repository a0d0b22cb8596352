import Ls8.Proofs.Text.Words

/-! Numerals by what they denote. A numeral is one digit or more of a radix up to sixteen, with or
without a sign, and denotes the number that its digits have as digits of that radix; the readers of
numbers accept exactly the numerals and give what they denote. -/
namespace Ls8.Text

/-- The character is a digit of the radix; letters count in either case. -/
def DigitOf (radix : Nat) (c : Char) (d : Nat) : Prop :=
  d < radix ∧ (c = d.digitChar ∨ c = d.digitChar.toUpper)

/-- One digit or more, the most significant one first, with any number of leading zeros. -/
def Denotes (radix : Nat) (s : List Char) (n : Nat) : Prop :=
  s ≠ [] ∧ ∃ ds, List.Forall₂ (DigitOf radix) s ds ∧ n = Nat.ofDigits radix ds.reverse

inductive Signed (radix : Nat) : List Char → Int → Prop where
  | bare {s n} (h : Denotes radix s n) : Signed radix s n
  | plus {s n} (h : Denotes radix s n) : Signed radix ('+' :: s) n
  | minus {s n} (h : Denotes radix s n) : Signed radix ('-' :: s) (-n)

def Fits (i : Int) : Prop := -2 ^ 63 ≤ i ∧ i < 2 ^ 63

section

variable {radix : Nat}

theorem digit?_eq_some (small : radix ≤ 16) {c : Char} {d : Nat} :
    digit? radix c = some d ↔ DigitOf radix c d := by
  have table : ∀ d < 16, digit? 16 d.digitChar = some d ∧
      digit? 16 d.digitChar.toUpper = some d := by decide
  have back : ∀ n < 128, ∀ d ∈ digit? 16 (Char.ofNat n),
      Char.ofNat n = d.digitChar ∨ Char.ofNat n = d.digitChar.toUpper := by decide +kernel
  have wide {c : Char} {d : Nat} (below : d < radix) :
      digit? radix c = some d ↔ digit? 16 c = some d := by
    simp only [digit?, Option.filter_eq_some_iff, decide_eq_true_eq, below,
      Nat.lt_of_lt_of_le below small]
  constructor
  · intro read
    have below : d < radix := of_decide_eq_true (Option.filter_eq_some_iff.mp read).2
    have ascii : c.toNat < 128 := by
      have letter := isAlphanum_iff.mp (isAlphanum_of_digit? read)
      omega
    have known := back c.toNat ascii d
    rw [Char.ofNat_toNat] at known
    exact ⟨below, known ((wide below).mp read)⟩
  · rintro ⟨below, rfl | rfl⟩
    · exact (wide below).mpr (table d (Nat.lt_of_lt_of_le below small)).1
    · exact (wide below).mpr (table d (Nat.lt_of_lt_of_le below small)).2

theorem foldlM_eq_some (small : radix ≤ 16) {s : List Char} {m n : Nat} :
    s.foldlM (fun n c => (digit? radix c).map (radix * n + ·)) m = some n ↔
      ∃ ds, List.Forall₂ (DigitOf radix) s ds ∧
        n = radix ^ s.length * m + Nat.ofDigits radix ds.reverse := by
  induction s generalizing m with
  | nil => simp [eq_comm]
  | cons c s ih =>
    have shift (d : Nat) (ds : List Nat) (length : s.length = ds.length) :
        radix ^ s.length * (radix * m + d) + Nat.ofDigits radix ds.reverse =
          radix ^ (c :: s).length * m + Nat.ofDigits radix (d :: ds).reverse := by
      rw [List.reverse_cons, Nat.ofDigits_append, Nat.ofDigits_singleton, List.length_reverse,
        List.length_cons, length]
      ring
    rw [List.foldlM_cons]
    constructor
    · intro read
      obtain ⟨m', first, rest⟩ := Option.bind_eq_some_iff.mp read
      obtain ⟨d, digit, rfl⟩ := Option.map_eq_some_iff.mp first
      obtain ⟨ds, digits, rfl⟩ := ih.mp rest
      exact ⟨d :: ds, .cons ((digit?_eq_some small).mp digit) digits, shift d ds digits.length_eq⟩
    · rintro ⟨_, digits, rfl⟩
      obtain ⟨d, ds, digit, rest, rfl⟩ := List.forall₂_cons_left_iff.mp digits
      rw [(digit?_eq_some small).mpr digit]
      exact ih.mpr ⟨ds, rest, (shift d ds rest.length_eq).symm⟩

theorem natural?_eq_some (small : radix ≤ 16) {s : List Char} {n : Nat} :
    natural? radix s = some n ↔ Denotes radix s n := by
  unfold natural? Denotes
  by_cases empty : s = []
  · simp [empty]
  · rw [if_neg (by simpa using empty), foldlM_eq_some small]
    simp [empty]

theorem digit?_of_mem (small : radix ≤ 16) {s : List Char} {n : Nat} (h : Denotes radix s n)
    {c : Char} (member : c ∈ s) : (digit? radix c).isSome = true := by
  obtain ⟨-, ds, digits, -⟩ := h
  induction digits with
  | nil => cases member
  | cons digit _ ih =>
    rcases List.mem_cons.mp member with rfl | later
    · rw [(digit?_eq_some small).mpr digit]
      rfl
    · exact ih later

theorem integer?_minus (t : List Char) :
    integer? radix ('-' :: t) = Option.map (fun n : Nat => -(n : Int)) (natural? radix t) := by
  cases read : natural? radix t <;> simp [integer?, read]

theorem not_denotes_sign (small : radix ≤ 16) {c : Char} {t : List Char} {n : Nat}
    (sign : c = '-' ∨ c = '+') : ¬ Denotes radix (c :: t) n := by
  intro h
  obtain ⟨d, digit⟩ := Option.isSome_iff_exists.mp (digit?_of_mem small h List.mem_cons_self)
  have letter := isAlphanum_of_digit? digit
  rcases sign with rfl | rfl <;> cases letter

/-- A sign is no digit, so the first character tells the three forms apart. -/
theorem integer?_eq_some (small : radix ≤ 16) {s : List Char} {i : Int} :
    integer? radix s = some i ↔ Signed radix s i := by
  have forms {f : Nat → Int} {t : List Char} : Option.map f (natural? radix t) = some i ↔
      ∃ n, Denotes radix t n ∧ f n = i := by
    simp only [Option.map_eq_some_iff, natural?_eq_some small]
  constructor
  · intro read
    unfold integer? at read
    split at read
    · next t =>
      obtain ⟨n, h, rfl⟩ := forms.mp ((integer?_minus t).symm.trans read)
      exact .minus h
    · obtain ⟨n, h, rfl⟩ := forms.mp read
      exact .plus h
    · obtain ⟨n, h, rfl⟩ := forms.mp read
      exact .bare h
  · rintro (h | h | h)
    · unfold integer?
      split
      · exact absurd h (not_denotes_sign small (.inl rfl))
      · exact absurd h (not_denotes_sign small (.inr rfl))
      · exact forms.mpr ⟨_, h, rfl⟩
    · exact forms.mpr ⟨_, h, rfl⟩
    · rw [integer?_minus]
      exact forms.mpr ⟨_, h, rfl⟩

theorem word64?_eq_some (small : radix ≤ 16) {s : List Char} {i : Int} :
    word64? radix s = some i ↔ Signed radix s i ∧ Fits i := by
  have width : (2 : Int) ^ 63 = 0x8000000000000000 := rfl
  rw [word64?, Option.filter_eq_some_iff, integer?_eq_some small, decide_eq_true_iff, Fits, width]

theorem below?_eq_some (small : radix ≤ 16) {bound n : Nat} {s : List Char} :
    below? bound radix s = some n ↔
      n < bound ∧ (Denotes radix s n ∨ ∃ t, s = '+' :: t ∧ Denotes radix t n) := by
  have plain {t : List Char} :
      (natural? radix t).filter (· < bound) = some n ↔ n < bound ∧ Denotes radix t n := by
    rw [Option.filter_eq_some_iff, natural?_eq_some small, decide_eq_true_iff, and_comm]
  unfold below?
  split
  · next t =>
    rw [plain]
    simp [not_denotes_sign small]
  · next other =>
    have unsigned : ¬ ∃ t, s = '+' :: t ∧ Denotes radix t n := fun ⟨t, e, _⟩ => other t e
    rw [plain, or_iff_left unsigned]

end

end Ls8.Text
