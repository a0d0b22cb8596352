import Ls8.Proofs.Text.Radix

/-! The case of ASCII letters. Marks, blanks and digits are the same in either case, so a text is
cut and trimmed at the same places, and its numerals denote the same numbers. -/
namespace Ls8.Text

def capitals (s : List Char) : List Char := s.map Char.toUpper

theorem toUpper_of_not_ascii {c : Char} (h : 128 ≤ c.toNat) : c.toUpper = c := by
  have other : ¬ ('a'.val ≤ c.val ∧ c.val ≤ 'z'.val) := by
    rw [UInt32.le_iff_toNat_le, UInt32.le_iff_toNat_le, Char.toNat_val]
    simp
    omega
  exact dif_neg other

/-- What holds of the ASCII characters in both cases holds of all, since no other one changes. -/
theorem toUpper_invariant {β : Type} {P : Char → β}
    (ascii : ∀ n < 128, P (Char.ofNat n).toUpper = P (Char.ofNat n)) (c : Char) :
    P c.toUpper = P c := by
  by_cases small : c.toNat < 128
  · simpa [Char.ofNat_toNat] using ascii c.toNat small
  · rw [toUpper_of_not_ascii (Nat.le_of_not_lt small)]

theorem toUpper_iff {P : Char → Prop}
    (ascii : ∀ n < 128, P (Char.ofNat n).toUpper ↔ P (Char.ofNat n)) (c : Char) :
    P c.toUpper ↔ P c :=
  iff_of_eq (toUpper_invariant (fun n small => propext (ascii n small)) c)

theorem isBlank_toUpper (c : Char) : isBlank c.toUpper = isBlank c :=
  toUpper_invariant (by decide +kernel) c

theorem upperChar_toUpper (c : Char) : upperChar c.toUpper = upperChar c :=
  toUpper_invariant (by decide +kernel) c

theorem upper_capitals (s : List Char) : upper (capitals s) = upper s := by
  rw [upper, capitals, List.flatMap_map]
  exact List.flatMap_congr fun c _ => upperChar_toUpper c

section

variable {α : Type} {mark : α → Bool} {f : α → α}

theorem before_map (kept : ∀ a, mark (f a) = mark a) (s : List α) :
    before mark (s.map f) = (before mark s).map f := by
  have same : (fun a => !mark a) ∘ f = fun a => !mark a := funext fun a => by simp [kept a]
  rw [before, List.takeWhile_map, same, before]

theorem cut_map (kept : ∀ a, mark (f a) = mark a) (s : List α) :
    cut mark (s.map f) = (cut mark s).map fun p => (p.1.map f, p.2.map f) := by
  have same : (fun a => !mark a) ∘ f = fun a => !mark a := funext fun a => by simp [kept a]
  unfold cut
  rw [List.dropWhile_map, same, before_map kept]
  cases s.dropWhile fun a => !mark a <;> rfl

theorem pieces_map (kept : ∀ a, mark (f a) = mark a) (s : List α) :
    pieces mark (s.map f) = (pieces mark s).map (List.map f) := by
  induction s with
  | nil => rfl
  | cons a s ih =>
    obtain ⟨piece, more, e⟩ := List.exists_cons_of_ne_nil (pieces_ne_nil mark s)
    cases h : mark a with
    | true =>
      have marked := (kept a).trans h
      rw [List.map_cons, pieces_mark _ marked, pieces_mark _ h, ih]
      rfl
    | false =>
      have free := (kept a).trans h
      rw [e] at ih
      rw [List.map_cons, pieces_other free ih, pieces_other h e]
      rfl

end

theorem trim_capitals (s : List Char) : trim (capitals s) = capitals (trim s) := by
  have same : isBlank ∘ Char.toUpper = isBlank := funext isBlank_toUpper
  have left (s : List Char) : (capitals s).dropWhile isBlank = capitals (s.dropWhile isBlank) := by
    rw [capitals, List.dropWhile_map, same, capitals]
  have turn (s : List Char) : (capitals s).reverse = capitals s.reverse :=
    List.map_reverse.symm
  rw [trim, trimRight, trimLeft, left, turn, left, turn]
  rfl

section

variable {radix : Nat}

theorem digitOf_toUpper (small : radix ≤ 16) {c : Char} {d : Nat} :
    DigitOf radix c.toUpper d ↔ DigitOf radix c d := by
  have narrow (c : Char) : DigitOf radix c d ↔ d < radix ∧ digit? 16 c = some d := by
    rw [digit?_eq_some Nat.le.refl]
    constructor
    · rintro ⟨below, shape⟩
      exact ⟨below, Nat.lt_of_lt_of_le below small, shape⟩
    · rintro ⟨below, -, shape⟩
      exact ⟨below, shape⟩
  have same : digit? 16 c.toUpper = digit? 16 c := toUpper_invariant (by decide +kernel) c
  rw [narrow, narrow, same]

theorem denotes_capitals (small : radix ≤ 16) {s : List Char} {n : Nat} :
    Denotes radix (capitals s) n ↔ Denotes radix s n := by
  simp only [Denotes, capitals, List.forall₂_map_left_iff, digitOf_toUpper small, ne_eq,
    List.map_eq_nil_iff]

theorem capitals_eq_cons {s t : List Char} {d : Char} (kept : ∀ c : Char, c.toUpper = d ↔ c = d)
    (h : capitals s = d :: t) : ∃ u, s = d :: u ∧ t = capitals u := by
  obtain ⟨c, u, rfl, first, rfl⟩ := List.map_eq_cons_iff.mp h
  exact ⟨u, by rw [(kept c).mp first], rfl⟩

theorem signed_capitals (small : radix ≤ 16) {s : List Char} {i : Int} :
    Signed radix (capitals s) i ↔ Signed radix s i := by
  constructor
  · intro h
    generalize e : capitals s = t at h
    cases h with
    | bare h =>
      rw [← e, denotes_capitals small] at h
      exact .bare h
    | plus h =>
      have kept := toUpper_iff (P := (· = '+')) (by decide)
      obtain ⟨u, rfl, rfl⟩ := capitals_eq_cons kept e
      exact .plus ((denotes_capitals small).mp h)
    | minus h =>
      have kept := toUpper_iff (P := (· = '-')) (by decide)
      obtain ⟨u, rfl, rfl⟩ := capitals_eq_cons kept e
      exact .minus ((denotes_capitals small).mp h)
  · rintro (h | h | h)
    · exact .bare ((denotes_capitals small).mpr h)
    · exact .plus ((denotes_capitals small).mpr h)
    · exact .minus ((denotes_capitals small).mpr h)

end

end Ls8.Text
