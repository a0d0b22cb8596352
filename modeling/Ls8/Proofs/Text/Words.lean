import Ls8.Proofs.Text.Numeral
import Ls8.Text.Blank
import Ls8.Text.Pieces
import Ls8.Text.Upper

/-! Words of ASCII letters and digits. No mark and no blank is in them, so what is laid out with
marks and blanks between words is taken apart into the same words. What has been upper-cased has no
small letter, and without one the case of letters makes no difference. -/
namespace Ls8.Text

def Word (s : List Char) : Prop := ∀ c ∈ s, c.isAlphanum = true

instance (s : List Char) : Decidable (Word s) :=
  decidable_of_iff (s.all Char.isAlphanum = true) List.all_eq_true

theorem isAlphanum_iff {c : Char} :
    c.isAlphanum = true ↔ (48 ≤ c.toNat ∧ c.toNat ≤ 57) ∨ (65 ≤ c.toNat ∧ c.toNat ≤ 90) ∨
      (97 ≤ c.toNat ∧ c.toNat ≤ 122) := by
  simp only [Char.isAlphanum, Char.isAlpha, Char.isUpper, Char.isLower, Char.isDigit,
    Bool.or_eq_true, Bool.and_eq_true, decide_eq_true_eq, ge_iff_le, UInt32.le_iff_toNat_le,
    Char.toNat_val]
  simp
  omega

theorem isBlank_of_isAlphanum {c : Char} (h : c.isAlphanum = true) : isBlank c = false := by
  have range := isAlphanum_iff.mp h
  simp only [isBlank, blankRuns, List.any_cons, List.any_nil, Bool.or_false, Bool.or_eq_false_iff,
    decide_eq_false_iff_not]
  omega

theorem ne_of_isAlphanum {c mark : Char} (h : c.isAlphanum = true)
    (other : mark.isAlphanum = false) : (c == mark) = false := by
  rw [beq_eq_false_iff_ne]
  rintro rfl
  rw [h] at other
  cases other

theorem isAlphanum_of_isDigit {c : Char} (h : c.isDigit = true) : c.isAlphanum = true := by
  simp [Char.isAlphanum, h]

theorem word_decimal (n : Nat) : decimal n ≠ [] ∧ Word (decimal n) :=
  ⟨Nat.toDigits_ne_nil, fun _ h => isAlphanum_of_isDigit (isDigit_of_mem_decimal h)⟩

theorem word_address (n : Nat) : address n ≠ [] ∧ Word (address n) := by
  constructor
  · simp [address, padLeft, decimal, Nat.toDigits_ne_nil]
  · exact fun c h => isAlphanum_of_isDigit (isDigit_of_mem_address h)

theorem word_bits (b : UInt8) : bits b ≠ [] ∧ Word (bits b) := by
  constructor
  · simp [bits, padLeft, Nat.toDigits_ne_nil]
  · exact fun c h => isAlphanum_of_isDigit (isDigit_of_mem_bits h)

theorem isAlphanum_of_digit? {radix n : Nat} {c : Char} (h : digit? radix c = some n) :
    c.isAlphanum = true := by
  obtain ⟨read, -⟩ := Option.filter_eq_some_iff.mp h
  apply isAlphanum_iff.mpr
  split at read
  · next digit => exact .inl digit
  · split at read
    · next small => exact .inr (.inr ⟨small.1, Nat.le_trans small.2 (by decide)⟩)
    · split at read
      · next capital => exact .inr (.inl ⟨capital.1, Nat.le_trans capital.2 (by decide)⟩)
      · cases read

theorem word_of_natural? {radix n : Nat} {s : List Char} (h : natural? radix s = some n) :
    Word s := by
  have fold : ∀ (s : List Char) m n,
      s.foldlM (fun n c => (digit? radix c).map (radix * n + ·)) m = some n → Word s := by
    intro s
    induction s with
    | nil => simp [Word]
    | cons c s ih =>
      intro m n read
      rw [List.foldlM_cons] at read
      obtain ⟨m', first, rest⟩ := Option.bind_eq_some_iff.mp read
      obtain ⟨d, digit, -⟩ := Option.map_eq_some_iff.mp first
      intro b member
      rcases List.mem_cons.mp member with rfl | later
      · exact isAlphanum_of_digit? digit
      · exact ih m' n rest b later
  unfold natural? at h
  split at h
  · cases h
  · exact fold s 0 n h

def Spelled (marks s : List Char) : Prop := ∀ c ∈ s, c.isAlphanum = true ∨ c ∈ marks

theorem spelled_of_word (marks : List Char) {s : List Char} (h : Word s) : Spelled marks s :=
  fun c member => .inl (h c member)

theorem spelled_of_subset {marks more s : List Char} (h : Spelled marks s) (sub : marks ⊆ more) :
    Spelled more s := by
  intro c member
  rcases h c member with letter | mark
  · exact .inl letter
  · exact .inr (sub mark)

theorem spelled_cons {marks s : List Char} {c : Char} (first : c.isAlphanum = true ∨ c ∈ marks)
    (rest : Spelled marks s) : Spelled marks (c :: s) := by
  intro b member
  rcases List.mem_cons.mp member with rfl | later
  · exact first
  · exact rest b later

theorem spelled_append {marks s t : List Char} (hs : Spelled marks s) (ht : Spelled marks t) :
    Spelled marks (s ++ t) := by
  intro c member
  rcases List.mem_append.mp member with front | rest
  · exact hs c front
  · exact ht c rest

theorem spelled_of_integer? {radix : Nat} {s : List Char} {i : Int}
    (h : integer? radix s = some i) : Spelled ['-', '+'] s := by
  unfold integer? at h
  split at h <;> obtain ⟨n, read, -⟩ := Option.map_eq_some_iff.mp h
  · obtain ⟨m, size, -⟩ := Option.bind_eq_some_iff.mp read
    exact spelled_cons (.inr (by decide)) (spelled_of_word _ (word_of_natural? size))
  · exact spelled_cons (.inr (by decide)) (spelled_of_word _ (word_of_natural? read))
  · exact spelled_of_word _ (word_of_natural? read)

theorem join_cons_cons (between first next : List Char) (more : List (List Char)) :
    join between (first :: next :: more) = first ++ (between ++ join between (next :: more)) := by
  rw [join, List.intercalate_cons_cons, List.append_assoc]
  rfl

theorem spelled_join {marks : List Char} {mark : Char} (inside : mark ∈ marks)
    {parts : List (List Char)} (h : ∀ s ∈ parts, Word s) : Spelled marks (join [mark] parts) := by
  match parts with
  | [] =>
    intro c member
    cases member
  | [s] => simpa [join] using spelled_of_word marks (h s List.mem_cons_self)
  | s :: next :: more =>
    rw [join_cons_cons]
    refine spelled_append (spelled_of_word marks (h s List.mem_cons_self)) (spelled_append ?_ ?_)
    · intro c member
      rw [List.mem_singleton.mp member]
      exact .inr inside
    · exact spelled_join inside fun s member => h s (List.mem_cons_of_mem _ member)

theorem free_of_spelled {marks s : List Char} (mark : Char) (h : Spelled marks s)
    (other : mark.isAlphanum = false) (outside : mark ∉ marks) : ∀ c ∈ s, (c == mark) = false := by
  intro c member
  rcases h c member with letter | inside
  · exact ne_of_isAlphanum letter other
  · rw [beq_eq_false_iff_ne]
    rintro rfl
    exact outside inside

theorem not_mem_of_spelled {marks s : List Char} {mark : Char} (h : Spelled marks s)
    (other : mark.isAlphanum = false) (outside : mark ∉ marks) : mark ∉ s := by
  intro member
  have apart := free_of_spelled mark h other outside mark member
  simp at apart

theorem trimLeft_blank {front : List Char} (s : List Char) (h : ∀ c ∈ front, isBlank c = true) :
    trimLeft (front ++ s) = trimLeft s :=
  List.dropWhile_append_of_pos h

theorem blank_space : ∀ c ∈ [' '], isBlank c = true := by
  intro c member
  rw [List.mem_singleton.mp member]
  decide

theorem trimRight_blank {back : List Char} (s : List Char) (h : ∀ c ∈ back, isBlank c = true) :
    trimRight (s ++ back) = trimRight s := by
  unfold trimRight
  rw [List.reverse_append, List.dropWhile_append_of_pos]
  intro c member
  exact h c (List.mem_reverse.mp member)

/-- A text that blanks neither begin nor end. -/
def Bare (s : List Char) : Prop :=
  (∀ c ∈ s.head?, isBlank c = false) ∧ ∀ c ∈ s.getLast?, isBlank c = false

theorem trimLeft_of_head {s : List Char} (h : ∀ c ∈ s.head?, isBlank c = false) :
    trimLeft s = s := by
  cases s with
  | nil => rfl
  | cons c s => simp [trimLeft, h c rfl]

theorem trimRight_of_last {s : List Char} (h : ∀ c ∈ s.getLast?, isBlank c = false) :
    trimRight s = s := by
  have left : trimLeft s.reverse = s.reverse := by
    apply trimLeft_of_head
    rw [List.head?_reverse]
    exact h
  have whole := congrArg List.reverse left
  rwa [List.reverse_reverse] at whole

theorem trim_padded (front : List Char) {s : List Char} (back : List Char)
    (blank : ∀ c ∈ front, isBlank c = true)
    (blank' : ∀ c ∈ back, isBlank c = true) (bare : Bare s) (some_char : s ≠ []) :
    trim (front ++ (s ++ back)) = s := by
  have head : ∀ c ∈ (s ++ back).head?, isBlank c = false := by
    intro c member
    obtain ⟨first, more, rfl⟩ := List.exists_cons_of_ne_nil some_char
    exact bare.1 c member
  rw [trim, trimLeft_blank _ blank, trimLeft_of_head head, trimRight_blank _ blank',
    trimRight_of_last bare.2]

theorem trim_bare {s : List Char} (bare : Bare s) : trim s = s := by
  rw [trim, trimLeft_of_head bare.1, trimRight_of_last bare.2]

theorem bare_of_word {s : List Char} (h : Word s) : Bare s := by
  constructor
  · intro c member
    exact isBlank_of_isAlphanum (h c (List.mem_of_mem_head? member))
  · intro c member
    exact isBlank_of_isAlphanum (h c (List.mem_of_mem_getLast? member))

theorem bare_append {s t : List Char} (hs : Bare s) (ht : Bare t) (some_char : s ≠ [])
    (some_char' : t ≠ []) (between : List Char) : Bare (s ++ (between ++ t)) := by
  constructor
  · intro c member
    obtain ⟨first, more, rfl⟩ := List.exists_cons_of_ne_nil some_char
    exact hs.1 c member
  · intro c member
    rw [← List.append_assoc, List.getLast?_append, List.getLast?_eq_some_getLast some_char',
      Option.some_or, ← List.getLast?_eq_some_getLast some_char'] at member
    exact ht.2 c member

theorem bare_join (between : List Char) {first : List Char} {more : List (List Char)}
    (words : ∀ s ∈ first :: more, s ≠ [] ∧ Word s) :
    join between (first :: more) ≠ [] ∧ Bare (join between (first :: more)) := by
  obtain ⟨some_char, word⟩ := words first List.mem_cons_self
  induction more generalizing first with
  | nil => simpa [join] using And.intro some_char (bare_of_word word)
  | cons next more ih =>
    have tail : ∀ s ∈ next :: more, s ≠ [] ∧ Word s :=
      fun s member => words s (List.mem_cons_of_mem first member)
    obtain ⟨some_next, word_next⟩ := tail next List.mem_cons_self
    obtain ⟨rest, bare⟩ := ih tail some_next word_next
    rw [join_cons_cons]
    exact ⟨by simp [some_char], bare_append (bare_of_word word) bare some_char rest between⟩

/-- What is put between texts is found again as the marks between them, if there are no others. -/
theorem pieces_join_of_free {mark : Char} {first : List Char} {more : List (List Char)}
    (free : ∀ s ∈ first :: more, mark ∉ s) :
    pieces (· == mark) (join [mark] (first :: more)) = first :: more := by
  induction more generalizing first with
  | nil =>
    have unmarked := free_iff.mpr (free first List.mem_cons_self)
    simpa [join] using pieces_of_free unmarked
  | cons next more ih =>
    obtain ⟨here, later⟩ := List.forall_mem_cons.mp free
    rw [join_cons_cons, List.singleton_append,
      pieces_append_mark _ (free_iff.mpr here) (beq_self_eq_true mark), ih later]

theorem pieces_join (mark : Char) (other : mark.isAlphanum = false) {first : List Char}
    {more : List (List Char)} (words : ∀ s ∈ first :: more, Word s) :
    pieces (· == mark) (join [mark] (first :: more)) = first :: more := by
  apply pieces_join_of_free
  intro s member inside
  have apart := ne_of_isAlphanum (words s member mark inside) other
  simp at apart

theorem dropLastIf_of_last {mark : Char} {s : List Char} (h : s.getLast? ≠ some mark) :
    dropLastIf mark s = s := by
  rw [dropLastIf, if_neg]
  exact fun ends => h (eq_of_beq ends)

theorem lines_append_feed {s : List Char} (t : List Char) (feed : '\n' ∉ s) (ret : '\r' ∉ s) :
    lines (s ++ '\n' :: t) = s :: lines t := by
  have kept : dropLastIf '\r' s = s :=
    dropLastIf_of_last fun ends => ret (List.mem_of_getLast? ends)
  rw [lines, linesBy_append_feed _ _ feed, kept]
  rfl

theorem upperChar_of_isDigit {c : Char} (h : c.isDigit = true) : upperChar c = [c] := by
  have range := Char.isDigit_iff_toNat.mp h
  have ascii : c.toNat < 0x80 := Nat.lt_of_le_of_lt range.2 (by decide)
  have capital : ¬ ('a'.val ≤ c.val ∧ c.val ≤ 'z'.val) := by
    rw [UInt32.le_iff_toNat_le, Char.toNat_val, Char.toNat_val]
    simp at range ⊢
    omega
  rw [upperChar, if_pos ascii, Char.toUpper, dif_neg capital]

theorem upper_of_digits {s : List Char} (h : ∀ c ∈ s, c.isDigit = true) : upper s = s := by
  induction s with
  | nil => rfl
  | cons c s ih =>
    have rest := ih fun d member => h d (List.mem_cons_of_mem c member)
    unfold upper at rest ⊢
    rw [List.flatMap_cons, upperChar_of_isDigit (h c List.mem_cons_self), rest]
    rfl

def Capital (s : List Char) : Prop := ∀ c ∈ s, c.toNat < 0x61 ∨ 0x7A < c.toNat

theorem toNat_ofNat_capital {n : Nat} (h : n < 0x61 ∨ 0x7A < n) :
    (Char.ofNat n).toNat < 0x61 ∨ 0x7A < (Char.ofNat n).toNat := by
  rw [Char.toNat_ofNat]
  split
  · exact h
  · exact .inl (by decide)

theorem capital_upperChar (c : Char) : Capital (upperChar c) := by
  have ascii : ∀ n < 0x80, (Char.ofNat n).toUpper.toNat < 0x61 ∨
      0x7A < (Char.ofNat n).toUpper.toNat := by decide +kernel
  have several : ∀ e ∈ expansions, ∀ n ∈ e.2, n < 0x61 ∨ 0x7A < n := by decide +kernel
  have moved : ∀ r ∈ caseRuns, r.last + r.shift < 0x61 ∨ 0x7A < r.first + r.shift := by
    decide +kernel
  intro d member
  unfold upperChar at member
  split at member
  · next inside =>
    have one := ascii c.toNat inside
    rw [Char.ofNat_toNat] at one
    rwa [List.mem_singleton.mp member]
  · split at member
    · next capitals known =>
      obtain ⟨before, after, split, -⟩ := List.lookup_eq_some_iff.mp known
      have entry : (c.toNat, capitals) ∈ expansions := by simp [split]
      obtain ⟨n, letter, rfl⟩ := List.mem_map.mp member
      exact toNat_ofNat_capital (several _ entry n letter)
    · split at member
      · next r found =>
        have away := moved r (List.mem_of_find?_eq_some found)
        have range := List.find?_some found
        simp only [CaseRun.has, decide_eq_true_eq] at range
        rw [List.mem_singleton.mp member]
        apply toNat_ofNat_capital
        omega
      · rw [List.mem_singleton.mp member]
        omega

theorem capital_upper (s : List Char) : Capital (upper s) := by
  intro d member
  obtain ⟨c, -, inside⟩ := List.mem_flatMap.mp member
  exact capital_upperChar c d inside

theorem toNat_toLower (c : Char) :
    c.toLower.toNat = if 65 ≤ c.toNat ∧ c.toNat ≤ 90 then c.toNat + 32 else c.toNat := by
  unfold Char.toLower
  simp only [ge_iff_le, UInt32.le_iff_toNat_le, Char.toNat_val]
  split
  · next capital =>
    have range : 65 ≤ c.toNat ∧ c.toNat ≤ 90 := capital
    rw [if_pos range, ← Char.toNat_val, UInt32.toNat_add, Char.toNat_val]
    simp
    omega
  · next other =>
    have range : ¬ (65 ≤ c.toNat ∧ c.toNat ≤ 90) := other
    rw [if_neg range]

/-- Without small letters the case makes no difference. -/
theorem eq_of_sameLetters {s t : List Char} (hs : Capital s) (ht : Capital t)
    (h : sameLetters s t = true) : s = t := by
  replace h := eq_of_beq h
  induction s generalizing t with
  | nil => exact (List.map_eq_nil_iff.mp h.symm).symm
  | cons c s ih =>
    cases t with
    | nil => cases h
    | cons d t =>
      obtain ⟨first, rest⟩ := List.cons.inj h
      have left := hs c List.mem_cons_self
      have right := ht d List.mem_cons_self
      have codes := congrArg Char.toNat first
      rw [toNat_toLower, toNat_toLower] at codes
      have same : c.toNat = d.toNat := by
        split at codes <;> split at codes <;> omega
      have later := ih (fun x member => hs x (List.mem_cons_of_mem c member))
        (fun x member => ht x (List.mem_cons_of_mem d member)) rest
      rw [Char.toNat_inj.mp same, later]

end Ls8.Text
