import Mathlib
import Ls8.Files
import Ls8.Proofs.Text.Parts

/-! Encoded texts cut into lines. Every byte of a character beyond ASCII is beyond ASCII too, so
the bytes of a text have their line ends where the text has its own, and cutting commutes with the
encoding. -/
namespace Ls8.Files

open Text (pieces dropLastIf linesBy)

theorem text?_eq_some {bytes : List UInt8} {t : List Char} :
    text? bytes = some t ↔ bytes = bytesOf t := by
  constructor
  · intro read
    obtain ⟨s, decoded, -⟩ := Option.map_eq_some_iff.mp read
    have valid : bytes.toByteArray.IsValidUTF8 := by
      by_contra invalid
      rw [String.fromUTF8?, dif_neg invalid] at decoded
      cases decoded
    obtain ⟨m, whole⟩ := valid
    have same : bytes = bytesOf m := List.toByteArray_inj.mp whole
    rw [same, text?_bytesOf] at read
    rw [same, Option.some.inj read]
  · rintro rfl
    exact text?_bytesOf t

theorem text?_eq_none {bytes : List UInt8} : text? bytes = none ↔ ∀ t, bytes ≠ bytesOf t := by
  simp only [Option.eq_none_iff_forall_ne_some, ne_eq, text?_eq_some]

theorem bytesOf_append (s t : List Char) : bytesOf (s ++ t) = bytesOf s ++ bytesOf t :=
  List.flatMap_append

theorem encode_ascii {c : Char} (h : c.toNat < 128) :
    String.utf8EncodeChar c = [c.toNat.toUInt8] := by
  have ascii : c.val.toNat ≤ 0x7f := Nat.le_of_lt_succ h
  rw [String.utf8EncodeChar]
  exact if_pos ascii

theorem bytesOf_ascii {s : List Char} (h : ∀ c ∈ s, c.toNat < 128) :
    bytesOf s = s.map fun c => c.toNat.toUInt8 := by
  induction s with
  | nil => rfl
  | cons c s ih =>
    have first := encode_ascii (h c List.mem_cons_self)
    have rest := ih fun d member => h d (List.mem_cons_of_mem c member)
    unfold bytesOf at rest ⊢
    simp [first, rest]

theorem high_of_mem_encode {c : Char} (h : 128 ≤ c.toNat) {b : UInt8}
    (member : b ∈ String.utf8EncodeChar c) : 128 ≤ b.toNat := by
  have beyond : ¬ c.val.toNat ≤ 0x7f := Nat.not_le_of_lt h
  unfold String.utf8EncodeChar at member
  dsimp only at member
  rw [if_neg beyond] at member
  split at member
  · simp only [List.mem_cons, List.not_mem_nil, or_false] at member
    rcases member with rfl | rfl <;> simp <;> omega
  · split at member
    · simp only [List.mem_cons, List.not_mem_nil, or_false] at member
      rcases member with rfl | rfl | rfl <;> simp <;> omega
    · simp only [List.mem_cons, List.not_mem_nil, or_false] at member
      rcases member with rfl | rfl | rfl | rfl <;> simp <;> omega

theorem eq_of_mem_encode {c d : Char} (ascii : d.toNat < 128)
    (member : d.toNat.toUInt8 ∈ String.utf8EncodeChar c) : c = d := by
  have code : d.toNat.toUInt8.toNat = d.toNat := by
    simp
    omega
  by_cases small : c.toNat < 128
  · rw [encode_ascii small, List.mem_singleton] at member
    have same := congrArg UInt8.toNat member
    rw [code] at same
    apply Char.toNat_inj.mp
    simp at same
    omega
  · have high := high_of_mem_encode (Nat.le_of_not_lt small) member
    omega

theorem pieces_bytesOf (t : List Char) :
    pieces (· == 10) (bytesOf t) = (pieces (· == '\n') t).map bytesOf := by
  induction t with
  | nil => rfl
  | cons c t ih =>
    have whole : bytesOf (c :: t) = String.utf8EncodeChar c ++ bytesOf t := List.flatMap_cons
    obtain ⟨first, more, e⟩ := List.exists_cons_of_ne_nil (Text.pieces_ne_nil (· == '\n') t)
    rw [e] at ih
    by_cases feed : c = '\n'
    · subst feed
      have mark : String.utf8EncodeChar '\n' = [10] := rfl
      rw [whole, mark, Text.pieces_mark t rfl, List.singleton_append, Text.pieces_mark _ rfl, ih, e]
      rfl
    · have free : ∀ b ∈ String.utf8EncodeChar c, (b == 10) = false := by
        intro b member
        apply beq_false_of_ne
        rintro rfl
        exact feed (eq_of_mem_encode (d := '\n') (by decide) member)
      have alone : pieces (· == 10) (String.utf8EncodeChar c) = [] ++ [String.utf8EncodeChar c] :=
        Text.pieces_of_free free
      have next : pieces (· == '\n') (c :: t) = (c :: first) :: more :=
        Text.pieces_other (beq_false_of_ne feed) e
      rw [whole, Text.pieces_append alone ih, next]
      rfl

theorem dropLastIf_bytesOf (s : List Char) :
    dropLastIf 13 (bytesOf s) = bytesOf (dropLastIf '\r' s) := by
  rcases List.eq_nil_or_concat' s with rfl | ⟨t, c, rfl⟩
  · rfl
  · have whole : bytesOf (t ++ [c]) = bytesOf t ++ String.utf8EncodeChar c := by
      rw [bytesOf_append]
      simp [bytesOf]
    by_cases ret : c = '\r'
    · subst ret
      have mark : String.utf8EncodeChar '\r' = [13] := rfl
      rw [whole, mark]
      simp [dropLastIf]
    · have other : (String.utf8EncodeChar c).getLast? ≠ some 13 := fun last =>
        ret (eq_of_mem_encode (d := '\r') (by decide) (List.mem_of_getLast? last))
      rw [whole]
      simp [dropLastIf, ret, other, whole]

/-- The lines of the bytes are the bytes of the lines. -/
theorem linesBy_bytesOf (t : List Char) :
    linesBy 10 13 (bytesOf t) = (Text.lines t).map bytesOf := by
  obtain ⟨front, last, e⟩ := Text.pieces_eq_append (· == '\n') t
  have cut : pieces (· == 10) (bytesOf t) = front.map bytesOf ++ [bytesOf last] := by
    rw [pieces_bytesOf, e, List.map_append, List.map_singleton]
  have ended : (front.map bytesOf).map (dropLastIf 13) =
      (front.map (dropLastIf '\r')).map bytesOf := by
    rw [List.map_map, List.map_map]
    exact List.map_congr_left fun s _ => dropLastIf_bytesOf s
  rw [Text.linesBy_of_pieces 13 cut, Text.lines, Text.linesBy_of_pieces '\r' e, List.map_append,
    ended]
  cases last with
  | nil => rfl
  | cons c s => simp [bytesOf]

theorem text_of_pieces {texts : List (List Char)} {bytes : List UInt8}
    (h : pieces (· == 10) bytes = texts.map bytesOf) : ∃ t, bytes = bytesOf t := by
  induction texts generalizing bytes with
  | nil => exact absurd h (Text.pieces_ne_nil _ bytes)
  | cons s texts ih =>
    cases texts with
    | nil => exact ⟨s, (Text.pieces_eq_singleton h).1⟩
    | cons s' texts =>
      obtain ⟨feed, r, isFeed, rfl, rest⟩ := Text.append_of_pieces h
      obtain ⟨t, rfl⟩ := ih rest
      have mark : bytesOf ['\n'] = [10] := rfl
      refine ⟨s ++ '\n' :: t, ?_⟩
      rw [eq_of_beq isFeed, ← List.singleton_append, ← mark, ← bytesOf_append, ← bytesOf_append]
      rfl

/-- Bytes that are no text have a line that is none, and a first one of these. -/
theorem exists_first_bad {bytes : List UInt8} (h : ∀ t, bytes ≠ bytesOf t) :
    ∃ (good : List (List Char)) (bad : List UInt8) (rest : List (List UInt8)),
      pieces (· == 10) bytes = good.map bytesOf ++ bad :: rest ∧ ∀ t, bad ≠ bytesOf t := by
  have search (ps : List (List UInt8)) : (∃ texts : List (List Char), ps = texts.map bytesOf) ∨
      ∃ (good : List (List Char)) (bad : List UInt8) (rest : List (List UInt8)),
        ps = good.map bytesOf ++ bad :: rest ∧ ∀ t, bad ≠ bytesOf t := by
    induction ps with
    | nil => exact .inl ⟨[], rfl⟩
    | cons first more ih =>
      by_cases text : ∃ t, first = bytesOf t
      · obtain ⟨t, rfl⟩ := text
        rcases ih with ⟨texts, rfl⟩ | ⟨good, bad, rest, rfl, broken⟩
        · exact .inl ⟨t :: texts, rfl⟩
        · exact .inr ⟨t :: good, bad, rest, rfl, broken⟩
      · exact .inr ⟨[], first, more, rfl, fun t same => text ⟨t, same⟩⟩
  rcases search (pieces (· == 10) bytes) with ⟨texts, all⟩ | found
  · obtain ⟨t, same⟩ := text_of_pieces all
    exact absurd same (h t)
  · exact found

/-- Whether its return is dropped or not, a line that is no text stays one. -/
theorem text?_ended {bad : List UInt8} (h : ∀ t, bad ≠ bytesOf t) :
    text? (dropLastIf 13 bad) = none := by
  rw [text?_eq_none]
  intro t same
  unfold dropLastIf at same
  split at same
  · next ends =>
    obtain ⟨front, rfl⟩ := List.getLast?_eq_some_iff.mp (eq_of_beq ends)
    have mark : bytesOf ['\r'] = [13] := rfl
    rw [List.dropLast_concat] at same
    apply h (t ++ ['\r'])
    rw [same, bytesOf_append, mark]
  · exact h t same

end Ls8.Files
