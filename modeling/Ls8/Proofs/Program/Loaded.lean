import Ls8.Program
import Ls8.Proofs.Files.Encoded

/-! A program from a file. The bytes are cut into lines before any of them is decoded, and reading
stops at the first line that is no program or no text; on the bytes of a text this is what parsing
the text gives. -/
namespace Ls8.Program

open Files (bytesOf text?)
open Text (pieces linesBy dropLastIf)

theorem ofFile_bytesOf (t : List Char) : ofFile (bytesOf t) = parse t := by
  have decoded : ((Text.lines t).map bytesOf).map text? = (Text.lines t).map some := by
    rw [List.map_map]
    exact List.map_congr_left fun s _ => Files.text?_bytesOf s
  rw [ofFile, Files.linesBy_bytesOf, decoded, parse]

def spoil : Except LoadError Program → Except LoadError Program
  | .error e => .error e
  | .ok _ => .error (.file .notText)

theorem undecodable_first {bytes bad : List UInt8} {rest : List (List UInt8)}
    (broken : ∀ t, bad ≠ bytesOf t) (cut : pieces (· == 10) bytes = bad :: rest) :
    ∃ more, (linesBy 10 13 bytes).map text? = none :: more := by
  cases rest with
  | nil =>
    have alone : pieces (· == 10) bytes = [] ++ [bad] := cut
    have shown : bad.isEmpty = false := by
      rw [List.isEmpty_eq_false_iff]
      exact broken []
    rw [Text.linesBy_of_pieces 13 alone, shown]
    exact ⟨[], by simp [Files.text?_eq_none.mpr broken]⟩
  | cons next rest =>
    have free : 10 ∉ bad := Text.free_iff.mp (Text.free_of_mem_pieces (cut ▸ List.mem_cons_self))
    obtain ⟨feed, r, isFeed, rfl, -⟩ := Text.append_of_pieces cut
    rw [eq_of_beq isFeed, Text.linesBy_append_feed 13 r free, List.map_cons,
      Files.text?_ended broken]
    exact ⟨_, rfl⟩

/-- The lines before the first undecodable one are read as lines of a text; there reading ends. -/
theorem addLines_undecodable {good : List (List Char)} {bad : List UInt8}
    {rest : List (List UInt8)} (broken : ∀ t, bad ≠ bytesOf t) {bytes : List UInt8}
    (cut : pieces (· == 10) bytes = good.map bytesOf ++ bad :: rest) (p : Program) (n : Nat) :
    p.addLines n ((linesBy 10 13 bytes).map text?) =
      spoil (p.addLines n ((Text.lines (good.flatMap (· ++ ['\n']))).map some)) := by
  induction good generalizing bytes p n with
  | nil =>
    obtain ⟨more, first⟩ := undecodable_first broken cut
    rw [first]
    rfl
  | cons s good ih =>
    rw [List.map_cons, List.cons_append] at cut
    have free : 10 ∉ bytesOf s :=
      Text.free_iff.mp (Text.free_of_mem_pieces (cut ▸ List.mem_cons_self))
    have feed : '\n' ∉ s := by
      intro inside
      exact free (List.mem_flatMap.mpr ⟨'\n', inside, List.mem_singleton_self _⟩)
    obtain ⟨next, more, e⟩ : ∃ next more, good.map bytesOf ++ bad :: rest = next :: more :=
      List.exists_cons_of_ne_nil (by simp)
    rw [e] at cut
    obtain ⟨mark, r, isFeed, rfl, left⟩ := Text.append_of_pieces cut
    have later (p : Program) := ih (left.trans e.symm) p (n + 1)
    have line : (s :: good).flatMap (· ++ ['\n']) = s ++ '\n' :: good.flatMap (· ++ ['\n']) := by
      simp
    rw [eq_of_beq isFeed, Text.linesBy_append_feed 13 r free, Files.dropLastIf_bytesOf, line,
      Text.lines, Text.linesBy_append_feed '\r' _ feed, List.map_cons, List.map_cons,
      Files.text?_bytesOf, addLines, addLines]
    cases p.addLine n (dropLastIf '\r' s) with
    | ok q => exact later q
    | error e => rfl

/-- A file that can be read is loaded as its text is parsed. If it is not the encoding of a text,
one of the lines between its feeds is the first that is not, and loading gives the error of the
lines before it, or else says that this is no text; it never gives a program. -/
theorem load_readable {d : Files} {path : List Char} {bytes : List UInt8}
    (readable : d.read path = .ok bytes) :
    (∀ t, bytes = bytesOf t → load d path = parse t) ∧
    ((∀ t, bytes ≠ bytesOf t) →
      (∃ (good : List (List Char)) (bad : List UInt8) (rest : List (List UInt8)),
        pieces (· == 10) bytes = good.map bytesOf ++ bad :: rest ∧
        (∀ t, bad ≠ bytesOf t) ∧
        load d path =
          match parse (good.flatMap (· ++ ['\n'])) with
          | .error e => .error e
          | .ok _ => .error (.file .notText)) ∧
      ∀ p, load d path ≠ .ok p) := by
  have content : load d path = ofFile bytes := by
    rw [load, readable]
    rfl
  constructor
  · rintro t rfl
    rw [content, ofFile_bytesOf]
  · intro undecodable
    obtain ⟨good, bad, rest, cut, broken⟩ := Files.exists_first_bad undecodable
    have ends : load d path = spoil (parse (good.flatMap (· ++ ['\n']))) :=
      content.trans (addLines_undecodable broken cut empty 1)
    refine ⟨⟨good, bad, rest, cut, broken, ends⟩, fun p loaded => ?_⟩
    rw [ends] at loaded
    cases parsed : parse (good.flatMap (· ++ ['\n'])) <;> rw [parsed] at loaded <;> cases loaded

theorem load_readable_both :
    let d : Files := ⟨[(["text".toList], .file (bytesOf "1 # ×\r\n10".toList)),
      (["bytes".toList], .file [49, 10, 0xFF, 10, 50])]⟩
    load d "text".toList = parse "1 # ×\r\n10".toList ∧
      ∀ p, load d "bytes".toList ≠ .ok p := by
  intro d
  constructor
  · have readable : d.read "text".toList = .ok (bytesOf "1 # ×\r\n10".toList) := by decide +kernel
    exact (load_readable readable).1 _ rfl
  · have readable : d.read "bytes".toList = .ok [49, 10, 0xFF, 10, 50] := by decide +kernel
    have undecodable : text? [49, 10, 0xFF, 10, 50] = none := by decide +kernel
    exact ((load_readable readable).2 (Files.text?_eq_none.mp undecodable)).2

end Ls8.Program
