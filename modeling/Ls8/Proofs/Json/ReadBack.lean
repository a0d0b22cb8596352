import Ls8.Json.Reader
import Ls8.Proofs.Json.Lexed

/-! A value that was written is read back, whatever white space the layout puts between the tokens. -/
namespace Ls8.Json

mutual

def tokens : Json → List Token
  | .scalar s => [.scalar s]
  | .array [] => [.openArray, .closeArray]
  | .array (v :: vs) => .openArray :: tokens v ++ itemTokens vs ++ [.closeArray]
  | .object [] => [.openObject, .closeObject]
  | .object ((k, v) :: fs) =>
    .openObject :: .scalar (.string k) :: .colon :: tokens v ++ fieldTokens fs ++ [.closeObject]

def itemTokens : List Json → List Token
  | [] => []
  | v :: vs => .comma :: tokens v ++ itemTokens vs

def fieldTokens : List (Text × Json) → List Token
  | [] => []
  | (k, v) :: fs => .comma :: .scalar (.string k) :: .colon :: tokens v ++ fieldTokens fs

end

/-- A value without numbers that are kept as they were written. -/
inductive Plain : Json → Prop where
  | scalar {s : Scalar} (whole : ∀ literal, s ≠ .real literal) : Plain (.scalar s)
  | array {items : List Json} (all : ∀ v ∈ items, Plain v) : Plain (.array items)
  | object {fields : List (Text × Json)} (all : ∀ f ∈ fields, Plain f.2) : Plain (.object fields)

structure Layout.Blank (l : Layout) : Prop where
  gap : ∀ depth, ∀ c ∈ l.gap depth, isSpace c = true
  space : ∀ c ∈ l.space, isSpace c = true

theorem blank_compact : Layout.compact.Blank := by
  constructor <;> simp [Layout.compact]

theorem blank_indented : Layout.indented.Blank := by
  constructor
  · intro depth c member
    rcases List.mem_cons.mp member with rfl | rest
    · rfl
    · rw [List.eq_of_mem_replicate rest]
      rfl
  · intro c member
    rw [List.mem_singleton.mp member]
    rfl

def Cut (l : Layout) (v : Json) : Prop := ∀ depth done s, EndsWord s →
  lex .between done (write l depth v ++ s) = lex .between ((tokens v).reverse ++ done) s

/-- The tokens of a value are put together to it again, whatever is open. -/
def Joined (v : Json) : Prop := ∀ stack ts,
  (tokens v ++ ts).foldlM accept (.value, stack) = ts.foldlM accept (.after v, stack)

section

variable {l : Layout} {v : Json} {vs : List Json} {fs : List (Text × Json)} {done : List Token}
  {s : List Char} {depth : Nat} {stack : List Frame} {ts : List Token}

theorem lex_mark {mark : Char} {t : Token} (h : advance .between mark = some ([t], .between)) :
    lex .between done (mark :: s) = lex .between (t :: done) s :=
  lex_cons h

theorem endsWord_items (h : EndsWord s) : EndsWord (writeItems l depth vs ++ s) := by
  cases vs with
  | nil => exact h
  | cons v vs => exact endsWord_cons rfl

theorem endsWord_fields (h : EndsWord s) : EndsWord (writeFields l depth fs ++ s) := by
  cases fs with
  | nil => exact h
  | cons f fs => exact endsWord_cons rfl

theorem lex_items (blank : l.Blank) (all : ∀ v ∈ vs, Cut l v) (ends : EndsWord s) :
    lex .between done (writeItems l depth vs ++ s) =
      lex .between ((itemTokens vs).reverse ++ done) s := by
  induction vs generalizing done with
  | nil => rfl
  | cons v vs ih =>
    obtain ⟨first, rest⟩ := List.forall_mem_cons.mp all
    simp only [writeItems, List.append_assoc, List.cons_append]
    rw [lex_mark rfl, lex_gap (blank.gap depth), first depth _ _ (endsWord_items ends), ih rest]
    simp [itemTokens]

theorem lex_fields (blank : l.Blank) (all : ∀ f ∈ fs, Cut l f.2) (ends : EndsWord s) :
    lex .between done (writeFields l depth fs ++ s) =
      lex .between ((fieldTokens fs).reverse ++ done) s := by
  induction fs generalizing done with
  | nil => rfl
  | cons f fs ih =>
    obtain ⟨first, rest⟩ := List.forall_mem_cons.mp all
    simp only [writeFields, List.append_assoc, List.cons_append]
    rw [lex_mark rfl, lex_gap (blank.gap depth), lex_writeText, lex_mark rfl,
      lex_gap blank.space, first depth _ _ (endsWord_fields ends), ih rest]
    simp [fieldTokens]

theorem cut_of_plain (blank : l.Blank) (plain : Plain v) : Cut l v := by
  induction plain with
  | scalar whole =>
    intro depth done s ends
    rw [write, lex_scalar whole ends]
    rfl
  | @array items _ ih =>
    intro depth done s _
    cases items with
    | nil =>
      rw [write, List.cons_append, lex_mark rfl]
      exact lex_mark rfl
    | cons v vs =>
      obtain ⟨first, rest⟩ := List.forall_mem_cons.mp ih
      have closing : EndsWord (l.gap depth ++ ']' :: s) :=
        endsWord_gap (blank.gap depth) (endsWord_cons rfl)
      simp only [write, List.append_assoc, List.cons_append, List.nil_append]
      rw [lex_mark rfl, lex_gap (blank.gap _), first _ _ _ (endsWord_items closing),
        lex_items blank rest closing, lex_gap (blank.gap _), lex_mark rfl]
      simp [tokens]
  | @object fields _ ih =>
    intro depth done s _
    cases fields with
    | nil =>
      rw [write, List.cons_append, lex_mark rfl]
      exact lex_mark rfl
    | cons f fs =>
      obtain ⟨first, rest⟩ := List.forall_mem_cons.mp ih
      have closing : EndsWord (l.gap depth ++ '}' :: s) :=
        endsWord_gap (blank.gap depth) (endsWord_cons rfl)
      simp only [write, List.append_assoc, List.cons_append, List.nil_append]
      rw [lex_mark rfl, lex_gap (blank.gap _), lex_writeText, lex_mark rfl, lex_gap blank.space,
        first _ _ _ (endsWord_fields closing), lex_fields blank rest closing,
        lex_gap (blank.gap _), lex_mark rfl]
      simp [tokens]

theorem foldlM_item (v : Json) :
    (tokens v ++ ts).foldlM accept (.item, .items [] :: stack) =
      (tokens v ++ ts).foldlM accept (.value, .items [] :: stack) := by
  cases v with
  | scalar s => rfl
  | array items => cases items <;> rfl
  | object fields => cases fields <;> rfl

theorem foldlM_items {front : List Json} (all : ∀ v ∈ vs, Joined v) :
    (itemTokens vs ++ .closeArray :: ts).foldlM accept (.after v, .items front :: stack) =
      ts.foldlM accept (.after (.array ((v :: front).reverse ++ vs)), stack) := by
  induction vs generalizing v front with
  | nil =>
    rw [List.append_nil]
    rfl
  | cons w vs ih =>
    obtain ⟨first, rest⟩ := List.forall_mem_cons.mp all
    have begun : (itemTokens (w :: vs) ++ .closeArray :: ts).foldlM accept
        (.after v, .items front :: stack) =
        (tokens w ++ (itemTokens vs ++ .closeArray :: ts)).foldlM accept
          (.value, .items (v :: front) :: stack) := by
      rw [itemTokens, List.append_assoc]
      rfl
    rw [begun, first, ih rest]
    simp

theorem foldlM_fields {front : List (Text × Json)} {k : Text} (all : ∀ f ∈ fs, Joined f.2) :
    (fieldTokens fs ++ .closeObject :: ts).foldlM accept (.after v, .fields front k :: stack) =
      ts.foldlM accept (.after (.object (((k, v) :: front).reverse ++ fs)), stack) := by
  induction fs generalizing v k front with
  | nil =>
    rw [List.append_nil]
    rfl
  | cons f fs ih =>
    obtain ⟨first, rest⟩ := List.forall_mem_cons.mp all
    have begun : (fieldTokens (f :: fs) ++ .closeObject :: ts).foldlM accept
        (.after v, .fields front k :: stack) =
        (tokens f.2 ++ (fieldTokens fs ++ .closeObject :: ts)).foldlM accept
          (.value, .fields ((k, v) :: front) f.1 :: stack) := by
      rw [fieldTokens, List.append_assoc]
      rfl
    rw [begun, first, ih rest]
    simp

theorem joined_of_plain (plain : Plain v) : Joined v := by
  induction plain with
  | scalar => exact fun stack ts => rfl
  | @array items _ ih =>
    intro stack ts
    cases items with
    | nil => rfl
    | cons v vs =>
      obtain ⟨first, rest⟩ := List.forall_mem_cons.mp ih
      have begun : (tokens (.array (v :: vs)) ++ ts).foldlM accept (.value, stack) =
          (tokens v ++ (itemTokens vs ++ .closeArray :: ts)).foldlM accept
            (.item, .items [] :: stack) := by
        rw [tokens, List.append_assoc, List.append_assoc]
        rfl
      rw [begun, foldlM_item, first, foldlM_items rest]
      rfl
  | @object fields _ ih =>
    intro stack ts
    cases fields with
    | nil => rfl
    | cons f fs =>
      obtain ⟨first, rest⟩ := List.forall_mem_cons.mp ih
      have begun : (tokens (.object (f :: fs)) ++ ts).foldlM accept (.value, stack) =
          (tokens f.2 ++ (fieldTokens fs ++ .closeObject :: ts)).foldlM accept
            (.value, .fields [] f.1 :: stack) := by
        rw [tokens, List.append_assoc, List.append_assoc]
        rfl
      rw [begun, first, foldlM_fields rest]
      rfl

/-- Whatever the layout, what was written is read back. -/
theorem read?_write (blank : l.Blank) (plain : Plain v) (depth : Nat) :
    read? (write l depth v) = some v := by
  have cut := cut_of_plain blank plain depth [] [] (by simp [EndsWord])
  have joined := joined_of_plain plain [] []
  rw [List.append_nil, List.append_nil] at cut
  rw [List.append_nil] at joined
  have done : tokens? (write l depth v) = some (tokens v) := by
    rw [tokens?_eq, cut]
    simp [lex, finish]
  rw [read?, done, Option.bind_some, ofTokens?, joined]
  rfl

end

end Ls8.Json
