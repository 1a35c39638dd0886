import RegisterColoring.Proofs.RulePieces

namespace RegisterColoring

/-- Blanks and comments in front of `rest`. -/
inductive Gap : List Char → List Char → Prop
  | none (rest : List Char) : Gap [] rest
  | more {rule : Rule} {w gap rest : List Char} : rule = .blank ∨ rule = .comment →
      rule.Takes w (gap ++ rest) → Gap gap rest → Gap (w ++ gap) rest

/-- What is lexed from the front of `w ++ rest` is `w`, and the token that it writes. -/
inductive Stands : List Char → List Char → Token → Prop
  | lexeme {rule : Rule} {w rest : List Char} {token : Token} :
      rule.Takes w rest → rule.Makes w (some token) → Stands w rest token
  | stray {c : Char} {rest : List Char} :
      (∀ (rule : Rule) v, v <+: c :: rest → ¬ rule.Matches v) → Stands [c] rest .invalid

/-- The number of bytes of a text. -/
def byteSize (cs : List Char) : Nat := (String.ofList cs).utf8ByteSize

/-- A text that starts at a place is covered by gaps and lexemes. -/
inductive Tiles : Nat → List Char → List Lexeme → Prop
  | done {place : Nat} {gap : List Char} : Gap gap [] → Tiles place gap []
  | lexeme {place : Nat} {gap w rest : List Char} {token : Token} {lexemes : List Lexeme} :
      Gap gap (w ++ rest) → Stands w rest token →
      Tiles (place + byteSize gap + byteSize w) rest lexemes →
      Tiles place (gap ++ (w ++ rest)) (⟨token, String.ofList w, place + byteSize gap⟩ :: lexemes)

theorem byteSize_append (v w : List Char) : byteSize (v ++ w) = byteSize v + byteSize w := by
  rw [byteSize, String.ofList_append, String.utf8ByteSize_append]
  rfl

theorem byteSize_cons (c : Char) (cs : List Char) :
    byteSize (c :: cs) = c.utf8Size + byteSize cs := by
  rw [← List.singleton_append, byteSize_append]
  refine congrArg (· + byteSize cs) ?_
  simp [byteSize]

theorem byteSize_toList (s : String) : byteSize s.toList = s.utf8ByteSize := by
  rw [byteSize, String.ofList_toList]

/-- What stands at the front of a text is the piece that a rule takes. -/
theorem front_of_takes {rule : Rule} {w rest : List Char} {made : Option Token}
    (takes : rule.Takes w rest) (makes : rule.Makes w made) :
    front (w ++ rest) = (made, w.length) := by
  rw [front_eq (Rule.takes_iff.mp takes), List.take_left, makes.token?]

theorem front_of_stands {w rest : List Char} {token : Token} (stands : Stands w rest token) :
    front (w ++ rest) = (some token, w.length) := by
  cases stands with
  | lexeme takes makes => exact front_of_takes takes makes
  | @stray c rest none =>
    have unmatched : Rule.best Rule.all (c :: rest) = .none := by
      refine Rule.best_eq_none.mpr fun rule _ => Nat.eq_zero_of_not_pos fun pos => ?_
      exact none rule _ (List.take_prefix _ _) (Rule.matches_take pos)
    show front (c :: rest) = _
    unfold front
    rw [unmatched]
    rfl

/-- Blanks and comments are all that writes no token. -/
theorem makes_none_iff {rule : Rule} {w : List Char} :
    rule.Makes w none ↔ (rule = .blank ∨ rule = .comment) ∧ rule.Matches w := by
  constructor
  · intro makes
    refine ⟨?_, none, makes⟩
    cases makes with
    | blank _ _ => exact Or.inl rfl
    | comment _ => exact Or.inr rfl
  · rintro ⟨dropped, made, makes⟩
    rcases dropped with rfl | rfl
    · cases makes with
      | blank some all => exact .blank some all
    · cases makes with
      | comment line => exact .comment line

/-- A text starts with a gap, or with a lexeme. -/
theorem exists_front {cs : List Char} (some : cs ≠ []) : ∃ w rest, cs = w ++ rest ∧ w ≠ [] ∧
    ((∃ rule, (rule = .blank ∨ rule = .comment) ∧ Rule.Takes rule w rest) ∨
      ∃ token, Stands w rest token) := by
  cases found : Rule.best Rule.all cs with
  | none =>
    obtain ⟨c, rest, rfl⟩ := List.exists_cons_of_ne_nil some
    refine ⟨[c], rest, rfl, List.cons_ne_nil c [], Or.inr ⟨.invalid, .stray ?_⟩⟩
    intro rule v front matched
    have zero := Rule.best_eq_none.mp found rule (Rule.mem_all rule)
    have reached := Rule.length_le_longest matched front
    obtain ⟨made, makes⟩ := matched
    have pos := List.length_pos_iff.mpr makes.ne_nil
    omega
  | some pair =>
    obtain ⟨rule, n⟩ := pair
    have first := Rule.best_eq_some.mp found
    have inside : n ≤ cs.length := first.length ▸ longest_le rule cs
    have takes : rule.Takes (cs.take n) (cs.drop n) := by
      refine Rule.takes_iff.mpr ?_
      rw [List.take_append_drop, List.length_take_of_le inside]
      exact found
    obtain ⟨made, makes⟩ := takes.matched
    refine ⟨_, _, (List.take_append_drop n cs).symm, makes.ne_nil, ?_⟩
    cases made with
    | none => exact Or.inl ⟨rule, (makes_none_iff.mp makes).1, takes⟩
    | some token => exact Or.inr ⟨token, .lexeme takes makes⟩

theorem Stands.ne_nil {w rest : List Char} {token : Token} (stands : Stands w rest token) :
    w ≠ [] := by
  cases stands with
  | lexeme _ makes => exact makes.ne_nil
  | stray _ => exact List.cons_ne_nil _ _

/-- One step of the scanner over the piece at the front. -/
theorem scanFrom_append {w rest : List Char} {made : Option Token} (some : w ≠ [])
    (stands : front (w ++ rest) = (made, w.length)) (steps place : Nat) :
    scanFrom (steps + 1) place (w ++ rest) =
      (made.toList.map fun token => ⟨token, String.ofList w, place⟩) ++
        scanFrom steps (place + byteSize w) rest := by
  obtain ⟨c, cs, rfl⟩ := List.exists_cons_of_ne_nil some
  rw [List.cons_append] at stands ⊢
  rw [scanFrom, stands]
  dsimp only
  rw [← List.cons_append, List.take_left, List.drop_left]
  rfl

/-- The scanner passes over a gap. -/
theorem Gap.scanFrom_eq {gap rest : List Char} (covered : Gap gap rest) {steps : Nat}
    (enough : (gap ++ rest).length ≤ steps) (place : Nat) :
    ∃ fewer, rest.length ≤ fewer ∧
      scanFrom steps place (gap ++ rest) = scanFrom fewer (place + byteSize gap) rest := by
  induction covered generalizing steps place with
  | none rest => exact ⟨steps, enough, rfl⟩
  | @more rule w gap rest dropped takes _ ih =>
    have makes := makes_none_iff.mpr ⟨dropped, takes.matched⟩
    have pos := List.length_pos_iff.mpr makes.ne_nil
    rw [List.append_assoc, List.length_append] at enough
    cases steps with
    | zero => omega
    | succ steps =>
      have shorter : (gap ++ rest).length ≤ steps := by omega
      obtain ⟨fewer, left, same⟩ := ih shorter (place + byteSize w)
      refine ⟨fewer, left, ?_⟩
      rw [List.append_assoc, scanFrom_append makes.ne_nil (front_of_takes takes makes), same,
        byteSize_append, Nat.add_assoc]
      rfl

/-- A piece of a gap in front of a covered text. -/
theorem Tiles.skip {rule : Rule} {place : Nat} {w rest : List Char} {lexemes : List Lexeme}
    (dropped : rule = .blank ∨ rule = .comment) (takes : rule.Takes w rest)
    (tiles : Tiles (place + byteSize w) rest lexemes) : Tiles place (w ++ rest) lexemes := by
  cases tiles with
  | done covered => exact .done (.more dropped (by rwa [List.append_nil]) covered)
  | lexeme covered stands tiles =>
    rw [← List.append_assoc]
    rw [Nat.add_assoc place, ← byteSize_append] at tiles ⊢
    exact .lexeme (.more dropped takes covered) stands tiles

/-- The scanner covers its text. -/
theorem tiles_scanFrom {cs : List Char} {steps : Nat} (enough : cs.length ≤ steps) (place : Nat) :
    Tiles place cs (scanFrom steps place cs) := by
  induction steps generalizing cs place with
  | zero =>
    have empty : cs = [] := List.length_eq_zero_iff.mp (Nat.le_zero.mp enough)
    subst empty
    exact .done (.none [])
  | succ steps ih =>
    by_cases empty : cs = []
    · subst empty
      exact .done (.none [])
    · obtain ⟨w, rest, rfl, some, piece⟩ := exists_front empty
      have pos := List.length_pos_iff.mpr some
      rw [List.length_append] at enough
      have shorter : rest.length ≤ steps := by omega
      have tail := ih shorter (place + byteSize w)
      rcases piece with ⟨rule, dropped, takes⟩ | ⟨token, stands⟩
      · have makes := makes_none_iff.mpr ⟨dropped, takes.matched⟩
        rw [scanFrom_append some (front_of_takes takes makes)]
        exact tail.skip dropped takes
      · rw [scanFrom_append some (front_of_stands stands)]
        exact .lexeme (.none (w ++ rest)) stands tail

/-- Only the scanner's lexemes cover a text. -/
theorem Tiles.eq_scanFrom {place : Nat} {cs : List Char} {lexemes : List Lexeme}
    (tiles : Tiles place cs lexemes) {steps : Nat} (enough : cs.length ≤ steps) :
    lexemes = scanFrom steps place cs := by
  induction tiles generalizing steps with
  | @done place gap covered =>
    have whole : (gap ++ []).length ≤ steps := by rwa [List.append_nil]
    obtain ⟨fewer, _, same⟩ := covered.scanFrom_eq whole place
    rw [List.append_nil] at same
    rw [same]
    cases fewer <;> rfl
  | @lexeme place gap w rest token lexemes covered stands _ ih =>
    obtain ⟨fewer, left, same⟩ := covered.scanFrom_eq enough place
    have pos := List.length_pos_iff.mpr stands.ne_nil
    rw [List.length_append] at left
    cases fewer with
    | zero => omega
    | succ fewer =>
      rw [same, scanFrom_append stands.ne_nil (front_of_stands stands), ← ih (by omega)]
      rfl

end RegisterColoring
