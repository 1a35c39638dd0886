import RegisterColoring.Proofs.RuleConflicts

namespace RegisterColoring

namespace Rule

/-- A word that matches as much as the rule of identifiers is taken before it. -/
theorem First.not_isWord {cs : List Char} {n : Nat} (first : First all cs ident n) {other : Rule}
    (word : other.isWord = true) : other.longest cs < n := by
  obtain ⟨before, after, split, shorter, _⟩ := first.order
  have pairs := all_pairwise
  rw [split] at pairs
  have behind := (List.pairwise_cons.mp (List.pairwise_append.mp pairs).2.1).1
  have member := mem_all other
  rw [split, List.mem_append, List.mem_cons] at member
  rcases member with early | same | late
  · exact shorter other early
  · subst same
    cases word
  · rw [behind other late rfl] at word
    cases word

theorem First.longest_le {cs : List Char} {rule : Rule} {n : Nat} (first : First all cs rule n)
    (other : Rule) : other.longest cs ≤ n := by
  obtain ⟨before, after, split, shorter, longest⟩ := first.order
  have member := mem_all other
  rw [split, List.mem_append, List.mem_cons] at member
  rcases member with early | same | late
  · exact (shorter other early).le
  · exact same ▸ first.length.le
  · exact longest other late

/-- The first rule with the longest match takes what it matches. -/
theorem First.takes {w rest : List Char} {rule : Rule}
    (first : First all (w ++ rest) rule w.length) : rule.Takes w rest := by
  have matched : rule.Matches w := by
    have found := matches_take (first.length ▸ first.pos)
    rwa [first.length, List.take_left] at found
  refine ⟨matched, fun other v fits front => ?_, fun other fits => ?_⟩
  · exact (length_le_longest fits front).trans (first.longest_le other)
  · rcases conflict fits matched with same | ⟨ident, _⟩ | ⟨ident, word⟩
    · exact Or.inl same
    · exact Or.inr ident
    · subst ident
      have shorter := first.not_isWord word
      have reached := length_le_longest fits (List.prefix_append w rest)
      omega

/-- The rule that takes a piece is the first with the longest match. -/
theorem Takes.first {w rest : List Char} {rule : Rule} (takes : rule.Takes w rest) :
    First all (w ++ rest) rule w.length := by
  obtain ⟨made, makes⟩ := takes.matched
  have pos := List.length_pos_iff.mpr makes.ne_nil
  have reached := length_le_longest takes.matched (List.prefix_append w rest)
  cases found : best all (w ++ rest) with
  | none =>
    have zero := best_eq_none.mp found rule (mem_all rule)
    omega
  | some pair =>
    obtain ⟨chosen, n⟩ := pair
    have first := best_eq_some.mp found
    have fits := matches_take (first.length ▸ first.pos)
    have short := takes.longest chosen _ fits (List.take_prefix _ _)
    have whole := longest_le chosen (w ++ rest)
    have least := first.longest_le rule
    rw [List.length_take, first.length] at short
    rw [first.length] at whole
    have length : n = w.length := by omega
    subst length
    rw [first.length, List.take_left] at fits
    rcases takes.preferred chosen fits with same | ident
    · exact same ▸ first
    · subst ident
      rcases conflict fits takes.matched with same | ⟨_, word⟩ | ⟨same, _⟩
      · exact same ▸ first
      · have shorter := first.not_isWord word
        omega
      · exact same ▸ first

theorem takes_iff {w rest : List Char} {rule : Rule} :
    rule.Takes w rest ↔ best all (w ++ rest) = some (rule, w.length) :=
  ⟨fun takes => takes.first.best, fun found => (First.of_best found).takes⟩

theorem decimalValue_eq (digits : List Char) : decimalValue digits = numeralValue digits := by
  rw [numeralValue, Nat.ofDigits_eq_foldr, List.foldr_reverse, List.foldl_map, decimalValue]
  congr 1
  funext n c
  rw [Nat.cast_id, Nat.add_comm]

theorem indexToken_eq (make : Nat → Token) (digits : List Char) :
    token?.indexToken make (decimalValue digits) =
      if numeralValue digits < 4294967296 then make (numeralValue digits) else .invalid := by
  rw [decimalValue_eq]
  exact if_congr (by unfold maxIndex; omega) rfl rfl

theorem wordToken_eq (digits : List Char) :
    token?.wordToken (decimalValue digits) =
      if numeralValue digits < 9223372036854775808 then .imm (numeralValue digits)
      else .invalid := by
  rw [decimalValue_eq]
  exact if_congr (by simp only [fitsWord, Bool.and_eq_true, decide_eq_true_eq]; omega) rfl rfl

theorem wordToken_neg (digits : List Char) :
    token?.wordToken (-(decimalValue digits : Int)) =
      if numeralValue digits ≤ 9223372036854775808 then .imm (-(numeralValue digits : Int))
      else .invalid := by
  rw [decimalValue_eq]
  exact if_congr (by simp only [fitsWord, Bool.and_eq_true, decide_eq_true_eq]; omega) rfl rfl

/-- The token of a text that a rule matches. -/
theorem Makes.token? {rule : Rule} {w : List Char} {made : Option Token}
    (makes : rule.Makes w made) : rule.token? w = made := by
  cases makes with
  | temp numeral => exact congrArg some (indexToken_eq .temp _)
  | slot numeral => exact congrArg some (indexToken_eq .slot _)
  | @imm digits numeral =>
    rw [← wordToken_eq]
    obtain ⟨d, ds, rfl⟩ := List.exists_cons_of_ne_nil numeral.some
    have notMinus : d ≠ '-' := by
      rintro rfl
      exact absurd (numeral.digits '-' List.mem_cons_self) (by decide)
    simp [Rule.token?, notMinus]
  | negative numeral => exact congrArg some (wordToken_neg _)
  | _ => rfl

end Rule

end RegisterColoring
