import RegisterColoring.Proofs.RuleLanguages

namespace RegisterColoring

namespace Rule

/-- The characters with which the texts of a rule begin. -/
def starts : Rule → Char → Bool
  | symbol s, c => s.spelling.toList.head? = some c
  | temp, c => c = 't'
  | slot, c => c = 's'
  | ident, c => isIdentStart c
  | reg, c => c = '%'
  | imm, c => c = '$'
  | blank, c => isBlank c
  | comment, c => c = '/'

theorem Makes.starts {rule : Rule} {c : Char} {cs : List Char} {made : Option Token}
    (makes : rule.Makes (c :: cs) made) : rule.starts c = true := by
  generalize text : c :: cs = w at makes
  cases makes with
  | symbol s => simp [Rule.starts, ← text]
  | ident start _ =>
    cases text
    exact start
  | blank _ all => exact all c (text ▸ List.mem_cons_self)
  | _ =>
    cases text
    rfl

/-- The rules whose texts may also be identifiers. -/
def isWord : Rule → Bool
  | symbol _ | temp | slot => true
  | _ => false

/-- In the order of the rules, that of identifiers comes behind those of words. -/
theorem all_pairwise : all.Pairwise fun a b => a = ident → b.isWord = false := by decide

theorem mem_all (rule : Rule) : rule ∈ all := by
  cases rule with
  | symbol s => exact List.mem_append_left _ (List.mem_map.mpr ⟨s, s.mem_all, rfl⟩)
  | _ => exact List.mem_append_right _ (by decide)

theorem spelling_inj {s t : Symbol} (same : s.spelling.toList = t.spelling.toList) : s = t := by
  have first := best_symbol s
  rw [same, best_symbol t] at first
  cases first
  rfl

/-- No rule but that of identifiers matches the text of a symbol. -/
theorem conflict_symbol {rule : Rule} {s : Symbol} {w : List Char} (first : (symbol s).Matches w)
    (second : rule.Matches w) : rule = symbol s ∨ rule = ident := by
  have others : ∀ s ∈ Symbol.all, ∀ rule ∈ [temp, slot, reg, imm, blank, comment],
      rule.longest s.spelling.toList = 0 := by decide
  obtain ⟨made, spelled⟩ := first
  cases spelled
  have found := length_le_longest second (List.prefix_refl _)
  have pos := List.length_pos_iff.mpr (plain_spelling s).some
  cases rule with
  | symbol t =>
    obtain ⟨made, makes⟩ := second
    generalize text : s.spelling.toList = w at makes
    cases makes
    exact Or.inl (congrArg symbol (spelling_inj text).symm)
  | ident => exact Or.inr rfl
  | _ =>
    rw [others s s.mem_all _ (by decide)] at found
    omega

/-- The rule of neither symbols nor identifiers whose texts begin with a character. -/
def byFirst (c : Char) : Rule :=
  if c = 't' then temp
  else if c = 's' then slot
  else if c = '%' then reg
  else if c = '$' then imm
  else if c = '/' then comment
  else blank

theorem eq_byFirst {rule : Rule} {c : Char} (start : rule.starts c = true)
    (other : rule ≠ ident) (plain : ∀ s, rule ≠ symbol s) : rule = byFirst c := by
  cases rule with
  | symbol s => exact absurd rfl (plain s)
  | ident => exact absurd rfl other
  | blank => rcases isBlank_cases start with rfl | rfl | rfl | rfl | rfl | rfl <;> rfl
  | _ =>
    cases of_decide_eq_true start
    rfl

theorem isWord_of_ident {rule : Rule} {c : Char} (letter : isIdentStart c = true)
    (start : rule.starts c = true) (other : rule ≠ ident) : rule.isWord = true := by
  cases rule with
  | symbol s => rfl
  | temp => rfl
  | slot => rfl
  | ident => exact absurd rfl other
  | blank => rcases isBlank_cases start with rfl | rfl | rfl | rfl | rfl | rfl <;> cases letter
  | _ =>
    cases of_decide_eq_true start
    cases letter

/-- Different rules that match the same text are that of identifiers and one for words. -/
theorem conflict {a b : Rule} {w : List Char} (first : a.Matches w) (second : b.Matches w) :
    a = b ∨ (a = ident ∧ b.isWord = true) ∨ (b = ident ∧ a.isWord = true) := by
  by_cases symbolA : ∃ s, a = symbol s
  · obtain ⟨s, rfl⟩ := symbolA
    rcases conflict_symbol first second with same | other
    · exact Or.inl same.symm
    · exact Or.inr (Or.inr ⟨other, rfl⟩)
  by_cases symbolB : ∃ s, b = symbol s
  · obtain ⟨s, rfl⟩ := symbolB
    rcases conflict_symbol second first with same | other
    · exact Or.inl same
    · exact Or.inr (Or.inl ⟨other, rfl⟩)
  obtain ⟨made, makesA⟩ := first
  obtain ⟨made', makesB⟩ := second
  obtain ⟨c, cs, rfl⟩ := List.exists_cons_of_ne_nil makesA.ne_nil
  have startA := makesA.starts
  have startB := makesB.starts
  by_cases identA : a = ident
  · subst identA
    by_cases identB : b = ident
    · exact Or.inl identB.symm
    · exact Or.inr (Or.inl ⟨rfl, isWord_of_ident startA startB identB⟩)
  · by_cases identB : b = ident
    · subst identB
      exact Or.inr (Or.inr ⟨rfl, isWord_of_ident startB startA identA⟩)
    · rw [eq_byFirst startA identA fun s same => symbolA ⟨s, same⟩,
        eq_byFirst startB identB fun s same => symbolB ⟨s, same⟩]
      exact Or.inl rfl

end Rule

end RegisterColoring
