import Mathlib.Data.List.TakeWhile
import RegisterColoring.Lexeme

namespace RegisterColoring

/-- The length of a word and the digits behind it, zero if either is missing. -/
def digitsAfter (word cs : List Char) : Nat :=
  if word <+: cs then countDigits word.length (cs.drop word.length) else 0

namespace Rule

/-- What every text starts with that the rule matches. -/
def lead : Rule → List Char
  | symbol s => s.spelling.toList
  | temp => ['t']
  | slot => ['s', 'l', 'o', 't']
  | reg => ['%']
  | imm => ['$']
  | comment => ['/', '/']
  | ident | blank => []

theorem longest_eq_zero {rule : Rule} {cs : List Char} (other : ¬ rule.lead <+: cs) :
    rule.longest cs = 0 := by
  unfold longest
  split <;> simp_all [lead]

theorem longest_symbol (s : Symbol) (cs : List Char) :
    (symbol s).longest cs =
      if s.spelling.toList <+: cs then s.spelling.toList.length else 0 := by
  simp only [← List.isPrefixOf_iff_prefix]
  rfl

theorem longest_temp (cs : List Char) : temp.longest cs = digitsAfter ['t'] cs := by
  unfold digitsAfter
  split
  next start =>
    obtain ⟨rest, rfl⟩ := start
    rfl
  next other => exact longest_eq_zero other

theorem longest_slot (cs : List Char) : slot.longest cs = digitsAfter ['s', 'l', 'o', 't'] cs := by
  unfold digitsAfter
  split
  next start =>
    obtain ⟨rest, rfl⟩ := start
    rfl
  next other => exact longest_eq_zero other

theorem longest_ident (c : Char) (cs : List Char) :
    ident.longest (c :: cs) = if isIdentStart c then 1 + countWhile isIdentRest cs else 0 := rfl

theorem longest_reg (c : Char) (cs : List Char) :
    reg.longest ('%' :: c :: cs) = if c.isLower then 2 + countWhile isRegisterRest cs else 0 := rfl

theorem longest_reg_other {c : Char} (other : c ≠ '%') (cs : List Char) :
    reg.longest (c :: cs) = 0 :=
  longest_eq_zero fun start => other (List.cons_prefix_cons.mp start).1.symm

theorem longest_imm (cs : List Char) :
    imm.longest cs =
      if ['$', '-'] <+: cs then digitsAfter ['$', '-'] cs else digitsAfter ['$'] cs := by
  unfold digitsAfter
  split
  next start =>
    obtain ⟨rest, rfl⟩ := start
    rfl
  next positive =>
    split
    next start =>
      obtain ⟨rest, rfl⟩ := start
      unfold longest
      split <;> simp_all
    next other => exact longest_eq_zero other

theorem longest_comment (cs : List Char) :
    comment.longest cs =
      if ['/', '/'] <+: cs then 2 + countWhile (· ≠ '\n') (cs.drop 2) else 0 := by
  split
  next start =>
    obtain ⟨rest, rfl⟩ := start
    rfl
  next other => exact longest_eq_zero other

end Rule

theorem isBlank_cases {c : Char} (h : isBlank c = true) :
    c = ' ' ∨ c = '\t' ∨ c = '\n' ∨ c = '\x0b' ∨ c = '\x0c' ∨ c = '\r' := by
  simpa [isBlank, or_assoc] using h

theorem countWhile_le (p : Char → Bool) (cs : List Char) : countWhile p cs ≤ cs.length :=
  (List.takeWhile_prefix p).length_le

theorem digitsAfter_le (word cs : List Char) : digitsAfter word cs ≤ cs.length := by
  unfold digitsAfter
  split
  next start =>
    have length := start.length_le
    have digits := countWhile_le Char.isDigit (cs.drop word.length)
    rw [List.length_drop] at digits
    unfold countDigits
    split <;> omega
  next => exact Nat.zero_le _

/-- A match lies in the text. -/
theorem longest_le (rule : Rule) (cs : List Char) : rule.longest cs ≤ cs.length := by
  cases rule with
  | symbol s =>
    rw [Rule.longest_symbol]
    split
    next start => exact start.length_le
    next => exact Nat.zero_le _
  | temp =>
    rw [Rule.longest_temp]
    exact digitsAfter_le _ _
  | slot =>
    rw [Rule.longest_slot]
    exact digitsAfter_le _ _
  | imm =>
    rw [Rule.longest_imm]
    split <;> exact digitsAfter_le _ _
  | blank => exact countWhile_le _ _
  | comment =>
    rw [Rule.longest_comment]
    split
    next start =>
      have length := start.length_le
      have text := countWhile_le (· ≠ '\n') (cs.drop 2)
      rw [List.length_drop] at text
      simp only [List.length_cons, List.length_nil] at length
      omega
    next => exact Nat.zero_le _
  | ident =>
    cases cs with
    | nil => exact Nat.le_refl 0
    | cons c cs =>
      have bound := countWhile_le isIdentRest cs
      rw [Rule.longest_ident, List.length_cons]
      split <;> omega
  | reg =>
    cases cs with
    | nil => exact Nat.le_refl 0
    | cons d cs =>
      by_cases percent : d = '%'
      · subst percent
        cases cs with
        | nil => exact Nat.zero_le _
        | cons c cs =>
          have bound := countWhile_le isRegisterRest cs
          rw [Rule.longest_reg, List.length_cons, List.length_cons]
          split <;> omega
      · rw [Rule.longest_reg_other percent]
        exact Nat.zero_le _

end RegisterColoring
