import RegisterColoring.Proofs.RuleLengths

namespace RegisterColoring

/-- No rule goes on from `w` into `rest`. -/
def StopsAt (w rest : List Char) : Prop := ∀ rule : Rule, rule.longest (w ++ rest) = rule.longest w

/-- Characters at which every lexeme ends that started before them. -/
def isBreak (c : Char) : Bool :=
  c = ' ' || c = '\n' || c = '(' || c = ')' || c = ',' || c = ':' || c = ';'

/-- A text that starts with a break, or is empty. -/
def Apart : List Char → Prop
  | [] => True
  | c :: _ => isBreak c = true

theorem isBreak_cases {c : Char} (h : isBreak c = true) :
    c = ' ' ∨ c = '\n' ∨ c = '(' ∨ c = ')' ∨ c = ',' ∨ c = ':' ∨ c = ';' := by
  simpa [isBreak, or_assoc] using h

theorem isIdentRest_of_isBreak {c : Char} (h : isBreak c = true) : isIdentRest c = false := by
  rcases isBreak_cases h with rfl | rfl | rfl | rfl | rfl | rfl | rfl <;> rfl

theorem isRegisterRest_of_isBreak {c : Char} (h : isBreak c = true) :
    isRegisterRest c = false := by
  rcases isBreak_cases h with rfl | rfl | rfl | rfl | rfl | rfl | rfl <;> rfl

theorem isDigit_of_isBreak {c : Char} (h : isBreak c = true) : c.isDigit = false := by
  rcases isBreak_cases h with rfl | rfl | rfl | rfl | rfl | rfl | rfl <;> rfl

theorem countWhile_append {p : Char → Bool} (stops : ∀ c, isBreak c = true → p c = false)
    (w : List Char) {rest : List Char} (apart : Apart rest) :
    countWhile p (w ++ rest) = countWhile p w := by
  unfold countWhile
  induction w with
  | nil =>
    cases rest with
    | nil => rfl
    | cons b rest => rw [List.nil_append, List.takeWhile_cons_of_neg (by simp [stops b apart])]; rfl
  | cons c w ih =>
    rw [List.cons_append, List.takeWhile_cons, List.takeWhile_cons]
    cases p c with
    | false => rfl
    | true => exact congrArg Nat.succ ih

theorem countDigits_append (lead : Nat) (w : List Char) {rest : List Char} (apart : Apart rest) :
    countDigits lead (w ++ rest) = countDigits lead w := by
  unfold countDigits
  rw [countWhile_append (fun c h => isDigit_of_isBreak h) w apart]

theorem prefix_append_iff {p w rest : List Char} (inner : p.tail.any isBreak = false)
    (some : w ≠ []) (apart : Apart rest) : p <+: w ++ rest ↔ p <+: w := by
  constructor
  · rintro ⟨t, split⟩
    rcases List.append_eq_append_iff.mp split with ⟨a, whole, _⟩ | ⟨a, longer, front⟩
    · exact ⟨a, whole.symm⟩
    · cases a with
      | nil => exact ⟨[], by simpa using longer⟩
      | cons b a =>
        rw [front] at apart
        have inside : b ∈ p.tail := by
          rw [longer, List.tail_append_of_ne_nil some]
          simp
        have other := List.any_eq_false.mp inner b inside
        exact absurd apart other
  · intro short
    exact short.trans (List.prefix_append w rest)

theorem spelling_tail (s : Symbol) : s.spelling.toList.tail.any isBreak = false := by
  cases s <;> decide

theorem digitsAfter_append {word w rest : List Char} (inner : word.tail.any isBreak = false)
    (some : w ≠ []) (apart : Apart rest) : digitsAfter word (w ++ rest) = digitsAfter word w := by
  simp only [digitsAfter, prefix_append_iff inner some apart]
  split
  next start =>
    rw [List.drop_append_of_le_length start.length_le, countDigits_append _ _ apart]
  next => rfl

/-- A text that starts with neither a blank nor a comment. -/
structure Plain (w : List Char) : Prop where
  some : w ≠ []
  blank : isBlank (w.headD ' ') = false
  comment : ¬ ['/', '/'] <+: w

/-- No rule but that of comments goes on behind a break from a text that starts with no blank. -/
theorem longest_append {rule : Rule} (other : rule ≠ .comment) {w rest : List Char} (some : w ≠ [])
    (blank : isBlank (w.headD ' ') = false) (apart : Apart rest) :
    rule.longest (w ++ rest) = rule.longest w := by
  obtain ⟨c, cs, rfl⟩ := List.exists_cons_of_ne_nil some
  cases rule with
  | symbol s =>
    have same := prefix_append_iff (spelling_tail s) some apart
    simp only [Rule.longest_symbol, same]
  | temp =>
    rw [Rule.longest_temp, Rule.longest_temp, digitsAfter_append (by decide) some apart]
  | slot =>
    rw [Rule.longest_slot, Rule.longest_slot, digitsAfter_append (by decide) some apart]
  | ident =>
    rw [List.cons_append, Rule.longest_ident, Rule.longest_ident,
      countWhile_append (fun b h => isIdentRest_of_isBreak h) cs apart]
  | reg =>
    by_cases percent : c = '%'
    · subst percent
      cases cs with
      | nil =>
        cases rest with
        | nil => rfl
        | cons b rest =>
          have upper : b.isLower = false := by
            have out := isRegisterRest_of_isBreak apart
            simp only [isRegisterRest, Bool.or_eq_false_iff] at out
            exact out.1
          rw [List.cons_append, List.nil_append, Rule.longest_reg, upper]
          rfl
      | cons d cs =>
        rw [List.cons_append, List.cons_append, Rule.longest_reg, Rule.longest_reg,
          countWhile_append (fun b h => isRegisterRest_of_isBreak h) cs apart]
    · rw [List.cons_append, Rule.longest_reg_other percent, Rule.longest_reg_other percent]
  | imm =>
    have sign : ['$', '-'] <+: c :: cs ++ rest ↔ ['$', '-'] <+: c :: cs :=
      prefix_append_iff (by decide) some apart
    rw [Rule.longest_imm, Rule.longest_imm, digitsAfter_append (by decide) some apart,
      digitsAfter_append (by decide) some apart]
    simp only [sign]
  | blank =>
    simp only [List.headD_cons] at blank
    show countWhile isBlank (c :: cs ++ rest) = countWhile isBlank (c :: cs)
    simp [countWhile, blank]
  | comment => exact absurd rfl other

/-- A lexeme ends at every break. -/
theorem stopsAt_of_apart {w rest : List Char} (plain : Plain w) (apart : Apart rest) :
    StopsAt w rest := by
  obtain ⟨some, blank, comment⟩ := plain
  intro rule
  by_cases other : rule = .comment
  · subst other
    have still : ¬ ['/', '/'] <+: w ++ rest := by
      rwa [prefix_append_iff (by decide) some apart]
    rw [Rule.longest_comment, Rule.longest_comment, if_neg comment, if_neg still]
  · exact longest_append other some blank apart

/-- The symbols of one character that no other symbol continues, but for `!=`. -/
def Symbol.isMark : Symbol → Bool
  | bang | ampersand | leftParen | rightParen | star | comma | minus | colon | semicolon
  | leftBrace | rightBrace | tilde => true
  | _ => false

theorem spelling_of_mark : ∀ s ∈ Symbol.all, s.isMark = true → ∀ other ∈ Symbol.all,
    s.spelling.toList <+: other.spelling.toList →
      other.spelling.toList.drop s.spelling.toList.length = [] ∨
        s = .bang ∧ other.spelling.toList.drop s.spelling.toList.length = ['='] := by
  decide

theorem stopsAt_of_mark {s : Symbol} (mark : s.isMark = true) {rest : List Char}
    (next : s = .bang → rest.head? ≠ some '=') : StopsAt s.spelling.toList rest := by
  intro rule
  cases rule with
  | symbol other =>
    have same : other.spelling.toList <+: s.spelling.toList ++ rest ↔
        other.spelling.toList <+: s.spelling.toList := by
      refine ⟨fun ⟨t, split⟩ => ?_, fun short => short.trans (List.prefix_append _ _)⟩
      rcases List.append_eq_append_iff.mp split with ⟨a, whole, _⟩ | ⟨a, longer, front⟩
      · exact ⟨a, whole.symm⟩
      · have added := spelling_of_mark s s.mem_all mark other other.mem_all ⟨a, longer.symm⟩
        rw [longer, List.drop_left] at added
        rcases added with empty | ⟨bang, sign⟩
        · exact ⟨[], by rw [longer, empty, List.append_nil, List.append_nil]⟩
        · rw [front, sign] at next
          exact absurd rfl (next bang)
    simp only [Rule.longest_symbol, same]
  | temp => cases s <;> cases mark <;> rfl
  | slot => cases s <;> cases mark <;> rfl
  | ident => cases s <;> cases mark <;> rfl
  | reg => cases s <;> cases mark <;> rfl
  | imm => cases s <;> cases mark <;> rfl
  | blank => cases s <;> cases mark <;> rfl
  | comment => cases s <;> cases mark <;> rfl

end RegisterColoring
