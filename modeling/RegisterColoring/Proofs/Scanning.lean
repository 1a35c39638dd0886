import RegisterColoring.Instr.Text
import RegisterColoring.Proofs.TokensOf
import RegisterColoring.Register

namespace RegisterColoring

theorem best_symbol (s : Symbol) :
    Rule.best Rule.all s.spelling.toList = some (.symbol s, s.spelling.toList.length) := by
  have each : ∀ s ∈ Symbol.all,
      Rule.best Rule.all s.spelling.toList = some (.symbol s, s.spelling.toList.length) := by
    decide
  exact each s s.mem_all

theorem tokensOf_mark {s : Symbol} (mark : s.isMark = true) {rest : List Char}
    (next : s = .bang → rest.head? ≠ some '=') :
    tokensOf (s.spelling.toList ++ rest) = .symbol s :: tokensOf rest :=
  (stopsAt_of_mark mark next).tokensOf (best_symbol s)

theorem tokensOf_symbol (s : Symbol) {rest : List Char} (apart : Apart rest) :
    tokensOf (s.spelling.toList ++ rest) = .symbol s :: tokensOf rest :=
  (stopsAt_of_apart (plain_spelling s) apart).tokensOf (best_symbol s)

theorem best_whole (before after : List Rule) {w : List Char} {rule : Rule} (text : w ≠ [])
    (order : Rule.all = before ++ rule :: after) (whole : rule.longest w = w.length)
    (shorter : ∀ other ∈ before, other.longest w < w.length) :
    Rule.best Rule.all w = some (rule, w.length) :=
  Rule.First.best ⟨List.length_pos_iff.mpr text, whole, before, after, order, shorter,
    fun other _ => longest_le other w⟩

theorem isDigit_of_mem_decimal {n : Nat} {c : Char} (member : c ∈ Nat.toDigits 10 n) :
    c.isDigit = true :=
  Nat.isDigit_of_mem_toDigits (by decide) (by decide) member

theorem countDigits_toDigits (lead n : Nat) :
    countDigits lead (Nat.toDigits 10 n) = lead + (Nat.toDigits 10 n).length := by
  have all : (Nat.toDigits 10 n).takeWhile Char.isDigit = Nat.toDigits 10 n :=
    List.takeWhile_eq_self_iff.mpr fun c member => isDigit_of_mem_decimal member
  unfold countDigits countWhile
  rw [all, if_neg (by simp)]

theorem decimalValue_toDigits (n : Nat) : decimalValue (Nat.toDigits 10 n) = n :=
  Nat.ofDigitChars_toDigits (by decide) (by decide)

theorem best_temp (n : Nat) : Rule.best Rule.all ('t' :: Nat.toDigits 10 n) =
    some (.temp, ('t' :: Nat.toDigits 10 n).length) := by
  refine best_whole (Symbol.all.map .symbol) [.slot, .ident, .reg, .imm, .blank, .comment]
    (List.cons_ne_nil _ _) rfl ?_ ?_
  · rw [List.length_cons, Nat.add_comm]
    exact countDigits_toDigits 1 n
  · intro other member
    obtain ⟨s, _, rfl⟩ : ∃ s ∈ Symbol.all, .symbol s = other := List.mem_map.mp member
    cases s <;> exact Nat.succ_pos _

theorem best_slot (n : Nat) : Rule.best Rule.all ('s' :: 'l' :: 'o' :: 't' :: Nat.toDigits 10 n) =
    some (.slot, ('s' :: 'l' :: 'o' :: 't' :: Nat.toDigits 10 n).length) := by
  refine best_whole (Symbol.all.map .symbol ++ [.temp]) [.ident, .reg, .imm, .blank, .comment]
    (List.cons_ne_nil _ _) rfl ?_ ?_
  · rw [List.length_cons, List.length_cons, List.length_cons, List.length_cons, Nat.add_comm]
    exact (countDigits_toDigits 4 n).trans (by omega)
  · intro other member
    cases other with
    | symbol s => cases s <;> exact Nat.succ_pos _
    | temp => exact Nat.succ_pos _
    | _ => exact absurd member (by decide)

theorem tokensOf_temp {t : Temp} (small : t ≤ maxIndex) {rest : List Char} (apart : Apart rest) :
    tokensOf ((Temp.name t).toList ++ rest) = .temp t :: tokensOf rest := by
  have text : (Temp.name t).toList = 't' :: Nat.toDigits 10 t := by
    rw [Temp.name, String.toList_append]
    exact congrArg _ Nat.toList_repr
  have token : Rule.temp.token? ('t' :: Nat.toDigits 10 t) = some (.temp t) := by
    show some (Rule.token?.indexToken .temp (decimalValue (Nat.toDigits 10 t))) = _
    rw [decimalValue_toDigits, Rule.token?.indexToken, if_pos small]
  have stops := stopsAt_of_apart ⟨List.cons_ne_nil 't' (Nat.toDigits 10 t), rfl, by simp⟩ apart
  rw [text, stops.tokensOf (best_temp t), token]
  rfl

theorem tokensOf_slot {n : Slot} (small : n ≤ maxIndex) {rest : List Char} (apart : Apart rest) :
    tokensOf ((Slot.name n).toList ++ rest) = .slot n :: tokensOf rest := by
  have text : (Slot.name n).toList = 's' :: 'l' :: 'o' :: 't' :: Nat.toDigits 10 n := by
    rw [Slot.name, String.toList_append]
    exact congrArg _ Nat.toList_repr
  have token : Rule.slot.token? ('s' :: 'l' :: 'o' :: 't' :: Nat.toDigits 10 n) =
      some (.slot n) := by
    show some (Rule.token?.indexToken .slot (decimalValue (Nat.toDigits 10 n))) = _
    rw [decimalValue_toDigits, Rule.token?.indexToken, if_pos small]
  have stops := stopsAt_of_apart
    ⟨List.cons_ne_nil 's' ('l' :: 'o' :: 't' :: Nat.toDigits 10 n), rfl, by simp⟩ apart
  rw [text, stops.tokensOf (best_slot n), token]
  rfl

theorem best_imm {cs : List Char} (whole : Rule.imm.longest ('$' :: cs) = ('$' :: cs).length) :
    Rule.best Rule.all ('$' :: cs) = some (.imm, ('$' :: cs).length) := by
  refine best_whole (Symbol.all.map .symbol ++ [.temp, .slot, .ident, .reg]) [.blank, .comment]
    (List.cons_ne_nil _ _) rfl whole ?_
  intro other member
  cases other with
  | symbol s => cases s <;> exact Nat.succ_pos _
  | temp | slot | ident | reg => exact Nat.succ_pos _
  | _ => exact absurd member (by decide)

theorem imm_toDigits (n : Nat) : Rule.imm.longest ('$' :: Nat.toDigits 10 n) =
      ('$' :: Nat.toDigits 10 n).length ∧
    Rule.imm.token? ('$' :: Nat.toDigits 10 n) = some (Rule.token?.wordToken n) := by
  have digits : ∀ c ∈ Nat.toDigits 10 n, c.isDigit = true := fun c member =>
    isDigit_of_mem_decimal member
  have value := decimalValue_toDigits n
  have count := countDigits_toDigits 1 n
  obtain ⟨d, ds, split⟩ := List.exists_cons_of_ne_nil (Nat.toDigits_ne_nil (n := n) (b := 10))
  rw [split] at digits value count ⊢
  have notMinus : d ≠ '-' := by
    rintro rfl
    exact absurd (digits '-' List.mem_cons_self) (by decide)
  constructor
  · rw [Rule.longest_imm, if_neg (by simp [notMinus.symm]), digitsAfter, if_pos (by simp)]
    exact count.trans (Nat.add_comm _ _)
  · simp [Rule.token?, notMinus, value]

theorem imm_toDigits_neg (n : Nat) : Rule.imm.longest ('$' :: '-' :: Nat.toDigits 10 n) =
      ('$' :: '-' :: Nat.toDigits 10 n).length ∧
    Rule.imm.token? ('$' :: '-' :: Nat.toDigits 10 n) =
      some (Rule.token?.wordToken (-(n : Int))) := by
  constructor
  · exact (countDigits_toDigits 2 n).trans (Nat.add_comm _ _)
  · show some (Rule.token?.wordToken (-(decimalValue (Nat.toDigits 10 n) : Int))) = _
    rw [decimalValue_toDigits]

theorem tokensOf_imm {n : Int} (fits : fitsWord n = true) {rest : List Char} (apart : Apart rest) :
    tokensOf (("$" ++ toString n).toList ++ rest) = .imm n :: tokensOf rest := by
  obtain ⟨cs, text, whole, token⟩ : ∃ cs, ("$" ++ toString n).toList = '$' :: cs ∧
      Rule.imm.longest ('$' :: cs) = ('$' :: cs).length ∧
      Rule.imm.token? ('$' :: cs) = some (Rule.token?.wordToken n) := by
    cases n with
    | ofNat m =>
      refine ⟨Nat.toDigits 10 m, ?_, imm_toDigits m⟩
      rw [String.toList_append]
      exact congrArg _ Nat.toList_repr
    | negSucc m =>
      refine ⟨'-' :: Nat.toDigits 10 (m + 1), ?_, imm_toDigits_neg (m + 1)⟩
      rw [String.toList_append]
      show _ ++ ("-" ++ Nat.repr (m + 1)).toList = _
      rw [String.toList_append, Nat.toList_repr]
      rfl
  have stops := stopsAt_of_apart ⟨List.cons_ne_nil '$' cs, rfl, by simp⟩ apart
  rw [text, stops.tokensOf (best_imm whole), token, Rule.token?.wordToken, if_pos fits]
  rfl

/-- The name is an identifier: the scanner reads it whole, and as nothing else. -/
def IsIdent (name : String) : Prop :=
  Rule.best Rule.all name.toList = some (.ident, name.toList.length)

theorem IsIdent.start {name : String} (ident : IsIdent name) : ∃ c cs, name.toList = c :: cs ∧
    isIdentStart c = true ∧ countWhile isIdentRest cs = cs.length := by
  have first := Rule.best_eq_some.mp ident
  cases split : name.toList with
  | nil =>
    rw [split] at first
    exact absurd first.pos (Nat.lt_irrefl 0)
  | cons c cs =>
    have pos := first.pos
    have length := first.length
    rw [split] at pos length
    by_cases start : isIdentStart c = true
    · rw [Rule.longest_ident, if_pos start, List.length_cons] at length
      exact ⟨c, cs, rfl, start, by omega⟩
    · rw [Rule.longest_ident, if_neg start] at length
      rw [← length] at pos
      exact absurd pos (Nat.lt_irrefl 0)

theorem plain_of_isIdentStart {c : Char} (start : isIdentStart c = true) (cs : List Char) :
    Plain (c :: cs) := by
  refine ⟨List.cons_ne_nil _ _, ?_, ?_⟩
  · by_contra blank
    have some : isBlank c = true := by simpa using blank
    rcases isBlank_cases some with rfl | rfl | rfl | rfl | rfl | rfl <;> cases start
  · rintro ⟨rest, split⟩
    cases split
    cases start

theorem IsIdent.tokensOf {name : String} (ident : IsIdent name) {rest : List Char}
    (apart : Apart rest) : tokensOf (name.toList ++ rest) = .ident name :: tokensOf rest := by
  obtain ⟨c, cs, split, start, _⟩ := ident.start
  have plain : Plain name.toList := by
    rw [split]
    exact plain_of_isIdentStart start cs
  have token : Rule.ident.token? name.toList = some (.ident name) := by
    show some (Token.ident (String.ofList name.toList)) = _
    rw [String.ofList_toList]
  rw [(stopsAt_of_apart plain apart).tokensOf ident, token]
  rfl

theorem tokensOf_register (r : Register) {rest : List Char} (apart : Apart rest) :
    tokensOf (r.name.toList ++ rest) = .reg r.name :: tokensOf rest := by
  have each : ∀ r ∈ Register.all, (r.name.toList ≠ [] ∧ isBlank (r.name.toList.headD ' ') = false ∧
      ¬ ['/', '/'] <+: r.name.toList) ∧
      Rule.best Rule.all r.name.toList = some (.reg, r.name.toList.length) := by
    decide
  obtain ⟨⟨some, blank, comment⟩, whole⟩ := each r (by cases r <;> decide)
  have token : Rule.reg.token? r.name.toList = .some (.reg r.name) := by
    show Option.some (Token.reg (String.ofList r.name.toList)) = _
    rw [String.ofList_toList]
  rw [(stopsAt_of_apart ⟨some, blank, comment⟩ apart).tokensOf whole, token]
  rfl

end RegisterColoring
