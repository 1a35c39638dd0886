import RegisterColoring.Proofs.Scanning

namespace RegisterColoring

theorem countWhile_mono (p : Char → Bool) (w rest : List Char) :
    countWhile p w ≤ countWhile p (w ++ rest) := by
  unfold countWhile
  induction w with
  | nil => exact Nat.zero_le _
  | cons c w ih =>
    rw [List.cons_append, List.takeWhile_cons, List.takeWhile_cons]
    cases p c with
    | false => exact Nat.le_refl 0
    | true => exact Nat.succ_le_succ ih

theorem digitsAfter_mono (word w rest : List Char) :
    digitsAfter word w ≤ digitsAfter word (w ++ rest) := by
  unfold digitsAfter
  split
  next start =>
    have digits := countWhile_mono Char.isDigit (w.drop word.length) rest
    rw [if_pos (start.trans (List.prefix_append w rest)),
      List.drop_append_of_le_length start.length_le]
    unfold countDigits
    split
    · exact Nat.zero_le _
    · rw [if_neg (by omega)]
      omega
  next => exact Nat.zero_le _

/-- A rule matches no less of a longer text. -/
theorem longest_mono (rule : Rule) (w rest : List Char) :
    rule.longest w ≤ rule.longest (w ++ rest) := by
  cases rule with
  | symbol s =>
    rw [Rule.longest_symbol, Rule.longest_symbol]
    split
    next start => rw [if_pos (start.trans (List.prefix_append w rest))]
    next => exact Nat.zero_le _
  | temp =>
    rw [Rule.longest_temp, Rule.longest_temp]
    exact digitsAfter_mono _ _ _
  | slot =>
    rw [Rule.longest_slot, Rule.longest_slot]
    exact digitsAfter_mono _ _ _
  | imm =>
    rcases w with _ | ⟨c, _ | ⟨d, w⟩⟩
    · exact Nat.zero_le _
    · have none : Rule.imm.longest [c] = 0 := by
        by_cases dollar : c = '$'
        · subst dollar
          rfl
        · exact Rule.longest_eq_zero fun start => dollar (List.cons_prefix_cons.mp start).1.symm
      rw [none]
      exact Nat.zero_le _
    · rw [Rule.longest_imm, Rule.longest_imm]
      have sign : ['$', '-'] <+: c :: d :: w ++ rest ↔ ['$', '-'] <+: c :: d :: w := by
        simp [List.cons_prefix_cons]
      simp only [sign]
      split <;> exact digitsAfter_mono _ _ _
  | blank => exact countWhile_mono _ _ _
  | comment =>
    rw [Rule.longest_comment, Rule.longest_comment]
    split
    next start =>
      have length : 2 ≤ w.length := start.length_le
      have text := countWhile_mono (· ≠ '\n') (w.drop 2) rest
      rw [if_pos (start.trans (List.prefix_append w rest)), List.drop_append_of_le_length length]
      omega
    next => exact Nat.zero_le _
  | ident =>
    cases w with
    | nil => exact Nat.zero_le _
    | cons c w =>
      have bound := countWhile_mono isIdentRest w rest
      rw [List.cons_append, Rule.longest_ident, Rule.longest_ident]
      split <;> omega
  | reg =>
    cases w with
    | nil => exact Nat.zero_le _
    | cons d w =>
      by_cases percent : d = '%'
      · subst percent
        cases w with
        | nil => exact Nat.zero_le _
        | cons c w =>
          have bound := countWhile_mono isRegisterRest w rest
          rw [List.cons_append, List.cons_append, Rule.longest_reg, Rule.longest_reg]
          split <;> omega
      · rw [Rule.longest_reg_other percent]
        exact Nat.zero_le _

theorem countWhile_eq_length {p : Char → Bool} {cs : List Char} :
    countWhile p cs = cs.length ↔ ∀ c ∈ cs, p c = true := by
  rw [← List.takeWhile_eq_self_iff]
  constructor
  · exact (List.takeWhile_prefix p).eq_of_length
  · intro same
    rw [countWhile, same]

/-- An identifier that was found in a text is found when it stands alone. -/
theorem isIdent_of_best {w rest : List Char}
    (found : Rule.best Rule.all (w ++ rest) = some (.ident, w.length)) :
    IsIdent (String.ofList w) := by
  obtain ⟨pos, length, before, after, order, shorter, _⟩ := Rule.best_eq_some.mp found
  have whole : Rule.ident.longest w = w.length := by
    cases w with
    | nil => rfl
    | cons c w =>
      rw [List.cons_append, Rule.longest_ident, List.length_cons] at length
      rw [Rule.longest_ident, List.length_cons]
      split at length
      next start =>
        have count : countWhile isIdentRest (w ++ rest) = w.length := by omega
        have taken : (w ++ rest).takeWhile isIdentRest = w := by
          refine (List.prefix_of_prefix_length_le (List.takeWhile_prefix _)
            (List.prefix_append w rest) (Nat.le_of_eq count)).eq_of_length count
        have all : countWhile isIdentRest w = w.length :=
          countWhile_eq_length.mpr fun c member => by
            rw [← taken] at member
            exact List.mem_takeWhile_imp member
        rw [if_pos start, all, Nat.add_comm]
      next => omega
  rw [IsIdent, String.toList_ofList]
  exact best_whole before after (List.length_pos_iff.mp pos) order whole fun other member =>
    Nat.lt_of_le_of_lt (longest_mono other w rest) (shorter other member)

theorem digits_of_digitsAfter {word w : List Char} (text : w ≠ [])
    (whole : digitsAfter word w = w.length) : ∀ c ∈ w, c ∈ word ∨ c.isDigit = true := by
  have pos := List.length_pos_iff.mpr text
  unfold digitsAfter countDigits at whole
  split at whole
  next start =>
    obtain ⟨digits, rfl⟩ := start
    rw [List.drop_left, List.length_append] at whole
    split at whole
    next => rw [List.length_append] at pos; omega
    next =>
      have all := countWhile_eq_length.mp (show countWhile Char.isDigit digits = _ by omega)
      intro c member
      exact (List.mem_append.mp member).imp_right (all c)
  next => omega

/-- A name with a dot in it, of characters that identifiers may have, is an identifier. -/
theorem isIdent_of_dot {name : String} {c : Char} {cs : List Char} (split : name.toList = c :: cs)
    (start : isIdentStart c = true) (all : ∀ d ∈ cs, isIdentRest d = true)
    (dot : '.' ∈ name.toList) : IsIdent name := by
  have text : name.toList ≠ [] := by rw [split]; exact List.cons_ne_nil c cs
  -- a rule that comes before identifiers and matches all would have to match the dot
  have partly : ∀ word, '.' ∉ word → digitsAfter word name.toList < name.toList.length := by
    intro word without
    refine Nat.lt_of_le_of_ne (digitsAfter_le _ _) fun whole => ?_
    rcases digits_of_digitsAfter text whole '.' dot with inside | digit
    · exact without inside
    · cases digit
  refine best_whole (Symbol.all.map .symbol ++ [.temp, .slot]) [.reg, .imm, .blank, .comment] text
    rfl ?_ ?_
  · rw [split, List.length_cons, Nat.add_comm]
    rw [Rule.longest_ident, if_pos start, countWhile_eq_length.mpr all]
  · intro other member
    cases other with
    | symbol s =>
      refine Nat.lt_of_le_of_ne (longest_le _ _) fun whole => ?_
      rw [Rule.longest_symbol] at whole
      split at whole
      next front =>
        have same := front.eq_of_length whole
        rw [← same] at dot
        revert dot
        cases s <;> decide
      next =>
        have pos := List.length_pos_iff.mpr text
        omega
    | temp =>
      rw [Rule.longest_temp]
      exact partly _ (by decide)
    | slot =>
      rw [Rule.longest_slot]
      exact partly _ (by decide)
    | _ => exact absurd member (by decide)

theorem isIdentRest_of_isIdentStart {c : Char} (start : isIdentStart c = true) :
    isIdentRest c = true := by
  rw [isIdentRest, start, Bool.true_or]

theorem isIdentRest_of_mem_decimal {n : Nat} {c : Char} (member : c ∈ Nat.toDigits 10 n) :
    isIdentRest c = true := by
  rw [isIdentRest, isDigit_of_mem_decimal member, Bool.or_true]

/-- All characters of an identifier may stand inside an identifier. -/
theorem IsIdent.all {name : String} (ident : IsIdent name) :
    ∀ c ∈ name.toList, isIdentRest c = true := by
  obtain ⟨c, cs, split, start, count⟩ := ident.start
  rw [split]
  intro d member
  rcases List.mem_cons.mp member with rfl | later
  · exact isIdentRest_of_isIdentStart start
  · exact countWhile_eq_length.mp count d later

/-- The name of an entry block without a label. -/
theorem IsIdent.entry {func : String} (ident : IsIdent func) : IsIdent (func ++ ".entry") := by
  obtain ⟨c, cs, own, start, count⟩ := ident.start
  have split : (func ++ ".entry").toList = c :: (cs ++ ".entry".toList) := by
    rw [String.toList_append, own, List.cons_append]
  have added : ".entry".toList.all isIdentRest = true := by decide
  refine isIdent_of_dot split start ?_ ?_
  · intro d member
    exact (List.mem_append.mp member).elim (countWhile_eq_length.mp count d)
      (List.all_eq_true.mp added d)
  · rw [String.toList_append]
    exact List.mem_append_right _ (by decide)

/-- The name of another block without a label. -/
theorem IsIdent.numbered {func : String} (ident : IsIdent func) (n : Nat) :
    IsIdent ("." ++ func ++ "." ++ toString n) := by
  have split : ("." ++ func ++ "." ++ toString n).toList =
      '.' :: (func.toList ++ '.' :: Nat.toDigits 10 n) := by
    rw [String.toList_append, String.toList_append, String.toList_append, List.append_assoc,
      List.append_assoc]
    exact congrArg (fun digits => '.' :: (func.toList ++ '.' :: digits)) Nat.toList_repr
  refine isIdent_of_dot split rfl ?_ (by rw [split]; exact List.mem_cons_self)
  intro d member
  rcases List.mem_append.mp member with own | added
  · exact ident.all d own
  · rcases List.mem_cons.mp added with rfl | digit
    · rfl
    · exact isIdentRest_of_mem_decimal digit

end RegisterColoring
