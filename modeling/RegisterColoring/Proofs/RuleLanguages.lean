import Mathlib.Data.Nat.Digits.Defs
import RegisterColoring.Proofs.Scanning

namespace RegisterColoring

/-- A row of decimal digits, with at least one of them. -/
structure IsNumeral (cs : List Char) : Prop where
  some : cs ≠ []
  digits : ∀ c ∈ cs, c.isDigit = true

/-- The number that a row of decimal digits denotes, the last digit being that of the ones. -/
def numeralValue (cs : List Char) : Nat :=
  Nat.ofDigits 10 (cs.map fun c => c.toNat - '0'.toNat).reverse

namespace Rule

/-- The texts that a rule matches, and the token that each of them writes, if any. Indices have 32
bits and immediates 64; a number beyond that writes an invalid token. -/
inductive Makes : Rule → List Char → Option Token → Prop
  | symbol (s : Symbol) : Makes (.symbol s) s.spelling.toList (some (.symbol s))
  | temp {digits : List Char} : IsNumeral digits → Makes .temp ('t' :: digits)
      (some (if numeralValue digits < 4294967296 then .temp (numeralValue digits) else .invalid))
  | slot {digits : List Char} : IsNumeral digits → Makes .slot ('s' :: 'l' :: 'o' :: 't' :: digits)
      (some (if numeralValue digits < 4294967296 then .slot (numeralValue digits) else .invalid))
  | ident {c : Char} {cs : List Char} : isIdentStart c = true → (∀ d ∈ cs, isIdentRest d = true) →
      Makes .ident (c :: cs) (some (.ident (String.ofList (c :: cs))))
  | reg {c : Char} {cs : List Char} : c.isLower = true → (∀ d ∈ cs, isRegisterRest d = true) →
      Makes .reg ('%' :: c :: cs) (some (.reg (String.ofList ('%' :: c :: cs))))
  | imm {digits : List Char} : IsNumeral digits → Makes .imm ('$' :: digits)
      (some (if numeralValue digits < 9223372036854775808 then .imm (numeralValue digits)
        else .invalid))
  | negative {digits : List Char} : IsNumeral digits → Makes .imm ('$' :: '-' :: digits)
      (some (if numeralValue digits ≤ 9223372036854775808 then .imm (-(numeralValue digits : Int))
        else .invalid))
  | blank {cs : List Char} : cs ≠ [] → (∀ c ∈ cs, isBlank c = true) → Makes .blank cs none
  | comment {cs : List Char} : '\n' ∉ cs → Makes .comment ('/' :: '/' :: cs) none

/-- The rule matches the text. -/
def Matches (rule : Rule) (w : List Char) : Prop := ∃ made, rule.Makes w made

/-- The rule takes `w` from the front of `w ++ rest`. -/
structure Takes (rule : Rule) (w rest : List Char) : Prop where
  matched : rule.Matches w
  longest : ∀ (other : Rule) v, other.Matches v → v <+: w ++ rest → v.length ≤ w.length
  preferred : ∀ other : Rule, other.Matches w → other = rule ∨ other = .ident

end Rule

theorem take_countWhile (p : Char → Bool) (cs : List Char) :
    cs.take (countWhile p cs) = cs.takeWhile p :=
  (List.prefix_iff_eq_take.mp (List.takeWhile_prefix p)).symm

theorem mem_take_countWhile {p : Char → Bool} {cs : List Char} {c : Char}
    (member : c ∈ cs.take (countWhile p cs)) : p c = true := by
  rw [take_countWhile] at member
  exact List.mem_takeWhile_imp member

theorem length_le_countWhile {p : Char → Bool} {v cs : List Char} (all : ∀ c ∈ v, p c = true)
    (front : v <+: cs) : v.length ≤ countWhile p cs := by
  obtain ⟨rest, rfl⟩ := front
  rw [countWhile, List.takeWhile_append_of_pos all, List.length_append]
  exact Nat.le_add_right ..

theorem isNumeral_take {cs : List Char} (some : countWhile Char.isDigit cs ≠ 0) :
    IsNumeral (cs.take (countWhile Char.isDigit cs)) := by
  refine ⟨fun empty => some ?_, fun c member => mem_take_countWhile member⟩
  rw [countWhile, ← take_countWhile, empty, List.length_nil]

theorem take_digitsAfter {word cs : List Char} (pos : 0 < digitsAfter word cs) :
    ∃ digits, IsNumeral digits ∧ cs.take (digitsAfter word cs) = word ++ digits := by
  unfold digitsAfter at pos ⊢
  split at pos
  next start =>
    obtain ⟨rest, rfl⟩ := start
    rw [if_pos (List.prefix_append word rest)]
    rw [List.drop_left] at pos ⊢
    unfold countDigits at pos ⊢
    split at pos
    next => omega
    next found =>
      rw [if_neg found, List.take_length_add_append]
      exact ⟨_, isNumeral_take found, rfl⟩
  next => omega

theorem length_le_digitsAfter (word : List Char) {digits cs : List Char} (numeral : IsNumeral digits)
    (front : word ++ digits <+: cs) : (word ++ digits).length ≤ digitsAfter word cs := by
  obtain ⟨rest, rfl⟩ := front
  have count := length_le_countWhile numeral.digits (List.prefix_append digits rest)
  have pos := List.length_pos_iff.mpr numeral.some
  unfold digitsAfter countDigits
  rw [List.append_assoc, if_pos (List.prefix_append ..), List.drop_left, if_neg (by omega),
    List.length_append]
  omega

namespace Rule

theorem Makes.ne_nil {rule : Rule} {w : List Char} {made : Option Token}
    (makes : rule.Makes w made) : w ≠ [] := by
  cases makes with
  | symbol s => exact (plain_spelling s).some
  | blank some _ => exact some
  | _ => exact List.cons_ne_nil _ _

/-- What a rule finds at the front of a text, it matches. -/
theorem matches_take {rule : Rule} {cs : List Char} (pos : 0 < rule.longest cs) :
    rule.Matches (cs.take (rule.longest cs)) := by
  cases rule with
  | symbol s =>
    rw [longest_symbol] at pos ⊢
    split at pos
    next start =>
      rw [if_pos start, ← List.prefix_iff_eq_take.mp start]
      exact ⟨_, .symbol s⟩
    next => omega
  | temp =>
    rw [longest_temp] at pos ⊢
    obtain ⟨digits, numeral, text⟩ := take_digitsAfter pos
    rw [text]
    exact ⟨_, .temp numeral⟩
  | slot =>
    rw [longest_slot] at pos ⊢
    obtain ⟨digits, numeral, text⟩ := take_digitsAfter pos
    rw [text]
    exact ⟨_, .slot numeral⟩
  | ident =>
    cases cs with
    | nil => exact absurd pos (Nat.lt_irrefl 0)
    | cons c cs =>
      rw [longest_ident] at pos ⊢
      split at pos
      next start =>
        rw [if_pos start, Nat.add_comm, List.take_succ_cons]
        exact ⟨_, .ident start fun d member => mem_take_countWhile member⟩
      next => omega
  | reg =>
    have start : reg.lead <+: cs := by
      by_contra other
      rw [longest_eq_zero other] at pos
      exact absurd pos (Nat.lt_irrefl 0)
    obtain ⟨rest, rfl⟩ := start
    cases rest with
    | nil => exact absurd pos (Nat.lt_irrefl 0)
    | cons c cs =>
      rw [lead, List.cons_append, List.nil_append, longest_reg] at pos ⊢
      split at pos
      next lower =>
        rw [if_pos lower, Nat.add_comm, List.take_succ_cons, List.take_succ_cons]
        exact ⟨_, .reg lower fun d member => mem_take_countWhile member⟩
      next => omega
  | imm =>
    rw [longest_imm] at pos ⊢
    split at pos
    next minus =>
      rw [if_pos minus]
      obtain ⟨digits, numeral, text⟩ := take_digitsAfter pos
      rw [text]
      exact ⟨_, .negative numeral⟩
    next plus =>
      rw [if_neg plus]
      obtain ⟨digits, numeral, text⟩ := take_digitsAfter pos
      rw [text]
      exact ⟨_, .imm numeral⟩
  | blank =>
    have count : blank.longest cs = countWhile isBlank cs := rfl
    rw [count] at pos ⊢
    refine ⟨_, .blank (fun empty => ?_) fun c member => mem_take_countWhile member⟩
    rw [take_countWhile] at empty
    rw [countWhile, empty] at pos
    exact absurd pos (Nat.lt_irrefl 0)
  | comment =>
    rw [longest_comment] at pos ⊢
    split at pos
    next start =>
      obtain ⟨rest, rfl⟩ := start
      rw [if_pos (List.prefix_append ..), Nat.add_comm]
      have line : '\n' ∉ rest.take (countWhile (· ≠ '\n') rest) := by
        intro inside
        have other := mem_take_countWhile inside
        simp at other
      exact ⟨_, .comment line⟩
    next => omega

/-- No text at the front that a rule matches is longer than what the rule finds. -/
theorem length_le_longest {rule : Rule} {v cs : List Char} (matched : rule.Matches v)
    (front : v <+: cs) : v.length ≤ rule.longest cs := by
  obtain ⟨made, makes⟩ := matched
  cases makes with
  | symbol s => rw [longest_symbol, if_pos front]
  | temp numeral =>
    rw [longest_temp]
    exact length_le_digitsAfter ['t'] numeral front
  | slot numeral =>
    rw [longest_slot]
    exact length_le_digitsAfter ['s', 'l', 'o', 't'] numeral front
  | @ident c cs start rest =>
    obtain ⟨more, rfl⟩ := front
    have count := length_le_countWhile rest (List.prefix_append cs more)
    rw [List.cons_append, longest_ident, if_pos start, List.length_cons]
    omega
  | @reg c cs lower rest =>
    obtain ⟨more, rfl⟩ := front
    have count := length_le_countWhile rest (List.prefix_append cs more)
    rw [List.cons_append, List.cons_append, longest_reg, if_pos lower, List.length_cons,
      List.length_cons]
    omega
  | @imm digits numeral =>
    have plus : ¬ ['$', '-'] <+: cs := by
      intro minus
      have pos := List.length_pos_iff.mpr numeral.some
      have short : ['$', '-'].length ≤ ('$' :: digits).length := by
        rw [List.length_cons, List.length_singleton, List.length_cons]
        omega
      have inside := List.prefix_of_prefix_length_le minus front short
      have sign := (List.cons_prefix_cons.mp inside).2.subset (List.mem_singleton_self '-')
      exact absurd (numeral.digits '-' sign) (by decide)
    rw [longest_imm, if_neg plus]
    exact length_le_digitsAfter ['$'] numeral front
  | @negative digits numeral =>
    have minus : ['$', '-'] <+: cs := (List.prefix_append ['$', '-'] digits).trans front
    rw [longest_imm, if_pos minus]
    exact length_le_digitsAfter ['$', '-'] numeral front
  | blank _ all => exact length_le_countWhile all front
  | @comment text line =>
    obtain ⟨more, rfl⟩ := front
    have other : ∀ c ∈ text, decide (c ≠ '\n') = true := fun c member =>
      decide_eq_true (ne_of_mem_of_not_mem member line)
    have count := length_le_countWhile other (List.prefix_append text more)
    have start : ['/', '/'] <+: '/' :: '/' :: text ++ more := ⟨text ++ more, rfl⟩
    rw [longest_comment, if_pos start]
    show text.length + 2 ≤ 2 + countWhile (· ≠ '\n') (text ++ more)
    omega

end Rule

end RegisterColoring
