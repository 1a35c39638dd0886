import RegisterColoring.Proofs.Breaks
import RegisterColoring.Proofs.RuleChoice

namespace RegisterColoring

/-- The tokens of a text, without their places. -/
def tokensOf (cs : List Char) : List Token := (scanFrom cs.length 0 cs).map (·.token)

theorem scan_tokens (source : String) : (scan source).map (·.token) = tokensOf source.toList := rfl

theorem front_eq {cs : List Char} {rule : Rule} {n : Nat}
    (found : Rule.best Rule.all cs = some (rule, n)) : front cs = (rule.token? (cs.take n), n) := by
  unfold front
  rw [found]

theorem front_length_pos (cs : List Char) : 0 < (front cs).2 := by
  unfold front
  cases found : Rule.best Rule.all cs with
  | none => exact Nat.one_pos
  | some pair => exact (Rule.best_eq_some.mp found).pos

theorem scanFrom_cons (steps place : Nat) (c : Char) (cs : List Char) :
    (scanFrom (steps + 1) place (c :: cs)).map (·.token) = (front (c :: cs)).1.toList ++
      (scanFrom steps (place + (String.ofList ((c :: cs).take (front (c :: cs)).2)).utf8ByteSize)
        ((c :: cs).drop (front (c :: cs)).2)).map (·.token) := by
  rw [scanFrom, List.map_append]
  cases (front (c :: cs)).1 <;> rfl

theorem length_drop_front (c : Char) (cs : List Char) :
    ((c :: cs).drop (front (c :: cs)).2).length ≤ cs.length := by
  have pos := front_length_pos (c :: cs)
  rw [List.length_drop, List.length_cons]
  omega

/-- Neither the place nor the number of steps matters, if there are enough. -/
theorem scanFrom_tokens {cs : List Char} {steps steps' : Nat} (enough : cs.length ≤ steps)
    (enough' : cs.length ≤ steps') (place place' : Nat) :
    (scanFrom steps place cs).map (·.token) = (scanFrom steps' place' cs).map (·.token) := by
  induction steps generalizing steps' place place' cs with
  | zero =>
    have empty : cs = [] := List.length_eq_zero_iff.mp (Nat.le_zero.mp enough)
    subst empty
    cases steps' <;> rfl
  | succ steps ih =>
    cases cs with
    | nil => cases steps' <;> rfl
    | cons c cs =>
      cases steps' with
      | zero => simp at enough'
      | succ steps' =>
        rw [List.length_cons] at enough enough'
        have short := length_drop_front c cs
        rw [scanFrom_cons, scanFrom_cons]
        exact congrArg _ (ih (by omega) (by omega) _ _)

@[simp] theorem tokensOf_nil : tokensOf [] = [] := rfl

theorem tokensOf_cons (c : Char) (cs : List Char) :
    tokensOf (c :: cs) = (front (c :: cs)).1.toList ++
      tokensOf ((c :: cs).drop (front (c :: cs)).2) := by
  unfold tokensOf
  rw [List.length_cons, scanFrom_cons]
  exact congrArg _ (scanFrom_tokens (length_drop_front c cs) (Nat.le_refl _) _ _)

theorem tokensOf_best {cs : List Char} {rule : Rule} {n : Nat}
    (found : Rule.best Rule.all cs = some (rule, n)) :
    tokensOf cs = (rule.token? (cs.take n)).toList ++ tokensOf (cs.drop n) := by
  cases cs with
  | nil => cases found
  | cons c cs => rw [tokensOf_cons, front_eq found]

theorem StopsAt.tokensOf {w rest : List Char} {rule : Rule} (stops : StopsAt w rest)
    (alone : Rule.best Rule.all w = some (rule, w.length)) :
    tokensOf (w ++ rest) = (rule.token? w).toList ++ tokensOf rest := by
  have found := (Rule.best_congr fun rule _ => stops rule).trans alone
  rw [tokensOf_best found, List.take_left, List.drop_left]

theorem plain_spelling (s : Symbol) : Plain s.spelling.toList := by
  have each : ∀ s ∈ Symbol.all, s.spelling.toList ≠ [] ∧
      isBlank (s.spelling.toList.headD ' ') = false ∧ ¬ ['/', '/'] <+: s.spelling.toList := by
    decide
  obtain ⟨some, blank, comment⟩ := each s s.mem_all
  exact ⟨some, blank, comment⟩

/-- Nothing but a row of blanks starts with a blank. -/
theorem longest_of_isBlank {c : Char} (h : isBlank c = true) (cs : List Char) {rule : Rule}
    (other : rule ≠ .blank) : rule.longest (c :: cs) = 0 := by
  cases rule with
  | symbol s =>
    refine if_neg fun start => ?_
    obtain ⟨rest, split⟩ := List.isPrefixOf_iff_prefix.mp start
    obtain ⟨d, ds, spelled⟩ := List.exists_cons_of_ne_nil (plain_spelling s).some
    have first := (plain_spelling s).blank
    rw [spelled] at split first
    cases split
    rw [List.headD_cons, h] at first
    cases first
  | blank => exact absurd rfl other
  | _ => rcases isBlank_cases h with rfl | rfl | rfl | rfl | rfl | rfl <;> rfl

theorem best_blank {c : Char} (h : isBlank c = true) (cs : List Char) :
    Rule.best Rule.all (c :: cs) = some (.blank, countWhile isBlank (c :: cs)) := by
  have pos : 0 < countWhile isBlank (c :: cs) := by simp [countWhile, h]
  refine Rule.First.best ⟨pos, rfl, Symbol.all.map .symbol ++ [.temp, .slot, .ident, .reg, .imm],
    [.comment], rfl, ?_, ?_⟩
  · intro other member
    rw [longest_of_isBlank h cs (by rintro rfl; exact absurd member (by decide))]
    exact pos
  · intro other member
    rw [List.mem_singleton.mp member, longest_of_isBlank h cs (by decide)]
    exact Nat.zero_le _

theorem tokensOf_dropWhile_blank (cs : List Char) :
    tokensOf (cs.dropWhile isBlank) = tokensOf cs := by
  cases cs with
  | nil => rfl
  | cons c cs =>
    by_cases h : isBlank c = true
    · have after : (c :: cs).drop (countWhile isBlank (c :: cs)) = (c :: cs).dropWhile isBlank := by
        nth_rewrite 2 [← List.takeWhile_append_dropWhile (p := isBlank) (l := c :: cs)]
        exact List.drop_left
      rw [tokensOf_best (best_blank h cs), after]
      rfl
    · rw [List.dropWhile_cons_of_neg h]

/-- A blank in front adds nothing. -/
theorem tokensOf_blank {c : Char} (h : isBlank c = true) (cs : List Char) :
    tokensOf (c :: cs) = tokensOf cs := by
  rw [← tokensOf_dropWhile_blank (c :: cs), List.dropWhile_cons_of_pos h, tokensOf_dropWhile_blank]

/-- No symbol goes on behind the first of two slashes. -/
theorem longest_slashes (s : Symbol) (cs : List Char) :
    (Rule.symbol s).longest ('/' :: '/' :: cs) ≤ 1 := by
  rw [Rule.longest_symbol]
  split
  next start =>
    by_contra long
    have slashes : ['/', '/'] <+: '/' :: '/' :: cs := List.prefix_append ['/', '/'] cs
    exact (plain_spelling s).comment
      (List.prefix_of_prefix_length_le slashes start (Nat.not_le.mp long))
  next => exact Nat.zero_le 1

/-- A comment and the end of its line add nothing. -/
theorem tokensOf_comment {text : List Char} (line : '\n' ∉ text) (rest : List Char) :
    tokensOf ('/' :: '/' :: text ++ '\n' :: rest) = tokensOf rest := by
  have inside : countWhile (· ≠ '\n') (text ++ '\n' :: rest) = text.length := by
    unfold countWhile
    have other : ∀ c ∈ text, decide (c ≠ '\n') = true := fun c member =>
      decide_eq_true (ne_of_mem_of_not_mem member line)
    rw [List.takeWhile_append_of_pos other]
    simp
  have length : Rule.comment.longest ('/' :: '/' :: text ++ '\n' :: rest) = text.length + 2 := by
    show 2 + countWhile (· ≠ '\n') (text ++ '\n' :: rest) = _
    rw [inside, Nat.add_comm]
  have found : Rule.best Rule.all ('/' :: '/' :: text ++ '\n' :: rest) =
      some (.comment, text.length + 2) := by
    refine Rule.First.best ⟨by omega, length, Symbol.all.map .symbol ++
      [.temp, .slot, .ident, .reg, .imm, .blank], [], rfl, ?_, by simp⟩
    intro other member
    cases other with
    | symbol s =>
      have bound := longest_slashes s (text ++ '\n' :: rest)
      rw [← List.cons_append, ← List.cons_append] at bound
      omega
    | comment => exact absurd member (by decide)
    | _ => exact Nat.succ_pos _
  have after : ('/' :: '/' :: text ++ '\n' :: rest).drop (text.length + 2) = '\n' :: rest := by
    simp
  rw [tokensOf_best found, after]
  exact tokensOf_blank rfl rest

theorem front_length_le {w : List Char} (some : w ≠ []) : (front w).2 ≤ w.length := by
  unfold front
  cases found : Rule.best Rule.all w with
  | none => exact List.length_pos_iff.mpr some
  | some pair =>
    have first := Rule.best_eq_some.mp found
    rw [← first.length]
    exact longest_le pair.1 w

theorem StopsAt.front_eq {w rest : List Char} (stops : StopsAt w rest) (some : w ≠ []) :
    front (w ++ rest) = front w := by
  have same : Rule.best Rule.all (w ++ rest) = Rule.best Rule.all w :=
    Rule.best_congr fun rule _ => stops rule
  have inside := front_length_le some
  unfold front at inside ⊢
  rw [same]
  cases found : Rule.best Rule.all w with
  | none => rfl
  | some pair =>
    rw [found] at inside
    simp only [List.take_append_of_le_length inside]

/-- The tokens of a text whose lexemes all end where another text starts. -/
theorem tokensOf_append {w rest : List Char}
    (stops : ∀ front back, w = front ++ back → back ≠ [] → isBlank (back.headD ' ') = false →
      StopsAt back rest) : tokensOf (w ++ rest) = tokensOf w ++ tokensOf rest := by
  -- Each step drops a blank or the lexeme in front, so the induction is on the length.
  induction length : w.length using Nat.strong_induction_on generalizing w with
  | h n ih =>
    subst length
    cases w with
    | nil => rfl
    | cons c cs =>
      by_cases blank : isBlank c = true
      · rw [List.cons_append, tokensOf_blank blank, tokensOf_blank blank]
        refine ih cs.length (Nat.lt_succ_self _) (fun front back split => ?_) rfl
        exact stops (c :: front) back (congrArg (c :: ·) split)
      · have same := (stops [] (c :: cs) rfl (List.cons_ne_nil c cs)
          (Bool.eq_false_iff.mpr blank)).front_eq (List.cons_ne_nil c cs)
        have shorter := length_drop_front c cs
        have inside := front_length_le (List.cons_ne_nil c cs)
        rw [List.cons_append] at same
        rw [List.cons_append, tokensOf_cons, tokensOf_cons, same, ← List.cons_append,
          List.drop_append_of_le_length inside, List.append_assoc]
        refine congrArg _ (ih _ (Nat.lt_succ_of_le shorter) (fun front back split => ?_) rfl)
        refine stops ((c :: cs).take (RegisterColoring.front (c :: cs)).2 ++ front) back ?_
        rw [List.append_assoc, ← split, List.take_append_drop]

/-- The tokens of a text that ends with a space and has no comment, and of a text behind it. -/
theorem tokensOf_append_of_space {w : List Char} (last : w.getLast? = some ' ') (plain : '/' ∉ w)
    (rest : List Char) : tokensOf (w ++ rest) = tokensOf w ++ tokensOf rest := by
  obtain ⟨v, rfl⟩ := List.getLast?_eq_some_iff.mp last
  have apart : ∀ rest, tokensOf (v ++ ' ' :: rest) = tokensOf v ++ tokensOf rest := by
    intro rest
    rw [tokensOf_append fun front back split some blank => ?_, tokensOf_blank rfl rest]
    refine stopsAt_of_apart ⟨some, blank, fun comment => plain ?_⟩ rfl
    rw [split, List.append_assoc]
    exact List.mem_append_right _ (List.mem_append_left _ (comment.subset List.mem_cons_self))
  rw [List.append_assoc, apart [], tokensOf_nil, List.append_nil]
  exact apart rest

end RegisterColoring
