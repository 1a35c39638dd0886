import RegisterColoring.Proofs.Identifiers
import RegisterColoring.Proofs.Parsing

namespace RegisterColoring

/-- A token with the values that a text can give it. -/
def Token.Spelled : Token → Prop
  | ident name => IsIdent name
  | imm n => fitsWord n = true
  | _ => True

theorem indexToken_spelled {make : Nat → Token} (all : ∀ n, (make n).Spelled) (n : Nat) :
    (Rule.token?.indexToken make n).Spelled := by
  unfold Rule.token?.indexToken
  split
  · exact all n
  · trivial

theorem wordToken_spelled (n : Int) : (Rule.token?.wordToken n).Spelled := by
  unfold Rule.token?.wordToken
  split
  next fits => exact fits
  next => trivial

theorem imm_token? (w : List Char) : ∃ n, Rule.imm.token? w = some (Rule.token?.wordToken n) := by
  by_cases sign : ['$', '-'] <+: w
  · obtain ⟨digits, rfl⟩ := sign
    exact ⟨_, rfl⟩
  · have positive : ∀ digits, w = '$' :: '-' :: digits → False := fun digits same =>
      sign (same ▸ List.prefix_append ['$', '-'] digits)
    exact ⟨decimalValue (w.drop 1), by rw [Rule.token?]; exact positive⟩

theorem token?_spelled {rule : Rule} {w rest : List Char} {token : Token}
    (best : Rule.best Rule.all (w ++ rest) = some (rule, w.length))
    (found : rule.token? w = some token) : token.Spelled := by
  cases rule with
  | symbol s =>
    cases found
    trivial
  | temp =>
    cases found
    have all : ∀ n, (Token.temp n).Spelled := fun _ => trivial
    exact indexToken_spelled all _
  | slot =>
    cases found
    have all : ∀ n, (Token.slot n).Spelled := fun _ => trivial
    exact indexToken_spelled all _
  | ident =>
    cases found
    exact isIdent_of_best best
  | reg =>
    cases found
    trivial
  | imm =>
    obtain ⟨n, value⟩ := imm_token? w
    rw [value] at found
    cases found
    exact wordToken_spelled n
  | blank => cases found
  | comment => cases found

theorem front_spelled {cs : List Char} {token : Token} (found : (front cs).1 = some token) :
    token.Spelled := by
  cases best : Rule.best Rule.all cs with
  | none =>
    unfold front at found
    rw [best] at found
    cases found
    trivial
  | some pair =>
    obtain ⟨rule, n⟩ := pair
    have short : n ≤ cs.length := by
      rw [← (Rule.best_eq_some.mp best).length]
      exact longest_le rule cs
    have split : Rule.best Rule.all (cs.take n ++ cs.drop n) = some (rule, (cs.take n).length) := by
      rw [List.take_append_drop, List.length_take_of_le short]
      exact best
    rw [front_eq best] at found
    exact token?_spelled split found

theorem tokensOf_spelled (cs : List Char) : ∀ token ∈ tokensOf cs, token.Spelled := by
  cases cs with
  | nil => exact fun token member => absurd member List.not_mem_nil
  | cons c cs =>
    intro token member
    rw [tokensOf_cons] at member
    rcases List.mem_append.mp member with here | later
    · exact front_spelled (Option.mem_toList.mp here)
    · exact tokensOf_spelled _ token later
termination_by cs.length
decreasing_by
  have short := length_drop_front c cs
  rw [List.length_cons]
  omega

/-- A constant that a text can hold. -/
def Operand.Spelled : Operand → Prop
  | const n => fitsWord n = true
  | temp _ => True

namespace Source

def Expr.Spelled : Expr → Prop
  | .binary _ left right => left.Spelled ∧ right.Spelled
  | .unary _ arg => arg.Spelled
  | .move arg => arg.Spelled
  | .call callee args => IsIdent callee ∧ ∀ arg ∈ args, arg.Spelled
  | .load _ | .addrOf _ | .slotAddr _ | .spillLoad _ => True

def Statement.Spelled : Statement → Prop
  | .assign _ value => value.Spelled
  | .store _ value => value.Spelled
  | .call callee args => IsIdent callee ∧ ∀ arg ∈ args, arg.Spelled
  | .branch cond _ _ => ∀ arg ∈ cond.operands, arg.Spelled
  | .ret value => ∀ arg ∈ value, arg.Spelled
  | .spillStore .. | .goto _ => True

def Line.Spelled : Line → Prop
  | .label name => IsIdent name
  | .statement s => s.Spelled

/-- A function whose names are identifiers and whose constants fit a word. -/
structure Func.Spelled (f : Func) : Prop where
  name : IsIdent f.name
  body : ∀ line ∈ f.body, line.Spelled

namespace Grammar

/-- A row of tokens that a text can have. -/
def SpelledRow (row : List Token) : Prop := ∀ token ∈ row, token.Spelled

theorem SpelledRow.left {row rest : List Token} (spelled : SpelledRow (row ++ rest)) :
    SpelledRow row := fun token member => spelled token (List.mem_append_left _ member)

theorem SpelledRow.right {row rest : List Token} (spelled : SpelledRow (row ++ rest)) :
    SpelledRow rest := fun token member => spelled token (List.mem_append_right _ member)

section Repetition

variable {α : Type} {P : List Token → α → Prop} {Q : α → Prop}

theorem Many.spelled {row : List Token} {values : List α} (derived : Many P row values)
    (each : ∀ {row value}, P row value → SpelledRow row → Q value) (spelled : SpelledRow row) :
    ∀ value ∈ values, Q value := by
  induction derived with
  | none => exact fun value member => absurd member List.not_mem_nil
  | more _ last ih =>
    intro value member
    rcases List.mem_append.mp member with early | late
    · exact ih spelled.left value early
    · rw [List.mem_singleton.mp late]
      exact each last spelled.right

theorem Perhaps.spelled {row : List Token} {value : Option α} (derived : Perhaps P row value)
    (each : ∀ {row value}, P row value → SpelledRow row → Q value) (spelled : SpelledRow row) :
    ∀ v ∈ value, Q v := by
  cases derived with
  | none => exact fun v member => absurd member (Option.not_mem_none v)
  | some derived =>
    intro v member
    rw [← Option.mem_some_iff.mp member]
    exact each derived spelled

theorem Comma.spelled {row : List Token} {values : List α} (derived : Comma P row values)
    (each : ∀ {row value}, P row value → SpelledRow row → Q value) (spelled : SpelledRow row) :
    ∀ value ∈ values, Q value := by
  cases derived with
  | list items last =>
    have listed : ∀ {row value}, Listed P row value → SpelledRow row → Q value := by
      intro row value derived spelled
      cases derived with
      | comma derived => exact each derived spelled.left
    intro value member
    rcases List.mem_append.mp member with early | late
    · exact items.spelled listed spelled.left value early
    · exact last.spelled each spelled.right value (Option.mem_toList.mp late)

end Repetition

theorem IsOperand.spelled {row : List Token} {x : Operand} (derived : IsOperand row x)
    (spelled : SpelledRow row) : x.Spelled := by
  cases derived with
  | temp t => trivial
  | imm n => exact spelled _ List.mem_cons_self

theorem IsCond.spelled {row : List Token} {cond : Cond} (derived : IsCond row cond)
    (spelled : SpelledRow row) : ∀ arg ∈ cond.operands, arg.Spelled := by
  intro arg member
  cases derived with
  | compare left op right =>
    rcases List.mem_cons.mp member with rfl | later
    · exact left.spelled spelled.left.left
    · rw [List.mem_singleton.mp later]
      exact right.spelled spelled.right
  | test derived =>
    rw [List.mem_singleton.mp member]
    exact derived.spelled spelled

theorem call_spelled {callee : String} {a : List Token} {args : List Operand}
    (list : Comma IsOperand a args)
    (spelled : SpelledRow ([.symbol .callWord, .ident callee, .symbol .leftParen] ++ a ++
      [.symbol .rightParen])) : IsIdent callee ∧ ∀ arg ∈ args, arg.Spelled :=
  ⟨spelled (.ident callee) (by simp),
    list.spelled IsOperand.spelled spelled.left.right⟩

theorem IsExpr.spelled {row : List Token} {e : Expr} (derived : IsExpr row e)
    (spelled : SpelledRow row) : e.Spelled := by
  cases derived with
  | binary left op right => exact ⟨left.spelled spelled.left.left, right.spelled spelled.right⟩
  | unary op arg => exact arg.spelled spelled.right
  | move arg => exact arg.spelled spelled
  | call callee list => exact call_spelled list spelled
  | _ => trivial

theorem IsStatement.spelled {row : List Token} {s : Statement} (derived : IsStatement row s)
    (spelled : SpelledRow row) : s.Spelled := by
  cases derived with
  | assign dest value => exact value.spelled spelled.right
  | store addr value => exact value.spelled spelled.right
  | call callee list => exact call_spelled list spelled
  | branch yes no cond => exact cond.spelled spelled.left.right
  | ret value => exact value.spelled IsOperand.spelled spelled.right
  | _ => trivial

theorem IsLine.spelled {row : List Token} {line : Line} (derived : IsLine row line)
    (spelled : SpelledRow row) : line.Spelled := by
  cases derived with
  | label name => exact spelled _ List.mem_cons_self
  | statement derived => exact derived.spelled spelled.left

theorem IsFunc.spelled {row : List Token} {f : Func} (derived : IsFunc row f)
    (spelled : SpelledRow row) : f.Spelled := by
  cases derived with
  | func name params body =>
    exact ⟨spelled (.ident name) (by simp),
      body.spelled IsLine.spelled spelled.left.right⟩

end Grammar

/-- What is read from a text is spelled as a text can spell it. -/
theorem parse_spelled {text : String} {program : Program} (read : parse text = .ok program) :
    ∀ f ∈ program, f.Spelled := by
  have derived := parse_eq_ok.mp read
  rw [scan_tokens] at derived
  exact derived.spelled Grammar.IsFunc.spelled (tokensOf_spelled text.toList)

/-- Reading goes on behind a part of the text that ends with a space and has no comment. -/
theorem State.run_text {s next : State} {part : String}
    (apart : part.toList.getLast? = some ' ' ∧ '/' ∉ part.toList)
    (read : s.run (tokensOf part.toList) = some next) (rest : String) :
    s.run (tokensOf (part ++ rest).toList) = next.run (tokensOf rest.toList) := by
  rw [String.toList_append, tokensOf_append_of_space apart.1 apart.2, run_append, read,
    Option.bind_some]

end Source

end RegisterColoring
