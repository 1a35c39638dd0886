import RegisterColoring.Proofs.WrittenInstrs

namespace RegisterColoring

open Report
open Source (Param Line)
open Source.Grammar

theorem unlines_cons (line : String) (lines : List String) :
    unlines (line :: lines) = line ++ "\n" ++ unlines lines := by
  rw [unlines, List.map_cons, String.join_cons]
  rfl

theorem unlines_append (a b : List String) : unlines (a ++ b) = unlines a ++ unlines b := by
  rw [unlines, List.map_append, String.join_append]
  rfl

/-- The tokens of some lines. -/
def LineTokens (lines : List String) (row : List Token) : Prop :=
  ∀ rest, tokensOf ((unlines lines).toList ++ rest) = row ++ tokensOf rest

theorem LineTokens.nil : LineTokens [] [] := fun _ => rfl

theorem LineTokens.append {a b : List String} {row rest : List Token} (first : LineTokens a row)
    (last : LineTokens b rest) : LineTokens (a ++ b) (row ++ rest) := by
  intro more
  rw [unlines_append, String.toList_append, List.append_assoc, first, last, List.append_assoc]

theorem LineTokens.single {line : String} {row : List Token}
    (read : ∀ rest, tokensOf (line.toList ++ '\n' :: rest) = row ++ tokensOf rest) :
    LineTokens [line] row := by
  intro rest
  rw [unlines_cons]
  simp only [String.toList_append, List.append_assoc]
  exact read rest

/-- The tokens of some lines derive lines of a body. -/
def WritesLines (lines : List String) (body : List Line) : Prop :=
  ∃ row, Many IsLine row body ∧ LineTokens lines row

theorem WritesLines.nil : WritesLines [] [] := ⟨[], .none, .nil⟩

theorem WritesLines.append {a b : List String} {body more : List Line} (first : WritesLines a body)
    (last : WritesLines b more) : WritesLines (a ++ b) (body ++ more) := by
  obtain ⟨row, isFirst, readFirst⟩ := first
  obtain ⟨rest, isLast, readLast⟩ := last
  exact ⟨row ++ rest, isFirst.append isLast, readFirst.append readLast⟩

theorem WritesLines.flatten {α : Type} {xs : List α} {text : Nat → α → List String}
    {body : α → List Line} (each : ∀ k x, x ∈ xs → WritesLines (text k x) (body x)) :
    WritesLines (xs.mapIdx text).flatten (xs.flatMap body) := by
  induction xs generalizing text with
  | nil => exact .nil
  | cons x xs ih =>
    rw [List.mapIdx_cons, List.flatten_cons, List.flatMap_cons]
    exact (each 0 x List.mem_cons_self).append
      (ih fun k y member => each (k + 1) y (List.mem_cons_of_mem _ member))

/-- A line that leaves no tokens. -/
def SilentLine (line : String) : Prop :=
  ∀ rest, tokensOf (line.toList ++ '\n' :: rest) = tokensOf rest

theorem LineTokens.of_silent {lines : List String} (silent : ∀ line ∈ lines, SilentLine line) :
    LineTokens lines [] := by
  induction lines with
  | nil => exact .nil
  | cons line lines ih =>
    have first : LineTokens [line] [] := .single (silent line List.mem_cons_self)
    exact first.append (ih fun other member => silent other (List.mem_cons_of_mem _ member))

theorem WritesLines.of_silent {lines : List String} (silent : ∀ line ∈ lines, SilentLine line) :
    WritesLines lines [] :=
  ⟨[], .none, .of_silent silent⟩

theorem silentLine_empty : SilentLine "" := fun rest => tokensOf_blank rfl rest

theorem tokensOf_blanks {lead : List Char} (blank : lead.all isBlank = true) (rest : List Char) :
    tokensOf (lead ++ rest) = tokensOf rest := by
  induction lead with
  | nil => rfl
  | cons c lead ih =>
    rw [List.all_cons, Bool.and_eq_true] at blank
    rw [List.cons_append, tokensOf_blank blank.1, ih blank.2]

/-- A function that can be written and read again. -/
structure Func.Readable (f : Func) : Prop where
  name : IsIdent f.name
  labels : ∀ block ∈ f.blocks, IsIdent block.label
  params : ∀ p ∈ f.params, p ≤ maxIndex
  instrs : ∀ i ∈ f.instrs, i.Readable

/-- The parameter as a header writes it, with its pin. -/
def Func.writtenParam (f : Func) (p : Temp) : Param :=
  ⟨p, ((f.pinned.get? p).bind Register.ofColor?).map (·.name)⟩

/-- The lines of a block: its label and its instructions. -/
def Func.writtenBlock (f : Func) (block : Block) : List Line :=
  .label block.label :: block.instrs.map fun i => .statement (i.statement f.blockName)

/-- The written function of which the listing is the text. -/
def Func.toSource (f : Func) : Source.Func :=
  ⟨f.name, f.params.map f.writtenParam, f.blocks.flatMap f.writtenBlock⟩

/-- The annotation adds nothing but comments to a listing. -/
structure Annotation.Commented (a : Annotation) (f : Func) : Prop where
  opening : ∀ b, ∀ line ∈ a.opening b, SilentLine line
  line : ∀ b k i, ∃ tail, a.line b k i = some ("  " ++ i.text f.naming ++ ";" ++ tail) ∧
    SilentLine tail
  closing : ∀ b, ∀ line ∈ a.closing b, SilentLine line

section Functions

variable {f : Func}

theorem Func.Readable.blockName (readable : f.Readable) (b : BlockId) :
    IsIdent (f.blockName b) := by
  unfold Func.blockName
  split
  next block found => exact readable.labels block (List.mem_of_getElem? found)
  next =>
    have split : (".b" ++ toString b).toList = '.' :: 'b' :: Nat.toDigits 10 b := by
      rw [String.toList_append]
      exact congrArg (fun digits => '.' :: 'b' :: digits) Nat.toList_repr
    refine isIdent_of_dot split rfl ?_ (by rw [split]; exact List.mem_cons_self)
    intro d member
    rcases List.mem_cons.mp member with rfl | digit
    · rfl
    · exact isIdentRest_of_mem_decimal digit

theorem writes_label {label : String} (ident : IsIdent label) :
    WritesLines [label ++ ":"] [.label label] := by
  refine ⟨_, .cons (.label label) .none, .single fun rest => ?_⟩
  rw [String.toList_append, List.append_assoc, ident.tokensOf]
  · exact congrArg _ ((tokensOf_lone .colon (by decide) _).trans
      (congrArg _ (tokensOf_blank rfl rest)))
  · rfl

theorem writes_statement {i : Instr} {name : BlockId → String} {tail : String}
    (writes : Writes IsStatement (i.text f.naming).toList (i.statement name))
    (silent : SilentLine tail) :
    WritesLines ["  " ++ i.text f.naming ++ ";" ++ tail] [.statement (i.statement name)] := by
  obtain ⟨row, isStatement, read⟩ := writes
  refine ⟨_, .cons (.statement isStatement) .none, .single fun rest => ?_⟩
  simp only [String.toList_append, List.append_assoc]
  have semicolon := tokensOf_lone .semicolon (by decide) (tail.toList ++ '\n' :: rest)
  rw [silent rest] at semicolon
  have spaces : "  ".toList.all isBlank = true := by decide
  rw [tokensOf_blanks spaces, read]
  · exact congrArg _ semicolon
  · rfl

theorem writes_block (readable : f.Readable) {a : Annotation} (commented : a.Commented f)
    {block : Block} (member : block ∈ f.blocks) (b : BlockId) :
    WritesLines (blockLines a block.label b block) (f.writtenBlock block) := by
  have instrs : WritesLines (block.instrs.mapIdx fun k i => (a.line b k i).toList).flatten
      (block.instrs.map fun i => .statement (i.statement f.blockName)) := by
    rw [List.map_eq_flatMap]
    refine .flatten fun k i inside => ?_
    obtain ⟨tail, line, silent⟩ := commented.line b k i
    have writes := writes_instr readable.blockName
      (readable.instrs i (List.mem_flatMap.mpr ⟨block, member, inside⟩))
    rw [line]
    exact writes_statement writes silent
  have whole := ((writes_label (readable.labels block member)).append
    (.of_silent (commented.opening b))).append (instrs.append (.of_silent (commented.closing b)))
  simpa [blockLines, Func.writtenBlock] using whole

theorem writes_param (readable : f.Readable) {p : Temp} (member : p ∈ f.params) :
    Writes IsParam (paramText f p).toList (f.writtenParam p) := by
  have small := readable.params p member
  unfold paramText Func.writtenParam
  cases (f.pinned.get? p).bind Register.ofColor? with
  | none => exact ⟨_, .free p, fun rest apart => tokensOf_temp small apart⟩
  | some r =>
    refine ⟨_, .pinned p r.name, fun rest apart => ?_⟩
    simp only [String.toList_append, List.append_assoc]
    rw [tokensOf_temp small]
    · exact congrArg _ ((tokensOf_lone .colon (by decide) _).trans
        (congrArg _ ((tokensOf_space _).trans (tokensOf_register r apart))))
    · rfl

theorem header_tokens (readable : f.Readable) :
    ∃ p, Comma IsParam p (f.params.map f.writtenParam) ∧
      LineTokens ["fn " ++ f.name ++ "(" ++ ", ".intercalate (paramTexts f) ++ ") \x7b"]
        ([.symbol .fnWord, .ident f.name, .symbol .leftParen] ++ p ++
          [.symbol .rightParen, .symbol .leftBrace]) := by
  obtain ⟨p, isParams, readParams⟩ := writes_list fun p member => writes_param readable member
  refine ⟨p, isParams, .single fun rest => ?_⟩
  have opening : "fn ".toList = Symbol.fnWord.spelling.toList ++ " ".toList := rfl
  have left : "(".toList = Symbol.leftParen.spelling.toList := rfl
  have right : ") \x7b".toList = Symbol.rightParen.spelling.toList ++
    (" ".toList ++ Symbol.leftBrace.spelling.toList) := rfl
  simp only [String.toList_append, List.append_assoc, opening, left, right]
  rw [tokensOf_word, readable.name.tokensOf, tokensOf_lone .leftParen (by decide), paramTexts,
    readParams, tokensOf_lone .rightParen (by decide), tokensOf_space,
    tokensOf_lone .leftBrace (by decide), tokensOf_blank rfl]
  all_goals rfl

/-- The lines of a function, with comments or without, derive its written form. -/
theorem funcLines_tokens (readable : f.Readable) {a : Annotation} (commented : a.Commented f) :
    ∃ row, IsFunc row f.toSource ∧ LineTokens (funcLines f (paramTexts f) a) row := by
  obtain ⟨p, isParams, header⟩ := header_tokens readable
  have body : WritesLines (f.blocks.mapIdx fun b block => blockLines a block.label b block).flatten
      (f.blocks.flatMap f.writtenBlock) :=
    .flatten fun b block member => writes_block readable commented member b
  obtain ⟨b, isBody, readBody⟩ := body
  have closing : LineTokens ["\x7d"] [.symbol .rightBrace] := .single fun rest =>
    (tokensOf_lone .rightBrace (by decide) _).trans (congrArg _ (tokensOf_blank rfl rest))
  exact ⟨_, .func f.name isParams isBody, (header.append readBody).append closing⟩

end Functions

end RegisterColoring
