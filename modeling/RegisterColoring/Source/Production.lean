import RegisterColoring.Source

namespace RegisterColoring.Source

/-- The phrases of the grammar. Besides those that have a value of their own there is one for each
repetition and each option that the grammar writes. -/
inductive Nonterminal
  /-- An operand and a comma. -/
  | listedOperand
  | anyListedOperands
  | listedOperands
  | listedParam
  | anyListedParams
  | listedParams
  | binOp
  /-- Operands with commas between them; one more comma may stand behind the last. -/
  | operandList
  | paramList
  | cond
  | func
  | anyFuncs
  | funcs
  | statement
  | line
  | anyLines
  | lines
  | operand
  | maybeOperand
  | param
  | maybeParam
  | expr
  | program
  | unOp
deriving DecidableEq

/-- What may stand in the body of a production. -/
inductive Piece
  | terminal (a : Terminal)
  | phrase (n : Nonterminal)
deriving DecidableEq

/-- What the reader keeps of a token or of a phrase. -/
inductive Value
  | token (t : Token)
  | operand (o : Operand)
  | listedOperands (os : List Operand)
  | param (p : Param)
  | listedParams (ps : List Param)
  | binOp (op : BinOp)
  | operandList (os : List Operand)
  | paramList (ps : List Param)
  | cond (c : Cond)
  | func (f : Func)
  | funcs (fs : List Func)
  | statement (s : Statement)
  | line (l : Line)
  | lines (ls : List Line)
  | maybeOperand (o : Option Operand)
  | maybeParam (p : Option Param)
  | expr (e : Expr)
  | program (p : Program)
  | unOp (op : UnOp)

/-- The productions of the grammar, those of its repetitions and options written out. -/
inductive Production
  | listedOperand
  | noListedOperands
  | someListedOperands
  | firstListedOperand
  | nextListedOperand
  | listedParam
  | noListedParams
  | someListedParams
  | firstListedParam
  | nextListedParam
  | binOp (op : BinOp)
  | singleOperand
  | noOperands
  | operandsThenLast
  | operandsThenComma
  | singleParam
  | noParams
  | paramsThenLast
  | paramsThenComma
  | compareCond
  | testCond
  | emptyFunc
  | filledFunc
  | noFuncs
  | someFuncs
  | firstFunc
  | nextFunc
  | assignment
  | store
  | callStatement
  | spillStore
  | jump
  | branch
  | returnOperand
  | returnNothing
  | labelLine
  | statementLine
  | noLines
  | someLines
  | firstLine
  | nextLine
  | tempOperand
  | immOperand
  | givenOperand
  | omittedOperand
  | freeParam
  | pinnedParam
  | givenParam
  | omittedParam
  | binaryExpr
  | unaryExpr
  | moveExpr
  | loadExpr
  | addrOfExpr
  | slotAddrExpr
  | spillLoadExpr
  | callExpr
  | emptyProgram
  | filledProgram
  | unOp (op : UnOp)
deriving DecidableEq

/-- The piece that is a symbol. -/
def Piece.symbol (s : Symbol) : Piece := .terminal (.symbol s)

namespace Production

/-- The pieces that the production puts together. -/
def body : Production → List Piece
  | listedOperand | firstListedOperand => [.phrase .operand, .symbol .comma]
  | someListedOperands | operandsThenComma => [.phrase .listedOperands]
  | nextListedOperand => [.phrase .listedOperands, .phrase .operand, .symbol .comma]
  | listedParam | firstListedParam => [.phrase .param, .symbol .comma]
  | someListedParams | paramsThenComma => [.phrase .listedParams]
  | nextListedParam => [.phrase .listedParams, .phrase .param, .symbol .comma]
  | binOp op => [.symbol op.symbol]
  | operandsThenLast => [.phrase .listedOperands, .phrase .operand]
  | paramsThenLast => [.phrase .listedParams, .phrase .param]
  | compareCond | binaryExpr => [.phrase .operand, .phrase .binOp, .phrase .operand]
  | singleOperand | testCond | givenOperand | moveExpr => [.phrase .operand]
  | singleParam | givenParam => [.phrase .param]
  | emptyFunc =>
    [.symbol .fnWord, .terminal .ident, .symbol .leftParen, .phrase .paramList,
     .symbol .rightParen, .symbol .leftBrace, .symbol .rightBrace]
  | filledFunc =>
    [.symbol .fnWord, .terminal .ident, .symbol .leftParen, .phrase .paramList,
     .symbol .rightParen, .symbol .leftBrace, .phrase .lines, .symbol .rightBrace]
  | someFuncs | filledProgram => [.phrase .funcs]
  | firstFunc => [.phrase .func]
  | nextFunc => [.phrase .funcs, .phrase .func]
  | assignment => [.terminal .temp, .symbol .arrow, .phrase .expr]
  | store => [.symbol .star, .terminal .temp, .symbol .arrow, .phrase .operand]
  | callStatement | callExpr =>
    [.symbol .callWord, .terminal .ident, .symbol .leftParen, .phrase .operandList,
     .symbol .rightParen]
  | spillStore => [.symbol .spillStoreWord, .terminal .slot, .symbol .arrow, .terminal .temp]
  | jump => [.symbol .gotoWord, .terminal .ident]
  | branch =>
    [.symbol .ifWord, .phrase .cond, .symbol .gotoWord, .terminal .ident, .symbol .elseWord,
     .terminal .ident]
  | returnOperand => [.symbol .retWord, .phrase .operand]
  | returnNothing => [.symbol .retWord]
  | labelLine => [.terminal .ident, .symbol .colon]
  | statementLine => [.phrase .statement, .symbol .semicolon]
  | someLines => [.phrase .lines]
  | firstLine => [.phrase .line]
  | nextLine => [.phrase .lines, .phrase .line]
  | tempOperand | freeParam => [.terminal .temp]
  | immOperand => [.terminal .imm]
  | pinnedParam => [.terminal .temp, .symbol .colon, .terminal .reg]
  | unaryExpr => [.phrase .unOp, .phrase .operand]
  | loadExpr => [.symbol .star, .terminal .temp]
  | addrOfExpr => [.symbol .ampersand, .terminal .temp]
  | slotAddrExpr => [.symbol .ampersand, .terminal .slot]
  | spillLoadExpr => [.symbol .spillLoadWord, .terminal .slot]
  | unOp op => [.symbol op.symbol]
  | noListedOperands | noListedParams | noOperands | noParams | noFuncs | noLines
  | omittedOperand | omittedParam | emptyProgram => []

/-- The phrase that the production makes. -/
def makes : Production → Nonterminal
  | listedOperand => .listedOperand
  | noListedOperands | someListedOperands => .anyListedOperands
  | firstListedOperand | nextListedOperand => .listedOperands
  | listedParam => .listedParam
  | noListedParams | someListedParams => .anyListedParams
  | firstListedParam | nextListedParam => .listedParams
  | binOp _ => .binOp
  | singleOperand | noOperands | operandsThenLast | operandsThenComma => .operandList
  | singleParam | noParams | paramsThenLast | paramsThenComma => .paramList
  | compareCond | testCond => .cond
  | emptyFunc | filledFunc => .func
  | noFuncs | someFuncs => .anyFuncs
  | firstFunc | nextFunc => .funcs
  | assignment | store | callStatement | spillStore | jump | branch | returnOperand
  | returnNothing => .statement
  | labelLine | statementLine => .line
  | noLines | someLines => .anyLines
  | firstLine | nextLine => .lines
  | tempOperand | immOperand => .operand
  | givenOperand | omittedOperand => .maybeOperand
  | freeParam | pinnedParam => .param
  | givenParam | omittedParam => .maybeParam
  | binaryExpr | unaryExpr | moveExpr | loadExpr | addrOfExpr | slotAddrExpr | spillLoadExpr
  | callExpr => .expr
  | emptyProgram | filledProgram => .program
  | unOp _ => .unOp

/-- The value of the phrase, from those of the pieces. Values that the pieces cannot have give
none. -/
def value? : Production → List Value → Option Value
  | listedOperand, [.operand o, .token _] => some (.operand o)
  | noListedOperands, [] => some (.listedOperands [])
  | someListedOperands, [.listedOperands os] => some (.listedOperands os)
  | firstListedOperand, [.operand o, .token _] => some (.listedOperands [o])
  | nextListedOperand, [.listedOperands os, .operand o, .token _] =>
    some (.listedOperands (os ++ [o]))
  | listedParam, [.param p, .token _] => some (.param p)
  | noListedParams, [] => some (.listedParams [])
  | someListedParams, [.listedParams ps] => some (.listedParams ps)
  | firstListedParam, [.param p, .token _] => some (.listedParams [p])
  | nextListedParam, [.listedParams ps, .param p, .token _] => some (.listedParams (ps ++ [p]))
  | binOp op, [.token _] => some (.binOp op)
  | singleOperand, [.operand o] => some (.operandList [o])
  | noOperands, [] => some (.operandList [])
  | operandsThenLast, [.listedOperands os, .operand o] => some (.operandList (os ++ [o]))
  | operandsThenComma, [.listedOperands os] => some (.operandList os)
  | singleParam, [.param p] => some (.paramList [p])
  | noParams, [] => some (.paramList [])
  | paramsThenLast, [.listedParams ps, .param p] => some (.paramList (ps ++ [p]))
  | paramsThenComma, [.listedParams ps] => some (.paramList ps)
  | compareCond, [.operand left, .binOp op, .operand right] =>
    some (.cond (.compare op left right))
  | testCond, [.operand o] => some (.cond (.test o))
  | emptyFunc,
      [.token _, .token (.ident name), .token _, .paramList ps, .token _, .token _, .token _] =>
    some (.func ⟨name, ps, []⟩)
  | filledFunc,
      [.token _, .token (.ident name), .token _, .paramList ps, .token _, .token _, .lines ls,
        .token _] =>
    some (.func ⟨name, ps, ls⟩)
  | noFuncs, [] => some (.funcs [])
  | someFuncs, [.funcs fs] => some (.funcs fs)
  | firstFunc, [.func f] => some (.funcs [f])
  | nextFunc, [.funcs fs, .func f] => some (.funcs (fs ++ [f]))
  | assignment, [.token (.temp t), .token _, .expr e] => some (.statement (.assign t e))
  | store, [.token _, .token (.temp t), .token _, .operand o] => some (.statement (.store t o))
  | callStatement, [.token _, .token (.ident name), .token _, .operandList os, .token _] =>
    some (.statement (.call name os))
  | spillStore, [.token _, .token (.slot s), .token _, .token (.temp t)] =>
    some (.statement (.spillStore s t))
  | jump, [.token _, .token (.ident name)] => some (.statement (.goto name))
  | branch,
      [.token _, .cond c, .token _, .token (.ident yes), .token _, .token (.ident no)] =>
    some (.statement (.branch c yes no))
  | returnOperand, [.token _, .operand o] => some (.statement (.ret (some o)))
  | returnNothing, [.token _] => some (.statement (.ret none))
  | labelLine, [.token (.ident name), .token _] => some (.line (.label name))
  | statementLine, [.statement s, .token _] => some (.line (.statement s))
  | noLines, [] => some (.lines [])
  | someLines, [.lines ls] => some (.lines ls)
  | firstLine, [.line l] => some (.lines [l])
  | nextLine, [.lines ls, .line l] => some (.lines (ls ++ [l]))
  | tempOperand, [.token (.temp t)] => some (.operand (.temp t))
  | immOperand, [.token (.imm n)] => some (.operand (.const n))
  | givenOperand, [.operand o] => some (.maybeOperand (some o))
  | omittedOperand, [] => some (.maybeOperand none)
  | freeParam, [.token (.temp t)] => some (.param ⟨t, none⟩)
  | pinnedParam, [.token (.temp t), .token _, .token (.reg name)] =>
    some (.param ⟨t, some name⟩)
  | givenParam, [.param p] => some (.maybeParam (some p))
  | omittedParam, [] => some (.maybeParam none)
  | binaryExpr, [.operand left, .binOp op, .operand right] =>
    some (.expr (.binary op left right))
  | unaryExpr, [.unOp op, .operand o] => some (.expr (.unary op o))
  | moveExpr, [.operand o] => some (.expr (.move o))
  | loadExpr, [.token _, .token (.temp t)] => some (.expr (.load t))
  | addrOfExpr, [.token _, .token (.temp t)] => some (.expr (.addrOf t))
  | slotAddrExpr, [.token _, .token (.slot s)] => some (.expr (.slotAddr s))
  | spillLoadExpr, [.token _, .token (.slot s)] => some (.expr (.spillLoad s))
  | callExpr, [.token _, .token (.ident name), .token _, .operandList os, .token _] =>
    some (.expr (.call name os))
  | emptyProgram, [] => some (.program [])
  | filledProgram, [.funcs fs] => some (.program fs)
  | unOp op, [.token _] => some (.unOp op)
  | _, _ => none

end Production

end RegisterColoring.Source
