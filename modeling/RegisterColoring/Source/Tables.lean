import RegisterColoring.Source.Production

namespace RegisterColoring.Source

/-- The place of a terminal among all of them, which is its column in the table. -/
def column : Terminal → Nat
  | .symbol s => s.ctorIdx
  | .ident => 34
  | .imm => 35
  | .reg => 36
  | .slot => 37
  | .temp => 38

/-- The productions in the order in which the codes of the table count them. -/
def productions : List Production :=
  [.listedOperand, .noListedOperands, .someListedOperands, .firstListedOperand,
   .nextListedOperand, .listedParam, .noListedParams, .someListedParams, .firstListedParam,
   .nextListedParam, .binOp .add, .binOp .sub, .binOp .mul, .binOp .div, .binOp .mod,
   .binOp .bitAnd, .binOp .bitOr, .binOp .bitXor, .binOp .shiftLeft, .binOp .shiftRight,
   .binOp .less, .binOp .lessEqual, .binOp .greater, .binOp .greaterEqual, .binOp .equal,
   .binOp .notEqual, .singleOperand, .noOperands, .operandsThenLast, .operandsThenComma,
   .singleParam, .noParams, .paramsThenLast, .paramsThenComma, .compareCond, .testCond,
   .emptyFunc, .filledFunc, .noFuncs, .someFuncs, .firstFunc, .nextFunc, .assignment, .store,
   .callStatement, .spillStore, .jump, .branch, .returnOperand, .returnNothing, .labelLine,
   .statementLine, .noLines, .someLines, .firstLine, .nextLine, .tempOperand, .immOperand,
   .givenOperand, .omittedOperand, .freeParam, .pinnedParam, .givenParam, .omittedParam,
   .binaryExpr, .unaryExpr, .moveExpr, .loadExpr, .addrOfExpr, .slotAddrExpr, .spillLoadExpr,
   .callExpr, .emptyProgram, .filledProgram, .unOp .neg, .unOp .not, .unOp .bitNot]

/-- The table of actions: for each state the columns that have an action, with its code. -/
def actionRows : List (List (Nat × Int)) :=
  [[(24, 21)],
   [(24, 21)],
   [(5, -32), (38, 26)],
   [(5, -34), (38, 26)],
   [(6, 35), (22, 36), (25, 37), (26, 7), (27, 8), (29, 38), (32, 39), (34, 40), (38, 41)],
   [(6, 35), (22, 36), (25, 37), (26, 7), (27, 8), (29, 38), (32, 44), (34, 40), (38, 41)],
   [(35, 49), (38, 50)],
   [(12, -50), (35, 49), (38, 50)],
   [(1, 55), (2, 56), (3, 57), (6, 58), (7, 59), (9, 60), (10, 61), (13, 62), (15, 63), (16, 64),
    (17, 65), (18, 66), (19, 67), (20, 68), (21, 69), (25, -36), (31, 70)],
   [(0, 73), (3, 74), (6, 75), (9, 76), (22, 77), (28, 78), (33, 79), (35, 49), (38, 50)],
   [(35, 49), (38, 50)],
   [(5, -28), (35, 49), (38, 50)],
   [(35, 49), (38, 50)],
   [(1, 55), (2, 56), (3, 57), (6, 58), (7, 59), (9, 60), (10, 61), (12, -67), (13, 62), (15, 63),
    (16, 64), (17, 65), (18, 66), (19, 67), (20, 68), (21, 69), (31, 70)],
   [(35, 49), (38, 50)],
   [(5, -30), (35, 49), (38, 50)],
   [(35, 49), (38, 50)],
   [(5, -28), (35, 49), (38, 50)],
   [(24, -41)],
   [],
   [(34, 23)],
   [(24, -42)],
   [(4, 3)],
   [(5, 28)],
   [(5, -31), (8, 29)],
   [(5, -61), (8, -61), (11, 30)],
   [(5, -33), (8, 31)],
   [(30, 5)],
   [(5, -9), (38, -9)],
   [(36, 32)],
   [(5, -10), (38, -10)],
   [(5, -62), (8, -62)],
   [(12, 42)],
   [(6, -55), (22, -55), (25, -55), (26, -55), (27, -55), (29, -55), (32, -55), (34, -55),
    (38, -55)],
   [(38, 45)],
   [(34, 46)],
   [(34, 47)],
   [(37, 52)],
   [(24, -37)],
   [(11, 53)],
   [(14, 10)],
   [(6, -52), (22, -52), (25, -52), (26, -52), (27, -52), (29, -52), (32, -52), (34, -52),
    (38, -52)],
   [(6, -56), (22, -56), (25, -56), (26, -56), (27, -56), (29, -56), (32, -56), (34, -56),
    (38, -56)],
   [(24, -38)],
   [(14, 11)],
   [(4, 12)],
   [(12, -47)],
   [(25, 54)],
   [(1, -58), (2, -58), (3, -58), (5, -58), (6, -58), (7, -58), (8, -58), (9, -58), (10, -58),
    (12, -58), (13, -58), (15, -58), (16, -58), (17, -58), (18, -58), (19, -58), (20, -58),
    (21, -58), (25, -58), (31, -58)],
   [(1, -57), (2, -57), (3, -57), (5, -57), (6, -57), (7, -57), (8, -57), (9, -57), (10, -57),
    (12, -57), (13, -57), (15, -57), (16, -57), (17, -57), (18, -57), (19, -57), (20, -57),
    (21, -57), (25, -57), (31, -57)],
   [(12, -49)],
   [(14, 71)],
   [(6, -51), (22, -51), (25, -51), (26, -51), (27, -51), (29, -51), (32, -51), (34, -51),
    (38, -51)],
   [(34, 83)],
   [(35, -26), (38, -26)],
   [(35, -15), (38, -15)],
   [(35, -16), (38, -16)],
   [(35, -13), (38, -13)],
   [(35, -11), (38, -11)],
   [(35, -12), (38, -12)],
   [(35, -14), (38, -14)],
   [(35, -21), (38, -21)],
   [(35, -19), (38, -19)],
   [(35, -22), (38, -22)],
   [(35, -25), (38, -25)],
   [(35, -23), (38, -23)],
   [(35, -24), (38, -24)],
   [(35, -20), (38, -20)],
   [(35, -18), (38, -18)],
   [(35, -17), (38, -17)],
   [(38, 85)],
   [(12, -43)],
   [(35, -76), (38, -76)],
   [(37, 87), (38, 88)],
   [(38, 89)],
   [(35, -75), (38, -75)],
   [(34, 90)],
   [(37, 91)],
   [(35, -77), (38, -77)],
   [(12, -44)],
   [(5, 93)],
   [(5, -27), (8, 94)],
   [(23, 95)],
   [(25, -35)],
   [(12, -46)],
   [(12, -66)],
   [(12, -70)],
   [(12, -69)],
   [(12, -68)],
   [(4, 18)],
   [(12, -71)],
   [(5, -29), (8, 97)],
   [(12, -45)],
   [(5, -4), (35, -4), (38, -4)],
   [(34, 98)],
   [(12, -65)],
   [(5, -5), (35, -5), (38, -5)],
   [(12, -48)],
   [(5, 100)],
   [(12, -72)]]

/-- The states that have an action at the end of the text, with its code. -/
def endActions : List (Nat × Int) :=
  [(0, -73), (1, -74), (18, -41), (19, -78), (21, -42), (38, -37), (43, -38)]

/-- The state that follows once a phrase stands behind a state. -/
def goto (below : Nat) : Nonterminal → Nat
  | .listedOperands => 15
  | .listedParams => 3
  | .binOp => if below = 13 then 16 else 12
  | .operandList => if below = 17 then 98 else 80
  | .paramList => 23
  | .cond => 47
  | .func => if below = 1 then 21 else 18
  | .funcs => 1
  | .statement => 32
  | .line => if below = 5 then 42 else 33
  | .lines => 5
  | .operand =>
    match below with
    | 6 => 8
    | 9 => 13
    | 7 => 50
    | 10 => 79
    | 12 => 83
    | 14 => 85
    | 15 => 91
    | 16 => 95
    | _ => 81
  | .param => if below = 3 then 26 else 24
  | .expr => 71
  | .program => 19
  | .unOp => 14
  | _ => 0

/-- What a state does about the token ahead. -/
inductive Action
  /-- Take the token, and go on in another state. -/
  | shift (state : Nat)
  | reduce (p : Production)
  | accept
  | refuse

/-- The action that a code of the table stands for: positive codes shift and negative ones reduce,
both counted from zero. The number behind the last production accepts. -/
def Action.ofCode : Int → Action
  | .ofNat 0 => .refuse
  | .ofNat (n + 1) => .shift n
  | .negSucc n =>
    match productions[n]? with
    | some p => .reduce p
    | none => .accept

/-- The action of a state on a terminal, or at the end of the text. -/
def action (state : Nat) : Option Terminal → Action
  | some a => .ofCode (((actionRows.getD state []).lookup (column a)).getD 0)
  | none => .ofCode ((endActions.lookup state).getD 0)

end RegisterColoring.Source
