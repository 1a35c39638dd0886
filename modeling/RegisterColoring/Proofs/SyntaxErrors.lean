import Mathlib.Data.List.Basic
import RegisterColoring.Proofs.Parsing
import RegisterColoring.Proofs.Tiling

namespace RegisterColoring.Source

open Grammar

/-- The row begins some program. -/
def Viable (row : List Token) : Prop := ∃ rest program, IsProgram (row ++ rest) program

/-- Tokens that complete a line. -/
def Pending.completion : Pending → List Token
  | start => []
  | label _ => [.symbol .colon]
  | dest _ => [.symbol .arrow, .temp 0, .symbol .semicolon]
  | value _ => [.temp 0, .symbol .semicolon]
  | leftOperand .. => [.symbol .semicolon]
  | binary .. => [.temp 0, .symbol .semicolon]
  | unary .. => [.temp 0, .symbol .semicolon]
  | load _ => [.temp 0, .symbol .semicolon]
  | address _ => [.temp 0, .symbol .semicolon]
  | spillLoad _ => [.slot 0, .symbol .semicolon]
  | callee _ => [.ident "", .symbol .leftParen, .symbol .rightParen, .symbol .semicolon]
  | callOpen .. => [.symbol .leftParen, .symbol .rightParen, .symbol .semicolon]
  | argument .. => [.symbol .rightParen, .symbol .semicolon]
  | argumentEnd .. => [.symbol .rightParen, .symbol .semicolon]
  | storeAddress => [.temp 0, .symbol .arrow, .temp 0, .symbol .semicolon]
  | storeArrow _ => [.symbol .arrow, .temp 0, .symbol .semicolon]
  | storeValue _ => [.temp 0, .symbol .semicolon]
  | spillSlot => [.slot 0, .symbol .arrow, .temp 0, .symbol .semicolon]
  | spillArrow _ => [.symbol .arrow, .temp 0, .symbol .semicolon]
  | spillValue _ => [.temp 0, .symbol .semicolon]
  | jump => [.ident "", .symbol .semicolon]
  | condition =>
    [.temp 0, .symbol .gotoWord, .ident "", .symbol .elseWord, .ident "", .symbol .semicolon]
  | conditionLeft _ =>
    [.symbol .gotoWord, .ident "", .symbol .elseWord, .ident "", .symbol .semicolon]
  | conditionRight .. =>
    [.temp 0, .symbol .gotoWord, .ident "", .symbol .elseWord, .ident "", .symbol .semicolon]
  | conditionEnd _ =>
    [.symbol .gotoWord, .ident "", .symbol .elseWord, .ident "", .symbol .semicolon]
  | branchYes _ => [.ident "", .symbol .elseWord, .ident "", .symbol .semicolon]
  | branchElse .. => [.symbol .elseWord, .ident "", .symbol .semicolon]
  | branchNo .. => [.ident "", .symbol .semicolon]
  | result => [.symbol .semicolon]
  | complete _ => [.symbol .semicolon]

namespace State

/-- Tokens that complete a program. -/
def completion : State → List Token
  | top _ => []
  | name _ => [.ident "", .symbol .leftParen, .symbol .rightParen, .symbol .leftBrace,
      .symbol .rightBrace]
  | paramsOpen .. => [.symbol .leftParen, .symbol .rightParen, .symbol .leftBrace,
      .symbol .rightBrace]
  | param .. => [.symbol .rightParen, .symbol .leftBrace, .symbol .rightBrace]
  | paramTemp .. => [.symbol .rightParen, .symbol .leftBrace, .symbol .rightBrace]
  | paramPin .. => [.reg "", .symbol .rightParen, .symbol .leftBrace, .symbol .rightBrace]
  | paramEnd .. => [.symbol .rightParen, .symbol .leftBrace, .symbol .rightBrace]
  | bodyOpen .. => [.symbol .leftBrace, .symbol .rightBrace]
  | body _ _ _ _ pending => pending.completion ++ [.symbol .rightBrace]

theorem run_completion (s : State) : ∃ program, s.run s.completion = some (top program) := by
  cases s with
  | body done f params lines pending => cases pending <;> exact ⟨_, rfl⟩
  | _ => exact ⟨_, rfl⟩

/-- A row has a state exactly if it begins some program. -/
theorem viable_iff {row : List Token} : Viable row ↔ ∃ s, (top []).run row = some s := by
  constructor
  · rintro ⟨rest, program, derived⟩
    have accepted := run_of_isProgram derived
    rw [run_append] at accepted
    obtain ⟨s, reached, _⟩ := Option.bind_eq_some_iff.mp accepted
    exact ⟨s, reached⟩
  · rintro ⟨s, reached⟩
    obtain ⟨program, finished⟩ := s.run_completion
    refine ⟨s.completion, program, isProgram_of_run ?_⟩
    rw [run_append, reached, Option.bind_some, finished]

/-- A row goes on with a token exactly if its state has a step for the token. -/
theorem viable_append_iff {row : List Token} {s : State} (reached : (top []).run row = some s)
    (token : Token) : Viable (row ++ [token]) ↔ (s.step token).isSome = true := by
  rw [viable_iff, run_append, reached, Option.bind_some, run_cons, Option.isSome_iff_exists]
  cases s.step token with
  | none => simp
  | some next => simp

/-- Whether a token may follow depends on its class only. -/
theorem step_isSome {token : Token} {a : Terminal} (kind : token.terminal? = some a) (s : State) :
    (s.step token).isSome = (s.step a.sample).isSome := by
  cases token with
  | symbol symbol =>
    cases kind
    rfl
  | invalid => cases kind
  | _ =>
    cases kind
    cases s with
    | body done f params lines pending => cases pending <;> rfl
    | _ => rfl

theorem mem_expected {s : State} {token : Token} {a : Terminal} (kind : token.terminal? = some a) :
    a ∈ s.expected ↔ (s.step token).isSome = true := by
  rw [expected, List.mem_filter, step_isSome kind]
  exact and_iff_right a.mem_all

end State

/-- The place of a mismatch: the start of the token found there, or else the end of what has been
read. -/
def mismatchPlace (place : Nat) (before rest : List Lexeme) : Nat :=
  (rest.head?.map (·.start)).getD ((before.getLast?.map (·.stop)).getD place)

theorem mismatchPlace_cons (place : Nat) (x : Lexeme) (before rest : List Lexeme) :
    mismatchPlace place (x :: before) rest = mismatchPlace x.stop before rest := by
  unfold mismatchPlace
  rw [List.getLast?_cons]
  cases before.getLast? <;> rfl

theorem mismatchPlace_end (place : Nat) (init : List Lexeme) (last : Lexeme) :
    mismatchPlace place (init ++ [last]) [] = last.stop := by
  simp [mismatchPlace]

/-- The reader stops at the first token for which its state has no step, or at the end of the text
in a state between two functions. -/
theorem readFrom_eq_error {s : State} {place : Nat} {lexemes : List Lexeme} {e : Mismatch}
    (failed : readFrom s place lexemes = .error e) :
    ∃ before rest t, lexemes = before ++ rest ∧ s.run (before.map (·.token)) = some t ∧
      e = ⟨mismatchPlace place before rest, rest.head?, t.expected⟩ ∧
      (∀ x ∈ rest.head?, t.step x.token = none) ∧ (rest = [] → t.program? = none) := by
  induction lexemes generalizing s place with
  | nil =>
    unfold readFrom at failed
    cases complete : s.program? with
    | none =>
      rw [complete] at failed
      cases failed
      exact ⟨[], [], s, rfl, rfl, rfl, by simp, fun _ => complete⟩
    | some program =>
      rw [complete] at failed
      cases failed
  | cons x tail ih =>
    unfold readFrom at failed
    cases step : s.step x.token with
    | none =>
      rw [step] at failed
      cases failed
      exact ⟨[], x :: tail, s, rfl, rfl, rfl, by simpa using step, by simp⟩
    | some next =>
      rw [step] at failed
      obtain ⟨before, rest, t, split, reached, reported, stuck, unfinished⟩ := ih failed
      refine ⟨x :: before, rest, t, by rw [split]; rfl, ?_, ?_, stuck, unfinished⟩
      · rw [List.map_cons, State.run_cons, step, Option.bind_some, reached]
      · rw [reported, mismatchPlace_cons]

/-- The tokens of a text that end before a place. -/
def tokensBefore (source : String) (place : Nat) : List Token :=
  ((scan source).filter (·.stop ≤ place)).map (·.token)

/-- The place of a mismatch is behind all that has been read, and before the end of all that is
left. -/
theorem mismatchPlace_between {before rest : List Lexeme}
    (ordered : (before ++ rest).Pairwise fun x y => x.stop ≤ y.start)
    (nonempty : ∀ x ∈ before ++ rest, x.start < x.stop) (place : Nat) :
    (∀ x ∈ before, x.stop ≤ mismatchPlace place before rest) ∧
      ∀ x ∈ rest, mismatchPlace place before rest < x.stop := by
  obtain ⟨first, second, across⟩ := List.pairwise_append.mp ordered
  cases rest with
  | nil =>
    refine ⟨fun x member => ?_, fun x member => absurd member List.not_mem_nil⟩
    obtain ⟨init, last, rfl⟩ :=
      (List.eq_nil_or_concat' before).resolve_left (List.ne_nil_of_mem member)
    rw [mismatchPlace_end]
    rcases List.mem_append.mp member with early | same
    · have inside := nonempty last (by simp)
      have gap := (List.pairwise_append.mp first).2.2 x early last (List.mem_singleton_self last)
      omega
    · rw [List.mem_singleton.mp same]
  | cons x tail =>
    have start : mismatchPlace place before (x :: tail) = x.start := rfl
    rw [start]
    refine ⟨fun y member => across y member x List.mem_cons_self, fun y member => ?_⟩
    have inside := nonempty y (List.mem_append_right before member)
    rcases List.mem_cons.mp member with rfl | later
    · exact inside
    · have own := nonempty x (by simp)
      have gap := (List.pairwise_cons.mp second).1 y later
      omega

/-- What has been read at a mismatch are the lexemes before its place. -/
theorem filter_mismatchPlace {source : String} {before rest : List Lexeme}
    (split : scan source = before ++ rest) :
    (scan source).filter (·.stop ≤ mismatchPlace 0 before rest) = before := by
  have tiled := (tiles_scan source).tiled
  have ordered := tiled.ordered
  have nonempty := fun x member => (tiled.spans x member).1
  rw [split] at ordered nonempty ⊢
  obtain ⟨ended, later⟩ := mismatchPlace_between ordered nonempty 0
  have kept : before.filter (·.stop ≤ mismatchPlace 0 before rest) = before :=
    List.filter_eq_self.mpr fun x member => decide_eq_true (ended x member)
  have dropped : rest.filter (·.stop ≤ mismatchPlace 0 before rest) = [] := by
    refine List.filter_eq_nil_iff.mpr fun x member => ?_
    rw [decide_eq_true_eq]
    exact Nat.not_le.mpr (later x member)
  rw [List.filter_append, kept, dropped, List.append_nil]

/-- The place of a mismatch lies between two characters. -/
theorem exists_front_mismatchPlace {source : String} {before rest : List Lexeme}
    (split : scan source = before ++ rest) :
    ∃ front back, source.toList = front ++ back ∧
      byteSize front = mismatchPlace 0 before rest := by
  have tiles := tiles_scan source
  cases rest with
  | cons x tail =>
    obtain ⟨_, front, back, text, start⟩ := tiles.place (x := x) (by rw [split]; simp)
    exact ⟨front, _, text, by rw [mismatchPlace, List.head?_cons, Option.map_some, Option.getD_some,
      start, Nat.zero_add]⟩
  | nil =>
    rcases List.eq_nil_or_concat' before with rfl | ⟨init, last, rfl⟩
    · exact ⟨[], source.toList, rfl, rfl⟩
    · obtain ⟨_, front, back, text, start⟩ := tiles.place (x := last) (by rw [split]; simp)
      refine ⟨front ++ last.text.toList, back, by rw [text, List.append_assoc], ?_⟩
      rw [mismatchPlace_end, byteSize_append, byteSize_toList, Lexeme.stop, start, Nat.zero_add]

/-- The end of a text is in the given line and column, counted from one: the line feeds of the text
separate the lines, and the column is that of the byte behind the last line. -/
structure EndsAt (front : List Char) (line column : Nat) : Prop where
  line : line = front.count '\n' + 1
  column : ∃ above last, front = above ++ last ∧ (above = [] ∨ above.getLast? = some '\n') ∧
    '\n' ∉ last ∧ column = byteSize last + 1

theorem positionFrom_feed (line column place : Nat) (cs : List Char) :
    positionFrom line column (place + 1) ('\n' :: cs) = positionFrom (line + 1) 1 place cs := rfl

theorem positionFrom_cons {c : Char} (other : c ≠ '\n') (line column place : Nat)
    (cs : List Char) : positionFrom line column (c.utf8Size + place) (c :: cs) =
      positionFrom line (column + c.utf8Size) place cs := by
  have pos := c.utf8Size_pos
  rw [positionFrom, Nat.add_sub_cancel_left]
  · exact other
  · omega

/-- The position of a byte, counted on from a line and a column. -/
theorem positionFrom_eq (front back : List Char) (line column : Nat) :
    ∃ last, positionFrom line column (byteSize front) (front ++ back) =
      (line + front.count '\n', last) ∧
      (('\n' ∉ front ∧ last = column + byteSize front) ∨
        ∃ above below, front = above ++ '\n' :: below ∧ '\n' ∉ below ∧
          last = byteSize below + 1) := by
  induction front generalizing line column with
  | nil =>
    refine ⟨column, ?_, Or.inl ⟨List.not_mem_nil, rfl⟩⟩
    cases back <;> rfl
  | cons c cs ih =>
    rw [byteSize_cons, List.cons_append]
    by_cases feed : c = '\n'
    · subst feed
      obtain ⟨last, found, cases⟩ := ih (line + 1) 1
      refine ⟨last, ?_, Or.inr ?_⟩
      · have one : '\n'.utf8Size = 1 := rfl
        rw [one, Nat.add_comm, positionFrom_feed, found, List.count_cons_self, Nat.add_assoc,
          Nat.add_comm 1]
      · rcases cases with ⟨plain, same⟩ | ⟨above, below, split, plain, same⟩
        · exact ⟨[], cs, rfl, plain, by omega⟩
        · exact ⟨'\n' :: above, below, by rw [split]; rfl, plain, same⟩
    · obtain ⟨last, found, cases⟩ := ih line (column + c.utf8Size)
      refine ⟨last, ?_, ?_⟩
      · rw [positionFrom_cons feed, found, List.count_cons_of_ne feed]
      · rcases cases with ⟨plain, same⟩ | ⟨above, below, split, plain, same⟩
        · exact Or.inl ⟨by simp [plain, Ne.symm feed], by omega⟩
        · exact Or.inr ⟨c :: above, below, by rw [split]; rfl, plain, same⟩

/-- The position of the end of a part of the text. -/
theorem positionFrom_endsAt (front back : List Char) :
    ∃ line column, positionFrom 1 1 (byteSize front) (front ++ back) = (line, column) ∧
      EndsAt front line column := by
  obtain ⟨last, found, cases⟩ := positionFrom_eq front back 1 1
  refine ⟨_, _, found, Nat.add_comm .., ?_⟩
  rcases cases with ⟨plain, same⟩ | ⟨above, below, split, plain, same⟩
  · exact ⟨[], front, rfl, Or.inl rfl, plain, by omega⟩
  · refine ⟨above ++ ['\n'], below, ?_, Or.inr List.getLast?_concat, plain, same⟩
    rw [split, List.append_assoc]
    rfl

/-- A syntax error at a place of the text explains why there is no program: what stands before the
place begins some program, no program goes on with the token found there (or ends there, if none is
found), and the terminals expected are those with which some program goes on, listed once each in
the order of all terminals. -/
structure Explains (source : String) (place : Nat) (found : Option Lexeme)
    (expected : List Terminal) : Prop where
  starts : ∀ x ∈ found, x ∈ scan source ∧ x.start = place
  ends : found = none → place = ((scan source).getLast?.map (·.stop)).getD 0 ∧
    tokensBefore source place = (scan source).map (·.token)
  viable : Viable (tokensBefore source place)
  impossible : ∀ x ∈ found, ¬ Viable (tokensBefore source place ++ [x.token])
  incomplete : found = none → ∀ program, ¬ IsProgram (tokensBefore source place) program
  listed : expected.Sublist Terminal.all
  unrepeated : (expected.map Terminal.name).Nodup
  expected : ∀ (token : Token) (a : Terminal), token.terminal? = some a →
    (a ∈ expected ↔ Viable (tokensBefore source place ++ [token]))

/-- The terminals stand at the end of the message. -/
theorem message_unexpected (func : String) (line column : Nat) (found : Option Lexeme)
    (expected : List Terminal) :
    ∃ opening, (Failure.malformed func (.unexpected line column found expected)).message =
      opening ++ ", expected one of " ++ " ".intercalate (expected.map Terminal.name) := by
  have parts : ∀ a b c d : String, a ++ (b ++ c ++ d) = a ++ b ++ c ++ d := by
    intro a b c d
    rw [String.append_assoc, String.append_assoc, String.append_assoc]
  exact ⟨_, parts _ _ _ _⟩

theorem nodup_names : (Terminal.all.map Terminal.name).Nodup := by decide +kernel

theorem explains_of_run {source : String} {before rest : List Lexeme} {s : State}
    (split : scan source = before ++ rest)
    (reached : (State.top []).run (before.map (·.token)) = some s)
    (stuck : ∀ x ∈ rest.head?, s.step x.token = none) (unfinished : rest = [] → s.program? = none) :
    Explains source (mismatchPlace 0 before rest) rest.head? s.expected := by
  have tokens : tokensBefore source (mismatchPlace 0 before rest) = before.map (·.token) := by
    rw [tokensBefore, filter_mismatchPlace split]
  have listed : s.expected.Sublist Terminal.all := List.filter_sublist
  refine ⟨fun x found => ?_, fun none => ?_, ?_, fun x found possible => ?_,
    fun none program derived => ?_, listed, nodup_names.sublist (listed.map _),
    fun token a kind => ?_⟩
  · obtain ⟨tail, rfl⟩ := List.head?_eq_some_iff.mp found
    exact ⟨by rw [split]; simp, rfl⟩
  · cases List.head?_eq_none_iff.mp none
    rw [tokens, split, List.append_nil]
    exact ⟨rfl, rfl⟩
  · rw [tokens]
    exact State.viable_iff.mpr ⟨s, reached⟩
  · rw [tokens, State.viable_append_iff reached, stuck x found] at possible
    cases possible
  · rw [tokens] at derived
    have accepted := State.run_of_isProgram derived
    rw [reached, Option.some.injEq] at accepted
    have complete := State.program?_eq_some.mpr accepted
    rw [unfinished (List.head?_eq_none_iff.mp none)] at complete
    cases complete
  · rw [tokens, State.mem_expected kind, State.viable_append_iff reached]

/-- Every failure to read a text points at the first token that no program goes on with, or at the
end of a text that is too short, and lists what could have stood there. -/
theorem parse_error_explains {source : String} {failure : Failure}
    (failed : parse source = .error failure) :
    ∃ line column found expected place front back,
      failure = .malformed inputName (.unexpected line column found expected) ∧
      (∃ opening, failure.message =
        opening ++ ", expected one of " ++ " ".intercalate (expected.map Terminal.name)) ∧
      source.toList = front ++ back ∧ byteSize front = place ∧ EndsAt front line column ∧
      Explains source place found expected := by
  obtain ⟨e, line, column, read, position, reported⟩ := parse_eq_error failed
  obtain ⟨before, rest, s, split, reached, mismatch, stuck, unfinished⟩ := readFrom_eq_error read
  obtain ⟨front, back, text, size⟩ := exists_front_mismatchPlace split
  obtain ⟨line', column', same, ends⟩ := positionFrom_endsAt front back
  subst mismatch
  rw [text, ← size, same] at position
  cases position
  refine ⟨line, column, _, _, _, front, back, reported, ?_, text, size, ends,
    explains_of_run split reached stuck unfinished⟩
  rw [reported]
  exact message_unexpected ..

/-- An operator without its right side, in the second line. -/
def slipText : String := "fn f() \x7b\n  t1 <- t2 +;\n\x7d"

/-- A list of parameters that is not closed. -/
def openText : String := "fn f(t0, "

theorem slipText_explains :
    (parse slipText = .error (.malformed inputName
        (.unexpected 2 13 (some ⟨.symbol .semicolon, ";", 21⟩) [.imm, .temp])) ∧
      Explains slipText 21 (some ⟨.symbol .semicolon, ";", 21⟩) [.imm, .temp]) ∧
    parse openText = .error (.malformed inputName
        (.unexpected 1 9 none [.symbol .rightParen, .temp])) ∧
      Explains openText 8 none [.symbol .rightParen, .temp] := by
  have slip : parse slipText = .error (.malformed inputName
      (.unexpected 2 13 (some ⟨.symbol .semicolon, ";", 21⟩) [.imm, .temp])) := by
    rw [parse, Machine.run_start]
    decide +kernel
  have early : parse openText = .error (.malformed inputName
      (.unexpected 1 9 none [.symbol .rightParen, .temp])) := by
    rw [parse, Machine.run_start]
    decide +kernel
  obtain ⟨_, _, _, _, _, _, _, reported, _, _, _, _, explained⟩ := parse_error_explains slip
  cases reported
  obtain ⟨_, _, _, _, _, _, _, reported, _, _, _, _, explains⟩ := parse_error_explains early
  cases reported
  have atEnd : ((scan openText).getLast?.map (·.stop)).getD 0 = 8 := by decide +kernel
  have start := (explained.starts _ rfl).2
  have last := (explains.ends rfl).1
  rw [atEnd] at last
  subst start last
  exact ⟨⟨slip, explained⟩, early, explains⟩

end RegisterColoring.Source
