import RegisterColoring.Proofs.LinesRead

namespace RegisterColoring.Source

open Grammar

namespace State

/-- The tokens of a function up to its parameters, behind those of the functions before it. -/
def header (before : List Token) (name : String) : List Token :=
  before ++ [.symbol .fnWord, .ident name, .symbol .leftParen]

/-- The tokens that may have been read of the program. -/
def Reads : State → List Token → Prop
  | top done, row => IsProgram row done
  | name done, row => ∃ d, IsProgram d done ∧ row = d ++ [.symbol .fnWord]
  | paramsOpen done f, row => ∃ d, IsProgram d done ∧ row = d ++ [.symbol .fnWord, .ident f]
  | param done f params, row =>
    ∃ d p, IsProgram d done ∧ Many (Listed IsParam) p params ∧ row = header d f ++ p
  | paramTemp done f params t, row =>
    ∃ d p, IsProgram d done ∧ Many (Listed IsParam) p params ∧ row = header d f ++ (p ++ [.temp t])
  | paramPin done f params t, row =>
    ∃ d p, IsProgram d done ∧ Many (Listed IsParam) p params ∧
      row = header d f ++ (p ++ [.temp t, .symbol .colon])
  | paramEnd done f params, row =>
    ∃ d p before l last, IsProgram d done ∧ Many (Listed IsParam) p before ∧ IsParam l last ∧
      params = before ++ [last] ∧ row = header d f ++ (p ++ l)
  | bodyOpen done f params, row =>
    ∃ d p, IsProgram d done ∧ Comma IsParam p params ∧
      row = header d f ++ p ++ [.symbol .rightParen]
  | body done f params lines pending, row =>
    ∃ d p b l, IsProgram d done ∧ Comma IsParam p params ∧ Many IsLine b lines ∧
      pending.Reads l ∧
      row = header d f ++ p ++ [.symbol .rightParen, .symbol .leftBrace] ++ (b ++ l)

theorem Reads.bodyStep {done : Program} {f : String} {params : List Param} {lines : List Line}
    {pending : Pending} {row : List Token} {token : Token} {t : State}
    (read : (body done f params lines pending).Reads row)
    (run : State.bodyStep done f params lines pending token = some t) :
    t.Reads (row ++ [token]) := by
  obtain ⟨d, p, b, l, before, list, whole, part, rfl⟩ := read
  unfold State.bodyStep at run
  split at run
  next close =>
    obtain ⟨rfl, rfl⟩ := close
    cases run
    cases part
    have function := before.more (.func f list whole)
    simpa [Reads, header] using function
  next =>
    split at run
    · cases run
    next next step =>
      cases run
      exact ⟨d, p, b, l ++ [token], before, list, whole, part.step step, by simp⟩
    next line step =>
      cases run
      exact ⟨d, p, b ++ (l ++ [token]), [], before, list, whole.more (part.line step), rfl, by simp⟩

/-- A token extends what has been read. -/
theorem Reads.step {s t : State} {row : List Token} {token : Token} (read : s.Reads row)
    (run : s.step token = some t) : t.Reads (row ++ [token]) := by
  cases s with
  | top done =>
    simp only [State.step, Option.ite_none_right_eq_some, Option.some.injEq] at run
    obtain ⟨rfl, rfl⟩ := run
    exact ⟨row, read, rfl⟩
  | name done =>
    obtain ⟨d, before, rfl⟩ := read
    obtain ⟨f, found, rfl⟩ := Option.map_eq_some_iff.mp run
    cases ident?_eq_some.mp found
    exact ⟨d, before, List.append_assoc ..⟩
  | paramsOpen done f =>
    obtain ⟨d, before, rfl⟩ := read
    simp only [State.step, Option.ite_none_right_eq_some, Option.some.injEq] at run
    obtain ⟨rfl, rfl⟩ := run
    exact ⟨d, [], before, .none, by simp [header]⟩
  | param done f params =>
    obtain ⟨d, p, before, items, rfl⟩ := read
    simp only [State.step] at run
    split at run
    next close =>
      subst close
      cases run
      exact ⟨d, p, before, items.comma, rfl⟩
    next =>
      obtain ⟨u, found, rfl⟩ := Option.map_eq_some_iff.mp run
      cases temp?_eq_some.mp found
      exact ⟨d, p, before, items, List.append_assoc ..⟩
  | paramTemp done f params u =>
    obtain ⟨d, p, before, items, rfl⟩ := read
    simp only [State.step] at run
    split at run
    · cases run
      exact ⟨d, p, before, items, by simp⟩
    · cases run
      exact ⟨d, p ++ ([.temp u] ++ [.symbol .comma]), before, items.more (.comma (.free u)),
        by simp⟩
    · cases run
      exact ⟨d, p ++ [.temp u], before, items.last (.free u), rfl⟩
    · cases run
  | paramPin done f params u =>
    obtain ⟨d, p, before, items, rfl⟩ := read
    obtain ⟨r, found, rfl⟩ := Option.map_eq_some_iff.mp run
    cases register?_eq_some.mp found
    exact ⟨d, p, params, _, _, before, items, .pinned u r, rfl, by simp⟩
  | paramEnd done f params =>
    obtain ⟨d, p, earlier, l, last, before, items, param, rfl, rfl⟩ := read
    simp only [State.step] at run
    split at run
    · cases run
      exact ⟨d, p ++ (l ++ [.symbol .comma]), before, items.more (.comma param), by simp⟩
    · cases run
      exact ⟨d, p ++ l, before, items.last param, rfl⟩
    · cases run
  | bodyOpen done f params =>
    obtain ⟨d, p, before, list, rfl⟩ := read
    simp only [State.step, Option.ite_none_right_eq_some, Option.some.injEq] at run
    obtain ⟨rfl, rfl⟩ := run
    exact ⟨d, p, [], [], before, list, .none, rfl, by simp⟩
  | body done f params lines pending => exact read.bodyStep run

theorem Reads.run {s t : State} {row tokens : List Token} (read : s.Reads row)
    (steps : s.run tokens = some t) : t.Reads (row ++ tokens) := by
  induction tokens generalizing s row with
  | nil =>
    cases steps
    simpa using read
  | cons token rest ih =>
    obtain ⟨next, first, steps⟩ := Option.bind_eq_some_iff.mp steps
    simpa using ih (read.step first) steps

/-- What the reader accepts is derived by the grammar. -/
theorem isProgram_of_run {tokens : List Token} {program : Program}
    (steps : (top []).run tokens = some (top program)) : IsProgram tokens program := by
  have start : (top []).Reads [] := Many.none
  exact start.run steps

end State

end RegisterColoring.Source
