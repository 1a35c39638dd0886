import RegisterColoring.Proofs.CommentLines

namespace RegisterColoring

open Report
open Source.Grammar

section Reports

variable {f : Func}

theorem parse_unlines {lines : List String} {row : List Token} {src : Source.Func}
    (derived : IsFunc row src) (tokens : LineTokens lines row) :
    Source.parse (unlines lines) = .ok [src] := by
  have whole : tokensOf (unlines lines).toList = row := by
    have read := tokens []
    rwa [List.append_nil, tokensOf_nil, List.append_nil] at read
  have program : IsProgram row [src] := Many.more .none derived
  rw [Source.parse_eq_ok, scan_tokens, whole]
  exact program

theorem listing_commented (f : Func) :
    (⟨fun _ => [], fun _ _ i => some ("  " ++ i.text f.naming ++ ";"), fun _ => []⟩ :
      Annotation).Commented f where
  opening _ line member := absurd member List.not_mem_nil
  line _ _ i := ⟨"", by rw [String.append_empty], silentLine_empty⟩
  closing _ line member := absurd member List.not_mem_nil

theorem Func.Readable.parse_listing (readable : f.Readable) :
    Source.parse f.listing = .ok [f.toSource] := by
  obtain ⟨row, derived, tokens⟩ := funcLines_tokens readable (listing_commented f)
  exact parse_unlines derived tokens

theorem liveness_commented (f : Func) (l : Liveness) :
    (⟨fun b => (if b ∈ l.reachable then [] else ["  // unreachable"]) ++
        ["  // in: " ++ tempNames (l.liveIn b)],
      fun b i instr =>
        some ("  " ++ instr.text f.naming ++ ";  // live: " ++ tempNames (l.liveAfter b i)),
      fun b => ["  // out: " ++ tempNames (l.liveOut b)]⟩ : Annotation).Commented f where
  opening b line member := by
    rcases List.mem_append.mp member with first | last
    · split at first
      · exact absurd first List.not_mem_nil
      · rw [List.mem_singleton.mp first]
        exact silentLine_comment [' ', ' '] (by decide) (by decide) (by decide)
    · rw [List.mem_singleton.mp last]
      exact silentLine_temps (by decide) (by decide) _
  line b k i := by
    refine ⟨"  // live: " ++ tempNames (l.liveAfter b k), ?_, ?_⟩
    · have cut : ";  // live: " = ";" ++ "  // live: " := by decide
      simp only [cut, String.append_assoc]
    · exact silentLine_temps (by decide) (by decide) _
  closing b line member := by
    rw [List.mem_singleton.mp member]
    exact silentLine_temps (by decide) (by decide) _

theorem Func.Readable.parse_liveness (readable : f.Readable) (l : Liveness) :
    Source.parse (l.report f) = .ok [f.toSource] := by
  obtain ⟨row, derived, tokens⟩ := funcLines_tokens readable (liveness_commented f l)
  have settled : SilentLine ("// liveness of " ++ quoted f.name ++ " settled after " ++
      toString l.passes ++ " passes") := by
    refine silentLine_comment [] rfl
      (starts_append (starts_append (starts_append (starts_append (by decide))))) ?_
    simp +decide [oneLine_append, quoted, readable.name.oneLine, oneLine_nat]
  have first : LineTokens [_] [] := .single settled
  exact parse_unlines derived (first.append tokens)

theorem Func.Readable.eliminated (readable : f.Readable) {e : Eliminated}
    (callee : ∀ name, e.instr.callee? = some name → IsIdent name) : SilentLine (e.line f) := by
  have labels := fun b => (readable.blockName b).oneLine
  have instr : OneLine (e.instr.text f.naming) :=
    oneLine_instr labels fun name call => (callee name call).oneLine
  unfold Eliminated.line
  refine silentLine_comment [] rfl ?_ ?_
  · exact starts_append (starts_append (starts_append (by decide)))
  · exact oneLine_append.mpr ⟨oneLine_append.mpr ⟨oneLine_append.mpr ⟨by decide, labels _⟩,
      by decide⟩, instr⟩

theorem Func.Readable.parse_deadCode (readable : f.Readable) {gone : List Eliminated}
    (callees : ∀ e ∈ gone, ∀ name, e.instr.callee? = some name → IsIdent name) :
    Source.parse (f.deadCodeReport gone) = .ok [f.toSource] := by
  obtain ⟨row, derived, tokens⟩ := funcLines_tokens readable (listing_commented f)
  have removed : LineTokens (gone.map (·.line f)) [] := by
    refine .of_silent fun line member => ?_
    obtain ⟨e, inside, same⟩ := List.mem_map.mp member
    rw [← same]
    exact readable.eliminated (callees e inside)
  have total : LineTokens ["// eliminated " ++ toString gone.length ++ " instructions"] [] := by
    refine .of_silent fun line member => ?_
    rw [List.mem_singleton.mp member]
    refine silentLine_comment [] rfl (starts_append (starts_append (by decide))) ?_
    simp +decide [oneLine_append, oneLine_nat]
  have lines := (tokens.append removed).append total
  rw [List.append_nil, List.append_nil] at lines
  exact parse_unlines derived lines

end Reports

end RegisterColoring
