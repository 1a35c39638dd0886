import RegisterColoring.Proofs.Tiles

namespace RegisterColoring

theorem byteSize_pos {w : List Char} (some : w ≠ []) : 0 < byteSize w := by
  refine Nat.pos_of_ne_zero fun zero => some ?_
  rw [← String.toList_ofList (l := w), String.utf8ByteSize_eq_zero_iff.mp zero, String.toList_empty]

/-- Each lexeme stands in the text at its place. -/
theorem Tiles.place {place : Nat} {cs : List Char} {lexemes : List Lexeme}
    (tiles : Tiles place cs lexemes) {x : Lexeme} (member : x ∈ lexemes) :
    x.text.toList ≠ [] ∧ ∃ before after, cs = before ++ (x.text.toList ++ after) ∧
      x.start = place + byteSize before := by
  induction tiles with
  | done => exact absurd member List.not_mem_nil
  | @lexeme place gap w rest token lexemes _ stands _ ih =>
    rcases List.mem_cons.mp member with rfl | later
    · rw [String.toList_ofList]
      exact ⟨stands.ne_nil, gap, rest, rfl, rfl⟩
    · obtain ⟨some, before, after, split, start⟩ := ih later
      refine ⟨some, gap ++ (w ++ before), after, by rw [split]; simp only [List.append_assoc], ?_⟩
      rw [start, byteSize_append, byteSize_append]
      omega

/-- A lexeme ends before the next one starts. -/
theorem Tiles.ordered {place : Nat} {cs : List Char} {lexemes : List Lexeme}
    (tiles : Tiles place cs lexemes) : lexemes.Pairwise fun x y => x.stop ≤ y.start := by
  induction tiles with
  | done => exact .nil
  | @lexeme place gap w rest token lexemes _ _ tiles ih =>
    refine List.pairwise_cons.mpr ⟨fun y later => ?_, ih⟩
    obtain ⟨_, before, _, _, start⟩ := tiles.place later
    rw [start]
    exact Nat.le_add_right ..

/-- The lexemes of a text cover it: between them are only blanks and comments, each of them is the
longest match at its place or a single character, and their spans are parts of the text that follow
one another and are cut between characters. -/
structure Tiled (source : String) (lexemes : List Lexeme) : Prop where
  tiles : Tiles 0 source.toList lexemes
  spans : ∀ x ∈ lexemes, x.start < x.stop ∧ x.stop ≤ source.utf8ByteSize
  texts : ∀ x ∈ lexemes, ∃ before after, source = before ++ x.text ++ after ∧
    before.utf8ByteSize = x.start
  boundaries : ∀ x ∈ lexemes, String.Pos.Raw.IsValid source ⟨x.start⟩ ∧
    String.Pos.Raw.IsValid source ⟨x.stop⟩
  ordered : lexemes.Pairwise fun x y => x.stop ≤ y.start

theorem Tiles.text {source : String} {lexemes : List Lexeme}
    (tiles : Tiles 0 source.toList lexemes) {x : Lexeme} (member : x ∈ lexemes) :
    0 < x.text.utf8ByteSize ∧ ∃ before after, source = before ++ x.text ++ after ∧
      before.utf8ByteSize = x.start := by
  obtain ⟨some, before, after, split, start⟩ := tiles.place member
  refine ⟨byteSize_toList x.text ▸ byteSize_pos some, String.ofList before, String.ofList after,
    ?_, by rw [start, Nat.zero_add]; rfl⟩
  rw [← String.ofList_toList (s := source), split, String.ofList_append, String.ofList_append,
    String.ofList_toList, String.append_assoc]

theorem Tiles.tiled {source : String} {lexemes : List Lexeme}
    (tiles : Tiles 0 source.toList lexemes) : Tiled source lexemes := by
  refine ⟨tiles, fun x member => ?_, fun x member => (tiles.text member).2, fun x member => ?_,
    tiles.ordered⟩
  · obtain ⟨pos, before, after, split, start⟩ := tiles.text member
    have total := congrArg String.utf8ByteSize split
    rw [String.utf8ByteSize_append, String.utf8ByteSize_append] at total
    unfold Lexeme.stop
    omega
  · obtain ⟨_, before, after, split, start⟩ := tiles.text member
    constructor
    · refine String.Pos.Raw.isValid_iff_exists_append.mpr ⟨before, x.text ++ after, ?_, ?_⟩
      · rw [split, String.append_assoc]
      · exact congrArg String.Pos.Raw.mk start.symm
    · refine String.Pos.Raw.isValid_iff_exists_append.mpr ⟨before ++ x.text, after, split, ?_⟩
      refine congrArg String.Pos.Raw.mk ?_
      rw [Lexeme.stop, ← start]
      exact String.utf8ByteSize_append.symm

theorem tiles_scan (source : String) : Tiles 0 source.toList (scan source) :=
  tiles_scanFrom (Nat.le_refl _) 0

/-- The scanner covers every text, and nothing else does. -/
theorem scan_tiled (source : String) :
    Tiled source (scan source) ∧
      ∀ lexemes, Tiles 0 source.toList lexemes → lexemes = scan source :=
  ⟨(tiles_scan source).tiled, fun _ tiles => tiles.eq_scanFrom (Nat.le_refl _)⟩

/-- Words that go on behind a keyword, a temp and a slot, a slash before a comment, a sign without a
number, a character of two bytes, and an index that is too large. -/
def thornyText : String := "t1a retu slot3é $-x / // t0\nslot4294967296%rdi"

def thornyLexemes : List Lexeme :=
  [⟨.ident "t1a", "t1a", 0⟩, ⟨.ident "retu", "retu", 4⟩, ⟨.slot 3, "slot3", 9⟩,
    ⟨.invalid, "é", 14⟩, ⟨.invalid, "$", 17⟩, ⟨.symbol .minus, "-", 18⟩, ⟨.ident "x", "x", 19⟩,
    ⟨.symbol .slash, "/", 21⟩, ⟨.invalid, "slot4294967296", 29⟩, ⟨.reg "%rdi", "%rdi", 43⟩]

theorem thornyText_tiled :
    Tiled thornyText thornyLexemes ∧ thornyLexemes = scan thornyText := by
  have lexemes : scan thornyText = thornyLexemes := by decide +kernel
  obtain ⟨tiled, unique⟩ := scan_tiled thornyText
  rw [lexemes] at tiled
  exact ⟨tiled, unique thornyLexemes tiled.tiles⟩

end RegisterColoring
