import RegisterColoring.Proofs.Acceptance
import RegisterColoring.Proofs.ReadBack
import RegisterColoring.Proofs.Selection

namespace RegisterColoring

open Source (Param)

namespace Source.Func

/-- The register `r` is written at parameter `t`. -/
def WrittenPin (src : Source.Func) (t : Temp) (r : Register) : Prop :=
  ∃ p ∈ src.params, p.temp = t ∧ p.reg.bind Register.ofName? = some r

/-- Parameter `t` stands at the place of the argument register `r`, and no register is written at
it. -/
def PositionalPin (src : Source.Func) (t : Temp) (r : Register) : Prop :=
  ∃ (k : Nat) (p : Param), src.params[k]? = some p ∧ p.temp = t ∧ p.reg = none ∧
    Register.arguments[k]? = some r

/-- No register is written at two parameters. -/
def WrittenApart (src : Source.Func) : Prop :=
  ∀ t u r, src.WrittenPin t r → src.WrittenPin u r → t = u

/-- The register that `t` has by its position is written at `u`. -/
def Crossed (src : Source.Func) (t u : Temp) : Prop :=
  ∃ r, src.PositionalPin t r ∧ src.WrittenPin u r

/-- An argument register belongs to one position. -/
theorem PositionalPin.unique {src : Source.Func} {t u : Temp} {r : Register}
    (first : src.PositionalPin t r) (second : src.PositionalPin u r) : t = u := by
  obtain ⟨k, p, atK, rfl, _, argument⟩ := first
  obtain ⟨m, q, atM, rfl, _, same⟩ := second
  have nodup : Register.arguments.Nodup := by decide
  have bound := (List.getElem?_eq_some_iff.mp argument).1
  have place : k = m := (List.getElem?_inj bound nodup).mp (argument.trans same.symm)
  subst place
  rw [Option.some.inj (atK.symm.trans atM)]

/-- One written register is apart from all others. -/
theorem writtenApart_of_single {src : Source.Func} {v : Temp}
    (single : ∀ p ∈ src.params, p.reg ≠ none → p.temp = v) : src.WrittenApart := by
  have alone : ∀ {t : Temp} {r : Register}, src.WrittenPin t r → t = v := by
    rintro t r ⟨p, member, rfl, written⟩
    refine single p member fun unwritten => ?_
    rw [unwritten] at written
    cases written
  exact fun t u r first second => (alone first).trans (alone second).symm

end Source.Func

/-- The pin of a parameter depends on what is written at it and on its position only. -/
theorem pinsFrom_getElem? {func : String} {automatic : Bool} {position : Nat} {seen : List Temp}
    {params : List Param} {pins final : IndexMap Color}
    (run : pinsFrom func automatic position seen params pins = .ok final)
    (keys : ∀ t, t ∉ seen → pins.get? t = none) {k : Nat} {p : Param}
    (place : params[k]? = some p) :
    ∃ r?, pinOf func automatic (position + k) p = .ok r? ∧
      final.get? p.temp = r?.bind Register.color? := by
  induction params generalizing position seen pins k with
  | nil => cases place
  | cons q rest ih =>
    unfold pinsFrom at run
    split at run
    · cases run
    next fresh =>
      have later : ∀ {next : IndexMap Color},
          pinsFrom func automatic (position + 1) (q.temp :: seen) rest next = .ok final →
          (∀ t, t ∉ q.temp :: seen → next.get? t = none) → ∀ m, rest[m]? = some p →
          ∃ r?, pinOf func automatic (position + (m + 1)) p = .ok r? ∧
            final.get? p.temp = r?.bind Register.color? := by
        intro next run keys m found
        have shift : position + 1 + m = position + (m + 1) := by omega
        rw [← shift]
        exact ih run keys found
      split at run
      · cases run
      next unpinned =>
        cases k with
        | zero =>
          cases place
          refine ⟨none, unpinned, ?_⟩
          rw [pinsFrom_get? run List.mem_cons_self]
          exact keys p.temp fresh
        | succ m =>
          exact later run (fun t outside => keys t fun old => outside (List.mem_cons_of_mem _ old))
            m place
      next r pinned =>
        split at run
        · cases run
        next c color =>
          cases k with
          | zero =>
            cases place
            refine ⟨some r, pinned, ?_⟩
            rw [pinsFrom_get? run List.mem_cons_self, IndexMap.get?_insert, if_pos rfl]
            exact color.symm
          | succ m =>
            refine later run (fun t outside => ?_) m place
            have apart : t ≠ q.temp := fun same => outside (same ▸ List.mem_cons_self)
            rw [IndexMap.get?_insert, if_neg apart]
            exact keys t fun old => outside (List.mem_cons_of_mem _ old)

/-- A parameter is pinned to the register that is written at it, or else to that of its position. -/
theorem Func.ofSource_pinned {src : Source.Func} {f : Func}
    (run : Func.ofSource src true = .ok f) {t : Temp} {c : Color} :
    f.pinned.get? t = some c ↔
      ∃ r, r.color? = some c ∧ (src.WrittenPin t r ∨ src.PositionalPin t r) := by
  obtain ⟨pins, _, pinned, _, _, _, built⟩ := Func.ofSource_eq_ok.mp run
  rw [built.pinned]
  constructor
  · intro held
    have param := (pinsFrom_contains pinned t (IndexMap.contains_iff.mpr ⟨c, held⟩)).resolve_right
      (by simp [IndexMap.contains])
    obtain ⟨p, member, rfl⟩ := List.mem_map.mp param
    obtain ⟨k, place⟩ := List.mem_iff_getElem?.mp member
    obtain ⟨r?, pin, value⟩ := pinsFrom_getElem? pinned (fun _ _ => rfl) place
    rw [held] at value
    obtain ⟨r, rfl, color⟩ := Option.bind_eq_some_iff.mp value.symm
    refine ⟨r, color, ?_⟩
    rw [Nat.zero_add] at pin
    unfold pinOf at pin
    split at pin
    next name written =>
      split at pin
      next other known =>
        cases pin
        exact .inl ⟨p, member, rfl, by rw [written]; exact known⟩
      next => cases pin
    next unwritten =>
      exact .inr ⟨k, p, place, rfl, unwritten, by simpa using pin⟩
  · rintro ⟨r, color, ⟨p, member, rfl, written⟩ | ⟨k, p, place, rfl, unwritten, argument⟩⟩
    · obtain ⟨k, place⟩ := List.mem_iff_getElem?.mp member
      obtain ⟨r?, pin, value⟩ := pinsFrom_getElem? pinned (fun _ _ => rfl) place
      obtain ⟨name, atName, known⟩ := Option.bind_eq_some_iff.mp written
      simp only [pinOf, atName, known] at pin
      cases pin
      exact value.trans color
    · obtain ⟨r?, pin, value⟩ := pinsFrom_getElem? pinned (fun _ _ => rfl) place
      rw [Nat.zero_add] at pin
      simp only [pinOf, unwritten, argument, if_true] at pin
      cases pin
      exact value.trans color

/-- Two parameters share a color only if one has by its position what is written at the other. -/
theorem Func.shared_iff_crossed {src : Source.Func} {f : Func}
    (run : Func.ofSource src true = .ok f) (apart : src.WrittenApart) {t u : Temp} (different : t ≠ u) :
    (∃ c, f.pinned.get? t = some c ∧ f.pinned.get? u = some c) ↔
      src.Crossed t u ∨ src.Crossed u t := by
  constructor
  · rintro ⟨c, first, second⟩
    obtain ⟨r, color, pin⟩ := (Func.ofSource_pinned run).mp first
    obtain ⟨s, same, other⟩ := (Func.ofSource_pinned run).mp second
    have register : r = s := Option.some.inj
      ((Register.ofColor?_of_color? color).symm.trans (Register.ofColor?_of_color? same))
    subst register
    rcases pin with written | position
    · rcases other with twice | position
      · exact absurd (apart t u r written twice) different
      · exact .inr ⟨r, position, written⟩
    · rcases other with written | twice
      · exact .inl ⟨r, position, written⟩
      · exact absurd (position.unique twice) different
  · have shared : ∀ {v w : Temp}, src.Crossed v w →
        ∃ c, f.pinned.get? v = some c ∧ f.pinned.get? w = some c := by
      rintro v w ⟨r, position, written⟩
      obtain ⟨k, p, place, same, unwritten, argument⟩ := position
      obtain ⟨c, color⟩ := Register.color?_of_argument argument
      exact ⟨c, (Func.ofSource_pinned run).mpr
          ⟨r, color, .inr ⟨k, p, place, same, unwritten, argument⟩⟩,
        (Func.ofSource_pinned run).mpr ⟨r, color, .inl written⟩⟩
    rintro (crossed | crossed)
    · exact shared crossed
    · obtain ⟨c, first, second⟩ := shared crossed
      exact ⟨c, second, first⟩

/-- The two temps that the check reports are neighbors pinned to the same color. -/
theorem Interference.checkPins_sharedColor {g : Interference} (valid : g.graph.Valid) {colors : Nat}
    {func : String} {t u : Temp} {c : Color} {state : Option String}
    (run : g.checkPins colors func = .error (.internal func (.sharedColor t u c) state)) :
    g.interferes t u = true ∧ g.pinned.get? t = some c ∧ g.pinned.get? u = some c := by
  cases beyond : g.pinBeyond? colors with
  | some pin =>
    rw [checkPins_of_beyond func beyond] at run
    cases run
  | none =>
    cases found : g.sharedPin? with
    | none =>
      rw [checkPins_of_none func beyond found] at run
      cases run
    | some pin =>
      rw [checkPins_of_shared func beyond found] at run
      cases run
      rw [sharedPin?_def] at found
      obtain ⟨e, entry, inner⟩ := List.exists_of_findSome?_eq_some found
      obtain ⟨v, neighbor, same⟩ := Option.map_eq_some_iff.mp inner
      cases same
      have joined := (mem_neighbors valid).mp (List.mem_of_find?_eq_some neighbor)
      have shared := List.find?_some neighbor
      simp only [decide_eq_true_eq] at shared
      exact ⟨joined, IndexMap.get?_eq_some.mpr entry, shared.2⟩

/-- If no register is written at two parameters, automatic pins give two parameters one color exactly
where a written register is that of the position of a parameter without one. Without such a pair the
pins are injective, and the check of the pins reports no others, in whatever function has these pins. -/
theorem Func.automaticPins_share {src : Source.Func} {f : Func}
    (run : Func.ofSource src true = .ok f) (apart : src.WrittenApart) :
    (∀ t u, t ≠ u → ((∃ c, f.pinned.get? t = some c ∧ f.pinned.get? u = some c) ↔
        src.Crossed t u ∨ src.Crossed u t)) ∧
      ((∀ t u c, f.pinned.get? t = some c → f.pinned.get? u = some c → t = u) ↔
        ∀ t u, ¬ src.Crossed t u) ∧
      ∀ h l g, h.pinned = f.pinned → Interference.build h l = .ok g → ∀ colors func t u c state,
        g.checkPins colors func = .error (.internal func (.sharedColor t u c) state) →
          g.interferes t u = true ∧ (src.Crossed t u ∨ src.Crossed u t) := by
  have pairs : ∀ t u, t ≠ u → ((∃ c, f.pinned.get? t = some c ∧ f.pinned.get? u = some c) ↔
      src.Crossed t u ∨ src.Crossed u t) := fun t u different =>
    Func.shared_iff_crossed run apart different
  -- A parameter is not crossed with itself: it is pinned either by its position or as written.
  have irrefl : ∀ t, ¬ src.Crossed t t := by
    rintro t ⟨r, ⟨k, p, place, rfl, unwritten, _⟩, q, member, same, written⟩
    obtain ⟨_, _, pinned, _⟩ := Func.ofSource_eq_ok.mp run
    have nodup := (pinsFrom_isOk.mp ⟨_, pinned⟩).1
    have twin : q = p := List.inj_on_of_nodup_map nodup member (List.mem_of_getElem? place) same
    rw [twin, unwritten] at written
    cases written
  refine ⟨pairs, ⟨fun injective t u crossed => ?_, fun none t u c first second => ?_⟩,
    fun h l g pins built colors func t u c state failed => ?_⟩
  · have different : t ≠ u := by
      rintro rfl
      exact irrefl t crossed
    obtain ⟨c, first, second⟩ := (pairs t u different).mpr (.inl crossed)
    exact different (injective t u c first second)
  · by_contra different
    rcases (pairs t u different).mp ⟨c, first, second⟩ with crossed | crossed
    · exact none t u crossed
    · exact none u t crossed
  · have graph := Interference.represents_of_build built
    obtain ⟨joined, first, second⟩ := Interference.checkPins_sharedColor graph.valid failed
    have different : t ≠ u := ((graph.edges t u).mp joined).1
    rw [graph.pinned, pins] at first second
    exact ⟨joined, (pairs t u different).mp ⟨c, first, second⟩⟩

/-- The second parameter has by its position the register that is written at the first. -/
def crossedSource : Source.Func :=
  ⟨"f", [⟨0, some "%rsi"⟩, ⟨1, none⟩],
    [.statement (.assign 2 (.binary .add (.temp 0) (.temp 1))),
      .statement (.ret (some (.temp 2)))]⟩

/-- Automatic pins give two parameters one color although only one register is written, and the check
of the pins reports them. -/
theorem crossedSource_shares :
    (¬ ∀ (src : Source.Func) (f : Func), Func.ofSource src true = .ok f → src.WrittenApart →
      ∀ t u c, f.pinned.get? t = some c → f.pinned.get? u = some c → t = u) ∧
    ¬ ∀ (src : Source.Func) (f : Func) (bound : Nat) (l : Liveness) (g : Interference),
      Func.ofSource src true = .ok f → src.WrittenApart → Liveness.analyze bound f = .ok l →
      Interference.build f l = .ok g → ∀ colors t u c state,
        g.checkPins colors f.name ≠ .error (.internal f.name (.sharedColor t u c) state) := by
  have result : (Func.ofSource crossedSource true).bind (fun f =>
      (Liveness.analyze 2 f).bind fun l => (Interference.build f l).map fun g =>
        (f.pinned.entries, g.pinBeyond? 13, g.sharedPin?)) =
      .ok ([(0, 2), (1, 2)], none, some (0, 1, 2)) := by decide +kernel
  obtain ⟨f, source, rest⟩ := bind_eq_ok.mp result
  obtain ⟨l, run, rest⟩ := bind_eq_ok.mp rest
  obtain ⟨g, built, values⟩ := map_eq_ok.mp rest
  simp only [Prod.mk.injEq] at values
  obtain ⟨pins, below, shared⟩ := values
  have apart : crossedSource.WrittenApart :=
    Source.Func.writtenApart_of_single (v := 0) (by decide)
  refine ⟨fun injective => ?_, fun silent => ?_⟩
  · have first : f.pinned.get? 0 = some 2 := IndexMap.get?_eq_some.mpr (by rw [pins]; simp)
    have second : f.pinned.get? 1 = some 2 := IndexMap.get?_eq_some.mpr (by rw [pins]; simp)
    exact Nat.zero_ne_one (injective crossedSource f source apart 0 1 2 first second)
  · refine silent crossedSource f 2 l g source apart run built 13 0 1 2
      (some (g.dump f.name).pretty) ?_
    exact Interference.checkPins_of_shared f.name below shared

/-- A register is written that belongs to no position. -/
def sparedSource : Source.Func :=
  ⟨"f", [⟨0, none⟩, ⟨1, some "%rax"⟩, ⟨2, none⟩], [.statement (.ret (some (.temp 0)))]⟩

/-- No position has the register that is written, so the pins differ. -/
theorem sparedSource_apart : ∃ f, Func.ofSource sparedSource true = .ok f ∧
    sparedSource.WrittenApart ∧ f.pinned.entries = [(0, 1), (1, 0), (2, 3)] ∧
    (∀ t u, ¬ sparedSource.Crossed t u) ∧
    ∀ t u c, f.pinned.get? t = some c → f.pinned.get? u = some c → t = u := by
  have result : (Func.ofSource sparedSource true).map (·.pinned.entries) =
      .ok [(0, 1), (1, 0), (2, 3)] := by decide +kernel
  obtain ⟨f, source, pins⟩ := map_eq_ok.mp result
  have apart : sparedSource.WrittenApart :=
    Source.Func.writtenApart_of_single (v := 1) (by decide)
  have free : ∀ t u, ¬ sparedSource.Crossed t u := by
    rintro t u ⟨r, ⟨k, p, _, _, _, argument⟩, q, member, _, written⟩
    have rax : ∀ q ∈ sparedSource.params, q.reg = none ∨ q.reg = some "%rax" := by decide
    rcases rax q member with unwritten | only
    · rw [unwritten] at written
      cases written
    · rw [only] at written
      cases written
      exact absurd (List.mem_of_getElem? argument) (by decide)
  exact ⟨f, source, apart, pins, free, (Func.automaticPins_share source apart).2.1.mpr free⟩

end RegisterColoring
