import RegisterColoring.Proofs.WellFormed
import RegisterColoring.Report

namespace RegisterColoring

/-- The texts of an operand, given those of the temps. -/
inductive Operand.Written (temps : Temp → String → Prop) : Operand → String → Prop
  | const (n : Int) : Written temps (.const n) ("$" ++ toString n)
  | temp {t : Temp} {name : String} : temps t name → Written temps (.temp t) name

inductive Cond.Written (temps : Temp → String → Prop) : Cond → String → Prop
  | test {arg : Operand} {a : String} : arg.Written temps a → Written temps (.test arg) a
  | compare (op : BinOp) {left right : Operand} {l r : String} :
      left.Written temps l → right.Written temps r →
      Written temps (.compare op left right) (l ++ " " ++ op.symbol.spelling ++ " " ++ r)

/-- The texts of an instruction, given those of the temps, the blocks and the slots. -/
inductive Instr.Written (temps : Temp → String → Prop) (block : BlockId → String)
    (slot : Slot → String) : Instr → String → Prop
  | binary (op : BinOp) {dest : Temp} {left right : Operand} {d l r : String} :
      temps dest d → left.Written temps l → right.Written temps r →
      Written temps block slot (.binary op dest left right)
        (d ++ " <- " ++ l ++ " " ++ op.symbol.spelling ++ " " ++ r)
  | unary (op : UnOp) {dest : Temp} {arg : Operand} {d a : String} :
      temps dest d → arg.Written temps a →
      Written temps block slot (.unary op dest arg) (d ++ " <- " ++ op.symbol.spelling ++ a)
  | move {dest : Temp} {arg : Operand} {d a : String} : temps dest d → arg.Written temps a →
      Written temps block slot (.move dest arg) (d ++ " <- " ++ a)
  | load {dest addr : Temp} {d a : String} : temps dest d → temps addr a →
      Written temps block slot (.load dest addr) (d ++ " <- *" ++ a)
  | store {addr : Temp} {value : Operand} {a v : String} : temps addr a → value.Written temps v →
      Written temps block slot (.store addr value) ("*" ++ a ++ " <- " ++ v)
  | addrOf {dest var : Temp} {d v : String} : temps dest d → temps var v →
      Written temps block slot (.addrOf dest var) (d ++ " <- &" ++ v)
  | slotAddr {dest : Temp} (s : Slot) {d : String} : temps dest d →
      Written temps block slot (.slotAddr dest s) (d ++ " <- &" ++ slot s)
  | call (callee : String) {args : List Operand} {as : List String} :
      List.Forall₂ (Operand.Written temps) args as →
      Written temps block slot (.call none callee args)
        ("call " ++ callee ++ "(" ++ ", ".intercalate as ++ ")")
  | callInto {dest : Temp} (callee : String) {args : List Operand} {as : List String} {d : String} :
      temps dest d → List.Forall₂ (Operand.Written temps) args as →
      Written temps block slot (.call (some dest) callee args)
        (d ++ " <- " ++ "call " ++ callee ++ "(" ++ ", ".intercalate as ++ ")")
  | spillLoad {dest : Temp} (s : Slot) {d : String} : temps dest d →
      Written temps block slot (.spillLoad dest s) (d ++ " <- spill_load " ++ slot s)
  | spillStore (s : Slot) {value : Temp} {v : String} : temps value v →
      Written temps block slot (.spillStore s value) ("spill_store " ++ slot s ++ " <- " ++ v)
  | jump (target : BlockId) : Written temps block slot (.jump target) ("goto " ++ block target)
  | branch {cond : Cond} (yes no : BlockId) {c : String} : cond.Written temps c →
      Written temps block slot (.branch cond yes no)
        ("if " ++ c ++ " goto " ++ block yes ++ " else " ++ block no)
  | retNone : Written temps block slot (.ret none) "ret"
  | ret {value : Operand} {v : String} : value.Written temps v →
      Written temps block slot (.ret (some value)) ("ret " ++ v)

section Naming

variable {temps : Temp → String → Prop} {n : Naming}

theorem Operand.written_text {o : Operand} (named : ∀ t, o = .temp t → temps t (n.temp t)) :
    o.Written temps (o.text n) := by
  cases o with
  | const c => exact .const c
  | temp t => exact .temp (named t rfl)

/-- What is written of an instruction under a choice of names is its text with these names. -/
theorem Instr.written_text {i : Instr} (named : ∀ t ∈ i.temps, temps t (n.temp t)) :
    i.Written temps n.block n.slot (i.text n) := by
  have dest : ∀ d, i.dest? = some d → temps d (n.temp d) := fun d writes =>
    named d (Instr.mem_temps.mpr (Or.inl writes))
  have read : ∀ t, .temp t ∈ i.operands → temps t (n.temp t) := fun t member =>
    named t (Instr.mem_temps.mpr (Or.inr (Instr.mem_uses.mpr member)))
  have operand : ∀ o ∈ i.operands, o.Written temps (o.text n) := fun o member =>
    Operand.written_text fun t same => read t (same ▸ member)
  cases i with
  | binary op d left right =>
    exact .binary op (dest d rfl) (operand left (by simp [operands]))
      (operand right (by simp [operands]))
  | unary op d arg => exact .unary op (dest d rfl) (operand arg (by simp [operands]))
  | move d arg => exact .move (dest d rfl) (operand arg (by simp [operands]))
  | load d addr => exact .load (dest d rfl) (read addr (by simp [operands]))
  | store addr value =>
    exact .store (read addr (by simp [operands])) (operand value (by simp [operands]))
  | addrOf d var => exact .addrOf (dest d rfl) (read var (by simp [operands]))
  | slotAddr d s => exact .slotAddr s (dest d rfl)
  | call d callee args =>
    have texts : List.Forall₂ (Operand.Written temps) args (args.map (·.text n)) :=
      List.forall₂_map_right_iff.mpr (List.forall₂_same.mpr operand)
    cases d with
    | none =>
      have empty : (.call none callee args : Instr).text n =
          "call " ++ callee ++ "(" ++ ", ".intercalate (args.map (·.text n)) ++ ")" := by
        simp [text]
      rw [empty]
      exact .call callee texts
    | some d => exact .callInto callee (dest d rfl) texts
  | spillLoad d s => exact .spillLoad s (dest d rfl)
  | spillStore s value => exact .spillStore s (read value (by simp [operands]))
  | jump target => exact .jump target
  | branch cond yes no =>
    cases cond with
    | test arg => exact .branch yes no (.test (operand arg (by simp [operands, Cond.operands])))
    | compare op left right =>
      exact .branch yes no (.compare op (operand left (by simp [operands, Cond.operands]))
        (operand right (by simp [operands, Cond.operands])))
  | ret value =>
    cases value with
    | none => exact .retNone
    | some value => exact .ret (operand value (by simp [operands]))

end Naming

end RegisterColoring
