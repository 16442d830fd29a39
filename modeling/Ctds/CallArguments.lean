import Ctds.CallingConvention
import Ctds.MemoryOptimization
import Ctds.Typing

/-! Every CALL comes from a call node and stands behind the PARAMs of its arguments, all
of them and nothing else. While later arguments are evaluated, with the calls inside them,
nothing writes the operand of an earlier one: an expression only writes temporaries that it
takes itself, and no name is given again while its temporary is still to be read. -/

namespace Ctds

open NameReuse

def IrInstr.isTransfer : IrInstr → Bool
  | param _ | call _ _ => true
  | _ => false

/-- A call with one argument counted for each expression it has. -/
structure CallNode (tab : SymbolTable) where
  line : Int
  name : Ident
  args : AstNodeList
  shape : areExprs tab args = true

namespace CallNode

variable {tab : SymbolTable} (c : CallNode tab) (env : Env)

def node : AstNode := .methodCall c.line c.name c.args.length c.args

/-- The code of the arguments, from a number for the next temporary on. -/
def argsPart (temps : Nat) : ArgsCode := argsCode env tab (env.opView c.node) c.args temps

def code (temps : Nat) : List IrInstr :=
  (c.argsPart env temps).code ++ (c.argsPart env temps).results.map .param ++
    [.call c.name (c.argsPart env temps).temps]

theorem exprCode_node (fatherOp temps : Nat) :
    (exprCode env tab fatherOp c.node temps).code = c.code env temps := by
  rw [node, exprCode]
  rfl

/-- The code stands at this position, and no PARAM of another call in front of its own. -/
structure At (temps : Nat) (code : List IrInstr) (p : Nat) : Prop where
  placed : Placed code p (c.code env temps)
  clean : ∀ k arg, k + 1 = p + (c.argsPart env temps).code.length → code[k]? ≠ some (.param arg)

variable {c env} {temps p : Nat} {code code' : List IrInstr}

theorem At.argsPart_le (h : c.At env temps code p) :
    p + (c.argsPart env temps).code.length ≤ code.length := by
  have le := h.placed.length_le
  rw [CallNode.code, List.length_append, List.length_append] at le
  omega

theorem At.left (h : c.At env temps code p) (code' : List IrInstr) :
    c.At env temps (code ++ code') p := by
  refine ⟨(Placed.whole (code ++ code')).left.trans h.placed |> (Nat.zero_add p ▸ ·), ?_⟩
  intro k arg eq
  have le := h.argsPart_le
  rw [List.getElem?_append_left (by omega)]
  exact h.clean k arg eq

theorem At.right (h : c.At env temps code' p) (grouped : Grouped code) :
    c.At env temps (code ++ code') (code.length + p) := by
  refine ⟨?_, ?_⟩
  · have whole := (Placed.whole (code ++ code')).right.trans h.placed
    rwa [Nat.zero_add] at whole
  · intro k arg eq here
    rcases Nat.lt_or_ge k code.length with inside | behind
    · -- the last instruction of the code in front would be a PARAM with nothing behind it
      rw [List.getElem?_append_left inside] at here
      have last : code[k + 1]? = none := List.getElem?_eq_none (by omega)
      rcases grouped k arg here with ⟨next, eq'⟩ | ⟨f, t, eq'⟩ <;> rw [last] at eq' <;> cases eq'
    · rw [List.getElem?_append_right behind] at here
      exact h.clean (k - code.length) arg (by omega) here

end CallNode

/-- Every PARAM and every CALL of the code belongs to the end of a call node's code. -/
def CallsFrom (env : Env) (tab : SymbolTable) (nodes : List AstNode) (code : List IrInstr) : Prop :=
  ∀ k i, code[k]? = some i → i.isTransfer = true → ∃ (c : CallNode tab) (temps p : Nat),
    c.node ∈ nodes ∧ c.At env temps code p ∧ p + (c.argsPart env temps).code.length ≤ k ∧
      k < p + (c.code env temps).length

namespace CallsFrom

variable {env : Env} {tab : SymbolTable} {nodes nodes' : List AstNode} {code code' : List IrInstr}

theorem mono (h : CallsFrom env tab nodes code) (sub : nodes ⊆ nodes') :
    CallsFrom env tab nodes' code := by
  intro k i here transfer
  obtain ⟨c, temps, p, mem, rest⟩ := h k i here transfer
  exact ⟨c, temps, p, sub mem, rest⟩

theorem none (quiet : ∀ i ∈ code, i.isTransfer = false) : CallsFrom env tab [] code := by
  intro k i here transfer
  rw [quiet i (List.mem_of_getElem? here)] at transfer
  cases transfer

theorem nil (nodes : List AstNode) : CallsFrom env tab nodes [] := by
  intro k i here
  cases here

theorem append (h : CallsFrom env tab nodes code) (grouped : Grouped code)
    (h' : CallsFrom env tab nodes' code') :
    CallsFrom env tab (nodes ++ nodes') (code ++ code') := by
  intro k i here transfer
  rcases Nat.lt_or_ge k code.length with inside | behind
  · rw [List.getElem?_append_left inside] at here
    obtain ⟨c, temps, p, mem, at', ge, lt⟩ := h k i here transfer
    exact ⟨c, temps, p, List.mem_append_left _ mem, at'.left code', ge, lt⟩
  · rw [List.getElem?_append_right behind] at here
    obtain ⟨c, temps, p, mem, at', ge, lt⟩ := h' _ i here transfer
    exact ⟨c, temps, _, List.mem_append_right _ mem, at'.right grouped, by omega, by omega⟩

theorem call (c : CallNode tab) (temps : Nat)
    (h : CallsFrom env tab nodes (c.argsPart env temps).code) :
    CallsFrom env tab (c.node :: nodes) (c.code env temps) := by
  intro k i here transfer
  rcases Nat.lt_or_ge k (c.argsPart env temps).code.length with inside | behind
  · rw [CallNode.code, List.append_assoc, List.getElem?_append_left inside] at here
    obtain ⟨d, temps', p, mem, at', ge, lt⟩ := h k i here transfer
    refine ⟨d, temps', p, List.mem_cons_of_mem _ mem, ?_, ge, lt⟩
    rw [CallNode.code, List.append_assoc]
    exact at'.left _
  · refine ⟨c, temps, 0, List.mem_cons_self, ⟨Placed.whole _, ?_⟩, by omega, ?_⟩
    · intro j arg eq at'
      rw [CallNode.code, List.append_assoc, List.getElem?_append_left (by omega)] at at'
      have grouped := (argsCode_operands env tab c.args c.shape (env.opView c.node) temps).grouped
      have last : (c.argsPart env temps).code[j + 1]? = Option.none :=
        List.getElem?_eq_none (by omega)
      rcases grouped j arg at' with ⟨next, eq'⟩ | ⟨f, t, eq'⟩ <;>
        rw [show (argsCode env tab (env.opView c.node) c.args temps).code[j + 1]? = Option.none
          from last] at eq' <;> cases eq'
    · rw [Nat.zero_add]
      exact (List.getElem?_eq_some_iff.mp here).1

end CallsFrom

section Trees

variable (env : Env) (tab : SymbolTable)

theorem leafCode_quiet (fatherOp : Nat) (value : LeafValue) (temps : Nat) :
    ∀ i ∈ (leafCode env tab fatherOp value temps).code, i.isTransfer = false := by
  intro i mem
  unfold leafCode at mem
  cases value with
  | int v | bool v =>
    obtain rfl := List.mem_singleton.mp mem
    rfl
  | id p =>
    dsimp only at mem
    split at mem
    · cases mem
    · split at mem
      · obtain rfl := List.mem_singleton.mp mem
        rfl
      · cases mem

theorem CallsFrom.concat {nodes nodes' : List AstNode} {code : List IrInstr} {i : IrInstr}
    (h : CallsFrom env tab nodes code) (grouped : Grouped code) (quiet : i.isTransfer = false)
    (sub : nodes ⊆ nodes') : CallsFrom env tab nodes' (code ++ [i]) := by
  have one : CallsFrom env tab [] [i] := .none fun j mem => by
    rw [List.mem_singleton.mp mem]
    exact quiet
  refine (h.append grouped one).mono ?_
  rw [List.append_nil]
  exact sub

mutual
theorem exprCode_calls :
    ∀ (node : AstNode), isExpr tab node = true → ∀ (fatherOp temps : Nat),
      CallsFrom env tab (subnodes node) (exprCode env tab fatherOp node temps).code
  | .leaf line value, _, fatherOp, temps => by
    rw [exprCode]
    exact (CallsFrom.none (leafCode_quiet env tab fatherOp value temps)).mono (List.nil_subset _)
  | .common line .binary op left right, shape, fatherOp, temps => by
    simp only [isExpr, Bool.and_eq_true] at shape
    have l := exprCode_calls left shape.1.2 op.code temps
    have leftGrouped := (exprCode_operands env tab left shape.1.2 op.code temps).grouped
    rw [exprCode]
    cases divisionShift env op right with
    | some count =>
      refine CallsFrom.concat env tab l leftGrouped rfl fun n mem => ?_
      simp [subnodes, mem]
    | none =>
      have r := exprCode_calls right shape.2 op.code (exprCode env tab op.code left temps).temps
      have rightGrouped := (exprCode_operands env tab right shape.2 op.code
        (exprCode env tab op.code left temps).temps).grouped
      refine CallsFrom.concat env tab (l.append leftGrouped r)
        (leftGrouped.append rightGrouped) rfl ?_
      intro n mem
      simpa [subnodes] using .inr (List.mem_append.mp mem)
  | .common line .unary op left right, shape, fatherOp, temps => by
    simp only [isExpr, Bool.and_eq_true] at shape
    rw [exprCode]
    refine CallsFrom.concat env tab (exprCode_calls left shape.1.2 op.code temps)
      (exprCode_operands env tab left shape.1.2 op.code temps).grouped rfl fun n mem => ?_
    simp [subnodes, mem]
  | .methodCall line name numArgs args, shape, fatherOp, temps => by
    simp only [isExpr, Bool.and_eq_true, decide_eq_true_eq] at shape
    obtain ⟨rfl, shape⟩ := shape
    have inner := argsCode_calls args shape
      (env.opView (.methodCall line name args.length args)) temps
    rw [exprCode, subnodes]
    exact CallsFrom.call ⟨line, name, args, shape⟩ temps inner
  | .null, shape, _, _ | .ifStmt .., shape, _, _ | .whileStmt .., shape, _, _
  | .methodDecl .., shape, _, _ | .block .., shape, _, _ => by simp [isExpr] at shape
theorem argsCode_calls :
    ∀ (args : AstNodeList), areExprs tab args = true → ∀ (fatherOp temps : Nat),
      CallsFrom env tab (subnodesList args) (argsCode env tab fatherOp args temps).code
  | .nil, _, _, _ => .nil _
  | .cons first next, shape, fatherOp, temps => by
    simp only [areExprs, Bool.and_eq_true] at shape
    rw [argsCode, subnodesList]
    exact (exprCode_calls first shape.1 fatherOp temps).append
      (exprCode_operands env tab first shape.1 fatherOp temps).grouped
      (argsCode_calls next shape.2 fatherOp _)
end

theorem storeTo_calls {left : AstNode} (shape : isIdLeaf tab left = true) {nodes : List AstNode}
    {nodes' : List AstNode} {code : List IrInstr} (source : Var) (h : CallsFrom env tab nodes code)
    (grouped : Grouped code) (sub : nodes ⊆ nodes') :
    CallsFrom env tab nodes' (code ++ storeTo source (targetOf tab left)) := by
  unfold isIdLeaf at shape
  split at shape
  · obtain ⟨info, entry⟩ := SymbolTable.hasEntry_iff.mp shape
    rw [targetOf, entry]
    exact CallsFrom.concat env tab h grouped rfl sub
  · cases shape

mutual
theorem stmtCode_calls :
    ∀ (node : AstNode), isStmt tab node = true → ∀ (c : Counters),
      CallsFrom env tab (subnodes node) (stmtCode env tab node c).1
  | .common line arity op left right, shape, c => by
    have exprs : ∀ {node : AstNode}, isExpr tab node = true →
        CallsFrom env tab (subnodes node) (exprCode env tab op.code node c.temp).code ∧
          Grouped (exprCode env tab op.code node c.temp).code := fun expr =>
      ⟨exprCode_calls env tab _ expr op.code c.temp,
        (exprCode_operands env tab _ expr op.code c.temp).grouped⟩
    have inLeft : subnodes left ⊆ subnodes (.common line arity op left right) := fun n mem => by
      simp [subnodes, mem]
    have inRight : subnodes right ⊆ subnodes (.common line arity op left right) := fun n mem => by
      simp [subnodes, mem]
    cases op with
    | decl =>
      simp only [isStmt, Bool.and_eq_true] at shape
      simp only [stmtCode]
      by_cases null : right.isNull
      · rw [if_pos null]
        exact .nil _
      · rw [if_neg null]
        obtain ⟨calls, grouped⟩ :=
          exprs (show isExpr tab right = true by simpa [null] using shape.2)
        exact storeTo_calls env tab shape.1 _ calls grouped inRight
    | assign =>
      simp only [isStmt, Bool.and_eq_true] at shape
      simp only [stmtCode]
      split
      · refine (CallsFrom.none fun i mem => ?_).mono (List.nil_subset _)
        obtain ⟨x, -, rfl⟩ := List.mem_map.mp mem
        rfl
      · obtain ⟨calls, grouped⟩ := exprs shape.2
        exact storeTo_calls env tab shape.1.2 _ calls grouped inRight
    | ret =>
      simp only [isStmt, Bool.and_eq_true] at shape
      simp only [stmtCode]
      by_cases null : left.isNull
      · rw [if_pos null]
        refine (CallsFrom.none fun i mem => ?_).mono (List.nil_subset _)
        rw [List.mem_singleton.mp mem]
        rfl
      · rw [if_neg null]
        obtain ⟨calls, grouped⟩ := exprs (show isExpr tab left = true by simpa [null] using shape.1)
        exact CallsFrom.concat env tab calls grouped rfl inLeft
    | _ => simp [isStmt] at shape
  | .ifStmt line condition thenBlock elseBlock, shape, c => by
    rw [isStmt_ifStmt] at shape
    simp only [Bool.and_eq_true] at shape
    rw [stmtCode]
    let view := env.opView (.ifStmt line condition thenBlock elseBlock)
    let r := exprCode env tab view condition c.temp
    let t := stmtCode env tab thenBlock ⟨r.temps, c.label + 2⟩
    let e := stmtCode env tab elseBlock t.2
    have condGrouped : Grouped r.code :=
      (exprCode_operands env tab condition shape.1.1 view c.temp).grouped
    have thenGrouped : Grouped t.1 := (branchCode_emits env tab thenBlock shape.1.2 _).grouped
    have elseGrouped : Grouped e.1 := (branchCode_emits env tab elseBlock shape.2 _).grouped
    have test := CallsFrom.concat env tab (i := .jmpf r.result c.label)
      (exprCode_calls env tab condition shape.1.1 view c.temp) condGrouped rfl (List.Subset.refl _)
    have testGrouped : Grouped (r.code ++ [.jmpf r.result c.label]) :=
      condGrouped.append (grouped_of_none _ (by simp))
    have thenCalls := test.append testGrouped
      (branchCode_calls thenBlock shape.1.2 ⟨r.temps, c.label + 2⟩)
    have jumps : CallsFrom env tab [] [.jmp (c.label + 1), .label c.label] :=
      .none (by simp [IrInstr.isTransfer])
    have thenJumps := thenCalls.append (testGrouped.append thenGrouped) jumps
    have both := thenJumps.append ((testGrouped.append thenGrouped).append
      (grouped_of_none _ (by simp))) (branchCode_calls elseBlock shape.2 t.2)
    have all : CallsFrom env tab (subnodes (.ifStmt line condition thenBlock elseBlock)) _ :=
      CallsFrom.concat env tab (i := .label (c.label + 1)) both
        (((testGrouped.append thenGrouped).append (grouped_of_none _ (by simp))).append elseGrouped)
        rfl fun n mem => by
          simp only [List.append_nil] at mem
          rw [subnodes]
          exact List.mem_cons_of_mem _ mem
    simpa using all
  | .whileStmt line condition block, shape, c => by
    rw [isStmt_whileStmt] at shape
    simp only [Bool.and_eq_true] at shape
    rw [stmtCode]
    let view := env.opView (.whileStmt line condition block)
    let r := exprCode env tab view condition c.temp
    let b := stmtCode env tab block ⟨r.temps, c.label + 2⟩
    have condGrouped : Grouped r.code :=
      (exprCode_operands env tab condition shape.1 view c.temp).grouped
    have bodyGrouped : Grouped b.1 := (branchCode_emits env tab block shape.2 _).grouped
    have label : CallsFrom env tab [] [.label c.label] := .none (by simp [IrInstr.isTransfer])
    have labelGrouped : Grouped [.label c.label] := grouped_of_none _ (by simp)
    have cond := label.append labelGrouped (exprCode_calls env tab condition shape.1 view c.temp)
    have test := CallsFrom.concat env tab (i := .jmpf r.result (c.label + 1)) cond
      (labelGrouped.append condGrouped) rfl (List.Subset.refl _)
    have testGrouped : Grouped ([.label c.label] ++ r.code ++ [.jmpf r.result (c.label + 1)]) :=
      (labelGrouped.append condGrouped).append (grouped_of_none _ (by simp))
    have body := test.append testGrouped (branchCode_calls block shape.2 ⟨r.temps, c.label + 2⟩)
    have jumps : CallsFrom env tab [] [.jmp c.label, .label (c.label + 1)] :=
      .none (by simp [IrInstr.isTransfer])
    have all : CallsFrom env tab (subnodes (.whileStmt line condition block)) _ :=
      (body.append (testGrouped.append bodyGrouped) jumps).mono fun n mem => by
        simp only [List.append_nil, List.nil_append] at mem
        rw [subnodes]
        exact List.mem_cons_of_mem _ mem
    simpa using all
  | .methodCall line name numArgs args, shape, c => by
    simp only [stmtCode]
    exact exprCode_calls env tab (.methodCall line name numArgs args)
      (by simpa [isStmt, isExpr] using shape) _ _
  | .block line stmts, shape, c => by
    rw [isStmt] at shape
    rw [stmtCode, subnodes]
    exact (blockCode_calls stmts shape c).mono (List.subset_cons_self _ _)
  | .null, shape, _ | .methodDecl .., shape, _ | .leaf .., shape, _ => by simp [isStmt] at shape
theorem branchCode_calls :
    ∀ (node : AstNode), isBranch tab node = true → ∀ (c : Counters),
      CallsFrom env tab (subnodes node) (stmtCode env tab node c).1
  | .null, _, c => by
    simp only [stmtCode]
    exact .nil _
  | .block line stmts, shape, c => by
    simp only [isBranch, AstNode.isNull, AstNode.isBlock, isStmt, Bool.false_or,
      Bool.true_and] at shape
    rw [stmtCode, subnodes]
    exact (blockCode_calls stmts shape c).mono (List.subset_cons_self _ _)
  | .common .., shape, _ | .ifStmt .., shape, _ | .whileStmt .., shape, _
  | .methodDecl .., shape, _ | .methodCall .., shape, _ | .leaf .., shape, _ => by
    simp [isBranch, AstNode.isNull, AstNode.isBlock] at shape
theorem blockCode_calls :
    ∀ (stmts : AstNodeList), areStmts tab stmts = true → ∀ (c : Counters),
      CallsFrom env tab (subnodesList stmts) (blockCode env tab stmts c).1
  | .nil, _, c => .nil _
  | .cons first next, shape, c => by
    simp only [areStmts, Bool.and_eq_true] at shape
    have one := stmtCode_calls first shape.1 c
    rw [blockCode, subnodesList]
    by_cases stops : first.isReturn = true ∧ env.optimizations = true
    · rw [if_pos stops]
      exact one.mono (List.subset_append_left _ _)
    · rw [if_neg stops]
      exact one.append (stmtCode_emits env tab first shape.1 c).grouped
        (blockCode_calls next shape.2 _)
end
end Trees

theorem sentenceCode_calls (env : Env) {tab : SymbolTable} {node : AstNode}
    (shape : isSentence tab node = true) (c : Counters) :
    CallsFrom env tab (subnodes node) (sentenceCode env tab node c).1 := by
  unfold isSentence at shape
  split at shape
  · exact stmtCode_calls env tab _ shape c
  · next line sym block =>
    rw [Bool.and_eq_true] at shape
    obtain ⟨info, entry⟩ := SymbolTable.hasEntry_iff.mp shape.1
    simp only [sentenceCode, entry]
    by_cases isExtern : info.methodView.isExtern = true
    · rw [if_pos isExtern]
      exact (CallsFrom.none (by simp [IrInstr.isTransfer])).mono (List.nil_subset _)
    · rw [if_neg isExtern]
      have enter : CallsFrom env tab [] [.enter info.name] := .none (by simp [IrInstr.isTransfer])
      have enterGrouped : Grouped [.enter info.name] := grouped_of_none _ (by simp)
      have body := enter.append enterGrouped (branchCode_calls env tab block shape.2 c)
      refine CallsFrom.concat env tab body
        (enterGrouped.append (branchCode_emits env tab block shape.2 c).grouped) rfl fun n mem => ?_
      rw [subnodes]
      exact List.mem_cons_of_mem _ mem
  · cases shape

theorem programCode_calls (env : Env) {tab : SymbolTable} {sentences : List AstNode}
    (shape : ∀ node ∈ sentences, isSentence tab node = true) (c : Counters) :
    CallsFrom env tab (sentences.flatMap subnodes) (programCode env tab sentences c).1 := by
  induction sentences generalizing c with
  | nil => exact .nil _
  | cons sentence rest ih =>
    have here := shape sentence List.mem_cons_self
    have later : ∀ node ∈ rest, isSentence tab node = true := fun node mem =>
      shape node (List.mem_cons_of_mem _ mem)
    have grouped : Grouped (sentenceCode env tab sentence c).1 := by
      have one : Grouped (programCode env tab [sentence] c).1 :=
        programCode_grouped (fun node mem => List.mem_singleton.mp mem ▸ here) c
      rw [programCode, programCode, List.append_nil] at one
      exact one
    rw [programCode, List.flatMap_cons]
    exact (sentenceCode_calls env here c).append grouped (ih later _)

/-- The state behind each argument, and its operand, as the first loop of
`gen_code_method_call` gets them. -/
def argRuns (env : Env) (tab : SymbolTable) (fatherOp : Nat) :
    AstNodeList → GenState → List (GenState × NamePtr)
  | .nil, _ => []
  | .cons first next, st =>
    let (st, arg) := genCode env tab fatherOp first st
    (st, operand arg) :: argRuns env tab fatherOp next st

theorem argRuns_operands (env : Env) (tab : SymbolTable) (fatherOp : Nat) (args : AstNodeList)
    (st : GenState) :
    (argRuns env tab fatherOp args st).map Prod.snd = (genArgs env tab fatherOp args st).2 := by
  induction args using AstNodeList.list_induction generalizing st with
  | nil => rfl
  | cons first next ih =>
    rw [argRuns, genArgs, List.map_cons, ih]

theorem argRuns_length (env : Env) (tab : SymbolTable) (fatherOp : Nat) (args : AstNodeList)
    (st : GenState) : (argRuns env tab fatherOp args st).length = args.length := by
  induction args using AstNodeList.list_induction generalizing st with
  | nil => rfl
  | cons first next ih =>
    rw [argRuns, List.length_cons, ih, AstNodeList.length]

theorem argRuns_split (env : Env) {tab : SymbolTable} (fatherOp : Nat) {args : AstNodeList}
    (shape : areExprs tab args = true) {st : GenState} {i : Nat} {run : GenState × NamePtr}
    (here : (argRuns env tab fatherOp args st)[i]? = some run) :
    ∃ (first rest : List IrInstr) (u : Nat) (r : Var) (rs : List Var),
      (argsCode env tab fatherOp args st.tempCounter).code = first ++ rest ∧
      (argsCode env tab fatherOp args st.tempCounter).results[i]? = some r ∧ run.2 = r.ptr ∧
      run.1 = st.append env first ⟨u, st.labelCounter⟩ ∧ (∀ n ∈ r.temps, n < u) ∧
      Operands u rest rs (argsCode env tab fatherOp args st.tempCounter).temps := by
  induction args using AstNodeList.list_induction generalizing st i with
  | nil => cases here
  | cons arg next ih =>
    simp only [areExprs, Bool.and_eq_true] at shape
    have gen := genCode_expr env tab arg shape.1 fatherOp st
    have operands := exprCode_operands env tab arg shape.1 fatherOp st.tempCounter
    simp only [argRuns, gen] at here
    simp only [argsCode]
    cases i with
    | zero =>
      rw [List.getElem?_cons_zero, Option.some.injEq] at here
      subst here
      refine ⟨_, _, _, _, _, rfl, rfl, rfl, rfl, fun n mem => ?_,
        argsCode_operands env tab next shape.2 fatherOp _⟩
      exact (operands.results n (by simpa using mem)).2
    | succ i =>
      rw [List.getElem?_cons_succ] at here
      obtain ⟨first, rest, u, r, rs, code, at', ptr, state, low, later⟩ := ih shape.2 here
      simp only [append_tempCounter] at code at' later
      refine ⟨(exprCode env tab fatherOp arg st.tempCounter).code ++ first, rest, u, r,
        rs, ?_, at', ptr,
        ?_, low, later⟩
      · rw [List.append_assoc, code]
      · rw [state, append_append]
        rfl

theorem operand_kept {code : List IrInstr} {low high : Nat} (ranges : Ranges 0 0 code low high)
    {ρ : Nat → Nat} (separated : Separated ρ 0 (occurrences code)) {start stop u : Nat} {r : Var}
    (below : ∀ n ∈ r.temps, n < u) (reads : ∃ i, code[stop]? = some i ∧ ∀ n ∈ r.temps, n ∈ i.uses)
    (between : ∀ k i, start ≤ k → k < stop → code[k]? = some i →
      (∃ d, i.dest? = some d ∧ u ≤ d ∧ (i.named ρ).reg = some (tempText (ρ d))) ∨
        (i.dest? = none ∧ (i.named ρ).reg = none)) {k : Nat} {i : IrInstr} (ge : start ≤ k)
    (lt : k < stop) (here : code[k]? = some i) : (i.named ρ).reg ≠ some (r.name ρ) := by
  -- the operand is live from its evaluation on, since nothing in between defines it
  have live : ∀ n ∈ r.temps, ∀ m, start ≤ stop - m → Live code (stop - m) n := by
    intro n mem m
    obtain ⟨last, atLast, uses⟩ := reads
    have inside := (List.getElem?_eq_some_iff.mp atLast).1
    induction m with
    | zero => exact fun _ => live_of_used ranges atLast (uses n mem)
    | succ m ih =>
      intro ge'
      by_cases ended : stop - m = 0
      · have same : stop - (m + 1) = stop - m := by omega
        rw [same]
        exact ih (by omega)
      · have next : stop - (m + 1) + 1 = stop - m := by omega
        have at' := List.getElem?_eq_getElem (l := code) (i := stop - (m + 1)) (by omega)
        have step := ih (by omega)
        rw [← next] at step
        rcases live_succ at' step with now | old
        · rcases between _ _ ge' (by omega) at' with ⟨d, dest, high, -⟩ | ⟨none, -⟩
          · obtain rfl := Option.some.inj (now.symm.trans dest)
            have := below n mem
            omega
          · rw [none] at now
            cases now
        · exact old
  rcases between k i ge lt here with ⟨d, dest, high, reg⟩ | ⟨-, reg⟩
  · rw [reg]
    intro same
    cases r with
    | user x => exact tempText_ne_ident _ x (Option.some.inj same)
    | temp n =>
      have mem : n ∈ (Var.temp n).temps := List.mem_singleton_self n
      have behind := live n mem (stop - (k + 1)) (by omega)
      rw [show stop - (stop - (k + 1)) = k + 1 by omega] at behind
      have low := below n mem
      exact name_apart ranges here separated dest behind (by omega)
        (tempText_inj (Option.some.inj same)).symm
  · rw [reg]
    simp

theorem reg_of_isOperand {i : IrInstr} (operand : i.isOperand = true) (ρ : Nat → Nat) :
    (i.named ρ).reg = i.dest?.map fun d => tempText (ρ d) := by
  cases i <;> first | rfl | cases operand

theorem Operands.writes {t u : Nat} {code : List IrInstr} {rs : List Var}
    (h : Operands t code rs u) (ρ : Nat → Nat) : ∀ i ∈ code,
      (∃ d, i.dest? = some d ∧ t ≤ d ∧ (i.named ρ).reg = some (tempText (ρ d))) ∨
        (i.dest? = none ∧ (i.named ρ).reg = none) := by
  intro i mem
  have ranges := h.ranges (Nat.zero_le t)
  rw [reg_of_isOperand (h.all i mem)]
  cases dest : i.dest? with
  | none => exact .inr ⟨rfl, rfl⟩
  | some d =>
    have range := (ranges.defined_iff d).mp (List.mem_filterMap.mpr ⟨i, mem, dest⟩)
    exact .inl ⟨d, rfl, range.1, rfl⟩

/-- A call node and the state in which `gen_code` is called on it. -/
structure CallRun (tab : SymbolTable) extends CallNode tab where
  state : GenState

namespace CallRun

variable {tab : SymbolTable} (c : CallRun tab) (env : Env)

/-- The state behind each argument, and its operand. -/
def runs : List (GenState × NamePtr) := argRuns env tab (env.opView c.node) c.args c.state

/-- The position of the first PARAM, behind the code of the arguments. -/
def first : Nat := (genArgs env tab (env.opView c.node) c.args c.state).1.code.length

/-- The position of the CALL. -/
def last : Nat := c.first env + c.args.length

/-- The program has this node, and `gen_code` emits the code up to its CALL for it. -/
structure In (sentences : List AstNode) (gen : GenState) : Prop where
  node : c.node ∈ sentences.flatMap subnodes
  before : c.state.code <+: gen.code
  behind : (genCode env tab 0 c.node c.state).1.code = gen.code.take (c.last env + 1)

/-- The PARAMs carry the operands of the arguments, in order; they are all the PARAMs in
front of the CALL; and no operand is written between its evaluation and its PARAM. -/
structure Undisturbed (heap : Nat → CString) (code : List (Instr CString)) : Prop where
  call : ∃ dest, code[c.last env]? = some ⟨.call, some c.name.text, none, dest⟩
  params : ∀ i run, (c.runs env)[i]? = some run →
    code[c.first env + i]? = some ⟨.param, some (run.2.text heap), none, none⟩
  exactly : argsBefore code (c.last env) = c.args.length
  kept : ∀ i run, (c.runs env)[i]? = some run → ∀ k instr, run.1.code.length ≤ k →
    k < c.first env + i → code[k]? = some instr → instr.reg ≠ some (run.2.text heap)

end CallRun

section Site

variable {env : Env} {tab : SymbolTable} {instrs : List IrInstr} (c : CallNode tab) {temps p : Nat}

/-- The run of `gen_code` that leaves the node's code at this position. -/
def CallNode.run (env : Env) (instrs : List IrInstr) (temps p : Nat) : CallRun tab :=
  { c with state := resetCode.append env (instrs.take p) ⟨temps, 0⟩ }

theorem CallNode.results_length : (c.argsPart env temps).results.length = c.args.length :=
  (genArgs_exprs env tab c.args c.shape (env.opView c.node) (c.run env [] temps 0).state).2

theorem CallNode.code_length : (c.code env temps).length =
    (c.argsPart env temps).code.length + c.args.length + 1 := by
  rw [CallNode.code, List.length_append, List.length_append, List.length_map, c.results_length]
  rfl

variable {c} (site : c.At env temps instrs p)

include site

theorem CallNode.At.state_length : (c.run env instrs temps p).state.code.length = p := by
  have le := site.placed.length_le
  simp only [CallNode.run, GenState.append, resetCode, List.nil_append, List.length_map,
    List.length_take]
  omega

theorem CallNode.At.first :
    (c.run env instrs temps p).first env = p + (c.argsPart env temps).code.length := by
  have args := (genArgs_exprs env tab c.args c.shape (env.opView c.node)
    (c.run env instrs temps p).state).1
  have length := site.state_length
  have done : (genArgs env tab (env.opView c.node) c.args (c.run env instrs temps p).state).1.code =
      (c.run env instrs temps p).state.code ++ (c.argsPart env temps).code.map IrInstr.instr :=
    congrArg (fun r : GenState × List NamePtr => r.1.code) args
  refine (congrArg List.length done).trans ?_
  rw [List.length_append, List.length_map, length]

theorem CallNode.At.inProgram {sentences : List AstNode} {d : Counters}
    (mem : c.node ∈ sentences.flatMap subnodes) :
    (c.run env instrs temps p).In env sentences (resetCode.append env instrs d) := by
  have shape : isExpr tab c.node = true := by
    simp only [CallNode.node, isExpr, decide_true, Bool.true_and]
    exact c.shape
  refine ⟨mem, ?_, ?_⟩
  · exact List.IsPrefix.map _ (List.take_prefix p instrs)
  · have gen := genCode_expr env tab c.node shape 0 (c.run env instrs temps p).state
    have place : (c.run env instrs temps p).last env + 1 = p + (c.code env temps).length := by
      rw [CallRun.last, site.first, c.code_length]
      simp only [CallNode.run]
      omega
    have code : (genCode env tab 0 c.node (c.run env instrs temps p).state).1.code =
        (instrs.take p).map IrInstr.instr ++
          (exprCode env tab 0 c.node temps).code.map IrInstr.instr :=
      congrArg (fun r : GenState × Option NamePtr => r.1.code) gen
    rw [place]
    refine code.trans ?_
    rw [c.exprCode_node env, ← List.map_append, ← site.placed.take]
    exact List.map_take

theorem CallNode.At.param {k : Nat} (lt : k < c.args.length) :
    ∃ r, (c.argsPart env temps).results[k]? = some r ∧
      instrs[p + (c.argsPart env temps).code.length + k]? = some (.param r) := by
  have inside : k < (c.argsPart env temps).results.length := by rwa [c.results_length]
  have here := List.getElem?_eq_getElem inside
  refine ⟨_, here, ?_⟩
  have params := site.placed.left.right
  rw [params.getElem? (by rwa [List.length_map]), List.getElem?_map, here]
  rfl

theorem CallNode.At.call : instrs[p + (c.argsPart env temps).code.length + c.args.length]? =
    some (.call c.name (c.argsPart env temps).temps) := by
  have last := site.placed.last
  rwa [List.length_append, List.length_map, c.results_length, ← Nat.add_assoc] at last

theorem CallNode.At.argsBefore (ρ : Nat → Nat) {k : Nat} (le : k ≤ c.args.length) :
    argsBefore (renamed ρ instrs) (p + (c.argsPart env temps).code.length + k) = k := by
  induction k with
  | zero =>
    by_contra pos
    obtain ⟨j, instr, eq, here, isParam⟩ := argsBefore_pos pos
    rw [renamed, List.getElem?_map, Option.map_eq_some_iff] at here
    obtain ⟨ir, atIr, rfl⟩ := here
    obtain ⟨arg, rfl⟩ := eq_param isParam
    exact site.clean j arg eq.symm atIr
  | succ k ih =>
    obtain ⟨r, -, atIr⟩ := site.param le
    have here : (renamed ρ instrs)[p + (c.argsPart env temps).code.length + k]? =
        some ⟨.param, some (r.name ρ), none, none⟩ := by
      rw [renamed, List.getElem?_map, atIr, ← named_param]
      rfl
    rw [← Nat.add_assoc, Ctds.argsBefore, here]
    exact congrArg (· + 1) (ih (Nat.le_of_succ_le le))

/-- What one argument leaves: its operand is that of its PARAM, and the code from there to
the PARAMs only takes higher temporaries. -/
theorem CallNode.At.argument {i : Nat} {run : GenState × NamePtr}
    (here : ((c.run env instrs temps p).runs env)[i]? = some run) :
    ∃ (done u : Nat) (r : Var), run.2 = r.ptr ∧ run.1.code.length = p + done ∧
      done ≤ (c.argsPart env temps).code.length ∧ (∀ n ∈ r.temps, n < u) ∧
      instrs[p + (c.argsPart env temps).code.length + i]? = some (.param r) ∧
      ∀ (ρ : Nat → Nat) k ir, p + done ≤ k → k < p + (c.argsPart env temps).code.length →
        instrs[k]? = some ir →
        (∃ d, ir.dest? = some d ∧ u ≤ d ∧ (ir.named ρ).reg = some (tempText (ρ d))) ∨
          (ir.dest? = none ∧ (ir.named ρ).reg = none) := by
  have inside : i < c.args.length := by
    have lt := (List.getElem?_eq_some_iff.mp here).1
    rwa [CallRun.runs, argRuns_length] at lt
  obtain ⟨first, rest, u, r, rs, code, result, ptr, state, low, later⟩ :=
    argRuns_split env (env.opView c.node) c.shape here
  have split : (c.argsPart env temps).code = first ++ rest := code
  obtain ⟨r', result', param⟩ := site.param inside
  obtain rfl : r = r' := Option.some.inj (result.symm.trans result')
  refine ⟨first.length, u, r, ptr, ?_, ?_, low, param, ?_⟩
  · have length := site.state_length
    rw [state]
    simp only [GenState.append, List.length_append, List.length_map]
    rw [length]
  · rw [split, List.length_append]
    omega
  · intro ρ k ir ge lt atIr
    have placed := site.placed.left.left
    rw [split] at placed lt
    rw [List.length_append] at lt
    have place : k = p + first.length + (k - (p + first.length)) := by omega
    rw [place, placed.right.getElem? (by omega)] at atIr
    exact later.writes ρ ir (List.mem_of_getElem? atIr)

end Site

theorem isTransfer_of_named {i : IrInstr} {ρ : Nat → Nat}
    (h : (i.named ρ).instruct = .param ∨ (i.named ρ).instruct = .call) : i.isTransfer = true := by
  cases i with
  | param _ | call _ _ => rfl
  | binary t _ _ _ =>
    cases t <;> simp [IrInstr.named, IrInstr.instr, Instr.map, BinaryInstr.type] at h
  | unary t _ _ => cases t <;> simp [IrInstr.named, IrInstr.instr, Instr.map, UnaryInstr.type] at h
  | _ => simp [IrInstr.named, IrInstr.instr, Instr.map] at h

theorem CallNode.At.undisturbed {env : Env} {tab : SymbolTable} {instrs : List IrInstr}
    {c : CallNode tab} {temps p : Nat} (site : c.At env temps instrs p) {low high : Nat}
    (ranges : Ranges 0 0 instrs low high) {ρ : Nat → Nat}
    (separated : Separated ρ 0 (occurrences instrs)) :
    (c.run env instrs temps p).Undisturbed env (tempHeap ρ) (renamed ρ instrs) := by
  have named : ∀ {k : Nat} {i : IrInstr}, instrs[k]? = some i →
      (renamed ρ instrs)[k]? = some (i.named ρ) := fun here => by
    rw [renamed, List.getElem?_map, here]
    rfl
  refine ⟨?_, ?_, ?_, ?_⟩
  · rw [CallRun.last, site.first]
    exact ⟨_, named site.call⟩
  · intro i run here
    obtain ⟨done, u, r, ptr, -, -, -, param, -⟩ := site.argument here
    rw [site.first, ptr, Var.ptr_text, ← named_param]
    exact named param
  · rw [CallRun.last, site.first]
    exact site.argsBefore ρ (Nat.le_refl _)
  · intro i run here k instr ge lt at'
    obtain ⟨done, u, r, ptr, state, le, below, param, quiet⟩ := site.argument here
    rw [site.first] at lt
    rw [renamed, List.getElem?_map, Option.map_eq_some_iff] at at'
    obtain ⟨ir, atIr, rfl⟩ := at'
    rw [ptr, Var.ptr_text]
    refine operand_kept ranges separated below ⟨_, param, fun n mem => mem⟩ ?_ ge lt atIr
    intro j i' ge' lt' atJ
    rw [state] at ge'
    rcases Nat.lt_or_ge j (p + (c.argsPart env temps).code.length) with inside | behind
    · exact quiet ρ j i' ge' inside atJ
    · -- an earlier PARAM of the same call
      have count : i < c.args.length := by
        have bound := (List.getElem?_eq_some_iff.mp here).1
        rwa [CallRun.runs, argRuns_length] at bound
      obtain ⟨r', -, param'⟩ := site.param (k := j - (p + (c.argsPart env temps).code.length))
        (by omega)
      rw [Nat.add_sub_of_le behind] at param'
      obtain rfl := Option.some.inj (param'.symm.trans atJ)
      exact .inr ⟨rfl, congrArg Instr.reg (named_param ρ r')⟩

/-- Every PARAM and CALL of a program belongs to a call node whose arguments are passed
undisturbed, before `optimize_memory` and after every pass that ends, and the counter of the
object code generator is 0 in front of them. -/
theorem call_arguments_undisturbed (env : Env) {tab : SymbolTable} {sentences : List AstNode}
    (shape : ∀ node ∈ sentences, isSentence tab node = true) :
    let gen := genSentences env tab sentences resetCode
    ((∃ s, optimizePass gen = some s) ↔ NullLists env gen) ∧
      ∀ heap, heap = tempText ∨ (∃ s, optimizePass gen = some s ∧ heap = s.heap) →
        ∀ k instr, (namedCode heap gen.code)[k]? = some instr →
          (instr.instruct = .param ∨ instr.instruct = .call) →
          ∃ c : CallRun tab, c.In env sentences gen ∧
            c.Undisturbed env heap (namedCode heap gen.code) ∧
            c.first env ≤ k ∧ k ≤ c.last env ∧ (instr.instruct = .call → k = c.last env) ∧
            (objectState tab sentences (namedCode heap gen.code) (c.first env)).paramCount = 0 := by
  intro gen
  have ends : (∃ s, optimizePass gen = some s ∧ True) ↔ NullLists env gen :=
    optimizePass_iff (P := fun _ _ => True) shape fun _ _ _ => trivial
  refine ⟨by simpa only [and_true] using ends, fun heap isHeap k instr here transfer => ?_⟩
  obtain ⟨low, ranges⟩ := programCode_ranges env shape ⟨0, 0⟩ (Nat.le_refl 0)
  have emitted : gen = resetCode.append env (programCode env tab sentences ⟨0, 0⟩).1
    (programCode env tab sentences ⟨0, 0⟩).2 := genSentences_reset shape
  obtain ⟨ρ, rfl, separated⟩ : ∃ ρ, heap = tempHeap ρ ∧
      Separated ρ 0 (occurrences (programCode env tab sentences ⟨0, 0⟩).1) := by
    rcases isHeap with rfl | ⟨s, pass, rfl⟩
    · exact ⟨id, rfl, separated_id 0 _⟩
    · exact separated_of_pass shape pass
  rw [emitted]
  rw [emitted] at here
  rw [namedCode_renamed] at here ⊢
  have named := here
  rw [renamed, List.getElem?_map, Option.map_eq_some_iff] at named
  obtain ⟨ir, atIr, rfl⟩ := named
  obtain ⟨c, temps, p, mem, site, ge, lt⟩ :=
    programCode_calls env shape ⟨0, 0⟩ k ir atIr (isTransfer_of_named transfer)
  rw [c.code_length] at lt
  refine ⟨c.run env _ temps p, site.inProgram mem, site.undisturbed ranges separated,
    ?_, ?_, ?_, ?_⟩
  · rwa [site.first]
  · rw [CallRun.last, site.first]
    simp only [CallNode.run]
    omega
  · intro isCall
    rw [CallRun.last, site.first]
    simp only [CallNode.run]
    by_contra differ
    obtain ⟨r, -, param⟩ := site.param (k := k - (p + (c.argsPart env temps).code.length))
      (by omega)
    rw [Nat.add_sub_of_le ge] at param
    obtain rfl := Option.some.inj (param.symm.trans atIr)
    cases isCall
  · have le := site.argsPart_le
    have inside : p + (c.argsPart env temps).code.length ≤
        (renamed ρ (programCode env tab sentences ⟨0, 0⟩).1).length := by
      rwa [renamed, List.length_map]
    have counts := objectState_argsBefore tab sentences (fun i instr at' =>
      (programCode_grouped shape ⟨0, 0⟩).argsBefore_eq_zero ρ at') inside
    have none := site.argsBefore ρ (Nat.zero_le _)
    rw [site.first]
    exact counts.1.trans none

/-- `integer f(integer a, integer b) { return a; }` and
`integer main() { return f(f(1, 2), f(3, 4)); }`. -/
def nestedArguments : ProgramSyn :=
  let f : Ident := .of "f"
  let pair (x y : ExprSyn) : ExprSyn := .methodCall 2 f (.cons x (.cons y .nil))
  let inner (m n : BitVec 32) : ExprSyn := pair (.integerLiteral 2 m) (.integerLiteral 2 n)
  [.methodDecl ⟨1, some .integer, f, [⟨1, .integer, .of "a"⟩, ⟨1, .integer, .of "b"⟩],
    some (.mk 1 [] (.cons (.returnExpr 1 (.id 1 (.of "a"))) .nil))⟩,
    .methodDecl ⟨2, some .integer, .of "main", [],
      some (.mk 2 [] (.cons (.returnExpr 2 (pair (inner 1 2) (inner 3 4))) .nil))⟩]

/-- The CALL of the outer call is at position 17. -/
theorem call_arguments_nested :
    ∃ ps s, parse nestedArguments = .ok ps ∧
      let gen := genSentences (.sample true) ps.tab ps.headAst resetCode
      optimizePass gen = some s ∧
      (namedCode s.heap gen.code)[17]?.map Instr.instruct = some .call ∧
      ∃ c : CallRun ps.tab, c.last (.sample true) = 17 ∧
        c.Undisturbed (.sample true) s.heap (namedCode s.heap gen.code) := by
  obtain ⟨ps, parsed⟩ := Fallible.isOk_iff.mp (by decide +kernel :
    (parse nestedArguments).isOk = true)
  have facts : (parse nestedArguments).toOption.bind (fun ps =>
      let gen := genSentences (.sample true) ps.tab ps.headAst resetCode
      (optimizePass gen).map fun s =>
        (namedCode s.heap gen.code)[17]?.map Instr.instruct) =
          some (some .call) := by decide +kernel
  obtain ⟨ends, all⟩ := call_arguments_undisturbed (.sample true)
    (parse_sentencesOk parsed).shape
  obtain ⟨s, optimized⟩ := ends.mpr fun _ _ => rfl
  refine ⟨ps, s, parsed, optimized, ?_⟩
  simp only [parsed, Except.toOption, Option.bind_some, optimized, Option.map_some,
    Option.some.injEq] at facts
  refine ⟨facts, ?_⟩
  obtain ⟨instr, here, isCall⟩ := Option.map_eq_some_iff.mp facts
  obtain ⟨c, -, undisturbed, -, -, last, -⟩ := all s.heap
    (.inr ⟨s, optimized, rfl⟩) 17 instr here (.inr isCall)
  exact ⟨c, (last isCall).symm, undisturbed⟩

end Ctds
