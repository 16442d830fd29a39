import Ctds.Labels

/-! Two of the shortcuts that `-opt` turns on in `gen_code`: a literal is stored without a
temporary, and a block ends at its first return. Here is the code without them. It is what
`gen_code` emits when `-opt` is off, and what holds of any code of statements holds of it. -/

namespace Ctds

mutual
/-- `gen_code` on a statement without the two shortcuts; divisions are compiled as before. -/
def plainStmtCode (env : Env) (tab : SymbolTable) : AstNode → Counters → List IrInstr × Counters
  | .common _ _ op left right, c =>
    match op with
    | .decl =>
      if right.isNull then ([], c)
      else
        let r := exprCode env tab op.code right c.temp
        (r.code ++ storeTo r.result (targetOf tab left), { c with temp := r.temps })
    | .assign =>
      let r := exprCode env tab op.code right c.temp
      (r.code ++ storeTo r.result (targetOf tab left), { c with temp := r.temps })
    | .ret =>
      if left.isNull then ([.ret none], c)
      else
        let l := exprCode env tab op.code left c.temp
        (l.code ++ [.ret (some l.result)], { c with temp := l.temps })
    | _ => ([], c)
  | .ifStmt line condition thenBlock elseBlock, c =>
    let view := env.opView (.ifStmt line condition thenBlock elseBlock)
    let r := exprCode env tab view condition c.temp
    let t := plainStmtCode env tab thenBlock ⟨r.temps, c.label + 2⟩
    let e := plainStmtCode env tab elseBlock t.2
    (r.code ++ .jmpf r.result c.label :: t.1 ++ .jmp (c.label + 1) :: .label c.label :: e.1 ++
      [.label (c.label + 1)], e.2)
  | .whileStmt line condition block, c =>
    let view := env.opView (.whileStmt line condition block)
    let r := exprCode env tab view condition c.temp
    let b := plainStmtCode env tab block ⟨r.temps, c.label + 2⟩
    (.label c.label :: r.code ++ .jmpf r.result (c.label + 1) :: b.1 ++
      [.jmp c.label, .label (c.label + 1)], b.2)
  | .methodCall line name numArgs args, c =>
    let e := exprCode env tab 0 (.methodCall line name numArgs args) c.temp
    (e.code, { c with temp := e.temps })
  | .block _ stmts, c => plainBlockCode env tab stmts c
  | _, c => ([], c)
def plainBlockCode (env : Env) (tab : SymbolTable) :
    AstNodeList → Counters → List IrInstr × Counters
  | .nil, c => ([], c)
  | .cons first next, c =>
    let f := plainStmtCode env tab first c
    let n := plainBlockCode env tab next f.2
    (f.1 ++ n.1, n.2)
end

def plainSentenceCode (env : Env) (tab : SymbolTable) :
    AstNode → Counters → List IrInstr × Counters
  | .methodDecl _ sym block, c =>
    match tab.entry sym with
    | none => ([], c)
    | some info =>
      if info.methodView.isExtern then ([.externDecl info.name], c)
      else
        let b := plainStmtCode env tab block c
        (.enter info.name :: b.1 ++ [.leave info.name], b.2)
  | node, c => plainStmtCode env tab node c

def plainProgramCode (env : Env) (tab : SymbolTable) :
    List AstNode → Counters → List IrInstr × Counters
  | [], c => ([], c)
  | sentence :: rest, c =>
    let s := plainSentenceCode env tab sentence c
    let r := plainProgramCode env tab rest s.2
    (s.1 ++ r.1, r.2)

theorem plainStmtCode_common (env : Env) (tab : SymbolTable) {line : Int} {arity : OperatorArity}
    {op : Operator} {left right : AstNode} (other : op ≠ .assign) (c : Counters) :
    plainStmtCode env tab (.common line arity op left right) c =
      stmtCode env tab (.common line arity op left right) c := by
  simp only [plainStmtCode, stmtCode]
  cases op <;> first | rfl | exact absurd rfl other

mutual
theorem plainStmtCode_off {env : Env} (off : env.optimizations = false) (tab : SymbolTable) :
    ∀ (node : AstNode) (c : Counters), plainStmtCode env tab node c = stmtCode env tab node c
  | .common _ _ op _ _, c => by
    by_cases assign : op = .assign
    · subst assign
      simp only [plainStmtCode, stmtCode, off, Bool.false_eq_true, if_false]
    · exact plainStmtCode_common env tab assign c
  | .ifStmt _ _ thenBlock elseBlock, c => by
    simp only [plainStmtCode, stmtCode, plainStmtCode_off off tab thenBlock,
      plainStmtCode_off off tab elseBlock]
  | .whileStmt _ _ block, c => by
    simp only [plainStmtCode, stmtCode, plainStmtCode_off off tab block]
  | .block _ stmts, c => by
    simp only [plainStmtCode, stmtCode, plainBlockCode_off off tab stmts]
  | .null, c | .methodCall .., c | .methodDecl .., c | .leaf .., c => by
    simp only [plainStmtCode, stmtCode]
theorem plainBlockCode_off {env : Env} (off : env.optimizations = false) (tab : SymbolTable) :
    ∀ (stmts : AstNodeList) (c : Counters),
      plainBlockCode env tab stmts c = blockCode env tab stmts c
  | .nil, _ => rfl
  | .cons first next, c => by
    simp only [plainBlockCode, blockCode, off, Bool.false_eq_true, and_false, if_false,
      plainStmtCode_off off tab first, plainBlockCode_off off tab next]
end

theorem plainProgramCode_off {env : Env} (off : env.optimizations = false) (tab : SymbolTable)
    (sentences : List AstNode) (c : Counters) :
    plainProgramCode env tab sentences c = programCode env tab sentences c := by
  induction sentences generalizing c with
  | nil => rfl
  | cons sentence rest ih =>
    have one : plainSentenceCode env tab sentence c = sentenceCode env tab sentence c := by
      cases sentence with
      | methodDecl line sym block =>
        cases entry : tab.entry sym <;>
          simp only [plainSentenceCode, sentenceCode, entry, plainStmtCode_off off]
      | _ => simp only [plainSentenceCode, sentenceCode, plainStmtCode_off off]
    rw [plainProgramCode, programCode, one, ih]

mutual
theorem plainStmtCode_emits (env : Env) (tab : SymbolTable) :
    ∀ (node : AstNode), isStmt tab node = true → ∀ (c : Counters),
      Emits c (plainStmtCode env tab node c).1 (plainStmtCode env tab node c).2
  | .common line arity op left right, shape, c => by
    by_cases assign : op = .assign
    · subst assign
      simp only [isStmt, Bool.and_eq_true] at shape
      rw [plainStmtCode]
      exact storeTo_emits shape.1.2 (exprCode_operands env tab right shape.2 _ _)
    · rw [plainStmtCode_common env tab assign]
      exact stmtCode_emits env tab (.common line arity op left right) shape c
  | .ifStmt line condition thenBlock elseBlock, shape, c => by
    rw [isStmt_ifStmt] at shape
    simp only [Bool.and_eq_true] at shape
    rw [plainStmtCode]
    exact .branch (exprCode_operands env tab condition shape.1.1 _ _)
      (plainBranchCode_emits env tab thenBlock shape.1.2 _)
      (plainBranchCode_emits env tab elseBlock shape.2 _)
  | .whileStmt line condition block, shape, c => by
    rw [isStmt_whileStmt] at shape
    simp only [Bool.and_eq_true] at shape
    rw [plainStmtCode]
    exact .loop (exprCode_operands env tab condition shape.1 _ _)
      (plainBranchCode_emits env tab block shape.2 _)
  | .methodCall line name numArgs args, shape, c => by
    rw [plainStmtCode]
    exact .eval (exprCode_operands env tab (.methodCall line name numArgs args)
      (by simpa [isStmt, isExpr] using shape) _ _)
  | .block line stmts, shape, c => by
    rw [isStmt] at shape
    rw [plainStmtCode]
    exact plainBlockCode_emits env tab stmts shape c
  | .null, shape, _ | .methodDecl .., shape, _ | .leaf .., shape, _ => by simp [isStmt] at shape
theorem plainBranchCode_emits (env : Env) (tab : SymbolTable) :
    ∀ (node : AstNode), isBranch tab node = true → ∀ (c : Counters),
      Emits c (plainStmtCode env tab node c).1 (plainStmtCode env tab node c).2
  | .null, _, c => by
    simp only [plainStmtCode]
    exact .nil c
  | .block line stmts, shape, c => by
    simp only [isBranch, AstNode.isNull, AstNode.isBlock, isStmt, Bool.false_or, Bool.true_and]
      at shape
    rw [plainStmtCode]
    exact plainBlockCode_emits env tab stmts shape c
  | .common .., shape, _ | .ifStmt .., shape, _ | .whileStmt .., shape, _
  | .methodDecl .., shape, _ | .methodCall .., shape, _ | .leaf .., shape, _ => by
    simp [isBranch, AstNode.isNull, AstNode.isBlock] at shape
theorem plainBlockCode_emits (env : Env) (tab : SymbolTable) :
    ∀ (stmts : AstNodeList), areStmts tab stmts = true → ∀ (c : Counters),
      Emits c (plainBlockCode env tab stmts c).1 (plainBlockCode env tab stmts c).2
  | .nil, _, c => .nil c
  | .cons first next, shape, c => by
    simp only [areStmts, Bool.and_eq_true] at shape
    rw [plainBlockCode]
    exact .append (plainStmtCode_emits env tab first shape.1 c)
      (plainBlockCode_emits env tab next shape.2 _)
end

section Programs

variable (env : Env) {tab : SymbolTable}

theorem plainSentenceCode_method (line : Int) (block : AstNode) (c : Counters) {sym : IdPtr}
    {info : SymbolInfo} (entry : tab.entry sym = some info)
    (own : info.methodView.isExtern = false) :
    plainSentenceCode env tab (.methodDecl line sym block) c =
      (.enter info.name :: (plainStmtCode env tab block c).1 ++ [.leave info.name],
        (plainStmtCode env tab block c).2) := by
  simp [plainSentenceCode, entry, own]

theorem plainSentenceCode_emits {node : AstNode} (shape : isSentence tab node = true)
    (c : Counters) :
    ∃ pre code post, (plainSentenceCode env tab node c).1 = pre ++ code ++ post ∧
      Emits c code (plainSentenceCode env tab node c).2 ∧ ∀ i ∈ pre ++ post, i.isInner = false := by
  unfold isSentence at shape
  split at shape
  · exact ⟨[], _, [], by simp [plainSentenceCode], plainStmtCode_emits env tab _ shape c, by simp⟩
  · next line sym block =>
    rw [Bool.and_eq_true] at shape
    obtain ⟨info, entry⟩ := SymbolTable.hasEntry_iff.mp shape.1
    by_cases isExtern : info.methodView.isExtern = true
    · simp only [plainSentenceCode, entry, if_pos isExtern]
      exact ⟨[.externDecl info.name], [], [], rfl, .nil c, by simp [IrInstr.isInner]⟩
    · rw [plainSentenceCode_method env line block c entry (Bool.eq_false_iff.mpr isExtern)]
      exact ⟨[.enter info.name], _, [.leave info.name], rfl,
        plainBranchCode_emits env tab block shape.2 c, by simp [IrInstr.isInner]⟩
  · cases shape

theorem plainProgramCode_labels {sentences : List AstNode}
    (shape : ∀ node ∈ sentences, isSentence tab node = true) (c : Counters) :
    LabelsIn (plainProgramCode env tab sentences c).1 c.label
      (plainProgramCode env tab sentences c).2.label := by
  induction sentences generalizing c with
  | nil => exact .none rfl _
  | cons node rest ih =>
    obtain ⟨pre, code, post, eq, emits, outer⟩ :=
      plainSentenceCode_emits env (shape node List.mem_cons_self) c
    rw [plainProgramCode, eq]
    exact (emits.labels_between outer).append
      (ih (fun node mem => shape node (List.mem_cons_of_mem _ mem)) _)

theorem plainProgramCode_append (before after : List AstNode) (c : Counters) :
    plainProgramCode env tab (before ++ after) c =
      let p := plainProgramCode env tab before c
      let q := plainProgramCode env tab after p.2
      (p.1 ++ q.1, q.2) := by
  induction before generalizing c with
  | nil => rfl
  | cons sentence rest ih => simp [plainProgramCode, ih]

end Programs

end Ctds
