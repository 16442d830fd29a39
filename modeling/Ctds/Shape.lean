import Ctds.Lib.Fallible
import Ctds.Main

/-! The shape of the trees the parser builds. An expression has two operands under a
binary operator and one under a unary operator; its identifiers are entries of the
symbol table and its bool literals are 0 or 1. A branch of an if or the body of a loop is
a block or a null pointer. -/

namespace Ctds

open Fallible

def Operator.isBinary : Operator → Bool
  | minus | neg | decl | assign | ret => false
  | _ => true

def Operator.isUnary : Operator → Bool
  | minus | neg => true
  | _ => false

theorem eval_binary (env : Env) (tab : SymbolTable) {op : Operator} (binary : op.isBinary = true)
    (father : InfoType) (line : Int) (left right : AstNode) (ret : RetType) (st : SemState) :
    eval env tab father (.common line .binary op left right) ret st =
      (do let l ← eval env tab .common left env.uninitRet { st with line := line }
          let r ← eval env tab .common right env.uninitRet l.st
          evalBinary env tab line op l r) := by
  rw [eval]
  cases op <;> first | rfl | cases binary

theorem eval_unary (env : Env) (tab : SymbolTable) {op : Operator} (unary : op.isUnary = true)
    (father : InfoType) (line : Int) (left right : AstNode) (ret : RetType) (st : SemState) :
    eval env tab father (.common line .unary op left right) ret st =
      (do let l ← eval env tab .common left env.uninitRet { st with line := line }
          evalUnary line op right l) := by
  rw [eval]
  cases op <;> first | rfl | cases unary

def SymbolTable.hasEntry (tab : SymbolTable) (p : IdPtr) : Bool := decide (p < tab.ids.length)

theorem SymbolTable.hasEntry_iff {tab : SymbolTable} {p : IdPtr} :
    tab.hasEntry p = true ↔ ∃ info, tab.entry p = some info := by
  simp only [hasEntry, entry, decide_eq_true_eq]
  constructor
  · intro h
    exact ⟨(tab.ids[p]).info, by rw [List.getElem?_eq_getElem h]; rfl⟩
  · rintro ⟨info, h⟩
    by_contra out
    rw [List.getElem?_eq_none (Nat.le_of_not_lt out)] at h
    cases h

/-- An identifier leaf whose pointer leads to an entry. -/
def isIdLeaf (tab : SymbolTable) : AstNode → Bool
  | .leaf _ (.id p) => tab.hasEntry p
  | _ => false

mutual
def isExpr (tab : SymbolTable) : AstNode → Bool
  | .leaf _ (.id p) => tab.hasEntry p
  | .leaf _ (.int _) => true
  | .leaf _ (.bool v) => decide (v = 0 ∨ v = 1)
  | .common _ .binary op left right => op.isBinary && isExpr tab left && isExpr tab right
  | .common _ .unary op left right => op.isUnary && isExpr tab left && right.isNull
  | .methodCall _ _ numArgs args => decide (numArgs = args.length) && areExprs tab args
  | _ => false
def areExprs (tab : SymbolTable) : AstNodeList → Bool
  | .nil => true
  | .cons first next => isExpr tab first && areExprs tab next
end

mutual
def isStmt (tab : SymbolTable) : AstNode → Bool
  | .common _ arity op left right =>
    match op with
    | .decl => isIdLeaf tab left && (right.isNull || isExpr tab right)
    | .assign => decide (arity = .binary) && isIdLeaf tab left && isExpr tab right
    | .ret => (left.isNull || isExpr tab left) && right.isNull
    | _ => false
  | .ifStmt _ condition thenBlock elseBlock =>
    isExpr tab condition && (thenBlock.isNull || (thenBlock.isBlock && isStmt tab thenBlock)) &&
      (elseBlock.isNull || (elseBlock.isBlock && isStmt tab elseBlock))
  | .whileStmt _ condition block =>
    isExpr tab condition && (block.isNull || (block.isBlock && isStmt tab block))
  | .methodCall _ _ numArgs args => decide (numArgs = args.length) && areExprs tab args
  | .block _ stmts => areStmts tab stmts
  | _ => false
def areStmts (tab : SymbolTable) : AstNodeList → Bool
  | .nil => true
  | .cons first next => isStmt tab first && areStmts tab next
end

/-- A branch, a loop body or the body of a method. -/
def isBranch (tab : SymbolTable) (node : AstNode) : Bool :=
  node.isNull || (node.isBlock && isStmt tab node)

def isSentence (tab : SymbolTable) : AstNode → Bool
  | .common line arity .decl left right => isStmt tab (.common line arity .decl left right)
  | .methodDecl _ sym block => tab.hasEntry sym && isBranch tab block
  | _ => false

theorem isStmt_ifStmt (tab : SymbolTable) (line : Int) (condition thenBlock elseBlock : AstNode) :
    isStmt tab (.ifStmt line condition thenBlock elseBlock) =
      (isExpr tab condition && isBranch tab thenBlock && isBranch tab elseBlock) := by
  simp only [isStmt, isBranch]

theorem isStmt_whileStmt (tab : SymbolTable) (line : Int) (condition block : AstNode) :
    isStmt tab (.whileStmt line condition block) =
      (isExpr tab condition && isBranch tab block) := by
  simp only [isStmt, isBranch]

mutual
/-- The symbols of the identifier leaves. -/
def leafIds : AstNode → List IdPtr
  | .leaf _ (.id p) => [p]
  | .common _ _ _ left right => leafIds left ++ leafIds right
  | .ifStmt _ condition thenBlock elseBlock =>
    leafIds condition ++ leafIds thenBlock ++ leafIds elseBlock
  | .whileStmt _ condition block => leafIds condition ++ leafIds block
  | .methodCall _ _ _ args => leafIdsList args
  | .methodDecl _ _ block => leafIds block
  | .block _ stmts => leafIdsList stmts
  | .null | .leaf _ (.int _) | .leaf _ (.bool _) => []
def leafIdsList : AstNodeList → List IdPtr
  | .nil => []
  | .cons first next => leafIds first ++ leafIdsList next
end

def SymbolTable.Grows (tab tab' : SymbolTable) : Prop := tab.ids.length ≤ tab'.ids.length

theorem hasEntry_mono {tab tab' : SymbolTable} (grows : tab.Grows tab') {p : IdPtr}
    (h : tab.hasEntry p = true) : tab'.hasEntry p = true := by
  simp only [SymbolTable.hasEntry, decide_eq_true_eq] at h ⊢
  exact Nat.lt_of_lt_of_le h grows

theorem isIdLeaf_mono {tab tab' : SymbolTable} (grows : tab.Grows tab') {node : AstNode}
    (h : isIdLeaf tab node = true) : isIdLeaf tab' node = true := by
  unfold isIdLeaf at *
  split at h
  · exact hasEntry_mono grows h
  · cases h

mutual
theorem isExpr_mono {tab tab' : SymbolTable} (grows : tab.Grows tab') :
    ∀ node, isExpr tab node = true → isExpr tab' node = true
  | .leaf _ (.id _), h => hasEntry_mono grows h
  | .leaf _ (.int _), _ => rfl
  | .leaf _ (.bool _), h => h
  | .common _ .binary op left right, h => by
    simp only [isExpr, Bool.and_eq_true] at h ⊢
    exact ⟨⟨h.1.1, isExpr_mono grows left h.1.2⟩, isExpr_mono grows right h.2⟩
  | .common _ .unary op left right, h => by
    simp only [isExpr, Bool.and_eq_true] at h ⊢
    exact ⟨⟨h.1.1, isExpr_mono grows left h.1.2⟩, h.2⟩
  | .methodCall _ _ _ args, h => by
    simp only [isExpr, Bool.and_eq_true] at h ⊢
    exact ⟨h.1, areExprs_mono grows args h.2⟩
theorem areExprs_mono {tab tab' : SymbolTable} (grows : tab.Grows tab') :
    ∀ list, areExprs tab list = true → areExprs tab' list = true
  | .nil, _ => rfl
  | .cons first next, h => by
    simp only [areExprs, Bool.and_eq_true] at h ⊢
    exact ⟨isExpr_mono grows first h.1, areExprs_mono grows next h.2⟩
end

theorem isExpr_or_null_mono {tab tab' : SymbolTable} (grows : tab.Grows tab') {node : AstNode}
    (h : (node.isNull || isExpr tab node) = true) :
    (node.isNull || isExpr tab' node) = true := by
  simp only [Bool.or_eq_true] at h ⊢
  exact h.imp_right (isExpr_mono grows node)

mutual
theorem isStmt_mono {tab tab' : SymbolTable} (grows : tab.Grows tab') :
    ∀ node, isStmt tab node = true → isStmt tab' node = true
  | .common _ _ op left right, h => by
    unfold isStmt at h ⊢
    cases op with
    | decl =>
      simp only [Bool.and_eq_true] at h ⊢
      exact ⟨isIdLeaf_mono grows h.1, isExpr_or_null_mono grows h.2⟩
    | assign =>
      simp only [Bool.and_eq_true] at h ⊢
      exact ⟨⟨h.1.1, isIdLeaf_mono grows h.1.2⟩, isExpr_mono grows right h.2⟩
    | ret =>
      simp only [Bool.and_eq_true] at h ⊢
      exact ⟨isExpr_or_null_mono grows h.1, h.2⟩
    | _ => cases h
  | .ifStmt _ condition thenBlock elseBlock, h => by
    simp only [isStmt, Bool.and_eq_true, Bool.or_eq_true] at h ⊢
    exact ⟨⟨isExpr_mono grows condition h.1.1,
      h.1.2.imp_right fun t => ⟨t.1, isStmt_mono grows thenBlock t.2⟩⟩,
      h.2.imp_right fun e => ⟨e.1, isStmt_mono grows elseBlock e.2⟩⟩
  | .whileStmt _ condition block, h => by
    simp only [isStmt, Bool.and_eq_true, Bool.or_eq_true] at h ⊢
    exact ⟨isExpr_mono grows condition h.1,
      h.2.imp_right fun b => ⟨b.1, isStmt_mono grows block b.2⟩⟩
  | .methodCall _ _ _ args, h => by
    simp only [isStmt, Bool.and_eq_true] at h ⊢
    exact ⟨h.1, areExprs_mono grows args h.2⟩
  | .block _ stmts, h => areStmts_mono grows stmts h
theorem areStmts_mono {tab tab' : SymbolTable} (grows : tab.Grows tab') :
    ∀ list, areStmts tab list = true → areStmts tab' list = true
  | .nil, _ => rfl
  | .cons first next, h => by
    simp only [areStmts, Bool.and_eq_true] at h ⊢
    exact ⟨isStmt_mono grows first h.1, areStmts_mono grows next h.2⟩
end

theorem isBranch_mono {tab tab' : SymbolTable} (grows : tab.Grows tab') {node : AstNode}
    (h : isBranch tab node = true) : isBranch tab' node = true := by
  simp only [isBranch, Bool.or_eq_true, Bool.and_eq_true] at h ⊢
  exact h.imp_right fun b => ⟨b.1, isStmt_mono grows node b.2⟩

theorem isSentence_mono {tab tab' : SymbolTable} (grows : tab.Grows tab') {node : AstNode}
    (h : isSentence tab node = true) : isSentence tab' node = true := by
  unfold isSentence at h ⊢
  split at h
  · exact isStmt_mono grows _ h
  · simp only [Bool.and_eq_true] at h ⊢
    exact ⟨hasEntry_mono grows h.1, isBranch_mono grows h.2⟩
  · cases h

end Ctds
