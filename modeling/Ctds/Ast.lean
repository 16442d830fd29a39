import Ctds.Symbol

/-! The tree of `tree/ast.h`. A node is the tag, the line and the union member its tag
selects; `null` is the null pointer. A leaf's value is the union `LEAF_UNION`, written
by the member its type names. -/

namespace Ctds

/-- A leaf's type together with the union member that `new_leaf_node` writes for it. -/
inductive LeafValue where
  | int (intValue : BitVec 32)
  | bool (boolValue : BitVec 32)
  | id (idLeaf : IdPtr)
deriving DecidableEq

def LeafValue.type : LeafValue → Ty
  | int _ => .int
  | bool _ => .bool
  | id _ => .id

mutual
inductive AstNode where
  | null
  | common (line : Int) (arity : OperatorArity) (op : Operator) (left right : AstNode)
  | ifStmt (line : Int) (condition thenBlock elseBlock : AstNode)
  | whileStmt (line : Int) (condition block : AstNode)
  | methodDecl (line : Int) (sym : IdPtr) (block : AstNode)
  | methodCall (line : Int) (name : Ident) (numArgs : Nat) (args : AstNodeList)
  | block (line : Int) (stmts : AstNodeList)
  | leaf (line : Int) (value : LeafValue)
inductive AstNodeList where
  | nil
  | cons (first : AstNode) (next : AstNodeList)
end

deriving instance DecidableEq for AstNode, AstNodeList

namespace AstNodeList

def toList : AstNodeList → List AstNode
  | nil => []
  | cons first next => first :: next.toList

def length : AstNodeList → Nat
  | nil => 0
  | cons _ next => next.length + 1

/-- Induction on the list alone. -/
@[elab_as_elim]
theorem list_induction {motive : AstNodeList → Prop} (nil : motive .nil)
    (cons : ∀ first next, motive next → motive (.cons first next)) : ∀ list, motive list
  | .nil => nil
  | .cons first next => cons first next (list_induction nil cons next)

end AstNodeList

/-- `append_expr`: a null expression leaves the list as it is. -/
def appendExpr : AstNodeList → AstNode → AstNodeList
  | list, .null => list
  | .nil, expr => .cons expr .nil
  | .cons first next, expr => .cons first (appendExpr next expr)

namespace AstNode

/-- The tag; a null pointer has none. -/
def type? : AstNode → Option InfoType
  | null => none
  | common .. => some .common
  | ifStmt .. => some .ifStmt
  | whileStmt .. => some .whileStmt
  | methodDecl .. => some .methodDecl
  | methodCall .. => some .methodCall
  | block .. => some .block
  | leaf .. => some .leaf

def isNull : AstNode → Bool
  | null => true
  | _ => false

def isBlock : AstNode → Bool
  | block .. => true
  | _ => false

def line : AstNode → Int
  | null => 0
  | common line .. | ifStmt line .. | whileStmt line .. | methodDecl line .. => line
  | methodCall line .. | block line .. | leaf line .. => line

/-- A statement that both `eval_block` and `gen_code_block` recognise as a return. -/
def isReturn : AstNode → Bool
  | common _ _ .ret _ _ => true
  | _ => false

/-- The value of a leaf that is not an identifier. -/
def literal? : AstNode → Option LeafValue
  | leaf _ (.id _) => none
  | leaf _ value => some value
  | _ => none

end AstNode

/-- What the C program reads besides the values it computes: the `-opt` flag, the
addresses `calloc` gave the symbol table entries (it aligns them to 16), what the word
`common.op` holds in a node whose union has another member, what an automatic `RET_TYPE`
holds before its first assignment, and what `malloc` left in the word `list` of the n-th
`CANT_AP_TEMP`. -/
structure Env where
  optimizations : Bool
  addr : IdPtr → BitVec 64
  addr_aligned : ∀ p, (addr p).toNat % 16 = 0
  opView : AstNode → Nat
  uninitRet : RetType
  freshList : Nat → BitVec 64

/-- Entries 32 bytes apart; the word read for `common.op` is the high half of a pointer, and
`malloc` finds memory that nothing has written to. -/
def Env.sample (optimizations : Bool) : Env where
  optimizations := optimizations
  addr p := BitVec.ofNat 64 (32 * (p + 1))
  addr_aligned p := by
    rw [BitVec.toNat_ofNat]
    omega
  opView _ := 21845
  uninitRet := .null
  freshList _ := 0

/-- Reading `int_value` or `bool_value`: of an identifier, the low half of the pointer. -/
def LeafValue.intValue (env : Env) : LeafValue → BitVec 32
  | int v => v
  | bool v => v
  | id p => (env.addr p).setWidth 32

end Ctds
