import Ctds.Lib.Decimal

/-! The tags and records of `utils/symbol.h`. A C string is its list of characters;
an identifier is a string the lexer's ID rule accepts, so no symbol, method or call
carries any other name. A symbol's INFO is read through the members of its union:
`idType` and `methodView` give what each view finds in the shared storage. -/

namespace Ctds

abbrev CString := List Char

inductive OperatorArity where
  | unary | binary
deriving DecidableEq, Repr

inductive Operator where
  | addition | subtraction | multiplication | division | mod
  | les | grt | eq | neq | leq | geq
  | minus | and | or | neg
  | decl | assign | ret
deriving DecidableEq, Repr

/-- The enumerator's value, as `common.op` stores it. -/
def Operator.code : Operator → Nat
  | .addition => 0 | .subtraction => 1 | .multiplication => 2 | .division => 3 | .mod => 4
  | .les => 5 | .grt => 6 | .eq => 7 | .neq => 8 | .leq => 9 | .geq => 10
  | .minus => 11 | .and => 12 | .or => 13 | .neg => 14
  | .decl => 15 | .assign => 16 | .ret => 17

inductive InstrType where
  | load | loadval | store
  | add | sub | mul | div | mod | min
  | les | grt | eq | neq | leq | geq | and | or | neg
  | ret | label | jmp | jmpf | param | call | enter | leave | externDecl | shiftRight
deriving DecidableEq, Repr

inductive InfoType where
  | common | ifStmt | whileStmt | methodDecl | methodCall | block | leaf
deriving DecidableEq, Repr

inductive ReturnType where
  | int | bool | void | null
deriving DecidableEq, Repr

/-- `RET_TYPE` of `semantic_analyzer.h`: what an evaluator says of a node. -/
inductive RetType where
  | int | bool | void | null
deriving DecidableEq, Repr

/-- `TYPE`: the type of a variable or a leaf. -/
inductive Ty where
  | int | bool | id
deriving DecidableEq, Repr

def Ty.code : Ty → Nat
  | .int => 0 | .bool => 1 | .id => 2

def isIdentText : CString → Bool
  | [] => false
  | c :: cs => c.isAlpha && cs.all fun d => d.isAlpha || d.isDigit || d == '_'

/-- What the ID rule of the lexer accepts: a letter, then letters, digits and `_`. -/
structure Ident where
  text : CString
  accepted : isIdentText text = true
deriving DecidableEq

theorem Ident.ext_text {x y : Ident} (h : x.text = y.text) : x = y := by
  cases x; cases y; simp_all

/-- The identifier that a text spells; `x` if the scanner does not accept the text. -/
def Ident.of (s : String) : Ident :=
  if accepted : isIdentText s.toList = true then ⟨s.toList, accepted⟩ else ⟨['x'], rfl⟩

theorem Ident.text_cons (x : Ident) :
    ∃ c cs, x.text = c :: cs ∧ c.isAlpha = true := by
  have h := x.accepted
  cases hx : x.text with
  | nil => simp [hx, isIdentText] at h
  | cons c cs =>
    rw [hx] at h
    simp only [isIdentText, Bool.and_eq_true] at h
    exact ⟨c, cs, rfl, h.1⟩

/-- Pointers into the two heaps of the symbol table: entries and scopes, numbered in
the order of their allocation. A number with no entry is the null pointer. -/
abbrev IdPtr := Nat
abbrev ScopePtr := Nat

structure Args where
  name : Ident
  type : Ty
deriving DecidableEq

/-- The `method_decl` member of INFO; the body stays with the tree node. -/
structure MethodInfo where
  name : Ident
  numArgs : Nat
  returnType : ReturnType
  args : List Args
  scope : Option ScopePtr
  isExtern : Bool
deriving DecidableEq

/-- The INFO of a symbol table entry: tag TABLE_ID or tag AST_METHOD_DECL. -/
inductive SymbolInfo where
  | id (name : Ident) (type : Ty)
  | methodDecl (method : MethodInfo)
deriving DecidableEq

namespace SymbolInfo

/-- Both views keep the name in the first word of the union. -/
def name : SymbolInfo → Ident
  | id name _ => name
  | methodDecl method => method.name

/-- `info->id.type`: in a method's INFO this word holds `num_args`. -/
def idType : SymbolInfo → Nat
  | id _ type => type.code
  | methodDecl method => method.numArgs

/-- `info->method_decl`: a variable's INFO has its type where `num_args` is read and
zeroes from `calloc` behind it. -/
def methodView : SymbolInfo → MethodInfo
  | id name type => ⟨name, type.code, .int, [], none, false⟩
  | methodDecl method => method

def isMethod : SymbolInfo → Bool
  | id _ _ => false
  | methodDecl _ => true

@[simp] theorem methodView_name (info : SymbolInfo) : info.methodView.name = info.name := by
  cases info <;> rfl

end SymbolInfo

end Ctds
