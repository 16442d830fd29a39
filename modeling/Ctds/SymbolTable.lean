import Ctds.ErrorHandling

/-! The symbol table of `symbol_table.c`: two heaps, one of entries and one of scopes,
which only grow, and the two pointers `global_level` and `stack_level`. An entry is
linked to the next one of its scope, a scope to the scope it was opened in. Walking a
list takes at most as many steps as there are cells, so every walk carries that bound. -/

namespace Ctds

structure IdTable where
  info : SymbolInfo
  next : Option IdPtr
deriving DecidableEq

structure TableStack where
  headBlock : Option IdPtr
  endBlock : Option IdPtr
  up : Option ScopePtr
deriving DecidableEq

structure SymbolTable where
  ids : List IdTable
  scopes : List TableStack
  globalLevel : Option ScopePtr
  stackLevel : Option ScopePtr
deriving DecidableEq

namespace SymbolTable

def empty : SymbolTable := ⟨[], [], none, none⟩

def entry (tab : SymbolTable) (p : IdPtr) : Option SymbolInfo :=
  (tab.ids[p]?).map IdTable.info

def allocateScope (tab : SymbolTable) (up : Option ScopePtr) : SymbolTable :=
  { tab with scopes := tab.scopes ++ [⟨none, none, up⟩] }

def stInit (tab : SymbolTable) : SymbolTable :=
  match tab.globalLevel with
  | some _ => tab
  | none =>
    { tab.allocateScope none with
      globalLevel := some tab.scopes.length, stackLevel := some tab.scopes.length }

def initialized (tab : SymbolTable) (level : Option ScopePtr) : SymbolTable :=
  if level.isNone then tab.stInit else tab

def pushScope (tab : SymbolTable) : SymbolTable :=
  let tab := tab.initialized tab.stackLevel
  { tab.allocateScope tab.stackLevel with stackLevel := some tab.scopes.length }

def popScope (tab : SymbolTable) : SymbolTable :=
  match tab.stackLevel with
  | none => tab
  | some level =>
    if tab.globalLevel = some level then tab
    else { tab with stackLevel := (tab.scopes[level]?).bind TableStack.up }

/-- The first cell with this name on the list that starts at the given cell. -/
def findFrom (tab : SymbolTable) (name : Ident) : Nat → Option IdPtr → Option IdPtr
  | _, none => none
  | 0, some _ => none
  | fuel + 1, some p =>
    match tab.ids[p]? with
    | none => none
    | some cell => if cell.info.name = name then some p else findFrom tab name fuel cell.next

def findInBlock (tab : SymbolTable) (name : Ident) (level : ScopePtr) : Option IdPtr :=
  match tab.scopes[level]? with
  | none => none
  | some scope => tab.findFrom name tab.ids.length scope.headBlock

def findUp (tab : SymbolTable) (name : Ident) : Nat → Option ScopePtr → Option IdPtr
  | _, none => none
  | 0, some _ => none
  | fuel + 1, some level =>
    match tab.findInBlock name level with
    | some p => some p
    | none => findUp tab name fuel ((tab.scopes[level]?).bind TableStack.up)

def find (tab : SymbolTable) (name : Ident) : Option IdPtr :=
  tab.findUp name tab.scopes.length tab.stackLevel

def findInCurrentScope (tab : SymbolTable) (name : Ident) : Option IdPtr :=
  tab.stackLevel.bind (tab.findInBlock name)

def findGlobal (tab : SymbolTable) (name : Ident) : Option IdPtr :=
  tab.globalLevel.bind (tab.findInBlock name)

def setNext (ids : List IdTable) (p next : IdPtr) : List IdTable :=
  ids.modify p fun cell => { cell with next := some next }

/-- A fresh cell at the end of the scope's list. -/
def link (tab : SymbolTable) (level : ScopePtr) (info : SymbolInfo) : SymbolTable :=
  let p := tab.ids.length
  let ids := tab.ids ++ [⟨info, none⟩]
  match (tab.scopes[level]?).bind TableStack.endBlock with
  | none =>
    { tab with
      ids := ids
      scopes := tab.scopes.modify level fun s =>
        { s with headBlock := some p, endBlock := some p } }
  | some last =>
    { tab with
      ids := setNext ids last p
      scopes := tab.scopes.modify level fun s => { s with endBlock := some p } }

def addId (tab : SymbolTable) (line : Int) (name : Ident) (type : Ty) :
    Except Error (SymbolTable × IdPtr) :=
  let tab := tab.initialized tab.stackLevel
  if (tab.findInCurrentScope name).isSome then .error (.variableRedeclaration line name)
  else .ok (tab.link (tab.stackLevel.getD 0) (.id name type), tab.ids.length)

/-- The tag of the entry stays 0, which no reader takes for the tag of a method. -/
def addGlobalId (tab : SymbolTable) (line : Int) (name : Ident) (type : Ty) :
    Except Error (SymbolTable × IdPtr) :=
  if (tab.find name).isSome then .error (.variableRedeclaration line name)
  else
    let tab := tab.initialized tab.globalLevel
    .ok (tab.link (tab.globalLevel.getD 0) (.id name type), tab.ids.length)

def addMethod (tab : SymbolTable) (line : Int) (name : Ident) (retType : ReturnType)
    (methodScope : Option ScopePtr) (isExtern : Bool) : Except Error SymbolTable :=
  if (tab.find name).isSome then .error (.variableRedeclaration line name)
  else
    let tab := tab.initialized tab.globalLevel
    .ok (tab.link (tab.globalLevel.getD 0)
      (.methodDecl ⟨name, 0, retType, [], methodScope, isExtern⟩))

def getThisScope (tab : SymbolTable) : Option ScopePtr := tab.stackLevel

def setArgs (args : List Args) : SymbolInfo → SymbolInfo
  | .methodDecl method => .methodDecl { method with args := args, numArgs := args.length }
  | info => info

/-- Assigns the collected parameter list to the method; the name was added as a method
just before, so the entry found is one. -/
def addCurrentList (tab : SymbolTable) (name : Ident) (list : List Args) :
    Except Error SymbolTable :=
  match tab.findGlobal name with
  | none => .error (.addArgumentMethod name)
  | some p =>
    .ok { tab with
      ids := tab.ids.modify p fun cell => { cell with info := setArgs list cell.info } }

end SymbolTable

def addArgCurrentList (list : List Args) (name : Ident) (type : Ty) : List Args :=
  list ++ [⟨name, type⟩]

end Ctds
