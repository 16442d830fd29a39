import Ctds.IntermediateCode

/-! `optimization.c`: `optimize_memory` walks the operands of the generated code and
renames temporaries by writing into the strings the instructions point to. The code
buffer is not touched; the state is the contents of those strings and the occurrence
list. An entry is named by its position in the list. Following a null `actual_temp`
kills the process, which is `none`. -/

namespace Ctds

structure OptState where
  heap : Nat → CString
  tmpList : List CantApTemp

/-- The first entry without uses left, if it comes before the entry named `temp`. -/
def getFree : List CantApTemp → CString → Option Nat
  | [], _ => none
  | aux :: next, temp =>
    if aux.temp = temp then none
    else if aux.cantAp = 0 then some 0
    else (getFree next temp).map (· + 1)

def getTemp : List CantApTemp → CString → Option Nat
  | [], _ => none
  | aux :: next, temp => if aux.temp = temp then some 0 else (getTemp next temp).map (· + 1)

/-- `strcpy(location, text)`; only strings of temporaries are ever on an entry's list. -/
def strcpy (location : NamePtr) (text : CString) (heap : Nat → CString) : Nat → CString :=
  match location with
  | .temp n => Function.update heap n text
  | .str _ => heap

def swapTemps (freeIdx actualIdx : Nat) (freeTemp actualTemp : CantApTemp) (s : OptState) :
    OptState :=
  let swapped :=
    { freeTemp with cantAp := actualTemp.cantAp - 1, locked := true, list := actualTemp.list }
  let vacated := { actualTemp with locked := false, cantAp := 0, list := [] }
  { heap := actualTemp.list.foldl (fun heap location => strcpy location freeTemp.temp heap) s.heap
    tmpList := (s.tmpList.set freeIdx swapped).set actualIdx vacated }

/-- The else branch of `check_optimize`: one use less, and the name is locked. -/
def useTemp (idx : Nat) (e : CantApTemp) (s : OptState) : OptState :=
  let used := { e with cantAp := e.cantAp - 1, locked := true }
  { s with tmpList := s.tmpList.set idx used }

def nodeAt (list : List CantApTemp) (idx : Option Nat) : Option (Nat × CantApTemp) :=
  idx.bind fun i => (list[i]?).map fun e => (i, e)

def checkOptimize (s : OptState) (ptr : NamePtr) : Option OptState :=
  let name := ptr.text s.heap
  if startsWith '$' name then
    match nodeAt s.tmpList (getFree s.tmpList name), nodeAt s.tmpList (getTemp s.tmpList name) with
    | _, none => none
    | some (freeIdx, freeTemp), some (actualIdx, actualTemp) =>
      if actualTemp.locked then some (useTemp actualIdx actualTemp s)
      else some (swapTemps freeIdx actualIdx freeTemp actualTemp s)
    | none, some (actualIdx, actualTemp) => some (useTemp actualIdx actualTemp s)
  else some s

def checkOperands : List NamePtr → OptState → Option OptState
  | [], s => some s
  | ptr :: rest, s => (checkOptimize s ptr).bind (checkOperands rest)

def optimizeMemory (code : List (Instr NamePtr)) (tmpList : List CantApTemp) : Option OptState :=
  checkOperands (code.flatMap Instr.operands) ⟨tempText, tmpList⟩

/-- The pass over what `gen_code` left; it runs only where the occurrence list is one. -/
def optimizePass (gen : GenState) : Option OptState := gen.cantApH.bind (optimizeMemory gen.code)

/-- The code with the names its pointers lead to. -/
def namedCode (heap : Nat → CString) (code : List (Instr NamePtr)) : List (Instr CString) :=
  code.map (Instr.map (NamePtr.text heap))

end Ctds
