import Ctds.Symbol

/-! The errors of `error_handling.c` that the parser's actions, the symbol table and
the semantic analyzer raise. Each prints one line to stderr and exits, so an action
that raises one never returns. `fault` is no function of that file: it stands for the
compiler itself being killed, by a division error or by an access through a pointer of
the wrong shape. -/

namespace Ctds

inductive Error where
  | variableRedeclaration (line : Int) (name : Ident)
  | variableNotDeclared (line : Int) (name : Ident)
  | typeMismatch (line : Int) (var : CString) (type : CString)
  | typeParameter (line : Int) (parameter : Ident) (type : CString)
  | typeMismatchMethod (line : Int) (method : Ident) (type : ReturnType)
  | addArgumentMethod (method : Ident)
  | methodNotFound (method : Ident)
  | nullNode (line : Int)
  | conditional (line : Int)
  | additional (line : Int)
  | substraction (line : Int)
  | multiplication (line : Int)
  | division (line : Int)
  | minus (line : Int)
  | and (line : Int)
  | or (line : Int)
  | neg (line : Int)
  | unknownOperator (line : Int)
  | idUnknownType (line : Int) (var : Ident)
  | nonExistentId (line : Int)
  | less (line : Int)
  | greater (line : Int)
  | equal (line : Int)
  | notEqual (line : Int)
  | lessEqual (line : Int)
  | greaterEqual (line : Int)
  | argsNumber (line : Int) (method : Ident) (numArgs : Nat)
  | missingReturn (method : Ident) (type : CString)
  | returnType (line : Int) (type trueType : CString)
  | returnTypeVoid (line : Int) (trueType : CString)
  | mainMissing
  | fault
deriving DecidableEq

/-- `ERROR(line %d): ` as most messages open. -/
private def atLine (line : Int) : String :=
  "ERROR(line " ++ toString line ++ "): "

private def str (s : CString) : String := String.ofList s

def Error.message : Error → String
  | variableRedeclaration line name =>
    "Error(line " ++ toString line ++ "): variable " ++ str name.text ++ " redeclared \n"
  | variableNotDeclared line name =>
    "Error(line " ++ toString line ++ "): variable " ++ str name.text ++ " not declared \n"
  | typeMismatch line var type =>
    "Error(line " ++ toString line ++ "): conflicting types for variable " ++ str var ++
      " (should be " ++ str type ++ ") \n"
  | typeParameter line parameter type =>
    "Error(line " ++ toString line ++ "): conflicting types for parameter " ++
      str parameter.text ++ " (should be " ++ str type ++ ") \n"
  | typeMismatchMethod line method type =>
    "Error(line " ++ toString line ++ "): conflicting types for return method " ++
      str method.text ++ match type with
        | .int => " (should be integer) \n"
        | .bool => " (should be bool) \n"
        | _ => " (should not return a value) \n"
  | addArgumentMethod method =>
    "Error: trying to add argument to non-method " ++ str method.text ++ "\n"
  | methodNotFound method => "Error: method " ++ str method.text ++ " not found \n"
  | nullNode line => atLine line ++ "NULL node in eval()\n"
  | conditional line => atLine line ++ "conditional expression must be of type BOOL\n"
  | additional line => "ERROR(linea " ++ toString line ++ "): addition is only for integers\n"
  | substraction line => atLine line ++ "substraction is only for integers\n"
  | multiplication line => atLine line ++ "multiplication is only for integers\n"
  | division line => atLine line ++ "divison is only for integers\n"
  | minus line => atLine line ++ "minus is only for integers\n"
  | and line => atLine line ++ "AND is only for booleans \n"
  | or line => atLine line ++ "OR is only for booleans \n"
  | neg line => atLine line ++ "NEG is only for booleans \n"
  | unknownOperator line => atLine line ++ "unknown operator in semantic-analyzer\n"
  | idUnknownType line var =>
    atLine line ++ "identifier '" ++ str var.text ++ "' has unknown type\n"
  | nonExistentId line => atLine line ++ "non-existent identifier \n"
  | less line => atLine line ++ "operator < is only for integers \n"
  | greater line => atLine line ++ "operator > is only for integers \n"
  | equal line => atLine line ++ "the arguments should be same type \n"
  | notEqual line => atLine line ++ "operator != is only for integers \n"
  | lessEqual line => atLine line ++ "operator <= is only for integers \n"
  | greaterEqual line => atLine line ++ "operator >= is only for integers \n"
  | argsNumber line method numArgs =>
    atLine line ++ "method " ++ str method.text ++ " should have " ++ toString numArgs ++ " args \n"
  | missingReturn method type =>
    "ERROR: method " ++ str method.text ++ " should return " ++ str type ++ "\n"
  | returnType line type trueType =>
    atLine line ++ "return type is " ++ str type ++ " and should be " ++ str trueType ++ " \n"
  | returnTypeVoid line trueType =>
    "ERROR (line " ++ toString line ++ ")(2) error return type, is VOID and should be " ++
      str trueType ++ " \n"
  | mainMissing => "ERROR: main method not is declared\n"
  | fault => ""

end Ctds
