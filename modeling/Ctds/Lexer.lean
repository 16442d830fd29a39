import Ctds.IntegerLiterals
import Ctds.Lib.Scanner

/-! The scanner of `lex.l`: its table of rules, and what the calls of `yylex` return until the
end of the input or the first lexical error. The table is compared with the lexemes of the
language: every text falls into lexemes in one way, and the scanner finds them. -/

namespace Ctds

open Pattern Decimal Word

/-- What `yylex` returns, with the value it leaves in `yylval`. -/
inductive Token where
  | kwProgram | kwIf | kwElse | kwThen | kwWhile | kwVoid | kwReturn | kwExtern | kwBool | kwInteger
  | kwFalse | kwTrue
  | integerLiteral (ival : BitVec 32)
  | id (sval : Ident)
  | and | or | neg | eq | neq | leq | geq | les | grt
  | char (c : Char)
deriving DecidableEq

/-- The action of a rule: it returns a token, does nothing, or calls `error_lexical`. -/
inductive LexAction where
  | token (t : Token)
  | skip
  | unknown
deriving DecidableEq

def keywords : List (CString × Token) :=
  [("Program".toList, .kwProgram), ("if".toList, .kwIf), ("else".toList, .kwElse),
    ("then".toList, .kwThen), ("while".toList, .kwWhile), ("void".toList, .kwVoid),
    ("return".toList, .kwReturn), ("extern".toList, .kwExtern), ("bool".toList, .kwBool),
    ("integer".toList, .kwInteger), ("false".toList, .kwFalse), ("true".toList, .kwTrue)]

def operators : List (CString × Token) :=
  [("&&".toList, .and), ("||".toList, .or), ("!".toList, .neg), ("==".toList, .eq),
    ("!=".toList, .neq), ("<=".toList, .leq), (">=".toList, .geq), ("<".toList, .les),
    (">".toList, .grt), ("+".toList, .char '+'), ("-".toList, .char '-'), ("*".toList, .char '*'),
    ("/".toList, .char '/'), ("%".toList, .char '%'), ("=".toList, .char '=')]

def punctuation : CString := [',', ';', '(', ')', '{', '}']

def isBlank (c : Char) : Bool := c == ' ' || c == '\t' || c == '\r' || c == '\n'

def isIdentChar (c : Char) : Bool := c.isAlpha || c.isDigit || c == '_'

/-- `{letter}({letter}|{digit}|_)*`. -/
def identifier : Pattern Char := .cat (.cls Char.isAlpha) (.star (.cls isIdentChar))

/-- `"//".*`. -/
def oneLineComment : Pattern Char := .cat (.text ['/', '/']) (.star (.cls (· != '\n')))

/-- The value of an ID is a copy of the text; the pattern makes it an identifier. -/
def idAction (yytext : CString) : LexAction :=
  if accepted : isIdentText yytext = true then .token (.id ⟨yytext, accepted⟩) else .unknown

def charAction (yytext : CString) : LexAction :=
  match yytext with
  | c :: _ => .token (.char c)
  | [] => .unknown

def tokenActions (table : List (CString × Token)) : List (CString × (CString → LexAction)) :=
  table.map fun entry => (entry.1, fun _ => .token entry.2)

/-- The rules in the order of `lex.l`, each with its action on `yytext`. -/
def lexRules : List (Pattern Char × (CString → LexAction)) :=
  [(integerLiteral, fun yytext => .token (.integerLiteral (atoi yytext)))] ++
    textRules (tokenActions keywords) ++
    [(identifier, idAction), (oneLineComment, fun _ => .skip),
      (multiLineComment, fun _ => .skip)] ++
    textRules (tokenActions operators) ++
    [(.letter ',', charAction), (.cls (· ∈ [';', '(', ')', '{', '}']), charAction),
      (.plus (.cls isBlank), fun _ => .skip), (.cls (· != '\n'), fun _ => .unknown)]

/-- `error_lexical(yylineno, yytext)`. -/
structure LexError where
  line : Nat
  text : CString
deriving DecidableEq

/-- The tokens, each with `yylineno` behind its text, and the error that ended the program. -/
structure Scanned where
  tokens : List (Token × Nat)
  error : Option LexError
deriving DecidableEq

def Scanned.cons (t : Token × Nat) (s : Scanned) : Scanned := { s with tokens := t :: s.tokens }

/-- The action of the acting rule and the number of letters; by default one letter is echoed. -/
def nextMatch (input : CString) : LexAction × Nat :=
  match best lexRules input with
  | some (action, n) => (action (input.take n), n)
  | none => (.skip, 1)

/-- `yylineno` counts the line feeds of the text before the action. -/
def scanFrom : Nat → Nat → CString → Scanned
  | 0, _, _ | _, _, [] => ⟨[], none⟩
  | fuel + 1, yylineno, c :: input =>
    let (action, n) := nextMatch (c :: input)
    let yytext := (c :: input).take n
    let line := yylineno + yytext.count '\n'
    match action with
    | .token t => (scanFrom fuel line ((c :: input).drop n)).cons (t, line)
    | .skip => scanFrom fuel line ((c :: input).drop n)
    | .unknown => ⟨[], some ⟨line, yytext⟩⟩

def scan (input : CString) : Scanned := scanFrom input.length 1 input

end Ctds
