import Pseudocode.Text.Quoted
import Pseudocode.Value

/-!
# Tokens

A token has a kind, a value and the position of its first character. Keywords are recognised by
their upper-case form, so they may be written in any letter case; a keyword token carries the
upper-case word. A `TRUE` or `FALSE` carries a truth value, a string its characters without the
quotes, and the token at the end of the input nothing.
-/

namespace Pseudocode

/-- The reserved words, apart from `TRUE` and `FALSE`. -/
inductive Keyword where
  | declareKw | constantKw | integerKw | realKw | stringKw | charKw | booleanKw | arrayKw | ofKw
  | intKw | procedureKw | endProcedureKw | functionKw | endFunctionKw | returnsKw | returnKw
  | callKw | byRefKw | byValKw | ifKw | thenKw | elseKw | endIfKw | caseKw | otherwiseKw | endCaseKw
  | forKw | toKw | stepKw | nextKw | repeatKw | untilKw | whileKw | doKw | endWhileKw | inputKw
  | outputKw | openFileKw | readFileKw | writeFileKw | closeFileKw | readKw | writeKw | appendKw
  | divKw | modKw | andKw | orKw | notKw
  deriving DecidableEq, Repr

namespace Keyword

/-- The reserved word in upper case. -/
def word : Keyword → String
  | declareKw => "DECLARE" | constantKw => "CONSTANT" | integerKw => "INTEGER" | realKw => "REAL"
  | stringKw => "STRING" | charKw => "CHAR" | booleanKw => "BOOLEAN" | arrayKw => "ARRAY"
  | ofKw => "OF" | intKw => "INT" | procedureKw => "PROCEDURE" | endProcedureKw => "ENDPROCEDURE"
  | functionKw => "FUNCTION" | endFunctionKw => "ENDFUNCTION" | returnsKw => "RETURNS"
  | returnKw => "RETURN" | callKw => "CALL" | byRefKw => "BYREF" | byValKw => "BYVAL" | ifKw => "IF"
  | thenKw => "THEN" | elseKw => "ELSE" | endIfKw => "ENDIF" | caseKw => "CASE"
  | otherwiseKw => "OTHERWISE" | endCaseKw => "ENDCASE" | forKw => "FOR" | toKw => "TO"
  | stepKw => "STEP" | nextKw => "NEXT" | repeatKw => "REPEAT" | untilKw => "UNTIL"
  | whileKw => "WHILE" | doKw => "DO" | endWhileKw => "ENDWHILE" | inputKw => "INPUT"
  | outputKw => "OUTPUT" | openFileKw => "OPENFILE" | readFileKw => "READFILE"
  | writeFileKw => "WRITEFILE" | closeFileKw => "CLOSEFILE" | readKw => "READ" | writeKw => "WRITE"
  | appendKw => "APPEND" | divKw => "DIV" | modKw => "MOD" | andKw => "AND" | orKw => "OR"
  | notKw => "NOT"

/-- Every keyword. -/
def all : List Keyword :=
  [declareKw, constantKw, integerKw, realKw, stringKw, charKw, booleanKw, arrayKw, ofKw, intKw,
    procedureKw, endProcedureKw, functionKw, endFunctionKw, returnsKw, returnKw, callKw, byRefKw,
    byValKw, ifKw, thenKw, elseKw, endIfKw, caseKw, otherwiseKw, endCaseKw, forKw, toKw, stepKw,
    nextKw, repeatKw, untilKw, whileKw, doKw, endWhileKw, inputKw, outputKw, openFileKw, readFileKw,
    writeFileKw, closeFileKw, readKw, writeKw, appendKw, divKw, modKw, andKw, orKw, notKw]

/-- The keyword with the given upper-case word. -/
def ofWord? (word : String) : Option Keyword :=
  all.find? (·.word == word)

/-- The name of the keyword's token kind: the word, marked where it names a type or a file mode. -/
def label : Keyword → String
  | integerKw => "INTEGER_KW" | realKw => "REAL_KW" | stringKw => "STRING_KW" | charKw => "CHAR_KW"
  | booleanKw => "BOOLEAN_KW" | intKw => "INT_KW" | readKw => "READ_MODE" | writeKw => "WRITE_MODE"
  | appendKw => "APPEND_MODE" | k => k.word

end Keyword

/-- Operators and punctuation. -/
inductive Symbol where
  | assign | ne | le | ge | eq | lt | gt | plus | minus | multiply | divide | power | amper
  | lparen | rparen | lbracket | rbracket | colon | comma
  deriving DecidableEq, Repr

namespace Symbol

/-- The name of the symbol's token kind. -/
def label : Symbol → String
  | assign => "ASSIGN" | ne => "NE" | le => "LE" | ge => "GE" | eq => "EQ" | lt => "LT" | gt => "GT"
  | plus => "PLUS" | minus => "MINUS" | multiply => "MULTIPLY" | divide =>
    "DIVIDE" | power => "POWER"
  | amper => "AMPER" | lparen => "LPAREN" | rparen => "RPAREN" | lbracket => "LBRACKET"
  | rbracket => "RBRACKET" | colon => "COLON" | comma => "COMMA"

/-- Every symbol. -/
def all : List Symbol :=
  [assign, ne, le, ge, eq, lt, gt, plus, minus, multiply, divide, power, amper, lparen, rparen,
    lbracket, rbracket, colon, comma]

end Symbol

/-- The kinds of token. -/
inductive TokenKind where
  | number | string | boolean | identifier
  | keyword (k : Keyword)
  | symbol (s : Symbol)
  | newline | eof
  deriving DecidableEq, Repr

namespace TokenKind

/-- The name of a kind. -/
def label : TokenKind → String
  | number => "NUMBER" | string => "STRING" | boolean => "BOOLEAN" | identifier => "IDENTIFIER"
  | keyword k => k.label | symbol s => s.label | newline => "NEWLINE" | eof => "EOF"

/-- Every kind. -/
def all : List TokenKind :=
  [number, string, boolean, identifier, newline, eof] ++ Keyword.all.map keyword ++
    Symbol.all.map symbol

/-- The kind with the given name. -/
def ofLabel? (label : String) : Option TokenKind :=
  all.find? (·.label == label)

end TokenKind

/-- A token and the position of its first character, both counted from one. -/
structure Token where
  kind : TokenKind
  value : Value
  line : Int
  column : Int
  deriving DecidableEq, Repr

namespace Token

/-- The value a token carries, as plain text. -/
def text (t : Token) : String :=
  t.value.stored?.getD ""

/-- The token that ends the input. -/
def eofAt (line column : Int) : Token :=
  ⟨.eof, .absent, line, column⟩

/-- How a token is named in messages. -/
def describe (t : Token) : String :=
  match t.kind with
  | .eof => "end of input"
  | .newline => "end of line"
  | .boolean => if t.value.isAffirmative then "TRUE" else "FALSE"
  | _ => t.text

/-- The value of a token as it is spelled in a listing: a text is quoted. -/
def spelling (t : Token) : String :=
  match t.value with
  | .text s => Text.quoted s
  | _ => t.text

/-- One entry of a token listing. -/
def listing (t : Token) : String :=
  s!"Token({t.kind.label}, {t.spelling}, line={t.line}, col={t.column})"

end Token

end Pseudocode
