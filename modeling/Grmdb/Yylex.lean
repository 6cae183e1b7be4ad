import Grmdb.LongestMatch
import Grmdb.YyparseExact

namespace Grmdb

open LongestMatch LongestMatch.Regex

namespace Lexing

section Patterns

def char (c : Char) : Regex Char := oneOf (· == c)

def literally (s : String) : Regex Char :=
  s.toList.foldr (fun c r => comp (char c) r) epsilon

/-- A keyword in capital letters or not. -/
def keyword (s : String) : Regex Char :=
  s.toList.foldr (fun c r => comp (oneOf fun d => d.toUpper == c) r) epsilon

def many (r : Regex Char) : Regex Char := comp r (star r)

def optional (r : Regex Char) : Regex Char := plus r epsilon

def alpha : Regex Char := oneOf Char.isAlpha

def digit : Regex Char := oneOf Char.isDigit

def whiteSpace : Regex Char := many (oneOf fun c => c == ' ' || c == '\t')

def newLine : Regex Char := plus (char '\x0d') (plus (char '\n') (literally "\x0d\n"))

def sign : Regex Char := plus (char '+') (char '-')

def identifier : Regex Char := comp alpha (star (plus (char '_') (plus alpha digit)))

def path : Regex Char :=
  comp (many (plus (literally "./") (literally "../")))
    (many (plus (char '/') (plus identifier (char '.'))))

def valueInt : Regex Char := comp (optional sign) (many digit)

def valueFloat : Regex Char :=
  comp (optional sign) (comp (many digit) (comp (char '.') (optional (many digit))))

def quote : Char := Char.ofNat 39

def valueString : Regex Char := comp (char quote) (comp (star (oneOf (· != quote))) (char quote))

def times (n : Nat) (r : Regex Char) : Regex Char := (List.replicate n r).foldr comp epsilon

def valueDatetime : Regex Char :=
  [char quote, times 4 digit, char '-', times 2 digit, char '-', times 2 digit, char ' ',
    times 2 digit, char ':', times 2 digit, char ':', times 2 digit, char quote].foldr comp epsilon

/-- A character other than the end of a line. -/
def anyChar : Regex Char := oneOf (· != '\n')

end Patterns

inductive StartCondition where
  | initial
  | stateComment
  deriving DecidableEq, Repr

/-- What a rule does with the text that it matches. -/
inductive Act where
  | skip
  | begin (start : StartCondition)
  | token (make : List Char → YyToken)

def just (t : Terminal) : Act := .token fun _ => (t, {})

def keywords : List (String × Terminal) := [("SHOW", .SHOW), ("BEGIN", .TXN_BEGIN),
  ("COMMIT", .TXN_COMMIT), ("ABORT", .TXN_ABORT), ("ROLLBACK", .TXN_ROLLBACK), ("TABLES", .TABLES),
  ("CREATE", .CREATE), ("TABLE", .TABLE), ("DROP", .DROP), ("DESC", .DESC), ("INSERT", .INSERT),
  ("INTO", .INTO), ("VALUES", .VALUES), ("DELETE", .DELETE), ("FROM", .FROM), ("WHERE", .WHERE),
  ("UPDATE", .UPDATE), ("SET", .SET), ("SELECT", .SELECT), ("INT", .INT), ("CHAR", .CHAR),
  ("FLOAT", .FLOAT), ("INDEX", .INDEX), ("AND", .AND), ("JOIN", .JOIN), ("EXIT", .EXIT),
  ("HELP", .HELP), ("ORDER", .ORDER), ("BY", .BY), ("ASC", .ASC), ("GROUP", .GROUP),
  ("HAVING", .HAVING), ("SUM", .SUM), ("MAX", .MAX), ("MIN", .MIN), ("COUNT", .COUNT),
  ("AS", .AS), ("IN", .IN), ("STATIC", .STATIC), ("CHECKPOINT", .CHECKPOINT), ("LOAD", .LOAD),
  ("OFF", .OFF), ("OUTPUT_FILE", .OUTPUT_FILE), ("DATETIME", .DATETIME),
  ("ENABLE_NESTLOOP", .ENABLE_NESTLOOP), ("ENABLE_SORTMERGE", .ENABLE_SORTMERGE)]

/-- `single_op`; a token of one character is the character. -/
def singleOps : List (Char × Terminal) := [(';', .semicolon), ('(', .lparen), (')', .rparen),
  (',', .comma), ('*', .star), ('=', .equals), ('>', .greater), ('<', .less), ('.', .dot)]

/-- The digits of a number. -/
def digits (text : List Char) : Nat :=
  text.foldl (fun n c => 10 * n + (c.toNat - '0'.toNat)) 0

/-- `atoi`: a `long` that is cut off at its bounds, and of it the last 32 bits. -/
def atoi (text : List Char) : Int :=
  let val : Int :=
    match text with
    | '-' :: ds => -(digits ds : Int)
    | '+' :: ds => digits ds
    | ds => digits ds
  (max (-(2 ^ 63)) (min val (2 ^ 63 - 1))).bmod (2 ^ 32)

/-- The text between the quotes. -/
def unquote (text : List Char) : String := String.ofList (text.drop 1).dropLast

variable (atof : String → UInt32)

/-- The rules of `lex.l` for a start condition, in their order. -/
def rules : StartCondition → List (Regex Char × Act)
  | .stateComment => [(literally "*/", .begin .initial), (oneOf (· != '*'), .skip),
      (char '*', .skip)]
  | .initial =>
    [(literally "/*", .begin .stateComment), (comp (literally "--") (star anyChar), .skip),
      (whiteSpace, .skip), (newLine, .skip)] ++
    keywords.map (fun k => (keyword k.1, just k.2)) ++
    [(keyword "TRUE", .token fun _ => (.VALUE_BOOL, { svBool := true })),
      (keyword "FALSE", .token fun _ => (.VALUE_BOOL, { svBool := false })),
      (literally ">=", just .GEQ), (literally "<=", just .LEQ), (literally "!=", just .NEQ)] ++
    singleOps.map (fun op => (char op.1, just op.2)) ++
    [(identifier, .token fun text => (.IDENTIFIER, { svStr := String.ofList text })),
      (path, .token fun text => (.PATH, { svStr := String.ofList text })),
      (valueInt, .token fun text => (.VALUE_INT, { svInt := atoi text })),
      (valueFloat, .token fun text => (.VALUE_FLOAT, { svFloat := atof (String.ofList text) })),
      (valueString, .token fun text => (.VALUE_STRING, { svStr := unquote text })),
      (valueDatetime, .token fun text => (.VALUE_DATETIME, { svStr := unquote text })),
      (anyChar, .skip)]

/-- The start condition stays from one text to the next. -/
structure Lexer where
  start : StartCondition
  buffer : List Char
  deriving DecidableEq, Repr

/-- A text that no rule matches is left out by one character. -/
def yylexLoop : Nat → Lexer → YyToken × Lexer
  | 0, lexer => ((.T_EOF, {}), lexer)
  | fuel + 1, lexer =>
    if lexer.buffer = [] then ((.T_EOF, {}), lexer)
    else
      match best (rules atof lexer.start) lexer.buffer with
      | none => yylexLoop fuel { lexer with buffer := lexer.buffer.drop 1 }
      | some (.skip, n) => yylexLoop fuel { lexer with buffer := lexer.buffer.drop n }
      | some (.begin start, n) => yylexLoop fuel ⟨start, lexer.buffer.drop n⟩
      | some (.token make, n) =>
        (make (lexer.buffer.take n), { lexer with buffer := lexer.buffer.drop n })

/-- Every step takes a character at least. -/
def yylex (lexer : Lexer) : YyToken × Lexer := yylexLoop atof (lexer.buffer.length + 1) lexer

end Lexing

end Grmdb
