import SourceIndex.Text.Offset

/-! Cuts a document into tokens, one character at a time. Strings keep their unit escapes apart,
because whether two of them form a character is only asked of strings that are used. -/

namespace SourceIndex.Json

/-- A piece of a string: a character, or a UTF-16 unit given by its number. -/
inductive Piece where
  | char (c : Char)
  | unit (n : Nat)

inductive Token where
  | openBrace | closeBrace | openBracket | closeBracket | colon | comma
  | string (pieces : List Piece)
  | number (lexeme : Text)
  | bool (b : Bool)
  | null

/-- A string's text. A unit of the upper half of a pair needs one of the lower half after it. -/
def decode? : List Piece → Option Text
  | [] => some []
  | .char c :: ps => (decode? ps).map (c :: ·)
  | .unit n :: ps =>
    if n < 0xD800 ∨ 0xE000 ≤ n then (decode? ps).map (.ofNat n :: ·)
    else
      match ps with
      | .unit m :: rest =>
        if n < 0xDC00 ∧ 0xDC00 ≤ m ∧ m < 0xE000 then
          (decode? rest).map (.ofNat (0x10000 + (n - 0xD800) * 0x400 + (m - 0xDC00)) :: ·)
        else none
      | _ => none

def digits? (t : Text) : Option Text :=
  let rest := t.dropWhile Char.isDigit
  if rest.length < t.length then some rest else none

/-- No sign but a minus, no zero in front of a digit, and digits on both sides of every mark. -/
def isNumber (t : Text) : Bool :=
  let unsigned := match t with | '-' :: t => t | t => t
  let whole := match unsigned with | '0' :: t => some t | t => digits? t
  let fraction := whole.bind fun t => match t with | '.' :: t => digits? t | t => some t
  let exponent := fraction.bind fun t =>
    match t with
    | 'e' :: '+' :: t | 'e' :: '-' :: t | 'E' :: '+' :: t | 'E' :: '-' :: t => digits? t
    | 'e' :: t | 'E' :: t => digits? t
    | t => some t
  match exponent with | some [] => true | _ => false

def hexValue? (c : Char) : Option Nat :=
  if '0' ≤ c ∧ c ≤ '9' then some (c.toNat - 48)
  else if 'a' ≤ c ∧ c ≤ 'f' then some (c.toNat - 87)
  else if 'A' ≤ c ∧ c ≤ 'F' then some (c.toNat - 55)
  else none

/-- What the next character continues. Texts and pieces so far are in reverse. -/
inductive Mode where
  | between
  | inString (pieces : List Piece)
  | escape (pieces : List Piece)
  | hex (pieces : List Piece) (left value : Nat)
  | number (lexeme : Text)
  | word (letters : Text)

structure Lexer where
  tokens : List Token := []
  mode : Mode := .between

namespace Lexer

def emit (l : Lexer) (t : Token) : Lexer := ⟨t :: l.tokens, .between⟩

def settle? (l : Lexer) : Option Lexer :=
  match l.mode with
  | .number lexeme =>
    if isNumber lexeme.reverse then some (l.emit (.number lexeme.reverse)) else none
  | .word letters =>
    match String.ofList letters.reverse with
    | "true" => some (l.emit (.bool true))
    | "false" => some (l.emit (.bool false))
    | "null" => some (l.emit .null)
    | _ => none
  | .between => some l
  | _ => none

def start? (l : Lexer) (c : Char) : Option Lexer :=
  if c = ' ' || c = '\n' || c = '\t' || c = '\r' then some l
  else if c = '\x7b' then some (l.emit .openBrace)
  else if c = '\x7d' then some (l.emit .closeBrace)
  else if c = '[' then some (l.emit .openBracket)
  else if c = ']' then some (l.emit .closeBracket)
  else if c = ':' then some (l.emit .colon)
  else if c = ',' then some (l.emit .comma)
  else if c = '"' then some { l with mode := .inString [] }
  else if c = '-' || c.isDigit then some { l with mode := .number [c] }
  else if c.isLower then some { l with mode := .word [c] }
  else none

def escaped? (c : Char) : Option Char :=
  match c with
  | '"' => some '"'
  | '\\' => some '\\'
  | '/' => some '/'
  | 'b' => some '\x08'
  | 'f' => some '\x0c'
  | 'n' => some '\n'
  | 'r' => some '\r'
  | 't' => some '\t'
  | _ => none

def isNumberChar (c : Char) : Bool :=
  c.isDigit || c == '+' || c == '-' || c == '.' || c == 'e' || c == 'E'

def step? (l : Lexer) (c : Char) : Option Lexer :=
  match l.mode with
  | .between => l.start? c
  | .number lexeme =>
    if isNumberChar c then some { l with mode := .number (c :: lexeme) }
    else l.settle?.bind (·.start? c)
  | .word letters =>
    if c.isLower then some { l with mode := .word (c :: letters) }
    else l.settle?.bind (·.start? c)
  | .inString pieces =>
    if c = '"' then some (l.emit (.string pieces.reverse))
    else if c = '\\' then some { l with mode := .escape pieces }
    else if c.toNat < 0x20 then none
    else some { l with mode := .inString (.char c :: pieces) }
  | .escape pieces =>
    if c = 'u' then some { l with mode := .hex pieces 4 0 }
    else (escaped? c).map fun c => { l with mode := .inString (.char c :: pieces) }
  | .hex pieces left value =>
    (hexValue? c).map fun v =>
      let value := value * 16 + v
      if left ≤ 1 then { l with mode := .inString (.unit value :: pieces) }
      else { l with mode := .hex pieces (left - 1) value }

end Lexer

def tokens? (t : Text) : Option (List Token) :=
  ((t.foldlM Lexer.step? {}).bind (·.settle?)).map (·.tokens.reverse)

end SourceIndex.Json
