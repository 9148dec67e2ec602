import Stylesheet.Text.Quoted

namespace Stylesheet.Query

inductive Symbol
  | doubleColon
  | doubleSlash
  | slash
  | doubleDot
  | dot
  | leftBracket
  | rightBracket
  | leftParen
  | rightParen
  | atSign
  | pipe
  | notEqual
  | equal
  | star
  deriving DecidableEq

/-- A longer symbol stands before the symbols that it starts with. -/
def Symbol.all : List Symbol :=
  [doubleColon, doubleSlash, slash, doubleDot, dot, leftBracket, rightBracket, leftParen,
    rightParen, atSign, pipe, notEqual, equal, star]

def Symbol.text : Symbol → List Char
  | doubleColon => [':', ':']
  | doubleSlash => ['/', '/']
  | slash => ['/']
  | doubleDot => ['.', '.']
  | dot => ['.']
  | leftBracket => ['[']
  | rightBracket => [']']
  | leftParen => ['(']
  | rightParen => [')']
  | atSign => ['@']
  | pipe => ['|']
  | notEqual => ['!', '=']
  | equal => ['=']
  | star => ['*']

def Symbol.label : Symbol → String
  | doubleColon => "DoubleColon"
  | doubleSlash => "DoubleSlash"
  | slash => "Slash"
  | doubleDot => "DotDot"
  | dot => "Dot"
  | leftBracket => "LBracket"
  | rightBracket => "RBracket"
  | leftParen => "LParen"
  | rightParen => "RParen"
  | atSign => "At"
  | pipe => "Pipe"
  | notEqual => "NotEq"
  | equal => "Eq"
  | star => "Star"

inductive Token
  | symbol (s : Symbol)
  | literal (value : String)
  | number (value : Nat)
  | name (value : String)
  deriving DecidableEq

/-- How messages call a token. -/
def Token.label : Token → String
  | symbol s => s.label
  | literal v => s!"Literal({Text.quoted v})"
  | number n => s!"Number({n})"
  | name v => s!"Name({Text.quoted v})"

end Stylesheet.Query
