import SourceIndex.Text.Blank
import SourceIndex.Tree.SourceFile

/-! Lays out a text and its tree together. Every token that is appended fixes the span of the node
that owns it, so spans always match the text. Tokens are kept apart by one space unless the text
already ends in a blank. -/

namespace SourceIndex

structure Builder where
  fileName : String
  text : String := ""
  arena : Arena := .empty
  lastTokenEnd : Nat := 0

namespace Builder

def needsSeparator (b : Builder) : Bool := b.text.back?.any (!isBlank ·)

def mark (b : Builder) : Nat := b.text.utf8ByteSize + if b.needsSeparator then 1 else 0

def newline (b : Builder) : Builder := { b with text := b.text.push '\n' }

def separated (b : Builder) : String := if b.needsSeparator then b.text.push ' ' else b.text

def token (b : Builder) (text : String) : Builder :=
  let after := b.separated ++ text
  { b with text := after, lastTokenEnd := after.utf8ByteSize }

def leaf (b : Builder) (kind : Kind) (text : String) (payload : Payload) : Builder :=
  let start := b.separated.utf8ByteSize
  let b := b.token text
  { b with arena := b.arena.add kind start b.lastTokenEnd payload }

def ident (b : Builder) (name : String) : Builder := b.leaf .identifier name (.identifier name)

def privateIdent (b : Builder) (name : String) : Builder :=
  b.leaf .privateIdentifier name (.identifier name)

/-- A token that is a node; a kind without a text of its own appends an empty token. -/
def keyword (b : Builder) (kind : Kind) : Builder := b.leaf kind (kind.tokenText?.getD "") .bare

def stringLit (b : Builder) (value : String) : Builder :=
  b.leaf .stringLiteral ("\"" ++ value ++ "\"") (.literal value)

def numeric (b : Builder) (text : String) : Builder := b.leaf .numericLiteral text (.literal text)

def rawLiteral (b : Builder) (kind : Kind) (text : String) : Builder :=
  b.leaf kind text (.literal text)

/-- A part of a template, which has a value apart from how it is written. -/
def templatePart (b : Builder) (kind : Kind) (source cooked : String) : Builder :=
  b.leaf kind source (.literal cooked)

/-- A node over all that was appended since an earlier mark. -/
def node (b : Builder) (kind : Kind) (start : Nat) (payload : Payload) : Builder :=
  { b with arena := b.arena.add kind start (max b.lastTokenEnd start) payload }

def emptyNode (b : Builder) (kind : Kind) (start : Nat) : Builder := b.node kind start .bare

def addFlags (b : Builder) (r : NodeRef) (flags : Nat) : Builder :=
  { b with arena := b.arena.addFlags r flags }

/-- Adds the root, which spans the whole text. -/
def finish (b : Builder) (statements : List NodeRef) : SourceFile where
  name := b.fileName
  text := b.text.toList
  arena := b.arena.add .sourceFile 0 b.text.utf8ByteSize
    (.sourceFile statements b.fileName (.ofFileName b.fileName) (isDeclarationFile b.fileName))
  root := some b.arena.size

end Builder

end SourceIndex
