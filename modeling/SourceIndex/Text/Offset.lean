/-! Offsets into a text count UTF-8 bytes, columns count UTF-16 units. A text is a list of
characters here, so that both counts are plain recursion. An offset inside a character cuts
nothing. -/

namespace SourceIndex

abbrev Text := List Char

def units16 (c : Char) : Nat := if c.toNat < 0x10000 then 1 else 2

namespace Text

def byteSize (t : Text) : Nat := t.foldr (fun c n => c.utf8Size + n) 0

def width16 (t : Text) : Nat := t.foldr (fun c n => units16 c + n) 0

/-- The text from a byte offset on, when the offset falls between two characters or at an end. -/
def dropBytes? : Text → Nat → Option Text
  | t, 0 => some t
  | [], _ + 1 => none
  | c :: t, n + 1 => if c.utf8Size ≤ n + 1 then dropBytes? t (n + 1 - c.utf8Size) else none

def takeBytes? (t : Text) (n : Nat) : Option Text :=
  (t.dropBytes? n).map fun rest => t.take (t.length - rest.length)

/-- The text between two byte offsets, when both cut it and they are in order. -/
def slice? (t : Text) (start stop : Nat) : Option Text :=
  if stop < start then none
  else (t.dropBytes? start).bind (takeBytes? · (stop - start))

end Text

end SourceIndex
