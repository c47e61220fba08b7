/-!
# Text

Text is a `String` of bytes: each character stands for the byte of its code. Letters, digits and
letter case are those of ASCII; any other byte is left as it is.
-/

namespace BasicSSA

/-- The key under which a name is looked up: names that differ only in letter case share it. -/
def foldCase (s : String) : String :=
  String.ofList (s.toList.map Char.toUpper)

def sameName (a b : String) : Bool :=
  foldCase a == foldCase b

def isWordStart (c : Char) : Bool :=
  c.isAlpha || c == '_'

def isWordChar (c : Char) : Bool :=
  c.isAlphanum || c == '_'

/-- The part of a dotted name after its last dot. -/
def lastSegment (s : String) : String :=
  String.ofList (s.toList.reverse.takeWhile (· != '.')).reverse

def joinWith (sep : String) : List String → String
  | [] => ""
  | [s] => s
  | s :: rest => s ++ sep ++ joinWith sep rest

def repeatChar (c : Char) (n : Nat) : String :=
  String.ofList (List.replicate n c)

def textOfBytes (bytes : List UInt8) : String :=
  String.ofList (bytes.map fun b => Char.ofNat b.toNat)

def bytesOfText (s : String) : List UInt8 :=
  s.toList.map fun c => UInt8.ofNat c.toNat

end BasicSSA
