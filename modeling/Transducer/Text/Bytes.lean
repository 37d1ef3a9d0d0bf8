/-!
Texts as their UTF-8 bytes: parts given by places among them, and words given as lines of them.
-/

namespace Transducer.Text

/-- A part of a text that would end before it begins, or begin or end inside a character. -/
structure SliceError where
  first : Nat
  last : Nat
  deriving DecidableEq, Repr

def bytes (s : String) : List UInt8 := s.toUTF8.data.toList

/-- The text from one byte up to another. -/
def slice (s : String) (first last : Nat) : Except SliceError String :=
  if h : first ≤ last ∧ (⟨first⟩ : String.Pos.Raw).IsValid s ∧ (⟨last⟩ : String.Pos.Raw).IsValid s
  then .ok (String.extract ⟨⟨first⟩, h.2.1⟩ ⟨⟨last⟩, h.2.2⟩)
  else .error ⟨first, last⟩

/-- The code points of White_Space, as ranges. -/
def blankRanges : List (Nat × Nat) :=
  [(0x9, 0xD), (0x20, 0x20), (0x85, 0x85), (0xA0, 0xA0), (0x1680, 0x1680), (0x2000, 0x200A),
    (0x2028, 0x2029), (0x202F, 0x202F), (0x205F, 0x205F), (0x3000, 0x3000)]

def isBlank (c : Char) : Bool :=
  blankRanges.any fun (first, last) => first ≤ c.toNat && c.toNat ≤ last

/-- Removes white space from both ends. -/
def trimBlank (s : String) : String :=
  String.ofList ((s.toList.dropWhile isBlank).reverse.dropWhile isBlank).reverse

/-- Splits bytes at line feeds; what follows the last one is a line unless it is empty. `line` holds
the bytes of the present line, latest first. -/
def splitLines (line : List UInt8) : List UInt8 → List (List UInt8)
  | [] => if line.isEmpty then [] else [line.reverse]
  | b :: rest => if b = 10 then line.reverse :: splitLines [] rest else splitLines (b :: line) rest

/-- The words of the lines, without white space around them and without empty ones, up to the first
line that is no text; and whether there is such a line. -/
def wordsOfLines : List (List UInt8) → List String × Bool
  | [] => ([], false)
  | line :: rest =>
    match String.fromUTF8? ⟨line.toArray⟩ with
    | none => ([], true)
    | some text =>
      let word := trimBlank text
      let (words, broken) := wordsOfLines rest
      (if word = "" then words else word :: words, broken)

end Transducer.Text
