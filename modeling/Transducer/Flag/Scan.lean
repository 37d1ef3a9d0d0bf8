import Transducer.Flag.Basic
import Transducer.Text.Bytes
/-!
Flags found by bytes. The marks of a flag, its operation and the point behind that are single bytes
in fixed places; the rest is the slice between them.
-/

namespace Transducer

def FlagOp.ofByte? (byte : UInt8) : Option FlagOp := ofLetter? (Char.ofUInt8 byte)

namespace Flag

/-- The flag with an operation and what stands between the first point and the last mark. -/
def ofInner? (op : FlagOp) (inner : String) : Option (Flag String) :=
  let (feature, value) := splitInner inner.toList
  if isName feature && value.all isName then
    some ⟨op, String.ofList feature, value.map String.ofList⟩
  else none

/-- The parts of a symbol that has the shape of a flag. The shortest is five bytes long. -/
def scan (symbol : Symbol) : Except Text.SliceError (Option (Flag String)) :=
  let bytes := Text.bytes symbol
  if bytes.length < 5 || bytes[0]? != some '@'.toUInt8 || bytes[2]? != some '.'.toUInt8 ||
      bytes[bytes.length - 1]? != some '@'.toUInt8 then
    .ok none
  else
    match bytes[1]?.bind FlagOp.ofByte? with
    | none => .ok none
    | some op => (Text.slice symbol 3 (bytes.length - 1)).map (ofInner? op)

/-- Whether a symbol with these parts is a flag. -/
def isComplete (flag : Flag String) : Bool := flag.value.isSome || !flag.op.needsValue

/-- Whether the bytes of a symbol are those of a flag. -/
def scansFlag (symbol : Symbol) : Except Text.SliceError Bool :=
  (scan symbol).map (·.any isComplete)

end Flag

end Transducer
