import FlowState.Object.Elf
import FlowState.Object.MachO
import FlowState.Object.Pe

/-! # Object files

The format of an object file is told by its first bytes. A file of fewer than sixteen bytes has
none. A file that has a format and breaks its rules is malformed; archives and files for several
architectures are well-formed but hold no single image. -/

namespace FlowState.Object

/-- What the first bytes of a file announce. -/
inductive Format where
  | elf
  | pe
  | machO (big wide : Bool)
  | archive
  /-- Files for several architectures in one. -/
  | bundle
  | unknown
  deriving Repr, DecidableEq

/-- The format that the first bytes announce. -/
def formatOf (bytes : List UInt8) : Format :=
  let magic := bytes.take 4
  if magic = [0x7F, 0x45, 0x4C, 0x46] then .elf
  else if bytes.take 8 = [0x21, 0x3C, 0x61, 0x72, 0x63, 0x68, 0x3E, 0x0A] then .archive
  else if bytes.take 2 = [0x4D, 0x5A] then .pe
  else if magic = [0xFE, 0xED, 0xFA, 0xCE] then .machO true false
  else if magic = [0xFE, 0xED, 0xFA, 0xCF] then .machO true true
  else if magic = [0xCE, 0xFA, 0xED, 0xFE] then .machO false false
  else if magic = [0xCF, 0xFA, 0xED, 0xFE] then .machO false true
  else if magic = [0xCA, 0xFE, 0xBA, 0xBE] then .bundle
  else .unknown

/-- The members of an archive follow each other to its end. -/
def isArchive : Nat → List UInt8 → Bool
  | 0, _ => false
  | fuel + 1, bytes =>
    if bytes.length ≤ 1 then true
    else
      let size := (bytes.drop 48).take 10
      let digits := (size.map fun b => Char.ofNat b.toNat).takeWhile (· != ' ')
      match Text.natOfDigits? 10 digits with
      | some n =>
        (bytes.drop 58).take 2 == [0x60, 0x0A] &&
          isArchive fuel (bytes.drop (60 + n + n % 2))
      | none => false

/-- The smallest file that has a format. -/
def sizeLimit : Nat := 16

/-- **The image of an object file.** -/
def load (p : Path) (bytes : List UInt8) : Except ImageError Image :=
  let whole (image : Option Image) : Except ImageError Image :=
    match image with
    | some i => .ok i
    | none => .error (.malformed p.text .outside)
  if bytes.length < sizeLimit then .error (.malformed p.text .outside)
  else
    match formatOf bytes with
    | .elf => whole (Elf.image? p bytes.toArray)
    | .pe => whole (Pe.image? p bytes.toArray)
    | .machO big wide => whole (MachO.image? p bytes.toArray big wide)
    | .archive =>
      if isArchive bytes.length (bytes.drop 8) then .error (.unrecognized p.text)
      else .error (.malformed p.text .outside)
    | .bundle => .error (.unrecognized p.text)
    | .unknown => .error (.unrecognized p.text)

/-- The file is an object file with one image. -/
def accepts (p : Path) (bytes : List UInt8) : Bool := (load p bytes).isOk

end FlowState.Object
