import QasmStudio.Text.Quoted

/-!
# Build identifiers

Every build has a random identifier: sixteen bytes, with the bits that mark it as random set, in
groups of hexadecimal digits.
-/

namespace QasmStudio.BuildId

def mark (bytes : List UInt8) : List UInt8 :=
  (bytes.modify 6 fun b => b % 16 + 64).modify 8 fun b => b % 64 + 128

def hexByte (b : UInt8) : List Char := Text.hex 2 b.toNat

def groups : List Nat → List UInt8 → List (List Char)
  | [], _ => []
  | n :: ns, bytes => (bytes.take n).flatMap hexByte :: groups ns (bytes.drop n)

def ofBytes (bytes : List UInt8) : String :=
  let bytes := mark ((bytes ++ List.replicate 16 0).take 16)
  String.ofList (List.intercalate ['-'] (groups [4, 2, 2, 2, 6] bytes))

end QasmStudio.BuildId
