import QasmStudio.Lang.Expr

/-!
# The qubit register

A program keeps its qubits in one register, addressed by index.
-/

namespace QasmStudio

def registerName : String := "__qubits__"

def registerExpr : Expr := .ident registerName (some (Ty.qubit 0))

end QasmStudio
