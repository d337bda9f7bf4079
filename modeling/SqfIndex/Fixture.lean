/-!
A sample workspace of generated scripts. Each script includes a shared header, defines globals and
locals, and may use a global of the next script.
-/

namespace SqfIndex.Fixture

/-- Name of the shared header. -/
def headerName : String := "script_macros.hpp"

def header : String := "#define STEP 2\n"

/-- The shape of a sample workspace. -/
structure Shape where
  files : Nat
  globals : Nat
  locals : Nat
  /-- Whether each script uses the first global of the next one. -/
  forward : Bool
deriving DecidableEq, Repr

/-- Ten scripts with three globals and three locals each. -/
def Shape.small : Shape := ⟨10, 3, 3, true⟩

/-- Global `k` of script `i`. -/
def globalName (i k : Nat) : String := "FIX_g_" ++ toString i ++ "_" ++ toString k

/-- Name of script `i`, with at least four digits. -/
def fileName (i : Nat) : String :=
  let digits := toString i
  "fn_" ++ String.ofList (List.replicate (4 - digits.length) '0') ++ digits ++ ".sqf"

def globalLines (i k : Nat) : String :=
  "// Global " ++ toString k ++ " of file " ++ toString i ++ "\n" ++
    globalName i k ++ " = " ++ toString k ++ " * STEP;\n"

def localLines (shape : Shape) (i k : Nat) : String :=
  let name := "_l_" ++ toString k
  let value := if shape.globals = 0 then "" else globalName i (k % shape.globals) ++ " + "
  "private " ++ name ++ " = " ++ value ++ toString k ++ ";\nhint str " ++ name ++ ";\n"

/-- The text of script `i`. -/
def script (shape : Shape) (i : Nat) : String :=
  "#include \"" ++ headerName ++ "\"\n\n" ++ String.join ((List.range shape.globals).map (globalLines i)) ++ "\n" ++
    String.join ((List.range shape.locals).map (localLines shape i)) ++
    if shape.forward && i + 1 < shape.files && shape.globals > 0 then "hint str " ++ globalName (i + 1) 0 ++ ";\n"
    else ""

/-- All files of a sample workspace by name. -/
def files (shape : Shape) : List (String × String) :=
  (headerName, header) :: (List.range shape.files).map fun i => (fileName i, script shape i)

end SqfIndex.Fixture
