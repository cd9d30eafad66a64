namespace Choco

structure Outcome where
  stdout : String
  exitCode : Int32
deriving DecidableEq, Repr, Inhabited

def Outcome.trapCode : Int32 := 1

namespace Input

def newline : UInt8 := 10

def lineLimit : Nat := 1020

/-- The bytes from `pos` through the next newline or the end, at most `limit` of them. -/
def lineAt (stdin : Array UInt8) (pos limit : Nat) : Array UInt8 :=
  let rest := stdin.extract pos stdin.size
  let length := match rest.idxOf? newline with
    | some i => i + 1
    | none => rest.size
  rest.extract 0 (min length limit)

def stripNewline (line : Array UInt8) : Array UInt8 :=
  if line.back? == some newline then line.pop else line

end Input

end Choco
