import Choco.Error

namespace Choco

/-- Where a program starts; it calls `entryFunction`. -/
def Library.start : String := "_start"

def Library.malloc : String := "_malloc"

def Library.printInt : String := "_print_int"

def Library.printBool : String := "_print_bool"

def Library.printStr : String := "_print_str"

def Library.input : String := "_input"

def Library.concat : String := "_list_concat"

def Library.strEq : String := "_str_eq"

/-- The common end of the routines that stop a program. -/
def Library.errorExit : String := "_error_exit"

/-- The function that holds the statements of a program. -/
def entryFunction : String := "_main"

def builtins : List String := ["print", "len", "input"]

def Trap.all : List Trap := [.lenOfNone, .indexOutOfRange, .indexOfNone, .divisionByZero]

def Trap.routine : Trap → String
  | .lenOfNone => "_error_len_none"
  | .indexOutOfRange => "_error_index_oob"
  | .indexOfNone => "_error_index_none"
  | .divisionByZero => "_error_div_zero"

def Library.reserved : List String :=
  [start, malloc, printInt, printBool, printStr, input, concat, strEq, errorExit] ++ Trap.all.map Trap.routine

end Choco
