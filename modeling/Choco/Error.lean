import Choco.IR.Kind

namespace Choco

open IR (OpId Kind ValueId)

inductive ValueKind where
  | none | int | bool | str | list
deriving DecidableEq, Repr, Inhabited

/-- Faults of the program that runs; it prints a diagnostic and exits with code one. -/
inductive Trap where
  | lenOfNone
  | indexOutOfRange
  | indexOfNone
  | divisionByZero
deriving DecidableEq, Repr, Inhabited

/-- Broken promises between the parts of the compiler, or of the trees handed to it. -/
inductive Fault where
  | wrongKind (wanted found : ValueKind)
  | noRecord (index : Nat)
  | cannotAssignInto (kind : ValueKind)
  | notALocation
  | lenOf (kind : ValueKind)
  | cannotIndex (kind : ValueKind)
  | lengthOutOfRange
  | wrongArity (func : String) (expected given : Nat)
  | eagerShortCircuit
  | scopeDeclAtTopLevel (name : String)
  | notAssignable (ty : Ty)
  | cannotIndexType (ty : Ty)
  | notAFunction (name : String)
  | functionAsVariable (name : String)
  | mismatchedTypes (op : BinaryOp) (lhs rhs : Ty)
  | staleHandle (id : OpId)
  | noRegion (index : Nat)
  | unknownValue (value : ValueId)
  | resultCount (kind : Kind) (given expected : Nat)
  | replaceDetached
  | missingFromParent
  | stillUsed (kind : Kind) (result : ValueId) (users : Nat)
  | vanished
  | endlessNesting
  | forOperands (found : Nat)
  | forOverNonValue
  | cannotIterate (ty : Ty)
  | builtinArity (func : String) (given : Nat)
  | emptyRegion (index : Nat) (kind : Kind)
  | noLoweredValue (kind : Kind)
  | operandCount (kind : Kind) (expected found : Nat)
  | strictShortCircuit (op : BinaryOp)
  | notShortCircuit (op : BinaryOp)
  | assignWithoutValue
  | noYield (index : Nat) (kind : Kind)
  | noBody
  | noEntry
  | notAtTopLevel (kind : Kind)
  | flatOperands (func : String) (expected found : Nat)
  | noSlot (value : ValueId) (func : String)
  | noResult
  | noStorage
deriving DecidableEq, Repr, Inhabited

inductive Defect where
  | erasedListed (id : OpId)
  | staleParent (kind : Kind)
  | yieldAtTopLevel
  | yieldNotLast
  | definedByErased (value : ValueId)
  | usedBeforeDefinition (value : ValueId)
  | ofDetachedRegion (value : ValueId)
  | argumentOutside (value : ValueId) (owner : Kind)
  | usersDisagree
deriving DecidableEq, Repr, Inhabited

/-- Constructs that reach a pass before the pass that removes them. -/
inductive Misordering where
  | forLoop
  | operator (op : BinaryOp) (ty : Ty)
  | builtin (func : String)
  | unlowered (kind : Kind)
deriving DecidableEq, Repr, Inhabited

inductive Unsupported where
  | printOfValue (kind : ValueKind)
  | printOfType (ty : Ty)
  | plus (lhs rhs : ValueKind)
  | objectModel (kind : Kind)
  | largeObject
  | largeFrame
  | manyParams (func : String) (count limit : Nat)
  | manyArgs (func : String) (count limit : Nat)
  | enclosingValue (value : ValueId) (func : String)
deriving DecidableEq, Repr, Inhabited

inductive MachineFault where
  | duplicateLabel (name : String)
  | dataTooLarge
  | noStart
  | pastEnd
  | badReturn (address : Int32)
  | noBranchTarget
  | undefinedLabel (name : String)
  | noSymbol
  | undefinedSymbol (name : String)
  | unmapped (address : Nat)
  | pastMemory (address : Nat)
  | writeTo (descriptor : Int32)
  | negativeWrite
  | readFrom (descriptor : Int32)
  | negativeRead
  | unknownCall (number : Int32)
deriving DecidableEq, Repr, Inhabited

/-- Why the process itself ends, with no error to hand on. -/
inductive Abort where
  | addressOverflow
  | copyPastEnd (stop size : Nat)
deriving DecidableEq, Repr, Inhabited

inductive Error where
  | internal (fault : Fault)
  | invalidIR (defect : Defect)
  | passOrdering (cause : Misordering)
  | unimplemented (feature : Unsupported)
  | duplicateDefinition (name : String)
  | undefinedName (name : String)
  | program (trap : Trap)
  | emulation (pc : Nat) (fault : MachineFault)
  | executionLimit (limit : Nat)
  | callDepth (limit : Nat)
  | json
  | aborted (cause : Abort)
deriving DecidableEq, Repr, Inhabited

/-- Who is at fault. `fatal`: the compiler or the tree given to it. `unsupported`: the tree, which uses
what the back end does not offer. `program`: the program that runs. -/
inductive Severity where
  | fatal
  | unsupported
  | program
deriving DecidableEq, Repr, Inhabited

def ValueKind.text : ValueKind → String
  | .none => "NoneType"
  | .int => "int"
  | .bool => "bool"
  | .str => "str"
  | .list => "list"

def Trap.message : Trap → String
  | .lenOfNone => "TypeError: object of type 'NoneType' has no len()"
  | .indexOutOfRange => "IndexError: list index out of range"
  | .indexOfNone => "TypeError: 'NoneType' object is not subscriptable"
  | .divisionByZero => "DivByZero: Division by zero"

def Fault.message : Fault → String
  | .wrongKind wanted found => s!"expected {wanted.text}, found {found.text}"
  | .noRecord index => s!"activation record {index} does not exist"
  | .cannotAssignInto kind => s!"cannot assign into {kind.text}"
  | .notALocation => "assignment to a non-location"
  | .lenOf kind => s!"len of {kind.text}"
  | .cannotIndex kind => s!"cannot index {kind.text}"
  | .lengthOutOfRange => "length exceeds int range"
  | .wrongArity func expected given => s!"{func} takes {expected} argument(s), got {given}"
  | .eagerShortCircuit => "short-circuit operator evaluated eagerly"
  | .scopeDeclAtTopLevel name => s!"scope declaration for '{name}' at module level"
  | .notAssignable ty => s!"expression of type {ty.text} is not assignable"
  | .cannotIndexType ty => s!"cannot index a value of type {ty.text}"
  | .notAFunction name => s!"'{name}' is not a function"
  | .functionAsVariable name => s!"function '{name}' used as a variable"
  | .mismatchedTypes op lhs rhs =>
    s!"operands of '{op.text}' have mismatched types {lhs.text} and {rhs.text}"
  | .staleHandle id => s!"stale operation handle {id.text}"
  | .noRegion index => s!"operation has no region {index}"
  | .unknownValue value => s!"unknown value {value.text}"
  | .resultCount kind given expected =>
    s!"replacement for {kind.mnemonic} yields {given} results, expected {expected}"
  | .replaceDetached => "cannot replace a detached operation"
  | .missingFromParent => "operation missing from its parent region"
  | .stillUsed kind result users =>
    s!"erasing {kind.mnemonic} whose result {result.text} still has {users} user(s)"
  | .vanished => "operation vanished during erase"
  | .endlessNesting => "operation nested in itself"
  | .forOperands found => s!"for expects 2 operands, found {found}"
  | .forOverNonValue => "for iterates a non-value"
  | .cannotIterate ty => s!"cannot iterate over {ty.text}"
  | .builtinArity func given => s!"{func} called with {given} argument(s)"
  | .emptyRegion index kind => s!"empty region {index} in {kind.mnemonic}"
  | .noLoweredValue kind => s!"lowering {kind.mnemonic} produced no value"
  | .operandCount kind expected found =>
    s!"{kind.mnemonic} expects {expected} operand(s), found {found}"
  | .strictShortCircuit op => s!"'{op.text}' must be an effectful binary expression"
  | .notShortCircuit op => s!"'{op.text}' is not a short-circuit operator"
  | .assignWithoutValue => "assign without a value"
  | .noYield index kind => s!"region {index} of {kind.mnemonic} does not end in yield"
  | .noBody => "function without a body"
  | .noEntry => "module has no _main function"
  | .notAtTopLevel kind => s!"{kind.mnemonic} at module level"
  | .flatOperands func expected found =>
    s!"target op in {func} expects {expected} operand(s), found {found}"
  | .noSlot value func => s!"{value.text} has no slot in {func}"
  | .noResult => "target op result missing"
  | .noStorage => "alloc without frame storage"

def Defect.message : Defect → String
  | .erasedListed id => s!"region lists erased op {id.text}"
  | .staleParent kind => s!"{kind.mnemonic} has a stale parent link"
  | .yieldAtTopLevel => "yield at module level"
  | .yieldNotLast => "yield is not the last op of its region"
  | .definedByErased value => s!"{value.text} is defined by an erased op"
  | .usedBeforeDefinition value => s!"{value.text} used before its definition"
  | .ofDetachedRegion value => s!"{value.text} belongs to a detached region"
  | .argumentOutside value owner => s!"argument {value.text} used outside {owner.mnemonic}"
  | .usersDisagree => "users map disagrees with operand lists"

def Misordering.message : Misordering → String
  | .forLoop => "for loop reached ISA lowering; run for-to-while first"
  | .operator op ty =>
    s!"'{op.text}' on {ty.text} reached ISA lowering; run library-call introduction first"
  | .builtin func => s!"built-in {func} reached ISA lowering; run library-call introduction first"
  | .unlowered kind => s!"{kind.mnemonic} reached register allocation; run ISA lowering first"

def Unsupported.message : Unsupported → String
  | .printOfValue kind => s!"print of a value of type {kind.text}"
  | .printOfType ty => s!"print of a value of type {ty.text}"
  | .plus lhs rhs => s!"'+' on {lhs.text} and {rhs.text}"
  | .objectModel kind => s!"{kind.mnemonic} (object model)"
  | .largeObject => "heap object too large"
  | .largeFrame => "stack frame larger than 2 GiB"
  | .manyParams func count limit => s!"function {func} with {count} parameters (at most {limit})"
  | .manyArgs func count limit => s!"call to {func} with {count} arguments (at most {limit})"
  | .enclosingValue value func =>
    s!"{value.text} in {func} refers to a value of an enclosing function"

def MachineFault.message : MachineFault → String
  | .duplicateLabel name => s!"duplicate label {name}"
  | .dataTooLarge => "data section too large"
  | .noStart => "program has no _start"
  | .pastEnd => "execution ran past the end of the program"
  | .badReturn address => s!"return to bad address {address.toInt}"
  | .noBranchTarget => "branch without a target"
  | .undefinedLabel name => s!"undefined label {name}"
  | .noSymbol => "la without a symbol"
  | .undefinedSymbol name => s!"undefined symbol {name}"
  | .unmapped address => s!"access to unmapped address 0x{Text.hex address}"
  | .pastMemory address => s!"access past end of memory at 0x{Text.hex address}"
  | .writeTo descriptor => s!"write to fd {descriptor.toInt}"
  | .negativeWrite => "negative write length"
  | .readFrom descriptor => s!"read from fd {descriptor.toInt}"
  | .negativeRead => "negative read length"
  | .unknownCall number => s!"unknown system call {number.toInt}"

def Abort.message : Abort → String
  | .addressOverflow => "attempt to add with overflow"
  | .copyPastEnd stop size => s!"range end index {stop} out of range for slice of length {size}"

namespace Error

def message : Error → String
  | .internal fault => s!"Internal compiler error: {fault.message}"
  | .invalidIR defect => s!"Invalid IR in verify: {defect.message}"
  | .passOrdering cause => s!"Pass ordering error: {cause.message}"
  | .unimplemented feature => s!"Unimplemented: {feature.message}"
  | .duplicateDefinition name => s!"Duplicate definition: {name}"
  | .undefinedName name => s!"Undefined name: {name}"
  | .program trap => trap.message
  | .emulation pc fault => s!"Emulation error at pc {pc}: {fault.message}"
  | .executionLimit limit => s!"Execution limit exceeded (max: {limit} steps)"
  | .callDepth limit => s!"Call depth exceeded (max: {limit} frames)"
  | .json => "JSON error"
  | .aborted cause => cause.message

def severity : Error → Severity
  | .internal _ | .invalidIR _ | .passOrdering _ | .duplicateDefinition _ | .undefinedName _
  | .json | .aborted _ => .fatal
  | .unimplemented _ => .unsupported
  | .program _ | .emulation _ _ | .executionLimit _ | .callDepth _ => .program

end Error

end Choco
