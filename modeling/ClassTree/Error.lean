/-
# ClassTree.Error — what can go wrong, and how it is said

Every failure of the library is a cause of one of these kinds, and the words for it are in one
place, `Error.message`. A cause holds the facts of the failure; where it happened is kept beside it.
Where a message would end in the reason of a number or text encoder, it ends in `<cause>`.
-/
import ClassTree.Class.Basic
import ClassTree.Text.ModifiedUtf8

namespace ClassTree

/-! ## Causes -/

/-- Why bytes are not a class file. -/
inductive Malformed where
  | unexpectedEnd (needed : Nat)
  | magic (found : Nat)
  | version (major minor : Nat)
  | unknownTag (tag : Nat)
  | utf8 (fault : ModifiedUtf8.Fault)
  | poolOverflow
  | poolIndex (index : Nat)
  | poolTag (expected : List Pool.Tag) (index : Nat) (found : Int)
  | notLoadable (tag : Int) (index : Nat)
  | className
  | attributeLength (name : Text) (declared read : Nat)
  | elementTag (tag : UInt8)
  | methodDescriptor (descriptor : Text)
  | parameterCount (table : Text) (count arity : Nat)
  | unknownOpcode (code : UInt8)
  | notWidenable (code : UInt8)
  | tableBounds
  | pairCount
  | missingBootstrap (index : Nat)
  | codeOverrun
  | targetOutside (offset : Int)
  | targetInside (offset : Int)
  | verificationTag (tag : UInt8)
  | reservedFrame (tag : UInt8)
  | frameOffset (offset : Nat)
  | lineOffset (offset : Nat)
  | trailing (count : Nat)
  deriving DecidableEq, Repr

/-- Why a class cannot be written or a method body cannot be followed. -/
inductive Unverified where
  | poolSize (className : Text) (size : Nat)
  | parameterCount (count : Int) (arity : Nat)
  | annotatedParameter (index count : Int)
  | namedParameter (index count : Int)
  | missingFrame
  | codeLength (length : Nat)
  | notEncodable (op : Opcode)
  | frameOrder (offset : Nat)
  | frameKind (kind : Text)
  | offTheEnd
  | stackHeights (here there : Nat)
  | stackTypes (here there : VerificationType)
  | underflow (needed present : Nat)
  | notInterpretable (op : Opcode)
  | subroutine
  | unreachable
  deriving DecidableEq, Repr

/-- Why a literal or a tree document is refused. -/
inductive Misformatted where
  | noKind (typeName : Text)
  | unknownKind (kind : Text)
  | outOfKind (value : Constant) (kind : Text)
  | hexByte (group whole : Text)
  | width (kind : Text) (needed found : Nat) (source : Option Text)
  | boolean (source : Option Text)
  | nullBytes (source : Option Text)
  | utf8 (source : Option Text)
  | notLeaf (base : Option Text)
  | position (line column : Nat)
  | unknownAttribute (name : Text)
  | repeatedAttribute (name : Text)
  | lineMarker (value : Text)
  | expectedLeaf (base : Option Text)
  | expectedKinds (kinds : List Text) (base : Option Text)
  | root (base : Option Text)
  | version
  | maxima
  | parameterNode (name : Option Text)
  | parameterTag (tag : Text)
  | sequenceNode (base : Option Text)
  | opcodeName (name : Option Text)
  | wideningCode (op : Opcode)
  | lookupLabels
  | expectedHandle (base : Option Text)
  | frameKind (name : Option Text)
  | verificationType (name : Option Text)
  | expectedAnnotated (base : Option Text)
  | elementNode (base : Option Text)
  deriving DecidableEq, Repr

/-- Arguments that an operation is not defined on, and says so. -/
inductive Invalid where
  | methodDescriptor (descriptor : Text)
  | emptyClassName
  | notConditional (op : Opcode)
  | modifiedUtf8 (fault : ModifiedUtf8.Fault)
  | opcode (code : Int)
  deriving DecidableEq, Repr

/-- Arguments outside the domain of an operation that makes no promise for them. -/
inductive Undefined where
  /-- A number does not fit the field that it is packed into, or is no number at all. -/
  | field
  /-- A finite number is too large for its floating point format. -/
  | floatRange
  /-- A value is of another kind than its use asks for. -/
  | kind
  /-- A descriptor ends too early. -/
  | descriptorEnd
  /-- Void, or a letter that is no type, is used as the type of a slot. -/
  | slotType
  /-- A frame with one stack item has none. -/
  | stackItem
  /-- An index points to nothing. -/
  | index
  /-- A batch is left without a worker. -/
  | workers
  /-- Digits that are no numeral. -/
  | numeral
  /-- Characters outside the alphabet of an encoding. -/
  | alphabet
  deriving DecidableEq, Repr

/-- A failure. -/
inductive Error where
  | malformed (cause : Malformed) (offset : Nat)
  | unverified (cause : Unverified) (method : Option Text) (instruction : Option Nat)
  | danglingLabel (label place : Text)
  | duplicateLabel (label place : Text)
  | missingElement (element entity : Text)
  | misformatted (cause : Misformatted) (path : Option Text)
  | invalid (cause : Invalid)
  | notFound (member : Text)
  | undefined (cause : Undefined)
  deriving DecidableEq, Repr

/-! ## Words -/

/-- A byte in two hexadecimal digits after `0x`. -/
def showByte (b : UInt8) : Text := "0x" ++ Hex.ofByte b

/-- A text in single quotes without any escaping, `None` where it is missing. -/
def showName : Option Text → Text
  | some t => Text.concat ["'", t, "'"]
  | none => "'None'"

/-- The reason of an encoder, which messages leave out. -/
def reason : Text := "<cause>"

/-- The words for a byte that starts no unit of modified UTF-8. -/
def ModifiedUtf8.Fault.message (f : ModifiedUtf8.Fault) : Text :=
  Text.concat ["Invalid modified UTF-8 byte ", showByte f.byte, " at ", Text.ofNat f.position]

/-- The words for bytes that are not a class file. -/
def Malformed.message : Malformed → Text
  | .unexpectedEnd n => Text.concat
      ["Unexpected end of class file, need ", Text.ofNat n, " more byte(s)"]
  | .magic n => Text.concat ["Invalid class file magic: 0x", Hex.lower 1 n]
  | .version major minor => Text.concat
      ["Unsupported class file version ", Text.ofNat major, ".", Text.ofNat minor]
  | .unknownTag t => Text.concat ["Unknown constant pool tag: ", Text.ofNat t]
  | .utf8 f => Text.concat ["Bad UTF8 constant: ", f.message]
  | .poolOverflow => "Wide constant overflows the constant pool"
  | .poolIndex i => Text.concat ["Invalid constant pool index ", Text.ofNat i]
  | .poolTag expected i found => Text.concat
      ["Expected ", Text.join "/" (expected.map Pool.Tag.name), " at index ", Text.ofNat i,
        ", got tag ", Text.ofInt found]
  | .notLoadable t i => Text.concat
      ["Unsupported loadable constant with tag ", Text.ofInt t, " at index ", Text.ofNat i]
  | .className => "Class has no name"
  | .attributeLength name declared read => Text.concat
      ["Attribute ", name, " declares ", Text.ofNat declared, " bytes but ", Text.ofNat read,
        " were read"]
  | .elementTag t => Text.concat
      ["Unknown annotation element value tag: ", Text.quoted [Fin.ofNat _ t.toNat]]
  | .methodDescriptor d => Text.concat ["Bad method descriptor ", Text.quoted d]
  | .parameterCount table count arity => Text.concat
      [table, " lists ", Text.ofNat count, " parameter(s) but the descriptor has ",
        Text.ofNat arity]
  | .unknownOpcode c => Text.concat ["Unknown opcode ", showByte c]
  | .notWidenable c => Text.concat ["Opcode ", showByte c, " cannot be widened"]
  | .tableBounds => "tableswitch high is below low"
  | .pairCount => "lookupswitch has a negative pair count"
  | .missingBootstrap i => Text.concat ["Missing bootstrap method ", Text.ofNat i]
  | .codeOverrun => "Instruction runs past the end of the code"
  | .targetOutside t => Text.concat ["Branch target ", Text.ofInt t, " outside the code"]
  | .targetInside t => Text.concat ["Branch target ", Text.ofInt t, " is not an instruction"]
  | .verificationTag t => Text.concat ["Unknown verification type ", Text.ofNat t.toNat]
  | .reservedFrame t => Text.concat ["Reserved stack map frame type ", Text.ofNat t.toNat]
  | .frameOffset o => Text.concat ["Stack map frame at invalid offset ", Text.ofNat o]
  | .lineOffset o => Text.concat ["Line number entry at invalid offset ", Text.ofNat o]
  | .trailing n => Text.concat [Text.ofNat n, " trailing byte(s)"]

/-- The longest code of a method. -/
def maxCodeLength : Nat := 65535

/-- The words for a class that cannot be written or a body that cannot be followed. -/
def Unverified.message : Unverified → Text
  | .poolSize name size => Text.concat
      ["Constant pool of ", name, " has ", Text.ofNat size, " entries"]
  | .parameterCount count arity => Text.concat
      ["Parameter count ", Text.ofInt count, " does not fit ", Text.ofNat arity, " parameter(s)"]
  | .annotatedParameter index count => Text.concat
      ["Parameter ", Text.ofInt index, " is annotated but only the last ", Text.ofInt count,
        " parameter(s) can be"]
  | .namedParameter index count => Text.concat
      ["Parameter ", Text.ofInt index, " has a name or flags past the ", Text.ofInt count,
        " listed parameter(s)"]
  | .missingFrame => "Widened conditional jump needs a stack map frame after it"
  | .codeLength n => Text.concat
      ["Code is ", Text.ofNat n, " bytes, more than ", Text.ofNat maxCodeLength]
  | .notEncodable op => Text.concat ["Cannot encode ", op.mnemonic, ": ", reason]
  | .frameOrder offset => Text.concat
      ["Stack map frame at offset ", Text.ofNat offset, " is out of order"]
  | .frameKind kind => Text.concat ["Unknown frame kind ", Text.quoted kind]
  | .offTheEnd => "Execution falls off the end of the code"
  | .stackHeights here there => Text.concat
      ["Inconsistent stack heights ", Text.ofNat here, " and ", Text.ofNat there, " at join"]
  | .stackTypes here there => Text.concat
      ["Incompatible stack types at join: ", here.display, " and ", there.display]
  | .underflow needed present => Text.concat
      ["Stack underflow: need ", Text.ofNat needed, " slot(s), have ", Text.ofNat present]
  | .notInterpretable op => Text.concat ["Cannot interpret ", op.mnemonic]
  | .subroutine => "Subroutines cannot be described by stack map frames"
  | .unreachable => "Unreachable code cannot be given a stack map frame"

/-- A source text in quotes; a text that was left out is shown by name. -/
private def inSource (before : List Text) (source : Option Text) : Text :=
  Text.concat (before ++ [showName source])

/-- The words for a refused literal or tree document. -/
def Misformatted.message : Misformatted → Text
  | .noKind typeName => Text.concat ["No literal kind for value of type ", typeName]
  | .unknownKind kind => Text.concat ["Unknown literal kind '", kind, "'"]
  | .outOfKind value kind => Text.concat
      ["Value ", value.display, " does not fit kind '", kind, "': ", reason]
  | .hexByte group whole => Text.concat ["Invalid hex byte '", group, "' in '", whole, "'"]
  | .width kind needed found source => inSource
      ["Kind '", kind, "' needs ", Text.ofNat needed, " bytes, got ", Text.ofNat found, " in "]
      source
  | .boolean source => inSource ["Boolean must be 00 or 01, got "] source
  | .nullBytes source => inSource ["Null carries no bytes, got "] source
  | .utf8 source => Text.concat ["Invalid UTF-8 in ", showName source, ": ", reason]
  | .notLeaf base => Text.concat ["Node ", showName base, " is not a leaf"]
  | .position line column => Text.concat
      ["Syntax error at line ", Text.ofNat line, ", column ", Text.ofNat column]
  | .unknownAttribute name => Text.concat ["Unknown node attribute '", name, "'"]
  | .repeatedAttribute name => Text.concat ["Attribute '", name, "' given twice"]
  | .lineMarker value => Text.concat ["Line marker must be a number, got '", value, "'"]
  | .expectedLeaf base => Text.concat ["Expected a leaf, got ", showName base, " node"]
  | .expectedKinds kinds base => Text.concat
      ["Expected ", Text.join "/" kinds, " leaf, got ", showName base]
  | .root base => Text.concat ["Root node must be a class, got ", showName base]
  | .version => "Version needs a major and a minor number"
  | .maxima => "Maxs need a stack and a locals size"
  | .parameterNode name => Text.concat ["Bad parameter node ", showName name]
  | .parameterTag tag => Text.concat ["Bad parameter type tag '", tag, "'"]
  | .sequenceNode base => Text.concat ["Unexpected ", showName base, " node in a sequence"]
  | .opcodeName name => Text.concat ["Bad opcode name ", showName name]
  | .wideningCode op => Text.concat [op.mnemonic, " is an encoding prefix, not an instruction"]
  | .lookupLabels => "lookupswitch needs one label per key"
  | .expectedHandle base => Text.concat ["Expected a handle, got ", showName base]
  | .frameKind name => Text.concat ["Unknown frame kind ", showName name]
  | .verificationType name => Text.concat ["Unknown verification type ", showName name]
  | .expectedAnnotated base => Text.concat ["Expected an annotation, got ", showName base]
  | .elementNode base => Text.concat ["Unknown annotation value node ", showName base]

/-- The words for arguments that an operation refuses. -/
def Invalid.message : Invalid → Text
  | .methodDescriptor d => Text.concat ["Not a method descriptor: ", d]
  | .emptyClassName => "Class name must not be empty"
  | .notConditional op => Text.concat ["Not a conditional jump: ", Text.ofNat op.code]
  | .modifiedUtf8 f => f.message
  | .opcode n => Text.concat [Text.ofInt n, " is not a valid Opcode"]

/-- The words for arguments outside the domain of an operation. -/
def Undefined.message : Undefined → Text
  | .field => "A number does not fit its field"
  | .floatRange => "A number is too large for its floating point format"
  | .kind => "A value is of the wrong kind"
  | .descriptorEnd => "A descriptor ends too early"
  | .slotType => "A slot needs a type"
  | .stackItem => "A stack item is missing"
  | .index => "An index points to nothing"
  | .workers => "A batch needs a worker"
  | .numeral => "A numeral cannot be read"
  | .alphabet => "A character is outside the alphabet"

/-- A label problem, followed by its place if that is known. -/
private def labelMessage (label problem place : Text) : Text :=
  let message := Text.concat ["Label '", label, "' ", problem]
  if place.isEmpty then message else Text.concat [message, " in ", place]

/-- The words for a failure. -/
def Error.message : Error → Text
  | .malformed cause offset => Text.concat
      [cause.message, " (at byte offset ", Text.ofNat offset, ")"]
  | .unverified cause method instruction =>
    let places : List Text :=
      (method.map fun m => Text.concat ["method ", m]).toList
        ++ (instruction.map fun i => Text.concat ["instruction #", Text.ofNat i]).toList
    if places.isEmpty then cause.message
    else Text.concat [cause.message, " (", Text.join ", " places, ")"]
  | .danglingLabel label place => labelMessage label "is referenced but not defined" place
  | .duplicateLabel label place => labelMessage label "is defined more than once" place
  | .missingElement element entity => Text.concat ["Missing element '", element, "' in ", entity]
  | .misformatted cause path => match path with
    | some p => if p.isEmpty then cause.message else Text.concat [cause.message, " at ", p]
    | none => cause.message
  | .invalid cause => cause.message
  | .notFound member => member
  | .undefined cause => cause.message

/-- The result of an operation that may fail. -/
abbrev Result (α : Type) := Except Error α

end ClassTree
