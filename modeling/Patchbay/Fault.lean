import Patchbay.Json.Display
import Patchbay.Text.Utf8

/-!
# Faults

A fault is a step that met a value it has no rule for: a missing entry, a value that cannot be a
key, values that have no order, a number with too many digits. Each fault has a class and a message.
A fault says nothing about the patches of a project; the failures that do are in
`Patchbay.Failure`.
-/

namespace Patchbay

/-- A step met a value it has no rule for, or one beyond a limit. -/
inductive Fault where
  /-- An entry that a table does not hold. -/
  | missing (key : Value)
  /-- A value of this kind cannot be a key. -/
  | unusableKey (kind : String)
  /-- Values of these kinds have no order. -/
  | unordered (left right : String)
  /-- A value of this kind has no items. -/
  | notIterable (kind : String)
  /-- The entry with this number of a list of pairs has no items. -/
  | notASequence (place : Nat)
  /-- The entry with this number of a list of pairs has so many items instead of two. -/
  | notAPair (place length : Nat)
  /-- No mode of error liveness has this name. -/
  | notAMode (text : String)
  /-- The text is no signed numeral. -/
  | notANumeral (text : String)
  /-- A whole number of so many digits is not read. -/
  | tooManyDigits (count : Nat)
  /-- An array, or else an object, of a JSON text lies in too many others. -/
  | tooDeep (isArray : Bool)
  /-- An argument that is not of the form `NAME=VALUE`. -/
  | notABinding (text : String)
  /-- A value of this kind cannot be cut in two at an equals sign. -/
  | notDivisible (kind : String)
  /-- A node that is no patch instance was to be inlined. -/
  | notAnInstance
  /-- A patch stood where a primitive was expected. -/
  | notAPrimitive (path : String)
  /-- A pin of a patch instance that is no boundary reference was to be followed. -/
  | notABoundary
  /-- There is no file of this name. -/
  | noSuchFile (name : String)
  /-- The name belongs to a directory. -/
  | isADirectory (name : String)
  /-- The name belongs to a file. -/
  | fileExists (name : String)
  /-- A part of the name belongs to a file. -/
  | notADirectory (name : String)
  /-- The name, or a part of it, has too many bytes. -/
  | nameTooLong (name : String)
  /-- The name of a file holds the character U+0000. -/
  | nullInName
  /-- A value of this kind names no file. -/
  | notAName (kind : String)
  /-- Halves of surrogate pairs have no bytes. -/
  | notEncodable (run : Text.HalfRun)
  /-- A number without digits cannot be sent in a report. -/
  | notSendable
  /-- The values of a result lie in too many others to be sent. -/
  | resultTooDeep
  /-- A text of a result holds halves of surrogate pairs. -/
  | resultNotEncodable (run : Text.HalfRun)

namespace Fault

/-- The class of a fault. -/
def className : Fault → String
  | missing _ => "KeyError"
  | unusableKey _ | unordered .. | notIterable _ | notASequence _ => "TypeError"
  | notAName _ => "TypeError"
  | notAPair .. | notAMode _ | notANumeral _ | tooManyDigits _ | notABinding _ | nullInName
  | notSendable => "ValueError"
  | tooDeep _ => "RecursionError"
  | notAnInstance | notAPrimitive _ | notABoundary | notDivisible _ => "AttributeError"
  | noSuchFile _ => "FileNotFoundError"
  | isADirectory _ => "IsADirectoryError"
  | fileExists _ => "FileExistsError"
  | notADirectory _ => "NotADirectoryError"
  | nameTooLong _ => "OSError"
  | notEncodable _ => "UnicodeEncodeError"
  | resultTooDeep | resultNotEncodable _ => "PydanticSerializationError"

/-- A numeral that could not be read is quoted by at most so many characters. -/
def quotedNumeralWidth : Nat := 200

/-- The message about halves of surrogate pairs that have no bytes. -/
def halvesMessage (run : Text.HalfRun) : String :=
  (if run.first = run.last then
      "'utf-8' codec can't encode character '" ++ String.ofList (Text.codeEscape run.code)
        ++ "' in position " ++ Text.Numeral.natText run.first
    else
      "'utf-8' codec can't encode characters in position " ++ Text.Numeral.natText run.first
        ++ "-" ++ Text.Numeral.natText run.last)
    ++ ": surrogates not allowed"

/-- The message of a fault. -/
def message : Fault → String
  | missing key => key.nested
  | unusableKey kind => "unhashable type: '" ++ kind ++ "'"
  | unordered left right =>
    "'<' not supported between instances of '" ++ left ++ "' and '" ++ right ++ "'"
  | notIterable kind => "'" ++ kind ++ "' object is not iterable"
  | notASequence place =>
    "cannot convert dictionary update sequence element #" ++ Text.Numeral.natText place
      ++ " to a sequence"
  | notAPair place length =>
    "dictionary update sequence element #" ++ Text.Numeral.natText place ++ " has length "
      ++ Text.Numeral.natText length ++ "; 2 is required"
  | notAMode text => Text.quoted text ++ " is not a valid Liveness"
  | notANumeral text =>
    "invalid literal for int() with base 10: "
      ++ String.ofList ((Text.quoted text).toList.take quotedNumeralWidth)
  | tooManyDigits count =>
    "Exceeds the limit (" ++ Text.Numeral.natText Text.Numeral.limit
      ++ " digits) for integer string conversion: value has " ++ Text.Numeral.natText count
      ++ " digits; use sys.set_int_max_str_digits() to increase the limit"
  | tooDeep isArray =>
    "maximum recursion depth exceeded while decoding a JSON "
      ++ (if isArray then "array" else "object") ++ " from a unicode string"
  | notABinding text => "--global expects NAME=VALUE, got '" ++ text ++ "'"
  | notDivisible kind => "'" ++ kind ++ "' object has no attribute 'partition'"
  | notAnInstance => "'Primitive' object has no attribute 'path'"
  | notAPrimitive _ => "'SubPatch' object has no attribute 'is_terminal'"
  | notABoundary => "'NamedPin' object has no attribute 'terminal_id'"
  | noSuchFile name => "[Errno 2] No such file or directory: " ++ Text.quoted name
  | isADirectory name => "[Errno 21] Is a directory: " ++ Text.quoted name
  | fileExists name => "[Errno 17] File exists: " ++ Text.quoted name
  | notADirectory name => "[Errno 20] Not a directory: " ++ Text.quoted name
  | nameTooLong name => "[Errno 36] File name too long: " ++ Text.quoted name
  | nullInName => "embedded null byte"
  | notAName kind => "expected str, bytes or os.PathLike object, not " ++ kind
  | notEncodable run => halvesMessage run
  | notSendable => "Out of range float values are not JSON compliant"
  | resultTooDeep =>
    "Error serializing to JSON: ValueError: Maximum serialization depth exceeded"
  | resultNotEncodable run =>
    "Error serializing to JSON: UnicodeEncodeError: " ++ halvesMessage run

end Fault

/-- The number that a row of digits denotes, if it is not too long to be read. -/
def Text.Numeral.read (ds : List Char) : Except Fault Nat :=
  if limit < ds.length then .error (.tooManyDigits ds.length) else .ok (value ds)

end Patchbay
