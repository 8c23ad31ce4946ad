/-!
Bytes as they come from a file or a stream, cut into lines. A line ends with a line feed; what follows
the last one is a line too, unless it is empty. If reading fails, the lines that were complete
still count and the incomplete one does not.
-/

namespace PropSat.Text

inductive ReadError where
  | failed (message : String)
  | notUtf8
  deriving DecidableEq

def ReadError.message : ReadError → String
  | .failed message => message
  | .notUtf8 => "stream did not contain valid UTF-8"

/-- What was read, and the failure that came instead of the end, if one did. -/
structure Input where
  bytes : ByteArray
  failure : Option String

namespace Input

def ofBytes (bytes : ByteArray) : Input := ⟨bytes, none⟩

def ofString (s : String) : Input := ofBytes s.toUTF8

/-- Nothing could be read at all. -/
def unreadable (message : String) : Input := ⟨.empty, some message⟩

/-- Puts one byte in front of the first piece; a line feed begins a new first piece. -/
def cutByte (b : UInt8) : List (List UInt8) → List (List UInt8)
  | [] => [[b]]
  | piece :: pieces => if b = 10 then [] :: piece :: pieces else (b :: piece) :: pieces

/-- The pieces between line feeds, one more than there are line feeds. -/
def pieces (bytes : List UInt8) : List (List UInt8) := bytes.foldr cutByte [[]]

def decodeLine (piece : List UInt8) : Except ReadError String :=
  match String.fromUTF8? ⟨piece.toArray⟩ with
  | some line => .ok line
  | none => .error .notUtf8

/-- The lines in order, each decoded on its own; nothing follows a failure. -/
def lines (input : Input) : List (Except ReadError String) :=
  let pieces := pieces input.bytes.data.toList
  let complete := pieces.dropLast.map decodeLine
  match input.failure, pieces.getLast? with
  | some message, _ => complete ++ [.error (.failed message)]
  | none, some (b :: bs) => complete ++ [decodeLine (b :: bs)]
  | none, _ => complete

end Input

end PropSat.Text
