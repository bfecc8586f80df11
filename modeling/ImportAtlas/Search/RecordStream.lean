import ImportAtlas.Json.Reader
import ImportAtlas.Text.Blank
import ImportAtlas.Text.Split
import ImportAtlas.Text.Utf8

/-!
# Streams of records

A search tool writes one JSON object per line. The stream is read in chunks that may end
anywhere, inside a line and inside a character: a character that was begun and the text after the
last newline are kept until more bytes come. Blank lines mean nothing; a line that is no JSON object
is discarded and counted.
-/

namespace ImportAtlas

/-- An object, as its fields. -/
abbrev JsonRecord := List (String × Json)

/-- What a line of a stream holds. -/
inductive StreamLine where
  | blank
  | record (fields : JsonRecord)
  | malformed

/-- Read a line. -/
def StreamLine.read (text : List Char) : StreamLine :=
  if text.all Text.isBlank then .blank
  else
    match Json.read? text with
    | some (.obj fields) => .record fields
    | _ => .malformed

/-- The record of a line, if it holds one. -/
def StreamLine.record? : StreamLine → Option JsonRecord
  | .record fields => some fields
  | _ => none

/-- Whether a line is discarded. -/
def StreamLine.isMalformed : StreamLine → Bool
  | .malformed => true
  | _ => false

/-- A stream that is being read. -/
structure RecordStream where
  /-- The character of which some bytes were read. -/
  begun : Option Text.Unfinished := none
  /-- The text after the last newline. -/
  pending : List Char := []
  /-- The number of lines discarded so far. -/
  discarded : Nat := 0
deriving DecidableEq, Repr

namespace RecordStream

/-- Read complete lines. -/
def readLines (s : RecordStream) (lines : List (List Char)) : List JsonRecord × RecordStream :=
  let lines := lines.map StreamLine.read
  (lines.filterMap StreamLine.record?,
    { s with discarded := s.discarded + lines.countP StreamLine.isMalformed })

/-- Read a chunk: the records that it completes. -/
def feed (s : RecordStream) (chunk : List UInt8) : List JsonRecord × RecordStream :=
  let (chars, begun) := Text.decodeChunk s.begun chunk
  let pieces := Text.splitAt '\n' (s.pending ++ Text.replaceIllFormed chars)
  { s with begun, pending := pieces.getLast?.getD [] }.readLines pieces.dropLast

/-- End the stream: the record of a last line without a newline. -/
def flush (s : RecordStream) : List JsonRecord × RecordStream :=
  let last := s.pending ++ Text.replaceIllFormed (Text.decodeEnd s.begun)
  { s with begun := none, pending := [] }.readLines [last]

/-- Read successive chunks. -/
def feedAll (s : RecordStream) : List (List UInt8) → List JsonRecord × RecordStream
  | [] => ([], s)
  | chunk :: rest =>
    let (records, s) := s.feed chunk
    let (others, s) := s.feedAll rest
    (records ++ others, s)

end RecordStream

end ImportAtlas
