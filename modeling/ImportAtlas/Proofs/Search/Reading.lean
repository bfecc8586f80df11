import ImportAtlas.Proofs.Json.Written
import ImportAtlas.Proofs.Text.Decoding
import ImportAtlas.Search.RecordStream

/-!
# Streams in chunks

What a stream yields is said without chunks: the records of the lines of the whole decoded text.
Where the chunks end has no part in it. A cut leaves two unfinished things behind, a character and
a line, and the chunk that follows goes on with both; feeding one chunk behind another is then the
same as feeding them joined, and every run of chunks is one chunk.
-/

namespace ImportAtlas

/-- The characters that a blank line may hold. -/
def blankCharacters : List Char :=
  ['\t', '\n', '\x0b', '\x0c', '\r', '\x1c', '\x1d', '\x1e', '\x1f', ' ', '\u0085', '\u00a0', '\u1680',
    '\u2000', '\u2001', '\u2002', '\u2003', '\u2004', '\u2005', '\u2006', '\u2007', '\u2008', '\u2009',
    '\u200a', '\u2028', '\u2029', '\u202f', '\u205f', '\u3000']

/-- The records of some lines, in order: the objects that they write. Blank lines and lines that
write no object have none. -/
def recordsOf (lines : List (List Char)) : List JsonRecord :=
  lines.filterMap fun line =>
    if line.all (· ∈ blankCharacters) then none else (Json.read? line).bind Json.obj?

/-- The number of lines that are not blank and write no object. -/
def malformedCount (lines : List (List Char)) : ℕ :=
  lines.countP fun line =>
    !line.all (· ∈ blankCharacters) && ((Json.read? line).bind Json.obj?).isNone

/-- White space is what a blank line may hold. -/
theorem isBlank_eq_mem (c : Char) : Text.isBlank c = decide (c ∈ blankCharacters) := by
  rw [Bool.eq_iff_iff, decide_eq_true_eq]
  simp only [blankCharacters, List.mem_cons, List.not_mem_nil, ← Char.toNat_inj, Char.reduceToNat,
    Text.isBlank, Bool.or_eq_true, Bool.and_eq_true, decide_eq_true_eq, beq_iff_eq, or_false]
  omega

/-- The records of joined lines. -/
theorem recordsOf_append (front back : List (List Char)) :
    recordsOf (front ++ back) = recordsOf front ++ recordsOf back :=
  List.filterMap_append

/-- The lines that are discarded of joined lines. -/
theorem malformedCount_append (front back : List (List Char)) :
    malformedCount (front ++ back) = malformedCount front + malformedCount back :=
  List.countP_append

/-- The record of a line is the object that it writes. -/
theorem StreamLine.record?_read (line : List Char) :
    (StreamLine.read line).record? =
      if line.all (· ∈ blankCharacters) then none else (Json.read? line).bind Json.obj? := by
  rw [StreamLine.read, funext isBlank_eq_mem]
  split
  · rfl
  · cases hvalue : Json.read? line with
    | none => rfl
    | some value => cases value <;> rfl

/-- A line is discarded if it is not blank and writes no object. -/
theorem StreamLine.isMalformed_read (line : List Char) :
    (StreamLine.read line).isMalformed =
      (!line.all (· ∈ blankCharacters) && ((Json.read? line).bind Json.obj?).isNone) := by
  rw [StreamLine.read, funext isBlank_eq_mem]
  split
  · next hblank => simp [hblank, StreamLine.isMalformed]
  · next hblank =>
    rw [eq_false_of_ne_true hblank, Bool.not_false, Bool.true_and]
    cases hvalue : Json.read? line with
    | none => rfl
    | some value => cases value <;> rfl

namespace RecordStream

variable (s : RecordStream)

/-- Reading lines yields their records and counts the others. -/
theorem readLines_eq (lines : List (List Char)) :
    s.readLines lines =
      (recordsOf lines, { s with discarded := s.discarded + malformedCount lines }) := by
  have hrecord : StreamLine.record? ∘ StreamLine.read = _ := funext StreamLine.record?_read
  have hmalformed : StreamLine.isMalformed ∘ StreamLine.read = _ :=
    funext StreamLine.isMalformed_read
  rw [readLines, List.filterMap_map, List.countP_map, hrecord, hmalformed, recordsOf,
    malformedCount]

/-- The text that a stream holds when it reads a chunk, without the character that is cut. -/
def textWith (chunk : List UInt8) : List Char :=
  s.pending ++ Text.replaceIllFormed (Text.decodeChunk s.begun chunk).1

/-- A chunk yields the records of the lines that it completes and leaves the line that it begins. -/
theorem feed_eq (chunk : List UInt8) :
    s.feed chunk =
      (recordsOf (Text.splitAt '\n' (s.textWith chunk)).dropLast,
        { begun := (Text.decodeChunk s.begun chunk).2
          pending := (Text.splitAt '\n' (s.textWith chunk)).getLast?.getD []
          discarded :=
            s.discarded + malformedCount (Text.splitAt '\n' (s.textWith chunk)).dropLast }) := by
  simp only [feed, readLines_eq, textWith]

/-- No line is left complete. -/
theorem newline_notMem_feed (chunk : List UInt8) : '\n' ∉ (s.feed chunk).2.pending := by
  rw [feed_eq]
  exact Text.notMem_getLast?_splitAt _ _

/-- An empty chunk changes nothing. -/
theorem feed_nil (h : '\n' ∉ s.pending) : s.feed [] = ([], s) := by
  have htext : s.textWith [] = s.pending := List.append_nil _
  rw [feed_eq, htext, Text.splitAt_of_notMem h]
  rfl

/-- A chunk behind another one is read from where that one stops. -/
theorem textWith_append (front back : List UInt8) :
    s.textWith (front ++ back) = s.textWith front ++
      Text.replaceIllFormed (Text.decodeChunk (Text.decodeChunk s.begun front).2 back).1 := by
  rw [textWith, textWith, Text.decodeChunk_append, Text.replaceIllFormed_append,
    List.append_assoc]

/-- Two chunks are one longer chunk. -/
theorem feed_append (front back : List UInt8) :
    s.feed (front ++ back) =
      ((s.feed front).1 ++ ((s.feed front).2.feed back).1, ((s.feed front).2.feed back).2) := by
  have hback : (s.feed front).2.textWith back =
      (Text.splitAt '\n' (s.textWith front)).getLast?.getD [] ++
        Text.replaceIllFormed (Text.decodeChunk (Text.decodeChunk s.begun front).2 back).1 := by
    rw [textWith, feed_eq]
  rw [feed_eq (s.feed front).2, hback, feed_eq s (front ++ back), textWith_append,
    Text.dropLast_splitAt_append, Text.getLast?_splitAt_append, feed_eq s front,
    Text.decodeChunk_append, recordsOf_append, malformedCount_append, Nat.add_assoc]

/-- Successive chunks are one chunk. -/
theorem feedAll_eq_feed (h : '\n' ∉ s.pending) (chunks : List (List UInt8)) :
    s.feedAll chunks = s.feed chunks.flatten := by
  induction chunks generalizing s with
  | nil => exact (s.feed_nil h).symm
  | cons chunk chunks ih =>
    simp only [List.flatten_cons, feed_append, feedAll, ih _ (s.newline_notMem_feed chunk)]

/-- Chunks are read one after the other. -/
theorem feedAll_append (front back : List (List UInt8)) :
    s.feedAll (front ++ back) =
      ((s.feedAll front).1 ++ ((s.feedAll front).2.feedAll back).1,
        ((s.feedAll front).2.feedAll back).2) := by
  induction front generalizing s with
  | nil => rfl
  | cons chunk front ih => simp only [List.cons_append, feedAll, ih, List.append_assoc]

/-- The end of a stream yields the record of the line that was begun, and leaves nothing of it. -/
theorem flush_eq :
    s.flush =
      (recordsOf [s.pending ++ Text.replaceIllFormed (Text.decodeEnd s.begun)],
        { discarded := s.discarded +
            malformedCount [s.pending ++ Text.replaceIllFormed (Text.decodeEnd s.begun)] }) := by
  rw [flush, readLines_eq]

/-- A stream of which nothing was read yet, after the lines that were discarded before. -/
def opened (discarded : ℕ) : RecordStream := { discarded }

/-- The lines of a whole text are those that are complete before its end, and the one that its end
completes. -/
theorem splitAt_decodeLossy_eq (total : ℕ) (bytes : List UInt8) :
    Text.splitAt '\n' (Text.decodeLossy bytes) =
      (Text.splitAt '\n' ((opened total).textWith bytes)).dropLast ++
        [((opened total).feed bytes).2.pending ++
          Text.replaceIllFormed (Text.decodeEnd ((opened total).feed bytes).2.begun)] := by
  have htext : Text.decodeLossy bytes = (opened total).textWith bytes ++
      Text.replaceIllFormed (Text.decodeEnd (Text.decodeChunk none bytes).2) :=
    Text.replaceIllFormed_append _ _
  have hend := Text.newline_notMem_decodeEnd (Text.decodeChunk none bytes).2
  have hlast := Text.notMem_getLast?_splitAt '\n' ((opened total).textWith bytes)
  rw [htext, Text.splitAt_append, feed_eq,
    Text.splitAt_of_notMem fun hmem => (List.mem_append.mp hmem).elim hlast hend]
  rfl

/-- The lines that some bytes complete are the pieces that end with a newline byte. -/
theorem dropLast_splitAt_textWith (total : ℕ) (bytes : List UInt8) :
    (Text.splitAt '\n' ((opened total).textWith bytes)).dropLast =
      (Text.splitAt Text.newlineByte bytes).dropLast.map Text.decodeLossy := by
  rw [List.map_dropLast, ← Text.splitAt_decodeLossy, splitAt_decodeLossy_eq total,
    List.dropLast_concat]

/-- Some bytes yield the records of the lines that they complete. -/
theorem feed_opened (total : ℕ) (bytes : List UInt8) :
    let complete := (Text.splitAt Text.newlineByte bytes).dropLast.map Text.decodeLossy
    ((opened total).feed bytes).1 = recordsOf complete ∧
      ((opened total).feed bytes).2.discarded = total + malformedCount complete := by
  rw [feed_eq, dropLast_splitAt_textWith]
  exact ⟨rfl, rfl⟩

/-- Some bytes and their end yield the records of the lines of their text. -/
theorem feed_flush (total : ℕ) (bytes : List UInt8) :
    let lines := Text.splitAt '\n' (Text.decodeLossy bytes)
    let fed := (opened total).feed bytes
    fed.1 ++ fed.2.flush.1 = recordsOf lines ∧
      fed.2.flush.2 = opened (total + malformedCount lines) := by
  intro lines fed
  obtain ⟨hrecords, hdiscarded⟩ := feed_opened total bytes
  have hlines := splitAt_decodeLossy_eq total bytes
  rw [dropLast_splitAt_textWith] at hlines
  constructor
  · rw [hrecords, flush_eq, ← recordsOf_append, ← hlines]
  · rw [flush_eq, hdiscarded, Nat.add_assoc, ← malformedCount_append, ← hlines]
    rfl

/-- What a stream yields to its end, and how many lines it discards, is said by the lines of the
whole text, whatever the chunks. The text is what the bytes show: their characters, and the
replacement character for each ill-formed piece. A line is read as the value that it writes in the
grammar of JSON. What a stream yields up to somewhere is said by the lines that end there with a
newline, and the rest goes on from there. The end of a stream opens it anew. -/
theorem feedAll_flush (total : ℕ) (received later : List (List UInt8)) :
    (∀ bytes, Text.Decodes bytes (Text.decodePieces bytes)) ∧
      (∀ line value, Json.read? line = some value ↔
        ∃ t : Json.WrittenText, line = t.text ∧ t.value.value = value) ∧
      let shown (bytes : List UInt8) : List Char :=
        (Text.decodePieces bytes).map fun piece => piece.getD '\uFFFD'
      let lines := (shown (received ++ later).flatten).splitOn '\n'
      let complete := (received.flatten.splitOn Text.newlineByte).dropLast.map shown
      let whole := (opened total).feedAll (received ++ later)
      let sofar := (opened total).feedAll received
      (whole.1 ++ whole.2.flush.1 = recordsOf lines ∧
          whole.2.flush.2 = opened (total + malformedCount lines)) ∧
        (sofar.1 = recordsOf complete ∧ sofar.2.discarded = total + malformedCount complete ∧
          whole = (sofar.1 ++ (sofar.2.feedAll later).1, (sofar.2.feedAll later).2)) ∧
        ∀ s : RecordStream, s.flush.2 = opened s.flush.2.discarded := by
  refine ⟨Text.decodes_decodePieces, fun line value => Json.read?_eq_some_iff, ?_⟩
  intro shown lines complete whole sofar
  have hone (chunks : List (List UInt8)) :
      (opened total).feedAll chunks = (opened total).feed chunks.flatten :=
    feedAll_eq_feed _ List.not_mem_nil _
  have hwhole := feed_flush total (received ++ later).flatten
  obtain ⟨hrecords, hdiscarded⟩ := feed_opened total received.flatten
  rw [← hone, Text.splitAt_eq_splitOn] at hwhole hrecords hdiscarded
  have hflush (s : RecordStream) : s.flush.2 = opened s.flush.2.discarded := by
    rw [flush_eq]
    rfl
  exact ⟨hwhole, ⟨hrecords, hdiscarded, feedAll_append _ received later⟩, hflush⟩

end RecordStream

end ImportAtlas
