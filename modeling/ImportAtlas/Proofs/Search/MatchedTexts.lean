import Mathlib.Data.List.Forall2
import ImportAtlas.Proofs.Search.Matches
import ImportAtlas.Proofs.Search.Spans
import ImportAtlas.Proofs.Text.Replacing

/-!
# Matched texts

A window counts its spans in characters or in bytes, and both ways to count select the same texts. The
tool counts in the bytes of the lines as it read them, while a window keeps lines that were decoded:
where those bytes are not UTF-8, a span selects what the tool matched as long as no ill-formed piece of
one or two bytes ends before it does.
-/

namespace ImportAtlas

/-- Spans that are counted in bytes select the same texts as those that are counted in characters: the
parts of the lines between the places. -/
theorem matchedTexts_bytesBefore (path : Path) (line : Int) (text : List Char)
    (spans : List (ℕ × ℕ)) :
    let inCharacters : Window :=
      { path, line, text, unit := .characters
        spans := spans.map fun (start, stop) => ((start : Int), (stop : Int)) }
    let inBytes : Window :=
      { path, line, text, unit := .bytes
        spans := spans.map fun (start, stop) =>
          ((Text.bytesBefore text start : Int), (Text.bytesBefore text stop : Int)) }
    inBytes.matchedTexts = inCharacters.matchedTexts ∧
      inCharacters.matchedTexts = spans.map fun (start, stop) => (text.take stop).drop start := by
  intro inCharacters inBytes
  have hcharacters : inCharacters.matchedTexts =
      spans.map fun (start, stop) => (text.take stop).drop start := by
    simp only [inCharacters, Window.matchedTexts, List.map_map]
    exact List.map_congr_left fun span _ => slice_natCast text span.1 span.2
  have hbytes : inBytes.matchedTexts =
      spans.map fun (start, stop) => (text.take stop).drop start := by
    simp only [inBytes, Window.matchedTexts, List.map_map]
    refine List.map_congr_left fun span _ => ?_
    dsimp only [Function.comp_apply]
    rw [slice_natCast, Text.part_encode, Text.decodeLossy_encode]
  exact ⟨hbytes.trans hcharacters.symm, hcharacters⟩

namespace MatchRecord

/-- A field gives bytes: those of its text, or any in base64. -/
inductive GivesBytes : Json → List UInt8 → Prop
  | text {fields : JsonRecord} {text : String} (given : fields.lookup "text" = some (.str text)) :
    GivesBytes (.obj fields) (Text.encode text.toList)
  | bytes {fields : JsonRecord} {encoded : String} {bytes : List UInt8}
    (missing : ∀ text, fields.lookup "text" ≠ some (.str text))
    (given : fields.lookup "bytes" = some (.str encoded))
    (decoded : Text.base64? encoded.toList = some bytes) : GivesBytes (.obj fields) bytes

/-- A field that gives bytes gives the text that they are decoded to. -/
theorem GivesBytes.givesText {lines : Json} {bytes : List UInt8} (h : GivesBytes lines bytes) :
    GivesText (some lines) (Text.decodeLossy bytes) := by
  cases h with
  | text given =>
    rw [Text.decodeLossy_encode]
    exact .text given
  | bytes missing given decoded => exact .bytes missing given decoded

/-- A submatch has a span. -/
def HasSpan (item : Json) (span : ℕ × ℕ) : Prop :=
  item.get? "start" = some (.int span.1) ∧ item.get? "end" = some (.int span.2)

/-- A record tells of a match on some lines, with the spans of its submatches. -/
structure Reports (record : JsonRecord) (lines : Json) (spans : List (ℕ × ℕ)) : Prop where
  isMatch : record.lookup "type" = some (.str "match")
  data : ∃ data, record.lookup "data" = some (.obj data) ∧
    (∃ path, GivesText (data.lookup "path") path) ∧
    data.lookup "lines" = some lines ∧
    (∃ n, data.lookup "line_number" = some (.int n)) ∧
    ∃ items, data.lookup "submatches" = some (.arr items) ∧ List.Forall₂ HasSpan items spans

/-- A span in the numbers of a record. -/
def numbered (span : ℕ × ℕ) : RecordNumber × RecordNumber := (.number span.1, .number span.2)

/-- The spans of submatches that all have one. -/
theorem spansIn_arr {items : List Json} {spans : List (ℕ × ℕ)}
    (h : List.Forall₂ HasSpan items spans) : spansIn (some (.arr items)) = spans.map numbered := by
  induction h with
  | nil => rfl
  | @cons item span items spans hspan _ ih =>
    have hitem : span? item = some (numbered span) := by
      simp only [span?, hspan.1, hspan.2, Option.bind_some, RecordNumber.ofJson?, numbered]
    simp only [spansIn, Option.bind_some, Json.arr?, Option.getD_some, List.map_cons] at ih ⊢
    rw [List.filterMap_cons_some hitem, ih]

section Reports

variable {record : JsonRecord} {lines : Json} {spans : List (ℕ × ℕ)} {bytes : List UInt8}

/-- A record that tells of a match is read as one, with the text that its lines are decoded to. -/
theorem Reports.ofRecord_eq (h : Reports record lines spans) (hlines : GivesBytes lines bytes) :
    ∃ path line, ofRecord record =
      .ok (some ⟨path, Text.decodeLossy bytes, line, spans.map numbered⟩) := by
  obtain ⟨data, hdata, ⟨path, hpath⟩, hline, ⟨n, hn⟩, items, hitems, hspans⟩ := h.data
  have hdescribes : Describes record data
      ⟨Path.ofString (String.ofList path), Text.decodeLossy bytes, .number n, spans.map numbered⟩ :=
    { isMatch := h.isMatch
      hasData := hdata
      path := ⟨path, hpath, rfl⟩
      text := hline ▸ hlines.givesText
      line := by rw [hn]; rfl
      spans := by rw [hitems, spansIn_arr hspans] }
  have hreadable : readable record := by
    have hsubmatches : submatches? record = some (.arr items) := by
      rw [submatches?, hdata]
      exact hitems
    rw [readable, hsubmatches]
    simp [listable]
  refine ⟨Path.ofString (String.ofList path), .number n, ?_⟩
  rw [MatchRecord.ofRecord_eq, if_pos hreadable, described?_eq_some_iff.mpr ⟨data, hdescribes⟩]

/-- The matched texts of a record are decoded from what its text is encoded to. -/
theorem matchedTexts_window_numbered (path : Path) (text : List Char) (line : RecordNumber) :
    (window ⟨path, text, line, spans.map numbered⟩).matchedTexts =
      spans.map fun (start, stop) => Text.decodeLossy (((Text.encode text).take stop).drop start) := by
  simp only [window, Window.matchedTexts, List.map_map]
  refine List.map_congr_left fun span _ => ?_
  exact congrArg Text.decodeLossy (slice_natCast _ span.1 span.2)

end Reports

/-- The record of a match in a file, given its lines and its spans. -/
def sampleRecord (lines : Json) (spans : List (ℕ × ℕ)) : JsonRecord :=
  [("type", .str "match"),
    ("data", .obj [("path", .obj [("text", .str "a")]), ("lines", lines), ("line_number", .int 1),
      ("submatches", .arr (spans.map fun span =>
        .obj [("start", .int span.1), ("end", .int span.2)]))])]

/-- The record tells of a match on the lines, with the spans. -/
theorem reports_sampleRecord (lines : Json) (spans : List (ℕ × ℕ)) :
    Reports (sampleRecord lines spans) lines spans := by
  refine ⟨rfl, _, rfl, ⟨_, .text rfl⟩, rfl, ⟨_, rfl⟩, _, rfl, ?_⟩
  rw [List.forall₂_map_left_iff, List.forall₂_same]
  exact fun span _ => ⟨rfl, rfl⟩

/-- The matches that a record tells of select the bytes that the tool matched, whatever spans up to a
bound they have, exactly if no ill-formed piece of one or two bytes ends before the bound. -/
theorem matchedTexts_ofRecord_iff {lines : Json} {bytes : List UInt8}
    (hlines : GivesBytes lines bytes) {bound : ℕ} (hbound : bound ≤ bytes.length) :
    (∀ record spans, Reports record lines spans →
      (∀ span ∈ spans, span.1 ≤ span.2 ∧ span.2 ≤ bound) →
      ∃ m, ofRecord record = .ok (some m) ∧
        m.window.matchedTexts = spans.map fun (start, stop) =>
          Text.decodeLossy ((bytes.take stop).drop start)) ↔
      ∀ place p, Text.BrokenAt bytes place p → p.length < 3 → bound ≤ place + p.length := by
  rw [← Text.KeepsLengths, ← Text.keepsParts_iff hbound]
  constructor
  · intro hmatches start stop hle hstop
    obtain ⟨m, hread, htexts⟩ := hmatches _ _ (reports_sampleRecord lines [(start, stop)])
      (by simpa using ⟨hle, hstop⟩)
    obtain ⟨path, line, hread'⟩ := (reports_sampleRecord lines [(start, stop)]).ofRecord_eq hlines
    obtain rfl := Option.some.inj (Except.ok.inj (hread.symm.trans hread'))
    rw [matchedTexts_window_numbered] at htexts
    exact List.head_eq_of_cons_eq htexts
  · intro hkeeps record spans hreports hspans
    obtain ⟨path, line, hread⟩ := hreports.ofRecord_eq hlines
    refine ⟨_, hread, ?_⟩
    rw [matchedTexts_window_numbered]
    exact List.map_congr_left fun span hspan =>
      hkeeps span.1 span.2 (hspans span hspan).1 (hspans span hspan).2

/-- Bytes with a character that breaks off after three bytes, and with one that begins none at their
end. -/
def sampleBytes : List UInt8 := [0xF0, 0x90, 0x80] ++ ([0x78] ++ ([0xFF] ++ []))

/-- The only ill-formed piece of fewer than three bytes ends with the sequence. -/
theorem keepsLengths_sampleBytes : Text.KeepsLengths sampleBytes 5 := by
  have hfirst : Text.Unfinished.StandsFor ⟨0, 0x90, 0xBF, 2⟩ [0xF0] :=
    Text.standsFor_of_firstByte (by decide)
  have hsecond := hfirst.append (b := 0x90) (by decide) rfl
  have hthird := hsecond.append (b := 0x80) (by decide) rfl
  have hbroken : Text.IsPiece [0xF0, 0x90, 0x80] ([0x78] ++ ([0xFF] ++ [])) none := by
    refine hthird.isBroken fun b hb => ?_
    obtain rfl := Option.some.inj hb
    decide
  have hwhole : Text.IsPiece [0x78] ([0xFF] ++ []) (some 'x') := by
    change [0x78] = Text.encodeChar 'x'
    decide
  have hlast : Text.IsPiece [0xFF] [] none := Text.isBroken_of_firstByte (by decide) []
  intro place p hplace hlt
  rw [sampleBytes, Text.brokenAt_append_iff hbroken] at hplace
  rcases hplace with ⟨-, -, rfl⟩ | ⟨place, rfl, hplace⟩
  · exact absurd hlt (by decide)
  · rw [Text.brokenAt_append_iff hwhole] at hplace
    rcases hplace with ⟨hnone, -⟩ | ⟨place, rfl, hplace⟩
    · cases hnone
    · rw [Text.brokenAt_append_iff hlast] at hplace
      rcases hplace with ⟨-, rfl, rfl⟩ | ⟨place, rfl, hplace⟩
      · decide
      · exact absurd hplace (Text.not_brokenAt_encode [] place p)

/-- On a line that is not UTF-8 all spans select what the tool matched, if each of its ill-formed pieces
has three bytes or ends with the line. -/
theorem matchedTexts_ofRecord_iff_sampleBytes :
    let lines : Json := .obj [("bytes", .str "8JCAeP8=")]
    GivesBytes lines sampleBytes ∧ 5 ≤ sampleBytes.length ∧
      ∀ record spans, Reports record lines spans →
        (∀ span ∈ spans, span.1 ≤ span.2 ∧ span.2 ≤ 5) →
        ∃ m, ofRecord record = .ok (some m) ∧
          m.window.matchedTexts = spans.map fun (start, stop) =>
            Text.decodeLossy ((sampleBytes.take stop).drop start) := by
  intro lines
  have hlines : GivesBytes lines sampleBytes :=
    .bytes (fun _ => nofun) rfl (by decide +kernel)
  have hbound : 5 ≤ sampleBytes.length := by decide
  exact ⟨hlines, hbound, (matchedTexts_ofRecord_iff hlines hbound).mpr keepsLengths_sampleBytes⟩

/-- Not all matches select what the tool matched: behind a byte that begins no character, which is
replaced by three, a span selects a part of the replacement character. -/
theorem not_forall_matchedTexts_ofRecord :
    ¬ ∀ lines bytes record spans, GivesBytes lines bytes → Reports record lines spans →
      (∀ span ∈ spans, span.1 ≤ span.2 ∧ span.2 ≤ bytes.length) →
      ∃ m, ofRecord record = .ok (some m) ∧
        m.window.matchedTexts = spans.map fun (start, stop) =>
          Text.decodeLossy ((bytes.take stop).drop start) := by
  intro hclaim
  let lines : Json := .obj [("bytes", .str "/3g=")]
  let spans : List (ℕ × ℕ) := [(1, 2)]
  have hlines : GivesBytes lines [0xFF, 0x78] :=
    .bytes (fun _ => nofun) rfl (by decide +kernel)
  have hreports := reports_sampleRecord lines spans
  obtain ⟨m, hread, htexts⟩ := hclaim _ _ _ _ hlines hreports (by decide)
  obtain ⟨path, line, hread'⟩ := hreports.ofRecord_eq hlines
  obtain rfl := Option.some.inj (Except.ok.inj (hread.symm.trans hread'))
  rw [matchedTexts_window_numbered] at htexts
  exact absurd htexts (by decide +kernel)

end MatchRecord

end ImportAtlas
