import Mathlib.Data.List.TakeWhile
import ImportAtlas.Proofs.Search.Reading
import ImportAtlas.Search.Tool

/-!
# The matches of a run

The matches that the tool writes are those of its records that have all that a match needs. A record
that lacks something is passed over, whatever else it holds, and so is a submatch. Only submatches
that are a number or true stop the reading: what is no list is gone through as if it were one.
-/

namespace ImportAtlas

namespace MatchRecord

/-- The spans of the submatches that have one, none for what is no list. -/
def spansIn (v : Option Json) : List (RecordNumber × RecordNumber) :=
  ((v.bind Json.arr?).getD []).filterMap span?

/-- Whether submatches can be gone through. All can but true and the numbers that are not zero. -/
def listable : Option Json → Bool
  | some (.int n) => n = 0
  | some (.float x) => x == 0.0
  | some (.bool b) => !b
  | _ => true

/-- The submatches of a record. -/
def submatches? (record : JsonRecord) : Option Json :=
  ((record.lookup "data").bind Json.obj?).bind fun data => data.lookup "submatches"

/-- The match that a record describes, whatever its submatches are. -/
def described? (record : JsonRecord) : Option MatchRecord :=
  if (record.lookup "type").bind Json.str? = some "match" then do
    let data ← (record.lookup "data").bind Json.obj?
    let path ← textField? (data.lookup "path")
    let text ← textField? (data.lookup "lines")
    let line ← (data.lookup "line_number").bind RecordNumber.ofJson?
    some ⟨Path.ofString (String.ofList path), text, line, spansIn (data.lookup "submatches")⟩
  else none

/-- A field gives a text: as such, or else in base64. -/
inductive GivesText : Option Json → List Char → Prop
  | text {fields : JsonRecord} {text : String} (given : fields.lookup "text" = some (.str text)) :
    GivesText (some (.obj fields)) text.toList
  | bytes {fields : JsonRecord} {encoded : String} {bytes : List UInt8}
    (missing : ∀ text, fields.lookup "text" ≠ some (.str text))
    (given : fields.lookup "bytes" = some (.str encoded))
    (decoded : Text.base64? encoded.toList = some bytes) :
    GivesText (some (.obj fields)) (Text.decodeLossy bytes)

/-- A record describes a match: it is of that type, and its data have a path, lines and the number
of the first of them. The spans are those that its submatches have. -/
structure Describes (record : JsonRecord) (data : JsonRecord) (m : MatchRecord) : Prop where
  isMatch : record.lookup "type" = some (.str "match")
  hasData : record.lookup "data" = some (.obj data)
  path : ∃ path, GivesText (data.lookup "path") path ∧ m.path = Path.ofString (String.ofList path)
  text : GivesText (data.lookup "lines") m.text
  line : (data.lookup "line_number").bind RecordNumber.ofJson? = some m.line
  spans : m.spans = spansIn (data.lookup "submatches")

/-- The text of a field is the one that it gives. -/
theorem textField?_eq_some_iff {v : Option Json} {text : List Char} :
    textField? v = some text ↔ GivesText v text := by
  constructor
  · intro h
    unfold textField? at h
    split at h
    · next fields =>
      split at h
      · next given => exact Option.some.inj h ▸ .text given
      · next missing =>
        split at h
        · next encoded given =>
          obtain ⟨bytes, decoded, rfl⟩ := Option.map_eq_some_iff.mp h
          exact .bytes missing given decoded
        · exact absurd h (by simp)
    · exact absurd h (by simp)
  · rintro (⟨given⟩ | ⟨missing, given, decoded⟩)
    · simp [textField?, given]
    · simp only [textField?, given, decoded, Option.map_some]

/-- The match of a record is the one that it describes. -/
theorem described?_eq_some_iff {record : JsonRecord} {m : MatchRecord} :
    described? record = some m ↔ ∃ data, Describes record data m := by
  have htype : (record.lookup "type").bind Json.str? = some "match" ↔
      record.lookup "type" = some (.str "match") := by
    cases record.lookup "type" with
    | none => simp
    | some v => cases v <;> simp [Json.str?]
  have hdata (data : JsonRecord) : (record.lookup "data").bind Json.obj? = some data ↔
      record.lookup "data" = some (.obj data) := by
    cases record.lookup "data" with
    | none => simp
    | some v => cases v <;> simp [Json.obj?]
  rw [described?]
  constructor
  · intro h
    split at h
    · next hmatch =>
      obtain ⟨data, hobj, path, hpath, text, htext, line, hline, hm⟩ :
        ∃ data, (record.lookup "data").bind Json.obj? = some data ∧
          ∃ path, textField? (data.lookup "path") = some path ∧
            ∃ text, textField? (data.lookup "lines") = some text ∧
              ∃ line, (data.lookup "line_number").bind RecordNumber.ofJson? = some line ∧
                some ⟨Path.ofString (String.ofList path), text, line,
                  spansIn (data.lookup "submatches")⟩ = some m := by
        simpa only [Option.bind_eq_bind, Option.bind_eq_some_iff] using h
      cases hm
      exact ⟨data, htype.mp hmatch, (hdata data).mp hobj,
        ⟨path, textField?_eq_some_iff.mp hpath, rfl⟩, textField?_eq_some_iff.mp htext, hline, rfl⟩
    · exact absurd h (by simp)
  · rintro ⟨data, h⟩
    obtain ⟨path, hpath, hm⟩ := h.path
    rw [if_pos (htype.mpr h.isMatch), (hdata data).mpr h.hasData]
    simp only [Option.bind_eq_bind, Option.bind_some, textField?_eq_some_iff.mpr hpath,
      textField?_eq_some_iff.mpr h.text, h.line, ← hm, ← h.spans]

/-- Whether the reading goes on after a record: it is no match, or its submatches can be gone
through. -/
def readable (record : JsonRecord) : Bool :=
  (described? record).isNone || listable (submatches? record)

/-- Submatches that can be gone through have the spans of those that are well formed. -/
theorem spansOf_eq (v : Option Json) :
    spansOf v = if listable v then .ok (spansIn v) else .error .submatchesNotAList := by
  cases v with
  | none => rfl
  | some v => cases v with
    | bool b => cases b <;> rfl
    | int n => by_cases h : n = 0 <;> simp [spansOf, listable, spansIn, Json.arr?, h]
    | float x => by_cases h : x == 0.0 <;> simp [spansOf, listable, spansIn, Json.arr?, h]
    | _ => rfl

/-- A record is read as the match that it describes, if its submatches can be gone through. -/
theorem ofRecord_eq (record : JsonRecord) :
    ofRecord record =
      if readable record then .ok (described? record) else .error .submatchesNotAList := by
  rw [readable]
  cases hdescribed : described? record with
  | some m =>
    obtain ⟨data, h⟩ := described?_eq_some_iff.mp hdescribed
    obtain ⟨path, hpath, hm⟩ := h.path
    have hsubmatches : submatches? record = data.lookup "submatches" := by
      rw [submatches?, h.hasData]
      rfl
    simp only [ofRecord, h.isMatch, h.hasData, textField?_eq_some_iff.mpr hpath,
      textField?_eq_some_iff.mpr h.text, h.line, hsubmatches, spansOf_eq]
    split
    · next hlist => simp [Except.map, hlist, ← hm, ← h.spans]
    · next hlist => simp [Except.map, hlist]
  | none =>
    have hnone {data : JsonRecord} {m : MatchRecord} (h : Describes record data m) : False := by
      rw [described?_eq_some_iff.mpr ⟨data, h⟩] at hdescribed
      cases hdescribed
    rw [if_pos (by simp), ofRecord]
    split
    · next data htype hdata =>
      split
      · next path text line hpath htext hline =>
        -- Nothing is missing, so the record describes a match after all.
        have hdescribes : Describes record data ⟨Path.ofString (String.ofList path), text, line,
            spansIn (data.lookup "submatches")⟩ :=
          ⟨htype, hdata, ⟨path, textField?_eq_some_iff.mp hpath, rfl⟩,
            textField?_eq_some_iff.mp htext, hline, rfl⟩
        exact (hnone hdescribes).elim
      · rfl
    · rfl

end MatchRecord

namespace ToolRun

open MatchRecord

/-- A record after others is read after them, and the reading stops at the first error. -/
theorem matchesOf_cons (record : JsonRecord) (records : List JsonRecord) :
    matchesOf (record :: records) =
      (ofRecord record).bind fun m => (matchesOf records).map fun ms => m.toList ++ ms := by
  simp only [matchesOf, List.mapM_cons, bind_assoc, pure_bind]
  cases ofRecord record with
  | error e => rfl
  | ok m =>
    cases records.mapM ofRecord with
    | error e => rfl
    | ok ms => cases m <;> rfl

/-- The matches among records are those that they describe, in order, if their submatches can be
gone through. -/
theorem matchesOf_eq (records : List JsonRecord) :
    matchesOf records =
      if records.all readable then .ok (records.filterMap described?)
      else .error .submatchesNotAList := by
  induction records with
  | nil => rfl
  | cons record records ih =>
    rw [matchesOf_cons, ofRecord_eq, ih, List.all_cons]
    cases readable record with
    | false => rfl
    | true =>
      cases records.all readable with
      | false => rfl
      | true => cases hdescribed : described? record <;> simp [Except.bind, Except.map, hdescribed]

/-- The records of a run are those of the lines of its whole output. -/
theorem records_eq (run : ToolRun) (hchunks : ∀ chunk ∈ run.chunks, chunk ≠ []) :
    run.records = recordsOf (Text.splitAt '\n' (Text.decodeLossy run.chunks.flatten)) := by
  have hall : run.chunks.takeWhile (fun c => !c.isEmpty) = run.chunks :=
    List.takeWhile_eq_self_iff.mpr (by simpa using hchunks)
  have hone : RecordStream.feedAll {} run.chunks = RecordStream.feed {} run.chunks.flatten :=
    RecordStream.feedAll_eq_feed _ List.not_mem_nil _
  rw [records, hall, hone]
  exact (RecordStream.feed_flush 0 run.chunks.flatten).1

/-- A search finds what the records of the whole output describe, in order, whatever the chunks,
the status of the run and its errors are. It does so exactly if the submatches of each match can
be gone through. -/
theorem search_found (run : ToolRun) (tree : FileTree) (target : Path)
    (htarget : tree.exists? target) (hstarts : run.starts)
    (hchunks : ∀ chunk ∈ run.chunks, chunk ≠ []) :
    let records := recordsOf (Text.splitAt '\n' (Text.decodeLossy run.chunks.flatten))
    (run.search tree target).found =
      if records.all readable then .ok (records.filterMap described?)
      else .error .submatchesNotAList := by
  intro records
  rw [search, if_pos htarget, outcome, if_pos hstarts]
  exact run.records_eq hchunks ▸ matchesOf_eq run.records

/-- The line of a match of the first character of a file, given its submatches. -/
def sampleLine (submatches : String) : List UInt8 :=
  Text.encode
    ("\x7b\x22type\x22:\x22match\x22,\x22data\x22:\x7b\x22path\x22:\x7b\x22text\x22:\x22a\x22\x7d," ++
      "\x22lines\x22:\x7b\x22text\x22:\x22x\x22\x7d,\x22line_number\x22:1,\x22submatches\x22:" ++
      submatches ++ "\x7d\x7d\n").toList

/-- A run that fails keeps the match that it gave in two chunks, with the span of the one
submatch that has a span. -/
theorem search_found_failed :
    let line := sampleLine "[7,\x7b\x22start\x22:0,\x22end\x22:1\x7d]"
    let run : ToolRun := { chunks := [line.take 40, line.drop 40], status := 2 }
    (run.search FileTree.empty (Path.ofString "/")).found =
      .ok [⟨Path.ofString "a", ['x'], .number 1, [(.number 0, .number 1)]⟩] :=
  (search_found _ _ _ (by decide +kernel) rfl (by decide +kernel)).trans (by decide +kernel)

/-- Submatches that are a number stop the search. -/
theorem not_forall_search_found :
    ¬ ∀ (run : ToolRun) (tree : FileTree) (target : Path), tree.exists? target → run.starts →
      (∀ chunk ∈ run.chunks, chunk ≠ []) →
      (run.search tree target).found =
        .ok ((recordsOf (Text.splitAt '\n' (Text.decodeLossy run.chunks.flatten))).filterMap
          described?) := by
  intro h
  have hfound := h { chunks := [sampleLine "5"] } FileTree.empty (Path.ofString "/")
    (by decide +kernel) rfl (by decide +kernel)
  exact absurd hfound (by decide +kernel)

end ToolRun

end ImportAtlas
