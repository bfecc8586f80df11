import ImportAtlas.Proofs.Text.Encoding
import ImportAtlas.Proofs.Text.Splitting

/-!
# Decoding in parts

Bytes are decoded one after the other, so a sequence can be cut anywhere if the character that was
begun is kept. A newline byte is a piece of its own wherever it stands, and no other piece is a
newline: cutting a text into lines and cutting its bytes at the newline bytes come to the same.
-/

namespace ImportAtlas.Text

/-- Decoding a longer sequence goes on where the decoding of its beginning stops. -/
theorem decodeChunk_append (begun : Option Unfinished) (front back : List UInt8) :
    decodeChunk begun (front ++ back) =
      ((decodeChunk begun front).1 ++ (decodeChunk (decodeChunk begun front).2 back).1,
        (decodeChunk (decodeChunk begun front).2 back).2) := by
  induction front generalizing begun with
  | nil => rfl
  | cons b front ih => simp only [List.cons_append, decodeChunk, ih, List.append_assoc]

/-- Replacing ill-formed pieces goes piece by piece. -/
@[simp] theorem replaceIllFormed_append (front back : List (Option Char)) :
    replaceIllFormed (front ++ back) = replaceIllFormed front ++ replaceIllFormed back :=
  List.map_append

/-- A character that is well formed is kept, and the replacement character is no newline. -/
theorem newline_mem_replaceIllFormed {pieces : List (Option Char)} :
    '\n' ∈ replaceIllFormed pieces ↔ some '\n' ∈ pieces := by
  rw [replaceIllFormed, List.mem_map]
  constructor
  · rintro ⟨_ | c, hmem, heq⟩
    · exact absurd heq (by decide)
    · rwa [← heq]
  · exact fun hmem => ⟨some '\n', hmem, rfl⟩

/-- What the end of a sequence adds holds no newline. -/
theorem newline_notMem_decodeEnd (begun : Option Unfinished) :
    '\n' ∉ replaceIllFormed (decodeEnd begun) := by
  cases begun <;> simp [replaceIllFormed, decodeEnd]

/-- The byte of a newline. -/
def newlineByte : UInt8 := 10

/-- A newline is one byte. -/
theorem encodeChar_newline : encodeChar '\n' = [newlineByte] := by decide

/-- No piece is a newline but that byte. -/
theorem Decodes.newlineByte_mem {bytes : List UInt8} {pieces : List (Option Char)}
    (h : Decodes bytes pieces) (hmem : some '\n' ∈ pieces) : newlineByte ∈ bytes := by
  induction h with
  | nil => cases hmem
  | cons hp _ ih =>
    rw [List.mem_append]
    rcases List.mem_cons.mp hmem with rfl | hmem
    · rw [show _ = encodeChar '\n' from hp, encodeChar_newline]
      exact .inl List.mem_cons_self
    · exact .inr (ih hmem)

/-- No character goes on with a newline byte. -/
theorem not_newlineByte_continues {p : List UInt8} (hp : p ≠ []) (c : Char) :
    ¬ p ++ [newlineByte] <+: encodeChar c := by
  intro hprefix
  obtain ⟨b, p, rfl⟩ := List.exists_cons_of_ne_nil hp
  rw [encodeChar_eq, List.cons_append, List.cons_prefix_cons] at hprefix
  have hmem : newlineByte ∈ lastBytes (trailing c.toNat) c.toNat :=
    hprefix.2.subset (List.mem_append_right _ List.mem_cons_self)
  exact absurd (bounds_of_mem_lastBytes hmem).1 (by decide)

/-- A piece stays one before a newline byte. -/
theorem IsPiece.append_newlineByte {p rest : List UInt8} {o : Option Char} (h : IsPiece p rest o)
    (back : List UInt8) : IsPiece p (rest ++ newlineByte :: back) o := by
  cases o with
  | some c => exact h
  | none =>
    obtain ⟨hne, hbegins, hunfinished, hlongest⟩ : IsBroken p rest := h
    refine IsBroken.mk hne hbegins hunfinished fun b hb => ?_
    cases rest with
    | nil =>
      cases hb
      exact not_newlineByte_continues hne
    | cons d rest => exact hlongest b hb

/-- The bytes before a newline byte and those behind it are cut apart. -/
theorem Decodes.append_newlineByte {front back : List UInt8} {before behind : List (Option Char)}
    (hfront : Decodes front before) (hback : Decodes back behind) :
    Decodes (front ++ newlineByte :: back) (before ++ some '\n' :: behind) := by
  induction hfront with
  | nil =>
    have hwhole := hback.whole '\n'
    rwa [encodeChar_newline] at hwhole
  | cons hp _ ih =>
    rw [List.append_assoc]
    exact .cons (hp.append_newlineByte back) ih

/-- Bytes without a newline byte are decoded to one line. -/
theorem newline_notMem_decodeLossy {bytes : List UInt8} (h : newlineByte ∉ bytes) :
    '\n' ∉ decodeLossy bytes := fun hmem =>
  h ((decodes_decodePieces bytes).newlineByte_mem (newline_mem_replaceIllFormed.mp hmem))

/-- The bytes before a newline byte and those behind it are decoded apart. -/
theorem decodeLossy_append_newlineByte (front back : List UInt8) :
    decodeLossy (front ++ newlineByte :: back) = decodeLossy front ++ '\n' :: decodeLossy back := by
  have hpieces := (decodes_decodePieces front).append_newlineByte (decodes_decodePieces back)
  rw [decodeLossy, decodes_iff.mp hpieces, replaceIllFormed_append]
  rfl

/-- Pieces that are joined by newline bytes are decoded one by one. -/
theorem decodeLossy_intercalate {pieces : List (List UInt8)} (hne : pieces ≠ []) :
    decodeLossy ([newlineByte].intercalate pieces) =
      ['\n'].intercalate (pieces.map decodeLossy) := by
  induction pieces with
  | nil => exact absurd rfl hne
  | cons piece pieces ih =>
    cases pieces with
    | nil => simp
    | cons second pieces =>
      rw [List.intercalate_cons_cons, List.append_assoc, List.singleton_append,
        decodeLossy_append_newlineByte, ih (List.cons_ne_nil _ _), List.map_cons, List.map_cons,
        List.map_cons, List.intercalate_cons_cons, List.append_assoc, List.singleton_append]

/-- The lines of a decoded text are the decoded pieces between its newline bytes. -/
theorem splitAt_decodeLossy (bytes : List UInt8) :
    splitAt '\n' (decodeLossy bytes) = (splitAt newlineByte bytes).map decodeLossy := by
  have hne := splitAt_ne_nil newlineByte bytes
  conv_lhs => rw [← intercalate_splitAt newlineByte bytes, decodeLossy_intercalate hne]
  refine splitAt_intercalate (by simpa using hne) fun line hline => ?_
  obtain ⟨piece, hpiece, rfl⟩ := List.mem_map.mp hline
  exact newline_notMem_decodeLossy (notMem_of_mem_splitAt hpiece)

end ImportAtlas.Text
