import ImportAtlas.Proofs.Text.Encoding

/-!
# Places in bytes

Encoding a text character by character, so many bytes stand before each of its places, and the bytes
between two places are those of the characters between them.

A text that was decoded with replacement characters is encoded again with three bytes for each of
them, while an ill-formed piece has one to three. So places counted in the first bytes stay where they
are in the new ones up to the end of the first piece that had fewer: up to there every part is decoded
to the same text as before, even a part that cuts a character or an ill-formed piece in two, and
beyond it some part is not.
-/

namespace ImportAtlas.Text

variable {p rest : List UInt8} {o : Option Char}

/-- The number of bytes before a place of a text. -/
def bytesBefore (text : List Char) (place : ℕ) : ℕ := (encode (text.take place)).length

/-- A text is encoded part by part. -/
theorem encode_append (front back : List Char) :
    encode (front ++ back) = encode front ++ encode back := List.flatMap_append

/-- What was encoded is decoded to the same text. -/
theorem decodeLossy_encode (text : List Char) : decodeLossy (encode text) = text := by
  rw [decodeLossy, decodes_iff.mp (decodes_map_some_iff.mpr rfl), replaceIllFormed, List.map_map]
  exact List.map_id text

/-- The bytes before a place are those of the characters before it. -/
theorem take_encode (text : List Char) (place : ℕ) :
    (encode text).take (bytesBefore text place) = encode (text.take place) := by
  conv_lhs => rw [← List.take_append_drop place text, encode_append, List.take_append_drop]
  exact List.take_left

/-- The bytes between two places are those of the characters between them. -/
theorem part_encode (text : List Char) (start stop : ℕ) :
    ((encode text).take (bytesBefore text stop)).drop (bytesBefore text start) =
      encode ((text.take stop).drop start) := by
  rw [take_encode]
  rcases Nat.le_total start stop with hle | hle
  · have hfront : text.take start = (text.take stop).take start := by
      rw [List.take_take, Nat.min_eq_left hle]
    conv_lhs => rw [← List.take_append_drop start (text.take stop), encode_append]
    rw [bytesBefore, hfront]
    exact List.drop_left
  · have hfront : text.take start = text.take stop ++ (text.take start).drop stop := by
      conv_lhs => rw [← List.take_append_drop stop (text.take start), List.take_take,
        Nat.min_eq_left hle]
    have hlength : (encode (text.take stop)).length ≤ bytesBefore text start := by
      rw [bytesBefore, hfront, encode_append, List.length_append]
      exact Nat.le_add_right _ _
    rw [List.drop_eq_nil_of_le hlength, List.drop_eq_nil_of_le]
    · rfl
    · exact Nat.le_trans (List.length_take_le stop text) hle

/-- The replacement character. -/
def replacement : Char := '\uFFFD'

/-- What stands in a text for a piece of it. -/
def shown (o : Option Char) : Char := o.getD replacement

/-- A piece of more than one byte begins a character. -/
theorem IsPiece.begins (h : IsPiece p rest o) : p.length = 1 ∨ ∃ c, p <+: encodeChar c := by
  cases o with
  | some c => exact .inr ⟨c, by rw [show p = encodeChar c from h]⟩
  | none => exact IsBroken.begins h

/-- No byte of a piece but the first begins a character. -/
theorem IsPiece.firstByte_tail (h : IsPiece p rest o) {b : UInt8} (hb : b ∈ p.tail) :
    firstByte b = .bad := by
  obtain ⟨first, tail, rfl⟩ := List.exists_cons_of_ne_nil h.ne_nil
  rcases h.begins with hlength | ⟨c, hc⟩
  · rw [List.length_cons, Nat.add_eq_right, List.length_eq_zero_iff] at hlength
    rw [hlength] at hb
    cases hb
  · rw [encodeChar_eq, List.cons_prefix_cons] at hc
    obtain ⟨hle, hlt⟩ := bounds_of_mem_lastBytes (hc.2.subset hb)
    rw [firstByte, if_neg (by omega), if_pos (by omega)]

/-- A piece stays one if what follows it begins as before or is left out. -/
theorem IsPiece.take (h : IsPiece p rest o) (n : ℕ) : IsPiece p (rest.take n) o := by
  cases o with
  | some c => exact h
  | none =>
    obtain ⟨hne, hbegins, hunfinished, hlongest⟩ : IsBroken p rest := h
    refine IsBroken.mk hne hbegins hunfinished fun b hb => hlongest b ?_
    rw [List.head?_take] at hb
    split at hb
    · cases hb
    · exact hb

/-- The beginning of a piece is ill formed if the rest of the piece is left out. -/
theorem IsPiece.isBroken_take (h : IsPiece p rest o) {n : ℕ} (hpos : 0 < n) (hlt : n < p.length) :
    IsBroken (p.take n) [] := by
  have hlength : (p.take n).length = n := by rw [List.length_take, Nat.min_eq_left (by omega)]
  obtain ⟨c, hc⟩ := h.begins.resolve_left (by omega)
  refine ⟨List.ne_nil_of_length_pos (by omega), .inr ⟨c, (List.take_prefix n p).trans hc⟩,
    fun d hd => ?_, by simp⟩
  -- A shorter character would begin the longer one.
  have hdc : d = c := encodeChar_prefix_free (hd ▸ (List.take_prefix n p).trans hc)
  have hle := hc.length_le
  rw [← hdc, ← hd] at hle
  omega

/-- An ill-formed piece has three bytes at most. -/
theorem IsBroken.length_le (h : IsBroken p rest) : p.length ≤ 3 := by
  rcases h.begins with hone | ⟨c, hc⟩
  · omega
  · have hle := hc.length_le
    have hne : p.length ≠ (encodeChar c).length := fun heq =>
      h.unfinished c (hc.eq_of_length heq)
    have hfour : (encodeChar c).length ≤ 4 := by
      simp only [encodeChar]
      split_ifs <;> simp
    omega

/-- A piece is decoded to what stands for it. -/
theorem decodeLossy_piece_append (h : IsPiece p rest o) :
    decodeLossy (p ++ rest) = shown o :: decodeLossy rest := by
  rw [decodeLossy, decodes_iff.mp (.cons h (decodes_decodePieces rest))]
  rfl

/-- Bytes that begin no character are replaced one by one. -/
theorem decodeLossy_bad_append {bytes : List UInt8} (h : ∀ b ∈ bytes, firstByte b = .bad) :
    decodeLossy (bytes ++ rest) = List.replicate bytes.length replacement ++ decodeLossy rest := by
  induction bytes with
  | nil => rfl
  | cons b bytes ih =>
    obtain ⟨hb, hbytes⟩ := List.forall_mem_cons.mp h
    have hpiece : IsPiece [b] (bytes ++ rest) none := isBroken_of_firstByte hb _
    rw [List.cons_append, ← List.singleton_append, decodeLossy_piece_append hpiece, ih hbytes]
    rfl

/-- What is decoded of the part of a piece between two places. A part from the start on is one piece;
in any other part each byte is ill formed. -/
def partShown (length : ℕ) (c : Char) (start stop : ℕ) : List Char :=
  if start = 0 then
    if stop = 0 then [] else if stop < length then [replacement] else [c]
  else List.replicate (min stop length - start) replacement

/-- A part of a replacement character from its start on is replaced as a whole. -/
theorem partShown_none (length start stop : ℕ) :
    partShown length (shown none) start stop =
      if start = 0 then if stop = 0 then [] else [replacement]
      else List.replicate (min stop length - start) replacement := by
  rw [partShown, show shown none = replacement from rfl, ite_self]

/-- The part of a sequence between two places is decoded to what is decoded of the part in its first
piece and of the part behind it. -/
theorem decodeLossy_part_append (h : IsPiece p rest o) (start stop : ℕ) :
    decodeLossy (((p ++ rest).take stop).drop start) =
      partShown p.length (shown o) start stop ++
        decodeLossy ((rest.take (stop - p.length)).drop (start - p.length)) := by
  rw [partShown]
  rcases Nat.eq_zero_or_pos start with rfl | hstart
  · rw [if_pos rfl, List.drop_zero, Nat.zero_sub, List.drop_zero]
    split_ifs with hstop hlt
    · rw [hstop, List.take_zero, Nat.zero_sub, List.take_zero]
      rfl
    · have hpiece : IsPiece (p.take stop) [] none := h.isBroken_take (by omega) hlt
      rw [List.take_append_of_le_length (by omega), Nat.sub_eq_zero_of_le (by omega), List.take_zero,
        ← List.append_nil (p.take stop), decodeLossy_piece_append hpiece]
      rfl
    · rw [List.take_append, List.take_of_length_le (by omega),
        decodeLossy_piece_append (h.take (stop - p.length))]
      rfl
  · have hbad : ∀ b ∈ (p.take stop).drop start, firstByte b = .bad := fun b hb => by
      have hmem : b ∈ p.drop start := ((List.take_sublist stop p).drop start).subset hb
      refine h.firstByte_tail ?_
      rw [← List.drop_one]
      exact List.drop_subset_drop_left p hstart hmem
    have hbehind : ((rest.take (stop - p.length)).drop (start - (p.take stop).length)) =
        (rest.take (stop - p.length)).drop (start - p.length) := by
      rcases Nat.le_total p.length stop with hle | hle
      · rw [List.take_of_length_le hle]
      · rw [Nat.sub_eq_zero_of_le hle, List.take_zero, List.drop_nil, List.drop_nil]
    rw [if_neg (by omega), List.take_append, List.drop_append, hbehind, decodeLossy_bad_append hbad,
      List.length_drop, List.length_take]

/-- An ill-formed piece of a sequence, with the place where it begins. -/
inductive BrokenAt : List UInt8 → ℕ → List UInt8 → Prop
  | here {p rest : List UInt8} (hp : IsBroken p rest) : BrokenAt (p ++ rest) 0 p
  | later {p rest q : List UInt8} {o : Option Char} {place : ℕ} (hp : IsPiece p rest o)
    (h : BrokenAt rest place q) : BrokenAt (p ++ rest) (p.length + place) q

/-- An ill-formed piece is the first piece of a sequence, or one of those behind it. -/
theorem brokenAt_append_iff (h : IsPiece p rest o) {place : ℕ} {q : List UInt8} :
    BrokenAt (p ++ rest) place q ↔
      (o = none ∧ place = 0 ∧ q = p) ∨ ∃ place', place = p.length + place' ∧ BrokenAt rest place' q := by
  constructor
  · intro hbroken
    generalize hbytes : p ++ rest = bytes at hbroken
    cases hbroken with
    | here hp =>
      have hpiece : IsPiece _ _ none := hp
      obtain ⟨rfl, rfl, rfl⟩ := h.eq_of_append_eq hpiece hbytes
      exact .inl ⟨rfl, rfl, rfl⟩
    | later hp hbroken =>
      obtain ⟨rfl, rfl, rfl⟩ := h.eq_of_append_eq hp hbytes
      exact .inr ⟨_, rfl, hbroken⟩
  · rintro (⟨rfl, rfl, rfl⟩ | ⟨place', rfl, hbroken⟩)
    · exact .here h
    · exact .later h hbroken

/-- The bytes of a text have no ill-formed piece. -/
theorem not_brokenAt_encode (s : List Char) (place : ℕ) (q : List UInt8) :
    ¬ BrokenAt (encode s) place q := by
  induction s generalizing place with
  | nil =>
    intro hbroken
    generalize hbytes : encode [] = bytes at hbroken
    cases hbroken with
    | here hp => exact hp.ne_nil (List.append_eq_nil_iff.mp hbytes.symm).1
    | later hp _ => exact hp.ne_nil (List.append_eq_nil_iff.mp hbytes.symm).1
  | cons c s ih =>
    have hpiece : IsPiece (encodeChar c) (encode s) (some c) := rfl
    rw [encode, List.flatMap_cons, ← encode, brokenAt_append_iff hpiece]
    rintro (⟨hnone, -⟩ | ⟨place', -, hbroken⟩)
    · cases hnone
    · exact ih place' hbroken

/-- Replacing ill-formed pieces keeps the places up to a bound: what is decoded between two of them
is the same as before. -/
def KeepsParts (bytes : List UInt8) (bound : ℕ) : Prop :=
  ∀ start stop, start ≤ stop → stop ≤ bound →
    decodeLossy (((encode (decodeLossy bytes)).take stop).drop start) =
      decodeLossy ((bytes.take stop).drop start)

/-- No ill-formed piece of fewer bytes than the replacement character ends before a bound. -/
def KeepsLengths (bytes : List UInt8) (bound : ℕ) : Prop :=
  ∀ place p, BrokenAt bytes place p → p.length < 3 → bound ≤ place + p.length

/-- What is decoded and encoded again is decoded part by part, as what stands for its first piece. -/
theorem decodeLossy_part_encode (h : IsPiece p rest o) (start stop : ℕ) :
    let length := (encodeChar (shown o)).length
    decodeLossy (((encode (decodeLossy (p ++ rest))).take stop).drop start) =
      partShown length (shown o) start stop ++
        decodeLossy (((encode (decodeLossy rest)).take (stop - length)).drop (start - length)) := by
  have hagain : encode (decodeLossy (p ++ rest)) =
      encodeChar (shown o) ++ encode (decodeLossy rest) := by
    rw [decodeLossy_piece_append h, encode, List.flatMap_cons, ← encode]
  have hpiece : IsPiece (encodeChar (shown o)) (encode (decodeLossy rest)) (some (shown o)) := rfl
  rw [hagain]
  exact decodeLossy_part_append hpiece start stop

/-- A piece that is as long as what stands for it leaves the places behind it. -/
theorem keepsParts_append_of_length_eq (h : IsPiece p rest o)
    (hlength : (encodeChar (shown o)).length = p.length) (bound : ℕ) :
    KeepsParts (p ++ rest) bound ↔ KeepsParts rest (bound - p.length) := by
  have hcut (start stop : ℕ) :
      decodeLossy (((encode (decodeLossy (p ++ rest))).take stop).drop start) =
          decodeLossy (((p ++ rest).take stop).drop start) ↔
        decodeLossy (((encode (decodeLossy rest)).take (stop - p.length)).drop (start - p.length)) =
          decodeLossy ((rest.take (stop - p.length)).drop (start - p.length)) := by
    rw [decodeLossy_part_append h, decodeLossy_part_encode h, hlength, List.append_cancel_left_eq]
  constructor
  · intro hkeeps start stop hle hstop
    rcases Nat.eq_zero_or_pos stop with rfl | hpos
    · simp
    · have hpart := (hcut _ _).mp
        (hkeeps (p.length + start) (p.length + stop) (by omega) (by omega))
      rwa [Nat.add_sub_cancel_left, Nat.add_sub_cancel_left] at hpart
  · intro hkeeps start stop hle hstop
    exact (hcut start stop).mpr (hkeeps _ _ (by omega) (by omega))

/-- Any bytes are decoded to something. -/
theorem decodeLossy_ne_nil {bytes : List UInt8} (h : bytes ≠ []) : decodeLossy bytes ≠ [] := by
  have hdecodes := decodes_decodePieces bytes
  rw [decodeLossy, replaceIllFormed, ne_eq, List.map_eq_nil_iff]
  intro hnone
  rw [hnone] at hdecodes
  cases hdecodes
  exact h rfl

/-- An ill-formed piece of fewer bytes than the replacement character keeps no place behind its
end. -/
theorem keepsParts_append_of_length_lt (h : IsBroken p rest) (hlength : p.length < 3) {bound : ℕ}
    (hbound : bound ≤ (p ++ rest).length) : KeepsParts (p ++ rest) bound ↔ bound ≤ p.length := by
  have hpiece : IsPiece p rest none := h
  have hthree : (encodeChar (shown none)).length = 3 := by decide
  constructor
  · intro hkeeps
    by_contra hlt
    -- The piece and the byte behind it show two pieces, but stay within the replacement character.
    have hpart := hkeeps 0 (p.length + 1) (Nat.zero_le _) (by omega)
    have hnext : decodeLossy ((rest.take 1).drop (0 - p.length)) ≠ [] := by
      refine decodeLossy_ne_nil ?_
      rw [List.length_append] at hbound
      rw [Nat.zero_sub, List.drop_zero]
      exact List.ne_nil_of_length_pos (by rw [List.length_take]; omega)
    have hwithin : p.length + 1 - 3 = 0 := by omega
    rw [decodeLossy_part_append hpiece, decodeLossy_part_encode hpiece, hthree, hwithin,
      Nat.add_sub_cancel_left, partShown_none, partShown_none, if_pos rfl, if_pos rfl,
      List.append_cancel_left_eq, List.take_zero, List.drop_nil] at hpart
    exact hnext hpart.symm
  · intro hle start stop hstart hstop
    have hwithin : stop - p.length = 0 := by omega
    have hwithin' : stop - 3 = 0 := by omega
    rw [decodeLossy_part_append hpiece, decodeLossy_part_encode hpiece, hthree, hwithin, hwithin',
      List.take_zero, List.take_zero, List.drop_nil, List.drop_nil, partShown_none, partShown_none,
      Nat.min_eq_left (by omega), Nat.min_eq_left (by omega)]

/-- A piece that is as long as what stands for it is no ill-formed piece of fewer bytes. -/
theorem keepsLengths_append_of_length_eq (h : IsPiece p rest o)
    (hlength : (encodeChar (shown o)).length = p.length) (bound : ℕ) :
    KeepsLengths (p ++ rest) bound ↔ KeepsLengths rest (bound - p.length) := by
  constructor
  · intro hkeeps place q hbroken hlt
    have hle := hkeeps _ q (.later h hbroken) hlt
    omega
  · intro hkeeps place q hbroken hlt
    rcases (brokenAt_append_iff h).mp hbroken with ⟨rfl, -, rfl⟩ | ⟨place', rfl, hbehind⟩
    · have hthree : (encodeChar (shown none)).length = 3 := by decide
      omega
    · have hle := hkeeps place' q hbehind hlt
      omega

/-- A piece has as many bytes as what stands for it, or is ill formed and has fewer. -/
theorem IsPiece.length_eq_or_lt (h : IsPiece p rest o) :
    (encodeChar (shown o)).length = p.length ∨ o = none ∧ p.length < 3 := by
  cases o with
  | some c =>
    have hp : p = encodeChar c := h
    exact .inl (by rw [hp, shown, Option.getD_some])
  | none =>
    have hle := IsBroken.length_le h
    have hthree : (encodeChar (shown none)).length = 3 := by decide
    rcases Nat.lt_or_eq_of_le hle with hlt | heq
    · exact .inr ⟨rfl, hlt⟩
    · exact .inl (by omega)

/-- Replacing ill-formed pieces keeps the places up to a bound exactly if no ill-formed piece of
fewer bytes than the replacement character ends before it. -/
theorem keepsParts_iff {bytes : List UInt8} {bound : ℕ} (hbound : bound ≤ bytes.length) :
    KeepsParts bytes bound ↔ KeepsLengths bytes bound := by
  have hdecodes := decodes_decodePieces bytes
  generalize decodePieces bytes = pieces at hdecodes
  induction hdecodes generalizing bound with
  | nil =>
    have hnone : bound = 0 := by simpa using hbound
    subst hnone
    refine ⟨fun _ _ _ _ _ => Nat.zero_le _, fun _ start stop hle hstop => ?_⟩
    rw [Nat.le_zero.mp hstop, List.take_zero, List.take_zero]
  | @cons p rest o pieces hp _ ih =>
    rcases hp.length_eq_or_lt with hlength | ⟨rfl, hlt⟩
    · rw [keepsParts_append_of_length_eq hp hlength, keepsLengths_append_of_length_eq hp hlength]
      refine ih ?_
      rw [List.length_append] at hbound
      omega
    · rw [keepsParts_append_of_length_lt hp hlt hbound]
      constructor
      · intro hle place q hbroken _
        rcases (brokenAt_append_iff hp).mp hbroken with ⟨-, rfl, rfl⟩ | ⟨place', rfl, -⟩
        · omega
        · omega
      · intro hkeeps
        simpa using hkeeps 0 p (.here hp) hlt

end ImportAtlas.Text
