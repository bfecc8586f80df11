import Mathlib.Algebra.Group.Nat.Defs
import Mathlib.Data.List.Infix
import Mathlib.Order.Nat
import Mathlib.Tactic.SplitIfs
import ImportAtlas.Text.Utf8

/-!
# Decoding against encoding

What decoding should give is said by the encoding alone: the bytes are cut, from the first on, into
encodings of characters and ill-formed pieces, where an ill-formed piece is a single byte or the
longest run of bytes with which the encoding of some character begins. A character in the making
stands for the bytes read so far if it allows exactly the characters whose encodings begin with
them.
-/

namespace ImportAtlas.Text

/-- The first byte of a character, by its number. -/
def lead (n : ℕ) : ℕ :=
  if n < 0x80 then n
  else if n < 0x800 then 0xC0 + n / 0x40
  else if n < 0x10000 then 0xE0 + n / 0x1000
  else 0xF0 + n / 0x40000

/-- The number of bytes that follow the first one. -/
def trailing (n : ℕ) : ℕ :=
  if n < 0x80 then 0 else if n < 0x800 then 1 else if n < 0x10000 then 2 else 3

/-- The last bytes of a character, each with six bits of its number. -/
def lastBytes : ℕ → ℕ → List UInt8
  | 0, _ => []
  | k + 1, n => UInt8.ofNat (0x80 + n / 0x40 ^ k % 0x40) :: lastBytes k n

/-- There are as many last bytes as asked for. -/
@[simp] theorem length_lastBytes (k n : ℕ) : (lastBytes k n).length = k := by
  induction k with
  | zero => rfl
  | succ k ih => rw [lastBytes, List.length_cons, ih]

/-- No byte but the first is in the ASCII range or begins a character. -/
theorem bounds_of_mem_lastBytes {k n : ℕ} {b : UInt8} (h : b ∈ lastBytes k n) :
    0x80 ≤ b.toNat ∧ b.toNat < 0xC0 := by
  induction k with
  | zero => cases h
  | succ k ih =>
    rcases List.mem_cons.mp h with rfl | h
    · rw [UInt8.toNat_ofNat']
      omega
    · exact ih h

/-- A character is its first byte and the others. -/
theorem encodeChar_eq (c : Char) :
    encodeChar c = UInt8.ofNat (lead c.toNat) :: lastBytes (trailing c.toNat) c.toNat := by
  simp only [encodeChar, lead, trailing]
  split_ifs <;> simp [lastBytes]

/-- The number of a character. -/
theorem toNat_lt (c : Char) : c.toNat < 0x110000 := by
  have hvalid := c.valid
  simp only [UInt32.isValidChar, Nat.isValidChar] at hvalid
  have : c.toNat = c.val.toNat := rfl
  omega

/-- The first byte is one. -/
theorem toNat_lead (c : Char) : (UInt8.ofNat (lead c.toNat)).toNat = lead c.toNat := by
  have hlt := toNat_lt c
  rw [UInt8.toNat_ofNat', lead]
  split_ifs <;> omega

/-- The first byte tells how many follow it. -/
theorem trailing_eq {c d : Char} (h : lead c.toNat = lead d.toNat) :
    trailing c.toNat = trailing d.toNat := by
  have hc := toNat_lt c
  have hd := toNat_lt d
  simp only [lead] at h
  simp only [trailing]
  split_ifs at h ⊢ <;> omega

/-- The last bytes of a number keep its last bits. -/
theorem mod_eq_of_lastBytes_eq {k m n : ℕ} (h : lastBytes k m = lastBytes k n) :
    m % 0x40 ^ k = n % 0x40 ^ k := by
  induction k with
  | zero => simp [Nat.mod_one]
  | succ k ih =>
    obtain ⟨hbyte, hrest⟩ := List.cons.inj h
    have hbits : m / 0x40 ^ k % 0x40 = n / 0x40 ^ k % 0x40 := by
      have := congrArg UInt8.toNat hbyte
      rw [UInt8.toNat_ofNat', UInt8.toNat_ofNat'] at this
      omega
    rw [Nat.mod_pow_succ, Nat.mod_pow_succ, ih hrest, hbits]

/-- No character begins with another one. -/
theorem encodeChar_prefix_free {c d : Char} (h : encodeChar c <+: encodeChar d) : c = d := by
  rw [encodeChar_eq, encodeChar_eq, List.cons_prefix_cons] at h
  have hlead : lead c.toNat = lead d.toNat := by
    rw [← toNat_lead c, ← toNat_lead d, h.1]
  have htrailing := trailing_eq hlead
  have hlast := h.2.eq_of_length (by simp [htrailing])
  rw [htrailing] at hlast
  have hmod := mod_eq_of_lastBytes_eq hlast
  have hnumber : c.toNat = d.toNat := by
    simp only [trailing] at htrailing hmod
    simp only [lead] at hlead
    split_ifs at hmod htrailing hlead <;> omega
  exact Char.ext (UInt32.toNat_inj.mp hnumber)

/-- Bytes that begin a character and do not finish it, the longest run of them, or a single byte
with which none begins. -/
structure IsBroken (p rest : List UInt8) : Prop where
  ne_nil : p ≠ []
  begins : p.length = 1 ∨ ∃ c, p <+: encodeChar c
  unfinished : ∀ c, p ≠ encodeChar c
  longest : ∀ b ∈ rest.head?, ∀ c, ¬ p ++ [b] <+: encodeChar c

/-- A piece, given what follows it: a character, or an ill-formed piece for none. -/
def IsPiece (p rest : List UInt8) : Option Char → Prop
  | some c => p = encodeChar c
  | none => IsBroken p rest

/-- Bytes are cut into pieces. -/
inductive Decodes : List UInt8 → List (Option Char) → Prop
  | nil : Decodes [] []
  | cons {p rest : List UInt8} {o : Option Char} {pieces : List (Option Char)}
    (hp : IsPiece p rest o) (h : Decodes rest pieces) : Decodes (p ++ rest) (o :: pieces)

/-- A character begins a sequence. -/
theorem Decodes.whole (c : Char) {rest : List UInt8} {pieces : List (Option Char)}
    (h : Decodes rest pieces) : Decodes (encodeChar c ++ rest) (some c :: pieces) :=
  .cons (show IsPiece (encodeChar c) rest (some c) from rfl) h

/-- An ill-formed piece begins a sequence. -/
theorem Decodes.broken {p rest : List UInt8} {pieces : List (Option Char)} (hp : IsBroken p rest)
    (h : Decodes rest pieces) : Decodes (p ++ rest) (none :: pieces) :=
  .cons (show IsPiece p rest none from hp) h

/-- The least number of a character in the making. -/
def Unfinished.low (u : Unfinished) : ℕ := (u.value * 0x40 + (u.least - 0x80)) * 0x40 ^ u.more

/-- The number after the greatest one of a character in the making. -/
def Unfinished.high (u : Unfinished) : ℕ :=
  (u.value * 0x40 + (u.greatest - 0x80) + 1) * 0x40 ^ u.more

/-- A character in the making stands for the bytes read so far: it can become the characters that
begin with them, and each number between its bounds is one. -/
structure Unfinished.StandsFor (u : Unfinished) (p : List UInt8) : Prop where
  ne_nil : p ≠ []
  le_least : 0x80 ≤ u.least
  least_le : u.least ≤ u.greatest
  greatest_le : u.greatest ≤ 0xBF
  isValid : ∀ n, u.low ≤ n → n < u.high → n.isValidChar
  bounds : ∀ c, p <+: encodeChar c → u.low ≤ c.toNat ∧ c.toNat < u.high
  encode_eq : ∀ c : Char, u.low ≤ c.toNat → c.toNat < u.high →
    encodeChar c = p ++ lastBytes (u.more + 1) c.toNat

/-- The bytes that begin characters of two, three and four bytes, and what they leave to be read. -/
theorem start_cases {b : UInt8} {u : Unfinished} (h : firstByte b = .start u) :
    (0xC2 ≤ b.toNat ∧ b.toNat < 0xE0 ∧ u = ⟨b.toNat - 0xC0, 0x80, 0xBF, 0⟩) ∨
    (0xE0 ≤ b.toNat ∧ b.toNat < 0xF0 ∧ u = ⟨b.toNat - 0xE0, if b.toNat = 0xE0 then 0xA0 else 0x80,
      if b.toNat = 0xED then 0x9F else 0xBF, 1⟩) ∨
    (0xF0 ≤ b.toNat ∧ b.toNat < 0xF5 ∧ u = ⟨b.toNat - 0xF0, if b.toNat = 0xF0 then 0x90 else 0x80,
      if b.toNat = 0xF4 then 0x8F else 0xBF, 2⟩) := by
  rw [firstByte] at h
  split at h
  · cases h
  split at h
  · cases h
  split at h
  · exact .inl ⟨by omega, ‹_›, (FirstByte.start.inj h).symm⟩
  split at h
  · exact .inr (.inl ⟨by omega, ‹_›, (FirstByte.start.inj h).symm⟩)
  split at h
  · exact .inr (.inr ⟨by omega, ‹_›, (FirstByte.start.inj h).symm⟩)
  · cases h

/-- The next byte of a character that was just begun lies in the range of all such bytes. -/
theorem range_of_firstByte {b : UInt8} {u : Unfinished} (h : firstByte b = .start u) :
    0x80 ≤ u.least ∧ u.least ≤ u.greatest ∧ u.greatest ≤ 0xBF := by
  rcases start_cases h with ⟨-, -, rfl⟩ | ⟨-, -, rfl⟩ | ⟨-, -, rfl⟩
  · exact ⟨Nat.le_refl _, by simp, Nat.le_refl _⟩
  all_goals
    dsimp only
    split_ifs <;> omega

/-- A character that was just begun becomes one with as many bytes as it asks for. -/
theorem trailing_of_firstByte {b : UInt8} {u : Unfinished} (h : firstByte b = .start u) {n : ℕ}
    (hlow : u.low ≤ n) (hhigh : n < u.high) : n.isValidChar ∧ trailing n = u.more + 1 := by
  simp only [Unfinished.low] at hlow
  simp only [Unfinished.high] at hhigh
  simp only [trailing, Nat.isValidChar]
  rcases start_cases h with ⟨hle, hlt, rfl⟩ | ⟨hle, hlt, rfl⟩ | ⟨hle, hlt, rfl⟩
  all_goals dsimp only at hlow hhigh ⊢
  · constructor
    · omega
    · split_ifs <;> omega
  all_goals
    split_ifs at hlow hhigh
    all_goals
      constructor
      · omega
      · split_ifs <;> omega

/-- The bounds of a character that was just begun are those of its first byte. -/
theorem eq_lead_iff_of_firstByte {b : UInt8} {u : Unfinished} (h : firstByte b = .start u) {n : ℕ}
    (hn : n.isValidChar) : b.toNat = lead n ↔ u.low ≤ n ∧ n < u.high := by
  simp only [Unfinished.low, Unfinished.high, lead]
  simp only [Nat.isValidChar] at hn
  rcases start_cases h with ⟨hle, hlt, rfl⟩ | ⟨hle, hlt, rfl⟩ | ⟨hle, hlt, rfl⟩
  all_goals
    dsimp only
    split_ifs <;> omega

/-- The number of a character is one of those that characters have. -/
theorem isValidChar_toNat (c : Char) : c.toNat.isValidChar := c.valid

/-- A byte begins a character if it is the first one. -/
theorem singleton_prefix_iff {b : UInt8} {c : Char} :
    [b] <+: encodeChar c ↔ b.toNat = lead c.toNat := by
  rw [encodeChar_eq, List.cons_prefix_cons, ← toNat_lead, UInt8.toNat_inj, UInt8.ofNat_toNat]
  simp only [List.nil_prefix, and_true]

/-- A first byte stands for the characters that begin with it. -/
theorem standsFor_of_firstByte {b : UInt8} {u : Unfinished} (h : firstByte b = .start u) :
    u.StandsFor [b] := by
  obtain ⟨hleast, hle, hgreatest⟩ := range_of_firstByte h
  refine ⟨List.cons_ne_nil _ _, hleast, hle, hgreatest,
    fun n hlow hhigh => (trailing_of_firstByte h hlow hhigh).1,
    fun c hc => (eq_lead_iff_of_firstByte h (isValidChar_toNat c)).mp (singleton_prefix_iff.mp hc),
    fun c hlow hhigh => ?_⟩
  have hb := (eq_lead_iff_of_firstByte h (isValidChar_toNat c)).mpr ⟨hlow, hhigh⟩
  rw [encodeChar_eq, ← hb, UInt8.ofNat_toNat, (trailing_of_firstByte h hlow hhigh).2]
  rfl

/-- A number of a character is the number of that character. -/
theorem toNat_ofNat {n : ℕ} (h : n.isValidChar) : (Char.ofNat n).toNat = n := by
  rw [Char.ofNat, dif_pos h]
  rfl

namespace Unfinished

/-- The bounds of a character in the making leave the bits of the bytes that follow the next one
free. -/
theorem bounds_iff (u : Unfinished) (n : ℕ) :
    u.low ≤ n ∧ n < u.high ↔ u.value * 0x40 + (u.least - 0x80) ≤ n / 0x40 ^ u.more ∧
      n / 0x40 ^ u.more < u.value * 0x40 + (u.greatest - 0x80) + 1 := by
  have hpos : 0 < 0x40 ^ u.more := Nat.pow_pos (by decide)
  rw [low, high, Nat.le_div_iff_mul_le hpos, Nat.div_lt_iff_lt_mul hpos]

namespace StandsFor

variable {u : Unfinished} {p : List UInt8} (h : u.StandsFor p)
include h

/-- A character within the bounds goes on with the next six bits of its number. -/
theorem append_prefix_iff_of_bounds {c : Char} (hlow : u.low ≤ c.toNat) (hhigh : c.toNat < u.high)
    (b : UInt8) :
    p ++ [b] <+: encodeChar c ↔ b.toNat = 0x80 + c.toNat / 0x40 ^ u.more % 0x40 := by
  rw [h.encode_eq c hlow hhigh, List.prefix_append_right_inj, lastBytes, List.cons_prefix_cons,
    ← UInt8.toNat_inj, UInt8.toNat_ofNat']
  simp only [List.nil_prefix, and_true]
  omega

/-- The byte that continues a character gives the next six bits of its number. -/
theorem append_prefix_iff (b : UInt8) (c : Char) :
    p ++ [b] <+: encodeChar c ↔
      u.accepts b ∧ c.toNat / 0x40 ^ u.more = u.value * 0x40 + (b.toNat - 0x80) := by
  have hbounds := u.bounds_iff c.toNat
  have hnext := h.append_prefix_iff_of_bounds (c := c)
  have hleast := h.le_least
  have hle := h.least_le
  have hgreatest := h.greatest_le
  generalize c.toNat / 0x40 ^ u.more = q at *
  simp only [accepts, Bool.and_eq_true, decide_eq_true_eq]
  constructor
  · intro hp
    obtain ⟨hlow, hhigh⟩ := h.bounds c ((List.prefix_append _ _).trans hp)
    have hb := (hnext hlow hhigh b).mp hp
    obtain ⟨hq, hq'⟩ := hbounds.mp ⟨hlow, hhigh⟩
    omega
  · rintro ⟨⟨hb, hb'⟩, hq⟩
    obtain ⟨hlow, hhigh⟩ := hbounds.mpr (by omega)
    exact (hnext hlow hhigh b).mpr (by omega)

/-- A byte that is accepted leaves the number within the bounds. -/
theorem bounds_of_accepts {b : UInt8} (hb : u.accepts b) {n : ℕ}
    (hn : n / 0x40 ^ u.more = u.value * 0x40 + (b.toNat - 0x80)) : u.low ≤ n ∧ n < u.high := by
  have hleast := h.le_least
  simp only [accepts, Bool.and_eq_true, decide_eq_true_eq] at hb
  exact (u.bounds_iff n).mpr (by omega)

/-- A character that begins with one more byte lacks one byte less. -/
theorem encode_eq_of_append_prefix {b : UInt8} {c : Char} (hp : p ++ [b] <+: encodeChar c) :
    encodeChar c = p ++ [b] ++ lastBytes u.more c.toNat := by
  obtain ⟨hlow, hhigh⟩ := h.bounds c ((List.prefix_append _ _).trans hp)
  have heq := h.encode_eq c hlow hhigh
  rw [heq, List.prefix_append_right_inj, lastBytes, List.cons_prefix_cons] at hp
  rw [heq, lastBytes, ← hp.1, List.append_assoc]
  rfl

/-- The last byte completes a character. -/
theorem encode_eq_of_accepts {b : UInt8} (hb : u.accepts b) (hmore : u.more = 0) :
    encodeChar (Char.ofNat (u.value * 0x40 + (b.toNat - 0x80))) = p ++ [b] := by
  have hn : (u.value * 0x40 + (b.toNat - 0x80)) / 0x40 ^ u.more =
      u.value * 0x40 + (b.toNat - 0x80) := by rw [hmore, Nat.pow_zero, Nat.div_one]
  obtain ⟨hlow, hhigh⟩ := h.bounds_of_accepts hb hn
  have hnumber := toNat_ofNat (h.isValid _ hlow hhigh)
  have hp : p ++ [b] <+: encodeChar (Char.ofNat (u.value * 0x40 + (b.toNat - 0x80))) := by
    rw [h.append_prefix_iff, hnumber]
    exact ⟨hb, hn⟩
  have heq := h.encode_eq_of_append_prefix hp
  rwa [hmore, lastBytes, List.append_nil] at heq

/-- Any other byte leaves a character in the making. -/
theorem append {b : UInt8} (hb : u.accepts b) {k : ℕ} (hmore : u.more = k + 1) :
    StandsFor ⟨u.value * 0x40 + (b.toNat - 0x80), 0x80, 0xBF, k⟩ (p ++ [b]) := by
  have hbounds (n : ℕ) : low ⟨u.value * 0x40 + (b.toNat - 0x80), 0x80, 0xBF, k⟩ ≤ n ∧
      n < high ⟨u.value * 0x40 + (b.toNat - 0x80), 0x80, 0xBF, k⟩ ↔
        n / 0x40 ^ u.more = u.value * 0x40 + (b.toNat - 0x80) := by
    rw [bounds_iff, hmore, Nat.pow_succ, ← Nat.div_div_eq_div_mul]
    dsimp only
    omega
  refine ⟨by simp, Nat.le_refl _, by dsimp only; omega, Nat.le_refl _, fun n hlow hhigh => ?_,
    fun c hc => (hbounds _).mpr ((h.append_prefix_iff b c).mp hc).2, fun c hlow hhigh => ?_⟩
  · obtain ⟨hlow, hhigh⟩ := h.bounds_of_accepts hb ((hbounds n).mp ⟨hlow, hhigh⟩)
    exact h.isValid n hlow hhigh
  · have hp := (h.append_prefix_iff b c).mpr ⟨hb, (hbounds _).mp ⟨hlow, hhigh⟩⟩
    rw [h.encode_eq_of_append_prefix hp, hmore]

/-- What a character in the making stands for is ill formed, if no byte continues it. -/
theorem isBroken {rest : List UInt8} (hrest : ∀ b ∈ rest.head?, u.accepts b = false) :
    IsBroken p rest := by
  obtain ⟨hlow, hhigh⟩ : u.low ≤ u.low ∧ u.low < u.high := by
    rw [bounds_iff, low, Nat.mul_div_left _ (Nat.pow_pos (by decide))]
    have := h.least_le
    omega
  have hnumber := toNat_ofNat (h.isValid _ hlow hhigh)
  refine ⟨h.ne_nil, .inr ⟨Char.ofNat u.low, ?_⟩, fun c hc => ?_, fun b hb c hp => ?_⟩
  · rw [h.encode_eq _ (hnumber.symm ▸ hlow) (hnumber.symm ▸ hhigh)]
    exact List.prefix_append _ _
  · obtain ⟨hlow, hhigh⟩ := h.bounds c (hc ▸ List.prefix_refl _)
    have hlength := congrArg List.length (h.encode_eq c hlow hhigh)
    rw [← hc, List.length_append, length_lastBytes] at hlength
    omega
  · rw [h.append_prefix_iff, hrest b hb] at hp
    exact absurd hp.1 (by decide)

end StandsFor

end Unfinished

/-- A byte that is a whole character is its encoding. -/
theorem encodeChar_of_firstByte {b : UInt8} {c : Char} (h : firstByte b = .whole c) :
    encodeChar c = [b] := by
  simp only [firstByte] at h
  split_ifs at h with hb
  rw [FirstByte.whole.injEq] at h
  have hnumber : c.toNat = b.toNat := by
    rw [← h, toNat_ofNat (.inl (by omega))]
  simp only [encodeChar, hnumber, if_pos hb, UInt8.ofNat_toNat]

/-- The bytes that begin no character. -/
theorem range_of_bad {b : UInt8} (h : firstByte b = .bad) :
    (0x80 ≤ b.toNat ∧ b.toNat < 0xC2) ∨ 0xF5 ≤ b.toNat := by
  simp only [firstByte] at h
  split_ifs at h <;> cases h <;> omega

/-- The bytes that begin characters. -/
theorem lead_range (c : Char) :
    lead c.toNat < 0x80 ∨ (0xC2 ≤ lead c.toNat ∧ lead c.toNat < 0xF5) := by
  have hlt := toNat_lt c
  simp only [lead]
  split_ifs <;> omega

/-- A bad byte is an ill-formed piece. -/
theorem isBroken_of_firstByte {b : UInt8} (h : firstByte b = .bad) (rest : List UInt8) :
    IsBroken [b] rest := by
  have hnone (c : Char) : ¬ [b] <+: encodeChar c := by
    have hbad := range_of_bad h
    have hlead := lead_range c
    rw [singleton_prefix_iff]
    omega
  exact ⟨List.cons_ne_nil _ _, .inl rfl, fun c hc => hnone c (hc ▸ List.prefix_refl _),
    fun d _ c hp => hnone c ((List.prefix_append _ _).trans hp)⟩

/-- The character in the making stands for the bytes of which nothing came out yet. -/
def StandsFor : Option Unfinished → List UInt8 → Prop
  | none, p => p = []
  | some u, p => u.StandsFor p

/-- A byte that is read where a character begins: what comes out of it, and the bytes that stay. -/
theorem decodes_decodeFirst (b : UInt8) :
    ∃ q, StandsFor (decodeFirst b).2 q ∧ ∀ rest pieces, Decodes (q ++ rest) pieces →
      Decodes (b :: rest) ((decodeFirst b).1 ++ pieces) := by
  rw [decodeFirst]
  cases hb : firstByte b with
  | whole c =>
    refine ⟨[], rfl, fun rest pieces hrest => ?_⟩
    have := Decodes.whole c hrest
    rwa [encodeChar_of_firstByte hb] at this
  | start u => exact ⟨[b], standsFor_of_firstByte hb, fun rest pieces hrest => hrest⟩
  | bad =>
    exact ⟨[], rfl, fun rest pieces hrest => .broken (isBroken_of_firstByte hb rest) hrest⟩

/-- A byte that is read: what comes out of it and of the bytes before it, and the bytes that
stay. -/
theorem decodes_decodeByte {begun : Option Unfinished} {p : List UInt8} (h : StandsFor begun p)
    (b : UInt8) :
    ∃ q, StandsFor (decodeByte begun b).2 q ∧ ∀ rest pieces, Decodes (q ++ rest) pieces →
      Decodes (p ++ b :: rest) ((decodeByte begun b).1 ++ pieces) := by
  obtain ⟨q, hq, hfirst⟩ := decodes_decodeFirst b
  cases begun with
  | none =>
    rw [show p = [] from h]
    exact ⟨q, hq, hfirst⟩
  | some u =>
    have hu : u.StandsFor p := h
    rw [decodeByte, decodeNext]
    split
    · next hb =>
      split
      · next hmore =>
        refine ⟨[], rfl, fun rest pieces hrest => ?_⟩
        have := Decodes.whole (Char.ofNat (u.value * 0x40 + (b.toNat - 0x80))) hrest
        rwa [hu.encode_eq_of_accepts hb hmore, List.nil_append, List.append_assoc] at this
      · next k hmore =>
        refine ⟨p ++ [b], hu.append hb hmore, fun rest pieces hrest => ?_⟩
        rwa [List.append_assoc] at hrest
    · next hb =>
      refine ⟨q, hq, fun rest pieces hrest => .broken (hu.isBroken ?_) (hfirst rest pieces hrest)⟩
      intro d hd
      cases hd
      exact Bool.not_eq_true _ ▸ hb

/-- What is decoded of a sequence, with what its end adds, cuts it into characters and ill-formed
pieces. -/
theorem decodes_decodeChunk {begun : Option Unfinished} {p : List UInt8} (h : StandsFor begun p)
    (bytes : List UInt8) :
    Decodes (p ++ bytes)
      ((decodeChunk begun bytes).1 ++ decodeEnd (decodeChunk begun bytes).2) := by
  induction bytes generalizing begun p with
  | nil =>
    cases begun with
    | none =>
      rw [show p = [] from h]
      exact .nil
    | some u => exact .broken (Unfinished.StandsFor.isBroken h (by simp)) .nil
  | cons b rest ih =>
    obtain ⟨q, hq, hstep⟩ := decodes_decodeByte h b
    rw [decodeChunk, List.append_assoc]
    exact hstep rest _ (ih hq)

/-- Decoding cuts a sequence into characters and ill-formed pieces. -/
theorem decodes_decodePieces (bytes : List UInt8) : Decodes bytes (decodePieces bytes) :=
  decodes_decodeChunk (show StandsFor none [] from rfl) bytes

/-- A piece is not empty. -/
theorem IsPiece.ne_nil {p rest : List UInt8} {o : Option Char} (h : IsPiece p rest o) : p ≠ [] := by
  cases o with
  | none => exact IsBroken.ne_nil h
  | some c =>
    rw [show p = encodeChar c from h, encodeChar_eq]
    exact List.cons_ne_nil _ _

/-- No longer piece begins with a piece. -/
theorem IsPiece.append_eq_nil {p rest q rest' : List UInt8} {o o' : Option Char}
    (h : IsPiece p (q ++ rest) o) (h' : IsPiece (p ++ q) rest' o') : q = [] := by
  cases q with
  | nil => rfl
  | cons b q =>
    -- The longer piece has two bytes at least, so that it begins a character.
    have hbegins : ∃ c, p ++ b :: q <+: encodeChar c := by
      cases o' with
      | some c => exact ⟨c, by rw [show p ++ b :: q = encodeChar c from h']⟩
      | none =>
        refine (IsBroken.begins h').resolve_left fun hlength => ?_
        have := List.length_pos_of_ne_nil h.ne_nil
        simp at hlength
        omega
    obtain ⟨c, hc⟩ := hbegins
    have hnext : p ++ [b] <+: encodeChar c :=
      ((List.prefix_append_right_inj p).mpr (List.prefix_append [b] q)).trans hc
    cases o with
    | none => exact absurd hnext (IsBroken.longest h b rfl c)
    | some d =>
      have hp : p = encodeChar d := h
      have hdc := encodeChar_prefix_free (hp ▸ (List.prefix_append _ _).trans hnext)
      have hlength := hnext.length_le
      rw [hp, hdc, List.length_append, List.length_singleton] at hlength
      omega

/-- A piece means one thing. -/
theorem IsPiece.eq {p rest : List UInt8} {o o' : Option Char} (h : IsPiece p rest o)
    (h' : IsPiece p rest o') : o = o' := by
  cases o with
  | none =>
    cases o' with
    | none => rfl
    | some c => exact absurd h' (IsBroken.unfinished h c)
  | some c =>
    cases o' with
    | none => exact absurd h (IsBroken.unfinished h' c)
    | some d =>
      have heq : encodeChar c = encodeChar d := Eq.trans (Eq.symm h) h'
      have hprefix : encodeChar c <+: encodeChar d := heq ▸ List.prefix_refl (encodeChar c)
      rw [encodeChar_prefix_free hprefix]

/-- Bytes have one first piece. -/
theorem IsPiece.eq_of_append_eq {p rest p' rest' : List UInt8} {o o' : Option Char}
    (h : IsPiece p rest o) (h' : IsPiece p' rest' o') (heq : p ++ rest = p' ++ rest') :
    p = p' ∧ rest = rest' ∧ o = o' := by
  have hsame : p = p' := by
    rcases List.append_eq_append_iff.mp heq with ⟨q, hq, hq'⟩ | ⟨q, hq, hq'⟩
    · subst hq hq'
      rw [h.append_eq_nil h', List.append_nil]
    · subst hq hq'
      rw [h'.append_eq_nil h, List.append_nil]
  subst hsame
  rw [List.append_cancel_left_eq] at heq
  subst heq
  exact ⟨rfl, rfl, h.eq h'⟩

/-- Bytes are cut in one way. -/
theorem Decodes.unique {bytes : List UInt8} {pieces pieces' : List (Option Char)}
    (h : Decodes bytes pieces) (h' : Decodes bytes pieces') : pieces = pieces' := by
  induction h generalizing pieces' with
  | nil =>
    generalize hbytes : [] = bytes at h'
    cases h' with
    | nil => rfl
    | cons hp _ => exact absurd (List.append_eq_nil_iff.mp hbytes.symm).1 hp.ne_nil
  | @cons p rest o pieces hp hrest ih =>
    generalize hbytes : p ++ rest = bytes at h'
    cases h' with
    | nil => exact absurd (List.append_eq_nil_iff.mp hbytes).1 hp.ne_nil
    | cons hp' hrest' =>
      obtain ⟨rfl, rfl, rfl⟩ := hp.eq_of_append_eq hp' hbytes
      rw [ih hrest']

/-- The pieces of a sequence are those that decoding gives. -/
theorem decodes_iff {bytes : List UInt8} {pieces : List (Option Char)} :
    Decodes bytes pieces ↔ decodePieces bytes = pieces :=
  ⟨fun h => (decodes_decodePieces bytes).unique h, fun h => h ▸ decodes_decodePieces bytes⟩

/-- Pieces that are all characters are those of their encodings. -/
theorem decodes_map_some_iff {bytes : List UInt8} {s : List Char} :
    Decodes bytes (s.map some) ↔ encode s = bytes := by
  induction s generalizing bytes with
  | nil =>
    constructor
    · rintro ⟨⟩
      rfl
    · rintro rfl
      exact .nil
  | cons c s ih =>
    rw [encode, List.flatMap_cons, ← encode]
    constructor
    · rintro (_ | ⟨hp, h⟩)
      rw [ih.mp h, show _ = encodeChar c from hp]
    · rintro rfl
      exact (ih.mpr rfl).whole c

end ImportAtlas.Text
