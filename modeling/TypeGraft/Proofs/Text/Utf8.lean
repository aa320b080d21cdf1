import Mathlib.Data.List.TakeWhile
import TypeGraft.Text.Utf8

/-!
# Reading what was written

Behind the bytes of a character, whatever follows, that character is read
(`TypeGraft.Glyph.first_encode`), and what is read as a character are its bytes
(`TypeGraft.Glyph.take_of_first`). So a text that was written is read back as it was
(`TypeGraft.Bytes.toString?_ofString`), and no two texts have the same bytes.

`TypeGraft.Bytes.Encoded` tells the bytes that are written for some text. A place at which such
bytes can be cut, so that both parts are written for some text, is told by what stands before it:
what stands behind it is then encoded as well (`Encoded.of_append`). A character of one byte is
always such a place (`Encoded.parted`).
-/

namespace TypeGraft
namespace Glyph

variable {b : UInt8} {rest : Bytes} {value width low high : Nat} {c : Char} {w : Nat}

theorem toNat_ofNat_of_lt {n : Nat} (h : n < 256) : (UInt8.ofNat n).toNat = n := by
  rw [UInt8.toNat_ofNat']
  omega

/-- A byte that follows the first one adds its six bits. -/
theorem continued_trail (following x : Nat) (hlow : low ≤ x % 64 + 128)
    (hhigh : x % 64 + 128 ≤ high) :
    continued (following + 1) value width low high (UInt8.ofNat (x % 64 + 128) :: rest) =
      continued following (value * 64 + x % 64) (width + 1) 0x80 0xBF rest := by
  rw [continued, toNat_ofNat_of_lt (by omega), if_pos ⟨hlow, hhigh⟩,
    show x % 64 + 128 - 0x80 = x % 64 from Nat.add_sub_cancel _ _]

theorem first_lead {lead : Lead} {n : Nat} (hlt : n < 256) (h : Lead.of? n = some lead)
    (rest : Bytes) :
    first (UInt8.ofNat n) rest = continued lead.following lead.share 1 lead.low lead.high rest := by
  have hge : ¬n < 0x80 := by
    intro hlow
    rw [Lead.of?, if_pos (by omega)] at h
    exact absurd h (by simp)
  rw [first, toNat_ofNat_of_lt hlt, if_neg hge, h]

/-- **Behind the bytes of a character**, whatever follows, the character is read. -/
theorem first_encode (c : Char) (rest : Bytes) :
    ∃ b tail, String.utf8EncodeChar c = b :: tail ∧
      first b (tail ++ rest) = ⟨some c, tail.length + 1⟩ := by
  have hvalid : c.val.toNat < 55296 ∨ 57343 < c.val.toNat ∧ c.val.toNat < 1114112 := c.valid
  have hc : Char.ofNat c.val.toNat = c := Char.ofNat_toNat c
  unfold String.utf8EncodeChar
  generalize c.val.toNat = v at hvalid hc
  have hread : ∀ {value width}, value = v → continued 0 value width 0x80 0xBF rest =
      ⟨some c, width⟩ := by
    rintro _ width rfl
    rw [continued, hc]
  dsimp only
  -- one byte, and a lead byte with one, two or three bytes behind it
  split_ifs with h1 h2 h3
  · refine ⟨_, _, rfl, ?_⟩
    rw [first, toNat_ofNat_of_lt (by omega), if_pos (by omega), hc]
    rfl
  · refine ⟨_, _, rfl, ?_⟩
    have hlead : Lead.of? (v / 64 % 32 + 192) = some ⟨v / 64, 1, 0x80, 0xBF⟩ := by
      rw [Lead.of?, if_neg (by omega), if_pos (by omega),
        show v / 64 % 32 + 192 - 0xC0 = v / 64 by omega]
    rw [first_lead (by omega) hlead]
    dsimp only [List.cons_append, List.nil_append]
    rw [continued_trail _ _ (by omega) (by omega), hread (by omega)]
    rfl
  · refine ⟨_, _, rfl, ?_⟩
    obtain ⟨low, high, hlead, hlow, hhigh⟩ : ∃ low high,
        Lead.of? (v / 4096 % 16 + 224) = some ⟨v / 4096, 2, low, high⟩ ∧
        low ≤ v / 64 % 64 + 128 ∧ v / 64 % 64 + 128 ≤ high := by
      -- the bounds rule out what two bytes spell, and the surrogates
      have hshare : v / 4096 % 16 = v / 4096 := by omega
      rw [hshare, Lead.of?, if_neg (by omega), if_neg (by omega)]
      split_ifs with h0 hD h1
      · exact ⟨_, _, by rw [show v / 4096 = 0 by omega], by omega, by omega⟩
      · exact ⟨_, _, by rw [show v / 4096 = 0xD by omega], by omega, by omega⟩
      · exact ⟨_, _, by rw [Nat.add_sub_cancel], by omega, by omega⟩
      all_goals omega
    rw [first_lead (by omega) hlead]
    dsimp only [List.cons_append, List.nil_append]
    rw [continued_trail _ _ hlow hhigh, continued_trail _ _ (by omega) (by omega), hread (by omega)]
    rfl
  · refine ⟨_, _, rfl, ?_⟩
    obtain ⟨low, high, hlead, hlow, hhigh⟩ : ∃ low high,
        Lead.of? (v / 262144 % 8 + 240) = some ⟨v / 262144, 3, low, high⟩ ∧
        low ≤ v / 4096 % 64 + 128 ∧ v / 4096 % 64 + 128 ≤ high := by
      -- the bounds rule out what three bytes spell, and what is beyond the last character
      have hshare : v / 262144 % 8 = v / 262144 := by omega
      rw [hshare, Lead.of?, if_neg (by omega), if_neg (by omega), if_neg (by omega),
        if_neg (by omega), if_neg (by omega)]
      split_ifs with h0 h1 h4
      · exact ⟨_, _, by rw [show v / 262144 = 0 by omega], by omega, by omega⟩
      · exact ⟨_, _, by rw [Nat.add_sub_cancel], by omega, by omega⟩
      · exact ⟨_, _, by rw [show v / 262144 = 4 by omega], by omega, by omega⟩
      all_goals omega
    rw [first_lead (by omega) hlead]
    dsimp only [List.cons_append, List.nil_append]
    rw [continued_trail _ _ hlow hhigh, continued_trail _ _ (by omega) (by omega),
      continued_trail _ _ (by omega) (by omega), hread (by omega)]
    rfl

/-- Behind the first byte of a character there is none that is a character of its own. -/
theorem le_of_mem_tail {c : Char} {b : UInt8} {tail : Bytes}
    (h : String.utf8EncodeChar c = b :: tail) : ∀ y ∈ tail, 0x80 ≤ y.toNat := by
  have htrail : ∀ x, 0x80 ≤ (UInt8.ofNat (x % 64 + 128)).toNat := by
    intro x
    rw [toNat_ofNat_of_lt (by omega)]
    exact Nat.le_add_left _ _
  unfold String.utf8EncodeChar at h
  dsimp only at h
  split_ifs at h <;> obtain ⟨-, rfl⟩ := List.cons.inj h <;>
    simp only [List.forall_mem_cons, htrail, List.not_mem_nil, false_implies,
      implies_true, and_self]

/-! ### Characters that are read -/

/-- A character of several bytes has the bytes that its first one promises. -/
theorem exists_of_continued {following : Nat}
    (h : continued (following + 1) value width low high rest = ⟨some c, w⟩) :
    ∃ b rest', rest = b :: rest' ∧ low ≤ b.toNat ∧ b.toNat ≤ high ∧
      continued following (value * 64 + (b.toNat - 0x80)) (width + 1) 0x80 0xBF rest' =
        ⟨some c, w⟩ := by
  cases rest with
  | nil => exact absurd (congrArg scalar h) (by simp [continued])
  | cons b rest =>
    rw [continued] at h
    split at h
    · next hrange => exact ⟨b, rest, rfl, hrange.1, hrange.2, h⟩
    · exact absurd (congrArg scalar h) (by simp)

theorem of_continued_zero (h : continued 0 value width low high rest = ⟨some c, w⟩) :
    c = Char.ofNat value ∧ w = width := by
  rw [continued] at h
  exact ⟨(Option.some.inj (congrArg scalar h)).symm, (congrArg Glyph.width h).symm⟩

/-- The bytes of a character by its number. -/
theorem encode_ofNat {v : Nat} (hv : v.isValidChar) : String.utf8EncodeChar (Char.ofNat v) =
    if v ≤ 127 then [UInt8.ofNat v]
    else if v ≤ 2047 then [UInt8.ofNat (v / 64 % 32 + 192), UInt8.ofNat (v % 64 + 128)]
    else if v ≤ 65535 then
      [UInt8.ofNat (v / 4096 % 16 + 224), UInt8.ofNat (v / 64 % 64 + 128),
        UInt8.ofNat (v % 64 + 128)]
    else
      [UInt8.ofNat (v / 262144 % 8 + 240), UInt8.ofNat (v / 4096 % 64 + 128),
        UInt8.ofNat (v / 64 % 64 + 128), UInt8.ofNat (v % 64 + 128)] := by
  have hval : (Char.ofNat v).val.toNat = v := by
    unfold Char.ofNat
    rw [dif_pos hv]
    rfl
  unfold String.utf8EncodeChar
  rw [hval]

theorem ofNat_eq_of_toNat {b : UInt8} {n : Nat} (h : n = b.toNat) : UInt8.ofNat n = b := by
  rw [h, UInt8.ofNat_toNat]

theorem take_two {share : Nat} (h : continued 1 share 1 low high rest = ⟨some c, w⟩)
    (hb : b.toNat = share + 192) (hshare : 2 ≤ share ∧ share < 32) (hlow : 128 ≤ low)
    (hhigh : high ≤ 191) : (b :: rest).take w = String.utf8EncodeChar c := by
  obtain ⟨b₁, rest₁, rfl, hlow₁, hhigh₁, h⟩ := exists_of_continued h
  obtain ⟨hc, hw⟩ := of_continued_zero h
  rw [hc, hw, encode_ofNat (Or.inl (by omega)), if_neg (by omega), if_pos (by omega)]
  simp only [List.take_succ_cons, List.take_zero, List.cons.injEq, and_true]
  exact ⟨(ofNat_eq_of_toNat (by omega)).symm, (ofNat_eq_of_toNat (by omega)).symm⟩

theorem take_three {share : Nat} (h : continued 2 share 1 low high rest = ⟨some c, w⟩)
    (hb : b.toNat = share + 224) (hshare : share < 16) (hlow : 128 ≤ low) (hhigh : high ≤ 191)
    (hfirst : share = 0 → 160 ≤ low) (hsurrogate : share = 13 → high ≤ 159) :
    (b :: rest).take w = String.utf8EncodeChar c := by
  obtain ⟨b₁, rest₁, rfl, hlow₁, hhigh₁, h⟩ := exists_of_continued h
  obtain ⟨b₂, rest₂, rfl, hlow₂, hhigh₂, h⟩ := exists_of_continued h
  obtain ⟨hc, hw⟩ := of_continued_zero h
  have hvalid : Nat.isValidChar ((share * 64 + (b₁.toNat - 128)) * 64 + (b₂.toNat - 128)) := by
    unfold Nat.isValidChar
    omega
  rw [hc, hw, encode_ofNat hvalid, if_neg (by omega), if_neg (by omega), if_pos (by omega)]
  simp only [List.take_succ_cons, List.take_zero, List.cons.injEq, and_true]
  exact ⟨(ofNat_eq_of_toNat (by omega)).symm, (ofNat_eq_of_toNat (by omega)).symm,
    (ofNat_eq_of_toNat (by omega)).symm⟩

theorem take_four {share : Nat} (h : continued 3 share 1 low high rest = ⟨some c, w⟩)
    (hb : b.toNat = share + 240) (hshare : share < 5) (hlow : 128 ≤ low) (hhigh : high ≤ 191)
    (hfirst : share = 0 → 144 ≤ low) (hlast : share = 4 → high ≤ 143) :
    (b :: rest).take w = String.utf8EncodeChar c := by
  obtain ⟨b₁, rest₁, rfl, hlow₁, hhigh₁, h⟩ := exists_of_continued h
  obtain ⟨b₂, rest₂, rfl, hlow₂, hhigh₂, h⟩ := exists_of_continued h
  obtain ⟨b₃, rest₃, rfl, hlow₃, hhigh₃, h⟩ := exists_of_continued h
  obtain ⟨hc, hw⟩ := of_continued_zero h
  have hvalid : Nat.isValidChar (((share * 64 + (b₁.toNat - 128)) * 64 + (b₂.toNat - 128)) * 64 +
      (b₃.toNat - 128)) := by
    unfold Nat.isValidChar
    omega
  rw [hc, hw, encode_ofNat hvalid, if_neg (by omega), if_neg (by omega), if_neg (by omega)]
  simp only [List.take_succ_cons, List.take_zero, List.cons.injEq, and_true]
  exact ⟨(ofNat_eq_of_toNat (by omega)).symm, (ofNat_eq_of_toNat (by omega)).symm,
    (ofNat_eq_of_toNat (by omega)).symm, (ofNat_eq_of_toNat (by omega)).symm⟩

/-- **A character that is read** was written with the bytes that it takes. -/
theorem take_of_first (h : first b rest = ⟨some c, w⟩) :
    (b :: rest).take w = String.utf8EncodeChar c := by
  have hb : b.toNat < 256 := b.toNat_lt
  rw [first] at h
  split at h
  · have hc : c = Char.ofNat b.toNat := (Option.some.inj (congrArg scalar h)).symm
    obtain rfl : w = 1 := (congrArg Glyph.width h).symm
    rw [hc, encode_ofNat (Or.inl (by omega)), if_pos (by omega), UInt8.ofNat_toNat]
    rfl
  · split at h
    · exact absurd (congrArg scalar h) (by simp)
    · next lead hlead =>
      unfold Lead.of? at hlead
      split_ifs at hlead <;> obtain rfl := Option.some.inj hlead <;> dsimp only at h
      · exact take_two h (by omega) (by omega) (by omega) (by omega)
      iterate 3 exact take_three h (by omega) (by omega) (by omega) (by omega) (by omega) (by omega)
      iterate 3 exact take_four h (by omega) (by omega) (by omega) (by omega) (by omega) (by omega)

/-! ### The width of a glyph -/

theorem width_continued (following : Nat) (rest : Bytes) :
    width ≤ (continued following value width low high rest).width ∧
      (continued following value width low high rest).width ≤ width + rest.length := by
  induction following generalizing value width low high rest with
  | zero => exact ⟨Nat.le_refl _, Nat.le_add_right _ _⟩
  | succ following ih =>
    cases rest with
    | nil => exact ⟨Nat.le_refl _, Nat.le_refl _⟩
    | cons b rest =>
      rw [continued]
      split
      · obtain ⟨hlow, hhigh⟩ := @ih (value * 64 + (b.toNat - 128)) (width + 1) 128 191 rest
        exact ⟨by omega, by rw [List.length_cons]; omega⟩
      · exact ⟨Nat.le_refl _, Nat.le_add_right _ _⟩

/-- A glyph takes at least one byte, and no more than there are. -/
theorem width_first (b : UInt8) (rest : Bytes) :
    1 ≤ (first b rest).width ∧ (first b rest).width ≤ (b :: rest).length := by
  rw [List.length_cons, Nat.add_comm rest.length]
  unfold first
  split
  · exact ⟨Nat.le_refl _, Nat.le_add_right _ _⟩
  · split
    · exact ⟨Nat.le_refl _, Nat.le_add_right _ _⟩
    · exact width_continued _ _

theorem read_eq_drop (skip : Nat) (bytes : Bytes) :
    read skip bytes = ofBytes (bytes.drop skip) := by
  induction skip generalizing bytes with
  | zero => rfl
  | succ skip ih =>
    cases bytes with
    | nil => rfl
    | cons b rest => rw [List.drop_succ_cons, read, ih]

/-- Behind the first glyph, the next ones are read. -/
theorem ofBytes_cons (b : UInt8) (rest : Bytes) : ofBytes (b :: rest) =
    first b rest :: ofBytes ((b :: rest).drop (first b rest).width) := by
  have hwidth := (width_first b rest).1
  rw [ofBytes, read, read_eq_drop, ← Nat.sub_add_cancel hwidth, List.drop_succ_cons,
    Nat.add_sub_cancel]

/-! ### Glyphs of a text -/

theorem read_length_append (piece rest : Bytes) :
    read piece.length (piece ++ rest) = read 0 rest := by
  induction piece with
  | nil => rfl
  | cons b piece ih => exact ih

/-- The glyph of a character. -/
def ofChar (c : Char) : Glyph := ⟨some c, (String.utf8EncodeChar c).length⟩

theorem ofBytes_encode_append (c : Char) (rest : Bytes) :
    ofBytes (String.utf8EncodeChar c ++ rest) = ofChar c :: ofBytes rest := by
  obtain ⟨b, tail, hbytes, hfirst⟩ := first_encode c rest
  rw [ofChar, hbytes, List.cons_append, ofBytes, read, hfirst]
  exact congrArg _ (read_length_append tail rest)

/-- **The glyphs of a text** are its characters. -/
theorem ofBytes_ofString (text : String) :
    ofBytes (Bytes.ofString text) = text.toList.map ofChar := by
  unfold Bytes.ofString
  induction text.toList with
  | nil => rfl
  | cons c chars ih => rw [List.flatMap_cons, ofBytes_encode_append, ih, List.map_cons]

end Glyph

namespace Bytes

/-- **A text is read back as it was written.** -/
theorem toString?_ofString (text : String) : toString? (ofString text) = some text := by
  have hscalars : ∀ chars : List Char,
      (chars.map Glyph.ofChar).mapM Glyph.scalar = some chars := by
    intro chars
    induction chars with
    | nil => rfl
    | cons c chars ih => simp [List.mapM_cons, ih, Glyph.ofChar]
  rw [toString?, Glyph.ofBytes_ofString, hscalars, Option.map_some, String.ofList_toList]

theorem toStringLossy_ofString (text : String) : toStringLossy (ofString text) = text := by
  have hchar : Glyph.char ∘ Glyph.ofChar = id := rfl
  rw [toStringLossy, Glyph.ofBytes_ofString, List.map_map, hchar, List.map_id, String.ofList_toList]

theorem ofString_append (a b : String) : ofString (a ++ b) = ofString a ++ ofString b := by
  rw [ofString, String.toList_append, List.flatMap_append]
  rfl

/-! ### Encoded bytes -/

/-- **The bytes of some text.** -/
def Encoded (bytes : Bytes) : Prop := ∃ text, ofString text = bytes

theorem encoded_ofString (text : String) : (ofString text).Encoded := ⟨text, rfl⟩

theorem encoded_nil : Encoded [] := ⟨"", rfl⟩

theorem Encoded.toString? {bytes : Bytes} (h : bytes.Encoded) :
    ∃ text, bytes.toString? = some text := by
  obtain ⟨text, rfl⟩ := h
  exact ⟨text, toString?_ofString text⟩

/-- **Bytes that are read as a text** are those that are written for it. -/
theorem ofString_of_toString? {bytes : Bytes} {text : String} (h : bytes.toString? = some text) :
    ofString text = bytes := by
  have hread : ∀ n (bytes : Bytes), bytes.length ≤ n → ∀ chars,
      (Glyph.ofBytes bytes).mapM Glyph.scalar = some chars →
        chars.flatMap String.utf8EncodeChar = bytes := by
    intro n
    induction n with
    | zero =>
      intro bytes hlength chars hchars
      obtain rfl := List.length_eq_zero_iff.mp (Nat.le_zero.mp hlength)
      obtain rfl : [] = chars := Option.some.inj hchars
      rfl
    | succ n ih =>
      intro bytes hlength chars hchars
      cases bytes with
      | nil =>
        obtain rfl : [] = chars := Option.some.inj hchars
        rfl
      | cons b rest =>
        rw [Glyph.ofBytes_cons, List.mapM_cons] at hchars
        obtain ⟨c, hc, hchars⟩ := Option.bind_eq_some_iff.mp hchars
        obtain ⟨more, hmore, hchars⟩ := Option.bind_eq_some_iff.mp hchars
        obtain rfl : c :: more = chars := Option.some.inj hchars
        have hwidth := (Glyph.width_first b rest).1
        have hfirst : Glyph.first b rest = ⟨some c, (Glyph.first b rest).width⟩ := by rw [← hc]
        have hrest := ih ((b :: rest).drop (Glyph.first b rest).width)
          (by rw [List.length_drop]; omega) more hmore
        rw [List.flatMap_cons, hrest, ← Glyph.take_of_first hfirst, List.take_append_drop]
  obtain ⟨chars, hchars, rfl⟩ := Option.map_eq_some_iff.mp h
  rw [ofString, String.toList_ofList]
  exact hread _ bytes (Nat.le_refl _) chars hchars

theorem toString?_eq_none_iff {bytes : Bytes} : bytes.toString? = none ↔ ¬bytes.Encoded := by
  constructor
  · intro h henc
    obtain ⟨text, htext⟩ := henc.toString?
    rw [h] at htext
    exact absurd htext (by simp)
  · intro h
    cases htext : bytes.toString? with
    | none => rfl
    | some text => exact absurd ⟨text, ofString_of_toString? htext⟩ h

theorem Encoded.append {a b : Bytes} (ha : a.Encoded) (hb : b.Encoded) : (a ++ b).Encoded := by
  obtain ⟨text, rfl⟩ := ha
  obtain ⟨text', rfl⟩ := hb
  exact ⟨text ++ text', ofString_append text text'⟩

/-- **What stands behind encoded bytes** is encoded, where the whole is. -/
theorem Encoded.of_append {a b : Bytes} (h : (a ++ b).Encoded) (ha : a.Encoded) : b.Encoded := by
  have hchars : ∀ front whole : List Char, whole.flatMap String.utf8EncodeChar =
      front.flatMap String.utf8EncodeChar ++ b →
        ∃ rest : List Char, rest.flatMap String.utf8EncodeChar = b := by
    intro front
    induction front with
    | nil => exact fun whole h => ⟨whole, h⟩
    | cons c front ih =>
      intro whole h
      have hread := congrArg Glyph.ofBytes h
      rw [List.flatMap_cons, List.append_assoc, Glyph.ofBytes_encode_append] at hread
      cases whole with
      | nil => exact absurd hread (by simp [Glyph.ofBytes, Glyph.read])
      | cons c' whole =>
        rw [List.flatMap_cons, Glyph.ofBytes_encode_append] at hread
        obtain rfl : c' = c := Option.some.inj (congrArg Glyph.scalar (List.cons.inj hread).1)
        rw [List.flatMap_cons, List.flatMap_cons, List.append_assoc] at h
        exact ih whole (List.append_cancel_left h)
  obtain ⟨text, rfl⟩ := ha
  obtain ⟨whole, hwhole⟩ := h
  obtain ⟨rest, hrest⟩ := hchars text.toList whole.toList hwhole
  exact ⟨String.ofList rest, by rw [ofString, String.toList_ofList, hrest]⟩

/-- A byte of its own at the front of encoded bytes is a character. -/
theorem Encoded.of_cons {b : UInt8} {rest : Bytes} (h : Encoded (b :: rest)) (hb : b.toNat < 0x80) :
    Encoded [b] ∧ rest.Encoded := by
  have hsingle : Encoded [b] := by
    obtain ⟨text, htext⟩ := h
    rw [ofString] at htext
    cases hchars : text.toList with
    | nil =>
      rw [hchars] at htext
      exact absurd htext (by simp)
    | cons c chars =>
      obtain ⟨b', tail, hbytes, hfirst⟩ := Glyph.first_encode c []
      rw [hchars, List.flatMap_cons, hbytes, List.cons_append] at htext
      obtain ⟨rfl, -⟩ := List.cons.inj htext
      rw [Glyph.first, if_pos hb] at hfirst
      have htail : tail = [] := List.length_eq_zero_iff.mp
        (Nat.succ.inj (congrArg Glyph.width hfirst)).symm
      exact ⟨String.ofList [c], by rw [ofString, String.toList_ofList]; simp [hbytes, htail]⟩
  exact ⟨hsingle, Encoded.of_append (a := [b]) h hsingle⟩

/-- What stands between two cuts is encoded. -/
theorem Encoded.between {bytes : Bytes} {m n : Nat} (h : m ≤ n) (hm : Encoded (bytes.take m))
    (hn : Encoded (bytes.take n)) : Encoded ((bytes.take n).drop m) := by
  have hsplit : bytes.take m ++ (bytes.take n).drop m = bytes.take n := by
    rw [← Nat.min_eq_left h, ← List.take_take, Nat.min_eq_left h, List.take_append_drop]
  rw [← hsplit] at hn
  exact hn.of_append hm

/-! ### Cutting at a character of one byte -/

variable {bytes front rest : Bytes} {b : UInt8}

/-- **A byte that is a character of its own** parts encoded bytes: what stands before it and what
stands behind it are encoded. -/
theorem Encoded.parted (h : Encoded (front ++ b :: rest)) (hb : b.toNat < 0x80) :
    front.Encoded ∧ rest.Encoded := by
  have hchars : ∀ (chars : List Char) (front : Bytes),
      chars.flatMap String.utf8EncodeChar = front ++ b :: rest →
        ∃ some : List Char, some.flatMap String.utf8EncodeChar = front := by
    intro chars
    induction chars with
    | nil => exact fun front h => absurd h.symm (by simp)
    | cons c chars ih =>
      intro front h
      obtain ⟨b', tail, hbytes, -⟩ := Glyph.first_encode c []
      rw [List.flatMap_cons, hbytes] at h
      rcases List.append_eq_append_iff.mp h with ⟨more, rfl, hrest⟩ | ⟨more, hfront, hrest⟩
      · obtain ⟨some, rfl⟩ := ih more hrest
        exact ⟨c :: some, by rw [List.flatMap_cons, hbytes]⟩
      · cases more with
        | nil => exact ⟨[c], by rw [List.append_nil] at hfront; simpa [hbytes] using hfront⟩
        | cons x more =>
          obtain ⟨rfl, -⟩ := List.cons.inj hrest
          cases front with
          | nil => exact ⟨[], rfl⟩
          | cons x front =>
            -- the byte would stand inside of a character
            have htail : tail = front ++ b :: more := (List.cons.inj hfront).2
            have hmem : b ∈ tail := htail ▸ List.mem_append_right _ List.mem_cons_self
            have hge := Glyph.le_of_mem_tail hbytes b hmem
            omega
  obtain ⟨text, htext⟩ := h
  obtain ⟨some, hsome⟩ := hchars text.toList front htext
  have hfront : front.Encoded := ⟨String.ofList some, by rw [ofString, String.toList_ofList, hsome]⟩
  have hwhole : Encoded (front ++ b :: rest) := ⟨text, htext⟩
  exact ⟨hfront, ((hwhole.of_append hfront).of_cons hb).2⟩

theorem Encoded.dropWhile {p : UInt8 → Bool} (hp : ∀ b, p b = true → b.toNat < 0x80)
    (h : bytes.Encoded) : Encoded (bytes.dropWhile p) := by
  induction bytes with
  | nil => exact h
  | cons b rest ih =>
    rw [List.dropWhile_cons]
    split
    · next hb => exact ih (h.of_cons (hp b hb)).2
    · exact h

theorem Encoded.dropEndWhile {p : UInt8 → Bool} (hp : ∀ b, p b = true → b.toNat < 0x80)
    (h : bytes.Encoded) : Encoded (Bytes.dropEndWhile p bytes) := by
  have hreversed : ∀ reversed : Bytes, Encoded reversed.reverse →
      Encoded (reversed.dropWhile p).reverse := by
    intro reversed
    induction reversed with
    | nil => exact id
    | cons b rest ih =>
      intro h
      rw [List.dropWhile_cons]
      split
      · next hb =>
        rw [List.reverse_cons] at h
        exact ih (h.parted (hp b hb)).1
      · exact h
  exact hreversed bytes.reverse (by rwa [List.reverse_reverse])

/-- What stands before and behind the first byte of a kind. -/
theorem takeWhile_append_cons (h : b ∈ bytes) :
    bytes.takeWhile (· != b) ++ b :: (bytes.dropWhile (· != b)).drop 1 = bytes := by
  induction bytes with
  | nil => exact absurd h List.not_mem_nil
  | cons x rest ih =>
    by_cases hx : x = b
    · simp [hx]
    · have hrest := ih ((List.mem_cons.mp h).resolve_left (Ne.symm hx))
      simpa [List.takeWhile_cons, List.dropWhile_cons, hx] using hrest

theorem dropWhile_eq_nil (h : b ∉ bytes) : bytes.dropWhile (· != b) = [] :=
  List.dropWhile_eq_nil_iff.mpr fun _ hx => bne_iff_ne.mpr (ne_of_mem_of_not_mem hx h)

theorem Encoded.behind (h : bytes.Encoded) (hb : b.toNat < 0x80) :
    Encoded ((bytes.dropWhile (· != b)).drop 1) := by
  by_cases hmem : b ∈ bytes
  · rw [← takeWhile_append_cons hmem] at h
    exact (h.parted hb).2
  · rw [dropWhile_eq_nil hmem]
    exact encoded_nil

/-- What stands before the last byte of a kind. -/
theorem Encoded.before (h : bytes.Encoded) (hb : b.toNat < 0x80) :
    Encoded ((bytes.reverse.dropWhile (· != b)).drop 1).reverse := by
  by_cases hmem : b ∈ bytes
  · have hsplit := congrArg List.reverse (takeWhile_append_cons (List.mem_reverse.mpr hmem))
    rw [List.reverse_append, List.reverse_cons, List.append_assoc, List.reverse_reverse] at hsplit
    rw [← hsplit] at h
    exact (h.parted hb).1
  · rw [dropWhile_eq_nil fun hreverse => hmem (List.mem_reverse.mp hreverse)]
    exact encoded_nil

end Bytes

end TypeGraft
