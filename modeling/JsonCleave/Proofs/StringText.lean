import JsonCleave.Scan.StringLexeme
import JsonCleave.Proofs.NumberText
import JsonCleave.Written.Literal
/-!
# Strings read back

The bytes of a literal are decoded character by character: each stands for itself in UTF-8, or is
escaped.
-/

namespace JsonCleave

namespace StringLexeme

/-- The bytes lead from one string lexeme to another. -/
def Spells (l : StringLexeme) : List UInt8 → StringLexeme → Prop
  | [], l' => l = l'
  | b :: rest, l' => ∃ between, l.push b = .more between ∧ Spells between rest l'

theorem Spells.append {l l' l'' : StringLexeme} {as bs : List UInt8} (has : l.Spells as l')
    (hbs : l'.Spells bs l'') : l.Spells (as ++ bs) l'' := by
  induction as generalizing l with
  | nil =>
    obtain rfl : l = l' := has
    exact hbs
  | cons a as ih =>
    obtain ⟨between, hpush, hrest⟩ := has
    exact ⟨between, hpush, ih hrest⟩

/-! ## Characters in UTF-8 -/

theorem putCode_toNat (l : StringLexeme) (c : Char) : l.putCode c.toNat = l.put c := by
  have hvalid : c.toNat.isValidChar := c.valid
  rw [putCode, if_pos hvalid, Char.ofNat_toNat]

theorem pushPlain_ascii {b : UInt8} (l : StringLexeme) (hquote : b ≠ '"'.toUInt8)
    (hbackslash : b ≠ '\\'.toUInt8) (hcontrol : 0x20 ≤ b.toNat) (hascii : b.toNat < 0x80) :
    l.pushPlain b = l.putCode b.toNat := by
  have hlow : ¬b < 0x20 := by
    rw [UInt8.lt_iff_toNat_lt]
    exact Nat.not_lt.mpr hcontrol
  have hhigh : b < 0x80 := UInt8.lt_iff_toNat_lt.mpr hascii
  rw [pushPlain, if_neg hquote, if_neg hbackslash, if_neg hlow, if_pos hhigh]

theorem pushPlain_lead {b : UInt8} (l : StringLexeme) (hlead : 0xc0 ≤ b.toNat) :
    l.pushPlain b =
      if b.toNat < 0xe0 then .more { l with phase := .multibyte 1 (b.toNat - 0xc0) 0x80 }
      else if b.toNat < 0xf0 then .more { l with phase := .multibyte 2 (b.toNat - 0xe0) 0x800 }
      else if b.toNat < 0xf8 then .more { l with phase := .multibyte 3 (b.toNat - 0xf0) 0x10000 }
      else .refused := by
  have hne {b' : UInt8} (hb' : b'.toNat < 0xc0) : b ≠ b' := by
    rintro rfl
    omega
  have hge {b' : UInt8} (hb' : b'.toNat ≤ 0xc0) : ¬b < b' := by
    rw [UInt8.lt_iff_toNat_lt]
    omega
  rw [pushPlain, if_neg (hne (by decide)), if_neg (hne (by decide)), if_neg (hge (by decide)),
    if_neg (hge (by decide)), if_neg (hge (by decide))]
  rfl

theorem toNat_byte {k : Nat} (hk : k < 256) : (UInt8.ofNat k).toNat = k :=
  UInt8.toNat_ofNat_of_lt' hk

theorem pushMultibyte_tail (l : StringLexeme) (due code least : Nat) {k : Nat} (hk : k < 0x40) :
    l.pushMultibyte due code least (UInt8.ofNat (k + 0x80)) =
      if due ≤ 1 then
        if least ≤ code * 64 + k then l.putCode (code * 64 + k) else .more (spoil .plain)
      else .more { l with phase := .multibyte (due - 1) (code * 64 + k) least } := by
  have hbyte : (UInt8.ofNat (k + 0x80)).toNat = k + 0x80 := toNat_byte (by omega)
  have hrange : 0x80 ≤ UInt8.ofNat (k + 0x80) ∧ UInt8.ofNat (k + 0x80) < 0xc0 := by
    rw [UInt8.le_iff_toNat_le, UInt8.lt_iff_toNat_lt, hbyte]
    show 0x80 ≤ k + 0x80 ∧ k + 0x80 < 0xc0
    omega
  rw [pushMultibyte, if_pos hrange, hbyte, Nat.add_sub_cancel]

theorem push_lead_two (reversed : Option (List Char)) {k : Nat} (hk : k < 0x20) :
    push ⟨.plain, reversed⟩ (UInt8.ofNat (k + 0xc0)) =
      .more ⟨.multibyte 1 k 0x80, reversed⟩ := by
  have hbyte : (UInt8.ofNat (k + 0xc0)).toNat = k + 0xc0 := toNat_byte (by omega)
  have hpush := pushPlain_lead ⟨.plain, reversed⟩ (b := UInt8.ofNat (k + 0xc0)) (by omega)
  rw [hbyte, if_pos (by omega), Nat.add_sub_cancel] at hpush
  exact hpush

theorem push_lead_three (reversed : Option (List Char)) {k : Nat} (hk : k < 0x10) :
    push ⟨.plain, reversed⟩ (UInt8.ofNat (k + 0xe0)) =
      .more ⟨.multibyte 2 k 0x800, reversed⟩ := by
  have hbyte : (UInt8.ofNat (k + 0xe0)).toNat = k + 0xe0 := toNat_byte (by omega)
  have hpush := pushPlain_lead ⟨.plain, reversed⟩ (b := UInt8.ofNat (k + 0xe0)) (by omega)
  rw [hbyte, if_neg (by omega), if_pos (by omega), Nat.add_sub_cancel] at hpush
  exact hpush

theorem push_lead_four (reversed : Option (List Char)) {k : Nat} (hk : k < 8) :
    push ⟨.plain, reversed⟩ (UInt8.ofNat (k + 0xf0)) =
      .more ⟨.multibyte 3 k 0x10000, reversed⟩ := by
  have hbyte : (UInt8.ofNat (k + 0xf0)).toNat = k + 0xf0 := toNat_byte (by omega)
  have hpush := pushPlain_lead ⟨.plain, reversed⟩ (b := UInt8.ofNat (k + 0xf0)) (by omega)
  rw [hbyte, if_neg (by omega), if_neg (by omega), if_pos (by omega), Nat.add_sub_cancel] at hpush
  exact hpush

theorem push_middle (reversed : Option (List Char)) {due code least k : Nat} (hdue : 1 < due)
    (hk : k < 0x40) :
    push ⟨.multibyte due code least, reversed⟩ (UInt8.ofNat (k + 0x80)) =
      .more ⟨.multibyte (due - 1) (code * 64 + k) least, reversed⟩ := by
  show pushMultibyte _ due code least _ = _
  rw [pushMultibyte_tail _ _ _ _ hk, if_neg (by omega)]

theorem push_last (reversed : List Char) {code least k : Nat} {c : Char} (hk : k < 0x40)
    (hcode : code * 64 + k = c.toNat) (hleast : least ≤ c.toNat) :
    push ⟨.multibyte 1 code least, some reversed⟩ (UInt8.ofNat (k + 0x80)) =
      .more ⟨.plain, some (c :: reversed)⟩ := by
  show pushMultibyte _ 1 code least _ = _
  rw [pushMultibyte_tail _ _ _ _ hk, if_pos (Nat.le_refl 1), hcode, if_pos hleast, putCode_toNat]
  rfl

theorem spells_utf8 (c : Char) (hquote : c ≠ '"') (hbackslash : c ≠ '\\')
    (hcontrol : 0x20 ≤ c.toNat) (reversed : List Char) :
    Spells ⟨.plain, some reversed⟩ (String.utf8EncodeChar c) ⟨.plain, some (c :: reversed)⟩ := by
  have hcode : c.val.toNat = c.toNat := rfl
  have hvalid : c.toNat < 0xd800 ∨ 0xdfff < c.toNat ∧ c.toNat < 0x110000 := c.valid
  rw [String.utf8EncodeChar, hcode]
  split
  · rename_i hascii
    have hbyte : (UInt8.ofNat c.toNat).toNat = c.toNat := toNat_byte (by omega)
    have hne {d : Char} (hd : d.toUInt8.toNat = d.toNat) (hc : c ≠ d) :
        UInt8.ofNat c.toNat ≠ d.toUInt8 := by
      intro heq
      apply hc
      apply Char.toNat_inj.mp
      rw [← hbyte, heq, hd]
    refine ⟨_, ?_, rfl⟩
    show pushPlain _ _ = _
    rw [pushPlain_ascii _ (hne rfl hquote) (hne rfl hbackslash) (by omega) (by omega), hbyte,
      putCode_toNat]
    rfl
  · split
    · refine ⟨_, push_lead_two _ (by omega), _, push_last _ (by omega) ?_ (by omega), rfl⟩
      omega
    · split
      · refine ⟨_, push_lead_three _ (by omega), _, push_middle _ (by omega) (by omega), _,
          push_last _ (by omega) ?_ (by omega), rfl⟩
        omega
      · refine ⟨_, push_lead_four _ (by omega), _, push_middle _ (by omega) (by omega), _,
          push_middle _ (by omega) (by omega), _, push_last _ (by omega) ?_ (by omega), rfl⟩
        omega

/-! ## Escapes -/

theorem spells_letter {b : UInt8} {c : Char} (hletter : b ≠ 'u'.toUInt8)
    (hescaped : escaped? b = some c) (reversed : List Char) :
    Spells ⟨.plain, some reversed⟩ ['\\'.toUInt8, b] ⟨.plain, some (c :: reversed)⟩ := by
  refine ⟨⟨.escape, some reversed⟩, rfl, ⟨.plain, some (c :: reversed)⟩, ?_, rfl⟩
  show pushEscape _ b = _
  rw [pushEscape, if_neg hletter, hescaped]
  rfl

theorem hexDigit?_hexDigit :
    ∀ n < 16, hexDigit? (hexDigit n).toUInt8 = some n ∧ (hexDigit n).toNat < 128 := by
  decide

theorem push_hex (reversed : Option (List Char)) {due code d : Nat} (hdue : 1 < due)
    (hd : d < 16) :
    push ⟨.hex due code none, reversed⟩ (hexDigit d).toUInt8 =
      .more ⟨.hex (due - 1) (code * 16 + d) none, reversed⟩ := by
  show pushHex _ due code none _ = _
  rw [pushHex, (hexDigit?_hexDigit d hd).1]
  dsimp only
  rw [if_neg (by omega)]

theorem spells_control {c : Char} (hcontrol : c.toNat < 0x20) (reversed : List Char) :
    Spells ⟨.plain, some reversed⟩
      (charBytes ['\\', 'u', '0', '0', hexDigit (c.toNat / 16), hexDigit (c.toNat % 16)])
      ⟨.plain, some (c :: reversed)⟩ := by
  have hhigh : c.toNat / 16 < 16 := by omega
  have hlow : c.toNat % 16 < 16 := Nat.mod_lt _ (by decide)
  rw [charBytes_cons_ascii (by decide), charBytes_cons_ascii (by decide),
    charBytes_cons_ascii (by decide), charBytes_cons_ascii (by decide),
    charBytes_cons_ascii (hexDigit?_hexDigit _ hhigh).2,
    charBytes_cons_ascii (hexDigit?_hexDigit _ hlow).2, charBytes_nil]
  refine ⟨⟨.escape, some reversed⟩, rfl, ⟨.hex 4 0 none, some reversed⟩, rfl,
    ⟨.hex 3 0 none, some reversed⟩, rfl, ⟨.hex 2 0 none, some reversed⟩, rfl,
    ⟨.hex 1 (0 * 16 + c.toNat / 16) none, some reversed⟩, push_hex _ (by decide) hhigh,
    ⟨.plain, some (c :: reversed)⟩, ?_, rfl⟩
  have hcode : (0 * 16 + c.toNat / 16) * 16 + c.toNat % 16 = c.toNat := by omega
  have hsurrogate : isHighSurrogate c.toNat = false := by
    simp [isHighSurrogate]
    omega
  show pushHex _ 1 _ none _ = _
  rw [pushHex, (hexDigit?_hexDigit _ hlow).1]
  dsimp only
  rw [if_pos (Nat.le_refl 1), hcode, endHex, hsurrogate]
  exact putCode_toNat _ c

/-- The literal of a character decodes to the character. -/
theorem spells_literalChar (c : Char) (reversed : List Char) :
    Spells ⟨.plain, some reversed⟩ (charBytes (literalChar c)) ⟨.plain, some (c :: reversed)⟩ := by
  rw [literalChar]
  split
  · subst c
    exact spells_letter (by decide) (by decide) reversed
  split
  · subst c
    exact spells_letter (by decide) (by decide) reversed
  split
  · subst c
    exact spells_letter (by decide) (by decide) reversed
  split
  · subst c
    exact spells_letter (by decide) (by decide) reversed
  split
  · subst c
    exact spells_letter (by decide) (by decide) reversed
  split
  · subst c
    exact spells_letter (by decide) (by decide) reversed
  split
  · subst c
    exact spells_letter (by decide) (by decide) reversed
  split
  · rename_i hcontrol
    exact spells_control hcontrol reversed
  · rename_i hquote hbackslash _ _ _ _ _ hcontrol
    rw [charBytes, List.flatMap_singleton]
    exact spells_utf8 c hquote hbackslash (by omega) reversed

/-! ## Literals -/

theorem spells_literal (cs reversed : List Char) :
    Spells ⟨.plain, some reversed⟩ (charBytes (cs.flatMap literalChar))
      ⟨.plain, some (cs.reverse ++ reversed)⟩ := by
  induction cs generalizing reversed with
  | nil => rfl
  | cons c cs ih =>
    rw [List.flatMap_cons, charBytes_append, List.reverse_cons, List.append_assoc]
    exact (spells_literalChar c reversed).append (ih (c :: reversed))

theorem exists_utf8Bytes_literal (s : String) :
    ∃ bytes l, utf8Bytes (literal s) = '"'.toUInt8 :: (bytes ++ ['"'.toUInt8]) ∧
      Spells .start bytes l ∧ l.push '"'.toUInt8 = .complete s := by
  refine ⟨charBytes (s.toList.flatMap literalChar), ⟨.plain, some (s.toList.reverse ++ [])⟩, ?_,
    spells_literal s.toList [], ?_⟩
  · rw [literal, utf8Bytes_ofList, List.cons_append, charBytes_cons_ascii (by decide),
      charBytes_append]
    rfl
  · show pushPlain _ _ = _
    rw [pushPlain, if_pos rfl, close]
    simp

end StringLexeme

end JsonCleave
