import Mathlib.Data.List.Basic
import Mathlib.Tactic.SplitIfs
import ByteLexer.Byte.Escape

/-! # Reading spellings

    The spelling of a byte has one, two or four characters, and a text that is made of spellings has
    no separators. It is read back nevertheless, since a backslash never stands for itself alone.

    - **Characters** of spellings are visible ASCII characters.
    - **Reading** the spellings of any bytes gives these bytes.
-/

namespace ByteLexer.Byte

variable {b : UInt8} {bytes bytes' : List UInt8} {c : Char}

/-! ## Characters -/

theorem isGraphic_iff : isGraphic c = true ↔ 0x21 ≤ c.toNat ∧ c.toNat ≤ 0x7e := by
  rw [isGraphic, Bool.and_eq_true, decide_eq_true_iff, decide_eq_true_iff]

theorem hexDigit_graphic : ∀ n < 16, isGraphic (hexDigit n) = true := by
  decide

theorem hexValue?_hexDigit : ∀ n < 16, hexValue? (hexDigit n) = some n := by
  decide

/-- The bytes that are spelled by a backslash and one more character. -/
def shortSpellings : List (UInt8 × Char) :=
  [(0x5c, '\\'), (0x0d, 'r'), (0x0a, 'n'), (0x20, 's'), (0x09, 't')]

/-- The three forms of a spelling. -/
theorem escape_cases (b : UInt8) :
    (∃ c, (b, c) ∈ shortSpellings ∧ escape b = ['\\', c]) ∨
    (isGraphic (Char.ofUInt8 b) = true ∧ b ≠ 0x5c ∧ escape b = [Char.ofUInt8 b]) ∨
    escape b = ['\\', 'x', hexDigit (b.toNat / 16), hexDigit (b.toNat % 16)] := by
  unfold escape
  split_ifs with hbackslash hreturn hfeed hspace htab hgraphic
  · exact .inl ⟨'\\', by rw [hbackslash]; decide, rfl⟩
  · exact .inl ⟨'r', by rw [hreturn]; decide, rfl⟩
  · exact .inl ⟨'n', by rw [hfeed]; decide, rfl⟩
  · exact .inl ⟨'s', by rw [hspace]; decide, rfl⟩
  · exact .inl ⟨'t', by rw [htab]; decide, rfl⟩
  · exact .inr (.inl ⟨hgraphic, hbackslash, rfl⟩)
  · exact .inr (.inr rfl)

theorem hexDigits_lt (b : UInt8) : b.toNat / 16 < 16 ∧ b.toNat % 16 < 16 := by
  have h := b.toNat_lt
  omega

/-- Spellings are made of visible characters. -/
theorem graphic_of_mem_escape (h : c ∈ escape b) : isGraphic c = true := by
  rcases escape_cases b with ⟨d, hd, hescape⟩ | ⟨hgraphic, _, hescape⟩ | hescape
  · rw [hescape, List.mem_pair] at h
    rcases h with rfl | rfl
    · decide
    · have hall : shortSpellings.all (fun x => isGraphic x.2) = true := by decide
      exact List.all_eq_true.mp hall _ hd
  · rw [hescape, List.mem_singleton] at h
    rw [h]
    exact hgraphic
  · obtain ⟨hhigh, hlow⟩ := hexDigits_lt b
    rw [hescape] at h
    simp only [List.mem_cons, List.not_mem_nil, or_false] at h
    rcases h with rfl | rfl | rfl | rfl
    · decide
    · decide
    · exact hexDigit_graphic _ hhigh
    · exact hexDigit_graphic _ hlow

/-! ## Reading -/

/-- A visible character other than the backslash is read for itself. -/
theorem unescape_cons_of_graphic (hgraphic : isGraphic c = true) (hne : c ≠ '\\')
    (rest : List Char) : unescape (c :: rest) = (UInt8.ofNat c.toNat :: ·) <$> unescape rest := by
  rw [unescape, if_pos ⟨hgraphic, hne⟩]
  all_goals
    intros
    exact hne (by assumption)

/-- One spelling is read, whatever stands behind it. -/
theorem unescape_escape_append (b : UInt8) (rest : List Char) :
    unescape (escape b ++ rest) = (b :: ·) <$> unescape rest := by
  rcases escape_cases b with ⟨c, hc, hescape⟩ | ⟨hgraphic, hbackslash, hescape⟩ | hescape
  · rw [hescape]
    simp only [shortSpellings, List.mem_cons, Prod.mk.injEq, List.not_mem_nil, or_false] at hc
    rcases hc with ⟨rfl, rfl⟩ | ⟨rfl, rfl⟩ | ⟨rfl, rfl⟩ | ⟨rfl, rfl⟩ | ⟨rfl, rfl⟩ <;> rfl
  · have hne : Char.ofUInt8 b ≠ '\\' := fun h =>
      hbackslash (UInt8.toNat_inj.mp (congrArg Char.toNat h))
    rw [hescape, List.singleton_append, unescape_cons_of_graphic hgraphic hne]
    show (UInt8.ofNat b.toNat :: ·) <$> unescape rest = _
    rw [UInt8.ofNat_toNat]
  · obtain ⟨hhigh, hlow⟩ := hexDigits_lt b
    rw [hescape]
    show unescape ('\\' :: 'x' :: _ :: _ :: rest) = _
    rw [unescape, hexValue?_hexDigit _ hhigh, hexValue?_hexDigit _ hlow]
    show (UInt8.ofNat (16 * (b.toNat / 16) + b.toNat % 16) :: ·) <$> unescape rest = _
    rw [Nat.div_add_mod, UInt8.ofNat_toNat]

/-- So are many. -/
theorem unescape_flatMap_escape (bytes : List UInt8) :
    unescape (bytes.flatMap escape) = some bytes := by
  induction bytes with
  | nil => rfl
  | cons b bytes ih =>
    rw [List.flatMap_cons, unescape_escape_append, ih]
    rfl

/-- Different bytes are spelled differently. -/
theorem flatMap_escape_inj : bytes.flatMap escape = bytes'.flatMap escape ↔ bytes = bytes' := by
  constructor
  · intro h
    have hread := unescape_flatMap_escape bytes
    rw [h, unescape_flatMap_escape] at hread
    exact (Option.some.inj hread).symm
  · exact congrArg _

end ByteLexer.Byte
