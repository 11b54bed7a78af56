import ByteLexer.Byte.Utf8
import Mathlib.Algebra.Ring.Nat
import Mathlib.Data.List.Basic

/-! # What decoding keeps

    Bytes may be no text at all, and sequences of several bytes become one character. But each ASCII
    byte stands for itself, wherever it is, and no ASCII character comes from anything else. So what
    is counted in ASCII is the same before and after decoding.

    - **Sequences.** What a sequence of several bytes can become is a scalar value above ASCII.
    - **Counting** an ASCII byte, by induction on the bytes, from the middle of any such sequence.
-/

namespace ByteLexer.Byte.Utf8

variable {p : Pending} {pending : Option Pending} {a b : UInt8} {bytes : List UInt8}

/-! ## Sequences -/

/-- The least value that a sequence can have. -/
def Pending.lowest (p : Pending) : Nat :=
  (64 * p.bits + (p.least.toNat - 0x80)) * 64 ^ p.more

/-- What the values that a sequence can have stay below. -/
def Pending.bound (p : Pending) : Nat :=
  (64 * p.bits + (p.greatest.toNat - 0x80) + 1) * 64 ^ p.more

/-- All values that a sequence can have are scalar values above ASCII.

    - `lead`: the next byte is none of ASCII.
    - `above`: no value is.
    - `scalar`: the values lie on one side of the surrogates, and none is too large. -/
structure Pending.Wide (p : Pending) : Prop where
  lead : 0x80 ≤ p.least.toNat
  above : 0x80 ≤ p.lowest
  scalar : p.bound ≤ 0xd800 ∨ 0xe000 ≤ p.lowest ∧ p.bound ≤ 0x110000

/-- A sequence that a byte begins is of this kind. -/
theorem Pending.wide_of_lead (h : ofLead? b = some p) : p.Wide := by
  unfold ofLead? at h
  simp only [UInt8.le_iff_toNat_le, ← UInt8.toNat_inj, UInt8.reduceToNat] at h
  -- for each interval of first bytes, the interval of the next one leaves out what is not allowed
  split_ifs at h <;> obtain rfl := Option.some.inj h
  all_goals
    constructor
    all_goals
      simp only [lowest, bound, UInt8.reduceToNat]
      omega

/-- It stays of this kind with the next byte, if there are more to come. -/
theorem Pending.Wide.next {more : Nat} (h : p.Wide) (hleast : p.least ≤ b)
    (hgreatest : b ≤ p.greatest) (hmore : p.more = more + 1) :
    Wide ⟨64 * p.bits + (b.toNat - 0x80), 0x80, 0xbf, more⟩ := by
  simp only [UInt8.le_iff_toNat_le] at hleast hgreatest
  have hlowest : p.lowest ≤ lowest ⟨64 * p.bits + (b.toNat - 0x80), 0x80, 0xbf, more⟩ := by
    unfold lowest
    rw [hmore, pow_succ', ← Nat.mul_assoc]
    refine Nat.mul_le_mul_right _ ?_
    simp only [UInt8.reduceToNat]
    omega
  have hbound : bound ⟨64 * p.bits + (b.toNat - 0x80), 0x80, 0xbf, more⟩ ≤ p.bound := by
    unfold bound
    rw [hmore, pow_succ', ← Nat.mul_assoc]
    refine Nat.mul_le_mul_right _ ?_
    simp only [UInt8.reduceToNat]
    omega
  refine ⟨Nat.le_refl _, Nat.le_trans h.above hlowest, ?_⟩
  rcases h.scalar with hlow | ⟨hhigh, hmax⟩
  · exact .inl (Nat.le_trans hbound hlow)
  · exact .inr ⟨Nat.le_trans hhigh hlowest, Nat.le_trans hbound hmax⟩

/-- The character at its end is none of ASCII. -/
theorem Pending.Wide.toNat_last (h : p.Wide) (hleast : p.least ≤ b)
    (hgreatest : b ≤ p.greatest) (hmore : p.more = 0) :
    0x80 ≤ (Char.ofNat (64 * p.bits + (b.toNat - 0x80))).toNat := by
  obtain ⟨n, hn⟩ : ∃ n, 64 * p.bits + (b.toNat - 0x80) = n := ⟨_, rfl⟩
  have habove := h.above
  have hscalar := h.scalar
  simp only [lowest, bound, hmore, pow_zero, mul_one] at habove hscalar
  simp only [UInt8.le_iff_toNat_le] at hleast hgreatest
  have hvalid : n.isValidChar := by
    unfold Nat.isValidChar
    omega
  unfold Char.ofNat
  rw [hn, dif_pos hvalid]
  show 0x80 ≤ n
  omega

/-! ## Counting -/

theorem toNat_ofUInt8 (b : UInt8) : (Char.ofUInt8 b).toNat = b.toNat :=
  rfl

/-- An ASCII byte is none that a sequence goes on with, and no character above ASCII. -/
theorem count_singleton_byte (ha : a < 0x80) (hb : 0x80 ≤ b.toNat) : [b].count a = 0 := by
  refine List.count_eq_zero.mpr fun hmem => ?_
  rw [List.mem_singleton.mp hmem, UInt8.lt_iff_toNat_lt] at ha
  exact absurd ha (Nat.not_lt.mpr hb)

theorem count_singleton_char {c : Char} (ha : a < 0x80) (hc : 0x80 ≤ c.toNat) :
    [c].count (Char.ofUInt8 a) = 0 := by
  refine List.count_eq_zero.mpr fun hmem => ?_
  rw [← List.mem_singleton.mp hmem, toNat_ofUInt8] at hc
  exact absurd (UInt8.lt_iff_toNat_lt.mp ha) (Nat.not_lt.mpr hc)

theorem ofUInt8_inj : Char.ofUInt8 a = Char.ofUInt8 b ↔ a = b :=
  ⟨fun h => UInt8.toNat.inj (congrArg Char.toNat h), congrArg Char.ofUInt8⟩

/-- Outside of a sequence, the byte is the character or there is neither. -/
theorem count_begin (ha : a < 0x80) (b : UInt8) :
    (begin b).1.count (Char.ofUInt8 a) = [b].count a := by
  unfold begin
  split
  case isTrue hb =>
    rw [List.count_singleton, List.count_singleton]
    simp only [beq_iff_eq, ofUInt8_inj]
  case isFalse hb =>
    rw [UInt8.lt_iff_toNat_lt, Nat.not_lt] at hb
    rw [count_singleton_byte ha hb]
    split
    · rfl
    · exact count_singleton_char ha (by decide)

theorem wide_begin (h : (begin b).2 = some p) : p.Wide := by
  unfold begin at h
  split at h
  · cases h
  · split at h
    case h_1 q hlead =>
      obtain rfl := Option.some.inj h
      exact Pending.wide_of_lead hlead
    case h_2 => cases h

/-- In the middle of a sequence, too: a byte that goes on with it is none of ASCII, nor is what it
    becomes, and any other byte begins anew. -/
theorem count_feed (ha : a < 0x80) (h : ∀ p, pending = some p → p.Wide) (b : UInt8) :
    (feed pending b).1.count (Char.ofUInt8 a) = [b].count a := by
  unfold feed
  split
  case h_1 => exact count_begin ha b
  case h_2 p =>
    have hp := h p rfl
    split
    case isTrue hb =>
      have hlead : 0x80 ≤ b.toNat := Nat.le_trans hp.lead (UInt8.le_iff_toNat_le.mp hb.1)
      rw [count_singleton_byte ha hlead]
      split
      case h_1 hmore => exact count_singleton_char ha (hp.toNat_last hb.1 hb.2 hmore)
      case h_2 => rfl
    case isFalse =>
      show (replacement :: (begin b).1).count (Char.ofUInt8 a) = _
      rw [← List.singleton_append, List.count_append, count_begin ha,
        count_singleton_char ha (by decide), Nat.zero_add]

theorem wide_feed (h : ∀ p, pending = some p → p.Wide) {q : Pending}
    (hq : (feed pending b).2 = some q) : q.Wide := by
  unfold feed at hq
  split at hq
  case h_1 => exact wide_begin hq
  case h_2 p =>
    have hp := h p rfl
    split at hq
    case isTrue hb =>
      split at hq
      case h_1 => cases hq
      case h_2 more hmore =>
        obtain rfl := Option.some.inj hq
        exact hp.next hb.1 hb.2 hmore
    case isFalse => exact wide_begin hq

/-- By induction on the bytes, from the middle of any sequence. -/
theorem count_decodeFrom (ha : a < 0x80) (h : ∀ p, pending = some p → p.Wide) :
    (decodeFrom pending bytes).count (Char.ofUInt8 a) = bytes.count a := by
  induction bytes generalizing pending with
  | nil =>
    unfold decodeFrom
    split
    · exact count_singleton_char ha (by decide)
    · rfl
  | cons b bytes ih =>
    show ((feed pending b).1 ++ decodeFrom (feed pending b).2 bytes).count _ = _
    rw [List.count_append, count_feed ha h, ih fun q hq => wide_feed h hq, ← List.count_append]
    rfl

/-- An ASCII byte occurs in a text as often as in the bytes that it is read from. -/
theorem count_decode (ha : a < 0x80) (bytes : List UInt8) :
    (decode bytes).toList.count (Char.ofUInt8 a) = bytes.count a := by
  rw [decode, String.toList_ofList]
  exact count_decodeFrom ha nofun

end ByteLexer.Byte.Utf8
