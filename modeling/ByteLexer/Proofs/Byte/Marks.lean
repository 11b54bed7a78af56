import ByteLexer.Proofs.Byte.Escape
import ByteLexer.Proofs.Byte.Range

/-! # What ranges look like

    Ranges are written one after the other, without separators. The text of some ranges tells the
    bytes that are written in it, its marks: the ends of the ranges, and a dash between two ends
    that are not neighbours. Of a mark that is a dash, it does not tell whether it is such a dash
    or a byte of its own.

    - **Marks.** Two texts are the same if and only if their marks are.
    - **Twins.** Sets of bytes that can be taken for each other.
    - **First ranges.** How two lists of ranges with the same marks begin.
    - **Behind the dash** there is no doubt: ranges of greater bytes are told by their marks.
    - **Reading marks.** Sets with the same marks are the same, or twins.
-/

namespace ByteLexer.ByteRange

variable {r s t : ByteRange} {rs rs' : List ByteRange} {x y : UInt8} {xs ys : List UInt8}

/-! ## Marks -/

/-- The byte that is written between the ends of a range. -/
def dash : UInt8 := 0x2d

/-- The bytes that are written for a range. -/
def marks (r : ByteRange) : List UInt8 :=
  if r.first = r.last then [r.first]
  else if r.first.toNat + 1 = r.last.toNat then [r.first, r.last]
  else [r.first, dash, r.last]

/-- The dash is spelled as itself. -/
theorem text_eq (r : ByteRange) : r.text = r.marks.flatMap Byte.escape := by
  unfold text marks
  split_ifs with hone htwo
  · exact (List.flatMap_singleton _ _).symm
  · simp only [List.flatMap_cons, List.flatMap_nil, List.append_nil]
  · simp only [List.flatMap_cons, List.flatMap_nil, List.append_nil]
    rfl

/-- Texts are the same exactly if what is written in them is. -/
theorem flatMap_text_inj :
    rs.flatMap text = rs'.flatMap text ↔ rs.flatMap marks = rs'.flatMap marks := by
  have htext : ∀ rs : List ByteRange, rs.flatMap text = (rs.flatMap marks).flatMap Byte.escape := by
    intro rs
    rw [List.flatMap_assoc]
    exact congrArg List.flatten (List.map_congr_left fun r _ => text_eq r)
  rw [htext, htext, Byte.flatMap_escape_inj]

/-- A range is one byte, or two neighbours, or wider. -/
theorem marks_cases (h : r.first ≤ r.last) :
    (r = ofByte r.first ∧ r.marks = [r.first]) ∨
    (r.first.toNat + 1 = r.last.toNat ∧ r.marks = [r.first, r.last]) ∨
    (r.first.toNat + 1 < r.last.toNat ∧ r.marks = [r.first, dash, r.last]) := by
  unfold marks
  split_ifs with hone htwo
  · obtain ⟨first, last⟩ := r
    obtain rfl : first = last := hone
    exact .inl ⟨rfl, rfl⟩
  · exact .inr (.inl ⟨htwo, rfl⟩)
  · have hle := UInt8.le_iff_toNat_le.mp h
    have hne : r.first.toNat ≠ r.last.toNat := fun heq => hone (UInt8.toNat_inj.mp heq)
    exact .inr (.inr ⟨by omega, rfl⟩)

/-- The first mark is the first byte of the first range. -/
theorem exists_flatMap_marks_eq_cons (r : ByteRange) (rs : List ByteRange) :
    ∃ ms, (r :: rs).flatMap marks = r.first :: ms := by
  rw [List.flatMap_cons, marks]
  split_ifs with hone htwo
  · exact ⟨_, rfl⟩
  · exact ⟨_, rfl⟩
  · exact ⟨_, rfl⟩

theorem flatMap_marks_eq_nil : rs.flatMap marks = [] ↔ rs = [] := by
  rcases rs with _ | ⟨r, rs⟩
  · exact iff_of_true rfl rfl
  · obtain ⟨ms, hms⟩ := exists_flatMap_marks_eq_cons r rs
    rw [hms]
    exact iff_of_false (List.cons_ne_nil _ _) (List.cons_ne_nil _ _)

theorem exists_cons_of_marks_eq_cons {m : UInt8} {ms : List UInt8}
    (h : rs.flatMap marks = m :: ms) :
    ∃ s rest, rs = s :: rest ∧ s.first = m ∧ s.marks ++ rest.flatMap marks = m :: ms := by
  rcases rs with _ | ⟨s, rest⟩
  · cases h
  · obtain ⟨ms', hms⟩ := exists_flatMap_marks_eq_cons s rest
    refine ⟨s, rest, rfl, ?_, h⟩
    rw [hms, List.cons.injEq] at h
    exact h.1

/-! ## Twins -/

/-- Two sets of bytes, in increasing order, that are the same but between `x` and `y`, where the
    dash is. There is a gap on either side.

    - `ends`: one has the three bytes `x`, dash and `y`, the other has all from `x` to `y`.
    - `halves`: one has `x` and all from the dash to `y`, the other all from `x` to the dash, and
      `y`. -/
inductive Twins : List UInt8 → List UInt8 → Prop
  | ends {before after : List UInt8} {x y : UInt8}
      (hx : x.toNat < dash.toNat) (hy : dash.toNat < y.toNat)
      (hbefore : ∀ b ∈ before, b.toNat + 1 < x.toNat)
      (hafter : ∀ b ∈ after, y.toNat + 1 < b.toNat) :
      Twins (before ++ ([x, dash, y] ++ after)) (before ++ ((mk x y).bytes ++ after))
  | halves {before after : List UInt8} {x y : UInt8}
      (hx : x.toNat + 1 < dash.toNat) (hy : dash.toNat + 1 < y.toNat)
      (hbefore : ∀ b ∈ before, b.toNat + 1 < x.toNat)
      (hafter : ∀ b ∈ after, y.toNat + 1 < b.toNat) :
      Twins (before ++ ((x :: (mk dash y).bytes) ++ after))
        (before ++ (((mk x dash).bytes ++ [y]) ++ after))

theorem dash_mem_bytes (hx : x.toNat ≤ dash.toNat) (hy : dash.toNat ≤ y.toNat) :
    dash ∈ (mk x y).bytes :=
  mem_bytes.mpr ⟨UInt8.le_iff_toNat_le.mpr hx, UInt8.le_iff_toNat_le.mpr hy⟩

/-- Both have the dash. -/
theorem Twins.dash_mem (h : Twins xs ys) : dash ∈ xs ∧ dash ∈ ys := by
  cases h with
  | ends hx hy =>
    have hrange := dash_mem_bytes (Nat.le_of_lt hx) (Nat.le_of_lt hy)
    exact ⟨by simp, by simp [hrange]⟩
  | halves hx hy =>
    have hright := dash_mem_bytes (Nat.le_refl _) (Nat.le_of_succ_le (Nat.le_of_lt hy))
    have hleft := dash_mem_bytes (Nat.le_of_succ_le (Nat.le_of_lt hx)) (Nat.le_refl _)
    exact ⟨by simp [hright], by simp [hleft]⟩

/-- Twins stay twins if both get the same bytes in front, with a gap behind these. -/
theorem Twins.append_left {us : List UInt8} (h : Twins xs ys)
    (hus : ∀ b ∈ us, ∀ c ∈ xs, b.toNat + 1 < c.toNat) : Twins (us ++ xs) (us ++ ys) := by
  cases h with
  | ends hx hy hbefore hafter =>
    rw [← List.append_assoc, ← List.append_assoc us]
    refine .ends hx hy (List.forall_mem_append.mpr ⟨fun b hb => ?_, hbefore⟩) hafter
    exact hus b hb _ (by simp)
  | halves hx hy hbefore hafter =>
    rw [← List.append_assoc, ← List.append_assoc us]
    refine .halves hx hy (List.forall_mem_append.mpr ⟨fun b hb => ?_, hbefore⟩) hafter
    exact hus b hb _ (by simp)

/-! ## First ranges -/

/-- The next mark behind a range is behind the gap. -/
theorem Apart.lt_mark {m : UInt8} {ms : List UInt8} (h : Apart (r :: rs))
    (hm : rs.flatMap marks = m :: ms) : r.last.toNat + 1 < m.toNat := by
  obtain ⟨s, rest, rfl, rfl, _⟩ := exists_cons_of_marks_eq_cons hm
  exact h.gap s List.mem_cons_self

/-- A wide range has the marks of a narrower one and of what stands behind that: it begins with the
    same byte, and then there is a dash. -/
inductive Splits (r' : ByteRange) (rs' : List ByteRange) : ByteRange → List ByteRange → Prop
  | one {rs : List ByteRange} (hwide : r'.first.toNat + 1 < r'.last.toNat)
      (hmarks : rs.flatMap marks = dash :: r'.last :: rs'.flatMap marks) :
      Splits r' rs' (ofByte r'.first) rs
  | two {rs : List ByteRange} (hwide : r'.first.toNat + 1 < r'.last.toNat)
      (hdash : r'.first.toNat + 1 = dash.toNat)
      (hmarks : rs.flatMap marks = r'.last :: rs'.flatMap marks) :
      Splits r' rs' ⟨r'.first, dash⟩ rs

section Heads

variable (h : Apart (r :: rs)) (h' : Apart (s :: rs'))
  (hmarks : r.marks ++ rs.flatMap marks = s.marks ++ rs'.flatMap marks)

include h hmarks in
/-- A range of one byte is not followed by its neighbour, as it is in a range of two. -/
theorem not_neighbours (hone : r = ofByte r.first) (hrm : r.marks = [r.first])
    (htwo : s.first.toNat + 1 = s.last.toNat) (hsm : s.marks = [s.first, s.last]) : False := by
  rw [hrm, hsm] at hmarks
  obtain ⟨hfirst, htail⟩ := List.cons.inj hmarks
  have hgap := h.lt_mark htail
  have hlast : r.last = r.first := congrArg last hone
  rw [hlast, hfirst] at hgap
  omega

include hmarks in
/-- A wide range splits if the other one is not wide. -/
theorem splits_of_marks (hr : r.first ≤ r.last) (hrnarrow : r.last.toNat ≤ r.first.toNat + 1)
    (hswide : s.first.toNat + 1 < s.last.toNat) (hsm : s.marks = [s.first, dash, s.last]) :
    Splits s rs' r rs := by
  rcases marks_cases hr with ⟨hone, hrm⟩ | ⟨htwo, hrm⟩ | ⟨hwide, _⟩
  · rw [hrm, hsm] at hmarks
    obtain ⟨hfirst, htail⟩ := List.cons.inj hmarks
    rw [hone, hfirst]
    exact .one hswide htail
  · rw [hrm, hsm] at hmarks
    obtain ⟨hfirst, hmarks⟩ := List.cons.inj hmarks
    obtain ⟨hlast, htail⟩ := List.cons.inj hmarks
    rw [eq_of_ends_eq (s := ⟨s.first, dash⟩) hfirst hlast]
    rw [hlast, hfirst] at htwo
    exact .two hswide htwo htail
  · omega

include h h' hmarks in
/-- Where the marks are the same, the first ranges are, or one of them is split. -/
theorem heads_cases : (r = s ∧ rs.flatMap marks = rs'.flatMap marks) ∨
    Splits s rs' r rs ∨ Splits r rs s rs' := by
  have hr := h.head
  have hs := h'.head
  -- ranges of one form are told by their ends, and only a wide one is split by another form
  rcases marks_cases hr with ⟨hrone, hrm⟩ | ⟨hrtwo, hrm⟩ | ⟨hrwide, hrm⟩
  · have hrlast : r.last.toNat = r.first.toNat := congrArg (fun r => r.last.toNat) hrone
    rcases marks_cases hs with ⟨hsone, hsm⟩ | ⟨hstwo, hsm⟩ | ⟨hswide, hsm⟩
    · rw [hrm, hsm] at hmarks
      obtain ⟨hfirst, htail⟩ := List.cons.inj hmarks
      rw [hsone, ← hfirst]
      exact .inl ⟨hrone, htail⟩
    · exact (not_neighbours h hmarks hrone hrm hstwo hsm).elim
    · exact .inr (.inl (splits_of_marks hmarks hr (by omega) hswide hsm))
  · rcases marks_cases hs with ⟨hsone, hsm⟩ | ⟨hstwo, hsm⟩ | ⟨hswide, hsm⟩
    · exact (not_neighbours h' hmarks.symm hsone hsm hrtwo hrm).elim
    · rw [hrm, hsm] at hmarks
      obtain ⟨hfirst, hmarks⟩ := List.cons.inj hmarks
      obtain ⟨hlast, htail⟩ := List.cons.inj hmarks
      exact .inl ⟨eq_of_ends_eq hfirst hlast, htail⟩
    · exact .inr (.inl (splits_of_marks hmarks hr (by omega) hswide hsm))
  · rcases marks_cases hs with ⟨hsone, hsm⟩ | ⟨hstwo, hsm⟩ | ⟨hswide, hsm⟩
    · have hslast : s.last.toNat = s.first.toNat := congrArg (fun r => r.last.toNat) hsone
      exact .inr (.inr (splits_of_marks hmarks.symm hs (by omega) hrwide hrm))
    · exact .inr (.inr (splits_of_marks hmarks.symm hs (by omega) hrwide hrm))
    · rw [hrm, hsm] at hmarks
      obtain ⟨hfirst, hmarks⟩ := List.cons.inj hmarks
      obtain ⟨hlast, htail⟩ := List.cons.inj (List.cons.inj hmarks).2
      exact .inl ⟨eq_of_ends_eq hfirst hlast, htail⟩

end Heads

/-! ## Behind the dash -/

/-- Only greater ranges stand behind one that is not smaller. -/
theorem Apart.dash_lt_tail (h : Apart (r :: rs)) (hr : dash.toNat ≤ r.first.toNat) :
    ∀ s ∈ rs, dash.toNat < s.first.toNat := by
  intro s hs
  have hle := UInt8.le_iff_toNat_le.mp h.head
  have hgap := h.gap s hs
  omega

/-- A range of bytes that are greater than the dash is not split. -/
theorem Apart.not_splits (h : Apart (r :: rs)) (hr : dash.toNat < r.first.toNat) :
    ¬Splits s rs' r rs := by
  intro hsplits
  cases hsplits with
  | one hwide hmarks =>
    -- the next mark would be the dash, which is not behind the range
    have hgap := h.lt_mark hmarks
    have hone : (ofByte s.first).first = (ofByte s.first).last := rfl
    rw [hone] at hr
    omega
  | two hwide hdash =>
    dsimp only at hr
    omega

/-- Ranges of bytes that are greater than the dash are told by their marks, by induction on one of
    the two lists. -/
theorem eq_of_marks_eq (h : Apart rs) (h' : Apart rs')
    (hdash : ∀ r ∈ rs, dash.toNat < r.first.toNat)
    (hmarks : rs.flatMap marks = rs'.flatMap marks) : rs = rs' := by
  induction rs generalizing rs' with
  | nil => exact (flatMap_marks_eq_nil.mp hmarks.symm).symm
  | cons r rs ih =>
    have hr := hdash r List.mem_cons_self
    obtain ⟨ms, hms⟩ := exists_flatMap_marks_eq_cons r rs
    obtain ⟨s, rest, rfl, hfirst, _⟩ := exists_cons_of_marks_eq_cons (hmarks.symm.trans hms)
    rw [List.flatMap_cons, List.flatMap_cons] at hmarks
    rcases heads_cases h h' hmarks with ⟨rfl, htail⟩ | hsplits | hsplits
    · rw [ih h.tail h'.tail (h.dash_lt_tail (Nat.le_of_lt hr)) htail]
    · exact absurd hsplits (h.not_splits hr)
    · rw [← hfirst] at hr
      exact absurd hsplits (h'.not_splits hr)

/-- Behind the dash, where one list of ranges is behind a byte and the other one begins with it, the
    byte is a range of its own. -/
theorem eq_ofByte_of_marks (h : Apart (t :: rs)) (h' : Apart (s :: rs'))
    (ht : dash.toNat < t.first.toNat) (hlast : s.last = t.first)
    (hmarks : t.marks ++ rs.flatMap marks = s.last :: rs'.flatMap marks) :
    t = ofByte s.last ∧ rs = rs' := by
  have hle := h.head
  rw [hlast] at hmarks ⊢
  rcases marks_cases hle with ⟨hone, htm⟩ | ⟨htwo, htm⟩ | ⟨hwide, htm⟩
  · rw [htm] at hmarks
    refine ⟨hone, eq_of_marks_eq h.tail h'.tail
      (h.dash_lt_tail (Nat.le_of_lt ht)) (List.cons.inj hmarks).2⟩
  · -- the neighbour would be behind the gap
    rw [htm] at hmarks
    have hgap := h'.lt_mark (List.cons.inj hmarks).2.symm
    rw [hlast] at hgap
    omega
  · -- so would the dash
    rw [htm] at hmarks
    have hgap := h'.lt_mark (List.cons.inj hmarks).2.symm
    rw [hlast] at hgap
    omega

/-! ## Reading marks -/

theorem Apart.lt_of_mem (h : Apart (r :: rs)) :
    ∀ b ∈ rs.flatMap bytes, r.last.toNat + 1 < b.toNat := by
  intro b hb
  obtain ⟨s, hs, hb⟩ := List.mem_flatMap.mp hb
  have hfirst := UInt8.le_iff_toNat_le.mp (mem_bytes.mp hb).1
  have hgap := h.gap s hs
  omega

theorem Apart.lt_of_mem_of_mem (h : Apart (r :: rs)) :
    ∀ b ∈ r.bytes, ∀ c ∈ rs.flatMap bytes, b.toNat + 1 < c.toNat := by
  intro b hb c hc
  have hlast := UInt8.le_iff_toNat_le.mp (mem_bytes.mp hb).2
  have hlt := h.lt_of_mem c hc
  omega

theorem bytes_two (h : x.toNat + 1 = y.toNat) : (mk x y).bytes = [x, y] := by
  have hcons : (mk x y).bytes = x :: (ofByte y).bytes :=
    bytes_mk (r := ofByte y) h (UInt8.le_refl y)
  rw [hcons, bytes_ofByte]

/-- Three bytes in place of a range. -/
theorem twins_of_ends (h' : Apart (mk x y :: rs')) (hx : x.toNat < dash.toNat)
    (hy : dash.toNat < y.toNat) (hbytes : xs = [x, dash, y] ++ rs'.flatMap bytes) :
    Twins xs ((mk x y :: rs').flatMap bytes) := by
  rw [hbytes, List.flatMap_cons]
  exact @Twins.ends [] _ x y hx hy (List.forall_mem_nil _) h'.lt_of_mem

/-- Where a range is split, the bytes are twins. -/
theorem twins_of_splits (h : Apart (r :: rs)) (h' : Apart (s :: rs'))
    (hsplits : Splits s rs' r rs) :
    Twins ((r :: rs).flatMap bytes) ((s :: rs').flatMap bytes) := by
  obtain ⟨x, y⟩ := s
  cases hsplits with
  | two hwide hdash hmarks =>
    obtain ⟨t, rest, rfl, ht, htail⟩ := exists_cons_of_marks_eq_cons hmarks
    have hy := h.lt_mark hmarks
    dsimp only at hwide hdash ht hy
    have hdt : dash.toNat < t.first.toNat := by
      rw [ht]
      exact Nat.lt_of_succ_lt hy
    obtain ⟨rfl, rfl⟩ := eq_ofByte_of_marks h.tail h' hdt ht.symm htail
    refine twins_of_ends h' (by omega) (by omega) ?_
    rw [List.flatMap_cons, List.flatMap_cons, bytes_two hdash, bytes_ofByte]
    rfl
  | one hwide hmarks =>
    obtain ⟨u, rest, rfl, hu, htail⟩ := exists_cons_of_marks_eq_cons hmarks
    have hx : x.toNat + 1 < dash.toNat := h.lt_mark hmarks
    have hrest := h.tail
    dsimp only at hwide htail
    rw [List.flatMap_cons, List.flatMap_cons, bytes_ofByte]
    -- the dash is a range of its own, or begins one of two bytes, or a wide one
    rcases marks_cases hrest.head with ⟨hone, hum⟩ | ⟨htwo, hum⟩ | ⟨hwide', hum⟩
    · rw [hum] at htail
      obtain ⟨t, rest, rfl, ht, htail'⟩ := exists_cons_of_marks_eq_cons (List.cons.inj htail).2
      have hy := hrest.lt_mark (List.cons.inj htail).2
      rw [hone, hu] at hy
      have hdt : dash.toNat < t.first.toNat := by
        rw [ht]
        exact Nat.lt_of_succ_lt hy
      obtain ⟨rfl, rfl⟩ := eq_ofByte_of_marks hrest.tail h' hdt ht.symm htail'
      refine twins_of_ends h' (Nat.lt_of_succ_lt hx) (Nat.lt_of_succ_lt hy) ?_
      rw [hone, hu, List.flatMap_cons, bytes_ofByte, bytes_ofByte]
      rfl
    · rw [hum] at htail
      obtain ⟨hlast, htail'⟩ := List.cons.inj (List.cons.inj htail).2
      rw [hu, hlast] at htwo
      have hsame := eq_of_marks_eq hrest.tail h'.tail
        (hrest.dash_lt_tail (Nat.le_of_eq (congrArg UInt8.toNat hu.symm))) htail'
      refine twins_of_ends h' (Nat.lt_of_succ_lt hx) (by omega) ?_
      rw [eq_of_ends_eq (s := ⟨dash, y⟩) hu hlast, bytes_two htwo, hsame]
      rfl
    · rw [hum] at htail
      -- both ranges are wide: one ends with the dash, and the other one begins with it
      obtain ⟨rfl, htail'⟩ := List.cons.inj (List.cons.inj htail).2
      obtain ⟨t, rest', rfl, ht, htail''⟩ := exists_cons_of_marks_eq_cons htail'.symm
      rw [hu] at hwide'
      have hdt : dash.toNat < t.first.toNat := by
        rw [ht]
        exact Nat.lt_of_succ_lt hwide'
      obtain ⟨rfl, rfl⟩ := eq_ofByte_of_marks h'.tail hrest hdt ht.symm htail''
      have hu' : u.bytes = (mk dash u.last).bytes := by
        rw [eq_of_ends_eq (s := ⟨dash, u.last⟩) hu rfl]
      rw [hu', List.flatMap_cons, List.flatMap_cons, bytes_ofByte, ← List.append_assoc,
        ← List.append_assoc]
      exact @Twins.halves [] _ x u.last hx hwide' (List.forall_mem_nil _) hrest.lt_of_mem

/-- Ranges with the same marks hold the same bytes, or twins, by induction on one of the lists. -/
theorem eq_or_twins_of_marks (h : Apart rs) (h' : Apart rs')
    (hmarks : rs.flatMap marks = rs'.flatMap marks) :
    rs.flatMap bytes = rs'.flatMap bytes ∨
      Twins (rs.flatMap bytes) (rs'.flatMap bytes) ∨
      Twins (rs'.flatMap bytes) (rs.flatMap bytes) := by
  induction rs generalizing rs' with
  | nil =>
    rw [flatMap_marks_eq_nil.mp hmarks.symm]
    exact .inl rfl
  | cons r rs ih =>
    rcases rs' with _ | ⟨s, rs'⟩
    · rw [flatMap_marks_eq_nil.mp hmarks]
      exact .inl rfl
    · rw [List.flatMap_cons, List.flatMap_cons] at hmarks
      rcases heads_cases h h' hmarks with ⟨rfl, htail⟩ | hsplits | hsplits
      · rw [List.flatMap_cons, List.flatMap_cons]
        rcases ih h.tail h'.tail htail with heq | htwins | htwins
        · exact .inl (by rw [heq])
        · exact .inr (.inl (htwins.append_left h.lt_of_mem_of_mem))
        · exact .inr (.inr (htwins.append_left h'.lt_of_mem_of_mem))
      · -- behind the range that is split, there is no more doubt
        exact .inr (.inl (twins_of_splits h h' hsplits))
      · exact .inr (.inr (twins_of_splits h' h hsplits))

/-- Bytes from `x` to `y` with a gap on either side are compressed on their own. -/
theorem marks_runs_between {before mid mid' after : List UInt8}
    (hbefore : ∀ b ∈ before, b.toNat + 1 < x.toNat) (hafter : ∀ b ∈ after, y.toNat + 1 < b.toNat)
    (hmid : ∀ b ∈ mid, b ∈ (mk x y).bytes) (hmid' : ∀ b ∈ mid', b ∈ (mk x y).bytes)
    (hxy : x.toNat ≤ y.toNat) (h : (runs mid).flatMap marks = (runs mid').flatMap marks) :
    (runs (before ++ (mid ++ after))).flatMap marks =
      (runs (before ++ (mid' ++ after))).flatMap marks := by
  have hruns : ∀ us : List UInt8, (∀ b ∈ us, b ∈ (mk x y).bytes) →
      runs (before ++ (us ++ after)) = runs before ++ (runs us ++ runs after) := by
    intro us hus
    simp only [mem_bytes, UInt8.le_iff_toNat_le] at hus
    rw [runs_append, runs_append]
    · intro b hb c hc
      have hb' := hus b hb
      have hc' := hafter c hc
      omega
    · intro b hb c hc
      have hb' := hbefore b hb
      rcases List.mem_append.mp hc with hc | hc
      · have hc' := hus c hc
        omega
      · have hc' := hafter c hc
        omega
  rw [hruns mid hmid, hruns mid' hmid']
  simp only [List.flatMap_append, h]

theorem marks_wide (h : x.toNat + 1 < y.toNat) : (mk x y).marks = [x, dash, y] := by
  have hne : x ≠ y := fun heq => by
    rw [heq] at h
    omega
  exact (if_neg hne).trans (if_neg (Nat.ne_of_lt h))

/-- Three bytes with the dash in the middle are their marks, whether they are neighbours or not. -/
theorem marks_runs_three (hx : x.toNat < dash.toNat) (hy : dash.toNat < y.toNat) :
    (runs [x, dash, y]).flatMap marks = [x, dash, y] := by
  have hruns : runs [x, dash, y] = consRun x (consRun dash [ofByte y]) := rfl
  have hxd : x ≠ dash := fun h => Nat.ne_of_lt hx (congrArg UInt8.toNat h)
  have hdy : dash ≠ y := fun h => Nat.ne_of_lt hy (congrArg UInt8.toNat h)
  have hxy : x ≠ y := fun h => Nat.ne_of_lt (Nat.lt_trans hx hy) (congrArg UInt8.toNat h)
  rw [hruns]
  by_cases hright : dash.toNat + 1 = y.toNat
  · by_cases hleft : x.toNat + 1 = dash.toNat
    · simp [consRun, marks, ofByte, hright, hleft, hxy, Nat.ne_of_lt hy]
    · simp [consRun, marks, ofByte, hright, hleft, hdy]
  · by_cases hleft : x.toNat + 1 = dash.toNat
    · simp [consRun, marks, ofByte, hright, hleft, hxd]
    · simp [consRun, marks, ofByte, hright, hleft]

theorem marks_runs_halves (hx : x.toNat + 1 < dash.toNat) (hy : dash.toNat + 1 < y.toNat) :
    (runs (x :: (mk dash y).bytes)).flatMap marks =
      (runs ((mk x dash).bytes ++ [y])).flatMap marks := by
  have hleft : (mk x dash).first ≤ (mk x dash).last :=
    UInt8.le_iff_toNat_le.mpr (Nat.le_of_succ_le (Nat.le_of_lt hx))
  have hright : (mk dash y).first ≤ (mk dash y).last :=
    UInt8.le_iff_toNat_le.mpr (Nat.le_of_succ_le (Nat.le_of_lt hy))
  have hruns : runs (x :: (mk dash y).bytes) = [ofByte x, mk dash y] := by
    rw [runs_cons, runs_bytes hright]
    exact if_neg (Nat.ne_of_lt hx)
  have hruns' : runs ((mk x dash).bytes ++ [y]) = [mk x dash, ofByte y] := by
    rw [runs_append, runs_bytes hleft]
    · rfl
    · intro b hb c hc
      rw [List.mem_singleton.mp hc]
      have hb' : b.toNat ≤ dash.toNat := UInt8.le_iff_toNat_le.mp (mem_bytes.mp hb).2
      omega
  have hone : ∀ b, (ofByte b).marks = [b] := fun _ => if_pos rfl
  simp only [hruns, hruns', List.flatMap_cons, hone, marks_wide hx, marks_wide hy]
  rfl

/-- Twins have the same marks: the dash in the middle can be read in either way. -/
theorem Twins.marks_eq (h : Twins xs ys) :
    (runs xs).flatMap marks = (runs ys).flatMap marks := by
  cases h with
  | @ends before after x y hx hy hbefore hafter =>
    have hthree : ∀ b ∈ [x, dash, y], b ∈ (mk x y).bytes := by
      simp only [List.forall_mem_cons, mem_bytes, UInt8.le_iff_toNat_le]
      exact ⟨by omega, by omega, by omega, List.forall_mem_nil _⟩
    have hle : (mk x y).first ≤ (mk x y).last := UInt8.le_iff_toNat_le.mpr (by dsimp only; omega)
    refine marks_runs_between hbefore hafter hthree (fun b hb => hb) (by omega) ?_
    rw [marks_runs_three hx hy, runs_bytes hle, List.flatMap_singleton, marks_wide (by omega)]
  | @halves before after x y hx hy hbefore hafter =>
    refine marks_runs_between hbefore hafter ?_ ?_ (by omega) (marks_runs_halves hx hy)
    · refine List.forall_mem_cons.mpr ⟨?_, fun b hb => ?_⟩
      · simp only [mem_bytes, UInt8.le_iff_toNat_le]
        omega
      · simp only [mem_bytes, UInt8.le_iff_toNat_le] at hb ⊢
        omega
    · refine List.forall_mem_append.mpr ⟨fun b hb => ?_, List.forall_mem_singleton.mpr ?_⟩
      · simp only [mem_bytes, UInt8.le_iff_toNat_le] at hb ⊢
        omega
      · simp only [mem_bytes, UInt8.le_iff_toNat_le]
        omega

/-- Two sets of bytes that cannot be told apart by what is written for them. -/
def WrittenAlike (xs ys : List UInt8) : Prop :=
  xs = ys ∨ Twins xs ys ∨ Twins ys xs

/-- If they are different, both have the dash. -/
theorem WrittenAlike.eq_or_dash_mem (h : WrittenAlike xs ys) :
    xs = ys ∨ dash ∈ xs ∧ dash ∈ ys := by
  rcases h with heq | h | h
  · exact .inl heq
  · exact .inr h.dash_mem
  · exact .inr h.dash_mem.symm

/-- The text of bytes in increasing order tells the bytes, but for twins. -/
theorem text_runs_eq_iff (hxs : xs.Pairwise (· < ·)) (hys : ys.Pairwise (· < ·)) :
    (runs xs).flatMap text = (runs ys).flatMap text ↔ WrittenAlike xs ys := by
  rw [flatMap_text_inj]
  constructor
  · intro hmarks
    have hcases := eq_or_twins_of_marks (apart_runs hxs) (apart_runs hys) hmarks
    rw [flatMap_bytes_runs, flatMap_bytes_runs] at hcases
    exact hcases
  · intro h
    rcases h with rfl | h | h
    · rfl
    · exact h.marks_eq
    · exact h.marks_eq.symm

end ByteLexer.ByteRange
