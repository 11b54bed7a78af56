import ByteLexer.Proofs.Byte.Range
import Mathlib.Data.List.Pairwise

/-! # Runs of bytes

    To compress bytes is to group them: nothing is lost, the order stays, and no two ranges that are
    written one after the other could have been one. That leaves no choice, whether the bytes are in
    order or not. If they are, the ranges are the intervals of the set.

    - **Groups.** There is one way to group bytes.
    - **Joining.** Ranges may be joined from left to right, with one that is not finished yet.
    - **Texts.** To look for the byte behind the first one of a range, there has to be one.
    - **Intervals** of a set of bytes.
-/

namespace ByteLexer.ByteRange

variable {r s : ByteRange} {rs : List ByteRange} {b c : UInt8} {xs ys : List UInt8}

/-! ## Groups -/

/-- Some ranges are some bytes in groups.

    - `ordered`: no range has its ends the wrong way round.
    - `lossless`: expanding the ranges, one after the other, gives the bytes.
    - `maximal`: no range begins with the byte behind the range before it. -/
structure Groups (rs : List ByteRange) (xs : List UInt8) : Prop where
  ordered : ∀ r ∈ rs, r.first ≤ r.last
  lossless : rs.flatMap bytes = xs
  maximal : rs.IsChain fun r s => r.last.toNat + 1 ≠ s.first.toNat

theorem size_of_le (h : r.first ≤ r.last) : r.size = r.last.toNat - r.first.toNat + 1 := by
  have hle := UInt8.le_iff_toNat_le.mp h
  unfold size
  omega

theorem head?_bytes (h : r.first ≤ r.last) : r.bytes.head? = some r.first := by
  rw [bytes, size_of_le h, List.range'_succ, List.map_cons, List.head?_cons, UInt8.ofNat_toNat]

theorem getLast?_bytes (h : r.first ≤ r.last) : r.bytes.getLast? = some r.last := by
  have hlast : r.first.toNat + (r.last.toNat - r.first.toNat) = r.last.toNat :=
    Nat.add_sub_of_le (UInt8.le_iff_toNat_le.mp h)
  rw [bytes, size_of_le h, List.range'_1_concat, hlast, List.map_append, List.map_singleton,
    List.getLast?_concat, UInt8.ofNat_toNat]

/-- The bytes of a range and others that do not go on where it ends. -/
theorem runs_bytes_append (h : r.first ≤ r.last)
    (hys : ∀ c ∈ ys.head?, r.last.toNat + 1 ≠ c.toNat) :
    runs (r.bytes ++ ys) = r :: runs ys := by
  have hmeet : ∀ b ∈ r.bytes.getLast?, ∀ c ∈ ys.head?, b.toNat + 1 ≠ c.toNat := by
    intro b hb c hc
    rw [getLast?_bytes h, Option.mem_some_iff] at hb
    rw [← hb]
    exact hys c hc
  rw [runs_append_of_meet hmeet, runs_bytes h, List.singleton_append]

/-- The first byte of some ranges is that of the first one. -/
theorem head?_flatMap_bytes (h : s.first ≤ s.last) (rs : List ByteRange) :
    ((s :: rs).flatMap bytes).head? = some s.first := by
  rw [List.flatMap_cons, List.head?_append, head?_bytes h, Option.some_or]

theorem isChain_consRun (hrs : rs.IsChain fun r s => r.last.toNat + 1 ≠ s.first.toNat) :
    (consRun b rs).IsChain fun r s => r.last.toNat + 1 ≠ s.first.toNat := by
  rcases rs with _ | ⟨s, rs⟩
  · exact List.IsChain.singleton _
  · rw [consRun]
    split
    · -- the first range still ends where it did
      cases rs with
      | nil => exact List.IsChain.singleton _
      | cons t rs =>
        rw [List.isChain_cons_cons] at hrs ⊢
        exact hrs
    · rename_i hjoin
      exact List.isChain_cons_cons.mpr ⟨hjoin, hrs⟩

/-- The runs of some bytes are the bytes in groups. -/
theorem groups_runs (xs : List UInt8) : Groups (runs xs) xs where
  ordered := le_of_mem_runs
  lossless := flatMap_bytes_runs xs
  maximal := by
    induction xs with
    | nil => exact List.IsChain.nil
    | cons b xs ih => exact isChain_consRun ih

/-- There are no other groups. -/
theorem Groups.eq_runs (h : Groups rs xs) : rs = runs xs := by
  obtain ⟨hordered, rfl, hmaximal⟩ := h
  -- on the groups: the bytes of the first one are told from the others by where these begin
  induction rs with
  | nil => rfl
  | cons r rs ih =>
    obtain ⟨hr, hrs⟩ := List.forall_mem_cons.mp hordered
    have hrest : rs = runs (rs.flatMap bytes) := ih hrs hmaximal.of_cons
    have hmeet : ∀ c ∈ (rs.flatMap bytes).head?, r.last.toNat + 1 ≠ c.toNat := by
      cases rs with
      | nil => exact fun c hc => absurd hc (Option.not_mem_none c)
      | cons s rs =>
        intro c hc
        rw [head?_flatMap_bytes (hrs s List.mem_cons_self), Option.mem_some_iff] at hc
        rw [← hc]
        exact (List.isChain_cons_cons.mp hmaximal).1
    rw [List.flatMap_cons, runs_bytes_append hr hmeet, ← hrest]

/-! ## Joining -/

/-- Two ranges as one, if the second one begins right behind the first one. -/
def join? (r s : ByteRange) : Option ByteRange :=
  if r.last.toNat + 1 = s.first.toNat then some ⟨r.first, s.last⟩ else none

/-- Goes through some ranges from left to right, with one that is not finished: the next one is
    joined to it, or else it is finished. -/
def coalesceFrom (r : ByteRange) : List ByteRange → List ByteRange
  | [] => [r]
  | s :: rest =>
    match join? r s with
    | some t => coalesceFrom t rest
    | none => r :: coalesceFrom s rest

/-- Joins ranges from left to right. -/
def coalesce : List ByteRange → List ByteRange
  | [] => []
  | r :: rest => coalesceFrom r rest

/-- The range that is not finished stands for the bytes since it was begun. -/
theorem coalesceFrom_eq (hr : r.first ≤ r.last) (hrs : ∀ s ∈ rs, s.first ≤ s.last) :
    coalesceFrom r rs = runs (r.bytes ++ rs.flatMap bytes) := by
  -- on the ranges that are still to come, whatever the one that is not finished looks like
  induction rs generalizing r with
  | nil => rw [List.flatMap_nil, List.append_nil, runs_bytes hr, coalesceFrom]
  | cons s rs ih =>
    obtain ⟨hs, hrest⟩ := List.forall_mem_cons.mp hrs
    rw [coalesceFrom, join?]
    by_cases hjoin : r.last.toNat + 1 = s.first.toNat
    · -- what has been read since the range was begun goes on with the next range
      have hle : r.first ≤ s.last := by
        rw [UInt8.le_iff_toNat_le] at hr hs ⊢
        omega
      rw [if_pos hjoin]
      show coalesceFrom ⟨r.first, s.last⟩ rs = _
      rw [ih hle hrest, bytes_join hr hs hjoin, List.flatMap_cons, List.append_assoc]
    · -- the range is finished, and a run of its own
      rw [if_neg hjoin]
      show r :: coalesceFrom s rs = _
      have hmeet : ∀ c ∈ ((s :: rs).flatMap bytes).head?, r.last.toNat + 1 ≠ c.toNat := by
        intro c hc
        rw [head?_flatMap_bytes hs, Option.mem_some_iff] at hc
        rw [← hc]
        exact hjoin
      rw [ih hs hrest, runs_bytes_append hr hmeet, List.flatMap_cons]

/-- To join ranges is to compress their bytes. -/
theorem coalesce_eq (hrs : ∀ r ∈ rs, r.first ≤ r.last) : coalesce rs = runs (rs.flatMap bytes) := by
  cases rs with
  | nil => rfl
  | cons r rs =>
    obtain ⟨hr, hrest⟩ := List.forall_mem_cons.mp hrs
    exact coalesceFrom_eq hr hrest

/-- To compress bytes, join the ranges of one byte each. -/
theorem coalesce_map_ofByte (xs : List UInt8) : coalesce (xs.map ofByte) = runs xs := by
  have hordered : ∀ r ∈ xs.map ofByte, r.first ≤ r.last := by
    intro r hr
    obtain ⟨b, _, rfl⟩ := List.mem_map.mp hr
    exact UInt8.le_refl b
  rw [coalesce_eq hordered, List.flatMap_map]
  simp only [bytes_ofByte, List.flatMap_singleton']

/-! ## Texts -/

/-- The byte behind a given one, if there is one. -/
def next? (b : UInt8) : Option UInt8 :=
  if b.toNat + 1 < UInt8.size then some (b + 1) else none

/-- The text of a range, if there is a byte behind the first one whenever it is looked for. -/
def text? (r : ByteRange) : Option (List Char) :=
  if r.first = r.last then some (Byte.escape r.first)
  else (next? r.first).map fun next =>
    if next = r.last then Byte.escape r.first ++ Byte.escape r.last
    else Byte.escape r.first ++ '-' :: Byte.escape r.last

/-- There is one if the ends are in order, and so there is a text. -/
theorem text?_eq_some (h : r.first ≤ r.last) : r.text? = some r.text := by
  unfold text? text
  by_cases hone : r.first = r.last
  · rw [if_pos hone, if_pos hone]
  · have hlt : r.first.toNat < r.last.toNat :=
      UInt8.lt_iff_toNat_lt.mp (UInt8.lt_of_le_of_ne h hone)
    have hbyte : r.first.toNat + 1 < UInt8.size := Nat.lt_of_le_of_lt hlt r.last.toNat_lt
    have hnext : (r.first + 1).toNat = r.first.toNat + 1 := by
      rw [UInt8.toNat_add, UInt8.toNat_one]
      exact Nat.mod_eq_of_lt hbyte
    rw [if_neg hone, if_neg hone, next?, if_pos hbyte, Option.map_some]
    simp only [← UInt8.toNat_inj, hnext]

/-- Behind the last byte there is none. -/
example : text? ⟨255, 0⟩ = none := rfl

/-! ## Intervals -/

/-- An interval of a set of bytes that is not a part of a longer one. -/
structure MaximalIn (r : ByteRange) (xs : List UInt8) : Prop where
  ordered : r.first ≤ r.last
  within : ∀ c ∈ r.bytes, c ∈ xs
  maximal : ∀ s : ByteRange, s.first ≤ r.first → r.last ≤ s.last → (∀ c ∈ s.bytes, c ∈ xs) → s = r

/-- There is a gap between two ranges, whichever of them comes first. -/
theorem Apart.gap_or_gap (h : Apart rs) (hr : r ∈ rs) (hs : s ∈ rs) (hne : r ≠ s) :
    r.last.toNat + 1 < s.first.toNat ∨ s.last.toNat + 1 < r.first.toNat := by
  have hsymm : Std.Symm fun r s : ByteRange =>
      r.last.toNat + 1 < s.first.toNat ∨ s.last.toNat + 1 < r.first.toNat := ⟨fun _ _ => Or.symm⟩
  have hgaps : rs.Pairwise fun r s =>
      r.last.toNat + 1 < s.first.toNat ∨ s.last.toNat + 1 < r.first.toNat := h.gaps.imp Or.inl
  exact hgaps.forall hr hs hne

/-- Bytes that are the same or neighbours are in the same range. -/
theorem Apart.eq_of_near (h : Apart rs) (hr : r ∈ rs) (hs : s ∈ rs) (hb : b ∈ r.bytes)
    (hc : c ∈ s.bytes) (hbc : b.toNat ≤ c.toNat + 1) (hcb : c.toNat ≤ b.toNat + 1) : r = s := by
  by_contra hne
  have hgap := h.gap_or_gap hr hs hne
  obtain ⟨hrb, hbr⟩ := mem_bytes.mp hb
  obtain ⟨hsc, hcs⟩ := mem_bytes.mp hc
  rw [UInt8.le_iff_toNat_le] at hrb hbr hsc hcs
  omega

/-- If all bytes of a range are in some ranges with gaps, they are in one of these: going from byte
    to byte, one never leaves it. -/
theorem Apart.exists_of_within (h : Apart rs) (hr : r.first ≤ r.last)
    (hwithin : ∀ c ∈ r.bytes, c ∈ rs.flatMap bytes) : ∃ s ∈ rs, ∀ c ∈ r.bytes, c ∈ s.bytes := by
  obtain ⟨s, hs, hfirst⟩ := List.mem_flatMap.mp (hwithin r.first (first_mem_bytes hr))
  have hwalk : ∀ n c, c.toNat = r.first.toNat + n → c ≤ r.last → c ∈ s.bytes := by
    intro n
    induction n with
    | zero =>
      intro c hc _
      rw [UInt8.toNat_inj.mp hc]
      exact hfirst
    | succ n ih =>
      intro c hc hlast
      have hbefore : (UInt8.ofNat (r.first.toNat + n)).toNat = r.first.toNat + n := by
        have hlt : c.toNat < UInt8.size := c.toNat_lt
        exact UInt8.toNat_ofNat_of_lt' (by omega)
      have hle : r.first ≤ c := UInt8.le_iff_toNat_le.mpr (by omega)
      obtain ⟨t, ht, hct⟩ := List.mem_flatMap.mp (hwithin c (mem_bytes.mpr ⟨hle, hlast⟩))
      have hbs := ih _ hbefore (by rw [UInt8.le_iff_toNat_le] at hlast ⊢; omega)
      -- the byte before is in the range, so this one is as well
      rw [h.eq_of_near hs ht hbs hct (by omega) (by omega)]
      exact hct
  refine ⟨s, hs, fun c hc => ?_⟩
  obtain ⟨hle, hlast⟩ := mem_bytes.mp hc
  exact hwalk (c.toNat - r.first.toNat) c
    (by rw [UInt8.le_iff_toNat_le] at hle; omega) hlast

/-- A range within another one lies between its ends. -/
theorem between_of_subset (hr : r.first ≤ r.last) (h : ∀ c ∈ r.bytes, c ∈ s.bytes) :
    s.first ≤ r.first ∧ r.last ≤ s.last :=
  ⟨(mem_bytes.mp (h r.first (first_mem_bytes hr))).1,
    (mem_bytes.mp (h r.last (last_mem_bytes hr))).2⟩

/-- If bytes are in increasing order, all intervals of the set are within the runs. -/
theorem exists_run_of_within (hxs : xs.Pairwise (· < ·)) (hr : r.first ≤ r.last)
    (hwithin : ∀ c ∈ r.bytes, c ∈ xs) : ∃ s ∈ runs xs, ∀ c ∈ r.bytes, c ∈ s.bytes := by
  rw [← flatMap_bytes_runs xs] at hwithin
  exact (apart_runs hxs).exists_of_within hr hwithin

theorem maximalIn_of_mem_runs (hxs : xs.Pairwise (· < ·)) (hr : r ∈ runs xs) : MaximalIn r xs := by
  have hle : r.first ≤ r.last := le_of_mem_runs r hr
  refine ⟨hle, fun c => mem_of_mem_run hr, fun s hfirst hlast hs => ?_⟩
  have hsle : s.first ≤ s.last := UInt8.le_trans hfirst (UInt8.le_trans hle hlast)
  obtain ⟨t, ht, hst⟩ := exists_run_of_within hxs hsle hs
  -- the longer interval is in one run, and that is the one that it has a byte in common with
  have hmem : r.first ∈ t.bytes := hst _ (mem_bytes.mpr ⟨hfirst, UInt8.le_trans hle hlast⟩)
  have hrt : r = t := (apart_runs hxs).eq_of_near hr ht (first_mem_bytes hle) hmem
    (Nat.le_succ _) (Nat.le_succ _)
  rw [← hrt] at hst
  obtain ⟨hfirst', hlast'⟩ := between_of_subset hsle hst
  exact eq_of_ends_eq (UInt8.le_antisymm hfirst hfirst') (UInt8.le_antisymm hlast' hlast)

/-- The runs of bytes in increasing order are the intervals that are as long as possible. -/
theorem mem_runs_iff (hxs : xs.Pairwise (· < ·)) : r ∈ runs xs ↔ MaximalIn r xs := by
  refine ⟨maximalIn_of_mem_runs hxs, fun h => ?_⟩
  obtain ⟨s, hs, hrs⟩ := exists_run_of_within hxs h.ordered h.within
  obtain ⟨hfirst, hlast⟩ := between_of_subset h.ordered hrs
  rw [← h.maximal s hfirst hlast fun c => mem_of_mem_run hs]
  exact hs

/-- Whatever bytes are compressed, in whatever order and however often they occur: the ranges are
    the bytes in groups, and there are no other groups. Joining ranges of one byte from left to
    right gives the same. Each range has a text. If the bytes are in increasing order, the ranges
    are the longest intervals of the set, from left to right with a gap between any two. -/
theorem runs_exact (xs : List UInt8) :
    Groups (runs xs) xs ∧ (∀ rs, Groups rs xs → rs = runs xs) ∧
    coalesce (xs.map ofByte) = runs xs ∧
    (∀ r ∈ runs xs, r.text? = some r.text) ∧
    (xs.Pairwise (· < ·) → Apart (runs xs) ∧ ∀ r, r ∈ runs xs ↔ MaximalIn r xs) :=
  ⟨groups_runs xs, fun _ => Groups.eq_runs, coalesce_map_ofByte xs,
    fun r hr => text?_eq_some (le_of_mem_runs r hr),
    fun hxs => ⟨apart_runs hxs, fun _ => mem_runs_iff hxs⟩⟩

/-- Two intervals, the second one up to the last byte that there is. -/
theorem runs_exact_last :
    [97, 98, 99, 254, 255].Pairwise (· < · : UInt8 → UInt8 → Prop) ∧
      runs [97, 98, 99, 254, 255] = [⟨97, 99⟩, ⟨254, 255⟩] ∧
      MaximalIn ⟨254, 255⟩ [97, 98, 99, 254, 255] ∧
      text? ⟨254, 255⟩ = some ("\\xfe\\xff".toList) := by
  have hsorted : [97, 98, 99, 254, 255].Pairwise (· < · : UInt8 → UInt8 → Prop) := by decide
  have hruns : runs [97, 98, 99, 254, 255] = [⟨97, 99⟩, ⟨254, 255⟩] := by decide
  have hmem : ⟨254, 255⟩ ∈ runs [97, 98, 99, 254, 255] := by
    rw [hruns]
    exact List.mem_cons_of_mem _ List.mem_cons_self
  obtain ⟨_, _, _, htext, hintervals⟩ := runs_exact [97, 98, 99, 254, 255]
  refine ⟨hsorted, hruns, ((hintervals hsorted).2 _).mp hmem, ?_⟩
  rw [htext _ hmem]
  decide

/-- Bytes that are out of order or repeated are not joined, and the first byte does not come behind
    the last one. -/
example : runs [98, 97, 98, 98, 255, 0] =
    [⟨98, 98⟩, ⟨97, 98⟩, ⟨98, 98⟩, ⟨255, 255⟩, ⟨0, 0⟩] := by decide

end ByteLexer.ByteRange
