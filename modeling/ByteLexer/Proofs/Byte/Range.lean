import ByteLexer.Byte.Range

/-! # The ranges of some bytes

    Bytes are compressed into ranges by a fold that begins with the last byte. The ranges give the
    bytes back, in whatever order these are. If they are in increasing order, there is a gap between
    any two ranges.

    - **Members** of a range.
    - **Expanding** the ranges of some bytes.
    - **Gaps.** Ranges of bytes in order, and of bytes with a gap in between.
-/

namespace ByteLexer.ByteRange

variable {r s : ByteRange} {rs : List ByteRange} {b c : UInt8} {xs ys : List UInt8}

/-! ## Members -/

/-- A byte is in a range if it is between the two ends. -/
theorem mem_bytes : c ∈ r.bytes ↔ r.first ≤ c ∧ c ≤ r.last := by
  simp only [bytes, size, List.mem_map, List.mem_range'_1, UInt8.le_iff_toNat_le]
  have hc : c.toNat < 256 := c.toNat_lt
  have hlast : r.last.toNat < 256 := r.last.toNat_lt
  constructor
  · intro hex
    obtain ⟨n, hn, hnc⟩ := hex
    have hsize : n < UInt8.size := by
      show n < 256
      omega
    rw [← hnc, UInt8.toNat_ofNat_of_lt' hsize]
    omega
  · intro h
    exact ⟨c.toNat, by omega, UInt8.ofNat_toNat⟩

theorem first_mem_bytes (h : r.first ≤ r.last) : r.first ∈ r.bytes :=
  mem_bytes.mpr ⟨UInt8.le_refl _, h⟩

theorem last_mem_bytes (h : r.first ≤ r.last) : r.last ∈ r.bytes :=
  mem_bytes.mpr ⟨h, UInt8.le_refl _⟩

theorem eq_of_ends_eq (hfirst : r.first = s.first) (hlast : r.last = s.last) : r = s := by
  show mk r.first r.last = s
  rw [hfirst, hlast]

theorem bytes_ofByte (b : UInt8) : (ofByte b).bytes = [b] := by
  have hsize : (ofByte b).size = 1 := Nat.add_sub_cancel_left b.toNat 1
  rw [bytes, hsize]
  exact congrArg ([·]) UInt8.ofNat_toNat

/-- Two ranges of which one begins right behind the other. -/
theorem bytes_join (hr : r.first ≤ r.last) (hs : s.first ≤ s.last)
    (h : r.last.toNat + 1 = s.first.toNat) :
    (mk r.first s.last).bytes = r.bytes ++ s.bytes := by
  have hr' : r.first.toNat ≤ r.last.toNat := UInt8.le_iff_toNat_le.mp hr
  have hs' : s.first.toNat ≤ s.last.toNat := UInt8.le_iff_toNat_le.mp hs
  have hsize : (mk r.first s.last).size = r.size + s.size := by
    show s.last.toNat + 1 - r.first.toNat =
      r.last.toNat + 1 - r.first.toNat + (s.last.toNat + 1 - s.first.toNat)
    omega
  have hstart : s.first.toNat = r.first.toNat + r.size := by
    show s.first.toNat = r.first.toNat + (r.last.toNat + 1 - r.first.toNat)
    omega
  rw [bytes, bytes, bytes, hsize, hstart, ← List.map_append, List.range'_append_1]

/-- A range with one more byte in front. -/
theorem bytes_mk (hb : b.toNat + 1 = r.first.toNat) (hr : r.first ≤ r.last) :
    (mk b r.last).bytes = b :: r.bytes := by
  have hjoin : (mk b r.last).bytes = (ofByte b).bytes ++ r.bytes :=
    bytes_join (r := ofByte b) (UInt8.le_refl b) hr hb
  rw [hjoin, bytes_ofByte, List.singleton_append]

/-! ## Expanding -/

theorem runs_cons (b : UInt8) (xs : List UInt8) : runs (b :: xs) = consRun b (runs xs) := rfl

/-- The ends of the ranges are in order. -/
theorem le_of_mem_consRun (hrs : ∀ r ∈ rs, r.first ≤ r.last) :
    ∀ r ∈ consRun b rs, r.first ≤ r.last := by
  rcases rs with _ | ⟨s, rs⟩
  · exact List.forall_mem_singleton.mpr (UInt8.le_refl b)
  · obtain ⟨hs, hrs'⟩ := List.forall_mem_cons.mp hrs
    rw [consRun]
    split
    · rename_i hjoin
      refine List.forall_mem_cons.mpr ⟨?_, hrs'⟩
      rw [UInt8.le_iff_toNat_le] at hs ⊢
      show b.toNat ≤ s.last.toNat
      omega
    · exact List.forall_mem_cons.mpr ⟨UInt8.le_refl b, hrs⟩

theorem le_of_mem_runs : ∀ r ∈ runs xs, r.first ≤ r.last := by
  induction xs with
  | nil => exact List.forall_mem_nil _
  | cons b xs ih => exact le_of_mem_consRun ih

theorem flatMap_bytes_consRun (hrs : ∀ r ∈ rs, r.first ≤ r.last) :
    (consRun b rs).flatMap bytes = b :: rs.flatMap bytes := by
  rcases rs with _ | ⟨s, rs⟩
  · rw [consRun, List.flatMap_cons, bytes_ofByte]
    rfl
  · rw [consRun]
    split
    · rename_i hjoin
      rw [List.flatMap_cons, bytes_mk hjoin (hrs s List.mem_cons_self)]
      rfl
    · rw [List.flatMap_cons, bytes_ofByte]
      rfl

/-- The ranges hold the bytes that they were made from, in the order of the list. -/
theorem flatMap_bytes_runs (xs : List UInt8) : (runs xs).flatMap bytes = xs := by
  induction xs with
  | nil => rfl
  | cons b xs ih => rw [runs_cons, flatMap_bytes_consRun le_of_mem_runs, ih]

/-! ## Gaps -/

/-- Ranges in increasing order, with a gap between any two of them. -/
structure Apart (rs : List ByteRange) : Prop where
  ordered : ∀ r ∈ rs, r.first ≤ r.last
  gaps : rs.Pairwise fun r s => r.last.toNat + 1 < s.first.toNat

namespace Apart

theorem head (h : Apart (r :: rs)) : r.first ≤ r.last :=
  h.ordered r List.mem_cons_self

theorem gap (h : Apart (r :: rs)) : ∀ s ∈ rs, r.last.toNat + 1 < s.first.toNat :=
  (List.pairwise_cons.mp h.gaps).1

theorem tail (h : Apart (r :: rs)) : Apart rs :=
  ⟨(List.forall_mem_cons.mp h.ordered).2, (List.pairwise_cons.mp h.gaps).2⟩

end Apart

/-- What is in the ranges of some bytes is among the bytes. -/
theorem mem_of_mem_run (hr : r ∈ runs xs) (hc : c ∈ r.bytes) : c ∈ xs := by
  rw [← flatMap_bytes_runs xs]
  exact List.mem_flatMap.mpr ⟨r, hr, hc⟩

theorem first_mem_of_mem_runs (h : r ∈ runs xs) : r.first ∈ xs :=
  mem_of_mem_run h (first_mem_bytes (le_of_mem_runs r h))

/-- The ranges of bytes in increasing order are apart. -/
theorem apart_runs (hxs : xs.Pairwise (· < ·)) : Apart (runs xs) := by
  refine ⟨le_of_mem_runs, ?_⟩
  induction xs with
  | nil => exact .nil
  | cons b xs ih =>
    obtain ⟨hb, hxs⟩ := List.pairwise_cons.mp hxs
    have hlt : ∀ r ∈ runs xs, b.toNat < r.first.toNat := fun r hr =>
      UInt8.lt_iff_toNat_lt.mp (hb _ (first_mem_of_mem_runs hr))
    have hordered : ∀ r ∈ runs xs, r.first ≤ r.last := le_of_mem_runs
    have hgaps := ih hxs
    rw [runs_cons]
    generalize runs xs = rs at hlt hordered hgaps
    rcases rs with _ | ⟨s, rs⟩
    · exact List.pairwise_singleton _ _
    · obtain ⟨hgap, hrest⟩ := List.pairwise_cons.mp hgaps
      have hs := hlt s List.mem_cons_self
      have hs' := UInt8.le_iff_toNat_le.mp (hordered s List.mem_cons_self)
      rw [consRun]
      split
      · exact List.pairwise_cons.mpr ⟨hgap, hrest⟩
      · -- the byte is not right in front of the first range, so it is further away
        rename_i hjoin
        refine List.pairwise_cons.mpr ⟨List.forall_mem_cons.mpr ⟨?_, fun r hr => ?_⟩, hgaps⟩
        · show b.toNat + 1 < s.first.toNat
          omega
        · have hr' := hgap r hr
          show b.toNat + 1 < r.first.toNat
          omega

/-- The first range of some bytes begins with the first one of them. -/
theorem head?_runs (xs : List UInt8) : (runs xs).head?.map first = xs.head? := by
  cases xs with
  | nil => rfl
  | cons b xs =>
    rw [runs_cons]
    rcases runs xs with _ | ⟨s, rs⟩
    · rfl
    · rw [consRun]
      split <;> rfl

/-- What is in front of further ranges only matters to the first one of them. -/
theorem consRun_append (hrs : rs ≠ []) (b : UInt8) (ss : List ByteRange) :
    consRun b (rs ++ ss) = consRun b rs ++ ss := by
  obtain ⟨s, rs, rfl⟩ := List.exists_cons_of_ne_nil hrs
  rw [List.cons_append, consRun, consRun]
  split <;> rfl

/-- Bytes are compressed separately from those behind them if the two that meet are no
    neighbours. -/
theorem runs_append_of_meet (h : ∀ b ∈ xs.getLast?, ∀ c ∈ ys.head?, b.toNat + 1 ≠ c.toNat) :
    runs (xs ++ ys) = runs xs ++ runs ys := by
  induction xs with
  | nil => rfl
  | cons b xs ih =>
    rw [List.cons_append, runs_cons, runs_cons]
    cases xs with
    | nil =>
      -- the byte is the one that meets the first range behind it
      have hhead := head?_runs ys
      rcases hruns : runs ys with _ | ⟨s, rs⟩
      · rw [List.nil_append, hruns]
        rfl
      · rw [hruns] at hhead
        rw [List.nil_append, hruns]
        exact if_neg (h b rfl s.first hhead.symm)
    | cons c xs =>
      have hne : runs (c :: xs) ≠ [] := by
        intro hnil
        have hhead := head?_runs (c :: xs)
        rw [hnil] at hhead
        cases hhead
      rw [List.getLast?_cons_cons] at h
      rw [ih h, consRun_append hne]

/-- Bytes with a gap in between are compressed separately. -/
theorem runs_append (h : ∀ b ∈ xs, ∀ c ∈ ys, b.toNat + 1 ≠ c.toNat) :
    runs (xs ++ ys) = runs xs ++ runs ys :=
  runs_append_of_meet fun b hb c hc => h b (List.mem_of_getLast? hb) c (List.mem_of_mem_head? hc)

/-- The bytes of a range are compressed into the range, by induction on its width. -/
theorem runs_bytes (h : r.first ≤ r.last) : runs r.bytes = [r] := by
  obtain ⟨n, hn⟩ := Nat.le.dest (UInt8.le_iff_toNat_le.mp h)
  obtain ⟨a, z⟩ := r
  induction n generalizing a with
  | zero =>
    obtain rfl : a = z := UInt8.toNat_inj.mp hn
    show runs (ofByte a).bytes = _
    rw [bytes_ofByte]
    rfl
  | succ n ih =>
    have hz := z.toNat_lt
    have hnext : (a + 1).toNat = a.toNat + 1 := by
      rw [UInt8.toNat_add, UInt8.toNat_one]
      dsimp only at hn
      omega
    have hn' : (a + 1).toNat + n = z.toNat := by
      dsimp only at hn
      omega
    have hle : a + 1 ≤ z := by
      rw [UInt8.le_iff_toNat_le]
      omega
    have hbytes : (mk a z).bytes = a :: (mk (a + 1) z).bytes :=
      bytes_mk (r := mk (a + 1) z) hnext.symm hle
    rw [hbytes, runs_cons, ih (a + 1) hle hn']
    exact if_pos hnext.symm

end ByteLexer.ByteRange
