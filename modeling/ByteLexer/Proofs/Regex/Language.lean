import ByteLexer.Proofs.Automaton.Words
import ByteLexer.Proofs.Byte.Range
import ByteLexer.Proofs.Regex.Shape
import ByteLexer.Regex.Expr

/-! # The languages of regular expressions

    Every combinator accepts the words that its meaning asks for, whatever its
    operands are: any labels, edges back to the initial state, several accepting
    states or none.

    - **Single bytes and the empty word.** Automata of edges from `0` to `1`.
    - **Unions, concatenations, repetitions.** A path runs through the copies of the
      operands, region by region.
    - **Trees.** By induction, the automaton of a tree accepts what it denotes.
-/

namespace ByteLexer.Regex

open Automaton

variable {a b : Regex} {bytes u v w : List UInt8}

/-- If `1` is the only accepting state, words are accepted there. -/
theorem accepts_iff_path_final {R : Regex} (h : ∀ p, p ∈ R.accepting ↔ p = final) :
    R.Accepts w ↔ R.Path R.initial w final := by
  constructor
  · intro hex
    obtain ⟨t, hpath, ht⟩ := hex
    rw [(h t).mp ht] at hpath
    exact hpath
  · intro hpath
    exact ⟨final, hpath, (h final).mpr rfl⟩

/-! ## Single bytes and the empty word -/

theorem accepts_oneOf_iff : (oneOf bytes).Accepts w ↔ ∃ c ∈ bytes, w = [c] := by
  rw [accepts_iff_path_final fun _ => mem_accepting_oneOf, initial_oneOf]
  constructor
  · intro hpath
    generalize hp : first = p at hpath
    cases hpath with
    | nil => exact absurd hp first_ne_final
    | silent hr _ =>
      obtain ⟨_, _, c, _, hs⟩ := mem_targets_oneOf.mp hr
      cases hs
    | byte hr htail =>
      obtain ⟨_, hx, c, hc, hs⟩ := mem_targets_oneOf.mp hr
      rw [hx, path_of_stuck fun _ _ => not_mem_targets_oneOf_final] at htail
      exact ⟨c, hc, by rw [htail.1, Option.some.inj hs]⟩
  · intro hex
    obtain ⟨c, hc, hw⟩ := hex
    rw [hw]
    exact .byte (mem_targets_oneOf.mpr ⟨rfl, rfl, c, hc, rfl⟩) (.nil _)

theorem accepts_byte_iff {c : UInt8} : (byte c).Accepts w ↔ w = [c] := by
  simp only [byte, accepts_oneOf_iff, List.mem_singleton, exists_eq_left]

theorem accepts_epsilon_iff : epsilon.Accepts w ↔ w = [] := by
  rw [accepts_iff_path_final fun _ => mem_accepting_epsilon, initial_epsilon,
    path_of_silent (fun _ _ => mem_targets_epsilon_first) first_ne_final]
  simp only [exists_eq_left, path_of_stuck fun _ _ => not_mem_targets_epsilon_final, and_true]

/-- The bounds of a range may be given in any order. -/
theorem mem_bytes_ofBounds {c d e : UInt8} :
    e ∈ (ByteRange.ofBounds c d).bytes ↔ min c d ≤ e ∧ e ≤ max c d := by
  show _ ↔ (if c ≤ d then c else d) ≤ e ∧ e ≤ (if c ≤ d then d else c)
  rw [ByteRange.mem_bytes, ByteRange.ofBounds]
  by_cases h : c ≤ d
  · rw [if_pos h, if_pos h, if_pos h]
  · rw [if_neg h, if_neg h, if_neg h]

theorem mem_allBytes (c : UInt8) : c ∈ allBytes := by
  rw [allBytes, List.mem_map]
  exact ⟨c.toNat, List.mem_range.mpr c.toNat_lt, UInt8.ofNat_toNat⟩

/-! ## Unions -/

theorem accepts_union_iff : (union a b).Accepts w ↔ a.Accepts w ∨ b.Accepts w := by
  rw [accepts_iff_path_final fun _ => mem_accepting_union, initial_union,
    path_of_silent (fun _ _ => mem_targets_union_first) first_ne_final]
  simp only [or_and_right, exists_or, exists_eq_left]
  rw [(region_union_left a b).path_exit_iff trivial (fun _ => left_ne_final)
      fun _ _ => not_mem_targets_union_final,
    (region_union_right a b).path_exit_iff trivial (fun _ => right_ne_final)
      fun _ _ => not_mem_targets_union_final]
  rfl

/-! ## Concatenations -/

/-- A path through a concatenation crosses the joint between the operands once. -/
theorem accepts_concat_iff : (concat a b).Accepts w ↔
    ∃ u v, a.Accepts u ∧ b.Accepts v ∧ w = u ++ v := by
  have hright : ∀ {v}, (concat a b).Path (right b.initial) v final ↔ b.Accepts v :=
    (region_concat_right a b).path_exit_iff trivial (fun _ => right_ne_final)
      fun _ _ => not_mem_targets_concat_final
  rw [accepts_iff_path_final fun _ => mem_accepting_concat, initial_concat]
  constructor
  · intro hpath
    obtain ⟨u, v, y, hw, hu, hy, hrest⟩ :=
      (region_concat_left a b).leaves trivial (fun _ => left_ne_final) hpath
    rw [hy] at hrest
    exact ⟨u, v, hu, hright.mp hrest, hw⟩
  · intro hex
    obtain ⟨u, v, hu, hv, hw⟩ := hex
    rw [hw]
    exact ((region_concat_left a b).path_exit trivial hu rfl).append (hright.mpr hv)

/-! ## Repetitions -/

/-- From the copy of a state, a repetition finishes the round it is in and then makes some
    more. -/
theorem repeated_of_path_star {q : String} (h : (star a).Path (left q) w final) :
    ∃ u v, a.AcceptsFrom q u ∧ Expr.Repeated a.Accepts v ∧ w = u ++ v := by
  generalize hp : left q = p at h
  generalize ht : final = t at h
  -- on the path: a copied edge stays in the round, a joint back to the start ends it
  induction h generalizing q with
  | nil => exact absurd (hp.trans ht.symm) left_ne_final
  | @silent _ r _ w hr htail ih =>
    rw [← hp] at hr
    rcases (region_star a).leave trivial hr with ⟨r', hedge, hx⟩ | ⟨_, hacc, hx | hx⟩
    · obtain ⟨u, v, ⟨t, hpath, ht⟩, hv, hw⟩ := ih hx ht
      exact ⟨u, v, ⟨t, .silent hedge hpath, ht⟩, hv, hw⟩
    · rw [hx, path_of_stuck fun _ _ => not_mem_targets_star_final] at htail
      rw [htail.1]
      exact ⟨[], [], ⟨q, .nil q, hacc⟩, .nil, rfl⟩
    · obtain ⟨u, v, hu, hv, hw⟩ := ih hx.symm ht
      exact ⟨[], w, ⟨q, .nil q, hacc⟩, by rw [hw]; exact .append hu hv, rfl⟩
  | @byte _ r _ b w hr htail ih =>
    rw [← hp] at hr
    rcases (region_star a).leave trivial hr with ⟨r', hedge, hx⟩ | ⟨hs, _, _⟩
    · obtain ⟨u, v, ⟨t, hpath, ht⟩, hv, hw⟩ := ih hx ht
      exact ⟨b :: u, v, ⟨t, .byte hedge hpath, ht⟩, hv, by rw [hw]; rfl⟩
    · cases hs

/-- A round and some more lead from the copy of the initial state to the end. -/
theorem path_star_of_repeated (hu : a.Accepts u) (hv : Expr.Repeated a.Accepts v) :
    (star a).Path (left a.initial) (u ++ v) final := by
  induction hv generalizing u with
  | nil =>
    rw [List.append_nil]
    exact (region_star a).path_exit trivial hu (.inl rfl)
  | append hu' _ ih =>
    have hback := (region_star a).path_exit trivial hu (.inr rfl)
    exact hback.append (ih hu')

theorem accepts_star_iff : (star a).Accepts w ↔ Expr.Repeated a.Accepts w := by
  rw [accepts_iff_path_final fun _ => mem_accepting_star, initial_star,
    path_of_silent (fun _ _ => mem_targets_star_first) first_ne_final]
  constructor
  · intro hex
    obtain ⟨r, hr, hpath⟩ := hex
    rcases hr with hr | hr
    · rw [hr] at hpath
      obtain ⟨u, v, hu, hv, hw⟩ := repeated_of_path_star hpath
      rw [hw]
      exact .append hu hv
    · rw [hr, path_of_stuck fun _ _ => not_mem_targets_star_final] at hpath
      rw [hpath.1]
      exact .nil
  · intro h
    cases h with
    | nil => exact ⟨final, .inr rfl, .nil _⟩
    | append hu hv => exact ⟨left a.initial, .inl rfl, path_star_of_repeated hu hv⟩

/-- The repetitions of an expression for single bytes are all words of these bytes. -/
theorem accepts_star_iff_forall {P : UInt8 → Prop} (h : ∀ w, a.Accepts w ↔ ∃ c, P c ∧ w = [c]) :
    (star a).Accepts w ↔ ∀ c ∈ w, P c := by
  rw [accepts_star_iff]
  constructor
  · intro hw
    induction hw with
    | nil => exact fun c hc => absurd hc List.not_mem_nil
    | append hu _ ih =>
      obtain ⟨c, hc, rfl⟩ := (h _).mp hu
      exact List.forall_mem_cons.mpr ⟨hc, ih⟩
  · intro hw
    induction w with
    | nil => exact .nil
    | cons c w ih =>
      obtain ⟨hc, hw⟩ := List.forall_mem_cons.mp hw
      have hround : a.Accepts [c] := (h _).mpr ⟨c, hc, rfl⟩
      exact .append hround (ih hw)

/-! ## Words -/

/-- Appending bytes one by one appends a word. -/
theorem accepts_foldl_concat_iff {rest : List UInt8} :
    (rest.foldl (fun r c => concat r (byte c)) a).Accepts w ↔ ∃ u, a.Accepts u ∧ w = u ++ rest := by
  induction rest generalizing a with
  | nil => simp
  | cons c rest ih =>
    rw [List.foldl_cons, ih]
    simp only [accepts_concat_iff, accepts_byte_iff]
    constructor
    · intro hex
      obtain ⟨x, ⟨u, v, hu, hv, hx⟩, hw⟩ := hex
      exact ⟨u, hu, by rw [hw, hx, hv, List.append_assoc]; rfl⟩
    · intro hex
      obtain ⟨u, hu, hw⟩ := hex
      exact ⟨u ++ [c], ⟨u, [c], hu, rfl, rfl⟩, by rw [hw, List.append_assoc]; rfl⟩

theorem accepts_word_iff : (word bytes).Accepts w ↔ w = bytes := by
  rcases bytes with _ | ⟨b, rest⟩
  · exact accepts_epsilon_iff
  · rw [word, accepts_foldl_concat_iff]
    simp [accepts_byte_iff]

/-! ## Namespaces -/

/-- A text in front of the labels does not change what is accepted. -/
theorem accepts_qualify_iff {name : String} : (a.qualify name).Accepts w ↔ a.Accepts w :=
  (a.keptApart_of_injective fun _ _ => (String.append_right_inj name).mp).accepts_image_iff
    trivial fun _ _ => trivial

/-! ## Trees -/

namespace Expr

/-- The automaton of a tree accepts the language that the tree denotes. -/
theorem accepts_build_iff (e : Expr) (w : List UInt8) : e.build.Accepts w ↔ e.Matches w := by
  induction e generalizing w with
  | automaton A => rfl
  | byte b => exact accepts_byte_iff
  | between b c =>
    simp only [build, Regex.between, accepts_oneOf_iff, mem_bytes_ofBounds, Matches, and_assoc]
  | allBut b =>
    simp only [build, Regex.allBut, accepts_oneOf_iff, List.mem_filter, mem_allBytes, bne_iff_ne,
      true_and, Matches]
  | oneOf bytes => exact accepts_oneOf_iff
  | epsilon => exact accepts_epsilon_iff
  | word bytes => exact accepts_word_iff
  | union a b iha ihb | or a b iha ihb =>
    show (Regex.union a.build b.build).Accepts w ↔ _
    rw [accepts_union_iff, iha, ihb, Matches]
  | concat a b iha ihb | add a b iha ihb =>
    show (Regex.concat a.build b.build).Accepts w ↔ _
    simp only [accepts_concat_iff, iha, ihb, Matches]
  | star a ih =>
    rw [build, accepts_star_iff, Matches]
    rw [show a.build.Accepts = a.Matches from funext fun w => propext (ih w)]
  | plus a ih =>
    simp only [build, Regex.plus, accepts_concat_iff, accepts_star_iff, Matches]
    rw [show a.build.Accepts = a.Matches from funext fun w => propext (ih w)]
  | optional a ih =>
    rw [build, Regex.optional, accepts_union_iff, accepts_epsilon_iff, ih, Matches]
  | qualify name a ih => rw [build, accepts_qualify_iff, ih, Matches]

/-- A word is recognized by the automaton of a tree exactly if it is in the language that the
    tree denotes. -/
theorem recognizes_build_iff (e : Expr) (w : List UInt8) :
    e.build.recognizes w = true ↔ e.Matches w := by
  rw [recognizes_iff_accepts, accepts_build_iff]

end Expr
end ByteLexer.Regex
