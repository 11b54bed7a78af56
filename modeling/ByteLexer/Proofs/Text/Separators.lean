import Mathlib.Algebra.Ring.Nat
import Mathlib.Data.List.Basic

/-! # Separators

    A text that is put together from parts can be taken apart again if the parts do not hold the
    separator between them.

    - **Fronts.** What comes before the first item of another sort.
    - **Separators**, where they occur for the first time and for the last time.
    - **Lines**, each with the end of its line.
-/

namespace ByteLexer

variable {α : Type} {u v u' v' : List α} {c : α}

/-! ## Fronts -/

/-- A list can be split in one way only into items that have a property and a rest that begins with
    one that has not. -/
theorem append_inj_of_forall {p : α → Prop} (hu : ∀ a ∈ u, p a) (hu' : ∀ a ∈ u', p a)
    (hv : ∀ a ∈ v.head?, ¬p a) (hv' : ∀ a ∈ v'.head?, ¬p a) (h : u ++ v = u' ++ v') :
    u = u' ∧ v = v' := by
  induction u generalizing u' with
  | nil =>
    rcases u' with _ | ⟨a, u'⟩
    · exact ⟨rfl, h⟩
    · rw [List.nil_append] at h
      rw [h] at hv
      exact absurd (hu' a List.mem_cons_self) (hv a rfl)
  | cons a u ih =>
    rcases u' with _ | ⟨a', u'⟩
    · rw [List.nil_append] at h
      rw [← h] at hv'
      exact absurd (hu a List.mem_cons_self) (hv' a rfl)
    · obtain ⟨rfl, htail⟩ := List.cons.inj h
      obtain ⟨rfl, hrest⟩ := ih (List.forall_mem_cons.mp hu).2 (List.forall_mem_cons.mp hu').2 htail
      exact ⟨rfl, hrest⟩

/-! ## Separators -/

/-- Two texts without a character make one without it. -/
theorem not_mem_toList_append {c : Char} {s t : String} (hs : c ∉ s.toList) (ht : c ∉ t.toList) :
    c ∉ (s ++ t).toList := by
  rw [String.toList_append, List.mem_append]
  exact fun h => h.elim hs ht

/-- What stands around the first occurrence of a separator. -/
theorem eq_of_append_cons_eq (hu : c ∉ u) (hu' : c ∉ u') (h : u ++ c :: v = u' ++ c :: v') :
    u = u' ∧ v = v' := by
  have hother : ∀ {w : List α}, c ∉ w → ∀ a ∈ w, a ≠ c := by
    intro w hw a ha hac
    rw [hac] at ha
    exact hw ha
  have hsep : ∀ {w : List α}, ∀ a ∈ (c :: w).head?, ¬a ≠ c := by
    intro w a ha hne
    exact hne (Option.some.inj ha).symm
  obtain ⟨hfront, hrest⟩ := append_inj_of_forall (hother hu) (hother hu') hsep hsep h
  exact ⟨hfront, (List.cons.inj hrest).2⟩

/-- What stands around the last one. -/
theorem eq_of_append_cons_eq_last (hv : c ∉ v) (hv' : c ∉ v') (h : u ++ c :: v = u' ++ c :: v') :
    u = u' ∧ v = v' := by
  have hreverse := congrArg List.reverse h
  rw [List.reverse_append, List.reverse_append, List.reverse_cons, List.reverse_cons,
    List.append_assoc, List.append_assoc, List.singleton_append, List.singleton_append] at hreverse
  obtain ⟨hback, hfront⟩ := eq_of_append_cons_eq (fun hc => hv (List.mem_reverse.mp hc))
    (fun hc => hv' (List.mem_reverse.mp hc)) hreverse
  exact ⟨List.reverse_inj.mp hfront, List.reverse_inj.mp hback⟩

/-- Between separators there is only what is separated. -/
theorem mem_of_mem_intercalate {ls : List (List α)} {a : α} (h : a ∈ [c].intercalate ls) :
    a = c ∨ ∃ l ∈ ls, a ∈ l := by
  induction ls with
  | nil => cases h
  | cons l ls ih =>
    rcases ls with _ | ⟨l', ls⟩
    · rw [List.intercalate_singleton] at h
      exact .inr ⟨l, List.mem_cons_self, h⟩
    · rw [List.intercalate_cons_cons, List.mem_append, List.mem_append, List.mem_singleton] at h
      rcases h with (h | h) | h
      · exact .inr ⟨l, List.mem_cons_self, h⟩
      · exact .inl h
      · rcases ih h with h | ⟨l'', hl'', h⟩
        · exact .inl h
        · exact .inr ⟨l'', List.mem_cons_of_mem l hl'', h⟩

/-! ## Lines -/

/-- Lines put together, each with the end of its line, can be told apart. -/
theorem eq_of_flatMap_append_eq {ls ls' : List (List α)} (hls : ∀ l ∈ ls, c ∉ l)
    (hls' : ∀ l ∈ ls', c ∉ l) (h : ls.flatMap (· ++ [c]) = ls'.flatMap (· ++ [c])) : ls = ls' := by
  have hnil : ∀ {l : List α} {ls : List (List α)}, (l :: ls).flatMap (· ++ [c]) ≠ [] := by
    intro l ls hnil
    rw [List.flatMap_cons, List.append_assoc] at hnil
    exact List.cons_ne_nil _ _ (List.append_eq_nil_iff.mp hnil).2
  induction ls generalizing ls' with
  | nil =>
    rcases ls' with _ | ⟨l', ls'⟩
    · rfl
    · exact absurd h.symm hnil
  | cons l ls ih =>
    rcases ls' with _ | ⟨l', ls'⟩
    · exact absurd h hnil
    · obtain ⟨hl, htail⟩ := List.forall_mem_cons.mp hls
      obtain ⟨hl', htail'⟩ := List.forall_mem_cons.mp hls'
      rw [List.flatMap_cons, List.flatMap_cons, List.append_assoc, List.append_assoc] at h
      obtain ⟨hfirst, hrest⟩ := eq_of_append_cons_eq hl hl' h
      rw [hfirst, ih htail htail' hrest]

/-- A text consists of some lines, each with the end of its line. -/
structure Lines (text : String) (lines : List String) : Prop where
  text_eq : text = String.join (lines.map (· ++ "\n"))
  single : ∀ line ∈ lines, '\n' ∉ line.toList

/-- There are as many ends of lines as lines, and those that the lines hold. -/
theorem count_newline_join (lines : List String) :
    (String.join (lines.map (· ++ "\n"))).toList.count '\n' =
      lines.length + (lines.map fun line => line.toList.count '\n').sum := by
  induction lines with
  | nil => rfl
  | cons line lines ih =>
    rw [List.map_cons, String.join_cons, String.toList_append, String.toList_append,
      List.count_append, List.count_append, ih, List.map_cons, List.sum_cons, List.length_cons]
    show _ + 1 + _ = _
    omega

theorem Lines.count_newline {text : String} {lines : List String} (h : Lines text lines) :
    text.toList.count '\n' = lines.length := by
  have hnone : ∀ n ∈ lines.map fun line => line.toList.count '\n', n = 0 :=
    List.forall_mem_map.mpr fun line hline => List.count_eq_zero.mpr (h.single line hline)
  rw [h.text_eq, count_newline_join, List.sum_eq_zero_iff_forall_eq_nat.mpr hnone, Nat.add_zero]

end ByteLexer
