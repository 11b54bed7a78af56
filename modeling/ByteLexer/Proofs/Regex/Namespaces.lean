import ByteLexer.Proofs.Regex.Labels
import ByteLexer.Proofs.Regex.Shape
import Mathlib.Data.List.Nodup

/-! # Namespaces

    An automaton may hold copies of others, and all that tells one copy from the next is what their
    labels begin with. The labels of the operands may be any texts, also such as look like labels in
    a namespace. The copies are kept apart nevertheless.

    - **Namespaces** hold the labels that begin with a name.
    - **Parts.** Automata whose states are some of their own and those of the copies. They are
      counted.
    - **Copies.** Which edges lie in a namespace, lead into it and lead out of it.
    - **Combinations** of two automata, or of one with itself.
-/

namespace ByteLexer

open Automaton

/-! ## Namespaces -/

/-- A label is in a namespace if it begins with the name of it. -/
def InNamespace (name label : String) : Prop :=
  name.toList <+: label.toList

instance (name label : String) : Decidable (InNamespace name label) :=
  inferInstanceAs (Decidable (name.toList <+: label.toList))

theorem inNamespace_iff {name label : String} : InNamespace name label ↔ ∃ q, name ++ q = label := by
  constructor
  · intro h
    obtain ⟨rest, hrest⟩ := h
    refine ⟨String.ofList rest, ?_⟩
    rw [← String.toList_inj, String.toList_append, String.toList_ofList, hrest]
  · intro hex
    obtain ⟨q, rfl⟩ := hex
    rw [InNamespace, String.toList_append]
    exact List.prefix_append _ _

theorem inNamespace_append (name q : String) : InNamespace name (name ++ q) :=
  inNamespace_iff.mpr ⟨q, rfl⟩

/-! ## Parts -/

/-- An automaton that is to be copied into a namespace. -/
structure Part where
  name : String
  automaton : Regex

/-- The labels of the copied states. -/
def Part.states (p : Part) : List String :=
  p.automaton.states.map (p.name ++ ·)

/-- An automaton is made of some states of its own and of parts.

    - `wellFormed`: it can be a part again.
    - `states`: its states are its own ones and those of the copies, one for each state of a part.
    - `apart`: no label is in two of the namespaces.
    - `outside`: its own states are in none of them. -/
structure MadeOf (R : Regex) (own : List String) (parts : List Part) : Prop where
  wellFormed : R.WellFormed
  states : R.states.Perm (own ++ parts.flatMap Part.states)
  apart : parts.Pairwise fun p p' => ∀ q, InNamespace p.name q → ¬InNamespace p'.name q
  outside : ∀ q ∈ own, ∀ p ∈ parts, ¬InNamespace p.name q

section Parts

variable {R : Regex} {own : List String} {parts : List Part} {p : Part} {q : String}

theorem Part.inNamespace_of_mem_states (h : q ∈ p.states) : InNamespace p.name q := by
  obtain ⟨r, _, rfl⟩ := List.mem_map.mp h
  exact inNamespace_append p.name r

theorem Part.nodup_states (p : Part) : p.states.Nodup :=
  List.Nodup.map (fun _ _ => (String.append_right_inj p.name).mp) Std.ExtTreeMap.nodup_keys

theorem mem_states_of_mem_part (hp : p ∈ parts) (hq : q ∈ p.automaton) :
    p.name ++ q ∈ own ++ parts.flatMap Part.states := by
  refine List.mem_append_right own (List.mem_flatMap.mpr ⟨p, hp, ?_⟩)
  exact List.mem_map_of_mem (mem_states.mpr hq)

/-- Namespaces that have no label in common list no state twice. -/
theorem nodup_states_parts (hown : own.Nodup)
    (hapart : parts.Pairwise fun p p' => ∀ q, InNamespace p.name q → ¬InNamespace p'.name q)
    (houtside : ∀ q ∈ own, ∀ p ∈ parts, ¬InNamespace p.name q) :
    (own ++ parts.flatMap Part.states).Nodup := by
  rw [List.nodup_append, List.nodup_flatMap]
  refine ⟨hown, ⟨fun p _ => p.nodup_states, hapart.imp ?_⟩, ?_⟩
  · intro p p' h q hq hq'
    exact h q (Part.inNamespace_of_mem_states hq) (Part.inNamespace_of_mem_states hq')
  · rintro q hq r hr rfl
    obtain ⟨p, hp, hr⟩ := List.mem_flatMap.mp hr
    exact houtside q hq p hp (Part.inNamespace_of_mem_states hr)

/-- It is enough to say which labels there are, and that none of them is missing. -/
theorem MadeOf.of_labelled (hR : Regex.Labelled (· ∈ own ++ parts.flatMap Part.states) R)
    (hown : ∀ q ∈ own, q ∈ R) (hparts : ∀ p ∈ parts, ∀ q ∈ p.automaton, p.name ++ q ∈ R)
    (hnodup : own.Nodup)
    (hapart : parts.Pairwise fun p p' => ∀ q, InNamespace p.name q → ¬InNamespace p'.name q)
    (houtside : ∀ q ∈ own, ∀ p ∈ parts, ¬InNamespace p.name q) : MadeOf R own parts where
  wellFormed := hR.wellFormed
  states := by
    have hstates : R.states.Nodup := Std.ExtTreeMap.nodup_keys
    rw [List.perm_ext_iff_of_nodup hstates (nodup_states_parts hnodup hapart houtside)]
    intro q
    rw [mem_states]
    refine ⟨hR.labels q, fun hq => ?_⟩
    rcases List.mem_append.mp hq with hq | hq
    · exact hown q hq
    · obtain ⟨p, hp, hq⟩ := List.mem_flatMap.mp hq
      obtain ⟨r, hr, rfl⟩ := List.mem_map.mp hq
      exact hparts p hp r (mem_states.mp hr)
  apart := hapart
  outside := houtside

/-- The states are counted part by part. -/
theorem MadeOf.size (h : MadeOf R own parts) :
    R.size = own.length + (parts.map fun p => p.automaton.size).sum := by
  have hsize : ∀ A : Regex, A.states.length = A.size := fun A => Std.ExtTreeMap.length_keys
  rw [← hsize R, h.states.length_eq, List.length_append, List.length_flatMap]
  simp only [Part.states, List.length_map, hsize]

end Parts

/-! ## Copies -/

/-- How the copy of `A` in a namespace lies in `R`. All of the edges are there that are named here,
    and no others.

    - `within`: in the namespace, the edges are copied. If `A` may be passed `again`, an edge without
      a byte leads from each accepting state to the initial one.
    - `enter`: from outside, an edge without a byte leads from each `entry` to the initial state.
    - `leave`: to outside, an edge without a byte leads from each accepting state to each `exit`. -/
structure CopiedIn (name : String) (A R : Regex) (again : Prop) (entry exit : String → Prop) :
    Prop where
  within : ∀ q s r, name ++ r ∈ R.targets (name ++ q) s ↔
    r ∈ A.targets q s ∨ (again ∧ q ∈ A.accepting ∧ s = Symbol.epsilon ∧ r = A.initial)
  enter : ∀ p s r, ¬InNamespace name p →
    (name ++ r ∈ R.targets p s ↔ entry p ∧ s = Symbol.epsilon ∧ r = A.initial)
  leave : ∀ q s x, ¬InNamespace name x →
    (x ∈ R.targets (name ++ q) s ↔ q ∈ A.accepting ∧ s = Symbol.epsilon ∧ exit x)

/-- If there are other edges besides the copied ones, only these have to be looked at. -/
theorem CopiedIn.of_targets {name : String} {f : String → String} {A R : Regex} {again : Prop}
    {entry exit : String → Prop} {other : String → Symbol → String → Prop}
    (hf : ∀ q, name ++ q = f q)
    (h : ∀ p s x, x ∈ R.targets p s ↔ x ∈ (A.image f).targets p s ∨ other p s x)
    (hwithin : ∀ q s r, other (f q) s (f r) ↔
      again ∧ q ∈ A.accepting ∧ s = Symbol.epsilon ∧ r = A.initial)
    (henter : ∀ p s r, (∀ q, f q ≠ p) →
      (other p s (f r) ↔ entry p ∧ s = Symbol.epsilon ∧ r = A.initial))
    (hleave : ∀ q s x, (∀ r, f r ≠ x) →
      (other (f q) s x ↔ q ∈ A.accepting ∧ s = Symbol.epsilon ∧ exit x)) :
    CopiedIn name A R again entry exit := by
  have hinj : ∀ q r, f q = f r → q = r := by
    intro q r hqr
    rw [← hf, ← hf] at hqr
    exact (String.append_right_inj name).mp hqr
  have houtside : ∀ x, ¬InNamespace name x → ∀ q, f q ≠ x := by
    intro x hx q hq
    rw [← hf] at hq
    exact hx (inNamespace_iff.mpr ⟨q, hq⟩)
  constructor
  case within =>
    intro q s r
    rw [hf, hf, h, hwithin]
    refine or_congr_left ⟨fun hr => ?_, fun hr => mem_targets_image.mpr ⟨q, r, hr, rfl, rfl⟩⟩
    -- the copied edge has these ends, as the labels tell the states
    obtain ⟨q', r', hr', hq, hrr'⟩ := mem_targets_image.mp hr
    rw [← hinj _ _ hq, ← hinj _ _ hrr']
    exact hr'
  case enter =>
    intro p s r hp
    rw [hf, h, henter p s r (houtside p hp), or_iff_right]
    exact Regex.not_mem_targets_image (houtside p hp)
  case leave =>
    intro q s x hx
    rw [hf, h, hleave q s x (houtside x hx), or_iff_right]
    intro hin
    obtain ⟨_, r, _, _, hr⟩ := mem_targets_image.mp hin
    exact houtside x hx r hr

/-! ## Combinations -/

namespace Regex

variable {a b : Regex} {q : String}

theorem mem_union_left (h : q ∈ a) : left q ∈ union a b :=
  mem_extend.mpr (.inl (mem_overlay_of_mem_left (mem_overlay_of_mem_right (mem_image_of_mem h))))

theorem mem_union_right (h : q ∈ b) : right q ∈ union a b :=
  mem_extend.mpr (.inl (mem_overlay_of_mem_right (mem_image_of_mem h)))

theorem mem_concat_left (h : q ∈ a) : left q ∈ concat a b :=
  mem_extend.mpr (.inl (mem_overlay_of_mem_left (mem_overlay_of_mem_right (mem_image_of_mem h))))

theorem mem_concat_right (h : q ∈ b) : right q ∈ concat a b :=
  mem_extend.mpr (.inl (mem_overlay_of_mem_right (mem_image_of_mem h)))

theorem mem_star_left (h : q ∈ a) : left q ∈ star a :=
  mem_extend.mpr (.inl (mem_overlay_of_mem_right (mem_image_of_mem h)))

/-- The namespaces of two operands have no label in common. -/
theorem apart_operands (a b : Regex) : [Part.mk "a." a, Part.mk "b." b].Pairwise fun p p' =>
    ∀ q, InNamespace p.name q → ¬InNamespace p'.name q := by
  refine List.pairwise_pair.mpr fun q hleft hright => ?_
  obtain ⟨r, rfl⟩ := inNamespace_iff.mp hleft
  obtain ⟨r', hr'⟩ := inNamespace_iff.mp hright
  exact right_ne_left hr'

/-- The labels that the combinations bring in are in neither of them. -/
theorem outside_operands (a b : Regex) : ∀ q ∈ [first, final],
    ∀ p ∈ [Part.mk "a." a, Part.mk "b." b], ¬InNamespace p.name q := by
  have hjoints : ∀ q ∈ [first, final], ¬InNamespace "a." q ∧ ¬InNamespace "b." q := by decide
  intro q hq p hp
  rcases List.mem_pair.mp hp with rfl | rfl
  · exact (hjoints q hq).1
  · exact (hjoints q hq).2

/-- The labels of any automaton are those of its states. -/
theorem labelled_self (h : a.WellFormed) : Labelled (· ∈ a) a :=
  ⟨h, fun _ hq => hq⟩

theorem madeOf_union (ha : a.WellFormed) (hb : b.WellFormed) :
    MadeOf (union a b) [first, final] [⟨"a.", a⟩, ⟨"b.", b⟩] := by
  have hlabels : Labelled (· ∈ [first, final] ++
      [Part.mk "a." a, Part.mk "b." b].flatMap Part.states) (union a b) := by
    refine (labelled_self ha).union (by simp) (by simp) (fun q hq => ?_) (labelled_self hb)
      fun q hq => ?_
    · exact mem_states_of_mem_part (p := ⟨"a.", a⟩) (by simp) hq
    · exact mem_states_of_mem_part (p := ⟨"b.", b⟩) (by simp) hq
  have hwell := hlabels.wellFormed
  have hfirst : first ∈ union a b := initial_union ▸ hwell.initial
  have hfinal : final ∈ union a b := hwell.accepting _ (mem_accepting_union.mpr rfl)
  refine MadeOf.of_labelled hlabels (by simp [hfirst, hfinal]) ?_ (by simp) (apart_operands a b)
    (outside_operands a b)
  exact List.forall_mem_cons.mpr ⟨fun q => mem_union_left,
    List.forall_mem_singleton.mpr fun q => mem_union_right⟩

theorem madeOf_concat (ha : a.WellFormed) (hb : b.WellFormed) :
    MadeOf (concat a b) [final] [⟨"a.", a⟩, ⟨"b.", b⟩] := by
  have hlabels : Labelled (· ∈ [final] ++
      [Part.mk "a." a, Part.mk "b." b].flatMap Part.states) (concat a b) := by
    refine (labelled_self ha).concat (by simp) (fun q hq => ?_) (labelled_self hb) fun q hq => ?_
    · exact mem_states_of_mem_part (p := ⟨"a.", a⟩) (by simp) hq
    · exact mem_states_of_mem_part (p := ⟨"b.", b⟩) (by simp) hq
  have hfinal : final ∈ concat a b :=
    hlabels.wellFormed.accepting _ (mem_accepting_concat.mpr rfl)
  refine MadeOf.of_labelled hlabels (by simp [hfinal]) ?_ (by simp) (apart_operands a b) ?_
  · exact List.forall_mem_cons.mpr ⟨fun q => mem_concat_left,
      List.forall_mem_singleton.mpr fun q => mem_concat_right⟩
  · exact fun q hq => outside_operands a b q (List.mem_cons_of_mem first hq)

theorem madeOf_star (ha : a.WellFormed) : MadeOf (star a) [first, final] [⟨"a.", a⟩] := by
  have hlabels : Labelled (· ∈ [first, final] ++
      [Part.mk "a." a].flatMap Part.states) (star a) := by
    refine (labelled_self ha).star (by simp) (by simp) fun q hq => ?_
    exact mem_states_of_mem_part (p := ⟨"a.", a⟩) (by simp) hq
  have hwell := hlabels.wellFormed
  have hfirst : first ∈ star a := initial_star ▸ hwell.initial
  have hfinal : final ∈ star a := hwell.accepting _ (mem_accepting_star.mpr rfl)
  refine MadeOf.of_labelled hlabels (by simp [hfirst, hfinal]) ?_ (by simp)
    (List.pairwise_singleton _ _) ?_
  · exact List.forall_mem_singleton.mpr fun q => mem_star_left
  · intro q hq
    -- the second operand does not matter
    exact List.forall_mem_singleton.mpr (List.forall_mem_cons.mp (outside_operands a a q hq)).1

theorem copiedIn_union_left (a b : Regex) :
    CopiedIn "a." a (union a b) False (· = first) (· = final) := by
  refine CopiedIn.of_targets (f := left) (fun _ => rfl) (fun p s x => mem_targets_union) ?_ ?_ ?_
  -- besides the copied edges, none lie within the namespace
  · simp [mem_accepting_image]
  -- one leads into it, and those of the other copy do not
  · simp [mem_targets_image]
  -- the accepting states lead out of it
  · simp [mem_accepting_image]

theorem copiedIn_union_right (a b : Regex) :
    CopiedIn "b." b (union a b) False (· = first) (· = final) := by
  refine CopiedIn.of_targets (f := right) (fun _ => rfl)
    (fun p s x => mem_targets_union.trans or_left_comm) ?_ ?_ ?_
  · simp [mem_accepting_image]
  · simp [mem_targets_image]
  · simp [mem_accepting_image]

theorem copiedIn_concat_left (a b : Regex) :
    CopiedIn "a." a (concat a b) False (fun _ => False) (· = right b.initial) := by
  refine CopiedIn.of_targets (f := left) (fun _ => rfl) (fun p s x => mem_targets_concat) ?_ ?_ ?_
  · simp [mem_accepting_image]
  · simp [mem_targets_image]
  · simp [mem_accepting_image]

theorem copiedIn_concat_right (a b : Regex) :
    CopiedIn "b." b (concat a b) False (fun p => ∃ q ∈ a.accepting, left q = p) (· = final) := by
  refine CopiedIn.of_targets (f := right) (fun _ => rfl)
    (fun p s x => mem_targets_concat.trans or_left_comm) ?_ ?_ ?_
  · simp [mem_accepting_image]
  · simp [mem_targets_image, mem_accepting_image]
  · simp [mem_accepting_image]

/-- A repetition leads from the accepting states of its operand back to the initial one. -/
theorem copiedIn_star (a : Regex) : CopiedIn "a." a (star a) True (· = first) (· = final) := by
  refine CopiedIn.of_targets (f := left) (fun _ => rfl) (fun p s x => mem_targets_star) ?_ ?_ ?_
  -- one of the two joints from an accepting state stays within the namespace
  · simp [mem_accepting_image]
  · intro p s r hp
    simp [mem_accepting_image, hp]
  -- the other one leads out of it
  · intro q s x hx
    simp [mem_accepting_image, (hx a.initial).symm]

end Regex

end ByteLexer
