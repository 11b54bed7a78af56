import ByteLexer.Automaton.SetLabel
import ByteLexer.Proofs.Automaton.Pruning
import ByteLexer.Proofs.Automaton.Relabelling
import ByteLexer.Proofs.Text.Separators

/-! # Sets of labels written as labels

    Two sets of labels are written alike if the one is that of a label with a comma and the other
    one that of its two parts, or if the one is empty and the other one is that of the empty label.
    But no known set of a subset construction is empty. So where the labels have no commas, the
    first round of `flatten` tells the sets apart. The labels that it gives may have commas.
    From then on, however, each known set has one member.

    - **Texts.** Sets that are written alike, and when they have to be equal.
    - **Images.** A function that tells the states apart loses none of them, and a deterministic
      automaton all whose states can be reached stays one.
    - **Rounds.** What one round of `flatten` makes of any automaton, and what the next ones make of
      that.
-/

namespace ByteLexer

open Std (TransOrd LawfulEqOrd)

/-! ## Texts -/

/-- A text without commas. -/
def CommaFree (q : String) : Prop :=
  ',' ∉ q.toList

theorem CommaFree.append {p q : String} (hp : CommaFree p) (hq : CommaFree q) :
    CommaFree (p ++ q) :=
  not_mem_toList_append hp hq

namespace StateSet

variable {S T : StateSet String} {q r : String}

/-- Texts are the same if what stands between the braces is. -/
theorem text_inj : S.text = T.text ↔ ",".intercalate S.toList = ",".intercalate T.toList := by
  rw [text, text, String.append_left_inj, String.append_right_inj]

/-- The labels of a set can be read off its text, if there are some and they have no commas. -/
theorem splitOn_intercalate (hS : S.members.Nonempty) (hcomma : ∀ q ∈ S, CommaFree q) :
    (",".intercalate S.toList).toList.splitOn ',' = S.toList.map String.toList := by
  rw [String.toList_intercalate]
  apply List.splitOn_intercalate
  · intro l hl
    obtain ⟨q, hq, rfl⟩ := List.mem_map.mp hl
    exact hcomma q (Std.ExtTreeSet.mem_toList.mp hq)
  · obtain ⟨q, hq⟩ := hS
    intro hnil
    have hq' : q ∈ S.toList := Std.ExtTreeSet.mem_toList.mpr hq
    rw [List.map_eq_nil_iff.mp hnil] at hq'
    cases hq'

/-- Such sets are written differently. -/
theorem eq_of_text_eq (hS : S.members.Nonempty) (hT : T.members.Nonempty)
    (hcomma : ∀ q ∈ S, CommaFree q) (hcomma' : ∀ q ∈ T, CommaFree q) (h : S.text = T.text) :
    S = T := by
  have hlabels : S.toList.map String.toList = T.toList.map String.toList := by
    rw [← splitOn_intercalate hS hcomma, ← splitOn_intercalate hT hcomma', text_inj.mp h]
  have hinjective : Function.Injective String.toList := fun _ _ => String.toList_inj.mp
  exact Std.ExtTreeSet.toList_inj.mp (hinjective.list_map hlabels)

example : StateSet.text {"a,b"} = StateSet.text (OrdSet.ofMembers ["a", "b"]) := by
  decide

/-- So are sets of one label, whatever it is. -/
theorem eq_of_text_singleton_eq (h : text {q} = text {r}) : q = r := by
  have hsingleton : ∀ q : String, ",".intercalate ({q} : StateSet String).toList = q :=
    fun _ => rfl
  rw [text_inj, hsingleton, hsingleton] at h
  exact h

end StateSet

namespace Automaton

variable {Q P R : Type} [Ord Q] [TransOrd Q] [LawfulEqOrd Q] [Ord P] [TransOrd P] [LawfulEqOrd P]
  [Ord R] [TransOrd R] [LawfulEqOrd R] {A : Automaton Q} {B : Automaton P} {C : Automaton R}
  {g : Q → P}

/-! ## Images -/

/-- Two automata recognize the same words, with as many states and as many accepting states. -/
structure Alike (A : Automaton Q) (B : Automaton P) : Prop where
  recognizes : ∀ w, B.recognizes w = A.recognizes w
  size : B.size = A.size
  accepting : B.accepting.size = A.accepting.size

theorem Alike.trans (h : Alike A B) (h' : Alike B C) : Alike A C where
  recognizes w := (h'.recognizes w).trans (h.recognizes w)
  size := h'.size.trans h.size
  accepting := h'.accepting.trans h.accepting

/-- An image is alike if the function tells the states apart. -/
theorem WellFormed.alike_image (hA : A.WellFormed) (hg : ∀ q ∈ A, ∀ r ∈ A, g q = g r → q = r) :
    Alike A (A.image g) where
  recognizes := (hA.image_injective hg).1
  size := (hA.image_injective hg).2
  accepting := by
    have hmembers : (A.image g).accepting.members = g '' A.accepting.members := by
      ext x
      exact mem_accepting_image
    have hinjective : Set.InjOn g A.accepting.members := fun q hq r hr =>
      hg q (hA.accepting q hq) r (hA.accepting r hr)
    rw [← StateSet.ncard_members, ← StateSet.ncard_members, hmembers]
    exact hinjective.ncard_image

/-- And it is reduced if the automaton was. -/
theorem Reduced.image (h : A.Reduced) (hg : ∀ q ∈ A, ∀ r ∈ A, g q = g r → q = r) :
    (A.image g).Reduced where
  wellFormed := wellFormed_ofParts _ _ _ _
  deterministic := (h.wellFormed.keptApart hg).deterministic h.deterministic
  accessible x hx := by
    obtain ⟨q, hq, rfl⟩ := (mem_image_iff h.wellFormed.accepting).mp hx
    obtain ⟨w, hw⟩ := h.accessible q (h.wellFormed.mem_visitOrder_iff.mp hq)
    refine ⟨w, ?_⟩
    rw [initial_image]
    exact hw.image g

/-! ## Rounds -/

/-- A round of `flatten` keeps all sets, if no two of them are written alike. -/
theorem WellFormed.flatten {A : Automaton String} (hA : A.WellFormed)
    (htext : ∀ S ∈ A.subsetConstruction, ∀ T ∈ A.subsetConstruction, S.text = T.text → S = T) :
    A.flatten.Reduced ∧ Alike A.subsetConstruction A.flatten :=
  ⟨hA.reduced_subsetConstruction.image htext,
    hA.reduced_subsetConstruction.wellFormed.alike_image htext⟩

/-- The known sets of an automaton whose labels have no commas are written differently. -/
theorem WellFormed.eq_of_text_eq {A : Automaton String} (hA : A.WellFormed)
    (hcomma : ∀ q ∈ A, CommaFree q) :
    ∀ S ∈ A.subsetConstruction, ∀ T ∈ A.subsetConstruction, S.text = T.text → S = T := by
  -- the members of a known set are known
  have hknown : ∀ S ∈ A.subsetConstruction, S.members.Nonempty ∧ ∀ q ∈ S, CommaFree q := by
    intro S hS
    obtain ⟨hne, w, hw⟩ := hA.tidy.mem_subsetConstruction_iff.mp hS
    refine ⟨hne, fun q hq => hcomma q (hA.mem_of_accessible ⟨w, ?_⟩)⟩
    rw [← mem_wordEnds, hw]
    exact hq
  intro S hS T hT
  obtain ⟨hne, hfree⟩ := hknown S hS
  obtain ⟨hne', hfree'⟩ := hknown T hT
  exact StateSet.eq_of_text_eq hne hne' hfree hfree'

/-- Of a reduced automaton the known sets have one member each, so another round keeps all of
    them. -/
theorem Reduced.flatten {A : Automaton String} (h : A.Reduced) :
    A.flatten.Reduced ∧ Alike A A.flatten := by
  have hsingle : ∀ q ∈ A, ∀ r ∈ A, ({q} : StateSet String) = {r} → q = r := fun q _ r _ heq =>
    StateSet.eq_of_text_singleton_eq (congrArg StateSet.text heq)
  have hsets : Alike A A.subsetConstruction := by
    rw [h.subsetConstruction_eq]
    exact h.wellFormed.alike_image hsingle
  have htext : ∀ S ∈ A.subsetConstruction, ∀ T ∈ A.subsetConstruction,
      S.text = T.text → S = T := by
    intro S hS T hT heq
    obtain ⟨q, _, rfl⟩ := (h.deterministic.mem_subsetConstruction_iff h.wellFormed.tidy).mp hS
    obtain ⟨r, _, rfl⟩ := (h.deterministic.mem_subsetConstruction_iff h.wellFormed.tidy).mp hT
    rw [StateSet.eq_of_text_singleton_eq heq]
  obtain ⟨hreduced, hflat⟩ := h.wellFormed.flatten htext
  exact ⟨hreduced, hsets.trans hflat⟩

/-- After any number of rounds, but not none, the automaton is reduced and like the subset
    construction: the first round needs labels without commas, and the others do not. -/
theorem WellFormed.iterate_flatten {A : Automaton String} (hA : A.WellFormed)
    (hcomma : ∀ q ∈ A, CommaFree q) (n : Nat) :
    (Automaton.flatten^[n + 1] A).Reduced ∧
      Alike A.subsetConstruction (Automaton.flatten^[n + 1] A) := by
  induction n with
  | zero => exact hA.flatten (hA.eq_of_text_eq hcomma)
  | succ n ih =>
    obtain ⟨hreduced, halike⟩ := ih
    obtain ⟨hreduced', halike'⟩ := hreduced.flatten
    rw [Function.iterate_succ_apply']
    exact ⟨hreduced', halike.trans halike'⟩

end Automaton

end ByteLexer
