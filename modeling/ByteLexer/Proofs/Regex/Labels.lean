import ByteLexer.Proofs.Automaton.Construction
import ByteLexer.Proofs.Text.Separators
import ByteLexer.Regex.Expr

/-! # The labels of combinations

    The combinators bring in the labels `0` and `1`, and put `a.` or `b.` in front of the labels of
    their operands. What can be said of the labels of the operands can often be said of those of the
    result.

    - **Properties** that the combinators keep, and automata whose labels have one.
    - **Combinations** of such automata.
    - **Trees** of combinators.
-/

namespace ByteLexer.Regex

open Automaton

/-! ## Properties -/

/-- A property of labels that the combinators keep. -/
structure Kept (P : String → Prop) : Prop where
  first : P first
  final : P final
  left : ∀ q, P q → P ("a." ++ q)
  right : ∀ q, P q → P ("b." ++ q)

/-- That a label does without some character, for example, unless it is one of these. -/
theorem kept_not_mem {c : Char} (hc : c ∉ ['0', '1', 'a', 'b', '.']) :
    Kept fun q => c ∉ q.toList := by
  simp only [List.mem_cons, List.not_mem_nil, or_false, not_or] at hc
  obtain ⟨hzero, hone, ha, hb, hdot⟩ := hc
  constructor
  case first => exact List.not_mem_cons_of_ne_of_not_mem hzero List.not_mem_nil
  case final => exact List.not_mem_cons_of_ne_of_not_mem hone List.not_mem_nil
  case left =>
    refine fun q => not_mem_toList_append ?_
    exact List.not_mem_cons_of_ne_of_not_mem ha
      (List.not_mem_cons_of_ne_of_not_mem hdot List.not_mem_nil)
  case right =>
    refine fun q => not_mem_toList_append ?_
    exact List.not_mem_cons_of_ne_of_not_mem hb
      (List.not_mem_cons_of_ne_of_not_mem hdot List.not_mem_nil)

/-- A well-formed automaton all of whose labels have a property. -/
structure Labelled (P : String → Prop) (A : Regex) : Prop where
  wellFormed : A.WellFormed
  labels : ∀ q ∈ A, P q

namespace Labelled

variable {P : String → Prop} {A B : Regex} {q : String}

theorem initial (h : Labelled P A) : P A.initial :=
  h.labels _ h.wellFormed.initial

theorem accepting (h : Labelled P A) : ∀ q ∈ A.accepting.toList, P q := fun q hq =>
  h.labels q (h.wellFormed.accepting q (Std.ExtTreeSet.mem_toList.mp hq))

theorem ofInitial (h : P q) : Labelled P (ofInitial q) where
  wellFormed := wellFormed_ofInitial q
  labels p hp := by
    rw [mem_ofInitial.mp hp]
    exact h

/-- What is added has to have the property. -/
theorem extend (h : Labelled P A) {states accepting : List String} {edges : List (Edge String)}
    (hstates : ∀ q ∈ states, P q) (hedges : ∀ e ∈ edges, P e.source ∧ P e.target)
    (haccepting : ∀ q ∈ accepting, P q) : Labelled P (A.extend states edges accepting) where
  wellFormed := h.wellFormed.extend states edges accepting
  labels q hq := by
    rcases mem_extend.mp hq with hq | hq | ⟨e, he, rfl | rfl⟩ | hq
    · exact h.labels q hq
    · exact hstates q hq
    · exact (hedges e he).1
    · exact (hedges e he).2
    · exact haccepting q hq

theorem overlay (hA : Labelled P A) (hB : Labelled P B) : Labelled P (A.overlay B) := by
  refine hA.extend (fun q hq => hB.labels q (mem_states.mp hq)) (fun e he => ?_) (by simp)
  obtain ⟨hsource, htarget⟩ := hB.wellFormed.ends _ _ _ (mem_edges.mp he)
  exact ⟨hB.labels _ hsource, hB.labels _ htarget⟩

theorem qualify {P' : String → Prop} {name : String} (h : Labelled P A)
    (hname : ∀ q, P q → P' (name ++ q)) : Labelled P' (A.qualify name) where
  wellFormed := wellFormed_ofParts _ _ _ _
  labels x hx := by
    obtain ⟨q, hq, rfl⟩ := (mem_image_iff h.wellFormed.accepting).mp hx
    exact hname q (h.labels q (h.wellFormed.mem_visitOrder_iff.mp hq))

end Labelled

/-! ## Combinations -/

namespace Labelled

variable {P P₁ P₂ : String → Prop} {a b : Regex}

/-- Joints between labels with the property. -/
theorem forall_mem_map_joint {states : List String} {r : String} (hstates : ∀ q ∈ states, P q)
    (hr : P r) : ∀ e ∈ states.map fun q => joint q r, P e.source ∧ P e.target := by
  intro e he
  obtain ⟨q, hq, rfl⟩ := List.mem_map.mp he
  exact ⟨hstates q hq, hr⟩

/-- The labels of a union are those that the joints bring in, and those of the operands in their
    namespaces. -/
theorem union (ha : Labelled P₁ a) (hfirst : P first) (hfinal : P final)
    (hleft : ∀ q, P₁ q → P ("a." ++ q)) (hb : Labelled P₂ b)
    (hright : ∀ q, P₂ q → P ("b." ++ q)) : Labelled P (union a b) := by
  have ha' := ha.qualify hleft
  have hb' := hb.qualify hright
  refine (((Labelled.ofInitial hfirst).overlay ha').overlay hb').extend (by simp)
    (List.forall_mem_cons.mpr ⟨⟨hfirst, ha'.initial⟩,
      List.forall_mem_cons.mpr ⟨⟨hfirst, hb'.initial⟩, ?_⟩⟩)
    (List.forall_mem_singleton.mpr hfinal)
  exact forall_mem_map_joint (List.forall_mem_append.mpr ⟨ha'.accepting, hb'.accepting⟩) hfinal

/-- A concatenation has an initial state of its first operand. -/
theorem concat (ha : Labelled P₁ a) (hfinal : P final) (hleft : ∀ q, P₁ q → P ("a." ++ q))
    (hb : Labelled P₂ b) (hright : ∀ q, P₂ q → P ("b." ++ q)) : Labelled P (concat a b) := by
  have ha' := ha.qualify hleft
  have hb' := hb.qualify hright
  refine (((Labelled.ofInitial ha'.initial).overlay ha').overlay hb').extend (by simp)
    (List.forall_mem_append.mpr ⟨?_, ?_⟩) (List.forall_mem_singleton.mpr hfinal)
  · exact forall_mem_map_joint ha'.accepting hb'.initial
  · exact forall_mem_map_joint hb'.accepting hfinal

theorem star (ha : Labelled P₁ a) (hfirst : P first) (hfinal : P final)
    (hleft : ∀ q, P₁ q → P ("a." ++ q)) : Labelled P (star a) := by
  have ha' := ha.qualify hleft
  refine ((Labelled.ofInitial hfirst).overlay ha').extend (by simp)
    (List.forall_mem_cons.mpr ⟨⟨hfirst, ha'.initial⟩,
      List.forall_mem_cons.mpr ⟨⟨hfirst, hfinal⟩, fun e he => ?_⟩⟩)
    (List.forall_mem_singleton.mpr hfinal)
  obtain ⟨q, hq, he⟩ := List.mem_flatMap.mp he
  have hlabel := ha'.accepting q hq
  rcases List.mem_pair.mp he with rfl | rfl
  · exact ⟨hlabel, hfinal⟩
  · exact ⟨hlabel, ha'.initial⟩

end Labelled

namespace Kept

variable {P : String → Prop} {a b : Regex}

theorem oneOf (hP : Kept P) (bytes : List UInt8) : Labelled P (oneOf bytes) := by
  refine (Labelled.ofInitial hP.first).extend (by simp) (fun e he => ?_) ?_
  · obtain ⟨b, _, rfl⟩ := List.mem_map.mp he
    exact ⟨hP.first, hP.final⟩
  · exact List.forall_mem_singleton.mpr hP.final

theorem epsilon (hP : Kept P) : Labelled P epsilon := by
  refine (Labelled.ofInitial hP.first).extend (by simp) ?_ ?_
  · exact List.forall_mem_singleton.mpr ⟨hP.first, hP.final⟩
  · exact List.forall_mem_singleton.mpr hP.final

theorem union (hP : Kept P) (ha : Labelled P a) (hb : Labelled P b) : Labelled P (union a b) :=
  ha.union hP.first hP.final hP.left hb hP.right

theorem concat (hP : Kept P) (ha : Labelled P a) (hb : Labelled P b) : Labelled P (concat a b) :=
  ha.concat hP.final hP.left hb hP.right

theorem star (hP : Kept P) (ha : Labelled P a) : Labelled P (star a) :=
  ha.star hP.first hP.final hP.left

theorem word (hP : Kept P) (bytes : List UInt8) : Labelled P (word bytes) := by
  have hfold : ∀ (rest : List UInt8) (r : Regex), Labelled P r →
      Labelled P (rest.foldl (fun r c => Regex.concat r (byte c)) r) := by
    intro rest
    induction rest with
    | nil => exact fun _ hr => hr
    | cons c rest ih => exact fun r hr => ih _ (hP.concat hr (hP.oneOf [c]))
  cases bytes with
  | nil => exact hP.epsilon
  | cons b rest => exact hfold rest _ (hP.oneOf [b])

end Kept

/-! ## Trees -/

namespace Expr

/-- The labels of the automata that a tree is built from have a property, and no text that is put
    in front of labels takes it from them. -/
def Labelled (P : String → Prop) : Expr → Prop
  | .automaton A => Regex.Labelled P A
  | .byte _ | .between _ _ | .allBut _ | .oneOf _ | .epsilon | .word _ => True
  | .union a b | .concat a b | .or a b | .add a b => a.Labelled P ∧ b.Labelled P
  | .star a | .plus a | .optional a => a.Labelled P
  | .qualify name a => (∀ q, P q → P (name ++ q)) ∧ a.Labelled P

/-- If the combinators keep the property, the labels of the automaton of the tree have it. -/
theorem Labelled.build {P : String → Prop} (hP : Kept P) {e : Expr} (h : e.Labelled P) :
    Regex.Labelled P e.build := by
  induction e with
  | automaton A => exact h
  | byte b => exact hP.oneOf [b]
  | between b c => exact hP.oneOf _
  | allBut b => exact hP.oneOf _
  | oneOf bytes => exact hP.oneOf bytes
  | epsilon => exact hP.epsilon
  | word bytes => exact hP.word bytes
  | union a b iha ihb | or a b iha ihb => exact hP.union (iha h.1) (ihb h.2)
  | concat a b iha ihb | add a b iha ihb => exact hP.concat (iha h.1) (ihb h.2)
  | star a iha => exact hP.star (iha h)
  | plus a iha =>
    show Regex.Labelled P (Regex.concat a.build (Regex.star a.build))
    exact hP.concat (iha h) (hP.star (iha h))
  | optional a iha =>
    show Regex.Labelled P (Regex.union a.build Regex.epsilon)
    exact hP.union (iha h) hP.epsilon
  | qualify name a iha => exact (iha h.2).qualify h.1

end Expr

end ByteLexer.Regex
