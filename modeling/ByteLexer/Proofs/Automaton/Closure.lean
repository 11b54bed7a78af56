import ByteLexer.Proofs.Automaton.Words
import Mathlib.Data.List.Basic
import Mathlib.Logic.Relation

/-! # Closures

    The closure of some labels holds whatever silent edges lead to from them. It can be found with a
    list of labels to look at, which grows as long as new ones are found. Silent edges may lead in
    circles, and labels may be listed several times.

    - **Silent edges**, and what they lead to.
    - **Sweeps.** The labels found so far and those to look at, and what one step does to them.
    - **Termination.** A step finds a new label, or it shortens the list.
    - **Halfway.** What holds after any number of steps, in whatever order labels are looked at. So
      the closure is found in the end.
-/

namespace ByteLexer.Automaton

open Std (TransOrd LawfulEqOrd)
open Relation (ReflTransGen)

variable {Q : Type} [Ord Q] [TransOrd Q] {A : Automaton Q} {S T : StateSet Q} {q r : Q}

/-! ## Silent edges -/

/-- There is an edge that consumes nothing. -/
def Silent (A : Automaton Q) (q r : Q) : Prop :=
  r ∈ A.targets q Symbol.epsilon

/-- A path without bytes consists of silent edges only. -/
theorem path_nil_iff : A.Path q [] r ↔ ReflTransGen A.Silent q r := by
  constructor
  · intro h
    generalize hw : [] = w at h
    induction h with
    | nil q => exact .refl
    | silent hr _ ih => exact .head hr (ih hw)
    | byte => cases hw
  · intro h
    induction h using ReflTransGen.head_induction_on with
    | refl => exact .nil r
    | head hr _ ih => exact .silent hr ih

/-! ## Sweeps -/

/-- A closure that is being computed: the labels that have been found, and those still to look
    at. -/
structure Sweep (Q : Type) [Ord Q] where
  found : StateSet Q
  pending : List Q

/-- One of the labels to look at is taken off the list, whichever it is. If it has been found
    before, that is all. If not, it is found, and what silent edges lead to from it is put on the
    list, in whatever order. -/
inductive Sweep.Step (A : Automaton Q) : Sweep Q → Sweep Q → Prop
  | known {found : StateSet Q} {before after : List Q} {q : Q} :
      q ∈ found → Step A ⟨found, before ++ q :: after⟩ ⟨found, before ++ after⟩
  | fresh {found : StateSet Q} {before after pending : List Q} {q : Q} :
      q ∉ found →
      pending.Perm (before ++ after ++ (A.targets q Symbol.epsilon).toList) →
      Step A ⟨found, before ++ q :: after⟩ ⟨found.insert q, pending⟩

variable [LawfulEqOrd Q] {x y : Sweep Q} {pending : List Q}

theorem mem_closure_iff : q ∈ A.closure S ↔ ∃ p ∈ S, ReflTransGen A.Silent p q := by
  rw [mem_closure]
  simp only [path_nil_iff]

/-- A closure holds what silent edges lead to from its members. -/
theorem mem_closure_of_silent (hq : q ∈ A.closure S) (hr : A.Silent q r) : r ∈ A.closure S := by
  obtain ⟨p, hp, hpath⟩ := mem_closure_iff.mp hq
  exact mem_closure_iff.mpr ⟨p, hp, hpath.tail hr⟩

theorem mem_closure_of_mem (hq : q ∈ S) : q ∈ A.closure S :=
  mem_closure_iff.mpr ⟨q, hq, .refl⟩

/-- A closure is the least set of labels with the given ones that silent edges do not leave. -/
theorem mem_of_mem_closure (hstart : ∀ q ∈ S, q ∈ T) (hstep : ∀ q ∈ T, ∀ r, A.Silent q r → r ∈ T)
    (hq : q ∈ A.closure S) : q ∈ T := by
  obtain ⟨p, hp, hpath⟩ := mem_closure_iff.mp hq
  clear hq
  induction hpath with
  | refl => exact hstart p hp
  | tail _ hr ih => exact hstep _ ih _ hr

namespace Sweep

/-! ## Termination -/

/-- If silent edges do not leave a list, the labels to look at stay in it. -/
theorem Step.pending_within {within : List Q} (h : Step A x y)
    (hclosed : ∀ q ∈ within, ∀ r, A.Silent q r → r ∈ within) (hx : ∀ q ∈ x.pending, q ∈ within) :
    ∀ q ∈ y.pending, q ∈ within := by
  cases h with
  | @known found before after q hq =>
    exact fun r hr => hx r (((List.sublist_cons_self q after).append_left before).subset hr)
  | @fresh found before after pending q hq hperm =>
    intro r hr
    rcases List.mem_append.mp (hperm.mem_iff.mp hr) with hr | hr
    · exact hx r (((List.sublist_cons_self q after).append_left before).subset hr)
    · have hqw : q ∈ within := hx q (List.mem_append_right before List.mem_cons_self)
      exact hclosed q hqw r (Std.ExtTreeSet.mem_toList.mp hr)

/-- Either more of them have been found, or fewer are to look at. -/
theorem Step.shrinks {within : List Q} (h : Step A x y) (hx : ∀ q ∈ x.pending, q ∈ within) :
    Prod.Lex (· < ·) (· < ·) (Graph.unseen within y.found, y.pending.length)
      (Graph.unseen within x.found, x.pending.length) := by
  cases h with
  | @known found before after q hq =>
    refine Prod.Lex.right _ ?_
    rw [List.length_append, List.length_append, List.length_cons]
    exact Nat.lt_succ_self _
  | @fresh found before after pending q hq hperm =>
    have hqw : q ∈ within := hx q (List.mem_append_right before List.mem_cons_self)
    have hkeep : ∀ r ∈ found, r ∈ found.insert q := fun r hr => OrdSet.mem_insert_iff.mpr (.inr hr)
    have hnew : q ∈ found.insert q := OrdSet.mem_insert_iff.mpr (.inl rfl)
    exact Prod.Lex.left _ _ (Graph.unseen_lt hkeep hqw hq hnew)

theorem acc_of_within {within : List Q} (hclosed : ∀ q ∈ within, ∀ r, A.Silent q r → r ∈ within)
    (x : Sweep Q) (hx : ∀ q ∈ x.pending, q ∈ within) : Acc (fun y x => Step A x y) x :=
  ⟨x, fun y hstep => acc_of_within hclosed y (hstep.pending_within hclosed hx)⟩
termination_by (Graph.unseen within x.found, x.pending.length)
decreasing_by exact hstep.shrinks hx

/-- No sweep goes on forever. -/
theorem wellFounded_step (A : Automaton Q) : WellFounded fun y x => Step A x y := by
  refine ⟨fun x => ?_⟩
  obtain ⟨within, hstarts, hclosed⟩ := A.bounded_silentSuccessors x.pending
  refine acc_of_within (fun q hq r hr => ?_) x hstarts
  exact hclosed q hq ((), r) (List.mem_map.mpr ⟨r, Std.ExtTreeSet.mem_toList.mpr hr, rfl⟩)

omit [LawfulEqOrd Q] in
/-- It goes on as long as there is a label to look at. -/
theorem exists_step (h : x.pending ≠ []) : ∃ y, Step A x y := by
  obtain ⟨found, pending⟩ := x
  obtain ⟨q, rest, rfl⟩ := List.exists_cons_of_ne_nil h
  by_cases hq : q ∈ found
  · have hknown : Step A ⟨found, [] ++ q :: rest⟩ ⟨found, [] ++ rest⟩ := .known hq
    exact ⟨_, hknown⟩
  · have hfresh : Step A ⟨found, [] ++ q :: rest⟩
        ⟨found.insert q, [] ++ rest ++ (A.targets q Symbol.epsilon).toList⟩ :=
      .fresh hq (List.Perm.refl _)
    exact ⟨_, hfresh⟩

/-! ## Halfway -/

/-- A label has been found, or is to look at. -/
def Knows (x : Sweep Q) (q : Q) : Prop :=
  q ∈ x.found ∨ q ∈ x.pending

/-- A sweep is somewhere on the way to the closure of some labels. It knows these, and whatever
    silent edges lead to from the labels that it has found; and it knows no others than those of the
    closure. -/
structure Halfway (A : Automaton Q) (S : StateSet Q) (x : Sweep Q) : Prop where
  starts : ∀ q ∈ S, x.Knows q
  frontier : ∀ q ∈ x.found, ∀ r, A.Silent q r → x.Knows r
  sound : ∀ q, x.Knows q → q ∈ A.closure S

theorem halfway_start (A : Automaton Q) (h : ∀ q, q ∈ pending ↔ q ∈ S) :
    Halfway A S ⟨∅, pending⟩ where
  starts q hq := .inr ((h q).mpr hq)
  frontier _ hq := absurd hq Std.ExtTreeSet.not_mem_empty
  sound q hq := by
    rcases hq with hq | hq
    · exact absurd hq Std.ExtTreeSet.not_mem_empty
    · exact mem_closure_of_mem ((h q).mp hq)

/-- What a step makes known is what was known, and what silent edges lead to from a label that it
    finds. -/
theorem Step.knows_iff (h : Step A x y) : y.Knows q ↔
    x.Knows q ∨ ∃ p, p ∈ y.found ∧ p ∉ x.found ∧ A.Silent p q := by
  cases h with
  | @known found before after p hp =>
    have hlist : q ∈ before ++ p :: after ↔ q = p ∨ q ∈ before ++ after := by
      simp only [List.mem_append, List.mem_cons, or_left_comm]
    have hnone : ¬∃ t, t ∈ found ∧ t ∉ found ∧ A.Silent t q := by
      intro hex
      obtain ⟨t, ht, hnot, _⟩ := hex
      exact hnot ht
    rw [or_iff_left hnone]
    show q ∈ found ∨ q ∈ before ++ after ↔ q ∈ found ∨ q ∈ before ++ p :: after
    rw [hlist]
    refine or_congr_right' fun hq => (or_iff_right fun heq => hq ?_).symm
    rw [heq]
    exact hp
  | @fresh found before after pending p hp hperm =>
    have hnew : (∃ t, t ∈ found.insert p ∧ t ∉ found ∧ A.Silent t q) ↔ A.Silent p q := by
      constructor
      · intro hex
        obtain ⟨t, ht, hnot, hq⟩ := hex
        rcases OrdSet.mem_insert_iff.mp ht with rfl | ht
        · exact hq
        · exact absurd ht hnot
      · intro hq
        exact ⟨p, OrdSet.mem_insert_iff.mpr (.inl rfl), hp, hq⟩
    show q ∈ found.insert p ∨ q ∈ pending ↔ (q ∈ found ∨ q ∈ before ++ p :: after) ∨ _
    rw [hnew, OrdSet.mem_insert_iff, hperm.mem_iff]
    simp only [List.mem_append, List.mem_cons, Std.ExtTreeSet.mem_toList, Silent]
    grind

/-- The labels that a step finds were to look at. -/
theorem Step.knows_of_mem (h : Step A x y) (hq : q ∈ y.found) : x.Knows q := by
  cases h with
  | known _ => exact .inl hq
  | @fresh found before after pending p _ _ =>
    rcases OrdSet.mem_insert_iff.mp hq with rfl | hq
    · exact .inr (List.mem_append_right before List.mem_cons_self)
    · exact .inl hq

/-- Every step stays on the way. -/
theorem Halfway.step (hx : Halfway A S x) (h : Step A x y) : Halfway A S y where
  starts q hq := h.knows_iff.mpr (.inl (hx.starts q hq))
  frontier q hq r hr := by
    rw [h.knows_iff]
    by_cases hfound : q ∈ x.found
    · exact .inl (hx.frontier q hfound r hr)
    · exact .inr ⟨q, hq, hfound, hr⟩
  sound q hq := by
    rcases h.knows_iff.mp hq with hq | ⟨p, hp, _, hpq⟩
    · exact hx.sound q hq
    · exact mem_closure_of_silent (hx.sound p (h.knows_of_mem hp)) hpq

/-- So does any number of steps. -/
theorem Halfway.steps (hx : Halfway A S x) (h : ReflTransGen (Step A) x y) : Halfway A S y := by
  induction h with
  | refl => exact hx
  | tail _ hstep ih => exact ih.step hstep

/-- Where nothing is left to look at, the closure has been found. -/
theorem Halfway.found_eq (hx : Halfway A S x) (h : x.pending = []) : x.found = A.closure S := by
  have hknows : ∀ q, x.Knows q → q ∈ x.found := by
    intro q hq
    refine hq.resolve_right ?_
    rw [h]
    exact List.not_mem_nil
  refine Std.ExtTreeSet.ext_mem fun q => ⟨fun hq => hx.sound q (.inl hq), fun hq => ?_⟩
  exact mem_of_mem_closure (fun p hp => hknows p (hx.starts p hp))
    (fun p hp r hr => hknows r (hx.frontier p hp r hr)) hq

end Sweep

/-! ## Laws -/

theorem closure_mono (h : ∀ q ∈ S, q ∈ T) : ∀ q ∈ A.closure S, q ∈ A.closure T := by
  intro q hq
  exact mem_of_mem_closure (fun p hp => mem_closure_of_mem (h p hp))
    (fun _ hp _ hr => mem_closure_of_silent hp hr) hq

theorem closure_closure (A : Automaton Q) (S : StateSet Q) :
    A.closure (A.closure S) = A.closure S := by
  refine Std.ExtTreeSet.ext_mem fun q => ⟨fun hq => ?_, mem_closure_of_mem⟩
  exact mem_of_mem_closure (fun _ hp => hp) (fun _ hp _ hr => mem_closure_of_silent hp hr) hq

theorem closure_union (A : Automaton Q) (S T : StateSet Q) :
    A.closure (S ∪ T) = A.closure S ∪ A.closure T := by
  refine Std.ExtTreeSet.ext_mem fun q => ?_
  rw [Std.ExtTreeSet.mem_union_iff, mem_closure_iff, mem_closure_iff, mem_closure_iff]
  simp only [Std.ExtTreeSet.mem_union_iff, or_and_right, exists_or]

/-- In any automaton, the closure of any labels, known or not, holds exactly what silent edges lead
    to from one of them, over any number of edges. So it holds the labels themselves, it grows with
    them, it is closed, and the closure of a union is the union of the closures. A sweep takes the
    labels in any order, however often they are listed at first, and takes up those that it finds in
    any order. Still it comes to an end: it goes on as long as there are labels to look at, and when
    there are none it has found the closure. -/
theorem closure_exact (A : Automaton Q) (S : StateSet Q) :
    (∀ q, q ∈ A.closure S ↔ ∃ p ∈ S, ReflTransGen A.Silent p q) ∧
    (∀ q ∈ S, q ∈ A.closure S) ∧
    (∀ T : StateSet Q, (∀ q ∈ S, q ∈ T) → ∀ q ∈ A.closure S, q ∈ A.closure T) ∧
    A.closure (A.closure S) = A.closure S ∧
    (∀ T : StateSet Q, A.closure (S ∪ T) = A.closure S ∪ A.closure T) ∧
    (WellFounded fun y x => Sweep.Step A x y) ∧
    ∀ pending : List Q, (∀ q, q ∈ pending ↔ q ∈ S) →
      ∀ x, ReflTransGen (Sweep.Step A) ⟨∅, pending⟩ x →
        (x.pending ≠ [] → ∃ y, Sweep.Step A x y) ∧
        (x.pending = [] → x.found = A.closure S) := by
  refine ⟨fun q => mem_closure_iff, fun q => mem_closure_of_mem, fun T => closure_mono,
    closure_closure A S, closure_union A S, Sweep.wellFounded_step A, ?_⟩
  intro pending hpending x hx
  have hhalfway := (Sweep.halfway_start A hpending).steps hx
  exact ⟨Sweep.exists_step, hhalfway.found_eq⟩

/-- Silent edges lead in a circle, and a label that is not known is on the list as well. -/
theorem closure_exact_circle :
    let A : Automaton Nat := ofParts 0 [] [⟨0, Symbol.epsilon, 1⟩, ⟨1, Symbol.epsilon, 0⟩,
      ⟨1, some 97, 2⟩] []
    let found : StateSet Nat := ((∅ : StateSet Nat).insert 0 |>.insert 1).insert 7
    7 ∉ A ∧ (∀ q, q ∈ [7, 0] ↔ q ∈ ({0, 7} : StateSet Nat)) ∧
      ReflTransGen (Sweep.Step A) ⟨∅, [7, 0]⟩ ⟨found, []⟩ ∧
      found = A.closure {0, 7} ∧ ∀ q ∈ A.closure {0}, q ∈ A.closure {0, 7} := by
  intro A found
  have hmem : ∀ q, q ∈ ({0, 7} : StateSet Nat) ↔ q = 0 ∨ q = 7 := by
    intro q
    have hinsert : q ∈ ({7} : StateSet Nat).insert 0 ↔ q = 0 ∨ q ∈ ({7} : StateSet Nat) :=
      OrdSet.mem_insert_iff
    rwa [OrdSet.mem_singleton] at hinsert
  have hlist : ∀ q, q ∈ [7, 0] ↔ q ∈ ({0, 7} : StateSet Nat) := by
    intro q
    rw [hmem, List.mem_pair, or_comm]
  -- the last label is taken each time, as from a stack
  have hrun : ReflTransGen (Sweep.Step A) ⟨∅, [7, 0]⟩ ⟨found, []⟩ := by
    have h₀ : Sweep.Step A ⟨∅, [7] ++ 0 :: []⟩ ⟨(∅ : StateSet Nat).insert 0, [7, 1]⟩ :=
      .fresh (by decide) (by decide)
    have h₁ : Sweep.Step A ⟨(∅ : StateSet Nat).insert 0, [7] ++ 1 :: []⟩
        ⟨((∅ : StateSet Nat).insert 0).insert 1, [7, 0]⟩ := .fresh (by decide) (by decide)
    have h₂ : Sweep.Step A ⟨((∅ : StateSet Nat).insert 0).insert 1, [7] ++ 0 :: []⟩
        ⟨((∅ : StateSet Nat).insert 0).insert 1, [7]⟩ := .known (by decide)
    have h₃ : Sweep.Step A ⟨((∅ : StateSet Nat).insert 0).insert 1, [] ++ 7 :: []⟩
        ⟨found, []⟩ := .fresh (by decide) (by decide)
    exact .head h₀ (.head h₁ (.head h₂ (.single h₃)))
  obtain ⟨_, _, _, _, _, _, hsweeps⟩ := closure_exact A {0, 7}
  obtain ⟨_, _, hmono, _⟩ := closure_exact A {0}
  refine ⟨by decide, hlist, hrun, (hsweeps [7, 0] hlist _ hrun).2 rfl, hmono {0, 7} fun q hq => ?_⟩
  exact (hmem q).mpr (.inl (OrdSet.mem_singleton.mp hq))

end ByteLexer.Automaton
