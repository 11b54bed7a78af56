import ByteLexer.Lexer.Interning
import ByteLexer.Proofs.Automaton.Visits

/-! # The states that sets are interned as

    Interning numbers the sets of each sort in the order in which they are visited,
    so that a set is interned as the state of its sort whose number is the count of
    sets of that sort visited before it.

    - **Numberings.** Taking a state counts one up for its sort and for no other.
    - **Answers.** What the sets of a list are interned as, by induction on the list.
    - **The whole automaton.** Interning takes the image under a function that keeps
      all visited sets apart and says of each which kind wins in it.
-/

namespace ByteLexer

open Std (TransOrd LawfulEqOrd)
open Automaton

/-! ## Numberings -/

/-- The state of a sort with a number: of no kind, or of some kind. -/
def LexerState.ofSort : Option Nat → Nat → LexerState
  | none, n => .intermediate n
  | some kind, n => .final kind n

@[simp] theorem LexerState.kind?_ofSort (sort : Option Nat) (n : Nat) :
    (LexerState.ofSort sort n).kind? = sort := by
  cases sort <;> rfl

/-- States of one sort are told apart by their numbers. -/
theorem LexerState.ofSort_number_injective {sort : Option Nat} {m n : Nat}
    (h : LexerState.ofSort sort m = LexerState.ofSort sort n) : m = n := by
  cases sort with
  | none => exact LexerState.intermediate.inj h
  | some kind => exact (LexerState.final.inj h).2

namespace Numbering

/-- The number that the next state of a sort gets. -/
def next (n : Numbering) : Option Nat → Nat
  | none => n.intermediate
  | some kind => n.final[kind]?.getD 0

/-- Nothing has been taken at first. -/
theorem next_empty (sort : Option Nat) : ({} : Numbering).next sort = 0 := by
  cases sort <;> rfl

theorem fst_take (n : Numbering) (sort : Option Nat) :
    (n.take sort).1 = LexerState.ofSort sort (n.next sort) := by
  cases sort <;> rfl

/-- Taking a state counts one up for its sort, and leaves the others alone. -/
theorem next_snd_take (n : Numbering) (sort other : Option Nat) :
    (n.take sort).2.next other = n.next other + if sort = other then 1 else 0 := by
  cases sort with
  | none => cases other <;> rfl
  | some kind =>
    cases other with
    | none => rfl
    | some kind' =>
      by_cases h : kind = kind'
      · subst h
        simp [take, next]
      · simp [take, next, Std.ExtTreeMap.getElem?_insert, h]

end Numbering

/-! ## Answers -/

section Answers

variable (nfa : Regex) (kinds : List String)

/-- The kind that wins in a set, if any is matched. -/
def winner (S : StateSet String) : Option Nat :=
  (matchedKinds nfa kinds S).head?

/-- Interns the sets of a list one after the other, and pairs them with their states. -/
def internAll (sets : List (StateSet String)) :
    StateM Numbering (List (StateSet String × LexerState)) :=
  sets.mapM fun S => do return (S, ← intern nfa kinds S)

variable {nfa kinds}

theorem run_internAll_cons (S : StateSet String) (rest : List (StateSet String)) (n : Numbering) :
    (internAll nfa kinds (S :: rest)).run n =
      ((S, (n.take (winner nfa kinds S)).1) ::
        ((internAll nfa kinds rest).run (n.take (winner nfa kinds S)).2).1,
        ((internAll nfa kinds rest).run (n.take (winner nfa kinds S)).2).2) := by
  rw [internAll, List.mapM_cons]
  rfl

/-- Every set of the list is answered, in order. -/
theorem map_fst_internAll (sets : List (StateSet String)) (n : Numbering) :
    ((internAll nfa kinds sets).run n).1.map Prod.fst = sets :=
  (run_mapM_pairs (intern nfa kinds) sets n).1

/-- A set gets the next number of its sort, plus one for each set of its sort before it. -/
theorem mem_internAll {sets : List (StateSet String)} {n : Numbering}
    {x : StateSet String × LexerState} (h : x ∈ ((internAll nfa kinds sets).run n).1) :
    ∃ before after, sets = before ++ x.1 :: after ∧
      x.2 = LexerState.ofSort (winner nfa kinds x.1) (n.next (winner nfa kinds x.1) +
        before.countP fun T => winner nfa kinds T = winner nfa kinds x.1) := by
  induction sets generalizing n with
  | nil => cases h
  | cons S rest ih =>
    rw [run_internAll_cons] at h
    rcases List.mem_cons.mp h with h | h
    · rw [h]
      exact ⟨[], rest, rfl, by simp [Numbering.fst_take]⟩
    · -- for the others, the first set of the list is one more before them
      obtain ⟨before, after, hrest, hx⟩ := ih h
      refine ⟨S :: before, after, by rw [hrest]; rfl, ?_⟩
      rw [hx, Numbering.next_snd_take, List.countP_cons, Nat.add_assoc, Nat.add_comm (ite _ _ _)]
      simp only [decide_eq_true_eq]

end Answers

/-! ## The whole automaton -/

section Whole

variable (nfa : Regex) (kinds : List String) (sets : Automaton (StateSet String))

/-- The state that a set is interned as. -/
def internedAs (S : StateSet String) : LexerState :=
  let first := (intern nfa kinds sets.initial).run {}
  answer (Std.ExtTreeMap.ofList ((internAll nfa kinds sets.laterVisits).run first.2).1 compare)
    first.1 S

theorem interned_eq_image : interned nfa kinds sets = sets.image (internedAs nfa kinds sets) :=
  rfl

variable {sets}

/-- A visited set is interned as the state of its sort whose number is the count of sets of
    that sort visited before. -/
theorem internedAs_eq {S : StateSet String} (hS : S ∈ sets.visitOrder) :
    ∃ before after, sets.visitOrder = before ++ S :: after ∧
      internedAs nfa kinds sets S = LexerState.ofSort (winner nfa kinds S)
        (before.countP fun T => winner nfa kinds T = winner nfa kinds S) := by
  let first := (intern nfa kinds sets.initial).run {}
  have hfst : (((internAll nfa kinds sets.laterVisits).run first.2).1).map Prod.fst =
      sets.laterVisits := map_fst_internAll _ _
  rcases List.mem_cons.mp hS with hS | hS
  · -- the initial set is asked for first, and not among the others
    subst hS
    refine ⟨[], sets.laterVisits, rfl, ?_⟩
    rw [internedAs, answer_of_not_mem (by rw [hfst]; exact initial_not_mem_laterVisits)]
    show (Numbering.take {} (winner nfa kinds sets.initial)).1 = _
    rw [Numbering.fst_take, Numbering.next_empty, List.countP_nil]
  · have hmem : S ∈ (((internAll nfa kinds sets.laterVisits).run first.2).1).map Prod.fst := by
      rw [hfst]
      exact hS
    obtain ⟨x, hx, rfl⟩ := List.mem_map.mp hmem
    obtain ⟨before, after, hlater, hstate⟩ := mem_internAll hx
    refine ⟨sets.initial :: before, after, by rw [visitOrder, hlater]; rfl, ?_⟩
    rw [internedAs, answer_of_mem (by rw [hfst]; exact nodup_laterVisits) hx, hstate,
      List.countP_cons]
    -- the initial set counts for its sort
    have hcount : first.2.next (winner nfa kinds x.1) =
        if winner nfa kinds sets.initial = winner nfa kinds x.1 then 1 else 0 := by
      show (Numbering.take {} (winner nfa kinds sets.initial)).2.next _ = _
      rw [Numbering.next_snd_take, Numbering.next_empty, Nat.zero_add]
    rw [hcount, Nat.add_comm]
    simp only [decide_eq_true_eq]

variable {nfa kinds}

/-- The kind of the state that a set is interned as is the one that wins in the set. -/
theorem kind?_internedAs {S : StateSet String} (hS : S ∈ sets.visitOrder) :
    (internedAs nfa kinds sets S).kind? = winner nfa kinds S := by
  obtain ⟨_, _, _, h⟩ := internedAs_eq nfa kinds hS
  rw [h, LexerState.kind?_ofSort]

/-- Different visited sets are interned as different states. -/
theorem internedAs_injective {S T : StateSet String} (hS : S ∈ sets.visitOrder)
    (hT : T ∈ sets.visitOrder) (h : internedAs nfa kinds sets S = internedAs nfa kinds sets T) :
    S = T := by
  have hkind : winner nfa kinds S = winner nfa kinds T := by
    rw [← kind?_internedAs hS, h, kind?_internedAs hT]
  obtain ⟨before, after, hvisit, hs⟩ := internedAs_eq nfa kinds hS
  obtain ⟨before', after', hvisit', ht⟩ := internedAs_eq nfa kinds hT
  rw [hs, ht, hkind] at h
  have hcount := LexerState.ofSort_number_injective h
  -- if one of them is visited earlier, it counts for the other one
  rw [hvisit] at hvisit'
  rcases List.append_eq_append_iff.mp hvisit' with ⟨between, hb, ha⟩ | ⟨between, hb, ha⟩
  · rcases between with _ | ⟨U, between⟩
    · exact (List.cons.inj ha).1
    · obtain ⟨rfl, _⟩ := List.cons.inj ha
      rw [hb, List.countP_append, List.countP_cons] at hcount
      simp [hkind] at hcount
  · rcases between with _ | ⟨U, between⟩
    · exact (List.cons.inj ha).1.symm
    · obtain ⟨rfl, _⟩ := List.cons.inj ha
      rw [hb, List.countP_append, List.countP_cons] at hcount
      simp at hcount

/-- Interning keeps the whole automaton apart. -/
theorem keptApart_internedAs :
    sets.KeptApart (internedAs nfa kinds sets) (· ∈ sets.visitOrder) :=
  keptApart_of_injOn_visitOrder fun _ hS _ hT h => internedAs_injective hS hT h

end Whole

end ByteLexer
