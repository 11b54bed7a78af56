import ByteLexer.Proofs.Automaton.Powerset

/-! # Failing to step

    The test for determinism looks at all rows, and refuses a silent entry whatever it holds. A step
    looks at one row, minds a silent entry only if there is a target in it, and then does not look
    at the byte any more. They agree because no operation stores an entry without targets.

    - **Forks.** What keeps an automaton from stepping: edges to choose from. They are counted.
    - **Steps.** When an automaton fails to step, and when it goes where.
    - **The test** for determinism, which is exact for whatever is built.
-/

namespace ByteLexer

open Std (TransOrd LawfulEqOrd)

/-! ## Forks -/

namespace Diagram

variable {Q : Type}

/-- The states that the edges from a state on a symbol lead to. -/
def targets (D : Diagram Q) (q : Q) (s : Symbol) : Set Q :=
  {r | ⟨q, s, r⟩ ∈ D.edges}

/-- There is a choice to be made in a state before a byte. Either there are edges that consume
    nothing, or there are none of these and several on the byte. The error tells which edges there
    are to choose from, and how many targets they have. -/
inductive Fork (D : Diagram Q) (q : Q) (b : UInt8) : Nondeterminism → Prop
  | silent (h : (D.targets q Symbol.epsilon).Nonempty) :
      Fork D q b ⟨Symbol.epsilon, (D.targets q Symbol.epsilon).ncard⟩
  | byte (h : ¬(D.targets q Symbol.epsilon).Nonempty) (hmany : 1 < (D.targets q (some b)).ncard) :
      Fork D q b ⟨some b, (D.targets q (some b)).ncard⟩

/-- It is clear which choice there is, if there is one. -/
theorem Fork.unique {D : Diagram Q} {q : Q} {b : UInt8} {e e' : Nondeterminism}
    (h : D.Fork q b e) (h' : D.Fork q b e') : e = e' := by
  cases h with
  | silent h =>
    cases h' with
    | silent => rfl
    | byte hnone => exact absurd h hnone
  | byte hnone =>
    cases h' with
    | silent h => exact absurd h hnone
    | byte => rfl

end Diagram

namespace Automaton

variable {Q : Type} [Ord Q] [TransOrd Q] [LawfulEqOrd Q] {A : Automaton Q} {q r : Q} {s : Symbol}
  {b : UInt8} {e : Nondeterminism}

/-! ## Steps -/

/-- The targets that are looked up are those of the diagram. -/
theorem ncard_targets_diagram : (A.diagram.targets q s).ncard = (A.targets q s).size :=
  StateSet.ncard_members (A.targets q s)

omit [LawfulEqOrd Q] in
theorem nonempty_targets_diagram :
    (A.diagram.targets q s).Nonempty ↔ (A.targets q s).isEmpty = false := by
  rw [Bool.eq_false_iff, ne_eq, Std.ExtTreeSet.isEmpty_iff,
    Std.ExtTreeSet.eq_empty_iff_forall_not_mem, not_forall_not]
  rfl

/-- An automaton fails to step exactly where there is a choice, and says which one. -/
theorem step_eq_error_iff : A.step q b = .error e ↔ A.diagram.Fork q b e := by
  have hmany : 1 < (A.diagram.targets q (some b)).ncard ↔ ¬(A.targets q (some b)).size ≤ 1 := by
    rw [ncard_targets_diagram, Nat.not_le]
  constructor
  · intro h
    unfold step at h
    dsimp only at h
    split at h
    · rename_i hsilent
      split at h
      · cases h
      · rename_i hsize
        obtain rfl := Except.error.inj h
        rw [← ncard_targets_diagram]
        refine .byte ?_ (hmany.mpr hsize)
        rw [nonempty_targets_diagram, hsilent]
        exact Bool.noConfusion
    · rename_i hsilent
      obtain rfl := Except.error.inj h
      rw [← ncard_targets_diagram]
      exact .silent (nonempty_targets_diagram.mpr (Bool.eq_false_of_not_eq_true hsilent))
  · intro h
    unfold step
    dsimp only
    cases h with
    | silent h =>
      rw [nonempty_targets_diagram.mp h, ncard_targets_diagram]
      rfl
    | byte hnone hsome =>
      have hempty : (A.targets q Symbol.epsilon).isEmpty = true := by
        rw [nonempty_targets_diagram, Bool.not_eq_false] at hnone
        exact hnone
      rw [if_pos hempty, if_neg (hmany.mp hsome), ncard_targets_diagram]

/-- It steps where there is no choice. -/
theorem exists_step_eq_ok_iff : (∃ next, A.step q b = .ok next) ↔ ∀ e, ¬A.diagram.Fork q b e := by
  constructor
  · intro hex e he
    obtain ⟨next, hnext⟩ := hex
    rw [step_eq_error_iff.mpr he] at hnext
    cases hnext
  · intro hnone
    rcases hstep : A.step q b with e | next
    · exact absurd (step_eq_error_iff.mp hstep) (hnone e)
    · exact ⟨next, rfl⟩

/-- A deterministic automaton goes where an edge on the byte leads, and nowhere else. -/
theorem Deterministic.step_eq_some_iff (h : A.Deterministic) :
    A.step q b = .ok (some r) ↔ r ∈ A.targets q (some b) := by
  constructor
  · intro hstep
    exact ((targets_of_step hstep).2 r).mpr rfl
  · exact h.step_of_mem

/-! ## The test -/

/-- An automaton is deterministic exactly if it leaves no choice anywhere. -/
theorem deterministic_iff_forall_not_fork :
    A.Deterministic ↔ ∀ q b e, ¬A.diagram.Fork q b e := by
  constructor
  · intro h q b
    exact exists_step_eq_ok_iff.mp ⟨_, h.step_eq⟩
  · intro h
    have hsilent : ∀ q, ¬(A.diagram.targets q Symbol.epsilon).Nonempty := by
      -- silent edges would be in the way of any byte
      intro q hq
      exact h q 0 _ (.silent hq)
    refine ⟨fun q r hr => hsilent q ⟨r, hr⟩, fun q b => ?_⟩
    have hsize : (A.targets q (some b)).size ≤ 1 := by
      by_contra hmany
      rw [Nat.not_le, ← ncard_targets_diagram] at hmany
      exact h q b _ (.byte (hsilent q) hmany)
    intro r t hr ht
    exact OrdSet.size_le_one_iff.mp hsize r hr t ht

/-- Let an automaton be built by any sequence of operations. It passes the test for determinism
    exactly if it never fails to step, from whatever label on whatever byte. If it passes, it goes
    where an edge on the byte leads. And any automaton fails to step exactly where its diagram
    leaves a choice: the error names the edges without a byte if there are any, and otherwise those
    on the byte, and tells to how many different states they lead. -/
theorem Construction.step_exact {L : Labels} (c : Construction L) :
    (c.build.isDeterministic = true ↔ ∀ q b, ∃ next, c.build.step q b = .ok next) ∧
    (c.build.isDeterministic = true → ∀ q b r,
      c.build.step q b = .ok (some r) ↔ ⟨q, some b, r⟩ ∈ c.diagram.edges) ∧
    ∀ q b e, c.build.step q b = .error e ↔ c.diagram.Fork q b e := by
  have htest : c.build.isDeterministic = true ↔ c.build.Deterministic :=
    c.wellFormed_build.tidy.isDeterministic_iff
  rw [← c.diagram_build]
  refine ⟨?_, ?_, ?_⟩
  · rw [htest, deterministic_iff_forall_not_fork]
    simp only [exists_step_eq_ok_iff]
  · intro hdet q b r
    exact (htest.mp hdet).step_eq_some_iff
  · intro q b e
    exact step_eq_error_iff

/-- A second edge on a byte is a choice, and an edge without a byte is one instead of it. -/
theorem Construction.step_exact_hidden :
    let c : Construction ⟨Nat⟩ := .addEdge (.ofInitial 0) ⟨0, some 97, 1⟩
    let d : Construction ⟨Nat⟩ := .addEdge c ⟨0, some 97, 2⟩
    let e : Construction ⟨Nat⟩ := .addEdge d ⟨0, Symbol.epsilon, 3⟩
    c.build.isDeterministic = true ∧ c.build.step 0 97 = .ok (some 1) ∧
      d.diagram.Fork 0 97 ⟨some 97, 2⟩ ∧ e.diagram.Fork 0 97 ⟨Symbol.epsilon, 1⟩ ∧
      ¬e.build.isDeterministic = true := by
  intro c d e
  have hdet : c.build.isDeterministic = true := by decide
  have hmany : d.build.step 0 97 = .error ⟨some 97, 2⟩ := by decide
  have hsilent : e.build.step 0 97 = .error ⟨Symbol.epsilon, 1⟩ := by decide
  obtain ⟨_, hsteps, _⟩ := step_exact c
  obtain ⟨_, _, hfails⟩ := step_exact d
  obtain ⟨htest, _, hfails'⟩ := step_exact e
  -- the edge was added last
  have hedge : ⟨0, some 97, 1⟩ ∈ c.diagram.edges := .inl rfl
  refine ⟨hdet, (hsteps hdet 0 97 1).mpr hedge, (hfails 0 97 _).mp hmany,
    (hfails' 0 97 _).mp hsilent, fun h => ?_⟩
  obtain ⟨next, hnext⟩ := htest.mp h 0 97
  rw [hsilent] at hnext
  cases hnext

end Automaton

end ByteLexer
