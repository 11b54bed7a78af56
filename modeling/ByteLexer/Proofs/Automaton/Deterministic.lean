import ByteLexer.Automaton.Lemmas
import ByteLexer.Proofs.OrdSet

/-! # Deterministic automata

    What it means that an automaton has at most one way to go, and that the test
    for it is exact.

    - **Tidiness.** The building operations never store an empty set of targets, so
      a row has an entry for a symbol exactly if there is an edge on it.
    - **`Deterministic`.** No silent edges, and one target at most for each byte.
      For a tidy automaton this is what `isDeterministic` decides.
    - **Steps.** A deterministic automaton steps along its edges and never fails.
-/

namespace ByteLexer.Automaton

open Std (TransOrd LawfulEqOrd)

variable {Q : Type} [Ord Q] [TransOrd Q]

/-! ## Tidiness -/

/-- No entry of a row is empty. -/
def Tidy (A : Automaton Q) : Prop :=
  ∀ q s ts, A.targets? q s = some ts → ∃ r, r ∈ ts

theorem tidy_ofInitial (q : Q) : (ofInitial q).Tidy := by
  intro p s ts h
  have hrow : (ofInitial q).row p = ∅ := by
    simp only [row, ofInitial, Std.ExtTreeMap.getElem?_insert]
    split <;> simp
  simp [targets?, hrow] at h

variable [LawfulEqOrd Q] {A : Automaton Q}

omit [LawfulEqOrd Q] in
/-- In a tidy automaton a row has an entry exactly if there is an edge. -/
theorem Tidy.mem_row_iff (h : A.Tidy) {q : Q} {s : Symbol} :
    s ∈ A.row q ↔ ∃ r, r ∈ A.targets q s := by
  rw [OrdMap.mem_iff_exists]
  constructor
  · intro hex
    obtain ⟨ts, hts⟩ := hex
    obtain ⟨r, hr⟩ := h q s ts hts
    exact ⟨r, by rw [targets, targets?, hts]; exact hr⟩
  · intro hex
    obtain ⟨r, hr⟩ := hex
    rcases hts : (A.row q)[s]? with _ | ts
    · simp [targets, targets?, hts] at hr
    · exact ⟨ts, rfl⟩

theorem Tidy.addState (h : A.Tidy) (q : Q) : (A.addState q).Tidy := by
  intro p s ts hts
  rw [targets?, row_addState] at hts
  exact h p s ts hts

theorem Tidy.addEdge (h : A.Tidy) (e : Edge Q) : (A.addEdge e).Tidy := by
  intro p s ts hts
  rw [targets?] at hts
  by_cases hp : e.source = p
  · subst hp
    rw [row_addEdge_source, Row.addTarget, Std.ExtTreeMap.getElem?_insert] at hts
    split at hts
    · -- the entry that got the new target
      obtain rfl := Option.some.inj hts
      exact ⟨e.target, by simp⟩
    · exact h _ s ts hts
  · rw [row_addEdge_of_ne hp] at hts
    exact h p s ts hts

theorem Tidy.addAccepting (h : A.Tidy) (q : Q) : (A.addAccepting q).Tidy :=
  h.addState q

/-- Whatever is added to it, an automaton stays tidy. -/
theorem Tidy.extend (h : A.Tidy) (states : List Q) (edges : List (Edge Q)) (accepting : List Q) :
    (A.extend states edges accepting).Tidy := by
  have h₁ : ∀ A : Automaton Q, A.Tidy → (states.foldl Automaton.addState A).Tidy := by
    induction states with
    | nil => exact fun _ h => h
    | cons q qs ih => exact fun A h => ih _ (h.addState q)
  have h₂ : ∀ A : Automaton Q, A.Tidy → (edges.foldl Automaton.addEdge A).Tidy := by
    induction edges with
    | nil => exact fun _ h => h
    | cons e es ih => exact fun A h => ih _ (h.addEdge e)
  have h₃ : ∀ A : Automaton Q, A.Tidy → (accepting.foldl Automaton.addAccepting A).Tidy := by
    induction accepting with
    | nil => exact fun _ h => h
    | cons q qs ih => exact fun A h => ih _ (h.addAccepting q)
  exact h₃ _ (h₂ _ (h₁ A h))

theorem tidy_ofParts (q : Q) (states : List Q) (edges : List (Edge Q)) (accepting : List Q) :
    (ofParts q states edges accepting).Tidy :=
  (tidy_ofInitial q).extend states edges accepting

/-! ## Determinism -/

/-- At most one way to go from every state. -/
structure Deterministic (A : Automaton Q) : Prop where
  silent_free : ∀ q r, r ∉ A.targets q Symbol.epsilon
  single : ∀ q b r t, r ∈ A.targets q (some b) → t ∈ A.targets q (some b) → r = t

/-- A row is looked at by `isDeterministic` if and only if its state is known. -/
theorem isDeterministic_eq_true_iff : A.isDeterministic = true ↔
    ∀ q s ts, A.targets? q s = some ts → s.isSome ∧ ts.size ≤ 1 := by
  simp only [isDeterministic, OrdMap.all_iff, Bool.and_eq_true, decide_eq_true_eq]
  constructor
  · intro h q s ts hts
    rw [targets?, row] at hts
    rcases hrow : A.rows[q]? with _ | row
    · simp [hrow] at hts
    · rw [hrow, Option.getD_some] at hts
      exact h q row hrow s ts hts
  · intro h q row hrow s ts hts
    refine h q s ts ?_
    rw [targets?, Automaton.row, hrow, Option.getD_some]
    exact hts

/-- An automaton that passes the test has at most one way to go. -/
theorem deterministic_of_isDeterministic (h : A.isDeterministic = true) : A.Deterministic := by
  rw [isDeterministic_eq_true_iff] at h
  refine ⟨fun q r hr => ?_, fun q b r t hr ht => ?_⟩
  · rcases hts : A.targets? q Symbol.epsilon with _ | ts
    · simp [targets, hts] at hr
    · exact absurd (h q Symbol.epsilon ts hts).1 (by simp [Symbol.epsilon])
  · rcases hts : A.targets? q (some b) with _ | ts
    · simp [targets, hts] at hr
    · simp only [targets, hts, Option.getD_some] at hr ht
      exact OrdSet.size_le_one_iff.mp (h q (some b) ts hts).2 r hr t ht

/-- The test for determinism is exact on tidy automata. -/
theorem Tidy.isDeterministic_iff (h : A.Tidy) : A.isDeterministic = true ↔ A.Deterministic := by
  constructor
  · exact deterministic_of_isDeterministic
  · rw [isDeterministic_eq_true_iff]
    intro hd q s ts hts
    have htargets : A.targets q s = ts := by rw [targets, hts, Option.getD_some]
    rcases s with _ | b
    · -- a silent entry would hold a target
      obtain ⟨r, hr⟩ := h q none ts hts
      rw [← htargets] at hr
      exact absurd hr (hd.silent_free q r)
    · refine ⟨rfl, OrdSet.size_le_one_iff.mpr fun r hr t ht => ?_⟩
      rw [← htargets] at hr ht
      exact hd.single q b r t hr ht

/-! ## Steps -/

variable {q r : Q} {b : UInt8}

/-- Any automaton steps from a state without silent edges only, and along the only edge on the
    byte. -/
theorem targets_of_step (h : A.step q b = .ok (some r)) :
    (∀ t, t ∉ A.targets q Symbol.epsilon) ∧ ∀ t, t ∈ A.targets q (some b) ↔ t = r := by
  unfold step at h
  dsimp only at h
  split at h
  · rename_i hsilent
    split at h
    · rename_i hsize
      have hhead : (A.targets q (some b)).toList.head? = some r := Except.ok.inj h
      have hr : r ∈ A.targets q (some b) :=
        Std.ExtTreeSet.mem_toList.mp (List.mem_of_mem_head? hhead)
      refine ⟨?_, fun t => ⟨fun ht => ?_, fun ht => ?_⟩⟩
      · rw [Std.ExtTreeSet.isEmpty_iff] at hsilent
        exact Std.ExtTreeSet.eq_empty_iff_forall_not_mem.mp hsilent
      · exact OrdSet.size_le_one_iff.mp hsize t ht r hr
      · rw [ht]
        exact hr
    · cases h
  · cases h

namespace Deterministic

omit [LawfulEqOrd Q] in
theorem silent_isEmpty (h : A.Deterministic) (q : Q) :
    (A.targets q Symbol.epsilon).isEmpty = true := by
  rw [Std.ExtTreeSet.isEmpty_iff, Std.ExtTreeSet.eq_empty_iff_forall_not_mem]
  exact h.silent_free q

/-- A deterministic automaton never fails to step. -/
theorem step_eq (h : A.Deterministic) :
    A.step q b = .ok (A.targets q (some b)).toList.head? := by
  have hsize : (A.targets q (some b)).size ≤ 1 :=
    OrdSet.size_le_one_iff.mpr fun r hr t ht => h.single q b r t hr ht
  simp only [step, h.silent_isEmpty q, hsize, if_true]

/-- It steps along an edge. -/
theorem step_of_mem (h : A.Deterministic) (hr : r ∈ A.targets q (some b)) :
    A.step q b = .ok (some r) := by
  rw [h.step_eq, OrdSet.head?_toList_eq_some (fun t ht => h.single q b r t hr ht) hr]

/-- Without an edge it goes nowhere. -/
theorem step_of_forall_not_mem (h : A.Deterministic) (hr : ∀ r, r ∉ A.targets q (some b)) :
    A.step q b = .ok none := by
  have hempty : A.targets q (some b) = ∅ :=
    Std.ExtTreeSet.eq_empty_iff_forall_not_mem.mpr hr
  rw [h.step_eq, hempty]
  rfl

end Deterministic

end ByteLexer.Automaton
