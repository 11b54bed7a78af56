import ByteLexer.Proofs.Automaton.Region
import ByteLexer.Proofs.Automaton.Words

/-! # Automata without dead ends

    A state is alive if some word leads from it to an accepting state. An automaton is
    trim if every state that can be reached is alive, so that each of its viable words
    is the beginning of an accepted one.

    - **Alive states.** Whatever leads to an alive state is alive.
    - **Alive onwards.** A state from which only alive states can be reached. This is told
      from the states one edge away.
    - **Regions.** It carries over to a copy inside a larger automaton, if the exits are
      alive onwards or lead back into the copy.
-/

namespace ByteLexer.Automaton

open Std (TransOrd LawfulEqOrd)

variable {Q P : Type} [Ord Q] [TransOrd Q] [Ord P] [TransOrd P] {A : Automaton Q} {q r t : Q}
  {s : Symbol} {w : List UInt8}

/-! ## Alive states -/

/-- A state from which some word is accepted. -/
def Alive (A : Automaton Q) (q : Q) : Prop :=
  ∃ w, A.AcceptsFrom q w

/-- Only alive states can be reached from a state. -/
def AliveOnwards (A : Automaton Q) (q : Q) : Prop :=
  ∀ w t, A.Path q w t → A.Alive t

/-- Only alive states can be reached at all. -/
def Trim (A : Automaton Q) : Prop :=
  A.AliveOnwards A.initial

theorem alive_of_mem_accepting (h : q ∈ A.accepting) : A.Alive q :=
  ⟨[], q, .nil q, h⟩

/-- Whatever leads to an alive state is alive. -/
theorem Alive.of_path (h : A.Alive t) (hpath : A.Path q w t) : A.Alive q := by
  obtain ⟨v, x, hx, hacc⟩ := h
  exact ⟨w ++ v, x, hpath.append hx, hacc⟩

/-- The viable words of a trim automaton are the beginnings of the accepted ones. -/
theorem Trim.exists_accepts (h : A.Trim) (hw : A.Viable w) : ∃ v, A.Accepts (w ++ v) := by
  obtain ⟨q, hq⟩ := hw
  obtain ⟨v, t, ht, hacc⟩ := h w q hq
  exact ⟨v, t, hq.append ht, hacc⟩

theorem Trim.viable_iff (h : A.Trim) : A.Viable w ↔ ∃ v, A.Accepts (w ++ v) := by
  refine ⟨h.exists_accepts, fun hex => ?_⟩
  obtain ⟨v, hv⟩ := hex
  exact hv.viable.of_append

/-! ## Alive onwards -/

namespace AliveOnwards

theorem alive (h : A.AliveOnwards q) : A.Alive q :=
  h [] q (.nil q)

theorem of_path (h : A.AliveOnwards q) (hpath : A.Path q w r) : A.AliveOnwards r := by
  intro v t ht
  exact h (w ++ v) t (hpath.append ht)

/-- It goes on along every edge. -/
theorem of_mem_targets (h : A.AliveOnwards q) (hr : r ∈ A.targets q s) : A.AliveOnwards r := by
  rcases s with _ | b
  · exact h.of_path (.silent hr (.nil r))
  · exact h.of_path (.byte hr (.nil r))

end AliveOnwards

/-- A state is alive onwards if it is alive and all its edges lead to such states. -/
theorem aliveOnwards_of_targets (hq : A.Alive q)
    (h : ∀ s r, r ∈ A.targets q s → A.AliveOnwards r) : A.AliveOnwards q := by
  intro w t hpath
  cases hpath with
  | nil => exact hq
  | silent hr htail => exact h _ _ hr _ _ htail
  | byte hr htail => exact h _ _ hr _ _ htail

/-- An accepting state without edges is alive onwards. -/
theorem aliveOnwards_of_stuck (hq : q ∈ A.accepting) (h : ∀ s r, r ∉ A.targets q s) :
    A.AliveOnwards q :=
  aliveOnwards_of_targets (alive_of_mem_accepting hq) fun s r hr => absurd hr (h s r)

/-! ## Regions -/

section Regions

variable {within : Q → Prop} {f : Q → P} {R : Automaton P} {exit : P → Prop}

/-- By induction on the path: it stays in the copy, or it leaves through an exit that is alive
    onwards, or the exit is in the copy again. -/
theorem Region.aliveOnwards (h : Region within f A R exit)
    (hexit : ∀ y, exit y → R.AliveOnwards y ∨ ∃ r, within r ∧ f r = y ∧ A.AliveOnwards r)
    (hsome : ∃ y, exit y ∧ R.Alive y) (hq : within q) (hA : A.AliveOnwards q) :
    R.AliveOnwards (f q) := by
  intro w x hpath
  generalize hy : f q = y at hpath
  induction hpath generalizing q with
  | nil =>
    -- a word that is accepted in the copy leads to an exit
    obtain ⟨y, hexit, halive⟩ := hsome
    obtain ⟨v, haccepts⟩ := hA.alive
    rw [← hy]
    exact halive.of_path (h.path_exit hq haccepts hexit)
  | silent hr htail ih =>
    rw [← hy] at hr
    rcases h.leave hq hr with ⟨r, hedge, hz⟩ | ⟨_, _, hz⟩
    · exact ih (h.closed hq hedge) (hA.of_mem_targets hedge) hz
    · -- the path leaves the copy, for good or to come back
      rcases hexit _ hz with honwards | ⟨r, hwithin, hback, honwards⟩
      · exact honwards _ _ htail
      · exact ih hwithin honwards hback
  | byte hr htail ih =>
    rw [← hy] at hr
    rcases h.leave hq hr with ⟨r, hedge, hz⟩ | ⟨hs, _, _⟩
    · exact ih (h.closed hq hedge) (hA.of_mem_targets hedge) hz
    · cases hs

variable [LawfulEqOrd Q] [LawfulEqOrd P]

/-- An image under a function that keeps the states apart is as alive as the automaton. -/
theorem KeptApart.aliveOnwards_image (h : A.KeptApart f within) (hq : within q)
    (hA : A.AliveOnwards q) : (A.image f).AliveOnwards (f q) := by
  intro w x hpath
  obtain ⟨t, rfl, ht⟩ := (h.region.path_iff hq).mp hpath
  obtain ⟨v, u, hu, hacc⟩ := hA w t ht
  exact ⟨v, f u, h.region.path (h.region.within_of_path hq ht) hu,
    mem_accepting_image.mpr ⟨u, hacc, rfl⟩⟩

end Regions

end ByteLexer.Automaton
