import ByteLexer.Automaton.Path
import ByteLexer.Automaton.Reach
import ByteLexer.Proofs.OrdSet
import Mathlib.Data.List.Induction

/-! # Following all paths at once

    The sets of states that an automaton is followed with hold exactly the states
    that paths lead to.

    - **Paths.** A path may be cut wherever its word is cut.
    - **Closures.** `closure` holds what paths without bytes lead to.
    - **Words.** `reached` holds the ends of the paths that spell a word, so that
      `recognizes` decides whether a word is accepted.
-/

namespace ByteLexer.Automaton

open Std (TransOrd LawfulEqOrd)

variable {Q : Type} [Ord Q] [TransOrd Q] {A : Automaton Q}

/-! ## Cutting paths -/

/-- A path that spells two words in a row has a state between them. -/
theorem Path.cut {q t : Q} {u v : List UInt8} (h : A.Path q (u ++ v) t) :
    ∃ r, A.Path q u r ∧ A.Path r v t := by
  generalize hw : u ++ v = w at h
  induction h generalizing u with
  | nil q =>
    obtain ⟨rfl, rfl⟩ := List.append_eq_nil_iff.mp hw
    exact ⟨q, .nil q, .nil q⟩
  | silent hr _ ih =>
    obtain ⟨s, hu, hv⟩ := ih hw
    exact ⟨s, .silent hr hu, hv⟩
  | byte hr htail ih =>
    rcases u with _ | ⟨b, u⟩
    · -- the cut is in front of the byte
      rw [List.nil_append] at hw
      subst hw
      exact ⟨_, .nil _, .byte hr htail⟩
    · rw [List.cons_append, List.cons.injEq] at hw
      obtain ⟨rfl, hw⟩ := hw
      obtain ⟨s, hu, hv⟩ := ih hw
      exact ⟨s, .byte hr hu, hv⟩

/-- A path that spells one byte crosses one edge on that byte. -/
theorem Path.cut_byte {q t : Q} {b : UInt8} {w : List UInt8} (h : A.Path q (b :: w) t) :
    ∃ r s, A.Path q [] r ∧ s ∈ A.targets r (some b) ∧ A.Path s w t := by
  generalize hx : b :: w = x at h
  induction h with
  | nil q => cases hx
  | silent hr _ ih =>
    obtain ⟨p, s, hp, hs, ht⟩ := ih hx
    exact ⟨p, s, .silent hr hp, hs, ht⟩
  | byte hr htail _ =>
    obtain ⟨rfl, rfl⟩ := List.cons.inj hx
    exact ⟨_, _, .nil _, hr, htail⟩

/-- Every part of a viable word from its start on is viable. -/
theorem Viable.of_append {u v : List UInt8} (h : A.Viable (u ++ v)) : A.Viable u := by
  obtain ⟨q, hq⟩ := h
  obtain ⟨r, hr, _⟩ := hq.cut
  exact ⟨r, hr⟩

/-- The empty word leads to the initial state. -/
theorem viable_nil (A : Automaton Q) : A.Viable [] :=
  ⟨A.initial, .nil _⟩

/-- An accepted word is viable. -/
theorem Accepts.viable {w : List UInt8} (h : A.Accepts w) : A.Viable w := by
  obtain ⟨q, hq, _⟩ := h
  exact ⟨q, hq⟩

theorem isAccepting_iff {q : Q} : A.isAccepting q = true ↔ q ∈ A.accepting :=
  Std.ExtTreeSet.contains_iff_mem

variable [LawfulEqOrd Q] {S : StateSet Q} {q : Q} {b : UInt8} {w : List UInt8}

/-! ## Closures -/

/-- What the silent edges lead to from some states is what paths without bytes lead to. -/
theorem reachable_silentSuccessors :
    Graph.Reachable A.silentSuccessors S.toList q ↔ ∃ p ∈ S, A.Path p [] q := by
  constructor
  · intro h
    induction h with
    | start hv => exact ⟨_, Std.ExtTreeSet.mem_toList.mp hv, .nil _⟩
    | step _ he ih =>
      obtain ⟨p, hp, hpath⟩ := ih
      obtain ⟨r, hr, rfl⟩ := List.mem_map.mp he
      have hedge : A.Path _ [] r := .silent (Std.ExtTreeSet.mem_toList.mp hr) (.nil r)
      exact ⟨p, hp, hpath.append hedge⟩
  · intro hex
    obtain ⟨p, hp, hpath⟩ := hex
    generalize hw : [] = w at hpath
    have hstart : Graph.Reachable A.silentSuccessors S.toList p :=
      .start (Std.ExtTreeSet.mem_toList.mpr hp)
    clear hp
    induction hpath with
    | nil q => exact hstart
    | @silent p r t w hr _ ih =>
      have he : ((), r) ∈ A.silentSuccessors p :=
        List.mem_map.mpr ⟨r, Std.ExtTreeSet.mem_toList.mpr hr, rfl⟩
      exact ih hw (.step hstart he)
    | byte => cases hw

/-- A closure holds the states that paths without bytes lead to. -/
theorem mem_closure : q ∈ A.closure S ↔ ∃ p ∈ S, A.Path p [] q := by
  rw [closure, OrdSet.mem_ofMembers, List.mem_map, Graph.exists_mem_traverse_iff,
    reachable_silentSuccessors]

/-! ## Moves -/

theorem mem_targetsFrom : q ∈ A.targetsFrom S b ↔ ∃ p ∈ S, q ∈ A.targets p (some b) := by
  simp only [targetsFrom, OrdSet.mem_ofMembers, List.mem_flatMap, Std.ExtTreeSet.mem_toList]

/-- A move crosses one edge on the byte and then goes on without bytes. -/
theorem mem_move : q ∈ A.move S b ↔
    ∃ p ∈ S, ∃ r, r ∈ A.targets p (some b) ∧ A.Path r [] q := by
  rw [move, mem_closure]
  constructor
  · intro hex
    obtain ⟨r, hr, hpath⟩ := hex
    obtain ⟨p, hp, hedge⟩ := mem_targetsFrom.mp hr
    exact ⟨p, hp, r, hedge, hpath⟩
  · intro hex
    obtain ⟨p, hp, r, hedge, hpath⟩ := hex
    exact ⟨r, mem_targetsFrom.mpr ⟨p, hp, hedge⟩, hpath⟩

/-- The bytes of a set are those for which a member's row has an entry. -/
theorem mem_inputs : b ∈ A.inputs S ↔ ∃ p ∈ S, some b ∈ A.row p := by
  simp only [inputs, OrdSet.mem_ofMembers, List.mem_flatMap, List.mem_filterMap, id_eq,
    Std.ExtTreeSet.mem_toList, Std.ExtTreeMap.mem_keys, exists_eq_right]

/-! ## Words -/

theorem reached_nil (A : Automaton Q) : A.reached [] = A.start :=
  rfl

/-- One more byte is one more move. -/
theorem reached_concat (A : Automaton Q) (w : List UInt8) (b : UInt8) :
    A.reached (w ++ [b]) = A.move (A.reached w) b := by
  rw [reached, reached, List.foldl_append]
  rfl

/-- The states reached by a word are the ends of the paths that spell it. -/
theorem mem_reached : q ∈ A.reached w ↔ A.Path A.initial w q := by
  induction w using List.reverseRecOn generalizing q with
  | nil => simp [reached_nil, start, mem_closure]
  | append_singleton w b ih =>
    rw [reached_concat, mem_move]
    constructor
    · intro hex
      obtain ⟨p, hp, r, hedge, hpath⟩ := hex
      exact (ih.mp hp).append (.byte hedge hpath)
    · intro h
      obtain ⟨p, hp, hb⟩ := h.cut
      obtain ⟨s, r, hs, hedge, hpath⟩ := hb.cut_byte
      have hw := hp.append hs
      rw [List.append_nil] at hw
      exact ⟨s, ih.mpr hw, r, hedge, hpath⟩

/-! ## Recognition -/

theorem meetsAccepting_iff : A.meetsAccepting S = true ↔ ∃ q ∈ S, q ∈ A.accepting := by
  rw [meetsAccepting, OrdSet.any_iff]
  simp only [isAccepting_iff]

/-- Following all paths at once decides whether a word is accepted. -/
theorem recognizes_iff_accepts : A.recognizes w = true ↔ A.Accepts w := by
  rw [recognizes, meetsAccepting_iff]
  simp only [mem_reached, Accepts]

end ByteLexer.Automaton
