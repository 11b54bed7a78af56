import ByteLexer.Automaton.Run
import ByteLexer.Proofs.Automaton.Worklist

/-! # Runs of deterministic automata

    A deterministic automaton has one run on a word, and that run is the only path
    there is.

    - **Paths.** A path is determined by its word, byte by byte.
    - **`follow`** consumes the longest initial part of a word that some path spells.
    - **`feedAll`** feeds all bytes of a word, also after one that leads nowhere.
    - **Subset constructions.** They can be made set by set, and their runs decide which words are
      recognized.
-/

namespace ByteLexer

open Std (TransOrd LawfulEqOrd)

variable {Q : Type} [Ord Q] [TransOrd Q]

/-! ## Paths -/

namespace Automaton

variable {A : Automaton Q} {q r t : Q} {b : UInt8} {w : List UInt8}

/-- From a state without silent edges, the empty word leads nowhere else. -/
theorem path_nil_iff_of_silent_free (h : ∀ r, r ∉ A.targets q Symbol.epsilon) :
    A.Path q [] t ↔ t = q := by
  constructor
  · intro hp
    cases hp with
    | nil => rfl
    | silent hr _ => exact absurd hr (h _)
  · intro ht
    rw [ht]
    exact .nil q

/-- From a state without silent edges, a path begins with an edge on the first byte. -/
theorem path_cons_iff_of_silent_free (h : ∀ r, r ∉ A.targets q Symbol.epsilon) :
    A.Path q (b :: w) t ↔ ∃ r, r ∈ A.targets q (some b) ∧ A.Path r w t := by
  constructor
  · intro hp
    cases hp with
    | silent hr _ => exact absurd hr (h _)
    | byte hr htail => exact ⟨_, hr, htail⟩
  · intro hex
    obtain ⟨r, hr, htail⟩ := hex
    exact .byte hr htail

namespace Deterministic

theorem path_nil_iff (h : A.Deterministic) : A.Path q [] t ↔ t = q :=
  path_nil_iff_of_silent_free (h.silent_free q)

theorem path_cons_iff (h : A.Deterministic) :
    A.Path q (b :: w) t ↔ ∃ r, r ∈ A.targets q (some b) ∧ A.Path r w t :=
  path_cons_iff_of_silent_free (h.silent_free q)

/-- The end of a path is determined by its word. -/
theorem path_unique (h : A.Deterministic) (hr : A.Path q w r) (ht : A.Path q w t) : r = t := by
  induction w generalizing q with
  | nil => rw [h.path_nil_iff.mp hr, h.path_nil_iff.mp ht]
  | cons b w ih =>
    obtain ⟨r', hr', hr⟩ := h.path_cons_iff.mp hr
    obtain ⟨t', ht', ht⟩ := h.path_cons_iff.mp ht
    obtain rfl := h.single q b r' t' hr' ht'
    exact ih hr ht

end Deterministic

end Automaton

namespace Run

variable [LawfulEqOrd Q] {r : Run Q} {b : UInt8}

/-! ## One byte -/

/-- On a byte with an edge, the run moves to the target. -/
theorem feed_of_mem (h : r.automaton.Deterministic) {q : Q}
    (hq : q ∈ r.automaton.targets r.state (some b)) :
    r.feed b = (.ok true, { r with state := q }) := by
  rw [feed, h.step_of_mem hq]

/-- On a byte without an edge, the run stays where it is. -/
theorem feed_of_forall_not_mem (h : r.automaton.Deterministic)
    (hq : ∀ q, q ∉ r.automaton.targets r.state (some b)) :
    r.feed b = (.ok false, r) := by
  rw [feed, h.step_of_forall_not_mem hq]

/-- In a deterministic automaton a byte is not answered by an error. -/
theorem feed_ok (h : r.automaton.Deterministic) (b : UInt8) :
    ∃ moved, (r.feed b).1 = .ok moved := by
  by_cases hb : ∃ q, q ∈ r.automaton.targets r.state (some b)
  · obtain ⟨q, hq⟩ := hb
    exact ⟨true, by rw [feed_of_mem h hq]⟩
  · exact ⟨false, by rw [feed_of_forall_not_mem h fun q hq => hb ⟨q, hq⟩]⟩

/-! ## Following a word -/

omit [LawfulEqOrd Q] in
/-- What is left is the word without the consumed part. -/
theorem rest_follow (r : Run Q) (w : List UInt8) :
    (r.follow w).rest = w.drop (r.follow w).consumed.length := by
  have h := congrArg (List.drop (r.follow w).consumed.length) (r.consumed_append_rest w)
  rw [List.drop_left] at h
  exact h

/-- Following a word never meets an error in a deterministic automaton. It consumes a part
    that some path spells, ends where this path ends, and no longer part is spelled by a
    path. -/
theorem follow_spec (r : Run Q) (h : r.automaton.Deterministic) (w : List UInt8) :
    (r.follow w).error = none ∧
    r.automaton.Path r.state (r.follow w).consumed (r.follow w).run.state ∧
    ∀ v t, v <+: w → r.automaton.Path r.state v t → v.length ≤ (r.follow w).consumed.length := by
  induction w generalizing r with
  | nil =>
    refine ⟨rfl, .nil _, fun v t hv _ => ?_⟩
    rw [List.prefix_nil.mp hv]
    exact Nat.le_refl _
  | cons b w ih =>
    by_cases hb : ∃ q, q ∈ r.automaton.targets r.state (some b)
    · obtain ⟨q, hq⟩ := hb
      obtain ⟨herr, hpath, hmax⟩ := ih { r with state := q } h
      have hfollow : r.follow (b :: w) =
          { ({ r with state := q } : Run Q).follow w with
            consumed := b :: (({ r with state := q } : Run Q).follow w).consumed } := by
        rw [follow, feed_of_mem h hq]
      rw [hfollow]
      refine ⟨herr, .byte hq hpath, fun v t hv hp => ?_⟩
      rcases v with _ | ⟨c, v⟩
      · exact Nat.zero_le _
      · -- a longer part would be longer after the first byte, too
        obtain ⟨rfl, hv'⟩ := List.cons_prefix_cons.mp hv
        obtain ⟨q', hq', hp'⟩ := h.path_cons_iff.mp hp
        obtain rfl := h.single _ _ q' q hq' hq
        exact Nat.succ_le_succ (hmax v t hv' hp')
    · have hnone : ∀ q, q ∉ r.automaton.targets r.state (some b) :=
        fun q hq => hb ⟨q, hq⟩
      have hfollow : r.follow (b :: w) = ⟨[], b :: w, r, none⟩ := by
        rw [follow, feed_of_forall_not_mem h hnone]
      rw [hfollow]
      refine ⟨rfl, .nil _, fun v t hv hp => ?_⟩
      rcases v with _ | ⟨c, v⟩
      · exact Nat.zero_le _
      · obtain ⟨rfl, _⟩ := List.cons_prefix_cons.mp hv
        obtain ⟨q', hq', _⟩ := h.path_cons_iff.mp hp
        exact absurd hq' (hnone q')

/-! ## Feeding a whole word -/

/-- Feeds all bytes of a word one after the other, whatever the answers are: the answers, and
    the run afterwards. -/
def feedAll (r : Run Q) : List UInt8 → List (Except Nondeterminism Bool) × Run Q
  | [] => ([], r)
  | b :: w => ((r.feed b).1 :: ((r.feed b).2.feedAll w).1, ((r.feed b).2.feedAll w).2)

omit [LawfulEqOrd Q] in
theorem automaton_feedAll (r : Run Q) (w : List UInt8) :
    (r.feedAll w).2.automaton = r.automaton := by
  induction w generalizing r with
  | nil => rfl
  | cons b w ih => rw [feedAll, ih, automaton_feed]

/-- In a deterministic automaton no byte is answered by an error. -/
theorem feedAll_ok (r : Run Q) (h : r.automaton.Deterministic) (w : List UInt8) :
    ∀ x ∈ (r.feedAll w).1, ∃ moved, x = .ok moved := by
  induction w generalizing r with
  | nil =>
    intro x hx
    cases hx
  | cons b w ih =>
    intro x hx
    rcases List.mem_cons.mp hx with rfl | hx
    · exact feed_ok h b
    · have hnext : (r.feed b).2.automaton.Deterministic := by
        rw [automaton_feed]
        exact h
      exact ih (r.feed b).2 hnext x hx

/-- All bytes are followed exactly along a path that spells the word. -/
theorem feedAll_eq_true_iff (r : Run Q) (h : r.automaton.Deterministic) (w : List UInt8) (t : Q) :
    (∀ x ∈ (r.feedAll w).1, x = .ok true) ∧ (r.feedAll w).2.state = t ↔
      r.automaton.Path r.state w t := by
  induction w generalizing r with
  | nil =>
    rw [h.path_nil_iff]
    constructor
    · intro hand
      obtain ⟨_, ht⟩ := hand
      exact ht.symm
    · intro ht
      exact ⟨fun x hx => absurd hx List.not_mem_nil, ht.symm⟩
  | cons b w ih =>
    rw [h.path_cons_iff]
    by_cases hb : ∃ q, q ∈ r.automaton.targets r.state (some b)
    · obtain ⟨q, hq⟩ := hb
      have hrest := ih { r with state := q } h
      simp only [feedAll, feed_of_mem h hq, List.mem_cons, forall_eq_or_imp, true_and]
      constructor
      · intro hx
        exact ⟨q, hq, hrest.mp hx⟩
      · intro hex
        obtain ⟨q', hq', hpath⟩ := hex
        obtain rfl := h.single _ _ q' q hq' hq
        exact hrest.mpr hpath
    · -- the first byte is not followed
      simp only [feedAll, feed_of_forall_not_mem h fun q hq => hb ⟨q, hq⟩, List.mem_cons,
        forall_eq_or_imp]
      constructor
      · intro hand
        obtain ⟨⟨hx, _⟩, _⟩ := hand
        cases hx
      · intro hex
        obtain ⟨q, hq, _⟩ := hex
        exact absurd ⟨q, hq⟩ hb

/-- A run on a whole word decides whether a deterministic automaton accepts it. -/
theorem feedAll_accepts_iff (A : Automaton Q) (h : A.Deterministic) (w : List UInt8) :
    ((∀ x ∈ ((ofAutomaton A).feedAll w).1, x = .ok true) ∧
      ((ofAutomaton A).feedAll w).2.accepts = true) ↔ A.Accepts w := by
  have hpath := feedAll_eq_true_iff (ofAutomaton A) h w
  have hstay : ((ofAutomaton A).feedAll w).2.automaton = A := automaton_feedAll _ w
  rw [accepts, hstay, Automaton.isAccepting_iff, Automaton.Accepts]
  constructor
  · intro hand
    obtain ⟨htrue, hacc⟩ := hand
    exact ⟨_, (hpath _).mp ⟨htrue, rfl⟩, hacc⟩
  · intro hex
    obtain ⟨t, ht, hacc⟩ := hex
    obtain ⟨htrue, hend⟩ := (hpath t).mpr ht
    rw [hend]
    exact ⟨htrue, hacc⟩

end Run

/-! ## Subset constructions -/

open Automaton Relation

/-- The subset construction can be made set by set. In whatever order the sets are looked at, this
    comes to an end: it goes on as long as there are sets to look at, and when there are none the
    construction has been made. It is deterministic and recognizes the same words. A run of it that
    is fed a word never fails, and the word is recognized exactly if every byte was followed
    and the run ends in an accepting state. -/
theorem Automaton.subsetConstruction_equivalent [LawfulEqOrd Q] (A : Automaton Q)
    (w : List UInt8) :
    Acc (fun y x => Draft.Step A x y) (Draft.ofStart A) ∧
    (∀ x, ReflTransGen (Draft.Step A) (Draft.ofStart A) x →
      (x.pending ≠ [] → ∃ y, Draft.Step A x y) ∧
      (x.pending = [] → x.table = A.subsetConstruction)) ∧
    A.subsetConstruction.isDeterministic = true ∧
    A.subsetConstruction.recognizes w = A.recognizes w ∧
    (∀ x ∈ ((Run.ofAutomaton A.subsetConstruction).feedAll w).1, ∃ moved, x = .ok moved) ∧
    (A.recognizes w = true ↔
      (∀ x ∈ ((Run.ofAutomaton A.subsetConstruction).feedAll w).1, x = .ok true) ∧
      ((Run.ofAutomaton A.subsetConstruction).feedAll w).2.accepts = true) := by
  have hdet := A.deterministic_subsetConstruction
  refine ⟨Draft.acc_ofStart A, ?_, ?_, ?_, ?_, ?_⟩
  · intro x hx
    have hhalfway := (Draft.halfway_ofStart A).steps hx
    exact ⟨Draft.exists_step, hhalfway.table_eq⟩
  · exact A.tidy_subsetConstruction.isDeterministic_iff.mpr hdet
  · rw [Bool.eq_iff_iff, recognizes_iff_accepts, recognizes_iff_accepts,
      accepts_subsetConstruction_iff]
  · exact Run.feedAll_ok _ hdet w
  · rw [recognizes_iff_accepts, Run.feedAll_accepts_iff _ hdet, accepts_subsetConstruction_iff]

/-- With a silent loop and two ways to go on one byte, the run still follows all paths. The
    construction is made in the end. -/
theorem Automaton.subsetConstruction_equivalent_loop :
    let A : Automaton Nat := ofParts 0 [] [⟨0, none, 0⟩, ⟨0, some 97, 0⟩, ⟨0, some 97, 1⟩] [1]
    (∃ x, ReflTransGen (Draft.Step A) (Draft.ofStart A) x ∧ x.pending = [] ∧
      x.table = A.subsetConstruction) ∧
    A.subsetConstruction.isDeterministic = true ∧
    (∀ x ∈ ((Run.ofAutomaton A.subsetConstruction).feedAll [97, 97]).1, x = .ok true) ∧
    ((Run.ofAutomaton A.subsetConstruction).feedAll [97, 97]).2.accepts = true := by
  intro A
  obtain ⟨hacc, hmade, hdet, _, _, hrun⟩ := A.subsetConstruction_equivalent [97, 97]
  obtain ⟨x, hsteps, hdone⟩ := Draft.exists_done hacc
  have hloop : 0 ∈ A.targets 0 (some 97) := mem_targets_ofParts.mpr (by decide)
  have hedge : 1 ∈ A.targets 0 (some 97) := mem_targets_ofParts.mpr (by decide)
  have haccepts : A.Accepts [97, 97] :=
    ⟨1, .byte hloop (.byte hedge (.nil 1)), mem_accepting_ofParts.mpr List.mem_cons_self⟩
  exact ⟨⟨x, hsteps, hdone, (hmade x hsteps).2 hdone⟩, hdet,
    hrun.mp (recognizes_iff_accepts.mpr haccepts)⟩

end ByteLexer
