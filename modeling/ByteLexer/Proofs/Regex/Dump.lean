import ByteLexer.Proofs.Automaton.Dump
import ByteLexer.Proofs.Regex.Labels
import ByteLexer.Proofs.Regex.Shape

/-! # Dumps of expressions

    The combinators bring in no ends of lines, so the dump of an expression can be read. It does not
    tell everything: a range is written with a dash between its ends, and a byte that is a dash is
    written in the same way.

    - **What a dump tells** of the automaton of an expression.
    - **What it does not tell.** Two expressions for different bytes.
-/

namespace ByteLexer.Regex

open Automaton ByteRange

/-! ## What a dump tells -/

theorem kept_newlineFree : Kept NewlineFree :=
  kept_not_mem (by decide)

/-- Let two automata be built by combinator expressions in whose labels no line ends. They have the
    same dump exactly if they have the same initial state, states, accepting states and edges
    without a byte, and if from one state to another they have edges on the same bytes, or on twins.
    If one of them has no edges on the dash, they have the same dump only if they are the same. And
    the bracketed label of a set of bytes tells the set, but for twins. -/
theorem dump_tells (e e' : Expr) (he : e.Labelled NewlineFree) (he' : e'.Labelled NewlineFree) :
    (e.build.dump id = e'.build.dump id ↔ DumpedAlike e.build e'.build) ∧
    ((∀ q r, r ∉ e.build.targets q (some dash)) →
      (e.build.dump id = e'.build.dump id ↔ e.build = e'.build)) ∧
    ∀ xs ys : List UInt8, xs.Pairwise (· < ·) → ys.Pairwise (· < ·) →
      (bracketed xs = bracketed ys ↔ WrittenAlike xs ys) := by
  have hA := he.build kept_newlineFree
  have hB := he'.build kept_newlineFree
  have hdump := hA.wellFormed.dump_eq_iff hB.wellFormed hA.labels hB.labels
  refine ⟨hdump, fun hdash => ⟨fun h => ?_, congrArg _⟩, fun xs ys hxs hys => ?_⟩
  · exact (hdump.mp h).eq_of_dash_free hA.wellFormed hB.wellFormed hdash
  · exact bracketed_inj.trans (text_runs_eq_iff hxs hys)

/-- The dump does not tell whether there is an edge on the comma: three bytes and five are written
    alike. Of a single byte that is not the dash, it tells everything. -/
theorem dump_tells_plus :
    let three : Expr := .oneOf [43, 45, 47]
    let five : Expr := .between 43 47
    let one : Expr := .byte 97
    DumpedAlike three.build five.build ∧ WrittenAlike [43, 45, 47] [43, 44, 45, 46, 47] ∧
      (one.build.dump id = three.build.dump id ↔ one.build = three.build) := by
  intro three five one
  have hdump : three.build.dump id = five.build.dump id := by decide
  have hthree : three.Labelled NewlineFree := trivial
  obtain ⟨htells, _, hlabels⟩ := dump_tells three five hthree trivial
  obtain ⟨_, htells', _⟩ := dump_tells one three trivial hthree
  refine ⟨htells.mp hdump, (hlabels _ _ (by decide) (by decide)).mp (by decide), htells' ?_⟩
  intro q r hr
  obtain ⟨_, _, c, hc, hdash⟩ := mem_targets_oneOf.mp hr
  rw [List.mem_singleton.mp hc] at hdash
  exact absurd hdash (by decide)

/-! ## What it does not tell -/

/-- Different automata can have the same dump. -/
theorem dump_not_injective : ¬∀ e e' : Expr, e.Labelled NewlineFree → e'.Labelled NewlineFree →
    e.build.dump id = e'.build.dump id →
    ∀ q s r, r ∈ e.build.targets q s ↔ r ∈ e'.build.targets q s := by
  intro h
  have hdump : (Regex.oneOf [43, 45, 47]).dump id = (Regex.between 43 47).dump id := by decide
  -- the edge on the comma from the initial state to the accepting one
  have hcomma :=
    h (.oneOf [43, 45, 47]) (.between 43 47) trivial trivial hdump first (some 44) final
  exact absurd (hcomma.mpr (by decide)) (by decide)

end ByteLexer.Regex
