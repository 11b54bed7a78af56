import ByteLexer.Proofs.Automaton.Trim
import ByteLexer.Proofs.Regex.Language

/-! # Combinators build no dead ends

    What the combinators build from trim automata is trim again. So is every tree of them,
    if its leaves are no automata from elsewhere and no choice is made from no bytes at all.

    - **The end.** The accepting state is alive onwards, as no edge leaves it.
    - **Combinations.** Each one reaches the end from the copies of its operands.
    - **Trees.** By induction on the tree.
-/

namespace ByteLexer.Regex

open Automaton

variable {a b : Regex} {bytes w : List UInt8}

/-! ## Single bytes and the empty word -/

theorem trim_oneOf (hne : bytes ≠ []) : (oneOf bytes).Trim := by
  have hend : (oneOf bytes).AliveOnwards final :=
    aliveOnwards_of_stuck (mem_accepting_oneOf.mpr rfl) fun _ _ => not_mem_targets_oneOf_final
  obtain ⟨c, hc⟩ := List.exists_mem_of_ne_nil bytes hne
  rw [Trim, initial_oneOf]
  refine aliveOnwards_of_targets ?_ fun s r hr => ?_
  · have hedge : final ∈ (oneOf bytes).targets first (some c) :=
      mem_targets_oneOf.mpr ⟨rfl, rfl, c, hc, rfl⟩
    exact hend.alive.of_path (.byte hedge (.nil final))
  · obtain ⟨_, rfl, _⟩ := mem_targets_oneOf.mp hr
    exact hend

/-- Of a choice between bytes, nothing can be followed but one of them. -/
theorem viable_oneOf_iff (hne : bytes ≠ []) :
    (oneOf bytes).Viable w ↔ w = [] ∨ ∃ c ∈ bytes, w = [c] := by
  rw [(trim_oneOf hne).viable_iff]
  simp only [accepts_oneOf_iff]
  constructor
  · intro hex
    obtain ⟨v, c, hc, hw⟩ := hex
    rcases List.append_eq_singleton_iff.mp hw with ⟨hnil, _⟩ | ⟨hone, _⟩
    · exact .inl hnil
    · exact .inr ⟨c, hc, hone⟩
  · intro hor
    rcases hor with rfl | ⟨c, hc, rfl⟩
    · obtain ⟨c, hc⟩ := List.exists_mem_of_ne_nil bytes hne
      exact ⟨[c], c, hc, rfl⟩
    · exact ⟨[], c, hc, rfl⟩

/-- A range holds the bounds that it was made from. -/
theorem trim_between (c d : UInt8) : (between c d).Trim := by
  have hmem : c ∈ (ByteRange.ofBounds c d).bytes := by
    rw [ByteRange.mem_bytes, ByteRange.ofBounds]
    by_cases h : c ≤ d
    · rw [if_pos h]
      exact ⟨UInt8.le_refl c, h⟩
    · rw [if_neg h]
      exact ⟨UInt8.le_of_lt (UInt8.not_le.mp h), UInt8.le_refl c⟩
  exact trim_oneOf (List.ne_nil_of_mem hmem)

/-- There is more than one byte. -/
theorem trim_allBut (c : UInt8) : (allBut c).Trim := by
  have hother : ∃ d : UInt8, d ≠ c := by
    by_cases h : c = 0
    · rw [h]
      exact ⟨1, by decide⟩
    · exact ⟨0, Ne.symm h⟩
  obtain ⟨d, hd⟩ := hother
  have hmem : d ∈ allBytes.filter (· != c) :=
    List.mem_filter.mpr ⟨mem_allBytes d, bne_iff_ne.mpr hd⟩
  exact trim_oneOf (List.ne_nil_of_mem hmem)

theorem trim_epsilon : epsilon.Trim := by
  have hend : epsilon.AliveOnwards final :=
    aliveOnwards_of_stuck (mem_accepting_epsilon.mpr rfl) fun _ _ => not_mem_targets_epsilon_final
  rw [Trim, initial_epsilon]
  refine aliveOnwards_of_targets ?_ fun s r hr => ?_
  · have hedge : final ∈ epsilon.targets first Symbol.epsilon :=
      mem_targets_epsilon_first.mpr ⟨rfl, rfl⟩
    exact hend.alive.of_path (.silent hedge (.nil final))
  · obtain ⟨_, rfl⟩ := mem_targets_epsilon_first.mp hr
    exact hend

/-! ## Combinations -/

theorem trim_union (ha : a.Trim) (hb : b.Trim) : (union a b).Trim := by
  have hend : (union a b).AliveOnwards final :=
    aliveOnwards_of_stuck (mem_accepting_union.mpr rfl) fun _ _ => not_mem_targets_union_final
  have hexit : ∃ y, y = final ∧ (union a b).Alive y := ⟨final, rfl, hend.alive⟩
  have hleft : (union a b).AliveOnwards (left a.initial) :=
    (region_union_left a b).aliveOnwards (fun y hy => .inl (hy ▸ hend)) hexit trivial ha
  have hright : (union a b).AliveOnwards (right b.initial) :=
    (region_union_right a b).aliveOnwards (fun y hy => .inl (hy ▸ hend)) hexit trivial hb
  rw [Trim, initial_union]
  refine aliveOnwards_of_targets ?_ fun s r hr => ?_
  · have hedge : left a.initial ∈ (union a b).targets first Symbol.epsilon :=
      mem_targets_union_first.mpr ⟨rfl, .inl rfl⟩
    exact hleft.alive.of_path (.silent hedge (.nil _))
  · rcases (mem_targets_union_first.mp hr).2 with rfl | rfl
    · exact hleft
    · exact hright

/-- The second operand is entered from the first one only. -/
theorem trim_concat (ha : a.Trim) (hb : b.Trim) : (concat a b).Trim := by
  have hend : (concat a b).AliveOnwards final :=
    aliveOnwards_of_stuck (mem_accepting_concat.mpr rfl) fun _ _ => not_mem_targets_concat_final
  have hright : (concat a b).AliveOnwards (right b.initial) :=
    (region_concat_right a b).aliveOnwards (fun y hy => .inl (hy ▸ hend))
      ⟨final, rfl, hend.alive⟩ trivial hb
  rw [Trim, initial_concat]
  exact (region_concat_left a b).aliveOnwards (fun y hy => .inl (hy ▸ hright))
    ⟨_, rfl, hright.alive⟩ trivial ha

/-- A round ends at the end, or another one begins. -/
theorem trim_star (ha : a.Trim) : (star a).Trim := by
  have hend : (star a).AliveOnwards final :=
    aliveOnwards_of_stuck (mem_accepting_star.mpr rfl) fun _ _ => not_mem_targets_star_final
  have hround : (star a).AliveOnwards (left a.initial) := by
    refine (region_star a).aliveOnwards (fun y hy => ?_) ⟨final, .inl rfl, hend.alive⟩ trivial ha
    -- where a round is over, the end follows or the start of the next round
    rcases hy with rfl | rfl
    · exact .inl hend
    · exact .inr ⟨a.initial, trivial, rfl, ha⟩
  rw [Trim, initial_star]
  refine aliveOnwards_of_targets ?_ fun s r hr => ?_
  · have hedge : final ∈ (star a).targets first Symbol.epsilon :=
      mem_targets_star_first.mpr ⟨rfl, .inr rfl⟩
    exact hend.alive.of_path (.silent hedge (.nil final))
  · rcases (mem_targets_star_first.mp hr).2 with rfl | rfl
    · exact hround
    · exact hend

theorem trim_word (bytes : List UInt8) : (word bytes).Trim := by
  have hfold : ∀ (rest : List UInt8) (r : Regex), r.Trim →
      (rest.foldl (fun r c => concat r (byte c)) r).Trim := by
    intro rest
    induction rest with
    | nil => exact fun _ hr => hr
    | cons c rest ih => exact fun r hr => ih _ (trim_concat hr (trim_oneOf (List.cons_ne_nil c [])))
  rcases bytes with _ | ⟨b, rest⟩
  · exact trim_epsilon
  · exact hfold rest _ (trim_oneOf (List.cons_ne_nil b []))

theorem trim_qualify (name : String) (ha : a.Trim) : (a.qualify name).Trim := by
  rw [Trim, qualify, initial_image]
  exact (a.keptApart_of_injective fun _ _ => (String.append_right_inj name).mp).aliveOnwards_image
    trivial ha

/-! ## Trees -/

namespace Expr

/-- A tree that is built by combinators only, none of which chooses from no bytes. -/
def Combined : Expr → Prop
  | .automaton _ => False
  | .oneOf bytes => bytes ≠ []
  | .byte _ | .between _ _ | .allBut _ | .epsilon | .word _ => True
  | .union a b | .concat a b | .or a b | .add a b => a.Combined ∧ b.Combined
  | .star a | .plus a | .optional a | .qualify _ a => a.Combined

/-- Its automaton has no dead ends. -/
theorem Combined.trim {e : Expr} (h : e.Combined) : e.build.Trim := by
  induction e with
  | automaton A => exact h.elim
  | byte b => exact trim_oneOf (List.cons_ne_nil b [])
  | between c d => exact trim_between c d
  | allBut b => exact trim_allBut b
  | oneOf bytes => exact trim_oneOf h
  | epsilon => exact trim_epsilon
  | word bytes => exact trim_word bytes
  | union a b iha ihb | or a b iha ihb =>
    show (Regex.union a.build b.build).Trim
    exact trim_union (iha h.1) (ihb h.2)
  | concat a b iha ihb | add a b iha ihb =>
    show (Regex.concat a.build b.build).Trim
    exact trim_concat (iha h.1) (ihb h.2)
  | star a iha => exact trim_star (iha h)
  | plus a iha =>
    show (Regex.concat a.build (Regex.star a.build)).Trim
    exact trim_concat (iha h) (trim_star (iha h))
  | optional a iha =>
    show (Regex.union a.build Regex.epsilon).Trim
    exact trim_union (iha h) trim_epsilon
  | qualify name a iha => exact trim_qualify name (iha h)

end Expr

end ByteLexer.Regex
