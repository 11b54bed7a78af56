import Std.Data.ExtTreeMap
import Std.Data.ExtTreeSet

/-! # Ordered sets

    An `OrdSet` is a finite set with a fixed order of its members. Sets of the
    same members are equal, so a set can itself be a member or a key.

    - **Order of sets.** Two sets compare like the words made of their members in
      increasing order: lexicographically, a proper initial part being smaller.
    - **First occurrences.** `firsts` thins out a list so that no key occurs
      twice and each stays where it occurred first.
-/

namespace ByteLexer

open Std (TransOrd LawfulEqOrd)

/-- A finite set, listed in the order of its members. -/
abbrev OrdSet (α : Type) [Ord α] := Std.ExtTreeSet α compare

/-- A finite map, listed in the order of its keys. -/
abbrev OrdMap (α β : Type) [Ord α] := Std.ExtTreeMap α β compare

/-! ## Order of sets -/

namespace OrdSet

variable {α : Type} [Ord α] [TransOrd α]

instance : Ord (OrdSet α) where
  compare s t := compare s.toList t.toList

instance : TransOrd (OrdSet α) where
  eq_swap {s t} := show compare s.toList t.toList = (compare t.toList s.toList).swap from
    Std.OrientedCmp.eq_swap
  isLE_trans {s t u} h k := show (compare s.toList u.toList).isLE from
    Std.TransCmp.isLE_trans (b := t.toList) h k

instance [LawfulEqOrd α] : LawfulEqOrd (OrdSet α) where
  compare_self {s} := show compare s.toList s.toList = .eq from Std.ReflCmp.compare_self
  eq_of_compare {s t} h := Std.ExtTreeSet.toList_inj.mp
    (Std.LawfulEqCmp.eq_of_compare (show compare s.toList t.toList = .eq from h))

/-- The set of the members of a list. -/
def ofMembers (xs : List α) : OrdSet α :=
  Std.ExtTreeSet.ofList xs compare

@[simp] theorem mem_ofMembers [LawfulEqOrd α] {xs : List α} {a : α} :
    a ∈ ofMembers xs ↔ a ∈ xs := by
  classical
  simp [ofMembers, Std.ExtTreeSet.mem_ofList]

end OrdSet

/-! ## First occurrences -/

variable {α β : Type} [Ord α] [TransOrd α]

/-- The entries of a list whose key is not in `seen` and occurs there for the first time. -/
def firsts (key : β → α) (seen : OrdSet α) : List β → List β
  | [] => []
  | x :: xs =>
    if key x ∈ seen then firsts key seen xs
    else x :: firsts key (seen.insert (key x)) xs

theorem firsts_sublist (key : β → α) (seen : OrdSet α) (xs : List β) :
    (firsts key seen xs).Sublist xs := by
  induction xs generalizing seen with
  | nil => exact .slnil
  | cons x xs ih =>
    unfold firsts
    split
    · exact (ih seen).cons x
    · exact (ih _).cons_cons x

theorem mem_of_mem_firsts {key : β → α} {seen : OrdSet α} {xs : List β} {x : β}
    (h : x ∈ firsts key seen xs) : x ∈ xs :=
  (firsts_sublist key seen xs).subset h

theorem key_not_mem_of_mem_firsts [LawfulEqOrd α] {key : β → α} {seen : OrdSet α}
    {xs : List β} {x : β} (h : x ∈ firsts key seen xs) : key x ∉ seen := by
  induction xs generalizing seen with
  | nil => simp [firsts] at h
  | cons y ys ih =>
    unfold firsts at h
    split at h
    · exact ih h
    · rcases List.mem_cons.mp h with rfl | h
      · assumption
      · exact fun hx => ih h (Std.ExtTreeSet.mem_insert.mpr (Or.inr hx))

/-- No key that occurs in the list gets lost. -/
theorem key_mem_firsts [LawfulEqOrd α] {key : β → α} {seen : OrdSet α} {xs : List β} {x : β}
    (h : x ∈ xs) (hs : key x ∉ seen) : ∃ y ∈ firsts key seen xs, key y = key x := by
  induction xs generalizing seen with
  | nil => cases h
  | cons y ys ih =>
    unfold firsts
    split
    · rename_i hy
      rcases List.mem_cons.mp h with rfl | h
      · exact absurd hy hs
      · exact ih h hs
    · by_cases hxy : key y = key x
      · exact ⟨y, List.mem_cons_self, hxy⟩
      · rcases List.mem_cons.mp h with rfl | h
        · exact absurd rfl hxy
        · have hx : key x ∉ seen.insert (key y) := by
            simp only [Std.ExtTreeSet.mem_insert, Std.LawfulEqCmp.compare_eq_iff_eq]
            exact fun h => h.elim hxy hs
          obtain ⟨z, hz, hk⟩ := ih h hx
          exact ⟨z, List.mem_cons_of_mem _ hz, hk⟩

end ByteLexer
