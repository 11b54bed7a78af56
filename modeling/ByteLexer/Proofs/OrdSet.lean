import ByteLexer.OrdSet

/-! # Testing ordered sets and maps

    What the tests on ordered sets and maps say in terms of membership.

    - **`all`, `any`.** They run through the entries in order, which is the same as
      testing the list of entries.
    - **Lists in order.** A set can be listed in order in one way only, and without repetitions.
    - **Maps from lists.** What can be looked up in the map made of some entries.
    - **Size.** A set with at most one member is one in which any two members agree.
    - **First occurrences.** The keys of `firsts` are pairwise distinct, and its entries are the
      earliest ones.
-/

namespace ByteLexer

open Std (TransOrd LawfulEqOrd)

variable {α β γ : Type}

/-! ## Loops that stop early -/

/-- A loop that stops at the first entry that fails a test computes `all`. -/
theorem forIn_eq_all (p : γ → Bool) (xs : List γ) :
    (Id.run do
      for x in xs do
        if p x = false then return false
      return true) = xs.all p := by
  induction xs with
  | nil => rfl
  | cons x xs ih =>
    cases h : p x <;> simp [h] at ih ⊢
    exact ih

/-- A loop that stops at the first entry that passes a test computes `any`. -/
theorem forIn_eq_any (p : γ → Bool) (xs : List γ) :
    (Id.run do
      for x in xs do
        if p x then return true
      return false) = xs.any p := by
  induction xs with
  | nil => rfl
  | cons x xs ih =>
    cases h : p x <;> simp [h] at ih ⊢
    exact ih

variable [Ord α] [TransOrd α]

/-! ## Lists in order -/

/-- There is only one list of given members in increasing order. -/
theorem eq_of_ordered {xs ys : List α} (hxs : xs.Pairwise fun a b => compare a b = .lt)
    (hys : ys.Pairwise fun a b => compare a b = .lt) (h : ∀ a, a ∈ xs ↔ a ∈ ys) : xs = ys := by
  have hne : ∀ {a b : α}, compare a b = .lt → a ≠ b := by
    intro a b hlt heq
    have hself : compare b b = .eq := Std.ReflCmp.compare_self
    rw [heq, hself] at hlt
    cases hlt
  have hperm : xs.Perm ys := (List.perm_ext_iff_of_nodup (hxs.imp hne) (hys.imp hne)).mpr h
  refine hperm.eq_of_pairwise (fun a b _ _ hlt hgt => ?_) hxs hys
  rw [Std.OrientedCmp.gt_of_lt hlt] at hgt
  cases hgt

/-- A set lists none of its members twice. -/
theorem OrdSet.nodup_toList (s : OrdSet α) : s.toList.Nodup := by
  refine Std.ExtTreeSet.distinct_toList.imp fun hne heq => hne ?_
  rw [heq]
  exact Std.ReflCmp.compare_self

/-! ## Maps -/

namespace OrdMap

/-- A key is in a map if there is something to look up for it. -/
theorem mem_iff_exists {m : OrdMap α β} {k : α} : k ∈ m ↔ ∃ v, m[k]? = some v := by
  rw [Std.ExtTreeMap.mem_iff_isSome_getElem?, Option.isSome_iff_exists]

/-- A map is listed by its keys, each with what there is to look up for it. -/
theorem toList_eq_map_keys [LawfulEqOrd α] {m : OrdMap α β} {f : α → β}
    (h : ∀ k ∈ m, m[k]? = some (f k)) : m.toList = m.keys.map fun k => (k, f k) := by
  rw [← Std.ExtTreeMap.map_fst_toList_eq_keys, List.map_map]
  refine (List.map_id' _).symm.trans (List.map_congr_left fun entry hentry => ?_)
  rw [Std.ExtTreeMap.mem_toList_iff_getElem?_eq_some] at hentry
  have hvalue := h entry.1 (mem_iff_exists.mpr ⟨_, hentry⟩)
  rw [hentry, Option.some.injEq] at hvalue
  exact Prod.ext rfl hvalue

theorem all_toList (m : OrdMap α β) (p : α → β → Bool) :
    m.all p = m.toList.all fun x => p x.1 x.2 := by
  obtain ⟨m⟩ := m
  induction m using Std.ExtDTreeMap.inductionOn with
  | _ m =>
    rw [← forIn_eq_all]
    show _ = Id.run (do
      for x in Std.DTreeMap.Const.toList m do
        if p x.1 x.2 = false then return false
      return true)
    rw [← Std.DTreeMap.Const.forInUncurried_eq_forIn_toList]
    rfl

theorem any_toList (m : OrdMap α β) (p : α → β → Bool) :
    m.any p = m.toList.any fun x => p x.1 x.2 := by
  obtain ⟨m⟩ := m
  induction m using Std.ExtDTreeMap.inductionOn with
  | _ m =>
    rw [← forIn_eq_any]
    show _ = Id.run (do
      for x in Std.DTreeMap.Const.toList m do
        if p x.1 x.2 then return true
      return false)
    rw [← Std.DTreeMap.Const.forInUncurried_eq_forIn_toList]
    rfl

/-- `all` holds if every entry that can be looked up passes the test. -/
theorem all_iff [LawfulEqOrd α] {m : OrdMap α β} {p : α → β → Bool} :
    m.all p = true ↔ ∀ k v, m[k]? = some v → p k v = true := by
  rw [all_toList, List.all_eq_true]
  constructor
  · intro h k v hv
    exact h (k, v) (Std.ExtTreeMap.mem_toList_iff_getElem?_eq_some.mpr hv)
  · intro h x hx
    obtain ⟨k, v⟩ := x
    exact h k v (Std.ExtTreeMap.mem_toList_iff_getElem?_eq_some.mp hx)

section OfList

variable [LawfulEqOrd α] {entries : List (α × β)} {k : α} {v : β}

/-- In a map made of entries with different keys, each of them can be looked up. -/
theorem getElem?_ofList_of_mem (hn : (entries.map Prod.fst).Nodup) (h : (k, v) ∈ entries) :
    (Std.ExtTreeMap.ofList entries compare)[k]? = some v := by
  have hdistinct : entries.Pairwise fun x y => ¬compare x.1 y.1 = .eq := by
    refine (List.pairwise_map.mp hn).imp fun hne he => hne ?_
    exact Std.LawfulEqCmp.eq_of_compare he
  exact Std.ExtTreeMap.getElem?_ofList_of_mem Std.ReflCmp.compare_self hdistinct h

/-- Other keys are not in it. -/
theorem getElem?_ofList_of_not_mem (h : k ∉ entries.map Prod.fst) :
    (Std.ExtTreeMap.ofList entries compare)[k]? = none := by
  classical
  apply Std.ExtTreeMap.getElem?_ofList_of_contains_eq_false
  rw [Bool.eq_false_iff, ne_eq, List.contains_iff_mem]
  exact h

end OfList

end OrdMap

/-! ## Sets -/

namespace OrdSet

/-- `any` holds if some member passes the test. -/
theorem any_iff [LawfulEqOrd α] {s : OrdSet α} {p : α → Bool} :
    s.any p = true ↔ ∃ a ∈ s, p a = true := by
  have h : s.any p = s.toList.any p := by
    have hk : s.toList = s.inner.toList.map Prod.fst :=
      Std.ExtTreeMap.map_fst_toList_eq_keys.symm
    rw [hk, List.any_map]
    exact OrdMap.any_toList s.inner fun a _ => p a
  rw [h, List.any_eq_true]
  simp only [Std.ExtTreeSet.mem_toList]

theorem mem_insert_iff [LawfulEqOrd α] {s : OrdSet α} {a b : α} :
    a ∈ s.insert b ↔ a = b ∨ a ∈ s := by
  rw [Std.ExtTreeSet.mem_insert, Std.LawfulEqCmp.compare_eq_iff_eq, @eq_comm α b]

theorem mem_singleton [LawfulEqOrd α] {a b : α} : a ∈ ({b} : OrdSet α) ↔ a = b := by
  have h : a ∈ (∅ : OrdSet α).insert b ↔ a = b := by
    rw [mem_insert_iff, or_iff_left Std.ExtTreeSet.not_mem_empty]
  exact h

/-- A set with at most one member is one in which any two members agree. -/
theorem size_le_one_iff [LawfulEqOrd α] {s : OrdSet α} :
    s.size ≤ 1 ↔ ∀ a ∈ s, ∀ b ∈ s, a = b := by
  rw [← Std.ExtTreeSet.length_toList]
  simp only [← Std.ExtTreeSet.mem_toList]
  have hd := Std.ExtTreeSet.distinct_toList (t := s)
  rcases hs : s.toList with _ | ⟨x, _ | ⟨y, rest⟩⟩
  · simp
  · simp
  · have hxy : x ≠ y := by
      intro h
      rw [hs] at hd
      have hne := (List.pairwise_cons.mp hd).1 y List.mem_cons_self
      rw [h] at hne
      exact hne Std.ReflCmp.compare_self
    constructor
    · intro h
      simp at h
    · intro h
      exact absurd (h x (by simp) y (by simp)) hxy

/-- The only member of a set stands first in its list. -/
theorem head?_toList_eq_some [LawfulEqOrd α] {s : OrdSet α} {a : α} (h : ∀ b ∈ s, a = b)
    (ha : a ∈ s) : s.toList.head? = some a := by
  rcases hs : s.toList with _ | ⟨x, rest⟩
  · rw [← Std.ExtTreeSet.mem_toList, hs] at ha
    cases ha
  · have hx : x ∈ s := by
      rw [← Std.ExtTreeSet.mem_toList, hs]
      exact List.mem_cons_self
    rw [List.head?_cons, h x hx]

end OrdSet

/-! ## First occurrences -/

/-- No key occurs twice among the first occurrences. -/
theorem nodup_map_firsts [LawfulEqOrd α] (key : β → α) (seen : OrdSet α) (xs : List β) :
    ((firsts key seen xs).map key).Nodup := by
  induction xs generalizing seen with
  | nil => exact List.nodup_nil
  | cons x xs ih =>
    unfold firsts
    split
    · exact ih seen
    · rw [List.map_cons, List.nodup_cons]
      refine ⟨?_, ih _⟩
      intro hx
      obtain ⟨y, hy, hk⟩ := List.mem_map.mp hx
      have hy' : key y ∉ seen.insert (key x) := key_not_mem_of_mem_firsts hy
      exact hy' (by simp [hk])

/-- Where every key occurs before, there are no more first occurrences. -/
theorem firsts_append_of_forall_mem [LawfulEqOrd α] {key : β → α} {seen : OrdSet α}
    {xs ys : List β} (h : ∀ y ∈ ys, key y ∈ seen ∨ ∃ x ∈ xs, key x = key y) :
    firsts key seen (xs ++ ys) = firsts key seen xs := by
  induction xs generalizing seen with
  | nil =>
    rw [List.nil_append, firsts, List.eq_nil_iff_forall_not_mem]
    intro y hy
    rcases h y (mem_of_mem_firsts hy) with hseen | ⟨x, hx, _⟩
    · exact key_not_mem_of_mem_firsts hy hseen
    · cases hx
  | cons x xs ih =>
    rw [List.cons_append, firsts, firsts]
    split
    · rename_i hx
      refine ih fun y hy => ?_
      rcases h y hy with hseen | ⟨z, hz, hzy⟩
      · exact .inl hseen
      · rcases List.mem_cons.mp hz with rfl | hz
        · exact .inl (hzy ▸ hx)
        · exact .inr ⟨z, hz, hzy⟩
    · refine congrArg (x :: ·) (ih fun y hy => ?_)
      rw [Std.ExtTreeSet.mem_insert, Std.LawfulEqCmp.compare_eq_iff_eq]
      rcases h y hy with hseen | ⟨z, hz, hzy⟩
      · exact .inl (.inr hseen)
      · rcases List.mem_cons.mp hz with rfl | hz
        · exact .inl (.inl hzy)
        · exact .inr ⟨z, hz, hzy⟩

/-- In a list that is in order, a first occurrence is the earliest entry with its key. -/
theorem firsts_earliest [LawfulEqOrd α] {key : β → α} {seen : OrdSet α} {xs : List β}
    {r : β → β → Prop} {d e : β} (hxs : xs.Pairwise r) (he : e ∈ firsts key seen xs) (hd : d ∈ xs)
    (hkey : key d = key e) : e = d ∨ r e d := by
  induction xs generalizing seen with
  | nil => cases hd
  | cons x xs ih =>
    obtain ⟨hx, hxs⟩ := List.pairwise_cons.mp hxs
    have hnew := key_not_mem_of_mem_firsts he
    unfold firsts at he
    split at he
    · rename_i hseen
      rcases List.mem_cons.mp hd with rfl | hd
      · rw [hkey] at hseen
        exact absurd hseen hnew
      · exact ih hxs he hd
    · rcases List.mem_cons.mp he with rfl | he
      · exact (List.mem_cons.mp hd).imp Eq.symm (hx d)
      · rcases List.mem_cons.mp hd with rfl | hd
        · -- its key would have been seen
          exact absurd (by simp [hkey]) (key_not_mem_of_mem_firsts he)
        · exact ih hxs he hd

end ByteLexer
