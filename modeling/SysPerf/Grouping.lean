import Mathlib.Data.List.Basic
import Mathlib.Data.List.Nodup

namespace SysPerf.Grouping

variable {κ β : Type} [DecidableEq κ]

/-- Items by key, the keys in the order of their first items. -/
abbrev Groups (κ β : Type) : Type :=
  List (κ × List β)

/-- The item goes to the end of its group. -/
def add (key : κ) (item : β) : Groups κ β → Groups κ β
  | [] => [(key, [item])]
  | (k, items) :: rest =>
    if k = key then (k, items ++ [item]) :: rest else (k, items) :: add key item rest

/-- The group of a key without items is empty. -/
def itemsOf (key : κ) (groups : Groups κ β) : List β :=
  (groups.lookup key).getD []

def addAll (items : List (κ × β)) (groups : Groups κ β) : Groups κ β :=
  items.foldl (fun groups item => add item.1 item.2 groups) groups

theorem itemsOf_cons (key k : κ) (items : List β) (rest : Groups κ β) :
    itemsOf key ((k, items) :: rest) = if key = k then items else itemsOf key rest := by
  unfold itemsOf
  by_cases h : key = k
  · subst h
    simp
  · rw [List.lookup_cons, beq_eq_false_iff_ne.mpr h, if_neg h]

theorem itemsOf_add (key other : κ) (item : β) (groups : Groups κ β) :
    itemsOf other (add key item groups) =
      itemsOf other groups ++ if other = key then [item] else [] := by
  induction groups with
  | nil =>
    unfold add
    rw [itemsOf_cons]
    rfl
  | cons group rest ih =>
    obtain ⟨k, items⟩ := group
    unfold add
    split
    next hk =>
      subst hk
      rw [itemsOf_cons, itemsOf_cons]
      split
      next => rfl
      next => rw [List.append_nil]
    next hk =>
      rw [itemsOf_cons, itemsOf_cons]
      split
      next heq =>
        subst heq
        rw [if_neg hk, List.append_nil]
      next => exact ih

/-- A group holds the items of its key in their order, none of another key. -/
theorem itemsOf_addAll (key : κ) (items : List (κ × β)) (groups : Groups κ β) :
    itemsOf key (addAll items groups) =
      itemsOf key groups ++ (items.filter fun item => key = item.1).map Prod.snd := by
  induction items generalizing groups with
  | nil => rw [List.filter_nil, List.map_nil, List.append_nil]; rfl
  | cons item items ih =>
    have hrest := ih (add item.1 item.2 groups)
    rw [itemsOf_add, List.append_assoc] at hrest
    rw [List.filter_cons]
    split
    next h =>
      rw [if_pos (of_decide_eq_true h)] at hrest
      exact hrest
    next h =>
      rw [if_neg (fun heq => h (decide_eq_true heq)), List.nil_append] at hrest
      exact hrest

theorem keys_add (key : κ) (item : β) (groups : Groups κ β) :
    (add key item groups).map Prod.fst =
      if key ∈ groups.map Prod.fst then groups.map Prod.fst else groups.map Prod.fst ++ [key] := by
  induction groups with
  | nil => rfl
  | cons group rest ih =>
    obtain ⟨k, items⟩ := group
    unfold add
    split
    next hk =>
      have hmem : key ∈ ((k, items) :: rest).map Prod.fst := by
        rw [List.map_cons, hk]
        exact List.mem_cons_self ..
      rw [if_pos hmem]
      rfl
    next hk =>
      rw [List.map_cons, ih, List.map_cons]
      have hmem : key ∈ k :: rest.map Prod.fst ↔ key ∈ rest.map Prod.fst := by
        rw [List.mem_cons, or_iff_right (Ne.symm hk)]
      simp only [hmem]
      split <;> rfl

theorem keys_addAll {items : List (κ × β)} {groups : Groups κ β}
    (h : (groups.map Prod.fst).Nodup) :
    ((addAll items groups).map Prod.fst).Nodup ∧ ∀ key ∈ (addAll items groups).map Prod.fst,
      key ∈ groups.map Prod.fst ∨ key ∈ items.map Prod.fst := by
  induction items generalizing groups with
  | nil => exact ⟨h, fun key hkey => Or.inl hkey⟩
  | cons item items ih =>
    have hadd : ((add item.1 item.2 groups).map Prod.fst).Nodup := by
      rw [keys_add]
      split
      next => exact h
      next hnot =>
        apply List.Nodup.append h (List.nodup_singleton _)
        rw [List.disjoint_singleton]
        exact hnot
    obtain ⟨hnodup, hkeys⟩ := ih hadd
    refine ⟨hnodup, fun key hkey => ?_⟩
    rcases hkeys key hkey with hkey | hkey
    · rw [keys_add] at hkey
      split at hkey
      next => exact Or.inl hkey
      next =>
        rcases List.mem_append.mp hkey with hkey | hkey
        · exact Or.inl hkey
        · obtain rfl := List.mem_singleton.mp hkey
          exact Or.inr (List.mem_cons_self ..)
    · exact Or.inr (List.mem_cons_of_mem _ hkey)

theorem itemsOf_of_notMem {key : κ} {groups : Groups κ β} (h : key ∉ groups.map Prod.fst) :
    itemsOf key groups = [] := by
  induction groups with
  | nil => rfl
  | cons group rest ih =>
    obtain ⟨k, items⟩ := group
    obtain ⟨hne, hrest⟩ := not_or.mp (List.mem_cons.not.mp h)
    rw [itemsOf_cons, if_neg hne, ih hrest]

theorem itemsOf_of_mem {groups : Groups κ β} (h : (groups.map Prod.fst).Nodup)
    {group : κ × List β} (hgroup : group ∈ groups) : itemsOf group.1 groups = group.2 := by
  induction groups with
  | nil => cases hgroup
  | cons first rest ih =>
    obtain ⟨hnot, hnodup⟩ := List.nodup_cons.mp h
    obtain ⟨k, items⟩ := first
    rw [itemsOf_cons]
    rcases List.mem_cons.mp hgroup with rfl | hgroup
    · rw [if_pos rfl]
    · have hne : group.1 ≠ k := by
        intro heq
        have hmem := List.mem_map_of_mem (f := Prod.fst) hgroup
        rw [heq] at hmem
        exact hnot hmem
      rw [if_neg hne, ih hnodup hgroup]

/-- A new group for each key, made of the key. -/
theorem itemsOf_map {γ : Type} {f : κ → List γ} {key : κ} {groups : Groups κ β}
    (h : key ∉ groups.map Prod.fst → f key = []) :
    itemsOf key (groups.map fun group => (group.1, f group.1)) = f key := by
  induction groups with
  | nil => exact (h (List.not_mem_nil)).symm
  | cons group rest ih =>
    rw [List.map_cons, itemsOf_cons]
    split
    next heq => rw [heq]
    next hne =>
      apply ih
      intro hrest
      apply h
      rw [List.map_cons, List.mem_cons, not_or]
      exact ⟨hne, hrest⟩

end SysPerf.Grouping
