import Mathlib.Data.List.Sort
import Wicara.Lib.Table

namespace Wicara.Lib.Arrange

universe u v

variable {α : Type u} {β : Type v}

/-- A fold goes past what it does not look at, as long as `I` holds. -/
theorem foldl_filter_of_ignores {f : β → α → β} {p : α → Bool} (I : β → Prop)
    (hI : ∀ b a, I b → I (f b a)) (h : ∀ b a, I b → p a = false → f b a = b) {b : β} (hb : I b)
    (l : List α) : (l.filter p).foldl f b = l.foldl f b := by
  induction l generalizing b with
  | nil => rfl
  | cons a l ih =>
    cases ha : p a with
    | true => rw [List.filter_cons_of_pos ha, List.foldl_cons, List.foldl_cons, ih (hI b a hb)]
    | false =>
      rw [List.filter_cons_of_neg (by simp [ha]), List.foldl_cons, h b a hb ha, ih hb]

/-- Two lists are the same up to order if they are class by class. -/
theorem perm_of_filter {κ : Type*} [DecidableEq κ] (class' : α → κ) {l l' : List α}
    (h : ∀ k, (l.filter fun a => class' a = k).Perm (l'.filter fun a => class' a = k)) :
    l.Perm l' := by
  classical
  rw [List.perm_iff_count]
  intro a
  have hcount (l : List α) : (l.filter fun b => class' b = class' a).count a = l.count a :=
    List.count_filter (by simp)
  rw [← hcount l, ← hcount l', (h (class' a)).count_eq]

/-- Going through all the classes, one after the other, meets every member once. -/
theorem perm_flatMap_filter {κ : Type*} [DecidableEq κ] (class' : α → κ) {keys : List κ}
    (hkeys : keys.Nodup) (l : List α) :
    (keys.flatMap fun k => l.filter fun a => class' a = k).Perm
      (l.filter fun a => class' a ∈ keys) := by
  induction keys with
  | nil => simp
  | cons k keys ih =>
    rw [List.nodup_cons] at hkeys
    have hsplit := List.filter_append_perm (fun a => decide (class' a = k))
      (l.filter fun a => class' a ∈ k :: keys)
    have hhead : (l.filter fun a => class' a ∈ k :: keys).filter (fun a => decide (class' a = k)) =
        l.filter fun a => class' a = k := by
      rw [List.filter_filter]
      refine List.filter_congr fun a _ => ?_
      by_cases ha : class' a = k <;> simp [ha]
    have htail : (l.filter fun a => class' a ∈ k :: keys).filter
        (fun a => !decide (class' a = k)) = l.filter fun a => class' a ∈ keys := by
      rw [List.filter_filter]
      refine List.filter_congr fun a _ => ?_
      by_cases ha : class' a = k
      · simp [ha, hkeys.1]
      · simp [ha]
    rw [hhead, htail] at hsplit
    exact (List.Perm.append_left _ (ih hkeys.2)).trans hsplit

/-- What is sorted by a key that tells its members apart is sorted in one way only. -/
theorem eq_of_perm_of_sorted {r : α → α → Prop} {l l' : List α} (hperm : l.Perm l')
    (hanti : ∀ a ∈ l, ∀ b ∈ l, r a b → r b a → a = b) (hl : l.Pairwise r)
    (hl' : l'.Pairwise r) : l = l' :=
  hperm.eq_of_pairwise (fun a b ha hb hab hba => hanti a ha b (hperm.mem_iff.mpr hb) hab hba) hl hl'

/-- A stable sort puts things in the order `R`, wherever it starts from, exactly when `R` holds of
any two that the sort does not put the other way round. -/
theorem forall_sorted_iff {r R : α → α → Prop} [DecidableRel r] [Std.Total r] [IsTrans α r]
    {l : List α} (hl : l.Nodup) :
    (∀ l' : List α, l'.Perm l → (l'.insertionSort r).Pairwise R) ↔
      ∀ a ∈ l, ∀ b ∈ l, a ≠ b → r a b → R a b := by
  classical
  constructor
  · intro h a ha b hb hne hab
    have hpair : [a, b].Sublist (a :: l.erase a) := by
      refine .cons_cons a (List.singleton_sublist.mpr ?_)
      rwa [List.mem_erase_of_ne (Ne.symm hne)]
    have hsorted := h _ (List.perm_cons_erase ha).symm
    exact List.pairwise_pair.mp (hsorted.sublist (List.pair_sublist_insertionSort hab hpair))
  · intro h l' hperm
    have hnodup : (l'.insertionSort r).Nodup :=
      ((List.perm_insertionSort r l').trans hperm).nodup_iff.mpr hl
    refine ((List.pairwise_insertionSort r l').and hnodup).imp_of_mem fun ha hb hab => ?_
    rw [List.mem_insertionSort, hperm.mem_iff] at ha hb
    exact h _ ha _ hb hab.2 hab.1

/-- Sorting rows with one key each leaves every key its value. -/
theorem lookup_insertionSort {κ ν : Type*} [DecidableEq κ] {r : κ × ν → κ × ν → Prop}
    [DecidableRel r] {l : List (κ × ν)} (hl : (l.map Prod.fst).Nodup) (k : κ) :
    (l.insertionSort r).lookup k = l.lookup k := by
  have hsorted : ((l.insertionSort r).map Prod.fst).Nodup :=
    ((List.perm_insertionSort r l).map Prod.fst).nodup_iff.mpr hl
  ext v
  rw [Table.lookup_eq_some hl, Table.lookup_eq_some hsorted, List.mem_insertionSort]

/-- Rows with one key each are sorted by their keys in one way only. -/
theorem insertionSort_eq_of_lookup {κ ν : Type*} [LinearOrder κ] {l l' : List (κ × ν)}
    (hl : (l.map Prod.fst).Nodup) (hl' : (l'.map Prod.fst).Nodup)
    (h : ∀ k, l.lookup k = l'.lookup k) :
    (l.insertionSort fun a b => a.1 ≤ b.1) = l'.insertionSort fun a b => a.1 ≤ b.1 := by
  have hperm : l.Perm l' := by
    rw [List.perm_ext_iff_of_nodup hl.of_map hl'.of_map]
    rintro ⟨k, v⟩
    rw [← Table.lookup_eq_some hl, ← Table.lookup_eq_some hl', h]
  refine eq_of_perm_of_sorted
    (((List.perm_insertionSort _ l).trans hperm).trans (List.perm_insertionSort _ l').symm) ?_
    (List.pairwise_insertionSort _ l) (List.pairwise_insertionSort _ l')
  intro a ha b hb hab hba
  rw [List.mem_insertionSort] at ha hb
  exact List.inj_on_of_nodup_map hl ha hb (le_antisymm hab hba)

/-- `v` is the value of what comes last of what has one, and `b` if nothing has one. -/
def LastValue (lt : α → α → Prop) (value : α → Option β) (b : β) (S : Set α) (v : β) : Prop :=
  (∃ a ∈ S, value a = some v ∧ ∀ a' ∈ S, value a' ≠ none → ¬lt a a') ∨
    v = b ∧ ∀ a ∈ S, value a = none

variable {lt : α → α → Prop} {value : α → Option β} {b v v' : β} {S S' : Set α}

/-- Who overwrites going from first to last ends with what comes last. -/
theorem lastValue_foldl (hlt : ∀ a, ¬lt a a) {l : List α} (hl : l.Pairwise fun a a' => ¬lt a' a)
    (b : β) : LastValue lt value b {a | a ∈ l} (l.foldl (fun b a => (value a).getD b) b) := by
  induction l generalizing b with
  | nil => exact .inr ⟨rfl, by simp⟩
  | cons a l ih =>
    rw [List.pairwise_cons] at hl
    rw [List.foldl_cons]
    obtain ⟨last, hlast, hvalue, hmax⟩ | ⟨hfold, hnone⟩ := ih hl.2 ((value a).getD b)
    · refine .inl ⟨last, .tail _ hlast, hvalue, fun a' ha' hsome => ?_⟩
      obtain rfl | ha' := List.mem_cons.mp ha'
      · exact hl.1 last hlast
      · exact hmax a' ha' hsome
    · rw [hfold]
      cases ha : value a with
      | none =>
        refine .inr ⟨rfl, fun a' ha' => ?_⟩
        obtain rfl | ha' := List.mem_cons.mp ha'
        · exact ha
        · exact hnone a' ha'
      | some w =>
        refine .inl ⟨a, .head _, ha, fun a' ha' hsome => ?_⟩
        obtain rfl | ha' := List.mem_cons.mp ha'
        · exact hlt a'
        · exact absurd (hnone a' ha') hsome

/-- Where what has a value does not tie, only one thing comes last. -/
theorem LastValue.unique (h : LastValue lt value b S v) (h' : LastValue lt value b S v')
    (htie : ∀ a ∈ S, ∀ a' ∈ S, value a ≠ none → value a' ≠ none → ¬lt a a' → ¬lt a' a → a = a') :
    v = v' := by
  obtain ⟨a, ha, hv, hmax⟩ | ⟨rfl, hnone⟩ := h
  · obtain ⟨a', ha', hv', hmax'⟩ | ⟨-, hnone'⟩ := h'
    · have hsome : value a ≠ none := by simp [hv]
      have hsome' : value a' ≠ none := by simp [hv']
      obtain rfl := htie a ha a' ha' hsome hsome' (hmax a' ha' hsome') (hmax' a ha hsome)
      exact Option.some.inj (hv.symm.trans hv')
    · exact absurd (hnone' a ha) (by simp [hv])
  · obtain ⟨a', ha', hv', -⟩ | ⟨rfl, -⟩ := h'
    · exact absurd (hnone a' ha') (by simp [hv'])
    · rfl

/-- Only what has a value and how that is ordered matters. -/
theorem LastValue.congr {lt' : α → α → Prop} (h : LastValue lt value b S v)
    (hS : ∀ a, value a ≠ none → (a ∈ S ↔ a ∈ S'))
    (hlt : ∀ a ∈ S, ∀ a' ∈ S, value a ≠ none → value a' ≠ none → lt' a a' → lt a a') :
    LastValue lt' value b S' v := by
  obtain ⟨a, ha, hv, hmax⟩ | ⟨rfl, hnone⟩ := h
  · have hsome : value a ≠ none := by simp [hv]
    refine .inl ⟨a, (hS a hsome).mp ha, hv, fun a' ha' hsome' hlt' => ?_⟩
    have hmem := (hS a' hsome').mpr ha'
    exact hmax a' hmem hsome' (hlt a ha a' hmem hsome hsome' hlt')
  · refine .inr ⟨rfl, fun a ha => ?_⟩
    by_contra hsome
    exact hsome (hnone a ((hS a hsome).mpr ha))

/-- It is all the same what else there is that has no value. -/
theorem LastValue.of_mem_iff (h : LastValue lt value b S v)
    (hS : ∀ a, value a ≠ none → (a ∈ S ↔ a ∈ S')) : LastValue lt value b S' v :=
  h.congr hS fun _ _ _ _ _ _ => id

end Wicara.Lib.Arrange
