import Mathlib.Data.List.Sort
import Mathlib.Algebra.BigOperators.Group.List.Basic
import Mathlib.Algebra.Order.BigOperators.Group.List
import Mathlib.Tactic.Abel

/-!
# VDexNode.Lib.Table — ordered tables of keyed rows

A `Table key` is a finite set of rows, at most one for each value of `key`, listed in increasing
key order (`Table.sorted`, carried by the value itself).  Operations: `find`, `put` (insert or
replace), `erase` and `filter`; `sum` adds a quantity up over all rows.

* what an operation does to the rows: `mem_put`, `mem_erase`, `mem_filter`;
* what it does to a lookup: `find_put`, `find_erase`, `find_filter`;
* what it does to a total: `sum_put_new`, `sum_put_old`, `sum_erase`, `sum_filter_add_not`.
-/

namespace VDexNode

/-- Rows under pairwise distinct keys, in increasing key order. -/
@[ext]
structure Table {R K : Type} [LinearOrder K] (key : R → K) where
  rows : List R
  sorted : rows.Pairwise (fun a b => key a < key b)

namespace Table

variable {R K : Type} [LinearOrder K] {key : R → K}

instance [DecidableEq R] : DecidableEq (Table key) :=
  fun _ _ => decidable_of_iff _ Table.ext_iff.symm

/-! ## Operations -/

/-- The table without rows. -/
def empty : Table key := ⟨[], List.Pairwise.nil⟩

instance : Inhabited (Table key) := ⟨empty⟩

/-- The row stored under `k`. -/
def find (t : Table key) (k : K) : Option R := t.rows.find? (fun r => decide (key r = k))

/-- The rows satisfying `p`. -/
def filter (t : Table key) (p : R → Bool) : Table key :=
  ⟨t.rows.filter p, t.sorted.filter p⟩

/-- Remove the row stored under `k`, if any. -/
def erase (t : Table key) (k : K) : Table key := t.filter (fun r => decide (key r ≠ k))

/-- Store `x` under its key, replacing the row that is there. -/
def put (t : Table key) (x : R) : Table key where
  rows := (t.erase (key x)).rows.orderedInsert (fun a b => key a ≤ key b) x
  sorted := by
    have hle : ((t.erase (key x)).rows.orderedInsert (fun a b => key a ≤ key b) x).Pairwise
        (fun a b => key a ≤ key b) := by
      have : IsTrans R (fun a b => key a ≤ key b) := ⟨fun _ _ _ => le_trans⟩
      have : Std.Total (fun a b : R => key a ≤ key b) := ⟨fun a b => le_total (key a) (key b)⟩
      exact ((t.erase (key x)).sorted.imp le_of_lt).orderedInsert _ _
    have hne : ((t.erase (key x)).rows.orderedInsert (fun a b => key a ≤ key b) x).Pairwise
        (fun a b => key a ≠ key b) := by
      rw [(List.perm_orderedInsert _ _ _).pairwise_iff (fun h => h.symm), List.pairwise_cons]
      refine ⟨fun r hr => ?_, (t.erase (key x)).sorted.imp ne_of_lt⟩
      have := (List.mem_filter.mp hr).2
      exact (of_decide_eq_true this).symm
    exact (hle.and hne).imp (fun h => lt_of_le_of_ne h.1 h.2)

/-- The sum of `f` over all rows. -/
def sum {M : Type} [Add M] [Zero M] (t : Table key) (f : R → M) : M := (t.rows.map f).sum

/-- The last row satisfying `p`. -/
def last (t : Table key) (p : R → Bool) : Option R := (t.filter p).rows.getLast?

/-! ## Rows and lookups -/

@[simp] theorem rows_empty : (empty : Table key).rows = [] := rfl

theorem nodup_keys (t : Table key) : (t.rows.map key).Nodup :=
  List.pairwise_map.mpr (t.sorted.imp ne_of_lt)

theorem nodup_rows (t : Table key) : t.rows.Nodup := t.nodup_keys.of_map

theorem key_injOn (t : Table key) {a b : R} (ha : a ∈ t.rows) (hb : b ∈ t.rows)
    (h : key a = key b) : a = b :=
  List.inj_on_of_nodup_map t.nodup_keys ha hb h

theorem find_eq_some {t : Table key} {k : K} {r : R} :
    t.find k = some r ↔ r ∈ t.rows ∧ key r = k := by
  constructor
  · intro h
    have hk := List.find?_some (p := fun r => decide (key r = k)) h
    exact ⟨List.mem_of_find?_eq_some h, of_decide_eq_true hk⟩
  · rintro ⟨hr, rfl⟩
    cases hf : t.find (key r) with
    | none =>
      have := List.find?_eq_none.mp hf r hr
      simp at this
    | some r' =>
      have hk := List.find?_some (p := fun x => decide (key x = key r)) hf
      rw [t.key_injOn (List.mem_of_find?_eq_some hf) hr (of_decide_eq_true hk)]

theorem find_eq_none {t : Table key} {k : K} : t.find k = none ↔ ∀ r ∈ t.rows, key r ≠ k := by
  simp [find, List.find?_eq_none]

theorem find_mem {t : Table key} {k : K} {r : R} (h : t.find k = some r) : r ∈ t.rows :=
  (find_eq_some.mp h).1

theorem find_key {t : Table key} {k : K} {r : R} (h : t.find k = some r) : key r = k :=
  (find_eq_some.mp h).2

theorem find_self {t : Table key} {r : R} (h : r ∈ t.rows) : t.find (key r) = some r :=
  find_eq_some.mpr ⟨h, rfl⟩

@[simp] theorem find_empty (k : K) : (empty : Table key).find k = none := rfl

@[simp] theorem mem_filter {t : Table key} {p : R → Bool} {r : R} :
    r ∈ (t.filter p).rows ↔ r ∈ t.rows ∧ p r = true := by
  simp [filter]

@[simp] theorem mem_erase {t : Table key} {k : K} {r : R} :
    r ∈ (t.erase k).rows ↔ r ∈ t.rows ∧ key r ≠ k := by
  simp [erase]

theorem put_perm (t : Table key) (x : R) : (t.put x).rows.Perm (x :: (t.erase (key x)).rows) :=
  List.perm_orderedInsert _ _ _

@[simp] theorem mem_put {t : Table key} {x r : R} :
    r ∈ (t.put x).rows ↔ r = x ∨ (r ∈ t.rows ∧ key r ≠ key x) := by
  rw [(t.put_perm x).mem_iff, List.mem_cons, mem_erase]

/-- Tables with the same rows are equal. -/
theorem ext_mem {t u : Table key} (h : ∀ r, r ∈ t.rows ↔ r ∈ u.rows) : t = u := by
  have : Std.Irrefl (fun a b : R => key a < key b) := ⟨fun a => lt_irrefl (key a)⟩
  have : Std.Antisymm (fun a b : R => key a < key b) := ⟨fun _ _ hab hba => absurd hba hab.asymm⟩
  ext1
  exact t.sorted.eq_of_mem_iff u.sorted (fun r => h r)

/-- A new row outside of `p` is not seen there. -/
theorem filter_put_of_not {t : Table key} {p : R → Bool} {x : R} (hnew : t.find (key x) = none)
    (hx : p x = false) : (t.put x).filter p = t.filter p := by
  refine ext_mem (fun r => ?_)
  rw [mem_filter, mem_filter, mem_put]
  constructor
  · rintro ⟨rfl | ⟨hr, -⟩, hp⟩
    · rw [hx] at hp
      cases hp
    · exact ⟨hr, hp⟩
  · rintro ⟨hr, hp⟩
    exact ⟨Or.inr ⟨hr, find_eq_none.mp hnew r hr⟩, hp⟩

/-- The rows are the one stored under `k` and the rest. -/
theorem perm_cons_erase {t : Table key} {k : K} {r : R} (h : t.find k = some r) :
    t.rows.Perm (r :: (t.erase k).rows) := by
  obtain ⟨hr, rfl⟩ := find_eq_some.mp h
  have hnotin : r ∉ (t.erase (key r)).rows := fun hm => (mem_erase.mp hm).2 rfl
  refine (List.perm_ext_iff_of_nodup t.nodup_rows
    (List.nodup_cons.mpr ⟨hnotin, (t.erase (key r)).nodup_rows⟩)).mpr (fun a => ?_)
  rw [List.mem_cons, mem_erase]
  constructor
  · intro ha
    by_cases hk : key a = key r
    · exact Or.inl (t.key_injOn ha hr hk)
    · exact Or.inr ⟨ha, hk⟩
  · rintro (rfl | ⟨ha, -⟩)
    · exact hr
    · exact ha

theorem erase_of_find_none {t : Table key} {k : K} (h : t.find k = none) : t.erase k = t := by
  ext1
  exact List.filter_eq_self.mpr (fun r hr => decide_eq_true (find_eq_none.mp h r hr))

/-- A row under a key above all others comes last. -/
theorem rows_put_last {t : Table key} {x : R} (h : ∀ r ∈ t.rows, key r < key x) :
    (t.put x).rows = t.rows ++ [x] := by
  have hnew : t.find (key x) = none := find_eq_none.mpr (fun r hr => (h r hr).ne)
  have hsorted : (t.rows ++ [x]).Pairwise (fun a b => key a < key b) :=
    List.pairwise_append.mpr ⟨t.sorted, List.pairwise_singleton _ _, fun a ha b hb => by
      rw [List.mem_singleton.mp hb]
      exact h a ha⟩
  have hperm : (t.put x).rows.Perm (t.rows ++ [x]) := by
    have hput := t.put_perm x
    rw [erase_of_find_none hnew] at hput
    exact hput.trans (List.perm_append_singleton x t.rows).symm
  exact hperm.eq_of_pairwise (fun a b _ _ hab hba => absurd hab hba.asymm) (t.put x).sorted hsorted

theorem find_put (t : Table key) (x : R) (k : K) :
    (t.put x).find k = if k = key x then some x else t.find k := by
  split_ifs with h
  · subst h
    exact find_eq_some.mpr ⟨mem_put.mpr (Or.inl rfl), rfl⟩
  · cases hf : t.find k with
    | none =>
      rw [find_eq_none] at hf ⊢
      intro r hr
      rcases mem_put.mp hr with rfl | ⟨hr, -⟩
      · exact fun hk => h hk.symm
      · exact hf r hr
    | some r =>
      obtain ⟨hr, rfl⟩ := find_eq_some.mp hf
      exact find_eq_some.mpr ⟨mem_put.mpr (Or.inr ⟨hr, h⟩), rfl⟩

@[simp] theorem find_put_self (t : Table key) (x : R) : (t.put x).find (key x) = some x := by
  rw [find_put, if_pos rfl]

theorem find_filter (t : Table key) (p : R → Bool) (k : K) :
    (t.filter p).find k = (t.find k).filter p := by
  cases hf : t.find k with
  | none =>
    rw [Option.filter_none, find_eq_none]
    exact fun r hr => find_eq_none.mp hf r (mem_filter.mp hr).1
  | some r =>
    obtain ⟨hr, rfl⟩ := find_eq_some.mp hf
    by_cases hp : p r = true
    · rw [Option.filter_some_pos hp]
      exact find_eq_some.mpr ⟨mem_filter.mpr ⟨hr, hp⟩, rfl⟩
    · rw [Option.filter_some_neg (by simpa using hp), find_eq_none]
      rintro r' hr' hk
      obtain ⟨hr', hp'⟩ := mem_filter.mp hr'
      rw [t.key_injOn hr' hr hk] at hp'
      exact hp hp'

theorem find_erase (t : Table key) (k k' : K) :
    (t.erase k).find k' = if k' = k then none else t.find k' := by
  rw [erase, find_filter]
  cases hf : t.find k' with
  | none => simp
  | some r =>
    obtain rfl := find_key hf
    by_cases h : key r = k <;> simp [h, Option.filter]

/-! ## Differences -/

section Diff

variable [DecidableEq R]

/-- The rows of `t` that are not rows of `u`. -/
def diff (t u : Table key) : List R := t.rows.filter (fun r => decide (r ∉ u.rows))

/-- What a change adds, with the old rows, is the new rows with what it removes. -/
theorem diff_perm (t u : Table key) : (u.diff t ++ t.rows).Perm (u.rows ++ t.diff u) := by
  have hcommon : (t.rows.filter (fun r => decide (r ∈ u.rows))).Perm
      (u.rows.filter (fun r => decide (r ∈ t.rows))) := by
    refine (List.perm_ext_iff_of_nodup (t.nodup_rows.filter _) (u.nodup_rows.filter _)).mpr ?_
    simp [and_comm]
  have ht : (t.rows.filter (fun r => decide (r ∈ u.rows)) ++ t.diff u).Perm t.rows := by
    simpa [diff] using List.filter_append_perm (fun r => decide (r ∈ u.rows)) t.rows
  have hu : (u.rows.filter (fun r => decide (r ∈ t.rows)) ++ u.diff t).Perm u.rows := by
    simpa [diff] using List.filter_append_perm (fun r => decide (r ∈ t.rows)) u.rows
  calc (u.diff t ++ t.rows).Perm
        (u.diff t ++ (t.rows.filter (fun r => decide (r ∈ u.rows)) ++ t.diff u)) :=
          ht.symm.append_left _
    _ = (u.diff t ++ t.rows.filter (fun r => decide (r ∈ u.rows))) ++ t.diff u :=
          (List.append_assoc _ _ _).symm
    List.Perm _ ((u.rows.filter (fun r => decide (r ∈ t.rows)) ++ u.diff t) ++ t.diff u) :=
          ((hcommon.append_left _).trans List.perm_append_comm).append_right _
    List.Perm _ (u.rows ++ t.diff u) := hu.append_right _

@[simp] theorem diff_self (t : Table key) : t.diff t = [] := by
  simp [diff]

theorem filter_diff (t : Table key) (p : R → Bool) : (t.filter p).diff t = [] := by
  simp only [diff, List.filter_eq_nil_iff, mem_filter]
  rintro r ⟨hr, -⟩
  simp [hr]

theorem diff_filter (t : Table key) (p : R → Bool) :
    t.diff (t.filter p) = (t.filter (fun r => !p r)).rows := by
  refine List.filter_congr (fun r hr => ?_)
  cases hp : p r <;> simp [hr, hp]

theorem put_diff_new {t : Table key} {x : R} (h : t.find (key x) = none) :
    (t.put x).diff t = [x] := by
  have hx : x ∉ t.rows := fun hx => find_eq_none.mp h x hx rfl
  have hperm : ((t.put x).diff t).Perm ((x :: t.rows).filter (fun r => decide (r ∉ t.rows))) := by
    have := (t.put_perm x).filter (fun r => decide (r ∉ t.rows))
    rwa [erase_of_find_none h] at this
  rw [List.filter_cons_of_pos (by simpa using hx)] at hperm
  have hnil : t.rows.filter (fun r => decide (r ∉ t.rows)) = [] := by
    simp
  rw [hnil] at hperm
  exact List.perm_singleton.mp hperm

theorem diff_put_new {t : Table key} {x : R} (h : t.find (key x) = none) :
    t.diff (t.put x) = [] := by
  simp only [diff, List.filter_eq_nil_iff, mem_put]
  intro r hr
  have hne : key r ≠ key x := find_eq_none.mp h r hr
  simp [hr, hne]

end Diff

/-! ## Totals -/

section Totals

variable {M : Type}

@[simp] theorem sum_empty [AddCommMonoid M] (f : R → M) : (empty : Table key).sum f = 0 := rfl

/-- A total splits into the rows that satisfy `p` and those that do not. -/
theorem sum_filter_add_not [AddCommMonoid M] (t : Table key) (p : R → Bool) (f : R → M) :
    (t.filter p).sum f + (t.filter (fun r => !p r)).sum f = t.sum f := by
  have h := (List.filter_append_perm p t.rows).map f
  simpa [sum, filter] using h.sum_eq

theorem sum_erase [AddCommMonoid M] {t : Table key} {k : K} {r : R} (h : t.find k = some r)
    (f : R → M) : (t.erase k).sum f + f r = t.sum f := by
  rw [sum, sum, ((perm_cons_erase h).map f).sum_eq, List.map_cons, List.sum_cons, add_comm]

theorem sum_put [AddCommMonoid M] (t : Table key) (x : R) (f : R → M) :
    (t.put x).sum f = f x + (t.erase (key x)).sum f := by
  simpa [sum] using ((t.put_perm x).map f).sum_eq

/-- A new row adds its share to a total. -/
theorem sum_put_new [AddCommMonoid M] {t : Table key} {x : R} (h : t.find (key x) = none)
    (f : R → M) : (t.put x).sum f = t.sum f + f x := by
  rw [sum_put, erase_of_find_none h, add_comm]

/-- A replaced row trades its share for the new one. -/
theorem sum_put_old [AddCommMonoid M] {t : Table key} {x old : R} (h : t.find (key x) = some old)
    (f : R → M) : (t.put x).sum f + f old = t.sum f + f x := by
  rw [sum_put, ← sum_erase h f]
  abel

theorem sum_add [AddCommMonoid M] (t : Table key) (f g : R → M) :
    t.sum (fun r => f r + g r) = t.sum f + t.sum g := by
  simp [sum, List.sum_map_add]

theorem sum_congr [Add M] [Zero M] {t : Table key} {f g : R → M} (h : ∀ r ∈ t.rows, f r = g r) :
    t.sum f = t.sum g := by
  rw [sum, sum, List.map_congr_left h]

theorem sum_nonneg [AddCommMonoid M] [PartialOrder M] [IsOrderedAddMonoid M] {t : Table key}
    {f : R → M} (h : ∀ r ∈ t.rows, 0 ≤ f r) : 0 ≤ t.sum f :=
  List.sum_nonneg (List.forall_mem_map.mpr h)

/-- One row's share is at most the total of non-negative shares. -/
theorem le_sum [AddCommMonoid M] [PartialOrder M] [IsOrderedAddMonoid M] {t : Table key}
    {f : R → M} (h : ∀ r ∈ t.rows, 0 ≤ f r) {r : R} (hr : r ∈ t.rows) : f r ≤ t.sum f :=
  List.single_le_sum (List.forall_mem_map.mpr h) _ (List.mem_map_of_mem hr)

/-- Adding up over two tables, in either order. -/
theorem sum_comm [AddCommMonoid M] {R' K' : Type} [LinearOrder K'] {key' : R' → K'}
    (t : Table key) (u : Table key') (f : R → R' → M) :
    t.sum (fun r => u.sum (f r)) = u.sum (fun r' => t.sum (fun r => f r r')) := by
  unfold sum
  induction t.rows with
  | nil => simp
  | cons r rs ih => simp only [List.map_cons, List.sum_cons, ih, List.sum_map_add]

theorem sum_filter [AddCommMonoid M] (t : Table key) (p : R → Bool) (f : R → M) :
    (t.filter p).sum f = t.sum (fun r => if p r = true then f r else 0) := by
  unfold sum filter
  simp only
  induction t.rows with
  | nil => rfl
  | cons r rs ih =>
    by_cases hp : p r = true
    · rw [List.filter_cons_of_pos hp, List.map_cons, List.sum_cons, ih, List.map_cons,
        List.sum_cons, if_pos hp]
    · rw [List.filter_cons_of_neg hp, ih, List.map_cons, List.sum_cons, if_neg hp, zero_add]

/-- A sum over the rows of one key. -/
theorem sum_ite_key [AddCommMonoid M] (t : Table key) (k : K) [∀ r, Decidable (key r = k)]
    (f : R → M) :
    t.sum (fun r => if key r = k then f r else 0) = ((t.find k).map f).getD 0 := by
  cases hf : t.find k with
  | none =>
    have hzero : t.sum (fun r => if key r = k then f r else 0) = t.sum (fun _ => 0) :=
      sum_congr (fun r hr => if_neg (find_eq_none.mp hf r hr))
    rw [hzero]
    simp [sum]
  | some r =>
    have hrest : (t.erase k).sum (fun r => if key r = k then f r else 0) =
        (t.erase k).sum (fun _ => 0) :=
      sum_congr (fun r' hr' => if_neg (mem_erase.mp hr').2)
    rw [← sum_erase hf, hrest, if_pos (find_key hf)]
    simp [sum]

end Totals

end Table

end VDexNode
