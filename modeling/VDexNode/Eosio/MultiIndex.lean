import VDexNode.Lib.Table
import VDexNode.Eosio.Asset

/-!
# VDexNode.Eosio.MultiIndex — `eosio::multi_index` on ordered tables

A `multi_index` is a `Table` under its primary key; where the contract opens it in several scopes,
one `Table` holds the rows of all scopes under the pair (scope, primary key).
-/

namespace VDexNode.Table

open Eosio

variable {R K : Type} [LinearOrder K] {key : R → K}

/-- `multi_index::get`. -/
def get (t : Table key) (k : K) (msg : String) : Result R :=
  match t.find k with
  | some r => .ok r
  | none => .error msg

/-- `multi_index::emplace`: storing under a key that is taken aborts. -/
def emplace (t : Table key) (x : R) : Result (Table key) := do
  check (t.find (key x) = none)
    "could not insert object, most likely a uniqueness constraint was violated"
  return t.put x

/-- `multi_index::erase(itr)`, with `none` for `end()`. -/
def eraseAt (t : Table key) (itr : Option R) : Result (Table key) :=
  match itr with
  | some r => .ok (t.erase (key r))
  | none => .error "cannot pass end iterator to erase"

/-- `multi_index::available_primary_key` of the scope `p`, with `ix` the primary key: one more than
the last key, `0` when the scope is empty. -/
def availablePrimaryKey (t : Table key) (p : R → Bool) (ix : R → ℕ) : Result ℕ := do
  let next := ((t.last p).map (fun r => ix r + 1)).getD 0
  check (next < 2 ^ 64 - 2) "next primary key in table is at autoincrement limit"
  return next

theorem get_eq_ok {t : Table key} {k : K} {msg : String} {r : R} :
    t.get k msg = .ok r ↔ t.find k = some r := by
  unfold get
  cases t.find k <;> simp

theorem get_eq_error {t : Table key} {k : K} {msg e : String} :
    t.get k msg = .error e ↔ t.find k = none ∧ msg = e := by
  unfold get
  cases t.find k <;> simp

theorem emplace_eq_ok {t t' : Table key} {x : R} :
    t.emplace x = .ok t' ↔ t.find (key x) = none ∧ t' = t.put x := by
  simp only [emplace, bind_eq_ok, check_eq_ok, exists_const, pure_eq_ok, eq_comm (b := t')]

theorem availablePrimaryKey_eq_ok {t : Table key} {p : R → Bool} {ix : R → ℕ} {n : ℕ} :
    t.availablePrimaryKey p ix = .ok n ↔
      ((t.last p).map (fun r => ix r + 1)).getD 0 < 2 ^ 64 - 2 ∧
        n = ((t.last p).map (fun r => ix r + 1)).getD 0 := by
  simp only [availablePrimaryKey, bind_eq_ok, check_eq_ok, exists_const, pure_eq_ok,
    eq_comm (b := n)]

/-- An available key is above every key of its scope. -/
theorem lt_availablePrimaryKey {t : Table key} {p : R → Bool} {ix : R → ℕ} {n : ℕ}
    (h : t.availablePrimaryKey p ix = .ok n)
    (hix : ∀ a b, p a = true → p b = true → key a < key b → ix a < ix b) {r : R}
    (hr : r ∈ t.rows) (hp : p r = true) : ix r < n := by
  obtain ⟨-, rfl⟩ := availablePrimaryKey_eq_ok.mp h
  have hmem : r ∈ (t.filter p).rows := mem_filter.mpr ⟨hr, hp⟩
  cases hl : t.last p with
  | none =>
    rw [List.getLast?_eq_none_iff.mp hl] at hmem
    cases hmem
  | some l =>
    obtain ⟨rest, hrows⟩ := List.getLast?_eq_some_iff.mp hl
    have hsorted := (t.filter p).sorted
    have hlast : l ∈ (t.filter p).rows := by rw [hrows]; simp
    rw [hrows] at hmem hsorted
    simp only [Option.map_some, Option.getD_some]
    rcases List.mem_append.mp hmem with hm | hm
    · have hlt := (List.pairwise_append.mp hsorted).2.2 r hm l (by simp)
      have := hix r l hp (mem_filter.mp hlast).2 hlt
      omega
    · rw [List.mem_singleton.mp hm]
      omega

theorem outcome_emplace (t : Table key) (x : R) {E : String → Prop}
    (hE : E "could not insert object, most likely a uniqueness constraint was violated") :
    Outcome (t.emplace x) (fun _ => True) E := by
  unfold emplace
  exact (outcome_check (fun _ => hE)).bind (fun _ _ => outcome_ok trivial)

theorem outcome_availablePrimaryKey (t : Table key) (p : R → Bool) (ix : R → ℕ)
    {E : String → Prop} (hE : E "next primary key in table is at autoincrement limit") :
    Outcome (t.availablePrimaryKey p ix) (fun _ => True) E := by
  unfold availablePrimaryKey
  exact (outcome_check (fun _ => hE)).bind (fun _ _ => outcome_ok trivial)

theorem outcome_get (t : Table key) (k : K) {msg : String} {E : String → Prop} (hE : E msg) :
    Outcome (t.get k msg) (fun r => t.find k = some r) E := by
  refine ⟨fun _ hr => get_eq_ok.mp hr, fun e he => ?_⟩
  rw [← (get_eq_error.mp he).2]
  exact hE

theorem inRange_emplace (t : Table key) (x : R) : InRange (t.emplace x) (fun _ => True) :=
  outcome_emplace t x (by decide)

theorem inRange_availablePrimaryKey (t : Table key) (p : R → Bool) (ix : R → ℕ) :
    InRange (t.availablePrimaryKey p ix) (fun _ => True) :=
  outcome_availablePrimaryKey t p ix (by decide)

theorem inRange_get (t : Table key) (k : K) {msg : String}
    (h : msg ∉ Asset.rangeErrors) :
    InRange (t.get k msg) (fun r => t.find k = some r) :=
  outcome_get t k h

/-! ## Iterators -/

/-- `multi_index::begin`, with `none` for `end()`. -/
def beginItr (t : Table key) : Option R := t.rows.head?

/-- The iterator after `r`. -/
def after (t : Table key) (r : R) : Option R := t.rows.find? (fun x => decide (key r < key x))

/-- `itr = table.erase(itr)`: the table without the row, and the next row. -/
def eraseNext (t : Table key) (itr : Option R) : Result (Table key × Option R) := do
  let t' ← t.eraseAt itr
  return (t', itr.bind t'.after)

/-- `while (itr != table.end()) itr = table.erase(itr)`, in at most `fuel` turns, with the iterators
that `erase` is called with. -/
def eraseWhile : ℕ → Table key → Option R → Result (Table key × Option R) × List (Option R)
  | 0, t, itr => (.ok (t, itr), [])
  | _ + 1, t, none => (.ok (t, none), [])
  | fuel + 1, t, some r =>
    match t.eraseNext (some r) with
    | .error e => (.error e, [some r])
    | .ok (t', itr) =>
      let rest := eraseWhile fuel t' itr
      (rest.1, some r :: rest.2)

/-- The loop from `begin()` on and `table.erase(itr)` once more. -/
def eraseAll (t : Table key) : Result (Table key) × List (Option R) :=
  let loop := eraseWhile t.rows.length t t.beginItr
  match loop.1 with
  | .error e => (.error e, loop.2)
  | .ok (t', itr) => (t'.eraseAt itr, loop.2 ++ [itr])

/-- What is left without the first row. -/
theorem rows_erase_head {t : Table key} {r : R} {l : List R} (h : t.rows = r :: l) :
    (t.erase (key r)).rows = l := by
  have hsorted := t.sorted
  rw [h, List.pairwise_cons] at hsorted
  have hkeep : l.filter (fun x => decide (key x ≠ key r)) = l :=
    List.filter_eq_self.mpr (fun x hx => decide_eq_true (ne_of_gt (hsorted.1 x hx)))
  show t.rows.filter _ = l
  rw [h, List.filter_cons_of_neg (by simp), hkeep]

/-- Erasing the first row leads to the second. -/
theorem eraseNext_head {t : Table key} {r : R} {l : List R} (h : t.rows = r :: l) :
    t.eraseNext (some r) = .ok (t.erase (key r), l.head?) := by
  have hafter : (t.erase (key r)).after r = l.head? := by
    unfold after
    rw [rows_erase_head h]
    cases l with
    | nil => rfl
    | cons x l =>
      have hsorted := t.sorted
      rw [h, List.pairwise_cons] at hsorted
      have hlt : key r < key x := hsorted.1 x List.mem_cons_self
      rw [List.find?_cons, decide_eq_true hlt, List.head?_cons]
  show Except.ok (t.erase (key r), (t.erase (key r)).after r) = _
  rw [hafter]

/-- **The loop**: each row is erased once, in order, and what is left is the empty table and
`end()`. -/
theorem eraseWhile_begin : ∀ (l : List R) (fuel : ℕ) (t : Table key), t.rows = l →
    l.length ≤ fuel → t.eraseWhile fuel t.beginItr = (.ok (empty, none), l.map some)
  | [], fuel, t, h, _ => by
    have hempty : t = empty := Table.ext h
    subst hempty
    cases fuel <;> rfl
  | r :: l, 0, t, _, hfuel => by simp at hfuel
  | r :: l, fuel + 1, t, h, hfuel => by
    have hrest := eraseWhile_begin l fuel (t.erase (key r)) (rows_erase_head h)
      (by simpa using hfuel)
    rw [beginItr, rows_erase_head h] at hrest
    rw [beginItr, h, List.head?_cons]
    simp only [eraseWhile, eraseNext_head h, hrest, List.map_cons]

/-- After the loop `end()` is erased, which aborts. -/
theorem eraseAll_eq (t : Table key) :
    t.eraseAll = (.error "cannot pass end iterator to erase", t.rows.map some ++ [none]) := by
  unfold eraseAll
  rw [eraseWhile_begin t.rows t.rows.length t rfl le_rfl]
  rfl

/-- Erasing the rows of a list one after the other. -/
theorem foldlM_eraseAt : ∀ (l : List R) (t : Table key), t.rows = l →
    l.foldlM (fun t itr => t.eraseAt (some itr)) t = .ok empty
  | [], t, h => congrArg Except.ok (Table.ext h)
  | r :: l, t, h => by
    rw [List.foldlM_cons]
    show l.foldlM _ (t.erase (key r)) = _
    exact foldlM_eraseAt l (t.erase (key r)) (rows_erase_head h)

end VDexNode.Table
