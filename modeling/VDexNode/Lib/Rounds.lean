import Mathlib.Algebra.BigOperators.Ring.Finset
import Mathlib.Algebra.BigOperators.Group.Finset.Sigma
import Mathlib.Order.Interval.Finset.Nat
import Mathlib.Tactic.Ring
import VDexNode.Lib.Machine

/-!
# VDexNode.Lib.Rounds — vectors of the parties `1, …, n`

In a round every party `p` of `1, …, n` has a value of its own and reads the values of the
`others n p`, in order.  `forOthers` is the loop that walks over all parties with a counter of the
others seen so far; `forOthers_eq_ok` runs it from a description of its state after each prefix.

* `eraseIdx_range'` : removing a party's own entry from the full vector leaves the others.
* `sum_map_range'`, `sum_map_others` : sums over the vectors, as finite sums.
* `lookup_board` : a board with an entry of every party is read at every party.
-/

namespace VDexNode

variable {α β ε M : Type}

/-! ## The other parties -/

/-- The parties `1, …, n` other than `p`. -/
def others (n p : ℕ) : List ℕ := (List.range' 1 n).filter (· ≠ p)

theorem mem_range'_one {n i : ℕ} : i ∈ List.range' 1 n ↔ 1 ≤ i ∧ i ≤ n := by
  rw [List.mem_range'_1]
  omega

theorem mem_others {n p i : ℕ} : i ∈ others n p ↔ (1 ≤ i ∧ i ≤ n) ∧ i ≠ p := by
  rw [others, List.mem_filter, mem_range'_one, decide_eq_true_eq]

/-- The entry of a party in the full vector. -/
theorem getElem?_range'_map (f : ℕ → α) {n i : ℕ} (h1 : 1 ≤ i) (hn : i ≤ n) :
    ((List.range' 1 n).map f)[i - 1]? = some (f i) := by
  rw [List.getElem?_map, List.getElem?_range' (by omega), Option.map_some, one_mul]
  congr 2
  omega

/-- Removing the entry of `p` from the full vector. -/
theorem eraseIdx_range' {n p : ℕ} (h1 : 1 ≤ p) (hn : p ≤ n) :
    (List.range' 1 n).eraseIdx (p - 1) = others n p := by
  have hnodup : (List.range' 1 n).Nodup := List.nodup_range'
  have hget : (List.range' 1 n)[p - 1]? = some p := by
    rw [List.getElem?_range' (by omega), one_mul]
    congr 1
    omega
  obtain ⟨hlt, hget⟩ := List.getElem?_eq_some_iff.mp hget
  have hidx : (List.range' 1 n).idxOf p = p - 1 := by
    conv_lhs => rw [← hget]
    exact hnodup.idxOf_getElem (p - 1) hlt
  rw [← List.erase_eq_eraseIdx_of_idxOf hidx, hnodup.erase_eq_filter, others]
  exact List.filter_congr (fun x _ => by simp [bne, Bool.beq_eq_decide_eq])

theorem length_others {n p : ℕ} (h1 : 1 ≤ p) (hn : p ≤ n) : (others n p).length + 1 = n := by
  rw [← eraseIdx_range' h1 hn, List.length_eraseIdx_of_lt (by rw [List.length_range']; omega),
    List.length_range']
  omega

/-- A party of two or more is never alone. -/
theorem others_ne_nil {n p : ℕ} (h2 : 2 ≤ n) (h1 : 1 ≤ p) (hn : p ≤ n) : others n p ≠ [] := by
  intro h
  have hlen := length_others h1 hn
  rw [h, List.length_nil] at hlen
  omega

/-- A party is not among the others of a prefix that ends with it. -/
theorem filter_ne_concat_self (pre : List ℕ) (p : ℕ) :
    (pre ++ [p]).filter (· ≠ p) = pre.filter (· ≠ p) := by
  rw [List.filter_append, List.filter_cons_of_neg (by simp), List.filter_nil, List.append_nil]

theorem filter_ne_concat {pre : List ℕ} {i p : ℕ} (h : i ≠ p) :
    (pre ++ [i]).filter (· ≠ p) = pre.filter (· ≠ p) ++ [i] := by
  rw [List.filter_append, List.filter_cons_of_pos (by simpa using h), List.filter_nil]

/-! ## Sums -/

variable [AddCommMonoid M]

theorem sum_map_range' (f : ℕ → M) (n : ℕ) :
    ((List.range' 1 n).map f).sum = ∑ i ∈ Finset.Icc 1 n, f i := by
  rw [Nat.Icc_eq_range']
  rfl

theorem sum_map_others (f : ℕ → M) (n p : ℕ) :
    ((others n p).map f).sum = ∑ i ∈ (Finset.Icc 1 n).erase p, f i := by
  have hset : (Finset.Icc 1 n).erase p = (others n p).toFinset := by
    ext i
    rw [Finset.mem_erase, Finset.mem_Icc, List.mem_toFinset, mem_others, and_comm]
  have hnodup : (others n p).Nodup := List.Nodup.filter _ List.nodup_range'
  rw [hset, List.sum_toFinset f hnodup]

/-- One party and the others. -/
theorem add_sum_map_others (f : ℕ → M) {n p : ℕ} (h1 : 1 ≤ p) (hn : p ≤ n) :
    f p + ((others n p).map f).sum = ∑ i ∈ Finset.Icc 1 n, f i := by
  rw [sum_map_others, Finset.add_sum_erase _ f (Finset.mem_Icc.mpr ⟨h1, hn⟩)]

/-- A sum over all parties, of a sum over the others, is the same from the other side. -/
theorem sum_sum_others_comm (f : ℕ → ℕ → M) (n : ℕ) :
    ∑ i ∈ Finset.Icc 1 n, ((others n i).map (fun j => f j i)).sum
      = ∑ i ∈ Finset.Icc 1 n, ((others n i).map (fun j => f i j)).sum := by
  simp only [sum_map_others]
  refine Finset.sum_comm' (fun i j => ?_)
  simp only [Finset.mem_erase]
  constructor
  · rintro ⟨hi, hne, hj⟩
    exact ⟨⟨hne.symm, hi⟩, hj⟩
  · rintro ⟨⟨hne, hi⟩, hj⟩
    exact ⟨hi, hne.symm, hj⟩

/-- **Products turned into sums**: with the masks `tag j i` added at one side and taken off at the
other, the parts of all parties sum to the product of the sums. -/
theorem sum_products {R : Type} [CommRing R] (a b : ℕ → R) (tag : ℕ → ℕ → R) (n : ℕ) :
    ∑ i ∈ Finset.Icc 1 n,
        (a i * b i + ((others n i).map (fun j => a i * b j + tag j i + (0 - tag i j))).sum)
      = (∑ i ∈ Finset.Icc 1 n, a i) * ∑ i ∈ Finset.Icc 1 n, b i := by
  have hmasks : ∑ i ∈ Finset.Icc 1 n, ((others n i).map (fun j => tag j i)).sum
      = ∑ i ∈ Finset.Icc 1 n, ((others n i).map (fun j => tag i j)).sum :=
    sum_sum_others_comm tag n
  have hpart : ∀ i ∈ Finset.Icc 1 n,
      a i * b i + ((others n i).map (fun j => a i * b j + tag j i + (0 - tag i j))).sum
        = a i * (∑ j ∈ Finset.Icc 1 n, b j) + ((others n i).map (fun j => tag j i)).sum
          - ((others n i).map (fun j => tag i j)).sum := by
    intro i hi
    obtain ⟨h1, hn⟩ := Finset.mem_Icc.mp hi
    rw [← add_sum_map_others b h1 hn]
    simp only [sum_map_others, Finset.sum_add_distrib, Finset.sum_sub_distrib,
      Finset.sum_const_zero, Finset.mul_sum, mul_add]
    ring
  rw [Finset.sum_congr rfl hpart, Finset.sum_sub_distrib, Finset.sum_add_distrib, hmasks,
    ← Finset.sum_mul]
  ring

/-! ## Loops over the parties -/

/-- `for i in 1..=n` with the counter `j` of the parties other than `p`: `own` runs at `p` and
`other` elsewhere, with `i` and `j`. -/
def forOthers (n p : ℕ) (own : β → Except ε β) (other : β → ℕ → ℕ → Except ε β) (init : β) :
    Except ε β := do
  let r ← (List.range' 1 n).foldlM (fun (acc : β × ℕ) i =>
    if i = p then do
      let b ← own acc.1
      return (b, acc.2)
    else do
      let b ← other acc.1 i acc.2
      return (b, acc.2 + 1)) (init, 0)
  return r.1

/-- One turn of the loop. -/
def turn (p : ℕ) (own : β → Except ε β) (other : β → ℕ → ℕ → Except ε β) (acc : β × ℕ) (i : ℕ) :
    Except ε (β × ℕ) :=
  if i = p then do
    let b ← own acc.1
    return (b, acc.2)
  else do
    let b ← other acc.1 i acc.2
    return (b, acc.2 + 1)

section Turn

variable (own : β → Except ε β) (other : β → ℕ → ℕ → Except ε β) (acc : β × ℕ)

theorem turn_self (p : ℕ) :
    turn p own other acc p = own acc.1 >>= fun b => pure (b, acc.2) := if_pos rfl

theorem turn_of_ne {p i : ℕ} (h : i ≠ p) :
    turn p own other acc i = other acc.1 i acc.2 >>= fun b => pure (b, acc.2 + 1) := if_neg h

end Turn

theorem forOthers_eq (n p : ℕ) (own : β → Except ε β) (other : β → ℕ → ℕ → Except ε β) (init : β) :
    forOthers n p own other init =
      (List.range' 1 n).foldlM (turn p own other) (init, 0) >>= fun r => pure r.1 := rfl

/-- The place of a party among all parties. -/
theorem length_of_append {n i : ℕ} {pre post : List ℕ} (h : pre ++ i :: post = List.range' 1 n) :
    pre.length + 1 = i := by
  have hlt : pre.length < n := by
    have hlen := congrArg List.length h
    rw [List.length_append, List.length_cons, List.length_range'] at hlen
    omega
  have hget : (List.range' 1 n)[pre.length]? = some i := by
    rw [← h, List.getElem?_append_right (le_refl _), Nat.sub_self, List.getElem?_cons_zero]
  rw [List.getElem?_range' hlt, one_mul, Option.some_inj] at hget
  omega

/-- The place of a party among the others. -/
theorem getElem?_others {n p i : ℕ} {pre post : List ℕ} (h : pre ++ i :: post = List.range' 1 n)
    (hi : i ≠ p) : (others n p)[(pre.filter (· ≠ p)).length]? = some i := by
  rw [others, ← h, List.filter_append, List.getElem?_append_right (le_refl _), Nat.sub_self,
    List.filter_cons_of_pos (by simpa using hi), List.getElem?_cons_zero]

/-- The place of a party among the others is the number of those before it. -/
theorem getElem?_others_length {n p i : ℕ} (hi : i ∈ others n p) :
    (others n p)[(others (i - 1) p).length]? = some i := by
  obtain ⟨⟨h1, hn⟩, hne⟩ := mem_others.mp hi
  have hcons : List.range' i (n - i + 1) = i :: List.range' (i + 1) (n - i) := List.range'_succ
  have hsplit : List.range' 1 (i - 1) ++ List.range' (1 + (i - 1)) (n - i + 1) =
      List.range' 1 (i - 1 + (n - i + 1)) := List.range'_append_1
  have hstart : 1 + (i - 1) = i := by omega
  have hall : i - 1 + (n - i + 1) = n := by omega
  rw [hstart, hcons, hall] at hsplit
  exact getElem?_others hsplit hne

/-- **Loop rule**: `st pre` is the state after the parties `pre`; the counter at another party is
its place among the others. -/
theorem forOthers_outcome {n p : ℕ} {own : β → Except ε β} {other : β → ℕ → ℕ → Except ε β}
    {E : ε → Prop} (st : List ℕ → β)
    (hown : ∀ pre post, pre ++ p :: post = List.range' 1 n →
      Outcome (own (st pre)) (· = st (pre ++ [p])) E)
    (hother : ∀ pre post i j, pre ++ i :: post = List.range' 1 n → i ≠ p →
      (others n p)[j]? = some i → Outcome (other (st pre) i j) (· = st (pre ++ [i])) E) :
    Outcome (forOthers n p own other (st [])) (· = st (List.range' 1 n)) E := by
  -- the parties still to come, after those of `pre`
  have hrun : ∀ post pre, pre ++ post = List.range' 1 n →
      Outcome (post.foldlM (turn p own other) (st pre, (pre.filter (· ≠ p)).length))
        (· = (st (List.range' 1 n), (others n p).length)) E := by
    intro post
    induction post with
    | nil =>
      intro pre hpre
      rw [List.append_nil] at hpre
      rw [others, ← hpre]
      exact outcome_ok rfl
    | cons i post ih =>
      intro pre hpre
      have hnext := ih (pre ++ [i]) (by rw [List.append_assoc]; exact hpre)
      rw [List.foldlM_cons]
      by_cases hi : i = p
      · subst hi
        rw [turn_self]
        refine Outcome.bind_eq (a := (st (pre ++ [i]), (pre.filter (· ≠ i)).length)) ?_ ?_
        · refine (hown pre post hpre).bind_eq ?_
          exact outcome_ok rfl
        · simpa using hnext
      · have hplace := getElem?_others hpre hi
        rw [turn_of_ne own other _ hi]
        refine Outcome.bind_eq (a := (st (pre ++ [i]), (pre.filter (· ≠ p)).length + 1)) ?_ ?_
        · refine (hother pre post i _ hpre hi hplace).bind_eq ?_
          exact outcome_ok rfl
        · simpa [hi] using hnext
  have h := hrun (List.range' 1 n) [] rfl
  rw [forOthers_eq]
  simp only [List.filter_nil, List.length_nil] at h
  exact h.bind_eq (outcome_ok rfl)

/-- **Inversion**: the turn of every other party of a loop that returns has returned. -/
theorem exists_ok_of_forOthers {n p : ℕ} {own : β → Except ε β} {other : β → ℕ → ℕ → Except ε β}
    {init b : β} (h : forOthers n p own other init = .ok b) {i : ℕ} (hi : i ∈ others n p) :
    ∃ j acc b', (others n p)[j]? = some i ∧ other acc i j = .ok b' := by
  rw [forOthers_eq] at h
  obtain ⟨r, hr, -⟩ := bind_eq_ok.mp h
  -- the parties still to come, after those of `pre`
  have hrun : ∀ post pre acc, pre ++ post = List.range' 1 n →
      post.foldlM (turn p own other) (acc, (pre.filter (· ≠ p)).length) = .ok r →
      ∀ k ∈ post, k ≠ p → ∃ j acc b', (others n p)[j]? = some k ∧ other acc k j = .ok b' := by
    intro post
    induction post with
    | nil => exact fun pre acc _ _ k hk _ => absurd hk List.not_mem_nil
    | cons a post ih =>
      intro pre acc hpre hok
      have hnext : pre ++ [a] ++ post = List.range' 1 n := by
        rw [List.append_assoc]
        exact hpre
      obtain ⟨acc', hturn, hok⟩ := foldlM_cons_eq_ok.mp hok
      by_cases ha : a = p
      · rw [ha, turn_self, bind_eq_ok] at hturn
        obtain ⟨b', -, hturn⟩ := hturn
        cases hturn
        rw [← filter_ne_concat_self pre p, ← ha] at hok
        rw [ha] at hnext hok
        intro k hk hne
        rcases List.mem_cons.mp hk with rfl | hk
        · exact absurd ha hne
        · exact ih (pre ++ [p]) b' hnext hok k hk hne
      · rw [turn_of_ne own other _ ha, bind_eq_ok] at hturn
        obtain ⟨b', hb, hturn⟩ := hturn
        cases hturn
        have hplace := getElem?_others hpre ha
        have hlen : (pre.filter (· ≠ p)).length + 1 = ((pre ++ [a]).filter (· ≠ p)).length := by
          rw [filter_ne_concat ha, List.length_append, List.length_singleton]
        rw [hlen] at hok
        intro k hk hne
        rcases List.mem_cons.mp hk with rfl | hk
        · exact ⟨_, _, _, hplace, hb⟩
        · exact ih (pre ++ [a]) b' hnext hok k hk hne
  obtain ⟨hmem, hne⟩ := mem_others.mp hi
  exact hrun (List.range' 1 n) [] init rfl hr i (mem_range'_one.mpr hmem) hne

/-- **Invariant rule**: what every turn that returns preserves holds after a loop that returns. -/
theorem forOthers_rule {n p : ℕ} {own : β → Except ε β} {other : β → ℕ → ℕ → Except ε β}
    {init b : β} (I : List ℕ → β → Prop) (h0 : I [] init)
    (hown : ∀ pre b b', I pre b → own b = .ok b' → I (pre ++ [p]) b')
    (hother : ∀ pre i j b b', i ∈ others n p → (others n p)[j]? = some i → I pre b →
      other b i j = .ok b' → I (pre ++ [i]) b')
    (h : forOthers n p own other init = .ok b) : I (List.range' 1 n) b := by
  rw [forOthers_eq] at h
  obtain ⟨r, hr, h⟩ := bind_eq_ok.mp h
  cases h
  have hrun : ∀ post pre acc, pre ++ post = List.range' 1 n → I pre acc →
      post.foldlM (turn p own other) (acc, (pre.filter (· ≠ p)).length) = .ok r →
      I (List.range' 1 n) r.1 := by
    intro post
    induction post with
    | nil =>
      intro pre acc hpre hI hok
      cases hok
      rw [List.append_nil] at hpre
      rw [← hpre]
      exact hI
    | cons i post ih =>
      intro pre acc hpre hI hok
      have hnext : pre ++ [i] ++ post = List.range' 1 n := by
        rw [List.append_assoc]
        exact hpre
      obtain ⟨acc', hturn, hok⟩ := foldlM_cons_eq_ok.mp hok
      by_cases hi : i = p
      · subst hi
        rw [turn_self, bind_eq_ok] at hturn
        obtain ⟨b', hb, hturn⟩ := hturn
        cases hturn
        rw [← filter_ne_concat_self pre i] at hok
        exact ih (pre ++ [i]) b' hnext (hown pre acc b' hI hb) hok
      · rw [turn_of_ne own other _ hi, bind_eq_ok] at hturn
        obtain ⟨b', hb, hturn⟩ := hturn
        cases hturn
        have hplace := getElem?_others hpre hi
        have hlen : (pre.filter (· ≠ p)).length + 1 = ((pre ++ [i]).filter (· ≠ p)).length := by
          rw [filter_ne_concat hi, List.length_append, List.length_singleton]
        rw [hlen] at hok
        exact ih (pre ++ [i]) b' hnext
          (hother pre i _ acc b' (List.mem_of_getElem? hplace) hplace hI hb) hok
  exact hrun (List.range' 1 n) [] init rfl h0 hr

/-- The invariant rule where the party itself is skipped. -/
theorem forOthers_skip_rule {n p : ℕ} {other : β → ℕ → ℕ → Except ε β} {init b : β}
    (I : List ℕ → β → Prop) (h0 : I [] init)
    (hother : ∀ pre i j b b', i ∈ others n p → (others n p)[j]? = some i → I pre b →
      other b i j = .ok b' → I (pre ++ [i]) b')
    (h : forOthers n p .ok other init = .ok b) : I (others n p) b := by
  refine forOthers_rule (fun pre => I (pre.filter (· ≠ p))) h0 (fun pre b b' hI hown => ?_)
    (fun pre i j b b' hi hj hI hok => ?_) h
  · cases hown
    rw [filter_ne_concat_self]
    exact hI
  · rw [filter_ne_concat (mem_others.mp hi).2]
    exact hother _ i j b b' hi hj hI hok

/-- The loop rule where every turn returns. -/
theorem forOthers_eq_ok {n p : ℕ} {own : β → Except ε β} {other : β → ℕ → ℕ → Except ε β}
    (st : List ℕ → β) (hown : ∀ pre, own (st pre) = .ok (st (pre ++ [p])))
    (hother : ∀ pre i j, i ≠ p → (others n p)[j]? = some i →
      other (st pre) i j = .ok (st (pre ++ [i]))) :
    forOthers n p own other (st []) = .ok (st (List.range' 1 n)) :=
  (forOthers_outcome st (fun pre _ _ => .of_eq_ok (hown pre))
    (fun pre _ i j _ hi hj => .of_eq_ok (hother pre i j hi hj))).eq_ok (fun _ hE => hE)

/-- The loop rule where the party itself is skipped. -/
theorem forOthers_skip_eq_ok {n p : ℕ} {other : β → ℕ → ℕ → Except ε β} (st : List ℕ → β)
    (hother : ∀ pre i j, (others n p)[j]? = some i → other (st pre) i j = .ok (st (pre ++ [i]))) :
    forOthers n p .ok other (st []) = .ok (st (others n p)) := by
  refine forOthers_eq_ok (fun pre => st (pre.filter (· ≠ p))) (fun pre => ?_)
    (fun pre i j hi hj => ?_)
  · rw [filter_ne_concat_self]
  · rw [hother _ i j hj, filter_ne_concat hi]

/-! ## Boards and rounds -/

/-- A board with one entry of every party, read at a party. -/
theorem lookup_board (m : ℕ → α) {l : List ℕ} {i : ℕ} (hi : i ∈ l) :
    (l.map (fun i => (i, m i))).lookup i = some (m i) := by
  induction l with
  | nil => cases hi
  | cons a l ih =>
    rw [List.map_cons, List.lookup_cons]
    by_cases ha : i = a
    · subst ha
      rw [beq_self_eq_true]
    · rw [beq_eq_false_iff_ne.mpr ha]
      exact ih ((List.mem_cons.mp hi).resolve_left ha)

section Sync

variable {Pt V W : Type}

/-- One round: every party posts an entry under its number, reads the board and goes on. -/
def syncRound (num : Pt → ℕ) (post : Pt → V → α) (read : List (ℕ × α) → Pt → Except ε β)
    (next : Pt → V → β → Except ε W) (parties : List (Pt × V)) : Except ε (List (Pt × W)) := do
  let board := parties.map (fun (p, v) => (num p, post p v))
  parties.mapM (fun (p, v) => do
    let ansVec ← read board p
    let w ← next p v ansVec
    return (p, w))

/-- **A round of the parties `1, …, n`**, each of which reads the entries meant for it. -/
theorem syncRound_outcome {num : Pt → ℕ} {post : Pt → V → α}
    {read : List (ℕ × α) → Pt → Except ε β} {next : Pt → V → β → Except ε W} {n : ℕ}
    {party : ℕ → Pt} {v : ℕ → V} {m : ℕ → α} {ans : ℕ → β} {w : ℕ → W} {E : ε → Prop}
    (hnum : ∀ i, num (party i) = i) (hpost : ∀ i, 1 ≤ i → i ≤ n → post (party i) (v i) = m i)
    (hread : ∀ i, 1 ≤ i → i ≤ n →
      read ((List.range' 1 n).map (fun i => (i, m i))) (party i) = .ok (ans i))
    (hnext : ∀ i, 1 ≤ i → i ≤ n → Outcome (next (party i) (v i) (ans i)) (· = w i) E) :
    Outcome (syncRound num post read next ((List.range' 1 n).map (fun i => (party i, v i))))
      (· = (List.range' 1 n).map (fun i => (party i, w i))) E := by
  have hboard : (List.range' 1 n).map (fun i => (num (party i), post (party i) (v i)))
      = (List.range' 1 n).map (fun i => (i, m i)) := by
    refine List.map_congr_left (fun i hi => ?_)
    obtain ⟨h1, hn⟩ := mem_range'_one.mp hi
    rw [hnum, hpost i h1 hn]
  rw [syncRound, List.map_map, List.mapM_map]
  simp only [Function.comp_def]
  rw [hboard]
  refine Outcome.mapM_map (fun i hi => ?_)
  obtain ⟨h1, hn⟩ := mem_range'_one.mp hi
  rw [hread i h1 hn, ok_bind]
  exact (hnext i h1 hn).bind_eq (outcome_ok rfl)

/-- Every party of a round that ends has gone on. -/
theorem exists_ok_of_syncRound {num : Pt → ℕ} {post : Pt → V → α}
    {read : List (ℕ × α) → Pt → Except ε β} {next : Pt → V → β → Except ε W}
    {parties : List (Pt × V)} {r : List (Pt × W)}
    (h : syncRound num post read next parties = .ok r) {p : Pt} {v : V} (hp : (p, v) ∈ parties) :
    ∃ ansVec w, read (parties.map (fun pv => (num pv.1, post pv.1 pv.2))) p = .ok ansVec ∧
      next p v ansVec = .ok w := by
  obtain ⟨b, hb⟩ := exists_ok_of_mapM h (p, v) hp
  obtain ⟨ansVec, hread, hb⟩ := bind_eq_ok.mp hb
  obtain ⟨w, hw, -⟩ := bind_eq_ok.mp hb
  exact ⟨ansVec, w, hread, hw⟩

/-- Whatever comes out of a round is what some party has read the board and gone on to. -/
theorem exists_of_syncRound {num : Pt → ℕ} {post : Pt → V → α}
    {read : List (ℕ × α) → Pt → Except ε β} {next : Pt → V → β → Except ε W}
    {parties : List (Pt × V)} {r : List (Pt × W)}
    (h : syncRound num post read next parties = .ok r) {p : Pt} {w : W} (hp : (p, w) ∈ r) :
    ∃ v ansVec, (p, v) ∈ parties ∧
      read (parties.map (fun pv => (num pv.1, post pv.1 pv.2))) p = .ok ansVec ∧
      next p v ansVec = .ok w := by
  obtain ⟨⟨p', v⟩, hmem, hb⟩ := exists_mem_of_mapM h hp
  obtain ⟨ansVec, hread, hb⟩ := bind_eq_ok.mp hb
  obtain ⟨w', hw, hb⟩ := bind_eq_ok.mp hb
  cases hb
  exact ⟨v, ansVec, hmem, hread, hw⟩

/-- **A round that ends**, among the parties `1, …, n`: each has read the board and gone on. -/
theorem exists_map_of_syncRound {num : Pt → ℕ} {post : Pt → V → α}
    {read : List (ℕ × α) → Pt → Except ε β} {next : Pt → V → β → Except ε W} {n : ℕ} (hn : 1 ≤ n)
    {party : ℕ → Pt} {v : ℕ → V} {r : List (Pt × W)} (hnum : ∀ i, num (party i) = i)
    (h : syncRound num post read next ((List.range' 1 n).map (fun i => (party i, v i))) = .ok r) :
    ∃ w : ℕ → W, r = (List.range' 1 n).map (fun i => (party i, w i)) ∧ ∀ i, 1 ≤ i → i ≤ n →
      ∃ ansVec, read ((List.range' 1 n).map (fun i => (i, post (party i) (v i)))) (party i) =
        .ok ansVec ∧ next (party i) (v i) ansVec = .ok (w i) := by
  rw [syncRound, List.map_map, List.mapM_map] at h
  simp only [Function.comp_def, hnum] at h
  have hne : List.range' 1 n ≠ [] := List.ne_nil_of_length_pos (by rw [List.length_range']; omega)
  obtain ⟨g, rfl, hg⟩ := exists_map_of_mapM h hne
  have hstep : ∀ i, 1 ≤ i → i ≤ n → (g i).1 = party i ∧ ∃ ansVec,
      read ((List.range' 1 n).map (fun i => (i, post (party i) (v i)))) (party i) = .ok ansVec ∧
        next (party i) (v i) ansVec = .ok (g i).2 := by
    intro i h1 hi
    obtain ⟨ansVec, hread, hturn⟩ := bind_eq_ok.mp (hg i (mem_range'_one.mpr ⟨h1, hi⟩))
    obtain ⟨w, hw, hturn⟩ := bind_eq_ok.mp hturn
    have heq : (party i, w) = g i := Except.ok.inj hturn
    rw [← heq]
    exact ⟨rfl, ansVec, hread, hw⟩
  refine ⟨fun i => (g i).2, List.map_congr_left (fun i hi => ?_), fun i h1 hi => (hstep i h1 hi).2⟩
  obtain ⟨h1, hin⟩ := mem_range'_one.mp hi
  exact Prod.ext (hstep i h1 hin).1 rfl

end Sync

end VDexNode
