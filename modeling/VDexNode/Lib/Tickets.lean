import Mathlib.Algebra.Order.Group.Nat
import Mathlib.Algebra.Order.Ring.Nat
import Mathlib.Data.List.Induction

/-!
# VDexNode.Lib.Tickets — tickets in sessions of `n`

A dispenser hands out the numbers `1, …, n` of one session and then those of the next.  It keeps
the last ticket only.

* `ticket_succ` : **the `m`-th ticket, from zero, has number `m % n + 1` in session `m / n`.**
* `ticket_inj` : tickets are distinct.
* `exists_ticket_of_lt` : before a ticket of a later session, all numbers have been handed out.

Of a list of tickets as they were handed out, with no word on how sessions end, `Consecutive` says
that each has the number after those of its session before it.

* `Consecutive.inj` : such tickets are distinct.
* `Consecutive.exists_of_le` : up to the last, all numbers have been handed out.
-/

namespace VDexNode

/-- The ticket after `t`: a number and a session. -/
def nextTicket (n : ℕ) (t : ℕ × ℕ) : ℕ × ℕ := if t.1 < n then (t.1 + 1, t.2) else (1, t.2 + 1)

/-- The last of `m` tickets; before the first it has number zero. -/
def ticket (n : ℕ) : ℕ → ℕ × ℕ
  | 0 => (0, 0)
  | m + 1 => nextTicket n (ticket n m)

variable {n : ℕ}

theorem ticket_succ (hn : 1 ≤ n) (m : ℕ) : ticket n (m + 1) = (m % n + 1, m / n) := by
  induction m with
  | zero =>
    rw [Nat.zero_mod, Nat.zero_div]
    exact if_pos hn
  | succ m ih =>
    rw [ticket, ih, nextTicket]
    have hmod : m % n < n := Nat.mod_lt m hn
    have hm : n * (m / n) + m % n = m := Nat.div_add_mod m n
    by_cases hlt : m % n + 1 < n
    · rw [if_pos hlt]
      obtain ⟨hdiv, hmod'⟩ := (Nat.div_mod_unique (a := m + 1) (c := m % n + 1) (d := m / n) hn).mpr
        ⟨by omega, hlt⟩
      rw [hdiv, hmod']
    · rw [if_neg hlt]
      obtain ⟨hdiv, hmod'⟩ := (Nat.div_mod_unique (a := m + 1) (c := 0) (d := m / n + 1) hn).mpr
        ⟨by rw [mul_add, mul_one]; omega, hn⟩
      rw [hdiv, hmod']

theorem ticket_inj {m m' : ℕ} (hnum : m % n + 1 = m' % n + 1) (hses : m / n = m' / n) : m = m' := by
  have hm : n * (m / n) + m % n = m := Nat.div_add_mod m n
  have hm' : n * (m' / n) + m' % n = m' := Nat.div_add_mod m' n
  rw [hses] at hm
  omega

/-- The session of a ticket is not later than that of the last one. -/
theorem session_le (hn : 1 ≤ n) {m count : ℕ} (h : m < count) : m / n ≤ (ticket n count).2 := by
  obtain ⟨k, rfl⟩ := Nat.exists_eq_succ_of_ne_zero (Nat.ne_of_gt (Nat.zero_lt_of_lt h))
  rw [Nat.succ_eq_add_one, ticket_succ hn]
  exact Nat.div_le_div_right (Nat.lt_succ_iff.mp h)

/-- Before a ticket of a later session, every number of a session has been handed out. -/
theorem exists_ticket_of_lt {m m' i : ℕ} (hlt : m / n < m' / n) (h1 : 1 ≤ i) (hi : i ≤ n) :
    ∃ l, l < m' ∧ l % n + 1 = i ∧ l / n = m / n := by
  refine ⟨n * (m / n) + (i - 1), ?_, ?_, ?_⟩
  · have hnext : n * (m / n + 1) ≤ n * (m' / n) := Nat.mul_le_mul_left n hlt
    have hle : n * (m' / n) ≤ m' := Nat.mul_div_le m' n
    rw [mul_add, mul_one] at hnext
    omega
  · rw [Nat.mul_add_mod, Nat.mod_eq_of_lt (by omega)]
    omega
  · rw [Nat.mul_add_div (by omega), Nat.div_eq_of_lt (show i - 1 < n by omega), add_zero]

/-! ## Lists of tickets -/

section Consecutive

variable {α σ : Type} [DecidableEq σ] (session : α → σ) (number : α → ℕ)

/-- How many tickets of a session are in the list. -/
def countIn (l : List α) (s : σ) : ℕ := l.countP (fun t => decide (session t = s))

/-- Each ticket has the number after those of its session before it. -/
def Consecutive (l : List α) : Prop :=
  ∀ i t, l[i]? = some t → number t = countIn session (l.take i) (session t) + 1

variable {session number} {l : List α}

@[simp] theorem countIn_nil (s : σ) : countIn session [] s = 0 := rfl

theorem countIn_concat (l : List α) (t : α) (s : σ) :
    countIn session (l ++ [t]) s = countIn session l s + if session t = s then 1 else 0 := by
  rw [countIn, List.countP_append, List.countP_singleton]
  simp only [decide_eq_true_eq]
  rfl

theorem countIn_take_le {i j : ℕ} (h : i ≤ j) (l : List α) (s : σ) :
    countIn session (l.take i) s ≤ countIn session (l.take j) s :=
  (List.take_sublist_take_left h).countP_le

/-- A ticket is counted right after it. -/
theorem countIn_take_succ {i : ℕ} {t : α} (ht : l[i]? = some t) :
    countIn session (l.take (i + 1)) (session t) = countIn session (l.take i) (session t) + 1 := by
  rw [List.take_add_one, ht, Option.toList_some, countIn_concat, if_pos rfl]

theorem Consecutive.concat (h : Consecutive session number l) {t : α}
    (ht : number t = countIn session l (session t) + 1) :
    Consecutive session number (l ++ [t]) := by
  intro i u hu
  by_cases hi : i < l.length
  · rw [List.getElem?_append_left hi] at hu
    rw [List.take_append_of_le_length hi.le]
    exact h i u hu
  · have hlast : i = l.length := by
      have hlen := (List.getElem?_eq_some_iff.mp hu).1
      rw [List.length_append, List.length_singleton] at hlen
      omega
    rw [hlast, List.getElem?_append_right (le_refl _), Nat.sub_self] at hu
    cases hu
    rw [hlast, List.take_left]
    exact ht

theorem Consecutive.initial {t : α} (h : Consecutive session number (l ++ [t])) :
    Consecutive session number l := by
  intro i u hu
  have hi : i < l.length := (List.getElem?_eq_some_iff.mp hu).1
  have := h i u (by rw [List.getElem?_append_left hi, hu])
  rwa [List.take_append_of_le_length hi.le] at this

/-- **Tickets of one session are distinct.** -/
theorem Consecutive.inj (h : Consecutive session number l) {i j : ℕ} {t u : α}
    (ht : l[i]? = some t) (hu : l[j]? = some u) (hses : session t = session u)
    (hnum : number t = number u) : i = j := by
  have hlt : ∀ {i j : ℕ} {t u : α}, l[i]? = some t → l[j]? = some u → session t = session u →
      number t = number u → ¬ i < j := by
    intro i j t u ht hu hses hnum hij
    have hcount : countIn session (l.take (i + 1)) (session t) =
        countIn session (l.take i) (session t) + 1 := countIn_take_succ ht
    have hle : countIn session (l.take (i + 1)) (session t) ≤
        countIn session (l.take j) (session t) := countIn_take_le (Nat.succ_le_of_lt hij) l _
    have h₁ := h i t ht
    have h₂ := h j u hu
    rw [← hses] at h₂
    omega
  rcases Nat.lt_trichotomy i j with hij | hij | hij
  · exact absurd hij (hlt ht hu hses hnum)
  · exact hij
  · exact absurd hij (hlt hu ht hses.symm hnum.symm)

/-- A ticket's number is between one and the count of its session. -/
theorem Consecutive.le (h : Consecutive session number l) {t : α} (ht : t ∈ l) :
    1 ≤ number t ∧ number t ≤ countIn session l (session t) := by
  obtain ⟨i, hi⟩ := List.mem_iff_getElem?.mp ht
  have hnum := h i t hi
  have hcount : countIn session (l.take (i + 1)) (session t) =
      countIn session (l.take i) (session t) + 1 := countIn_take_succ hi
  have hle : countIn session (l.take (i + 1)) (session t) ≤ countIn session l (session t) :=
    (List.take_sublist _ _).countP_le
  omega

/-- **Up to the count of a session, all its numbers have been handed out.** -/
theorem Consecutive.exists_of_le (h : Consecutive session number l) {s : σ} {m : ℕ} (h1 : 1 ≤ m)
    (hm : m ≤ countIn session l s) : ∃ t ∈ l, session t = s ∧ number t = m := by
  induction l using List.reverseRecOn with
  | nil => exact absurd hm (by rw [countIn_nil]; omega)
  | append_singleton l t ih =>
    rw [countIn_concat] at hm
    by_cases hold : m ≤ countIn session l s
    · obtain ⟨u, hu, hses, hnum⟩ := ih h.initial hold
      exact ⟨u, List.mem_append_left _ hu, hses, hnum⟩
    · by_cases hses : session t = s
      · rw [if_pos hses] at hm
        have hlast := h l.length t (by
          rw [List.getElem?_append_right (le_refl _), Nat.sub_self, List.getElem?_cons_zero])
        rw [List.take_left, hses] at hlast
        exact ⟨t, List.mem_append_right _ (List.mem_singleton_self t), hses, by omega⟩
      · rw [if_neg hses] at hm
        omega

end Consecutive

end VDexNode
