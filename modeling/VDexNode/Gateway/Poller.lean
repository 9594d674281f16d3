import VDexNode.Gateway.Deposits

/-!
# VDexNode.Gateway.Poller — the loop of the gateway

`main` fetches the deposits of each supported currency in turn, for ever.  An exception in one call
ends the turn; the next turn is that of the gateway started again.

* `behind_turn` : a turn that comes to its end reads a page of every currency.
* `blocked_step` : a currency whose page has an id of another currency stays so.
* `poller_catches_up` : **with enough turns every deposit is recorded, if no two currencies share an
  id; if two do, all turns fail from then on.**
-/

namespace VDexNode.Gateway

/-! ## The loop -/

/-- The `colateral_name` of each of the `supported_currencies`. -/
def supportedCurrencies : List String := ["VBTC", "VETH"]

/-- `for currency in supported_currencies.values()`: an exception leaves the loop. -/
def fetchAll (w : World) : List String → World × Except String Unit
  | [] => (w, .ok ())
  | currency :: rest =>
    match fetchNewDeposits w.chain w.db currency with
    | (db, .ok ()) => fetchAll { w with db } rest
    | (db, .error e) => ({ w with db }, .error e)

/-- A deposit is made on the chain, or the loop makes a turn. -/
inductive Activity where
  | deposit (currency : String) (d : Deposit)
  | turn
deriving DecidableEq

/-- One activity, and how the turn ended. -/
def turnStep (w : World) : Activity → Except String (World × List (Except String Unit))
  | .deposit currency d => do
    let (w, _) ← step w (.deposit currency d)
    return (w, [])
  | .turn =>
    let (w, result) := fetchAll w supportedCurrencies
    .ok (w, [result])

/-! ## One call -/

/-- The world after a call for the currency. -/
def World.fetched (w : World) (currency : String) : World :=
  { w with db := (fetchNewDeposits w.chain w.db currency).1 }

/-- A call for the currency fails: a row of its page has the id of one recorded for another. -/
def Blocked (w : World) (currency : String) : Prop :=
  ∃ d ∈ page w currency, ∃ other, other ≠ currency ∧
    ∃ d' ∈ (w.chain other).rows, (d'.id : ℤ) ≤ w.db.lastRowRead other ∧ d'.id = d.id

/-- The deposits up to `d` that the cursor has not passed. -/
def behind (w : World) (currency : String) (d : Deposit) : ℕ :=
  ((w.chain currency).rows.filter
    (fun r => decide (w.db.lastRowRead currency < r.id ∧ r.id ≤ d.id))).length

section Call

variable {w : World} {c currency : String}

theorem Recorded.fetch_result (h : Recorded w) :
    (fetchNewDeposits w.chain w.db currency).2 = .ok () ↔ ¬ Blocked w currency := by
  have hdistinct : Distinct w (.fetch currency) ↔ ¬ Blocked w currency := by
    simp only [Distinct, Blocked, not_exists, not_and, ne_eq]
  rw [← hdistinct, ← h.records_iff]
  exact ⟨fun hok => ⟨hok, h.fetch.upToDate⟩, fun hrecords => hrecords.1⟩

/-- A call that fails leaves the cursors. -/
theorem Recorded.cursors_of_blocked (h : Recorded w) (hblocked : Blocked w currency) (c : String) :
    (w.fetched currency).db.lastRowRead c = w.db.lastRowRead c := by
  cases hsaved : Gateway.saved w currency with
  | error e => exact (fetch_error h.keyed hsaved).2.2.2 c
  | ok t => exact absurd hblocked (h.fetch_result.mp (fetch_ok h.keyed hsaved).1)

/-- A call that succeeds moves the cursor of its currency over the page. -/
theorem Recorded.cursors_of_not_blocked (h : Recorded w) (hfree : ¬ Blocked w currency)
    (c : String) : (w.fetched currency).db.lastRowRead c =
      if c = currency then newCursor (w.db.lastRowRead currency) (page w currency)
      else w.db.lastRowRead c := by
  cases hsaved : Gateway.saved w currency with
  | error e =>
    have hok := h.fetch_result.mpr hfree
    rw [(fetch_error h.keyed hsaved).1] at hok
    cases hok
  | ok t => exact (fetch_ok h.keyed hsaved).2.2.2 c

/-- A call moves no other cursor. -/
theorem Recorded.cursors_of_ne (h : Recorded w) (hc : c ≠ currency) :
    (w.fetched currency).db.lastRowRead c = w.db.lastRowRead c := by
  by_cases hblocked : Blocked w currency
  · exact h.cursors_of_blocked hblocked c
  · rw [h.cursors_of_not_blocked hblocked, if_neg hc]

/-- No call moves a cursor back. -/
theorem Recorded.cursors_le (h : Recorded w) (c : String) :
    w.db.lastRowRead c ≤ (w.fetched currency).db.lastRowRead c := by
  by_cases hblocked : Blocked w currency
  · rw [h.cursors_of_blocked hblocked c]
  · rw [h.cursors_of_not_blocked hblocked c]
    split_ifs with hc
    · subst hc
      rcases newCursor_cases (w.db.lastRowRead c) (page w c) with ⟨-, hcur⟩ | ⟨⟨d, hd, hcur⟩, -⟩
      · rw [hcur]
      · rw [hcur]
        exact (mem_page hd).2.le
    · exact le_refl _

/-! ## Progress -/

/-- Dropping from a list in order drops rows that satisfy `p` first. -/
theorem length_filter_drop_le {α : Type} {p : α → Bool} (n : ℕ) {l : List α}
    (hl : l.Pairwise (fun a b => p b = true → p a = true)) :
    ((l.drop n).filter p).length ≤ (l.filter p).length - n := by
  rw [← List.take_append_drop n l] at hl
  obtain ⟨-, -, hcross⟩ := List.pairwise_append.mp hl
  cases hrest : (l.drop n).filter p with
  | nil => exact Nat.zero_le _
  | cons b rest =>
    -- a row that is left satisfies `p`, and so do all that are dropped
    have hb : b ∈ (l.drop n).filter p := by
      rw [hrest]
      exact List.mem_cons_self
    obtain ⟨hmem, hp⟩ := List.mem_filter.mp hb
    have htaken : (l.take n).filter p = l.take n :=
      List.filter_eq_self.mpr (fun a ha => hcross a ha b hmem hp)
    have hlen : (l.take n).length = n := by
      have := List.length_pos_of_mem hmem
      rw [List.length_drop] at this
      rw [List.length_take]
      omega
    have hsplit : l.filter p = l.take n ++ (l.drop n).filter p := by
      conv_lhs => rw [← List.take_append_drop n l]
      rw [List.filter_append, htaken]
    rw [hsplit, List.length_append, hlen, hrest]
    omega

/-- A call that succeeds brings every deposit of its currency a page nearer. -/
theorem Recorded.behind_fetched (h : Recorded w) (hfree : ¬ Blocked w currency) (d : Deposit) :
    behind (w.fetched currency) currency d ≤ behind w currency d - depositFetchLimit := by
  have hcur := h.cursors_of_not_blocked hfree currency
  rw [if_pos rfl] at hcur
  have hpending : behind w currency d = (((w.chain currency).rows.filter (fun r =>
      decide (w.db.lastRowRead currency + 1 ≤ r.id))).filter (fun r => decide (r.id ≤ d.id))).length
      := by
    rw [List.filter_filter]
    refine congrArg List.length (List.filter_congr (fun r _ => ?_))
    rw [← Bool.decide_and, decide_eq_decide, Int.add_one_le_iff, and_comm]
  have hsorted : ((w.chain currency).rows.filter (fun r =>
      decide (w.db.lastRowRead currency + 1 ≤ r.id))).Pairwise (fun a b =>
        decide (b.id ≤ d.id) = true → decide (a.id ≤ d.id) = true) := by
    refine ((w.chain currency).sorted.filter _).imp (fun hlt hb => ?_)
    exact decide_eq_true (hlt.le.trans (of_decide_eq_true hb))
  rw [hpending]
  refine le_trans (List.Subperm.length_le (List.subperm_of_subset ?_ (fun r hr => ?_)))
    (length_filter_drop_le depositFetchLimit hsorted)
  · exact (w.chain currency).nodup_rows.filter _
  · obtain ⟨hrow, hbetween⟩ := List.mem_filter.mp hr
    obtain ⟨hpassed, hid⟩ := of_decide_eq_true hbetween
    rw [hcur] at hpassed
    -- a row that the new cursor has not passed is pending and not on the page
    have hnot := mt (le_newCursor_iff hrow).mpr (not_le.mpr hpassed)
    rw [not_or] at hnot
    have hmem : r ∈ (w.chain currency).rows.filter (fun r =>
        decide (w.db.lastRowRead currency + 1 ≤ r.id)) :=
      List.mem_filter.mpr ⟨hrow, decide_eq_true (by omega)⟩
    rw [← List.take_append_drop depositFetchLimit ((w.chain currency).rows.filter _)] at hmem
    exact List.mem_filter.mpr ⟨(List.mem_append.mp hmem).resolve_left hnot.2, decide_eq_true hid⟩

theorem behind_congr {w' : World} (hcur : w'.db.lastRowRead c = w.db.lastRowRead c)
    (hchain : w'.chain c = w.chain c) (d : Deposit) :
    behind w' c d = behind w c d := by
  unfold behind
  rw [hchain, hcur]

theorem Recorded.behind_fetched_le (h : Recorded w) (d : Deposit) :
    behind (w.fetched currency) c d ≤ behind w c d := by
  by_cases hc : c = currency
  · subst hc
    by_cases hblocked : Blocked w c
    · have hsame : behind (w.fetched c) c d = behind w c d :=
        behind_congr (h.cursors_of_blocked hblocked c) rfl d
      exact hsame.le
    · exact (h.behind_fetched hblocked d).trans (Nat.sub_le _ _)
  · have hsame : behind (w.fetched currency) c d = behind w c d :=
      behind_congr (h.cursors_of_ne hc) rfl d
    exact hsame.le

/-- A deposit with nothing pending up to it has been passed. -/
theorem passed_of_behind_eq_zero {d : Deposit} (hd : d ∈ (w.chain c).rows)
    (hzero : behind w c d = 0) : (d.id : ℤ) ≤ w.db.lastRowRead c := by
  by_contra hnot
  have hmem : d ∈ (w.chain c).rows.filter
      (fun r => decide (w.db.lastRowRead c < r.id ∧ r.id ≤ d.id)) :=
    List.mem_filter.mpr ⟨hd, decide_eq_true ⟨not_le.mp hnot, le_refl _⟩⟩
  rw [List.length_eq_zero_iff.mp hzero] at hmem
  cases hmem

/-! ## A failure stays -/

/-- No call frees a currency that is blocked. -/
theorem Blocked.fetched (h : Recorded w) (hblocked : Blocked w c) :
    Blocked (w.fetched currency) c := by
  obtain ⟨d, hd, other, hne, d', hd', hpassed, hid⟩ := hblocked
  have hsame : (w.fetched currency).db.lastRowRead c = w.db.lastRowRead c := by
    by_cases hc : c = currency
    · subst hc
      exact h.cursors_of_blocked ⟨d, hd, other, hne, d', hd', hpassed, hid⟩ c
    · exact h.cursors_of_ne hc
  refine ⟨d, ?_, other, hne, d', hd', hpassed.trans (h.cursors_le other), hid⟩
  unfold page
  rw [hsame]
  exact hd

/-- The world after a deposit. -/
def World.deposited (w : World) (currency : String) (d : Deposit) : World :=
  { w with chain := fun c => if c = currency then (w.chain c).put d else w.chain c }

theorem deposited_rows {d : Deposit} (hnew : ∀ r ∈ (w.chain currency).rows, r.id < d.id)
    (c : String) : ((w.deposited currency d).chain c).rows =
      if c = currency then (w.chain c).rows ++ [d] else (w.chain c).rows := by
  show (if c = currency then (w.chain c).put d else w.chain c).rows = _
  split_ifs with hc
  · subst hc
    exact Table.rows_put_last hnew
  · rfl

theorem mem_deposited {d r : Deposit} (hnew : ∀ r ∈ (w.chain currency).rows, r.id < d.id)
    (hr : r ∈ (w.chain c).rows) : r ∈ ((w.deposited currency d).chain c).rows := by
  rw [deposited_rows hnew c]
  split_ifs
  · exact List.mem_append_left _ hr
  · exact hr

/-- No deposit frees a currency that is blocked: what is on a page stays there. -/
theorem Blocked.deposited {x : Deposit} (hnew : ∀ r ∈ (w.chain currency).rows, r.id < x.id)
    (hblocked : Blocked w c) : Blocked (w.deposited currency x) c := by
  obtain ⟨d, hd, other, hne, d', hd', hpassed, hid⟩ := hblocked
  refine ⟨d, ?_, other, hne, d', mem_deposited hnew hd', hpassed, hid⟩
  show d ∈ (((w.deposited currency x).chain c).rows.filter _).take depositFetchLimit
  rw [deposited_rows hnew c]
  split_ifs
  · rw [List.filter_append, List.take_append]
    exact List.mem_append_left _ hd
  · exact hd

/-- A deposit is behind none that was there before. -/
theorem behind_deposited {x d : Deposit} (hnew : ∀ r ∈ (w.chain currency).rows, r.id < x.id)
    (hd : d ∈ (w.chain c).rows) : behind (w.deposited currency x) c d = behind w c d := by
  show (((w.deposited currency x).chain c).rows.filter _).length = _
  rw [deposited_rows hnew c]
  split_ifs with hc
  · subst hc
    have hafter : ¬ (w.db.lastRowRead c < x.id ∧ x.id ≤ d.id) :=
      fun h => absurd h.2 (not_le.mpr (hnew d hd))
    have hnil : [x].filter (fun r => decide (w.db.lastRowRead c < r.id ∧ r.id ≤ d.id)) = [] :=
      List.filter_cons_of_neg (fun h => hafter (of_decide_eq_true h))
    rw [List.filter_append]
    show (_ ++ [x].filter (fun r => decide (w.db.lastRowRead c < r.id ∧ r.id ≤ d.id))).length = _
    rw [hnil, List.append_nil]
    rfl
  · rfl

end Call

/-! ## Turns -/

section Turn

variable {w : World} {c : String}

/-- A call, and the rest of the turn unless it fails. -/
theorem fetchAll_cons (h : Recorded w) (currency : String) (rest : List String) :
    (¬ Blocked w currency ∧
      fetchAll w (currency :: rest) = fetchAll (w.fetched currency) rest) ∨
    (Blocked w currency ∧ ∃ e, fetchAll w (currency :: rest) = (w.fetched currency, .error e)) := by
  cases hresult : (fetchNewDeposits w.chain w.db currency).2 with
  | ok u =>
    refine Or.inl ⟨h.fetch_result.mp hresult, ?_⟩
    have hpair : fetchNewDeposits w.chain w.db currency =
        ((fetchNewDeposits w.chain w.db currency).1, .ok ()) := Prod.ext rfl hresult
    rw [fetchAll, hpair]
    rfl
  | error e =>
    refine Or.inr ⟨?_, e, ?_⟩
    · by_contra hfree
      rw [h.fetch_result.mpr hfree] at hresult
      cases hresult
    · have hpair : fetchNewDeposits w.chain w.db currency =
          ((fetchNewDeposits w.chain w.db currency).1, .error e) := Prod.ext rfl hresult
      rw [fetchAll, hpair]
      rfl

/-- What the calls of a turn keep, whether it comes to its end or not. -/
theorem recorded_fetchAll : ∀ {w : World} (currencies : List String), Recorded w →
    Recorded (fetchAll w currencies).1 ∧ (fetchAll w currencies).1.chain = w.chain ∧
      (∀ c ∉ currencies, (fetchAll w currencies).1.db.lastRowRead c = w.db.lastRowRead c) ∧
      (∀ c d, behind (fetchAll w currencies).1 c d ≤ behind w c d) ∧
      ∀ c, Blocked w c → Blocked (fetchAll w currencies).1 c
  | w, [], h => ⟨h, rfl, fun _ _ => rfl, fun _ _ => le_refl _, fun _ hblocked => hblocked⟩
  | w, currency :: rest, h => by
    have hfetched : Recorded (w.fetched currency) := h.fetch
    have hother : ∀ c, c ∉ currency :: rest →
        (w.fetched currency).db.lastRowRead c = w.db.lastRowRead c := fun c hc =>
      h.cursors_of_ne (fun heq => hc (heq ▸ List.mem_cons_self))
    rcases fetchAll_cons h currency rest with ⟨-, heq⟩ | ⟨-, e, heq⟩
    · obtain ⟨hrec, hchain, hcur, hbehind, hblocked⟩ := recorded_fetchAll rest hfetched
      rw [heq]
      refine ⟨hrec, hchain, fun c hc => ?_, fun c d => ?_, fun c hc => ?_⟩
      · exact (hcur c (fun hmem => hc (List.mem_cons_of_mem _ hmem))).trans (hother c hc)
      · exact (hbehind c d).trans (h.behind_fetched_le d)
      · exact hblocked c (hc.fetched h)
    · rw [heq]
      exact ⟨hfetched, rfl, hother, fun c d => h.behind_fetched_le d, fun c hc => hc.fetched h⟩

/-- A turn that comes to its end has read a page of every currency. -/
theorem behind_fetchAll : ∀ {w : World} (currencies : List String), Recorded w →
    (fetchAll w currencies).2 = .ok () → ∀ c ∈ currencies, ∀ d,
      behind (fetchAll w currencies).1 c d ≤ behind w c d - depositFetchLimit
  | _, [], _, _, _, hc, _ => absurd hc List.not_mem_nil
  | w, currency :: rest, h, hok, c, hc, d => by
    have hfetched : Recorded (w.fetched currency) := h.fetch
    rcases fetchAll_cons h currency rest with ⟨hfree, heq⟩ | ⟨-, e, heq⟩
    · rw [heq] at hok ⊢
      obtain ⟨-, -, -, hbehind, -⟩ := recorded_fetchAll rest hfetched
      by_cases hcur : c = currency
      · subst hcur
        exact (hbehind c d).trans (h.behind_fetched hfree d)
      · have hrest := (List.mem_cons.mp hc).resolve_left hcur
        exact (behind_fetchAll rest hfetched hok c hrest d).trans
          (Nat.sub_le_sub_right (h.behind_fetched_le d) _)
    · rw [heq] at hok
      cases hok

/-- A turn that fails leaves one of its currencies blocked. -/
theorem exists_blocked_of_fetchAll : ∀ {w : World} (currencies : List String), Recorded w →
    (fetchAll w currencies).2 ≠ .ok () → ∃ c ∈ currencies, Blocked (fetchAll w currencies).1 c
  | _, [], _, hfail => absurd rfl hfail
  | w, currency :: rest, h, hfail => by
    have hfetched : Recorded (w.fetched currency) := h.fetch
    rcases fetchAll_cons h currency rest with ⟨-, heq⟩ | ⟨hblocked, e, heq⟩
    · rw [heq] at hfail ⊢
      obtain ⟨c, hc, hblocked⟩ := exists_blocked_of_fetchAll rest hfetched hfail
      exact ⟨c, List.mem_cons_of_mem _ hc, hblocked⟩
    · rw [heq]
      exact ⟨currency, List.mem_cons_self, hblocked.fetched h⟩

/-- A turn with a blocked currency fails. -/
theorem fetchAll_of_blocked : ∀ {w : World} (currencies : List String), Recorded w →
    ∀ c ∈ currencies, Blocked w c → (fetchAll w currencies).2 ≠ .ok ()
  | _, [], _, _, hc, _ => absurd hc List.not_mem_nil
  | w, currency :: rest, h, c, hc, hblocked => by
    have hfetched : Recorded (w.fetched currency) := h.fetch
    rcases fetchAll_cons h currency rest with ⟨hfree, heq⟩ | ⟨-, e, heq⟩
    · rw [heq]
      have hrest := (List.mem_cons.mp hc).resolve_left (fun hcur => hfree (hcur ▸ hblocked))
      exact fetchAll_of_blocked rest hfetched c hrest (hblocked.fetched h)
    · rw [heq]
      exact fun hok => by cases hok

end Turn

/-! ## Runs of the loop -/

/-- The rows are recorded up to the cursors, and only supported currencies have been read. -/
structure Polled (w : World) : Prop extends Recorded w where
  unsupported : ∀ c ∉ supportedCurrencies, w.db.lastRowRead c = -1

/-- No two supported currencies share an id. -/
def DistinctIds (chain : Chain) : Prop :=
  ∀ c ∈ supportedCurrencies, ∀ c' ∈ supportedCurrencies, c ≠ c' →
    ∀ d ∈ (chain c).rows, ∀ d' ∈ (chain c').rows, d.id ≠ d'.id

theorem polled_init : Polled {} where
  toRecorded := recorded_init
  unsupported _ _ := rfl

section Runs

variable {w w₀ : World} {c : String}

theorem turnStep_cases {a : Activity} {w' : World} {out : List (Except String Unit)}
    (hs : turnStep w a = .ok (w', out)) :
    (∃ currency d, a = .deposit currency d ∧ (∀ r ∈ (w.chain currency).rows, r.id < d.id) ∧
      w' = w.deposited currency d ∧ out = []) ∨
    (a = .turn ∧ w' = (fetchAll w supportedCurrencies).1 ∧
      out = [(fetchAll w supportedCurrencies).2]) := by
  cases a with
  | deposit currency d =>
    obtain ⟨⟨w'', polls⟩, hdeposit, hs⟩ := bind_eq_ok.mp hs
    simp only [step] at hdeposit
    split_ifs at hdeposit with hnew
    cases hdeposit
    cases hs
    exact Or.inl ⟨currency, d, rfl, hnew, rfl, rfl⟩
  | turn =>
    cases hs
    exact Or.inr ⟨rfl, rfl, rfl⟩

/-- **Step lemma**: deposits and turns keep the invariant. -/
theorem polled_step {a : Activity} {w' : World} {out : List (Except String Unit)} (h : Polled w)
    (hs : turnStep w a = .ok (w', out)) : Polled w' := by
  rcases turnStep_cases hs with ⟨currency, d, -, hnew, rfl, -⟩ | ⟨-, rfl, -⟩
  · exact ⟨h.toRecorded.deposit hnew, h.unsupported⟩
  · obtain ⟨hrec, -, hcur, -, -⟩ := recorded_fetchAll supportedCurrencies h.toRecorded
    exact ⟨hrec, fun c hc => (hcur c hc).trans (h.unsupported c hc)⟩

/-- A currency that is blocked stays so, and its turns fail. -/
theorem blocked_step {a : Activity} {w' : World} {out : List (Except String Unit)}
    (h : Polled w) (hc : c ∈ supportedCurrencies) (hblocked : Blocked w c)
    (hs : turnStep w a = .ok (w', out)) : Blocked w' c ∧ ∀ r ∈ out, r ≠ .ok () := by
  rcases turnStep_cases hs with ⟨currency, d, -, hnew, rfl, rfl⟩ | ⟨-, rfl, rfl⟩
  · exact ⟨hblocked.deposited hnew, fun r hr => absurd hr List.not_mem_nil⟩
  · obtain ⟨-, -, -, -, hstay⟩ := recorded_fetchAll supportedCurrencies h.toRecorded
    refine ⟨hstay c hblocked, fun r hr => ?_⟩
    rw [List.mem_singleton.mp hr]
    exact fetchAll_of_blocked supportedCurrencies h.toRecorded c hc hblocked

/-- A currency is blocked by an id it shares with another one. -/
theorem Blocked.not_distinct (hblocked : Blocked w c) (h : Polled w)
    (hc : c ∈ supportedCurrencies) :
    ¬ DistinctIds w.chain := by
  obtain ⟨d, hd, other, hne, d', hd', hpassed, hid⟩ := hblocked
  have hother : other ∈ supportedCurrencies := by
    by_contra hnot
    rw [h.unsupported other hnot] at hpassed
    omega
  exact fun hdistinct => hdistinct other hother c hc hne d' hd' d (mem_page hd).1 hid

/-- Of two deposits with one id, not both have been passed. -/
theorem Polled.not_both_passed (h : Polled w) {c' : String} (hne : c ≠ c') {d d' : Deposit}
    (hd : d ∈ (w.chain c).rows) (hd' : d' ∈ (w.chain c').rows) (hid : d.id = d'.id)
    (hpassed : (d.id : ℤ) ≤ w.db.lastRowRead c) (hpassed' : (d'.id : ℤ) ≤ w.db.lastRowRead c') :
    False := by
  have hrow := (h.saved _).mpr ⟨c, d, hd, hpassed, rfl⟩
  have hrow' := (h.saved _).mpr ⟨c', d', hd', hpassed', rfl⟩
  have heq := w.db.accountDeposit.key_injOn hrow hrow' hid
  exact hne (congrArg AccountDeposit.currency heq)

/-- What a continuation of a run from `w₀` has come to: the deposits of `w₀` are nearer by a page
for every turn, unless a turn has failed and a currency is blocked. -/
structure Continued (w₀ w : World) (log : List (Except String Unit)) : Prop where
  polled : Polled w
  grows : ∀ c, ∀ d ∈ (w₀.chain c).rows, d ∈ (w.chain c).rows
  nearer : (∀ r ∈ log, r = .ok ()) → ∀ c ∈ supportedCurrencies, ∀ d ∈ (w₀.chain c).rows,
    behind w c d ≤ behind w₀ c d - depositFetchLimit * log.length
  failed : (∃ r ∈ log, r ≠ .ok ()) → ∃ c ∈ supportedCurrencies, Blocked w c

/-- **Step lemma** of a continuation. -/
theorem Continued.next {log out : List (Except String Unit)} (h : Continued w₀ w log)
    {a : Activity} {w' : World} (hs : turnStep w a = .ok (w', out)) :
    Continued w₀ w' (log ++ out) := by
  have hpolled := polled_step h.polled hs
  have hfailed : (∃ r ∈ log, r ≠ .ok ()) → ∃ c ∈ supportedCurrencies, Blocked w' c := by
    intro hlog
    obtain ⟨c, hc, hblocked⟩ := h.failed hlog
    exact ⟨c, hc, (blocked_step h.polled hc hblocked hs).1⟩
  rcases turnStep_cases hs with ⟨currency, d, -, hnew, rfl, rfl⟩ | ⟨-, rfl, rfl⟩
  · rw [List.append_nil]
    refine ⟨hpolled, fun c d hd => mem_deposited hnew (h.grows c d hd), fun hlog c hc d hd => ?_,
      hfailed⟩
    rw [behind_deposited hnew (h.grows c d hd)]
    exact h.nearer hlog c hc d hd
  · obtain ⟨-, hchain, -, -, -⟩ := recorded_fetchAll supportedCurrencies h.polled.toRecorded
    refine ⟨hpolled, fun c d hd => ?_, fun hlog c hc d hd => ?_, ?_⟩
    · rw [hchain]
      exact h.grows c d hd
    · obtain ⟨hlog, hlast⟩ := List.forall_mem_append.mp hlog
      have hpage := behind_fetchAll supportedCurrencies h.polled.toRecorded
        (hlast _ List.mem_cons_self) c hc d
      have hbefore := h.nearer hlog c hc d hd
      rw [List.length_append, List.length_singleton, Nat.mul_add, Nat.mul_one]
      omega
    · rintro ⟨r, hr, hfail⟩
      rcases List.mem_append.mp hr with hr | hr
      · exact hfailed ⟨r, hr, hfail⟩
      · rw [List.mem_singleton.mp hr] at hfail
        exact exists_blocked_of_fetchAll supportedCurrencies h.polled.toRecorded hfail

/-- Every turn is logged. -/
theorem length_log (w : World) (acts : List Activity) :
    (run turnStep w acts).2.length = acts.count .turn := by
  induction acts using List.reverseRecOn with
  | nil => rfl
  | append_singleton acts a ih =>
    rw [run_concat, List.count_append]
    cases hs : turnStep (run turnStep w acts).1 a with
    | error e =>
      rw [commit_of_error hs, ih]
      cases a with
      | deposit currency d => rfl
      | turn => cases hs
    | ok r =>
      obtain ⟨w', out⟩ := r
      rw [commit_of_ok hs, List.length_append, ih]
      rcases turnStep_cases hs with ⟨currency, d, rfl, -, -, rfl⟩ | ⟨rfl, -, rfl⟩
      · rfl
      · rfl

end Runs

/-- **The loop catches up, or is stuck.**  Let enough turns follow, with any deposits in between, to
read all the pages of the deposits there are.  If no two currencies share an id, all these turns
succeed and all these deposits are recorded; if two do, every turn after these fails. -/
theorem poller_catches_up (events more : List Activity)
    (hturns : ∀ c ∈ supportedCurrencies, ∀ d ∈ ((run turnStep {} events).1.chain c).rows,
      behind (run turnStep {} events).1 c d ≤ depositFetchLimit * more.count .turn) :
    let w := (run turnStep {} events).1
    let w' := (run turnStep w more).1
    (DistinctIds w'.chain → (∀ r ∈ (run turnStep w more).2, r = .ok ()) ∧
      ∀ c ∈ supportedCurrencies, ∀ d ∈ (w.chain c).rows,
        AccountDeposit.of c d ∈ w'.db.accountDeposit.rows) ∧
    (¬ DistinctIds w.chain → ∀ further : List Activity,
      ∀ r ∈ (run turnStep w' further).2, r ≠ .ok ()) := by
  intro w w'
  have hpolled : Polled w := run_invariant (fun w _ => Polled w) polled_init
    (fun _ _ _ _ _ h hs => polled_step h hs) events
  have hcontinued : Continued w w' (run turnStep w more).2 :=
    run_invariant (Continued w) ⟨hpolled, fun _ _ hd => hd, fun _ _ _ _ _ => Nat.le_refl _,
      fun ⟨_, hr, _⟩ => absurd hr List.not_mem_nil⟩ (fun _ _ _ _ _ h hs => h.next hs) more
  -- when no turn has failed, nothing is behind any more
  have hpassed : (∀ r ∈ (run turnStep w more).2, r = .ok ()) → ∀ c ∈ supportedCurrencies,
      ∀ d ∈ (w.chain c).rows, (d.id : ℤ) ≤ w'.db.lastRowRead c := by
    intro hlog c hc d hd
    have hnearer := hcontinued.nearer hlog c hc d hd
    rw [length_log] at hnearer
    refine passed_of_behind_eq_zero (hcontinued.grows c d hd) ?_
    exact Nat.le_zero.mp (hnearer.trans (Nat.sub_eq_zero_of_le (hturns c hc d hd)).le)
  refine ⟨fun hdistinct => ?_, fun hshared => ?_⟩
  · have hlog : ∀ r ∈ (run turnStep w more).2, r = .ok () := by
      by_contra hfail
      push Not at hfail
      obtain ⟨c, hc, hblocked⟩ := hcontinued.failed hfail
      exact hblocked.not_distinct hcontinued.polled hc hdistinct
    exact ⟨hlog, fun c hc d hd => (hcontinued.polled.saved _).mpr
      ⟨c, d, hcontinued.grows c d hd, hpassed hlog c hc d hd, rfl⟩⟩
  · have hfail : ∃ r ∈ (run turnStep w more).2, r ≠ .ok () := by
      by_contra hlog
      push Not at hlog
      refine hshared (fun c hc c' hc' hne d hd d' hd' hid => ?_)
      exact hcontinued.polled.not_both_passed hne (hcontinued.grows c d hd)
        (hcontinued.grows c' d' hd') hid (hpassed hlog c hc d hd) (hpassed hlog c' hc' d' hd')
    obtain ⟨c, hc, hblocked⟩ := hcontinued.failed hfail
    intro further
    have hstuck : Polled (run turnStep w' further).1 ∧ Blocked (run turnStep w' further).1 c ∧
        ∀ r ∈ (run turnStep w' further).2, r ≠ .ok () :=
      run_invariant (fun v (log : List (Except String Unit)) =>
          Polled v ∧ Blocked v c ∧ ∀ r ∈ log, r ≠ .ok ())
        ⟨hcontinued.polled, hblocked, fun _ hr => absurd hr List.not_mem_nil⟩
        (fun v log a v' out h hs => by
          obtain ⟨hstay, hout⟩ := blocked_step h.1 hc h.2.1 hs
          exact ⟨polled_step h.1 hs, hstay, List.forall_mem_append.mpr ⟨h.2.2, hout⟩⟩) further
    exact hstuck.2.2

/-- A deposit of each currency, under different ids. -/
def apartDeposits : List Activity :=
  [.deposit "VBTC" ⟨0, "alice", "1.00000000 VBTC", "aa"⟩,
    .deposit "VETH" ⟨1, "bob", "1.00000000 VETH", "bb"⟩]

/-- One turn records both. -/
theorem poller_catches_up_apart :
    AccountDeposit.of "VETH" ⟨1, "bob", "1.00000000 VETH", "bb"⟩ ∈
      (run turnStep (run turnStep {} apartDeposits).1 [.turn]).1.db.accountDeposit.rows := by
  have hturns : ∀ c ∈ supportedCurrencies, ∀ d ∈ ((run turnStep {} apartDeposits).1.chain c).rows,
      behind (run turnStep {} apartDeposits).1 c d ≤
        depositFetchLimit * [Activity.turn].count .turn := by decide
  have hdistinct : DistinctIds
      (run turnStep (run turnStep {} apartDeposits).1 [.turn]).1.chain := by
    unfold DistinctIds
    decide
  exact ((poller_catches_up apartDeposits [.turn] hturns).1 hdistinct).2 "VETH" (by decide) _
    (by decide)

end VDexNode.Gateway
