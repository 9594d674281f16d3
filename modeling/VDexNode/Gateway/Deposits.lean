import VDexNode.Gateway.Model

/-!
# VDexNode.Gateway.Deposits — every deposit recorded once

Ids are unique within a currency; the primary key of `account_deposit` is the id alone.  Two
currencies whose tables share an id cannot both be read: the commit of the second page that has it
is rejected, and so is every later one of that currency.

* `Recorded` : the saved rows are those of the chain up to the cursors.  All events keep it.
* `records_iff_distinct` : **every call succeeds and records its currency up to its cursor exactly
  when no page has the id of a row recorded for another currency.**
-/

namespace VDexNode.Gateway

/-! ## What a call owes -/

/-- Every deposit of the currency up to its cursor is saved once, and none after it is. -/
def UpToDate (chain : Chain) (db : Db) (currency : String) : Prop :=
  ∀ d ∈ (chain currency).rows,
    db.accountDeposit.rows.count (AccountDeposit.of currency d) =
      if (d.id : ℤ) ≤ db.lastRowRead currency then 1 else 0

/-- A call succeeds and leaves its currency up to date. -/
def Records (w : World) : Event → Prop
  | .deposit _ _ => True
  | .fetch currency =>
    (fetchNewDeposits w.chain w.db currency).2 = .ok () ∧
      UpToDate w.chain (fetchNewDeposits w.chain w.db currency).1 currency

/-- The rows the next call for the currency reads. -/
def page (w : World) (currency : String) : List Deposit :=
  getTableRows w.chain currency (w.db.lastRowRead currency + 1)

/-- No row of the page has the id of a deposit of another currency that its cursor has passed. -/
def Distinct (w : World) : Event → Prop
  | .deposit _ _ => True
  | .fetch currency => ∀ d ∈ page w currency, ∀ other, other ≠ currency →
      ∀ d' ∈ (w.chain other).rows, (d'.id : ℤ) ≤ w.db.lastRowRead other → d'.id ≠ d.id

/-! ## Pages -/

section Page

variable {chain : Chain} {currency : String} {lastId : ℤ} {d : Deposit}

theorem mem_page (h : d ∈ getTableRows chain currency (lastId + 1)) :
    d ∈ (chain currency).rows ∧ lastId < d.id := by
  obtain ⟨hmem, hlow⟩ := List.mem_filter.mp (List.mem_of_mem_take h)
  exact ⟨hmem, Int.add_one_le_iff.mp (of_decide_eq_true hlow)⟩

theorem page_sorted (chain : Chain) (currency : String) (lowerBound : ℤ) :
    (getTableRows chain currency lowerBound).Pairwise (fun a b => a.id < b.id) :=
  ((chain currency).sorted.filter _).sublist (List.take_sublist _ _)

/-- The cursor after a page: the largest id on it, or the cursor before. -/
def newCursor (lastId : ℤ) (deposits : List Deposit) : ℤ :=
  ((deposits.map (fun d => (d.id : ℤ))).max?).getD lastId

theorem newCursor_cases (lastId : ℤ) (deposits : List Deposit) :
    (deposits = [] ∧ newCursor lastId deposits = lastId) ∨
      (∃ d ∈ deposits, newCursor lastId deposits = d.id) ∧
        ∀ d ∈ deposits, (d.id : ℤ) ≤ newCursor lastId deposits := by
  cases hmax : (deposits.map (fun d => (d.id : ℤ))).max? with
  | none =>
    rw [List.max?_eq_none_iff, List.map_eq_nil_iff] at hmax
    exact Or.inl ⟨hmax, by rw [newCursor, hmax]; rfl⟩
  | some m =>
    obtain ⟨hmem, hle⟩ := List.max?_eq_some_iff.mp hmax
    obtain ⟨d, hd, rfl⟩ := List.mem_map.mp hmem
    refine Or.inr ⟨⟨d, hd, by rw [newCursor, hmax]; rfl⟩, fun d' hd' => ?_⟩
    rw [newCursor, hmax]
    exact hle _ (List.mem_map_of_mem hd')

/-- The new cursor has passed the rows of the page, and those the old one had passed. -/
theorem le_newCursor_iff (hd : d ∈ (chain currency).rows) :
    (d.id : ℤ) ≤ newCursor lastId (getTableRows chain currency (lastId + 1)) ↔
      (d.id : ℤ) ≤ lastId ∨ d ∈ getTableRows chain currency (lastId + 1) := by
  rcases newCursor_cases lastId (getTableRows chain currency (lastId + 1)) with
    ⟨hnil, hcur⟩ | ⟨⟨m, hm, hcur⟩, hle⟩
  · rw [hcur, hnil]
    simp
  · constructor
    · intro hid
      by_cases hold : (d.id : ℤ) ≤ lastId
      · exact Or.inl hold
      · -- a row that the page leaves out comes after all of the page
        have hfilter : d ∈ (chain currency).rows.filter
            (fun d => decide (lastId + 1 ≤ d.id)) :=
          List.mem_filter.mpr ⟨hd, decide_eq_true (by omega)⟩
        rw [← List.take_append_drop depositFetchLimit ((chain currency).rows.filter _)] at hfilter
        rcases List.mem_append.mp hfilter with hpage | hrest
        · exact Or.inr hpage
        · have hsorted := (chain currency).sorted.filter (fun d => decide (lastId + 1 ≤ d.id))
          rw [← List.take_append_drop depositFetchLimit ((chain currency).rows.filter _)] at hsorted
          have hlt := (List.pairwise_append.mp hsorted).2.2 m hm d hrest
          omega
    · rintro (hold | hpage)
      · have := (mem_page hm).2
        omega
      · exact hle d hpage

end Page

/-! ## Inserts -/

/-- The rows of a page are all inserted when none of their keys exists, or none of them is. -/
theorem insertLoop_eq_ok : ∀ {rows : List AccountDeposit} {t : Table AccountDeposit.id},
    rows.Pairwise (fun a b => a.id < b.id) →
      ((∃ t', rows.foldlM insert t = .ok t') ↔ ∀ r ∈ rows, t.find r.id = none)
  | [], t, _ => ⟨fun _ _ hr => (List.not_mem_nil hr).elim, fun _ => ⟨t, rfl⟩⟩
  | row :: rows, t, hsorted => by
    obtain ⟨hfirst, hsorted⟩ := List.pairwise_cons.mp hsorted
    rw [List.forall_mem_cons]
    by_cases hnew : t.find row.id = none
    · have hinsert : insert t row = .ok (t.put row) := by rw [insert, if_pos hnew]
      have hother : ∀ r ∈ rows, (t.put row).find r.id = t.find r.id := by
        intro r hr
        rw [Table.find_put, if_neg (Nat.ne_of_gt (hfirst r hr))]
      rw [List.foldlM_cons, hinsert, ok_bind, insertLoop_eq_ok hsorted]
      constructor
      · exact fun h => ⟨hnew, fun r hr => (hother r hr).symm.trans (h r hr)⟩
      · exact fun h r hr => (hother r hr).trans (h.2 r hr)
    · rw [List.foldlM_cons, insert, if_neg hnew]
      constructor
      · rintro ⟨t', h⟩
        cases h
      · exact fun h => absurd h.1 hnew

/-- The table after a page: the rows before and those of the page. -/
theorem mem_insertLoop {rows : List AccountDeposit} : ∀ {t t' : Table AccountDeposit.id},
    rows.foldlM insert t = .ok t' → ∀ r, r ∈ t'.rows ↔ r ∈ t.rows ∨ r ∈ rows := by
  induction rows with
  | nil =>
    intro t t' h r
    cases h
    simp
  | cons row rows ih =>
    intro t t' h r
    obtain ⟨mid, hmid, h⟩ := foldlM_cons_eq_ok.mp h
    unfold insert at hmid
    split_ifs at hmid with hnew
    cases hmid
    rw [ih h r, Table.mem_put, List.mem_cons]
    constructor
    · rintro ((hr | ⟨hr, -⟩) | hr)
      · exact Or.inr (Or.inl hr)
      · exact Or.inl hr
      · exact Or.inr (Or.inr hr)
    · rintro (hr | hr | hr)
      · exact Or.inl (Or.inr ⟨hr, Table.find_eq_none.mp hnew r hr⟩)
      · exact Or.inl (Or.inl hr)
      · exact Or.inr hr

/-! ## Cursors -/

/-- There is at most one cursor for a currency. -/
def Keyed (db : Db) : Prop :=
  ∀ t ∈ db.gatewayTable.rows, ∀ t' ∈ db.gatewayTable.rows, t.currency = t'.currency → t = t'

section Cursor

variable {db : Db} {currency : String}

theorem tableObj_eq_some (hkeyed : Keyed db) {t : GatewayTable} :
    db.tableObj currency = some t ↔ t ∈ db.gatewayTable.rows ∧ t.currency = currency := by
  constructor
  · intro h
    exact ⟨List.mem_of_find?_eq_some h, of_decide_eq_true (List.find?_some h :)⟩
  · rintro ⟨hmem, rfl⟩
    cases hfind : db.tableObj t.currency with
    | none => exact absurd (decide_eq_true rfl) (List.find?_eq_none.mp hfind t hmem)
    | some t' =>
      have hcur : t'.currency = t.currency := of_decide_eq_true (List.find?_some hfind :)
      rw [hkeyed t' (List.mem_of_find?_eq_some hfind) t hmem hcur]

theorem tableObj_eq_none :
    db.tableObj currency = none ↔ ∀ t ∈ db.gatewayTable.rows, t.currency ≠ currency := by
  simp [Db.tableObj]

/-- A database whose table objects are those of `db`, but for one currency. -/
theorem lastRowRead_congr {db' : Db} (h : Keyed db) (h' : Keyed db') {c : String}
    (hsame : ∀ t : GatewayTable, t.currency = c →
      (t ∈ db'.gatewayTable.rows ↔ t ∈ db.gatewayTable.rows)) :
    db'.lastRowRead c = db.lastRowRead c := by
  have hobj : db'.tableObj c = db.tableObj c := by
    ext t
    rw [tableObj_eq_some h', tableObj_eq_some h]
    exact and_congr_left (fun hc => hsame t hc)
  rw [Db.lastRowRead, Db.lastRowRead, hobj]

/-- Moving the cursor of a currency moves no other. -/
theorem put_cursor (hkeyed : Keyed db) {t : GatewayTable} (ht : t ∈ db.gatewayTable.rows) (x : ℤ)
    (accountDeposit : Table AccountDeposit.id) :
    let db' : Db := { accountDeposit, gatewayTable :=
      db.gatewayTable.put { t with lastRowRead := x } }
    Keyed db' ∧ ∀ c, db'.lastRowRead c = if c = t.currency then x else db.lastRowRead c := by
  intro db'
  have hmem : ∀ u, u ∈ db'.gatewayTable.rows ↔
      u = { t with lastRowRead := x } ∨ u ∈ db.gatewayTable.rows ∧ u.id ≠ t.id :=
    fun u => Table.mem_put
  have hother : ∀ u, u ∈ db.gatewayTable.rows → u.id ≠ t.id → u.currency ≠ t.currency := by
    intro u hu hid hcur
    exact hid (by rw [hkeyed u hu t ht hcur])
  have hkeyed' : Keyed db' := by
    intro u hu u' hu' hcur
    rcases (hmem u).mp hu with rfl | ⟨hu, hid⟩ <;> rcases (hmem u').mp hu' with rfl | ⟨hu', hid'⟩
    · rfl
    · exact absurd hcur.symm (hother u' hu' hid')
    · exact absurd hcur (hother u hu hid)
    · exact hkeyed u hu u' hu' hcur
  refine ⟨hkeyed', fun c => ?_⟩
  by_cases hc : c = t.currency
  · have hobj : db'.tableObj c = some { t with lastRowRead := x } :=
      (tableObj_eq_some hkeyed').mpr ⟨(hmem _).mpr (Or.inl rfl), hc.symm⟩
    rw [if_pos hc, Db.lastRowRead, hobj]
    rfl
  · rw [if_neg hc]
    refine lastRowRead_congr hkeyed hkeyed' (fun u hu => ?_)
    rw [hmem]
    constructor
    · rintro (rfl | ⟨hu', -⟩)
      · exact absurd hu.symm hc
      · exact hu'
    · intro hu'
      refine Or.inr ⟨hu', fun hid => hc ?_⟩
      rw [← hu, db.gatewayTable.key_injOn hu' ht hid]

/-- The key of a new row is above all others. -/
theorem lt_nextId {R : Type} {key : R → ℕ} (t : Table key) (r : R) (hr : r ∈ t.rows) :
    key r < ((t.last (fun _ => true)).map (fun r => key r + 1)).getD 1 := by
  have hall : (t.filter (fun _ => true)).rows = t.rows := List.filter_true t.rows
  cases hlast : t.last (fun _ => true) with
  | none =>
    rw [Table.last, hall, List.getLast?_eq_none_iff] at hlast
    rw [hlast] at hr
    cases hr
  | some l =>
    rw [Table.last, hall] at hlast
    obtain ⟨rest, hrows⟩ := List.getLast?_eq_some_iff.mp hlast
    have hsorted := t.sorted
    rw [hrows] at hr hsorted
    show key r < key l + 1
    rcases List.mem_append.mp hr with hr | hr
    · have := (List.pairwise_append.mp hsorted).2.2 r hr l List.mem_cons_self
      omega
    · rw [List.mem_singleton.mp hr]
      omega

/-- The object of a currency: the one that is there, or a new one that has read nothing. -/
theorem ensureTable_spec (hkeyed : Keyed db) (currency : String) :
    let t := (db.ensureTable currency).1
    let db' := (db.ensureTable currency).2
    t.currency = currency ∧ t.lastRowRead = db.lastRowRead currency ∧
      t ∈ db'.gatewayTable.rows ∧ db'.accountDeposit = db.accountDeposit ∧ Keyed db' ∧
      ∀ c, db'.lastRowRead c = db.lastRowRead c := by
  cases hobj : db.tableObj currency with
  | some t =>
    obtain ⟨hmem, hcur⟩ := (tableObj_eq_some hkeyed).mp hobj
    have hlast : t.lastRowRead = db.lastRowRead currency := by
      rw [Db.lastRowRead, hobj]
      rfl
    have hens : db.ensureTable currency = (t, db) := by simp only [Db.ensureTable, hobj]
    rw [hens]
    exact ⟨hcur, hlast, hmem, rfl, hkeyed, fun _ => rfl⟩
  | none =>
    have hfree := tableObj_eq_none.mp hobj
    have hlast : db.lastRowRead currency = -1 := by
      rw [Db.lastRowRead, hobj]
      rfl
    obtain ⟨id, hid⟩ : ∃ id,
        id = ((db.gatewayTable.last (fun _ => true)).map (fun t => t.id + 1)).getD 1 := ⟨_, rfl⟩
    have hens : db.ensureTable currency = (⟨id, depositsTable, currency, -1⟩, { db with
        gatewayTable := db.gatewayTable.put ⟨id, depositsTable, currency, -1⟩ }) := by
      simp only [Db.ensureTable, hobj, hid]
    rw [hens]
    have hnew : ∀ u ∈ db.gatewayTable.rows, u.id ≠ id := fun u hu =>
      Nat.ne_of_lt ((lt_nextId db.gatewayTable u hu).trans_eq hid.symm)
    have hmem : ∀ u, u ∈ (db.gatewayTable.put ⟨id, depositsTable, currency, -1⟩).rows ↔
        u = ⟨id, depositsTable, currency, -1⟩ ∨ u ∈ db.gatewayTable.rows := by
      intro u
      rw [Table.mem_put]
      exact or_congr_right (and_iff_left_of_imp (fun hu => hnew u hu))
    have hkeyed' : Keyed { db with
        gatewayTable := db.gatewayTable.put ⟨id, depositsTable, currency, -1⟩ } := by
      intro u hu u' hu' hcur
      rcases (hmem u).mp hu with rfl | hu <;> rcases (hmem u').mp hu' with rfl | hu'
      · rfl
      · exact absurd hcur.symm (hfree u' hu')
      · exact absurd hcur (hfree u hu)
      · exact hkeyed u hu u' hu' hcur
    refine ⟨rfl, hlast.symm, (hmem _).mpr (Or.inl rfl), rfl, hkeyed', fun c => ?_⟩
    by_cases hc : c = currency
    · subst hc
      have hobj' := (tableObj_eq_some hkeyed').mpr
        ⟨(hmem ⟨id, depositsTable, c, -1⟩).mpr (Or.inl rfl), rfl⟩
      rw [hlast, Db.lastRowRead, hobj']
      rfl
    · refine lastRowRead_congr hkeyed hkeyed' (fun u hu => ?_)
      rw [hmem]
      exact or_iff_right (fun he => hc (by rw [← hu, he]))

end Cursor

/-! ## Calls -/

/-- The inserts of the next call for the currency. -/
def saved (w : World) (currency : String) : Except String (Table AccountDeposit.id) :=
  ((page w currency).map (AccountDeposit.of currency)).foldlM insert w.db.accountDeposit

section Calls

variable {w : World} {currency : String}

/-- A call whose rows are all inserted commits them with the new cursor. -/
theorem fetch_ok (hkeyed : Keyed w.db) {t : Table AccountDeposit.id}
    (hsaved : saved w currency = .ok t) :
    let out := fetchNewDeposits w.chain w.db currency
    out.2 = .ok () ∧ out.1.accountDeposit = t ∧ Keyed out.1 ∧ ∀ c, out.1.lastRowRead c =
      if c = currency then newCursor (w.db.lastRowRead currency) (page w currency)
      else w.db.lastRowRead c := by
  obtain ⟨hcur, hlast, hmem, hrows, hkeyed', hcursors⟩ := ensureTable_spec hkeyed currency
  rw [saved, page, ← hrows] at hsaved
  have hput := put_cursor hkeyed' hmem (newCursor (w.db.lastRowRead currency) (page w currency)) t
  have hout : fetchNewDeposits w.chain w.db currency =
      (⟨t, (w.db.ensureTable currency).2.gatewayTable.put { (w.db.ensureTable currency).1 with
        lastRowRead := newCursor (w.db.lastRowRead currency) (page w currency) }⟩, .ok ()) := by
    simp only [fetchNewDeposits, hlast, hsaved, page, newCursor]
  rw [hout]
  refine ⟨rfl, rfl, hput.1, fun c => ?_⟩
  rw [hput.2 c, hcur, hcursors c]

/-- A call one of whose rows is rejected saves nothing and leaves the cursors. -/
theorem fetch_error (hkeyed : Keyed w.db) {e : String} (hsaved : saved w currency = .error e) :
    let out := fetchNewDeposits w.chain w.db currency
    out.2 = .error e ∧ out.1.accountDeposit = w.db.accountDeposit ∧ Keyed out.1 ∧
      ∀ c, out.1.lastRowRead c = w.db.lastRowRead c := by
  obtain ⟨-, hlast, -, hrows, hkeyed', hcursors⟩ := ensureTable_spec hkeyed currency
  rw [saved, page, ← hrows] at hsaved
  have hout : fetchNewDeposits w.chain w.db currency =
      ((w.db.ensureTable currency).2, .error e) := by
    simp only [fetchNewDeposits, hlast, hsaved]
  rw [hout]
  exact ⟨rfl, hrows, hkeyed', hcursors⟩

end Calls

/-! ## The invariant -/

/-- The saved rows are those of the chain up to the cursors, and a cursor is at a row. -/
structure Recorded (w : World) : Prop where
  keyed : Keyed w.db
  saved : ∀ r, r ∈ w.db.accountDeposit.rows ↔ ∃ c, ∃ d ∈ (w.chain c).rows,
    (d.id : ℤ) ≤ w.db.lastRowRead c ∧ r = AccountDeposit.of c d
  cursor : ∀ c, w.db.lastRowRead c = -1 ∨ ∃ d ∈ (w.chain c).rows, w.db.lastRowRead c = d.id

theorem recorded_init : Recorded {} where
  keyed := by simp [Keyed]
  saved := by simp
  cursor _ := Or.inl rfl

section Recorded

variable {w : World} {currency : String}

/-- The rows of a page can be inserted exactly when no other currency has recorded their ids. -/
theorem Recorded.saved_iff (h : Recorded w) :
    (∃ t, Gateway.saved w currency = .ok t) ↔ Distinct w (.fetch currency) := by
  have hsorted : ((page w currency).map (AccountDeposit.of currency)).Pairwise
      (fun a b => a.id < b.id) :=
    List.pairwise_map.mpr (page_sorted w.chain currency _)
  rw [Gateway.saved, insertLoop_eq_ok hsorted, List.forall_mem_map]
  constructor
  · intro hnew d hd other _ d' hd' hpassed hid
    refine Table.find_eq_none.mp (hnew d hd) (AccountDeposit.of other d') ?_ hid
    exact (h.saved _).mpr ⟨other, d', hd', hpassed, rfl⟩
  · intro hdistinct d hd
    refine Table.find_eq_none.mpr (fun r hr hid => ?_)
    obtain ⟨c, d', hd', hpassed, rfl⟩ := (h.saved r).mp hr
    by_cases hc : c = currency
    · -- the currency's own rows come before the page
      subst hc
      have hlt := (mem_page hd).2
      have heq : d'.id = d.id := hid
      omega
    · exact hdistinct d hd c hc d' hd' hpassed hid

/-- A deposit of the chain is among the saved rows exactly when its cursor has passed it. -/
theorem Recorded.upToDate (h : Recorded w) : UpToDate w.chain w.db currency := by
  intro d hd
  have hmem : AccountDeposit.of currency d ∈ w.db.accountDeposit.rows ↔
      (d.id : ℤ) ≤ w.db.lastRowRead currency := by
    rw [h.saved]
    constructor
    · rintro ⟨c, d', hd', hpassed, heq⟩
      have hcur : currency = c := congrArg AccountDeposit.currency heq
      subst hcur
      have hid : d.id = d'.id := congrArg AccountDeposit.id heq
      omega
    · exact fun hpassed => ⟨currency, d, hd, hpassed, rfl⟩
  rw [w.db.accountDeposit.nodup_rows.count]
  exact if_congr hmem rfl rfl

/-- A deposit is above every cursor of its currency, so nothing changes for the rows saved. -/
theorem Recorded.deposit (h : Recorded w) {d : Deposit}
    (hnew : ∀ r ∈ (w.chain currency).rows, r.id < d.id) :
    Recorded { w with chain := fun c => if c = currency then (w.chain c).put d else w.chain c } where
  keyed := h.keyed
  saved r := by
    rw [h.saved]
    refine exists_congr (fun c => exists_congr (fun d' => ?_))
    show _ ↔ d' ∈ (if c = currency then (w.chain c).put d else w.chain c).rows ∧ _
    by_cases hc : c = currency
    · subst hc
      rw [if_pos rfl, Table.mem_put]
      constructor
      · rintro ⟨hd', hpassed, heq⟩
        exact ⟨Or.inr ⟨hd', Nat.ne_of_lt (hnew d' hd')⟩, hpassed, heq⟩
      · rintro ⟨rfl | ⟨hd', -⟩, hpassed, heq⟩
        · exfalso
          rcases h.cursor c with hcur | ⟨r, hr, hcur⟩
          · have hneg : (d'.id : ℤ) ≤ -1 := by rw [← hcur]; exact hpassed
            omega
          · have hle : (d'.id : ℤ) ≤ r.id := by rw [← hcur]; exact hpassed
            have := hnew r hr
            omega
        · exact ⟨hd', hpassed, heq⟩
    · rw [if_neg hc]
  cursor c := by
    rcases h.cursor c with hcur | ⟨r, hr, hcur⟩
    · exact Or.inl hcur
    · refine Or.inr ⟨r, ?_, hcur⟩
      show r ∈ (if c = currency then (w.chain c).put d else w.chain c).rows
      by_cases hc : c = currency
      · subst hc
        rw [if_pos rfl]
        exact Table.mem_put.mpr (Or.inr ⟨hr, Nat.ne_of_lt (hnew r hr)⟩)
      · rwa [if_neg hc]

/-- A call keeps the invariant, whether it commits or not. -/
theorem Recorded.fetch (h : Recorded w) :
    Recorded { w with db := (fetchNewDeposits w.chain w.db currency).1 } := by
  cases hsaved : Gateway.saved w currency with
  | error e =>
    obtain ⟨-, hrows, hkeyed, hcursors⟩ := fetch_error h.keyed hsaved
    refine ⟨hkeyed, fun r => ?_, fun c => ?_⟩
    · simp only [hrows, hcursors]
      exact h.saved r
    · simp only [hcursors]
      exact h.cursor c
  | ok t =>
    obtain ⟨-, hrows, hkeyed, hcursors⟩ := fetch_ok h.keyed hsaved
    have hpage := mem_insertLoop hsaved
    refine ⟨hkeyed, fun r => ?_, fun c => ?_⟩
    · simp only [hrows, hcursors, hpage, h.saved, List.mem_map]
      constructor
      · rintro (⟨c, d, hd, hpassed, rfl⟩ | ⟨d, hd, rfl⟩)
        · refine ⟨c, d, hd, ?_, rfl⟩
          by_cases hc : c = currency
          · subst hc
            rw [if_pos rfl]
            exact (le_newCursor_iff hd).mpr (Or.inl hpassed)
          · rwa [if_neg hc]
        · refine ⟨currency, d, (mem_page hd).1, ?_, rfl⟩
          rw [if_pos rfl]
          exact (le_newCursor_iff (mem_page hd).1).mpr (Or.inr hd)
      · rintro ⟨c, d, hd, hpassed, rfl⟩
        by_cases hc : c = currency
        · subst hc
          rw [if_pos rfl] at hpassed
          rcases (le_newCursor_iff hd).mp hpassed with hold | hnew
          · exact Or.inl ⟨c, d, hd, hold, rfl⟩
          · exact Or.inr ⟨d, hnew, rfl⟩
        · rw [if_neg hc] at hpassed
          exact Or.inl ⟨c, d, hd, hpassed, rfl⟩
    · simp only [hcursors]
      by_cases hc : c = currency
      · subst hc
        rw [if_pos rfl]
        rcases newCursor_cases (w.db.lastRowRead c) (page w c) with ⟨-, hcur⟩ | ⟨⟨d, hd, hcur⟩, -⟩
        · rw [hcur]
          exact h.cursor c
        · exact Or.inr ⟨d, (mem_page hd).1, hcur⟩
      · rw [if_neg hc]
        exact h.cursor c

/-- **Step lemma**: every event keeps the invariant. -/
theorem recorded_step (h : Recorded w) {e : Event} {w' : World} {out : List Poll}
    (hs : step w e = .ok (w', out)) : Recorded w' := by
  cases e with
  | deposit currency d =>
    simp only [step] at hs
    split_ifs at hs with hnew
    cases hs
    exact h.deposit hnew
  | fetch currency =>
    cases hs
    exact h.fetch

/-- A call does what it owes exactly when its page has no id recorded for another currency. -/
theorem Recorded.records_iff (h : Recorded w) (e : Event) : Records w e ↔ Distinct w e := by
  cases e with
  | deposit currency d => exact Iff.rfl
  | fetch currency =>
    rw [← h.saved_iff]
    constructor
    · rintro ⟨hok, -⟩
      cases hsaved : Gateway.saved w currency with
      | ok t => exact ⟨t, rfl⟩
      | error e =>
        rw [(fetch_error h.keyed hsaved).1] at hok
        cases hok
    · rintro ⟨t, hsaved⟩
      exact ⟨(fetch_ok h.keyed hsaved).1, h.fetch.upToDate⟩

end Recorded

/-! ## Runs -/

/-- **Deposits**: in a run of deposits and calls, every call succeeds and leaves its currency
recorded exactly up to its cursor, if and only if no call reads a row with the id of one that has
been recorded for another currency. -/
theorem records_iff_distinct (events : List Event) :
    Along step Records {} events ↔ Along step Distinct {} events :=
  along_congr Recorded recorded_init (fun _ _ _ _ h hs => recorded_step h hs)
    (fun _ e h => h.records_iff e) events

/-- The first deposit of each of the two currencies, and a round of the poller. -/
def firstDeposits : List Event :=
  [.deposit "VBTC" ⟨0, "alice", "1.00000000 VBTC", "aa"⟩,
    .deposit "VETH" ⟨0, "bob", "1.00000000 VETH", "bb"⟩, .fetch "VBTC", .fetch "VETH"]

/-- Both deposits have the id zero, and the second is rejected. -/
theorem firstDeposits_rejected : ¬ ∀ events : List Event, Along step Records {} events := by
  intro h
  obtain ⟨-, -, -, ⟨hok, -⟩, -⟩ := h firstDeposits
  exact absurd hok (by decide)

end VDexNode.Gateway
