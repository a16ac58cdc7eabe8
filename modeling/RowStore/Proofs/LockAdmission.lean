import RowStore.Proofs.LockRuns

/-!
# Admission without conflict

The table decides a request by cases: what the transaction holds itself, whether it is alone, what the others
hold. In a table that can be reached the cases amount to one rule. A request is granted exactly if nobody else
holds the page in a conflicting mode. What a grant does is one rule as well: the holders are as before, with the
transaction's own lock at the stronger of its two modes, in its place or at the end. A second grant of the same
request does nothing, so a request that wakes up late may be decided twice.
-/

namespace RowStore

namespace LockMode

/-- Whether a lock in mode `held` shuts out another transaction that asks for `wanted`: a writer shuts out
everybody, and everybody shuts out a writer. -/
def conflicts (held wanted : LockMode) : Bool := held = .exclusive || wanted = .exclusive

def stronger (held wanted : LockMode) : LockMode := if held.covers wanted then held else wanted

theorem stronger_covers (held wanted : LockMode) :
    (held.stronger wanted).covers held = true ∧ (held.stronger wanted).covers wanted = true := by
  cases held <;> cases wanted <;> exact ⟨rfl, rfl⟩

theorem joined_none (wanted : LockMode) : joined none wanted = wanted := rfl

theorem joined_some (held wanted : LockMode) : joined (some held) wanted = held.stronger wanted := by
  cases held <;> cases wanted <;> rfl

theorem joined_covers (held : Option LockMode) (wanted : LockMode) : (joined held wanted).covers wanted = true := by
  cases held with
  | none => cases wanted <;> rfl
  | some held =>
    rw [joined_some]
    exact (stronger_covers held wanted).2

end LockMode

namespace LockTable

variable {t : LockTable} {txn : TxnId} {page : PageId} {mode : LockMode}

/-- Somebody else holds the page in a mode that conflicts with the one that is asked for. -/
def Conflicting (t : LockTable) (txn : TxnId) (page : PageId) (mode : LockMode) : Prop :=
  ∃ other held, other ≠ txn ∧ t.modeOf? other page = some held ∧ held.conflicts mode = true

/-- The branches of the decision add up to the absence of a conflict. -/
theorem Proper.granted_iff (ht : t.Proper) :
    (t.request txn page mode).2 = true ↔ ¬ t.Conflicting txn page mode := by
  constructor
  · rintro hg ⟨other, held, hne, hm, hc⟩
    have hc' : held = .exclusive ∨ mode = .exclusive := by simpa [LockMode.conflicts] using hc
    rw [ht.request_conflict hne hm hc'] at hg
    cases hg
  · intro hfree
    cases mode with
    | exclusive =>
      -- Any lock of another transaction conflicts, so there is none.
      refine ht.request_of_alone (fun other hne => ?_) _
      cases hm : t.modeOf? other page with
      | none => rfl
      | some held => exact absurd ⟨other, held, hne, hm, by simp [LockMode.conflicts]⟩ hfree
    | shared =>
      cases hown : t.modeOf? txn page with
      | some held => rw [request_of_covers hown (by simp [LockMode.covers])]
      | none =>
        have hreaders : ∀ h ∈ t.holdersOf page, h.mode = .shared := by
          intro h hh
          cases hmode : h.mode with
          | shared => rfl
          | exclusive =>
            have hm : t.modeOf? h.txn page = some .exclusive := hmode ▸ ht.modeOf?_of_mem hh
            exact absurd ⟨h.txn, .exclusive, modeOf?_eq_none.mp hown h hh, hm, rfl⟩ hfree
        have hall : ((t.holdersOf page).all fun h => h.mode = .shared) = true :=
          List.all_eq_true.mpr fun h hh => decide_eq_true (hreaders h hh)
        unfold LockTable.request
        simp only [hown, hall, if_true]

theorem Proper.refused_iff (ht : t.Proper) :
    (t.request txn page mode).2 = false ↔ t.Conflicting txn page mode := by
  rw [← Bool.not_eq_true, ht.granted_iff, not_not]

/-- The holders of a page once a transaction is let in: a holder stays in its place with the stronger mode, a
newcomer comes last. -/
def letIn (holders : List Holder) (txn : TxnId) (mode : LockMode) : List Holder :=
  if txn ∈ holders.map Holder.txn then
    holders.map fun h => if h.txn = txn then ⟨txn, h.mode.stronger mode⟩ else h
  else holders ++ [⟨txn, mode⟩]

/-- The table `t'` is `t` with a transaction let in on a page and nothing else changed. -/
structure Admitted (t : LockTable) (txn : TxnId) (page : PageId) (mode : LockMode) (t' : LockTable) : Prop where
  mode_of : t'.modeOf? txn page = some ((t.modeOf? txn page).elim mode fun held => held.stronger mode)
  entry : t'.holders.find? page = some (letIn (t.holdersOf page) txn mode)
  elsewhere : ∀ q, q ≠ page → t'.holders.find? q = t.holders.find? q
  /-- The page is filed under the transaction, once. -/
  filed : t'.held.find? txn =
    some (if page ∈ t.pagesOf txn then t.pagesOf txn else t.pagesOf txn ++ [page])
  others : ∀ other, other ≠ txn → t'.held.find? other = t.held.find? other

theorem find?_held_request (t : LockTable) (page : PageId) (mode : LockMode) {other : TxnId} (hne : other ≠ txn) :
    (t.request txn page mode).1.held.find? other = t.held.find? other := by
  cases hg : (t.request txn page mode).2 with
  | false => rw [request_refused hg]
  | true =>
    rcases request_granted hg with ⟨_, _, _, he⟩ | ⟨_, _, _, he⟩ | ⟨_, _, he⟩
    · rw [he]
    · rw [he]
    · rw [he, Dict.find?_insert, if_neg hne.symm]

theorem mem_txns_of_modeOf? {held : LockMode} (h : t.modeOf? txn page = some held) :
    txn ∈ (t.holdersOf page).map Holder.txn :=
  List.mem_map.mpr ⟨_, modeOf?_eq_some h, rfl⟩

/-- Where a transaction holds a page already, letting it in sets the mode of its one entry. -/
theorem Proper.letIn_of_held (ht : t.Proper) {held : LockMode} (h : t.modeOf? txn page = some held) :
    letIn (t.holdersOf page) txn mode =
      (t.holdersOf page).map fun h => if h.txn = txn then ⟨txn, held.stronger mode⟩ else h := by
  unfold letIn
  rw [if_pos (mem_txns_of_modeOf? h)]
  refine List.map_congr_left fun holder hm => ?_
  by_cases htx : holder.txn = txn
  · have hmode := ht.modeOf?_of_mem hm
    rw [htx, h] at hmode
    rw [if_pos htx, if_pos htx, Option.some.inj hmode]
  · rw [if_neg htx, if_neg htx]

/-- Letting a transaction in with a mode that it holds already changes nothing. -/
theorem Proper.letIn_of_covers (ht : t.Proper) {held : LockMode} (h : t.modeOf? txn page = some held)
    (hc : held.covers mode = true) : letIn (t.holdersOf page) txn mode = t.holdersOf page := by
  rw [ht.letIn_of_held h, LockMode.stronger, if_pos hc]
  refine (List.map_congr_left fun holder hm => ?_).trans (List.map_id _)
  by_cases htx : holder.txn = txn
  · have hown := ht.modeOf?_of_mem hm
    rw [htx, h] at hown
    rw [if_pos htx, Option.some.inj hown, ← htx]
    rfl
  · rw [if_neg htx]
    rfl

theorem letIn_of_none (h : t.modeOf? txn page = none) :
    letIn (t.holdersOf page) txn mode = t.holdersOf page ++ [⟨txn, mode⟩] := by
  refine if_neg fun hin => ?_
  obtain ⟨holder, hm, htx⟩ := List.mem_map.mp hin
  exact modeOf?_eq_none.mp h holder hm htx

/-- The entries of a page and of its holder are there. -/
theorem Proper.entries_of_held (ht : t.Proper) {held : LockMode} (h : t.modeOf? txn page = some held) :
    t.holders.find? page = some (t.holdersOf page) ∧ t.held.find? txn = some (t.pagesOf txn) ∧
      page ∈ t.pagesOf txn := by
  have hmem := modeOf?_eq_some h
  have hfiled : page ∈ t.pagesOf txn := ht.mem_pagesOf.mpr ⟨held, h⟩
  refine ⟨?_, ?_, hfiled⟩
  · unfold holdersOf at hmem ⊢
    cases hf : t.holders.find? page with
    | none => rw [hf] at hmem; cases hmem
    | some holders => rfl
  · unfold pagesOf at hfiled ⊢
    cases hf : t.held.find? txn with
    | none => rw [hf] at hfiled; cases hfiled
    | some pages => rfl

/-- Whichever branch grants a request, the transaction is let in and nothing else changes. -/
theorem Proper.admitted (ht : t.Proper) (h : (t.request txn page mode).2 = true) :
    t.Admitted txn page mode (t.request txn page mode).1 := by
  have hmode : (t.request txn page mode).1.modeOf? txn page =
      some ((t.modeOf? txn page).elim mode fun held => held.stronger mode) := by
    rw [modeOf?_request h, if_pos ⟨rfl, rfl⟩]
    cases t.modeOf? txn page with
    | none => rw [LockMode.joined_none, Option.elim_none]
    | some held => rw [LockMode.joined_some, Option.elim_some]
  have hothers := fun other (hne : other ≠ txn) => t.find?_held_request page mode hne
  rcases request_granted h with ⟨held, hm, hc, he⟩ | ⟨hm, rfl, _, he⟩ | ⟨hm, _, he⟩
  · obtain ⟨hentry, hfiled, hin⟩ := ht.entries_of_held hm
    rw [he] at hmode hothers ⊢
    exact ⟨hmode, by rw [ht.letIn_of_covers hm hc, hentry], fun _ _ => rfl, by rw [if_pos hin, hfiled], hothers⟩
  · obtain ⟨_, hfiled, hin⟩ := ht.entries_of_held hm
    rw [he] at hmode hothers ⊢
    refine ⟨hmode, ?_, fun q hq => ?_, by rw [if_pos hin]; exact hfiled, hothers⟩
    · rw [Dict.find?_insert, if_pos rfl, ht.letIn_of_held hm]
      rfl
    · rw [Dict.find?_insert, if_neg hq.symm]
  · have hunfiled : page ∉ t.pagesOf txn := by
      intro hin
      obtain ⟨held, hheld⟩ := ht.mem_pagesOf.mp hin
      rw [hm] at hheld
      cases hheld
    rw [he] at hmode hothers ⊢
    refine ⟨hmode, ?_, fun q hq => ?_, ?_, hothers⟩
    · rw [Dict.find?_insert, if_pos rfl, letIn_of_none hm]
    · rw [Dict.find?_insert, if_neg hq.symm]
    · rw [Dict.find?_insert, if_pos rfl, if_neg hunfiled]

/-- A request that was granted is granted again and changes nothing. -/
theorem request_again (h : (t.request txn page mode).2 = true) :
    (t.request txn page mode).1.request txn page mode = ((t.request txn page mode).1, true) := by
  have hmode := modeOf?_request h txn page
  rw [if_pos ⟨rfl, rfl⟩] at hmode
  exact request_of_covers hmode (LockMode.joined_covers _ mode)

end LockTable

namespace LockManager

/-- A manager that refuses a request is left as it is. -/
theorem acquire_refused {m : LockManager} {txn : TxnId} {page : PageId} {mode : LockMode}
    (h : (m.acquire txn page mode).2 = false) : (m.acquire txn page mode).1 = m := by
  show ({ m with table := (m.table.request txn page mode).1 } : LockManager) = m
  rw [LockTable.request_refused h]

theorem acquire_again {m : LockManager} {txn : TxnId} {page : PageId} {mode : LockMode}
    (h : (m.acquire txn page mode).2 = true) :
    (m.acquire txn page mode).1.acquire txn page mode = ((m.acquire txn page mode).1, true) := by
  have hagain := LockTable.request_again h
  show (({ m with table := ((m.table.request txn page mode).1.request txn page mode).1 } : LockManager),
    ((m.table.request txn page mode).1.request txn page mode).2) = _
  rw [hagain]
  rfl

/-- Whether its time is up or not, a waiting request that conflicts with nobody is granted when it wakes up, and the
table is that of one decision. -/
theorem wake_without_conflict {m : LockManager} (hm : m.table.Proper) {r : LockRequest} (hr : r ∈ m.waiting)
    (hfree : ¬ m.table.Conflicting r.txn r.page r.mode) (late : Bool) :
    m.wake r late =
      (⟨(m.table.request r.txn r.page r.mode).1, m.waiting.erase r⟩, some (.ok ())) := by
  have hg : (m.table.request r.txn r.page r.mode).2 = true := hm.granted_iff.mpr hfree
  have honce : ∀ waiting, (LockManager.mk m.table waiting).acquire r.txn r.page r.mode =
      (⟨(m.table.request r.txn r.page r.mode).1, waiting⟩, true) := fun waiting => Prod.ext rfl hg
  have htwice : ∀ waiting, (LockManager.mk (m.table.request r.txn r.page r.mode).1 waiting).acquire r.txn r.page
      r.mode = (⟨(m.table.request r.txn r.page r.mode).1, waiting⟩, true) := by
    intro waiting
    have hagain := LockTable.request_again hg
    exact Prod.ext (by rw [acquire, hagain]) (by rw [acquire, hagain])
  unfold wake
  simp only [if_pos hr, honce, acquireOrWait, htwice, ite_self]

/-- In every state that a manager can reach, a request is granted exactly if no other transaction holds the page in a
conflicting mode. A grant lets the transaction in, changes nothing else, and is repeated without effect; a
refusal leaves the manager as it was. -/
theorem granted_exactly_without_conflict (calls : List Call) (txn : TxnId) (page : PageId) (mode : LockMode) :
    let m := empty.run calls
    let m' := (m.acquire txn page mode).1
    ((m.acquire txn page mode).2 = true ↔ ¬ m.table.Conflicting txn page mode) ∧
    ((m.acquire txn page mode).2 = true →
      m.table.Admitted txn page mode m'.table ∧ m'.waiting = m.waiting ∧
        m'.acquire txn page mode = (m', true)) ∧
    ((m.acquire txn page mode).2 = false → m' = m) := by
  intro m m'
  have hm : m.table.Proper := proper_run LockTable.proper_empty calls
  exact ⟨hm.granted_iff, fun h => ⟨hm.admitted h, rfl, acquire_again h⟩, acquire_refused⟩

/-- A reader that wants to write is refused beside another reader, and let in once it is alone. -/
theorem upgrade_waits_for_the_other_reader :
    let calls := [Call.acquire ⟨1⟩ ⟨⟨0⟩, 0⟩ .shared, .acquire ⟨2⟩ ⟨⟨0⟩, 0⟩ .shared]
    let m := empty.run calls
    let alone := empty.run (calls ++ [.release ⟨2⟩ ⟨⟨0⟩, 0⟩])
    (m.table.Conflicting ⟨1⟩ ⟨⟨0⟩, 0⟩ .exclusive ∧ (m.acquire ⟨1⟩ ⟨⟨0⟩, 0⟩ .exclusive).1 = m) ∧
    (alone.table.Admitted ⟨1⟩ ⟨⟨0⟩, 0⟩ .exclusive (alone.acquire ⟨1⟩ ⟨⟨0⟩, 0⟩ .exclusive).1.table ∧
      ¬ alone.table.Conflicting ⟨1⟩ ⟨⟨0⟩, 0⟩ .exclusive) := by
  intro calls m alone
  have hrefused : (m.acquire ⟨1⟩ ⟨⟨0⟩, 0⟩ .exclusive).2 = false := by decide
  have hgranted : (alone.acquire ⟨1⟩ ⟨⟨0⟩, 0⟩ .exclusive).2 = true := by decide
  obtain ⟨hm, _, hkept⟩ := granted_exactly_without_conflict calls ⟨1⟩ ⟨⟨0⟩, 0⟩ .exclusive
  obtain ⟨ha, hin, _⟩ := granted_exactly_without_conflict (calls ++ [.release ⟨2⟩ ⟨⟨0⟩, 0⟩]) ⟨1⟩ ⟨⟨0⟩, 0⟩ .exclusive
  refine ⟨⟨Classical.not_not.mp fun hc => ?_, hkept hrefused⟩, (hin hgranted).1, ha.mp hgranted⟩
  exact absurd (hm.mpr hc) (by rw [hrefused]; decide)

end LockManager

end RowStore
