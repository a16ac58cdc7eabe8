import RowStore.Proofs.EventKinds
import RowStore.Proofs.LockRelease
import RowStore.Proofs.PoolShape
import RowStore.Session

/-!
# Two-phase locking

The lock table after a run is determined by its history: grants add or raise locks, the end of a transaction takes all
of its locks away, and nothing else moves one as long as nobody lets go of a single page. A lock is therefore held, at
least as strong as it was granted, until its transaction ends, and meanwhile every conflicting request of another
transaction is refused. Rows are stored and removed under exclusive locks only, so a change counts as an exclusive
access.
-/

namespace RowStore

namespace LockTable

/-- The locks after an event. -/
def after (t : LockTable) : Event → LockTable
  | .granted txn page mode => (t.request txn page mode).1
  | .completed txn => (t.releaseAll txn).1
  | .released txn page => (t.release txn page).1
  | _ => t

/-- The locks with which an event can happen. -/
def Admits (t : LockTable) : Event → Prop
  | .granted txn page mode => (t.request txn page mode).2 = true
  | .stored txn record _ => t.modeOf? txn record.page = some .exclusive
  | .removed txn record => t.modeOf? txn record.page = some .exclusive
  | _ => True

/-- Events that can happen one after the other. -/
def AdmitsAll : LockTable → List Event → Prop
  | _, [] => True
  | t, event :: rest => t.Admits event ∧ (t.after event).AdmitsAll rest

theorem admitsAll_append (t : LockTable) (l l' : List Event) :
    t.AdmitsAll (l ++ l') ↔ t.AdmitsAll l ∧ (l.foldl after t).AdmitsAll l' := by
  induction l generalizing t with
  | nil => simp [AdmitsAll]
  | cons event rest ih =>
    rw [List.cons_append, AdmitsAll, AdmitsAll, ih, List.foldl_cons, and_assoc]

theorem Proper.after {t : LockTable} (ht : t.Proper) (event : Event) : (t.after event).Proper := by
  cases event with
  | granted txn page mode => exact ht.request txn page mode
  | completed txn => exact ht.releaseAll txn
  | released txn page => exact ht.release txn page
  | stored | removed | appended | based | written | restored | discarded | handed => exact ht

theorem Proper.foldl_after {t : LockTable} (ht : t.Proper) (l : List Event) : (l.foldl LockTable.after t).Proper := by
  induction l generalizing t with
  | nil => exact ht
  | cons event rest ih => exact ih (ht.after event)

theorem foldl_after_same {t : LockTable} {l : List Event} (hl : ∀ event ∈ l, ∀ t : LockTable, t.after event = t) :
    l.foldl LockTable.after t = t := by
  induction l with
  | nil => rfl
  | cons event rest ih =>
    obtain ⟨hhead, hrest⟩ := List.forall_mem_cons.mp hl
    rw [List.foldl_cons, hhead, ih hrest]

def isRelease : Event → Bool
  | .released _ _ => true
  | _ => false

/-- A lock lasts, at least as strong, through every event but its transaction's end and the release of a single page. -/
theorem Proper.modeOf?_after {t : LockTable} (ht : t.Proper) {event : Event} {txn : TxnId} {page : PageId}
    {held : LockMode} (ha : t.Admits event) (hr : isRelease event = false) (hc : event ≠ .completed txn)
    (hm : t.modeOf? txn page = some held) :
    ∃ mode, (t.after event).modeOf? txn page = some mode ∧ (held = .exclusive → mode = .exclusive) := by
  cases event with
  | granted other q wanted =>
    refine ⟨if other = txn ∧ q = page then LockMode.joined (t.modeOf? other q) wanted else held, ?_, ?_⟩
    · show (t.request other q wanted).1.modeOf? txn page = _
      rw [modeOf?_request ha]
      split
      · rfl
      · exact hm
    · intro hx
      split
      · rename_i heq
        obtain ⟨rfl, rfl⟩ := heq
        rw [hm, hx]
        rfl
      · exact hx
  | completed other =>
    have hne : other ≠ txn := fun he => hc (he ▸ rfl)
    refine ⟨held, ?_, id⟩
    show (t.releaseAll other).1.modeOf? txn page = some held
    rw [ht.modeOf?_releaseAll, if_neg hne, hm]
  | released other q => cases hr
  | stored | removed | appended | based | written | restored | discarded | handed => exact ⟨held, hm, id⟩

theorem Proper.modeOf?_foldl_after {t : LockTable} (ht : t.Proper) {l : List Event} {txn : TxnId} {page : PageId}
    {held : LockMode} (ha : t.AdmitsAll l) (hr : ∀ event ∈ l, isRelease event = false) (hc : .completed txn ∉ l)
    (hm : t.modeOf? txn page = some held) :
    ∃ mode, (l.foldl LockTable.after t).modeOf? txn page = some mode ∧ (held = .exclusive → mode = .exclusive) := by
  induction l generalizing t held with
  | nil => exact ⟨held, hm, id⟩
  | cons event rest ih =>
    have hne : event ≠ .completed txn := fun he => hc (he ▸ List.mem_cons_self)
    obtain ⟨mode, hmode, hx⟩ := ht.modeOf?_after ha.1 (hr event List.mem_cons_self) hne hm
    obtain ⟨mode', hmode', hx'⟩ := ih (ht.after event) ha.2 (fun ev he => hr ev (List.mem_cons_of_mem _ he))
      (fun he => hc (List.mem_cons_of_mem _ he)) hmode
    exact ⟨mode', hmode', fun he => hx' (hx he)⟩

/-- When all locks are granted to one transaction nobody else comes to hold one. -/
theorem Proper.alone_foldl_after {t : LockTable} (ht : t.Proper) {l : List Event} {txn : TxnId} (ha : t.AdmitsAll l)
    (hl : ∀ other page mode, .granted other page mode ∈ l → other = txn)
    (h : ∀ other page, other ≠ txn → t.modeOf? other page = none) (other : TxnId) (page : PageId) (hne : other ≠ txn) :
    (l.foldl LockTable.after t).modeOf? other page = none := by
  induction l generalizing t with
  | nil => exact h other page hne
  | cons event rest ih =>
    refine ih (ht.after event) ha.2 (fun o p m hm => hl o p m (List.mem_cons_of_mem _ hm)) fun o p ho => ?_
    cases event with
    | granted owner q mode =>
      show (t.request owner q mode).1.modeOf? o p = none
      rw [modeOf?_request ha.1, if_neg fun hc => ho (hc.1.symm.trans (hl owner q mode List.mem_cons_self))]
      exact h o p ho
    | completed owner =>
      show (t.releaseAll owner).1.modeOf? o p = none
      rw [ht.modeOf?_releaseAll]
      split
      · rfl
      · exact h o p ho
    | released owner q =>
      show (t.release owner q).1.modeOf? o p = none
      rw [modeOf?_release]
      split
      · rfl
      · exact h o p ho
    | stored | removed | appended | based | written | restored | discarded | handed => exact h o p ho

/-- As long as a lock lasts nobody else is granted a conflicting one. -/
theorem Proper.refused_while_held {t : LockTable} (ht : t.Proper) {l : List Event} {txn other : TxnId}
    {page : PageId} {held : LockMode} (wanted : LockMode) (ha : t.AdmitsAll l)
    (hr : ∀ event ∈ l, isRelease event = false) (hc : .completed txn ∉ l) (hm : t.modeOf? txn page = some held)
    (hne : txn ≠ other) (hconf : held = .exclusive ∨ wanted = .exclusive) :
    ((l.foldl LockTable.after t).request other page wanted).2 = false := by
  obtain ⟨mode, hmode, hx⟩ := ht.modeOf?_foldl_after ha hr hc hm
  exact (ht.foldl_after l).request_conflict hne hmode (hconf.imp_left hx)

end LockTable

namespace Engine

theorem Step.locks {e e' : Engine} {l : List Event} (h : Step e l e') (hs : e.pool.Sane) :
    e.locks.AdmitsAll l ∧ e'.locks = l.foldl LockTable.after e.locks := by
  cases h with
  | call | countRead | log | force | touch | load => exact ⟨trivial, rfl⟩
  | append | base | write | restore | discard | hand | complete | release => exact ⟨⟨trivial, trivial⟩, rfl⟩
  | grant hg => exact ⟨⟨hg, trivial⟩, rfl⟩
  | store hr hf hx hi =>
    obtain ⟨page, hp, hid⟩ := hs.keyed _ _ hr
    cases hf.symm.trans hp
    refine ⟨⟨?_, trivial⟩, rfl⟩
    show e.locks.modeOf? _ _ = _
    rw [(Page.id_of_insert hi).2, hid]
    exact hx
  | remove hr hf hx hd =>
    obtain ⟨page, hp, hid⟩ := hs.keyed _ _ hr
    cases hf.symm.trans hp
    refine ⟨⟨?_, trivial⟩, rfl⟩
    show e.locks.modeOf? _ _ = _
    rw [(Page.id_of_delete hd).2, hid]
    exact hx

/-- The history of a path can happen with the locks held at its beginning, and leads to those held at its end. -/
theorem Path.locks {e e' : Engine} {l : List Event} (h : Path e l e') (hs : e.pool.Sane) :
    e.locks.AdmitsAll l ∧ e'.locks = l.foldl LockTable.after e.locks := by
  induction h with
  | refl => exact ⟨trivial, rfl⟩
  | step hstep _ ih =>
    obtain ⟨ha, hl⟩ := hstep.locks hs
    obtain ⟨ha', hl'⟩ := ih (hstep.sane hs)
    rw [LockTable.admitsAll_append, List.foldl_append, ← hl]
    exact ⟨⟨ha, ha'⟩, hl'⟩

/-- The lock table after a run is the one that its history leads to. -/
theorem locks_acts {e : Engine} (hs : e.pool.Sane) (as : List Action) :
    (e.acts as).locks = (e.history as).foldl LockTable.after e.locks := ((path_acts e as).locks hs).2

theorem no_release_in_history {e : Engine} {as : List Action} (h : ∀ txn page, .ask (.release txn page) ∉ as) :
    ∀ event ∈ e.history as, LockTable.isRelease event = false := by
  intro event hm
  obtain ⟨a, ha, hl⟩ := mem_history hm
  cases event with
  | released txn page =>
    exfalso
    cases a with
    | ask r =>
      cases r with
      | release t p => exact h t p ha
      | get | insert | delete | commit | abort | flush | flushTxn | flushAll | discard => exact hl
    | next s => exact hl
    | scan t table => exact hl
  | granted | stored | removed | appended | based | written | restored | discarded | handed | completed => rfl

/-- An event of a run after which its transaction holds a lock is followed by the transaction's end before a
conflicting request of somebody else can be granted. -/
theorem refused_until_completed {e : Engine} (hsane : e.pool.Sane) (hproper : e.locks.Proper) {as : List Action}
    (hr : ∀ txn page, .ask (.release txn page) ∉ as) {l₁ l₂ : List Event} (l₃ : List Event) {event : Event}
    (hl : e.history as = l₁ ++ event :: l₂ ++ l₃) {txn other : TxnId} (page : PageId) (held wanted : LockMode)
    (hheld : (l₁.foldl LockTable.after e.locks).Admits event →
      ∃ m, ((l₁.foldl LockTable.after e.locks).after event).modeOf? txn page = some m ∧
        (held = .exclusive → m = .exclusive))
    (hne : txn ≠ other) (hconf : held = .exclusive ∨ wanted = .exclusive) (hc : .completed txn ∉ l₂) :
    (((l₁ ++ event :: l₂).foldl LockTable.after e.locks).request other page wanted).2 = false := by
  have hadmits := ((path_acts e as).locks hsane).1
  rw [hl] at hadmits
  obtain ⟨hbefore, _⟩ := (LockTable.admitsAll_append ..).mp hadmits
  obtain ⟨_, hev, hafter⟩ := (LockTable.admitsAll_append ..).mp hbefore
  obtain ⟨m, hm, hx⟩ := hheld hev
  rw [List.foldl_append, List.foldl_cons]
  refine ((hproper.foldl_after l₁).after event).refused_while_held wanted hafter ?_ hc hm hne (hconf.imp_left hx)
  intro ev hmem
  refine no_release_in_history (e := e) hr ev ?_
  rw [hl]
  exact List.mem_append_left _ (List.mem_append_right _ (List.mem_cons_of_mem _ hmem))

/-- Two conflicting fetches of a page by different transactions have the end of the first transaction between them, in
any run from an empty pool in which nobody lets go of a single page. Nobody else's fetch of a page is granted between a
change of it and the end of the transaction that made it, and one that is asked for at the end of the run fails. -/
theorem conflicting_grants_separated (e : Engine) (capacity k : Nat) (hpool : e.pool = Pool.new capacity k)
    (hlocks : e.locks = LockTable.empty) (as : List Action) (hr : ∀ txn page, .ask (.release txn page) ∉ as) :
    (∀ (l₁ l₂ l₃ : List Event) (t₁ t₂ : TxnId) (page : PageId) (m₁ m₂ : LockMode),
      e.history as = l₁ ++ .granted t₁ page m₁ :: l₂ ++ .granted t₂ page m₂ :: l₃ → t₁ ≠ t₂ →
        (m₁ = .exclusive ∨ m₂ = .exclusive) → .completed t₁ ∈ l₂) ∧
    (∀ (l₁ l₂ : List Event) (change : Event) (t₁ t₂ : TxnId) (record : RecordId),
      change = .removed t₁ record ∨ (∃ tuple, change = .stored t₁ record tuple) → t₁ ≠ t₂ →
        (∀ (l₃ : List Event) (mode : LockMode),
          e.history as = l₁ ++ change :: l₂ ++ .granted t₂ record.page mode :: l₃ → .completed t₁ ∈ l₂) ∧
        (e.history as = l₁ ++ change :: l₂ → .completed t₁ ∉ l₂ →
          ∀ access, (e.acts as).getPage t₂ record.page access = (e.acts as, .error (.transactionAborted t₂)))) := by
  have hsane : e.pool.Sane := by
    rw [hpool]
    exact Pool.sane_new capacity k
  have hproper : e.locks.Proper := by
    rw [hlocks]
    exact LockTable.proper_empty
  have hgranted : ∀ {l l' : List Event} {txn : TxnId} {page : PageId} {mode : LockMode},
      e.history as = l ++ .granted txn page mode :: l' →
        ((l.foldl LockTable.after e.locks).request txn page mode).2 = true := by
    intro l l' txn page mode hl
    have hadmits := ((path_acts e as).locks hsane).1
    rw [hl] at hadmits
    exact ((LockTable.admitsAll_append ..).mp hadmits).2.1
  refine ⟨?_, ?_⟩
  · intro l₁ l₂ l₃ t₁ t₂ page m₁ m₂ hl hne hconf
    refine Classical.byContradiction fun hc => ?_
    have hno := refused_until_completed hsane hproper hr _ hl page m₁ m₂ (fun hev => ?_) hne hconf hc
    · rw [hgranted hl] at hno
      cases hno
    · refine ⟨LockMode.joined ((l₁.foldl LockTable.after e.locks).modeOf? t₁ page) m₁, ?_, ?_⟩
      · show ((l₁.foldl LockTable.after e.locks).request t₁ page m₁).1.modeOf? t₁ page = _
        rw [LockTable.modeOf?_request hev, if_pos ⟨rfl, rfl⟩]
      · rintro rfl
        unfold LockMode.joined
        split <;> rfl
  · intro l₁ l₂ change t₁ t₂ record hchange hne
    have hexclusive : ∀ {t : LockTable}, t.Admits change →
        ∃ m, (t.after change).modeOf? t₁ record.page = some m ∧ (LockMode.exclusive = .exclusive → m = .exclusive) := by
      intro t hev
      rcases hchange with rfl | ⟨tuple, rfl⟩
      · exact ⟨.exclusive, hev, fun _ => rfl⟩
      · exact ⟨.exclusive, hev, fun _ => rfl⟩
    refine ⟨?_, ?_⟩
    · intro l₃ mode hl
      refine Classical.byContradiction fun hc => ?_
      have hno := refused_until_completed hsane hproper hr _ hl record.page .exclusive mode hexclusive hne (.inl rfl) hc
      rw [hgranted hl] at hno
      cases hno
    · intro hl hc access
      have hno := refused_until_completed hsane hproper hr [] (by rw [hl, List.append_nil]) record.page
        .exclusive access.lockMode hexclusive hne (.inl rfl) hc
      rw [← hl, ← locks_acts hsane] at hno
      rw [getPage_eq, hno, if_neg Bool.false_ne_true]

/-- A store with one table, just registered over a new file. -/
def single (pageSize : Nat) (config : PoolConfig) (schema : Schema) : Engine :=
  ((Session.new pageSize config .memory).addTable ⟨0⟩ "rows" schema none []).engine

def flagSchema : Schema := ⟨[⟨"flag", .boolean⟩]⟩

def flagRow (b : Bool) : Tuple := ⟨flagSchema, [.boolean b], none⟩

/-- A store with three rows to a page and room for two pages in memory. -/
def flagStore : Engine := single 4 ⟨2, 2, none⟩ flagSchema

def rowCommitted : List Action := [.ask (.insert ⟨1⟩ ⟨0⟩ (flagRow true)), .ask (.commit ⟨1⟩ .asListed)]

def storeAndFetch : List Action := rowCommitted ++ [.ask (.get ⟨2⟩ ⟨⟨0⟩, 0⟩ .readOnly)]

/-- The first transaction ends between its own grant and the other one's, and between its row and the other one's grant.
Before it ends the other one is refused. -/
theorem completed_between_writer_and_reader :
    (∃ l₁ l₂ l₃, flagStore.history storeAndFetch =
        l₁ ++ .granted ⟨1⟩ ⟨⟨0⟩, 0⟩ .exclusive :: l₂ ++ .granted ⟨2⟩ ⟨⟨0⟩, 0⟩ .shared :: l₃ ∧ .completed ⟨1⟩ ∈ l₂) ∧
    (∃ l₁ l₂ l₃, flagStore.history storeAndFetch =
        l₁ ++ .stored ⟨1⟩ ⟨⟨⟨0⟩, 0⟩, 0⟩ (flagRow true) :: l₂ ++ .granted ⟨2⟩ ⟨⟨0⟩, 0⟩ .shared :: l₃ ∧
          .completed ⟨1⟩ ∈ l₂) ∧
    (flagStore.acts (storeAndFetch.take 1)).getPage ⟨2⟩ ⟨⟨0⟩, 0⟩ .readOnly =
      (flagStore.acts (storeAndFetch.take 1), .error (.transactionAborted ⟨2⟩)) := by
  have hwhole := conflicting_grants_separated flagStore 2 2 rfl rfl storeAndFetch
    (by simp [storeAndFetch, rowCommitted])
  have hfirst := conflicting_grants_separated flagStore 2 2 rfl rfl (storeAndFetch.take 1)
    (by simp [storeAndFetch, rowCommitted])
  have hgrants : flagStore.history storeAndFetch =
      [.appended ⟨⟨0⟩, 0⟩] ++ .granted ⟨1⟩ ⟨⟨0⟩, 0⟩ .exclusive ::
        [.stored ⟨1⟩ ⟨⟨⟨0⟩, 0⟩, 0⟩ (flagRow true), .based ⟨⟨0⟩, 0⟩, .completed ⟨1⟩] ++
        .granted ⟨2⟩ ⟨⟨0⟩, 0⟩ .shared :: [] := rfl
  have hchange : flagStore.history storeAndFetch =
      [.appended ⟨⟨0⟩, 0⟩, .granted ⟨1⟩ ⟨⟨0⟩, 0⟩ .exclusive] ++
        .stored ⟨1⟩ ⟨⟨⟨0⟩, 0⟩, 0⟩ (flagRow true) :: [.based ⟨⟨0⟩, 0⟩, .completed ⟨1⟩] ++
        .granted ⟨2⟩ ⟨⟨0⟩, 0⟩ .shared :: [] := hgrants
  refine ⟨⟨_, _, _, hgrants, hwhole.1 _ _ _ _ _ _ _ _ hgrants (by decide) (.inl rfl)⟩, ⟨_, _, _, hchange, ?_⟩, ?_⟩
  · exact (hwhole.2 _ _ _ ⟨1⟩ ⟨2⟩ _ (.inr ⟨_, rfl⟩) (by decide)).1 _ _ hchange
  · exact (hfirst.2 [.appended ⟨⟨0⟩, 0⟩, .granted ⟨1⟩ ⟨⟨0⟩, 0⟩ .exclusive] [] _ ⟨1⟩ ⟨2⟩ ⟨⟨⟨0⟩, 0⟩, 0⟩
      (.inr ⟨flagRow true, rfl⟩) (by decide)).2 rfl List.not_mem_nil .readOnly

end Engine

end RowStore
