import RowStore.Proofs.CommitRecords

/-!
# Failed commits

Locks go at the end of a transaction also when its commit fails, while the pages that the commit did not get to stay as
they are. That is the only way in which a change gets out unlogged: another transaction that fetches a page while a
change is still on it either finds the change in a durable record, or the page was marked at a commit that failed before
it had logged the page.
-/

namespace RowStore

namespace Event

/-- A change of a page lasts through a history if the page is written before it is reloaded or dropped. -/
def LastsOn (page : PageId) (l : List Event) : Prop :=
  ∀ l₁ event l₂, l = l₁ ++ event :: l₂ → event = .restored page ∨ event = .discarded page → .written page ∈ l₁

theorem LastsOn.of_append {page : PageId} {l l' : List Event} (h : LastsOn page (l ++ l')) (hw : .written page ∉ l) :
    LastsOn page l' := by
  rintro l₁ event l₂ rfl hevent
  exact (List.mem_append.mp (h (l ++ l₁) event l₂ (List.append_assoc ..).symm hevent)).resolve_left hw

theorem LastsOn.not_mem {page : PageId} {l l' : List Event} (h : LastsOn page (l ++ l')) (hw : .written page ∉ l)
    {event : Event} (hevent : event = .restored page ∨ event = .discarded page) : event ∉ l := by
  intro hm
  obtain ⟨l₁, l₂, rfl⟩ := List.append_of_mem hm
  refine hw (List.mem_append_left _ (h l₁ event (l₂ ++ l') ?_ hevent))
  rw [List.append_assoc, List.cons_append]

end Event

namespace Engine

variable {e : Engine} {txn other : TxnId} {p : PageId}

/-- The page's contents at a time are in a durable record of a transaction. -/
def Recorded (e : Engine) (txn : TxnId) (p : PageId) (contents : Option Bytes) : Prop :=
  ∃ r ∈ e.logged, r.txn = txn ∧ r.page = p ∧ contents = some r.after

theorem Path.recorded {e e' : Engine} {l : List Event} (hpath : Path e l e') {contents : Option Bytes}
    (h : e.Recorded txn p contents) : e'.Recorded txn p contents := by
  obtain ⟨r, hr, hrest⟩ := h
  exact ⟨r, hpath.logged hr, hrest⟩

/-- A commit of the transaction that fails without having logged the page. -/
def CommitMisses (e : Engine) (txn : TxnId) (p : PageId) (a : Action) : Prop :=
  ∃ sweep, a = .ask (.commit txn sweep) ∧ (∃ err, (e.complete txn true sweep).2 = .error err) ∧
    .based p ∉ e.events (.ask (.commit txn sweep))

/-- At the end of a transaction each page that it has marked is reloaded, recorded, or missed by a failed commit. -/
theorem Housed.of_ends (h : e.Housed) (hr : e.Readable) {a : Action} (ha : a.ends = some txn)
    (hm : e.mark? p = some txn) :
    .restored p ∈ e.events a ∨ (e.act a).Recorded txn p (e.view? p) ∨ e.CommitMisses txn p a := by
  rcases Action.ends_eq_some ha with ⟨sweep, rfl⟩ | ⟨sweep, rfl⟩
  · by_cases hb : .based p ∈ e.events (.ask (.commit txn sweep))
    · obtain ⟨_, page, hcopy, hrecord⟩ := logged_of_based h.sane hb
      exact .inr (.inl ⟨_, hrecord, rfl, rfl, view?_of_copy hcopy⟩)
    · refine .inr (.inr ⟨sweep, rfl, ?_, hb⟩)
      cases hresult : (e.complete txn true sweep).2 with
      | error err => exact ⟨err, rfl⟩
      | ok _ => exact absurd (based_of_marked h.sane hresult hm) hb
  · exact .inl (restored_of_marked h.sane (h.abort_ok hr txn sweep) hm)

/-- A page that is written while a transaction has it marked is recorded as it is. -/
theorem Housed.recorded_of_written (h : e.Housed) {a : Action} (hw : .written p ∈ e.events a)
    (hm : e.mark? p = some txn) : (e.act a).Recorded txn p (e.view? p) := by
  have hflush := (mayLeave_of_mem_events _ hw).flushes
  rcases (path_act e a).flushed h (fun event hm => hflush.written (mayLeave_of_mem_events event hm)) p with
    ⟨hnot, _⟩ | ⟨page, txn', hcopy, hd, _, _, hrecord⟩
  · exact absurd hw hnot
  · have hsame : txn' = txn := by
      unfold mark? at hm
      rw [hcopy] at hm
      exact Option.some.inj (hd.symm.trans hm)
    exact ⟨_, hrecord, hsame, rfl, view?_of_copy hcopy⟩

/-- A pending page that another transaction gets at while it lasts has been recorded, or missed by a failed commit. -/
theorem Firm.recorded_or_missed (h : e.Firm) (hr : e.Readable) (hp : e.Pending txn p) {as : List Action}
    (hrel : ∀ a ∈ as, ∀ t q, a ≠ .ask (.release t q)) (hlasts : Event.LastsOn p (e.history as)) (hne : other ≠ txn)
    {access : Access} {f : FrameId} (hget : ((e.acts as).getPage other p access).2 = .ok f) :
    ∃ seen a rest, as = seen ++ a :: rest ∧ (e.acts seen).Pending txn p ∧
      ((e.acts as).Recorded txn p ((e.acts seen).view? p) ∨ (e.acts seen).CommitMisses txn p a) := by
  induction as generalizing e with
  | nil =>
    rw [acts_nil, h.getPage_of_pending hp hne] at hget
    cases hget
  | cons a rest ih =>
    have hlater := path_acts (e.act a) rest
    by_cases hw : .written p ∈ e.events a
    · exact ⟨[], a, rest, rfl, hp, .inl (hlater.recorded (h.toHoused.recorded_of_written hw hp.mark))⟩
    · have hrestored := hlasts.not_mem hw (.inl rfl)
      have hdiscarded := hlasts.not_mem hw (.inr rfl)
      by_cases hends : a.ends = some txn
      · rcases h.toHoused.of_ends hr hends hp.mark with hm | hrecorded | hmissed
        · exact absurd hm hrestored
        · exact ⟨[], a, rest, rfl, hp, .inl (hlater.recorded hrecorded)⟩
        · exact ⟨[], a, rest, rfl, hp, .inr hmissed⟩
      · -- The page stays pending, so the change gets out later if at all.
        have hnext := h.pending_act hp hends (hrel a List.mem_cons_self) hw hdiscarded
        obtain ⟨seen, b, more, rfl, hpending, hout⟩ := ih (h.act a) ((path_act e a).readable hr) hnext
          (fun b hb => hrel b (List.mem_cons_of_mem a hb)) (hlasts.of_append hw) hget
        exact ⟨a :: seen, b, more, rfl, hpending, hout⟩

/-- While a change of a page lasts, another transaction gets at the page only if the page as changed is in a durable
record, or a commit since then, of the transaction that had made the change, has failed before it had logged the page.
This is so from the opening of a store over files with any contents, whatever fails but reads, as long as nobody lets go
of a single lock. -/
theorem exposed_change_recorded (e : Engine) (hopen : e.Opened) (hreads : e.Readable) (before after : List Action)
    (a : Action) (txn other : TxnId) (p : PageId) (change : Event) (access : Access) (f : FrameId)
    (hm : change ∈ (e.acts before).events a) (hchange : change.ChangedBy txn p)
    (hrel : ∀ b ∈ after, ∀ t q, b ≠ .ask (.release t q))
    (hlasts : Event.LastsOn p ((e.acts (before ++ [a])).history after)) (hne : other ≠ txn)
    (hget : ((e.acts (before ++ a :: after)).getPage other p access).2 = .ok f) :
    ∃ seen b rest, after = seen ++ b :: rest ∧ (e.acts (before ++ a :: seen)).Pending txn p ∧
      ((e.acts (before ++ a :: after)).Recorded txn p ((e.acts (before ++ a :: seen)).view? p) ∨
        (e.acts (before ++ a :: seen)).CommitMisses txn p b) := by
  have hfirm := hopen.firm.acts before
  have hpending := hfirm.pending_of_change hm hchange
  have hreadable := (path_act (e.acts before) a).readable ((path_acts e before).readable hreads)
  simp only [acts_append, acts_cons, acts_nil] at hlasts hget ⊢
  exact (hfirm.act a).recorded_or_missed hreadable hpending hrel hlasts hne hget

def failing (e : Engine) (fails : Device → Nat → Bool) : Engine := { e with faults := ⟨fails, 0⟩ }

theorem Opened.failing (h : e.Opened) (fails : Device → Nat → Bool) : (e.failing fails).Opened where
  toLayout := h.toLayout.congr rfl rfl rfl
  pool := h.pool
  locks := h.locks

def logFailsFrom (call : Nat) : Device → Nat → Bool
  | .logWrite, n => call ≤ n
  | _, _ => false

def fromLast : Sweep := ⟨List.reverse, List.reverse_perm⟩

/-- Of two pages of a transaction the commit logs the second one and fails at the first one. Others get at both, and the
second one is in a durable record. -/
theorem second_page_recorded_by_failed_commit :
    (((single 2 ⟨2, 2, none⟩ flagSchema).failing (logFailsFrom 6)).acts [.ask (.insert ⟨1⟩ ⟨0⟩ (flagRow true)),
        .ask (.insert ⟨1⟩ ⟨0⟩ (flagRow false)), .ask (.commit ⟨1⟩ fromLast)]).Recorded ⟨1⟩ ⟨⟨0⟩, 1⟩
      ((((single 2 ⟨2, 2, none⟩ flagSchema).failing (logFailsFrom 6)).acts
        [.ask (.insert ⟨1⟩ ⟨0⟩ (flagRow true)), .ask (.insert ⟨1⟩ ⟨0⟩ (flagRow false))]).view? ⟨⟨0⟩, 1⟩) := by
  obtain ⟨seen, b, rest, hsplit, _, hout⟩ := exposed_change_recorded
    ((single 2 ⟨2, 2, none⟩ flagSchema).failing (logFailsFrom 6))
    ((fresh_single (by decide) _ _).opened.failing _) (fun _ => rfl) [.ask (.insert ⟨1⟩ ⟨0⟩ (flagRow true))]
    [.ask (.commit ⟨1⟩ fromLast)] (.ask (.insert ⟨1⟩ ⟨0⟩ (flagRow false))) ⟨1⟩ ⟨2⟩ ⟨⟨0⟩, 1⟩
    (.stored ⟨1⟩ ⟨⟨⟨0⟩, 1⟩, 0⟩ (flagRow false)) .readOnly 1
    (List.mem_of_getElem? (i := 3) rfl) ⟨rfl, rfl⟩ (List.forall_mem_singleton.mpr fun _ _ => nofun) (by
      rintro l₁ event l₂ hl hevent
      obtain ⟨a, ha, hkind⟩ := mem_history (hl ▸ List.mem_append_right l₁ List.mem_cons_self)
      cases List.mem_singleton.mp ha
      rcases hevent with rfl | rfl <;> exact hkind.elim) (by decide) rfl
  obtain ⟨rfl, hcons⟩ : seen = [] ∧ b :: rest = [.ask (.commit ⟨1⟩ fromLast)] := by
    cases seen with
    | nil => exact ⟨rfl, hsplit.symm⟩
    | cons c more => cases more <;> cases hsplit
  cases hcons
  refine hout.resolve_right ?_
  rintro ⟨sweep, hsweep, _, hb⟩
  cases hsweep
  exact hb (List.mem_of_getElem? (i := 0) rfl)

def unlogged : Engine := flagStore.failing (logFailsFrom 0)

/-- When the log cannot be appended to, the commit fails, and the next reader of the page gets the row, of which there
is no record. -/
theorem failed_commit_exposes_row :
    (∃ err, ((unlogged.acts (rowCommitted.take 1)).complete ⟨1⟩ true .asListed).2 = .error err) ∧
    (∃ f, ((unlogged.acts rowCommitted).getPage ⟨2⟩ ⟨⟨0⟩, 0⟩ .readOnly).2 = .ok f ∧
      (((unlogged.acts rowCommitted).getPage ⟨2⟩ ⟨⟨0⟩, 0⟩ .readOnly).1.page? f).bind (Page.tuple? · 0) ≠ none) ∧
    (unlogged.acts storeAndFetch).logged = [] :=
  ⟨⟨_, rfl⟩, ⟨0, rfl, by decide +kernel⟩, rfl⟩

end Engine

end RowStore
