import RowStore.Proofs.History

/-!
# Which events an action can leave

A fetch and a scan leave nothing but grants to their own transaction. An insert stores its own row and appends pages, a
delete removes the row it was asked to, a commit makes baselines, an abort restores, a flush writes, and only
the end of a transaction leaves its completion.
-/

namespace RowStore

namespace Action

/-- Whether an action may leave an event in its history. -/
def MayLeave : Action → Event → Prop
  | .ask (.get txn page access), .granted t p m => t = txn ∧ p = page ∧ m = access.lockMode
  | .ask (.insert txn _ _), .granted t _ _ => t = txn
  | .ask (.insert txn _ tuple), .stored t _ u => t = txn ∧ u = tuple
  | .ask (.insert _ _ _), .appended _ => True
  | .ask (.insert _ _ _), .discarded _ => True
  | .ask (.insert txn _ _), .handed t _ => t = txn
  | .ask (.delete txn _), .granted t _ _ => t = txn
  | .ask (.delete txn record), .removed t r => t = txn ∧ record = some r
  | .ask (.delete _ _), .discarded _ => True
  | .ask (.delete txn _), .handed t _ => t = txn
  | .ask (.commit _ _), .based _ => True
  | .ask (.commit txn _), .completed t => t = txn
  | .ask (.abort _ _), .restored _ => True
  | .ask (.abort txn _), .completed t => t = txn
  | .ask (.flush _), .written _ => True
  | .ask (.flushTxn _ _), .written _ => True
  | .ask (.flushAll _), .written _ => True
  | .ask (.discard page), .discarded p => p = page
  | .ask (.release txn page), .released t p => t = txn ∧ p = page
  | .next s, .granted t _ m => t = s.txn ∧ m = .shared
  | .scan txn _, .granted t _ m => t = txn ∧ m = .shared
  | _, _ => False

end Action

namespace Engine

variable {P : Event → Prop}

theorem forall_getEvents {e : Engine} {txn : TxnId} {id : PageId} {access : Access}
    (hg : P (.granted txn id access.lockMode)) : ∀ ev ∈ e.getEvents txn id access, P ev := by
  unfold getEvents
  split
  · exact List.forall_mem_singleton.mpr hg
  · exact List.forall_mem_nil _

theorem appended_not_mem_getEvents {e : Engine} {txn : TxnId} {id : PageId} {access : Access} (page : PageId) :
    .appended page ∉ e.getEvents txn id access := fun hm =>
  forall_getEvents (P := (· ≠ .appended page)) nofun _ hm rfl

theorem forall_storeEvents {txn : TxnId} {page : Page} {t : Tuple} (hs : ∀ r, P (.stored txn r t)) :
    ∀ ev ∈ storeEvents txn page t, P ev := by
  unfold storeEvents
  split
  · exact List.forall_mem_nil _
  · exact List.forall_mem_singleton.mpr (hs _)

theorem forall_insertAmongEvents {txn : TxnId} {table : TableId} {t : Tuple}
    (hg : ∀ page mode, P (.granted txn page mode)) (hs : ∀ r, P (.stored txn r t)) (left n : Nat) (e : Engine) :
    ∀ ev ∈ insertAmongEvents txn table t left n e, P ev := by
  induction left generalizing n e with
  | zero => exact List.forall_mem_nil _
  | succ left ih =>
    unfold insertAmongEvents
    refine List.forall_mem_append.mpr ⟨forall_getEvents (hg _ _), ?_⟩
    split
    · exact List.forall_mem_nil _
    · split
      · exact ih _ _
      · split
        · exact forall_storeEvents hs
        · exact ih _ _

theorem forall_storeAtEvents {e : Engine} {txn : TxnId} {id : PageId} {t : Tuple}
    (hg : P (.granted txn id Access.readWrite.lockMode)) (hs : ∀ r, P (.stored txn r t)) :
    ∀ ev ∈ e.storeAtEvents txn id t, P ev := by
  unfold storeAtEvents
  refine List.forall_mem_append.mpr ⟨forall_getEvents hg, ?_⟩
  split
  · exact List.forall_mem_nil _
  · rename_i e' f _
    cases e'.page? f with
    | none => exact List.forall_mem_nil _
    | some page => exact forall_storeEvents hs

theorem forall_insertIntoEvents {e : Engine} {txn : TxnId} {table : Table} {t : Tuple}
    (hg : ∀ page mode, P (.granted txn page mode)) (hs : ∀ r, P (.stored txn r t)) (ha : ∀ page, P (.appended page)) :
    ∀ ev ∈ e.insertIntoEvents txn table t, P ev := by
  unfold insertIntoEvents
  split
  · exact List.forall_mem_nil _
  · refine List.forall_mem_append.mpr ⟨forall_insertAmongEvents hg hs _ _ e, ?_⟩
    split
    · unfold insertAtEndEvents
      split
      · exact List.forall_mem_nil _
      · exact List.forall_mem_cons.mpr ⟨ha _, forall_storeAtEvents (hg _ _) hs⟩
    · exact List.forall_mem_nil _

theorem forall_deleteFromEvents {e : Engine} {txn : TxnId} {table : Table} {record : RecordId}
    (hg : ∀ page mode, P (.granted txn page mode)) (hr : P (.removed txn record)) :
    ∀ ev ∈ e.deleteFromEvents txn table record, P ev := by
  unfold deleteFromEvents
  split
  · exact List.forall_mem_nil _
  · refine List.forall_mem_append.mpr ⟨forall_getEvents (hg _ _), ?_⟩
    split
    · exact List.forall_mem_nil _
    · rename_i e' f _
      cases e'.page? f with
      | none => exact List.forall_mem_nil _
      | some page =>
        show ∀ ev ∈ removeEvents txn page record, P ev
        unfold removeEvents
        split
        · exact List.forall_mem_nil _
        · exact List.forall_mem_singleton.mpr hr

theorem forall_followUpAllEvents {txn : TxnId} {id : PageId} (hg : ∀ page mode, P (.granted txn page mode))
    (hd : ∀ page, P (.discarded page)) (us : List FollowUp) (e : Engine) :
    ∀ ev ∈ followUpAllEvents txn id us e, P ev := by
  induction us generalizing e with
  | nil => exact List.forall_mem_nil _
  | cons u rest ih =>
    refine List.forall_mem_append.mpr ⟨?_, ih _⟩
    cases u with
    | discard => exact List.forall_mem_singleton.mpr (hd _)
    | reload => exact forall_getEvents (hg _ _)
    | fetch n => exact forall_getEvents (hg _ _)

theorem forall_finishEvents {txn : TxnId} {table : Table} (hg : ∀ page mode, P (.granted txn page mode))
    (hd : ∀ page, P (.discarded page)) (hh : ∀ f, P (.handed txn f)) (r : Result (List FrameId)) :
    ∀ ev ∈ finishEvents txn table r, P ev := by
  obtain ⟨e, result⟩ := r
  cases result with
  | error err => exact List.forall_mem_nil _
  | ok changed =>
    refine List.forall_mem_append.mpr ⟨?_, ?_⟩
    · clear hh
      induction changed generalizing e with
      | nil => exact List.forall_mem_nil _
      | cons f rest ih =>
        unfold followUpsEvents
        split
        · exact ih e
        · exact List.forall_mem_append.mpr ⟨forall_followUpAllEvents hg hd _ _, ih _⟩
    · generalize (e.followUps txn table changed).pool = p
      induction changed generalizing p with
      | nil => exact List.forall_mem_nil _
      | cons f rest ih =>
        unfold handBackEvents
        refine List.forall_mem_append.mpr ⟨?_, ?_⟩
        · split
          · exact List.forall_mem_nil _
          · exact List.forall_mem_singleton.mpr (hh f)
        · split
          · exact List.forall_mem_nil _
          · exact ih _

theorem forall_commitEvents {txn : TxnId} (hb : ∀ page, P (.based page)) (frames : List FrameId) (e : Engine) :
    ∀ ev ∈ commitEvents txn frames e, P ev := by
  induction frames generalizing e with
  | nil => exact List.forall_mem_nil _
  | cons f rest ih =>
    unfold commitEvents
    split
    · exact List.forall_mem_nil _
    · refine List.forall_mem_append.mpr ⟨?_, ih _⟩
      cases e.page? f with
      | none => exact List.forall_mem_nil _
      | some page => exact List.forall_mem_singleton.mpr (hb page.id)

theorem forall_rollbackEvents (hr : ∀ page, P (.restored page)) (frames : List FrameId) (e : Engine) :
    ∀ ev ∈ rollbackEvents frames e, P ev := by
  induction frames generalizing e with
  | nil => exact List.forall_mem_nil _
  | cons f rest ih =>
    unfold rollbackEvents
    split
    · exact ih _
    · refine List.forall_mem_append.mpr ⟨?_, ih _⟩
      cases e.page? f with
      | none => exact List.forall_mem_nil _
      | some page => exact List.forall_mem_singleton.mpr (hr page.id)

theorem forall_writeEvents {e : Engine} {f : FrameId} (hw : ∀ page, P (.written page)) :
    ∀ ev ∈ e.writeEvents f, P ev := by
  unfold writeEvents
  split
  · exact List.forall_mem_singleton.mpr (hw _)
  · exact List.forall_mem_nil _

theorem forall_writeAllEvents (hw : ∀ page, P (.written page)) (frames : List FrameId) (e : Engine) :
    ∀ ev ∈ writeAllEvents frames e, P ev := by
  induction frames generalizing e with
  | nil => exact List.forall_mem_nil _
  | cons f rest ih =>
    refine List.forall_mem_append.mpr ⟨forall_writeEvents hw, ?_⟩
    split
    · exact List.forall_mem_nil _
    · exact ih _

theorem forall_fillEvents {txn : TxnId} {table : TableId} (hg : ∀ page, P (.granted txn page .shared)) (left : Nat)
    (e : Engine) (c : Cursor) : ∀ ev ∈ fillEvents txn table left e c, P ev := by
  induction left generalizing e c with
  | zero => exact List.forall_mem_nil _
  | succ left ih =>
    unfold fillEvents
    split
    · refine List.forall_mem_append.mpr ⟨forall_getEvents (hg _), ?_⟩
      split
      · exact List.forall_mem_nil _
      · exact ih _ _
    · exact List.forall_mem_nil _

theorem forall_rowsEvents {txn : TxnId} {table : TableId} (hg : ∀ page, P (.granted txn page .shared)) (left n : Nat)
    (e : Engine) : ∀ ev ∈ rowsEvents txn table left n e, P ev := by
  induction left generalizing n e with
  | zero => exact List.forall_mem_nil _
  | succ left ih =>
    refine List.forall_mem_append.mpr ⟨forall_getEvents (hg _), ?_⟩
    split
    · exact List.forall_mem_nil _
    · exact ih _ _

/-- An action leaves only events of its own kinds. -/
theorem mayLeave_of_mem_events {e : Engine} {a : Action} : ∀ ev ∈ e.events a, a.MayLeave ev := by
  cases a with
  | ask r =>
    cases r with
    | get txn page access => exact forall_getEvents ⟨rfl, rfl, rfl⟩
    | insert txn table t =>
      show ∀ ev ∈ e.insertEvents txn table t, _
      unfold insertEvents
      split
      · exact List.forall_mem_nil _
      · exact List.forall_mem_append.mpr
          ⟨forall_insertIntoEvents (fun _ _ => rfl) (fun _ => ⟨rfl, rfl⟩) fun _ => trivial,
            forall_finishEvents (fun _ _ => rfl) (fun _ => trivial) (fun _ => rfl) _⟩
    | delete txn record =>
      show ∀ ev ∈ e.deleteEvents txn record, _
      unfold deleteEvents
      split
      · exact List.forall_mem_nil _
      · split
        · exact List.forall_mem_nil _
        · exact List.forall_mem_append.mpr ⟨forall_deleteFromEvents (fun _ _ => rfl) ⟨rfl, rfl⟩,
            forall_finishEvents (fun _ _ => rfl) (fun _ => trivial) (fun _ => rfl) _⟩
    | commit txn sweep =>
      exact List.forall_mem_append.mpr
        ⟨forall_commitEvents (fun _ => trivial) _ e, List.forall_mem_singleton.mpr rfl⟩
    | abort txn sweep =>
      exact List.forall_mem_append.mpr
        ⟨forall_rollbackEvents (fun _ => trivial) _ e, List.forall_mem_singleton.mpr rfl⟩
    | flush page =>
      show ∀ ev ∈ (e.pool.resident.find? page).elim [] e.writeEvents, _
      cases e.pool.resident.find? page with
      | none => exact List.forall_mem_nil _
      | some f => exact forall_writeEvents fun _ => trivial
    | flushTxn txn sweep => exact forall_writeAllEvents (fun _ => trivial) _ e
    | flushAll sweep => exact forall_writeAllEvents (fun _ => trivial) _ e
    | discard page => exact List.forall_mem_singleton.mpr rfl
    | release txn page => exact List.forall_mem_singleton.mpr ⟨rfl, rfl⟩
  | next s =>
    show ∀ ev ∈ s.cursor.elim [] _, _
    cases s.cursor with
    | none => exact List.forall_mem_nil _
    | some c => exact forall_fillEvents (fun _ => ⟨rfl, rfl⟩) _ e c
  | scan txn table =>
    unfold events
    simp only
    split
    · exact List.forall_mem_nil _
    · exact forall_rowsEvents (fun _ => ⟨rfl, rfl⟩) _ _ e

theorem mem_history {e : Engine} {as : List Action} {ev : Event} (h : ev ∈ e.history as) :
    ∃ a ∈ as, a.MayLeave ev := by
  induction as generalizing e with
  | nil => cases h
  | cons a rest ih =>
    rcases List.mem_append.mp h with hev | hev
    · exact ⟨a, List.mem_cons_self, mayLeave_of_mem_events ev hev⟩
    · obtain ⟨b, hb, hl⟩ := ih hev
      exact ⟨b, List.mem_cons_of_mem a hb, hl⟩

end Engine

end RowStore
