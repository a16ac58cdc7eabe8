import RowStore.Proofs.EventKinds
import RowStore.Proofs.TableFiles

/-!
# Page numbers

Page numbers are of fixed width, so that a file may grow longer than they last; a page appended to such a file would
overwrite one that is there. Nothing makes a file shorter, so a run during which pages were appended to short files
only is one that ends with short files, or one that appends nothing. An action appends at most one page.
-/

namespace RowStore.Engine

/-- Every table's file is shorter than page numbers last. -/
def InRange (e : Engine) : Prop :=
  ∀ id table, e.catalog.table? id = .ok table →
    (e.disk.contents table.file).length < PageFile.numbers * e.pageSize

theorem InRange.congr {e e' : Engine} (h : e.InRange) (hc : e'.catalog = e.catalog) (hs : e'.pageSize = e.pageSize)
    (hf : e'.disk.files = e.disk.files) : e'.InRange := by
  intro id table ht
  rw [hc] at ht
  unfold Disk.contents
  rw [hs, hf]
  exact h id table ht

theorem Step.length_le {e e' : Engine} {l : List Event} (h : Step e l e') (file : Nat) :
    (e.disk.contents file).length ≤ (e'.disk.contents file).length := by
  have hset : ∀ (f : Nat) (c : SparseBytes), (e.disk.contents f).length ≤ c.length →
      (e.disk.contents file).length ≤ ((e.disk.setContents f c).contents file).length := by
    intro f c hc
    by_cases hf : f < e.disk.files.length
    · rw [Disk.contents_setContents hf]
      split
      · rename_i hff
        rw [hff]
        exact hc
      · exact Nat.le_refl _
    · have hsame : e.disk.setContents f c = e.disk := by
        unfold Disk.setContents
        rw [List.set_eq_of_length_le (Nat.le_of_not_lt hf)]
      simp only [hsame, Nat.le_refl]
  cases h with
  | append => exact hset _ _ (PageFile.length_le_append ..)
  | @write _ _ page _ table =>
    show _ ≤ ((e.disk.writePage table page).1.contents file).length
    unfold Disk.writePage
    split
    · exact Nat.le_refl _
    · exact hset _ _ (PageFile.length_le_write ..)
  | call | countRead | log | force | touch | load | grant | store | remove | base | restore | discard | hand
  | complete | release => exact Nat.le_refl _

theorem Step.inRange {e e' : Engine} {l : List Event} (h : Step e l e') (hr : e'.InRange) : e.InRange := by
  intro id table ht
  obtain ⟨hc, hs, _⟩ := h.fixed
  have hlt := hr id table (by rw [hc]; exact ht)
  rw [hs] at hlt
  exact Nat.lt_of_le_of_lt (h.length_le table.file) hlt

/-- If all files are short at the end they were short all the time. -/
theorem Path.inRange {e e' : Engine} {l : List Event} (h : Path e l e') (hr : e'.InRange) : e.InRange := by
  induction h with
  | refl => exact hr
  | step hs _ ih => exact hs.inRange (ih hr)

/-- Steps one after the other, with pages appended only while all files are short. -/
inductive Ranged : Engine → List Event → Engine → Prop
  | refl (e : Engine) : Ranged e [] e
  | step {e m e' : Engine} {l l' : List Event} (h : Step e l m) (hr : ∀ page, .appended page ∈ l → e.InRange)
      (rest : Ranged m l' e') : Ranged e (l ++ l') e'

theorem Ranged.one {e e' : Engine} {l : List Event} (h : Step e l e') (hr : ∀ page, .appended page ∈ l → e.InRange) :
    Ranged e l e' := by
  have hp := Ranged.step h hr (.refl e')
  rwa [List.append_nil] at hp

theorem Ranged.path {e e' : Engine} {l : List Event} (h : Ranged e l e') : Path e l e' := by
  induction h with
  | refl => exact .refl _
  | step hs _ _ ih => exact .step hs ih

theorem Ranged.trans {e m e' : Engine} {l l' : List Event} (h : Ranged e l m) (h' : Ranged m l' e') :
    Ranged e (l ++ l') e' := by
  induction h with
  | refl => exact h'
  | step hs hr _ ih =>
    rw [List.append_assoc]
    exact .step hs hr (ih h')

/-- A path is ranged if all files are short at its end. -/
theorem Path.ranged {e e' : Engine} {l : List Event} (h : Path e l e') (hr : e'.InRange) : Ranged e l e' := by
  induction h with
  | refl => exact .refl _
  | step hs hrest ih => exact .step hs (fun _ _ => hs.inRange (hrest.inRange hr)) (ih hr)

/-- A path is ranged if nothing is appended on it. -/
theorem Path.ranged_of_not_appended {e e' : Engine} {l : List Event} (h : Path e l e')
    (hl : ∀ page, .appended page ∉ l) : Ranged e l e' := by
  induction h with
  | refl => exact .refl _
  | step hs _ ih =>
    exact .step hs (fun page hm => absurd (List.mem_append_left _ hm) (hl page))
      (ih fun page hm => hl page (List.mem_append_right _ hm))

theorem Path.files_eq {e e' : Engine} {l : List Event} (h : Path e l e') (ha : ∀ page, .appended page ∉ l)
    (hw : ∀ page, .written page ∉ l) : e'.disk.files = e.disk.files := by
  induction h with
  | refl => rfl
  | @step e m e' l l' hs _ ih =>
    have hfirst : m.disk.files = e.disk.files := by
      cases hs with
      | append => exact absurd (List.mem_append_left _ List.mem_cons_self) (ha _)
      | write => exact absurd (List.mem_append_left _ List.mem_cons_self) (hw _)
      | call | countRead | log | force | touch | load | grant | store | remove | base | restore | discard | hand
      | complete | release => rfl
    exact (ih (fun page hm => ha page (List.mem_append_right _ hm)) fun page hm =>
      hw page (List.mem_append_right _ hm)).trans hfirst

theorem ranged_appendPage {e : Engine} {id : TableId} {table : Table} (hr : e.InRange)
    (ht : e.catalog.table? id = .ok table) :
    match e.appendPage table with
    | (e', .error _) => Ranged e [] e'
    | (e', .ok new) => new = ⟨table.id, e.disk.pageCount e.pageSize table⟩ ∧ Ranged e [.appended new] e' := by
  unfold appendPage
  have hcall := Step.call e .append
  unfold Engine.call at hcall ⊢
  cases e.faults.fails .append e.faults.next with
  | true => exact .one hcall fun _ _ => hr
  | false => exact ⟨rfl, (Ranged.one hcall fun _ _ => hr).trans (.one (.append ht) fun _ _ => hr)⟩

theorem ranged_insertAtEnd {e : Engine} {txn : TxnId} {id : TableId} {table : Table} (t : Tuple) (hr : e.InRange)
    (ht : e.catalog.table? id = .ok table) :
    Ranged e (e.insertAtEndEvents txn table t) (e.insertAtEnd txn table t).1 := by
  have happend := ranged_appendPage hr ht
  rw [insertAtEnd_eq]
  unfold insertAtEndEvents
  generalize e.appendPage table = outcome at happend ⊢
  obtain ⟨e₁, result⟩ := outcome
  cases result with
  | error err => exact happend
  | ok new =>
    refine happend.2.trans ((path_storeAt e₁ txn new t).ranged_of_not_appended fun page hm => ?_)
    exact forall_storeAtEvents (P := (· ≠ .appended page)) nofun (fun _ => nofun) _ hm rfl

/-- A walk over the pages of a table appends and writes nothing. -/
theorem ranged_insertAmong (txn : TxnId) (table : TableId) (t : Tuple) (left n : Nat) (e : Engine) :
    Ranged e (insertAmongEvents txn table t left n e) (insertAmong txn table t left n e).1 ∧
      (insertAmong txn table t left n e).1.disk.files = e.disk.files := by
  have hpath := path_insertAmong txn table t left n e
  have hkept : ∀ page, .appended page ∉ insertAmongEvents txn table t left n e := fun page hm =>
    forall_insertAmongEvents (P := (· ≠ .appended page)) (fun _ _ => nofun) (fun _ => nofun) _ _ e _ hm rfl
  refine ⟨hpath.ranged_of_not_appended hkept, hpath.files_eq hkept fun page hm => ?_⟩
  exact forall_insertAmongEvents (P := (· ≠ .written page)) (fun _ _ => nofun) (fun _ => nofun) _ _ e _ hm rfl

theorem ranged_insertInto {e : Engine} {txn : TxnId} {id : TableId} {table : Table} (t : Tuple) (hr : e.InRange)
    (ht : e.catalog.table? id = .ok table) :
    Ranged e (e.insertIntoEvents txn table t) (e.insertInto txn table t).1 := by
  unfold insertIntoEvents insertInto
  split
  · exact .refl e
  · obtain ⟨hwalk, hfiles⟩ := ranged_insertAmong txn table.id t (e.disk.pageCount e.pageSize table) 0 e
    generalize insertAmong txn table.id t (e.disk.pageCount e.pageSize table) 0 e = outcome at hwalk hfiles ⊢
    obtain ⟨e₁, result⟩ := outcome
    obtain ⟨hc, hs, _⟩ := hwalk.path.fixed
    cases result with
    | error err => exact hwalk.trans (.refl e₁)
    | ok found =>
      cases found with
      | some f => exact hwalk.trans (.refl e₁)
      | none =>
        have ht₁ : e₁.catalog.table? id = .ok table := by
          rw [← ht, ← hc]
        exact hwalk.trans (ranged_insertAtEnd t (hr.congr hc hs hfiles) ht₁)

/-- An action appends at most one page, so that it is ranged if all files are short before it. -/
theorem ranged_act {e : Engine} (hr : e.InRange) (a : Action) : Ranged e (e.events a) (e.act a) := by
  by_cases hl : ∃ page, .appended page ∈ e.events a
  · obtain ⟨page, hm⟩ := hl
    have hk := mayLeave_of_mem_events _ hm
    cases a with
    | ask r =>
      cases r with
      | insert txn id t =>
        show Ranged e (e.insertEvents txn id t) (e.insertTuple txn id t).1
        unfold insertEvents insertTuple
        cases ht : e.catalog.table? id with
        | error err => exact .refl e
        | ok table =>
          have hfinish := path_finishChange txn table (e.insertInto txn table t) (.refl _)
          refine (ranged_insertInto t hr ht).trans (hfinish.ranged_of_not_appended fun page hm => ?_)
          exact forall_finishEvents (P := (· ≠ .appended page)) (fun _ _ => nofun) (fun _ => nofun) (fun _ => nofun) _
            _ hm rfl
      | get | delete | commit | abort | flush | flushTxn | flushAll | discard | release => exact hk.elim
    | next s => exact hk.elim
    | scan txn table => exact hk.elim
  · exact (path_act e a).ranged_of_not_appended fun page hm => hl ⟨page, hm⟩

end RowStore.Engine
