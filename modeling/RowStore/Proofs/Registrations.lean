import RowStore.Catalog
import Mathlib.Data.List.Induction

/-!
# Registered tables

The catalog files a table under its id and the id under the table's name. A registration may collide with two earlier
tables at once, with one by name and with another by id, and has to take both of them out of both maps. It does: the
maps stay inverse to each other, whatever is registered in whatever order, and a table stands in the catalog exactly
from its registration up to the next one under its id or its name.
-/

namespace RowStore

theorem Dict.erase_of_find?_eq_none {κ υ : Type} [DecidableEq κ] {d : Dict κ υ} {k : κ} (h : d.find? k = none) :
    d.erase k = d := by
  obtain ⟨entries, hdistinct⟩ := d
  rw [find?, Option.map_eq_none_iff, List.find?_eq_none] at h
  simp only [erase, mk.injEq]
  exact List.filter_eq_self.mpr fun entry he => decide_eq_true fun hk => h entry he (decide_eq_true hk)

inductive CatalogChange where
  | add (r : Registration)
  | clear

namespace CatalogChange

/-- Whether a change leaves a registered table in the catalog. -/
def Spares (q : Registration) : CatalogChange → Prop
  | .add r => r.table.id ≠ q.table.id ∧ r.name ≠ q.name
  | .clear => False

/-- Whether a table is registered by one of the changes and left in the catalog by all that follow. -/
def Stands (changes : List CatalogChange) (q : Registration) : Prop :=
  ∃ earlier later, changes = earlier ++ .add q :: later ∧ ∀ change ∈ later, change.Spares q

end CatalogChange

namespace Catalog

variable {c : Catalog} {r q : Registration} {id : TableId} {name : String} {table : Table}

def change (c : Catalog) : CatalogChange → Catalog
  | .add r => c.add r
  | .clear => empty

def after (c : Catalog) (changes : List CatalogChange) : Catalog := changes.foldl change c

/-- Whether a table is in the catalog, as it was registered. -/
def Lists (c : Catalog) (q : Registration) : Prop :=
  c.table? q.table.id = .ok q.table ∧ c.nameOf? q.table.id = some q.name

/-- The maps from ids to names and from names to ids are inverse to each other, every table is filed under its own
id, and the list of ids goes up strictly and has the ids of the tables. -/
structure Inverse (c : Catalog) : Prop where
  names_ids : ∀ name id, c.idOf? name = some id ↔ c.nameOf? id = some name
  own_id : ∀ id table, c.table? id = .ok table → table.id = id
  named : ∀ id, (∃ table, c.table? id = .ok table) ↔ ∃ name, c.nameOf? id = some name
  mem_ids : ∀ id, id ∈ c.ids ↔ ∃ table, c.table? id = .ok table
  ascending : c.ids.Pairwise fun a b => a.number < b.number

/-- A catalog after a table is registered: the table is there, whatever had its id or its name is gone from under its
own id and its own name, every other table is where it was, and nothing else has come in. -/
structure Replaced (c : Catalog) (r : Registration) (c' : Catalog) : Prop where
  entered : c'.Lists r ∧ c'.idOf? r.name = some r.table.id
  removed : ∀ id name, c.nameOf? id = some name → id = r.table.id ∨ name = r.name →
    (id ≠ r.table.id → c'.table? id = .error (.tableNotFound id) ∧ c'.nameOf? id = none) ∧
      (name ≠ r.name → c'.idOf? name = none)
  kept : ∀ id name, c.nameOf? id = some name → id ≠ r.table.id → name ≠ r.name →
    c'.table? id = c.table? id ∧ c'.nameOf? id = some name ∧ c'.idOf? name = some id
  only : ∀ q, c'.Lists q → q = r ∨ c.Lists q

theorem table?_eq_ok_iff : c.table? id = .ok table ↔ ∃ r, c.tables.find? id = some r ∧ r.table = table := by
  unfold table?
  cases c.tables.find? id <;> simp

theorem table?_eq_error (h : c.tables.find? id = none) : c.table? id = .error (.tableNotFound id) := by
  rw [table?, h]

theorem nameOf?_eq_some_iff : c.nameOf? id = some name ↔ ∃ r, c.tables.find? id = some r ∧ r.name = name :=
  Option.map_eq_some_iff

theorem find?_eq_some_iff :
    c.tables.find? id = some q ↔ c.table? id = .ok q.table ∧ c.nameOf? id = some q.name := by
  rw [table?_eq_ok_iff, nameOf?_eq_some_iff]
  constructor
  · exact fun h => ⟨⟨q, h, rfl⟩, q, h, rfl⟩
  · rintro ⟨⟨r, hr, htable⟩, r', hr', hname⟩
    obtain rfl : r = r' := Option.some.inj (hr.symm.trans hr')
    cases q
    cases htable
    cases hname
    exact hr

theorem mem_ids_iff : id ∈ c.ids ↔ (c.tables.find? id).isSome := by
  rw [ids, List.mem_mergeSort, Dict.mem_keys_iff]

theorem pairwise_ids (c : Catalog) : c.ids.Pairwise fun a b => a.number < b.number := by
  have hsorted : c.ids.Pairwise fun a b => decide (a.number ≤ b.number) = true :=
    List.pairwise_mergeSort (fun a b d hab hbd => by simp only [decide_eq_true_eq] at *; omega)
      (fun a b => by simp only [Bool.or_eq_true, decide_eq_true_eq]; omega) _
  have hdistinct : c.ids.Nodup := (List.mergeSort_perm _ _).nodup_iff.mpr c.tables.distinct
  refine hsorted.imp₂ (fun a b hle hne => ?_) hdistinct
  have hle : a.number ≤ b.number := of_decide_eq_true hle
  have hne : a.number ≠ b.number := fun he => hne (by cases a; cases b; cases he; rfl)
  omega

/-- Every table is filed under its own id, and the id under the table's name. -/
structure Paired (c : Catalog) : Prop where
  own_id : ∀ id r, c.tables.find? id = some r → r.table.id = id
  names : ∀ name id, c.names.find? name = some id ↔ ∃ r, c.tables.find? id = some r ∧ r.name = name

theorem paired_empty : empty.Paired := ⟨nofun, fun _ _ => ⟨nofun, nofun⟩⟩

theorem names_dropName (c : Catalog) (name : String) : (c.dropName name).names = c.names.erase name := by
  unfold dropName
  cases hn : c.names.find? name with
  | none => exact (Dict.erase_of_find?_eq_none hn).symm
  | some old => rfl

theorem tables_dropId (c : Catalog) (id : TableId) : (c.dropId id).tables = c.tables.erase id := by
  unfold dropId
  cases ht : c.tables.find? id with
  | none => exact (Dict.erase_of_find?_eq_none ht).symm
  | some old => rfl

namespace Paired

theorem name_eq_iff (h : c.Paired) (hr : c.tables.find? id = some r) :
    r.name = name ↔ c.names.find? name = some id := by
  rw [h.names]
  constructor
  · exact fun hname => ⟨r, hr, hname⟩
  · rintro ⟨r', hr', hname⟩
    obtain rfl : r' = r := Option.some.inj (hr'.symm.trans hr)
    exact hname

/-- Dropping a name takes the table away that has it. -/
theorem find?_tables_dropName (h : c.Paired) :
    (c.dropName name).tables.find? id = some r ↔ c.tables.find? id = some r ∧ r.name ≠ name := by
  refine Iff.trans ?_ (and_congr_right fun hr => not_congr (h.name_eq_iff hr)).symm
  unfold dropName
  cases c.names.find? name with
  | none => simp
  | some old =>
    show (c.tables.erase old).find? id = some r ↔ _
    rw [Dict.find?_erase]
    by_cases he : old = id <;> simp [he]

/-- Dropping an id takes the name away that leads to it. -/
theorem find?_names_dropId (h : c.Paired) {other : TableId} :
    (c.dropId id).names.find? name = some other ↔ c.names.find? name = some other ∧ other ≠ id := by
  have heq : c.names.find? name = some other →
      (other = id ↔ ∃ r, c.tables.find? id = some r ∧ r.name = name) := fun hn => by
    rw [← h.names, hn, Option.some_inj]
  refine Iff.trans ?_ (and_congr_right fun hn => not_congr (heq hn)).symm
  unfold dropId
  cases c.tables.find? id with
  | none => simp
  | some old =>
    show (c.names.erase old.name).find? name = some other ↔ _
    rw [Dict.find?_erase]
    by_cases he : old.name = name <;> simp [he]

theorem dropName (h : c.Paired) (name : String) : (c.dropName name).Paired := by
  refine ⟨fun id r hr => h.own_id id r (h.find?_tables_dropName.mp hr).1, fun other id => ?_⟩
  rw [names_dropName, Dict.find?_erase]
  simp only [h.find?_tables_dropName]
  split
  · rename_i he
    -- Nothing is left under the name, and no table has it.
    exact ⟨nofun, fun ⟨r, ⟨_, hne⟩, hname⟩ => absurd (hname.trans he.symm) hne⟩
  · rename_i hne
    rw [h.names]
    exact exists_congr fun r => ⟨fun ⟨hr, hname⟩ => ⟨⟨hr, fun he => hne (he.symm.trans hname)⟩, hname⟩,
      fun ⟨⟨hr, _⟩, hname⟩ => ⟨hr, hname⟩⟩

/-- Under an id stands the new table if the id is its own, and otherwise what stood there, unless it has the same
name. -/
theorem find?_tables_add (h : c.Paired) : (c.add r).tables.find? id = some q ↔
    if r.table.id = id then r = q else c.tables.find? id = some q ∧ q.name ≠ r.name := by
  rw [Catalog.add, Dict.find?_insert]
  split
  · exact Option.some_inj
  · rename_i hne
    rw [tables_dropId, Dict.find?_erase, if_neg hne, h.find?_tables_dropName]

/-- A name leads to the new table if it is its own, and otherwise where it led, unless that is the same id. -/
theorem find?_names_add (h : c.Paired) : (c.add r).names.find? name = some id ↔
    if r.name = name then r.table.id = id else c.names.find? name = some id ∧ id ≠ r.table.id := by
  rw [Catalog.add, Dict.find?_insert]
  split
  · exact Option.some_inj
  · rename_i hne
    rw [(h.dropName r.name).find?_names_dropId, names_dropName, Dict.find?_erase, if_neg hne]

theorem add (h : c.Paired) (r : Registration) : (c.add r).Paired := by
  constructor
  · intro id q hq
    rw [h.find?_tables_add] at hq
    split at hq
    · rename_i he
      rw [← hq, he]
    · exact h.own_id id q hq.1
  · intro name id
    rw [h.find?_names_add, h.names]
    simp only [h.find?_tables_add]
    by_cases hname : r.name = name
    · by_cases hid : r.table.id = id
      · simp [hname, hid]
      · -- What stands under another id has another name.
        simp only [if_pos hname, hid, if_false, false_iff, not_exists, not_and]
        exact fun q hq he => hq.2 (he.trans hname.symm)
    · by_cases hid : r.table.id = id
      · simp [hname, hid]
      · simp only [if_neg hname, if_neg hid]
        constructor
        · rintro ⟨⟨q, hq, rfl⟩, _⟩
          exact ⟨q, ⟨hq, Ne.symm hname⟩, rfl⟩
        · rintro ⟨q, ⟨hq, _⟩, rfl⟩
          exact ⟨⟨q, hq, rfl⟩, Ne.symm hid⟩

/-- The new table is listed, and of the others those that have neither its id nor its name. -/
theorem lists_add (h : c.Paired) (r q : Registration) :
    (c.add r).Lists q ↔ q = r ∨ c.Lists q ∧ r.table.id ≠ q.table.id ∧ r.name ≠ q.name := by
  unfold Lists
  rw [← find?_eq_some_iff, ← find?_eq_some_iff, h.find?_tables_add]
  split
  · rename_i he
    exact ⟨fun hr => .inl hr.symm, fun hq => hq.elim Eq.symm fun hold => absurd he hold.2.1⟩
  · rename_i hne
    constructor
    · exact fun ⟨hq, hname⟩ => .inr ⟨hq, hne, hname.symm⟩
    · rintro (rfl | ⟨hq, _, hname⟩)
      · exact absurd rfl hne
      · exact ⟨hq, hname.symm⟩

theorem idOf?_eq_some_iff (h : c.Paired) : c.idOf? name = some id ↔ c.nameOf? id = some name := by
  rw [nameOf?_eq_some_iff]
  exact h.names name id

theorem inverse (h : c.Paired) : c.Inverse where
  names_ids _ _ := h.idOf?_eq_some_iff
  own_id id table ht := by
    obtain ⟨r, hr, rfl⟩ := table?_eq_ok_iff.mp ht
    exact h.own_id id r hr
  named id := by
    simp only [table?_eq_ok_iff, nameOf?_eq_some_iff]
    exact ⟨fun ⟨_, r, hr, _⟩ => ⟨r.name, r, hr, rfl⟩, fun ⟨_, r, hr, _⟩ => ⟨r.table, r, hr, rfl⟩⟩
  mem_ids id := by
    simp only [mem_ids_iff, table?_eq_ok_iff, Option.isSome_iff_exists]
    exact ⟨fun ⟨r, hr⟩ => ⟨r.table, r, hr, rfl⟩, fun ⟨_, r, hr, _⟩ => ⟨r, hr⟩⟩
  ascending := c.pairwise_ids

theorem replaced (h : c.Paired) (r : Registration) : c.Replaced r (c.add r) := by
  have hlists := h.lists_add r
  refine ⟨⟨(hlists r).mpr (.inl rfl), h.find?_names_add.mpr (by rw [if_pos rfl])⟩, ?_, ?_,
    fun q hq => ((hlists q).mp hq).imp_right And.left⟩
  · intro id name hname hcollides
    obtain ⟨old, hold, rfl⟩ := nameOf?_eq_some_iff.mp hname
    constructor
    · intro hid
      have hgone : (c.add r).tables.find? id = none := by
        refine Option.eq_none_iff_forall_ne_some.mpr fun q hq => ?_
        rw [h.find?_tables_add, if_neg (Ne.symm hid), hold, Option.some_inj] at hq
        exact hq.2 (hq.1 ▸ hcollides.resolve_left hid)
      exact ⟨table?_eq_error hgone, by rw [nameOf?, hgone]; rfl⟩
    · intro hother
      refine Option.eq_none_iff_forall_ne_some.mpr fun i hi => ?_
      change (c.add r).names.find? old.name = some i at hi
      rw [h.find?_names_add, if_neg (Ne.symm hother), (h.name_eq_iff hold).mp rfl, Option.some_inj] at hi
      exact hi.2 (hi.1 ▸ hcollides.resolve_right hother)
  · intro id name hname hid hother
    obtain ⟨old, hold, rfl⟩ := nameOf?_eq_some_iff.mp hname
    have hkept : (c.add r).tables.find? id = some old :=
      h.find?_tables_add.mpr (by rw [if_neg (Ne.symm hid)]; exact ⟨hold, hother⟩)
    have hname' : (c.add r).nameOf? id = some old.name := nameOf?_eq_some_iff.mpr ⟨old, hkept, rfl⟩
    exact ⟨by rw [table?, table?, hkept, hold], hname', (h.add r).idOf?_eq_some_iff.mpr hname'⟩

end Paired

theorem after_snoc (c : Catalog) (changes : List CatalogChange) (change : CatalogChange) :
    c.after (changes ++ [change]) = (c.after changes).change change := by
  rw [after, after, List.foldl_append]
  rfl

theorem paired_after (changes : List CatalogChange) : (empty.after changes).Paired := by
  induction changes using List.reverseRecOn with
  | nil => exact paired_empty
  | append_singleton changes change ih =>
    rw [after_snoc]
    cases change with
    | add r => exact ih.add r
    | clear => exact paired_empty

end Catalog

/-- After one more change those tables stand that it registers, and those that stood and that it leaves. -/
theorem CatalogChange.stands_snoc {changes : List CatalogChange} {change : CatalogChange} {q : Registration} :
    Stands (changes ++ [change]) q ↔ change = .add q ∨ Stands changes q ∧ change.Spares q := by
  constructor
  · rintro ⟨earlier, later, heq, hspares⟩
    -- The table is registered by the last change or by an earlier one.
    rcases List.eq_nil_or_concat later with rfl | ⟨later, last, rfl⟩
    · exact .inl (List.singleton_inj.mp (List.append_inj' heq rfl).2)
    · rw [List.concat_eq_append, ← List.cons_append, ← List.append_assoc] at heq
      obtain ⟨rfl, hlast⟩ := List.append_inj' heq rfl
      rw [List.singleton_inj.mp hlast]
      rw [List.concat_eq_append, List.forall_mem_append, List.forall_mem_singleton] at hspares
      exact .inr ⟨⟨earlier, later, rfl, hspares.1⟩, hspares.2⟩
  · rintro (rfl | ⟨⟨earlier, later, rfl, hspares⟩, hlast⟩)
    · exact ⟨changes, [], rfl, nofun⟩
    · refine ⟨earlier, later ++ [change], by simp, ?_⟩
      rw [List.forall_mem_append, List.forall_mem_singleton]
      exact ⟨hspares, hlast⟩

namespace Catalog

/-- The tables that are listed are those that stand. -/
theorem lists_after (changes : List CatalogChange) (q : Registration) :
    (empty.after changes).Lists q ↔ CatalogChange.Stands changes q := by
  induction changes using List.reverseRecOn with
  | nil =>
    constructor
    · rintro ⟨ht, _⟩
      cases ht
    · rintro ⟨earlier, later, heq, _⟩
      cases earlier <;> cases heq
  | append_singleton changes change ih =>
    rw [after_snoc, CatalogChange.stands_snoc]
    cases change with
    | add r =>
      rw [change, (paired_after changes).lists_add, ih, CatalogChange.add.injEq, eq_comm]
      rfl
    | clear =>
      constructor
      · rintro ⟨ht, _⟩
        cases ht
      · rintro (heq | ⟨_, hspares⟩)
        · cases heq
        · exact hspares.elim

/-- Whatever tables are registered and whenever the catalog is cleared, its two maps are inverse to each other, and a
table is listed if and only if it was registered and the catalog was neither cleared nor a table of the same id or the
same name registered since. A further registration puts its own table under its id and its name, takes every table that
had one of them out of both maps, and leaves all others as they are. -/
theorem listed_tables_exact (changes : List CatalogChange) :
    let c := empty.after changes
    c.Inverse ∧ (∀ q, c.Lists q ↔ CatalogChange.Stands changes q) ∧ ∀ r, c.Replaced r (c.add r) := by
  intro c
  have h := paired_after changes
  exact ⟨h.inverse, lists_after changes, h.replaced⟩

-- The third registration has the name of the first and the id of the second.
example :
    let c := empty.after [.add ⟨"rows", ⟨⟨1⟩, ⟨[]⟩, 0, []⟩⟩, .add ⟨"keys", ⟨⟨2⟩, ⟨[]⟩, 1, []⟩⟩,
      .add ⟨"rows", ⟨⟨2⟩, ⟨[]⟩, 2, []⟩⟩]
    c.nameOf? ⟨1⟩ = none ∧ c.idOf? "keys" = none ∧ c.idOf? "rows" = some ⟨2⟩ ∧ c.nameOf? ⟨2⟩ = some "rows" := by
  decide

end Catalog

end RowStore
