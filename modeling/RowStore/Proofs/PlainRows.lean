import Mathlib.Data.List.Nodup
import Mathlib.Data.List.Perm.Subperm
import RowStore.Bytes.Basic
import RowStore.Dict
import RowStore.Ids

/-!
# Rows in a plain map

To its users a table is a finite map from record ids to the bytes of rows. The record ids of a table are ordered by page
and then by slot, and a new row takes the least of them that has none. With the same number of slots on every page
the order is that of the natural numbers, so that the least one is found among as many numbers as there are rows and
one more.
-/

namespace RowStore

namespace RecordId

def Before (a b : RecordId) : Prop :=
  a.page.number < b.page.number ∨ a.page.number = b.page.number ∧ a.slot < b.slot

/-- The record ids of a table in order, counted from zero. -/
def nth (table : TableId) (slots i : Nat) : RecordId := ⟨⟨table, i / slots⟩, i % slots⟩

def index (slots : Nat) (r : RecordId) : Nat := r.page.number * slots + r.slot

theorem nth_index {slots : Nat} {r : RecordId} (hs : r.slot < slots) : nth r.page.table slots (r.index slots) = r := by
  have hpos : 0 < slots := by omega
  have hdiv : (r.page.number * slots + r.slot) / slots = r.page.number := by
    rw [Nat.mul_comm, Nat.mul_add_div hpos, Nat.div_eq_of_lt hs, Nat.add_zero]
  have hmod : (r.page.number * slots + r.slot) % slots = r.slot := by
    rw [Nat.mul_comm, Nat.mul_add_mod, Nat.mod_eq_of_lt hs]
  unfold nth index
  rw [hdiv, hmod]

theorem index_nth (table : TableId) (slots i : Nat) : (nth table slots i).index slots = i :=
  Nat.div_add_mod' i slots

theorem nth_before {table : TableId} {slots i j : Nat} (h : i < j) :
    (nth table slots i).Before (nth table slots j) := by
  have hle : i / slots ≤ j / slots := Nat.div_le_div_right (Nat.le_of_lt h)
  rcases Nat.lt_or_eq_of_le hle with hlt | heq
  · exact .inl hlt
  · refine .inr ⟨heq, ?_⟩
    have hi := Nat.div_add_mod' i slots
    have hj := Nat.div_add_mod' j slots
    rw [heq] at hi
    show i % slots < j % slots
    omega

end RecordId

/-- The bytes of rows by record id. -/
abbrev Rows := Dict RecordId Bytes

namespace Rows

/-- The least record id of a table that has no row. -/
def free (rows : Rows) (table : TableId) (slots : Nat) : RecordId :=
  .nth table slots ((List.range (rows.size + 1)).findIdx fun i => (rows.find? (.nth table slots i)).isNone)

/-- The rows before a free record id are no more than there are rows. -/
theorem index_le_size {rows : Rows} {table : TableId} {slots i : Nat}
    (hfull : ∀ j < i, (rows.find? (.nth table slots j)).isSome) : i ≤ rows.size := by
  have hnodup : ((List.range i).map (RecordId.nth table slots)).Nodup :=
    List.nodup_range.map fun a b hab => by
      rw [← RecordId.index_nth table slots a, hab, RecordId.index_nth]
  have hsub : (List.range i).map (RecordId.nth table slots) ⊆ rows.keys := by
    intro r hr
    obtain ⟨j, hj, rfl⟩ := List.mem_map.mp hr
    exact (rows.mem_keys_iff _).mpr (hfull j (List.mem_range.mp hj))
  have hle := (hnodup.subperm hsub).length_le
  have hsize : rows.keys.length = rows.size := List.length_map ..
  rwa [List.length_map, List.length_range, hsize] at hle

/-- A record id without a row is the least one if all before it have rows. -/
theorem free_eq {rows : Rows} {slots : Nat} {r : RecordId} (hs : r.slot < slots) (hr : rows.find? r = none)
    (hfull : ∀ q : RecordId, q.page.table = r.page.table → q.slot < slots → q.Before r → (rows.find? q).isSome) :
    rows.free r.page.table slots = r := by
  have hpos : 0 < slots := by omega
  have hbefore : ∀ j < r.index slots, (rows.find? (.nth r.page.table slots j)).isSome := by
    intro j hj
    refine hfull _ rfl (Nat.mod_lt j hpos) ?_
    rw [← RecordId.nth_index hs]
    exact RecordId.nth_before hj
  have hlt : r.index slots < (List.range (rows.size + 1)).length := by
    rw [List.length_range]
    exact Nat.lt_succ_of_le (index_le_size hbefore)
  have hfind : (List.range (rows.size + 1)).findIdx
      (fun i => (rows.find? (.nth r.page.table slots i)).isNone) = r.index slots := by
    rw [List.findIdx_eq hlt]
    simp only [List.getElem_range]
    refine ⟨?_, fun j hj => ?_⟩
    · rw [RecordId.nth_index hs, hr]
      rfl
    · obtain ⟨bytes, hb⟩ := Option.isSome_iff_exists.mp (hbefore j hj)
      rw [hb]
      rfl
  unfold free
  rw [hfind, RecordId.nth_index hs]

end Rows

end RowStore
