import Nexora.Control.Store
import Nexora.Value

/-!
# Materialized views and their store

`MaterializedViewManager` answers from memory and writes through to the control-plane store.
`Mirrors` is what an operation keeps whose store calls all succeed, and is enough for a manager
opened on the store to have the memory of the one that wrote it. `replaceAll` never calls the store.
-/

namespace Nexora.View
open Lib Nexora.Control List Option ControlPlaneStore String

/-! ### Definitions, rows and deltas -/

inductive DataType
  | string
  | integer
  | float
  | boolean
  | list
  | map
  deriving DecidableEq

structure ColumnDef where
  name : String
  dataType : DataType
  deriving DecidableEq

inductive RefreshMode
  | incremental
  | manual
  | scheduled (cron : String)
  deriving DecidableEq

structure MaterializedView where
  id : String
  name : String
  sourceQuery : String
  refreshMode : RefreshMode
  createdAt : NaiveDateTime
  lastRefreshed : Option NaiveDateTime
  schema : List ColumnDef
  deriving DecidableEq

structure MaterializedRow where
  key : String
  values : Table String PropertyValue
  version : Fin (2 ^ 64)
  updatedAt : NaiveDateTime

inductive DeltaOperation
  | insert
  | update (oldVersion : Fin (2 ^ 64))
  | delete

structure MVDelta where
  viewId : String
  operation : DeltaOperation
  row : MaterializedRow

inductive MaterializedViewError
  | viewNotFound (viewId : String)
  | storageError
  | serializationError
  | invalidQuery (message : String)
  deriving DecidableEq

/-! ### The manager -/

abbrev ViewRows := Table String MaterializedRow

structure MaterializedViewManager (B : Type) where
  views : Table String MaterializedView
  storage : Table String ViewRows
  store : ControlPlaneStore B

def rowKey (viewId key : String) : String := viewId ++ ":" ++ key

def viewIdOf (key : String) : Option String :=
  if ':' ∈ key.toList then some (ofList (key.toList.takeWhile (· ≠ ':'))) else none

def isRowOf (viewId key : String) : Bool := (viewId ++ ":").toList.isPrefixOf key.toList

abbrev MvResult := Except MaterializedViewError Unit

namespace MaterializedViewManager
variable {B : Type} (jsonView : Serde MaterializedView B) (jsonRow : Serde MaterializedRow B)

def persistDef (m : MaterializedViewManager B) (view : MaterializedView) (ok : Nat → Bool) :
    MaterializedViewManager B × MvResult :=
  match jsonView.toVec view with
  | none => (m, .error .serializationError)
  | some value => if ok 0 then ({ m with store := m.store.put .mvDef view.id value }, .ok ()) else (m, .error .storageError)

def createView (m : MaterializedViewManager B) (view : MaterializedView) (ok : Nat → Bool) :
    MaterializedViewManager B × MvResult :=
  persistDef jsonView { m with views := m.views.put view.id view, storage := m.storage.put view.id .empty } view ok

def upsertRow (m : MaterializedViewManager B) (viewId : String) (row : MaterializedRow)
    (ok : Nat → Bool) :
    MaterializedViewManager B × MvResult :=
  match m.storage.find? viewId with
  | none => (m, .error (.viewNotFound viewId))
  | some rows =>
    let m := { m with storage := m.storage.put viewId (rows.put row.key row) }
    match jsonRow.toVec row with
    | none => (m, .error .serializationError)
    | some value =>
      if ok 0 then ({ m with store := m.store.put .mvData (rowKey viewId row.key) value }, .ok ())
      else (m, .error .storageError)

def deleteRow (m : MaterializedViewManager B) (viewId key : String) (ok : Nat → Bool) :
    MaterializedViewManager B × MvResult :=
  match m.storage.find? viewId with
  | none => (m, .error (.viewNotFound viewId))
  | some rows =>
    if (rows.find? key).isSome then
      let m := { m with storage := m.storage.put viewId (rows.erase key) }
      if ok 0 then ({ m with store := m.store.delete .mvData (rowKey viewId key) }, .ok ()) else (m, .error .storageError)
    else (m, .ok ())

/-- The time of the refresh is noted where the lock of the definitions is free. -/
def replaceAll (m : MaterializedViewManager B) (viewId : String) (rows : List MaterializedRow)
    (now : NaiveDateTime) (locked : Bool) : MaterializedViewManager B × MvResult :=
  match m.storage.find? viewId with
  | none => (m, .error (.viewNotFound viewId))
  | some _ =>
    let replaced := (Table.empty : ViewRows).putAll (rows.map fun row => (row.key, row))
    let views := match m.views.find? viewId with
      | some view => if locked then m.views else m.views.put viewId { view with lastRefreshed := some now }
      | none => m.views
    ({ m with views := views, storage := m.storage.put viewId replaced }, .ok ())

def deleteKeys (ok : Nat → Bool) :
    Nat → List String → ControlPlaneStore B → ControlPlaneStore B × MvResult
  | _, [], store => (store, .ok ())
  | call, key :: keys, store =>
    if ok call then deleteKeys ok (call + 1) keys (store.delete .mvData key) else (store, .error .storageError)

def dropView (m : MaterializedViewManager B) (viewId : String) (ok : Nat → Bool) :
    MaterializedViewManager B × MvResult :=
  let m := { m with views := m.views.erase viewId, storage := m.storage.erase viewId }
  if ok 0 then
    let store := m.store.delete .mvDef viewId
    if ok 1 then
      let keys := ((store.list .mvData).map Prod.fst).filter (isRowOf viewId)
      let (store, result) := deleteKeys ok 2 keys store
      ({ m with store := store }, result)
    else ({ m with store := store }, .error .storageError)
  else (m, .error .storageError)

def applyDelta (m : MaterializedViewManager B) (delta : MVDelta) (ok : Nat → Bool) :
    MaterializedViewManager B × MvResult :=
  match m.storage.find? delta.viewId with
  | none => (m, .error (.viewNotFound delta.viewId))
  | some rows =>
    match delta.operation with
    | .insert =>
      if (rows.find? delta.row.key).isSome then
        (m, .error (.invalidQuery ("Insert delta failed: key '" ++ delta.row.key ++ "' already exists")))
      else upsertRow jsonRow m delta.viewId delta.row ok
    | .update oldVersion =>
      match rows.find? delta.row.key with
      | some existing =>
        if existing.version ≠ oldVersion then
          (m, .error (.invalidQuery ("Update delta version mismatch: expected " ++ toString oldVersion.val ++ ", found "
            ++ toString existing.version.val)))
        else upsertRow jsonRow m delta.viewId delta.row ok
      | none => upsertRow jsonRow m delta.viewId delta.row ok
    | .delete => deleteRow m delta.viewId delta.row.key ok

/-! ### Opening a manager on a store -/

def initStorage (storage : Table String ViewRows) (view : MaterializedView) :
    Table String ViewRows :=
  storage.put view.id ((storage.find? view.id).getD .empty)

def insertLoaded (storage : Table String ViewRows) (row : String × MaterializedRow) :
    Table String ViewRows :=
  storage.put row.1 (((storage.find? row.1).getD .empty).put row.2.key row.2)

/-- The memory of a manager on a store, or nothing where a value cannot be read. -/
def loadFromStore (store : ControlPlaneStore B) :
    Option (Table String MaterializedView × Table String ViewRows) := do
  let views ← (store.list .mvDef).mapM fun row => jsonView.fromSlice row.2
  let keyed := (store.list .mvData).filterMap fun row => (viewIdOf row.1).map fun viewId => (viewId, row.2)
  let rows ← keyed.mapM fun row => (jsonRow.fromSlice row.2).map fun loaded => (row.1, loaded)
  some ((Table.empty : Table String MaterializedView).putAll (views.map fun view => (view.id, view)),
    rows.foldl insertLoaded (views.foldl initStorage .empty))

end MaterializedViewManager

/-! ### Keys of rows -/

variable {viewId viewId' : String}

theorem viewIdOf_rowKey (h : ':' ∉ viewId.toList) (key : String) :
    viewIdOf (rowKey viewId key) = some viewId := by
  have hall : ∀ c ∈ viewId.toList, decide (c ≠ ':') = true :=
    fun c hc => decide_eq_true fun heq => h (heq ▸ hc)
  have hkey : (rowKey viewId key).toList = viewId.toList ++ ':' :: key.toList := by
    simp [rowKey]
  rw [viewIdOf, hkey, if_pos (mem_append_right _ mem_cons_self), takeWhile_append_of_pos hall,
    takeWhile_cons_of_neg (by simp), append_nil, ofList_toList]

theorem rowKey_inj (h : ':' ∉ viewId.toList) (h' : ':' ∉ viewId'.toList) {key key' : String} :
    rowKey viewId key = rowKey viewId' key' ↔ viewId = viewId' ∧ key = key' := by
  constructor
  · intro heq
    have hid : viewId = viewId' := by
      have hview := congrArg viewIdOf heq
      rw [viewIdOf_rowKey h, viewIdOf_rowKey h'] at hview
      exact some.inj hview
    subst hid
    have hlist := congrArg String.toList heq
    simp only [rowKey, toList_append] at hlist
    exact ⟨rfl, toList_injective (append_cancel_left hlist)⟩
  · intro heq
    rw [heq.1, heq.2]

theorem isRowOf_rowKey_iff (h : ':' ∉ viewId.toList) (h' : ':' ∉ viewId'.toList) {key : String} :
    isRowOf viewId (rowKey viewId' key) = true ↔ viewId' = viewId := by
  rw [isRowOf, isPrefixOf_iff_prefix]
  constructor
  · rintro ⟨rest, hrest⟩
    have heq : rowKey viewId (ofList rest) = rowKey viewId' key := by
      apply toList_injective
      rw [← hrest, rowKey, toList_append, toList_ofList]
    exact ((rowKey_inj h h').mp heq).1.symm
  · intro heq
    subst heq
    exact ⟨key.toList, by simp [rowKey]⟩

namespace MaterializedViewManager
variable {B : Type} (jsonView : Serde MaterializedView B) (jsonRow : Serde MaterializedRow B)

/-! ### What the store holds -/

open Table

/-- **The store holds what the memory holds.** The views and rows are read back as they were
written, each under its own key, and nothing else is in the store. -/
structure Mirrors (m : MaterializedViewManager B) : Prop where
  views : ∀ viewId view, m.views.find? viewId = some view → view.id = viewId ∧ jsonView.Keeps view
  rows : ∀ viewId rows key row, m.storage.find? viewId = some rows → rows.find? key = some row →
    row.key = key ∧ jsonRow.Keeps row
  ids : ∀ viewId, (m.storage.find? viewId).isSome = (m.views.find? viewId).isSome
  colonFree : ∀ viewId rows, m.storage.find? viewId = some rows → ':' ∉ viewId.toList
  definitions : ∀ viewId, m.store.get .mvDef viewId = (m.views.find? viewId).bind jsonView.toVec
  data : ∀ viewId rows key, m.storage.find? viewId = some rows →
    m.store.get .mvData (rowKey viewId key) = (rows.find? key).bind jsonRow.toVec
  keys : ∀ key value, m.store.get .mvData key = some value →
    ∃ viewId rows rest, m.storage.find? viewId = some rows ∧ key = rowKey viewId rest

variable {jsonView jsonRow} {m : MaterializedViewManager B}
section
variable (h : m.Mirrors jsonView jsonRow)
include h
variable {viewId : String} {ok : Nat → Bool}

theorem Mirrors.get_data_of_find?_none (hid : m.storage.find? viewId = none)
    (hcolon : ':' ∉ viewId.toList) (key : String) :
    m.store.get .mvData (rowKey viewId key) = none := by
  rw [eq_none_iff_forall_ne_some]
  intro value hvalue
  obtain ⟨viewId', rows, rest, hrows, heq⟩ := h.keys _ value hvalue
  have hsame := ((rowKey_inj hcolon (h.colonFree viewId' rows hrows)).mp heq).1
  rw [← hsame, hid] at hrows
  exact absurd hrows (by simp)

/-! ### Operations whose store calls succeed -/

theorem Mirrors.createView {view : MaterializedView} (hok : ok 0 = true)
    (hnew : m.views.find? view.id = none) (hcolon : ':' ∉ view.id.toList)
    (hkeeps : jsonView.Keeps view) :
    (m.createView jsonView view ok).1.Mirrors jsonView jsonRow := by
  obtain ⟨value, hvalue, -⟩ := hkeeps.exists_toVec
  have hnone : m.storage.find? view.id = none := by
    have := h.ids view.id
    rw [hnew] at this
    simpa using this
  have hstate : (m.createView jsonView view ok).1 = ⟨m.views.put view.id view, m.storage.put view.id .empty,
      m.store.put .mvDef view.id value⟩ := by
    simp [MaterializedViewManager.createView, persistDef, hvalue, hok]
  rw [hstate]
  refine ⟨?_, ?_, ?_, ?_, ?_, ?_, ?_⟩
  · intro viewId view' hview
    obtain ⟨rfl, rfl⟩ | ⟨-, hold⟩ := of_find?_put hview
    · exact ⟨rfl, hkeeps⟩
    · exact h.views viewId view' hold
  · intro viewId rows key row hrows hrow
    obtain ⟨rfl, rfl⟩ | ⟨-, hold⟩ := of_find?_put hrows
    · cases hrow
    · exact h.rows viewId rows key row hold hrow
  · intro viewId
    simp only [find?_put]
    split
    · rfl
    · exact h.ids viewId
  · intro viewId rows hrows
    obtain ⟨rfl, -⟩ | ⟨-, hold⟩ := of_find?_put hrows
    · exact hcolon
    · exact h.colonFree viewId rows hold
  · intro viewId
    simp only [get_put, find?_put, true_and]
    split
    · exact hvalue.symm
    · exact h.definitions viewId
  · intro viewId rows key hrows
    obtain ⟨rfl, rfl⟩ | ⟨-, hold⟩ := of_find?_put hrows
    · exact h.get_data_of_find?_none hnone hcolon key
    · exact h.data viewId rows key hold
  · intro key value' hget
    have hother : m.store.get .mvData key = some value' := by simpa using hget
    obtain ⟨viewId, rows, rest, hrows, heq⟩ := h.keys key value' hother
    have hne : viewId ≠ view.id := by
      intro hid
      rw [hid, hnone] at hrows
      cases hrows
    exact ⟨viewId, rows, rest, by rw [find?_put, if_neg hne]; exact hrows, heq⟩

theorem Mirrors.changeRow {key : String} {rows rows' : ViewRows} {new : Option MaterializedRow}
    {store : ControlPlaneStore B} (hrows : m.storage.find? viewId = some rows)
    (hnew : ∀ row ∈ new, row.key = key ∧ jsonRow.Keeps row)
    (hrows' : ∀ k, rows'.find? k = if k = key then new else rows.find? k)
    (hdef : ∀ k, store.get .mvDef k = m.store.get .mvDef k)
    (hdata : ∀ k, store.get .mvData k = if k = rowKey viewId key then new.bind jsonRow.toVec else m.store.get .mvData k) :
    Mirrors jsonView jsonRow ⟨m.views, m.storage.put viewId rows', store⟩ := by
  have hcolon := h.colonFree viewId rows hrows
  refine ⟨h.views, ?_, ?_, ?_, ?_, ?_, ?_⟩
  · intro viewId' rows₁ key' row hrows₁ hrow
    obtain ⟨rfl, rfl⟩ | ⟨-, hold⟩ := of_find?_put hrows₁
    · rw [hrows'] at hrow
      split at hrow
      · next heq => exact heq ▸ hnew row hrow
      · exact h.rows viewId' rows key' row hrows hrow
    · exact h.rows viewId' rows₁ key' row hold hrow
  · intro viewId'
    simp only [find?_put]
    split
    · next heq => rw [heq, ← h.ids viewId, hrows]; rfl
    · exact h.ids viewId'
  · intro viewId' rows₁ hrows₁
    obtain ⟨rfl, -⟩ | ⟨-, hold⟩ := of_find?_put hrows₁
    · exact hcolon
    · exact h.colonFree viewId' rows₁ hold
  · intro viewId'
    exact (hdef viewId').trans (h.definitions viewId')
  · intro viewId' rows₁ key' hrows₁
    rw [hdata]
    obtain ⟨rfl, rfl⟩ | ⟨hne, hold⟩ := of_find?_put hrows₁
    · rw [hrows']
      simp only [rowKey_inj hcolon hcolon, true_and]
      split
      · rfl
      · exact h.data viewId' rows key' hrows
    · have hother : ¬ rowKey viewId' key' = rowKey viewId key := by
        intro heq
        exact hne ((rowKey_inj (h.colonFree viewId' rows₁ hold) hcolon).mp heq).1
      rw [if_neg hother]
      exact h.data viewId' rows₁ key' hold
  · intro key' value hget
    rw [hdata] at hget
    split at hget
    · next heq => exact ⟨viewId, rows', key, by simp [find?_put], heq⟩
    · obtain ⟨viewId', rows₁, rest, hrows₁, heq⟩ := h.keys key' value hget
      by_cases hid : viewId' = viewId
      · exact ⟨viewId, rows', rest, by simp [find?_put], hid ▸ heq⟩
      · exact ⟨viewId', rows₁, rest, by rw [find?_put, if_neg hid]; exact hrows₁, heq⟩

theorem Mirrors.upsertRow {row : MaterializedRow}
    (hok : (m.storage.find? viewId).isSome → ok 0 = true ∧ jsonRow.Keeps row) :
    (m.upsertRow jsonRow viewId row ok).1.Mirrors jsonView jsonRow := by
  cases hrows : m.storage.find? viewId with
  | none =>
    simp only [MaterializedViewManager.upsertRow, hrows]
    exact h
  | some rows =>
    obtain ⟨hcall, hkeeps⟩ := hok (by rw [hrows]; rfl)
    obtain ⟨value, hvalue, -⟩ := hkeeps.exists_toVec
    simp only [MaterializedViewManager.upsertRow, hrows, hvalue, hcall]
    have hnew : ∀ row' ∈ some row, row'.key = row.key ∧ jsonRow.Keeps row' := by
      intro row' hrow'
      cases hrow'
      exact ⟨rfl, hkeeps⟩
    apply h.changeRow hrows hnew
    · exact fun k => find?_put rows row.key row k
    · intro k
      simp
    · intro k
      simp [hvalue]

theorem Mirrors.deleteRow {key : String}
    (hok : ((m.storage.find? viewId).bind (·.find? key)).isSome → ok 0 = true) :
    (m.deleteRow viewId key ok).1.Mirrors jsonView jsonRow := by
  cases hrows : m.storage.find? viewId with
  | none =>
    simp only [MaterializedViewManager.deleteRow, hrows]
    exact h
  | some rows =>
    simp only [MaterializedViewManager.deleteRow, hrows]
    split
    · next hrow =>
      have hcall := hok (by rw [hrows]; exact hrow)
      simp only [hcall]
      have hnew : ∀ row ∈ (none : Option MaterializedRow), row.key = key ∧ jsonRow.Keeps row := by
        intro row hrow
        cases hrow
      apply h.changeRow hrows hnew
      · exact fun k => find?_erase rows key k
      · intro k
        simp
      · intro k
        simp
    · exact h

end
variable {ok : Nat → Bool} {viewId : String} {storage : Table String ViewRows}

theorem get_deleteKeys (hok : ∀ call, ok call = true) (call : Nat) (keys : List String)
    (store : ControlPlaneStore B) (ns : Namespace) (key : String) :
    (deleteKeys ok call keys store).1.get ns key = if ns = .mvData ∧ key ∈ keys then none else store.get ns key := by
  induction keys generalizing call store with
  | nil => simp [deleteKeys]
  | cons first keys ih =>
    rw [deleteKeys, if_pos (hok call), ih, get_delete]
    grind

theorem Mirrors.dropView (h : m.Mirrors jsonView jsonRow) (hok : ∀ call, ok call = true)
    (hcolon : ':' ∉ viewId.toList) : (m.dropView viewId ok).1.Mirrors jsonView jsonRow := by
  obtain ⟨store, hstate, hdef, hdata⟩ :
    ∃ store, (m.dropView viewId ok).1 = ⟨m.views.erase viewId, m.storage.erase viewId, store⟩ ∧
      (∀ key, store.get .mvDef key = if key = viewId then none else m.store.get .mvDef key) ∧
      (∀ key, store.get .mvData key = if isRowOf viewId key then none else m.store.get .mvData key) := by
    refine ⟨_, by simp only [MaterializedViewManager.dropView, hok]; rfl, ?_, ?_⟩
    · intro key
      rw [get_deleteKeys hok]
      simp
    · intro key
      rw [get_deleteKeys hok]
      have hget : (m.store.delete .mvDef viewId).get .mvData key = m.store.get .mvData key := by simp
      cases hvalue : m.store.get .mvData key with
      | none => simp [hvalue]
      | some value =>
        have hmem := mem_list_iff.mpr (hget.trans hvalue)
        have hlisted : key ∈ ((m.store.delete .mvDef viewId).list .mvData).map Prod.fst := mem_map_of_mem hmem
        simp [hlisted, hget, hvalue]
  rw [hstate]
  refine ⟨?_, ?_, ?_, ?_, ?_, ?_, ?_⟩
  · intro viewId' view hview
    exact h.views viewId' view (of_find?_erase hview).2
  · intro viewId' rows key row hrows hrow
    exact h.rows viewId' rows key row (of_find?_erase hrows).2 hrow
  · intro viewId'
    simp only [find?_erase]
    split
    · rfl
    · exact h.ids viewId'
  · intro viewId' rows hrows
    exact h.colonFree viewId' rows (of_find?_erase hrows).2
  · intro viewId'
    rw [hdef, find?_erase]
    split
    · rfl
    · exact h.definitions viewId'
  · intro viewId' rows key hrows
    obtain ⟨hne, hold⟩ := of_find?_erase hrows
    have hother : ¬ isRowOf viewId (rowKey viewId' key) = true := by
      rw [isRowOf_rowKey_iff hcolon (h.colonFree viewId' rows hold)]
      exact hne
    rw [hdata, if_neg hother]
    exact h.data viewId' rows key hold
  · intro key value hget
    rw [hdata] at hget
    split at hget
    · cases hget
    · next hother =>
      obtain ⟨viewId', rows, rest, hrows, heq⟩ := h.keys key value hget
      have hne : viewId' ≠ viewId := by
        rw [heq, isRowOf_rowKey_iff hcolon (h.colonFree viewId' rows hrows)] at hother
        exact hother
      exact ⟨viewId', rows, rest, by rw [find?_erase, if_neg hne]; exact hrows, heq⟩

theorem Mirrors.applyDelta (h : m.Mirrors jsonView jsonRow) {delta : MVDelta}
    (hok : (m.storage.find? delta.viewId).isSome → ok 0 = true ∧ jsonRow.Keeps delta.row) :
    (m.applyDelta jsonRow delta ok).1.Mirrors jsonView jsonRow := by
  have hupsert := h.upsertRow hok
  cases hrows : m.storage.find? delta.viewId with
  | none =>
    simp only [MaterializedViewManager.applyDelta, hrows]
    exact h
  | some rows =>
    simp only [MaterializedViewManager.applyDelta, hrows]
    cases delta.operation with
    | insert =>
      dsimp only
      split
      · exact h
      · exact hupsert
    | update oldVersion =>
      dsimp only
      split
      · split
        · exact h
        · exact hupsert
      · exact hupsert
    | delete =>
      apply h.deleteRow
      intro hrow
      exact (hok (by rw [hrows]; rfl)).1

/-! ### Opening the store again -/

theorem find?_foldl_initStorage (views : List MaterializedView) (storage : Table String ViewRows)
    (viewId : String) :
    (views.foldl initStorage storage).find? viewId =
      if viewId ∈ views.map (·.id) then some ((storage.find? viewId).getD .empty) else storage.find? viewId := by
  induction views generalizing storage with
  | nil => rfl
  | cons view views ih =>
    rw [foldl_cons, ih, initStorage, find?_put]
    by_cases hid : viewId = view.id
    · simp [hid]
    · simp [hid]

def rowsOf (viewId : String) (rows : List (String × MaterializedRow)) :
    List (String × MaterializedRow) :=
  (rows.filter fun row => row.1 = viewId).map fun row => (row.2.key, row.2)

theorem foldl_insertLoaded (rows : List (String × MaterializedRow)) :
    rows.foldl insertLoaded storage =
    storage.upsertAll Prod.fst .empty (fun table row => table.put row.2.key row.2) rows := rfl

theorem find?_foldl_insertLoaded {table : ViewRows} (h : storage.find? viewId = some table)
    (rows : List (String × MaterializedRow)) :
    (rows.foldl insertLoaded storage).find? viewId = some (table.putAll (rowsOf viewId rows)) := by
  rw [foldl_insertLoaded, find?_upsertAll, h, rowsOf, putAll, foldl_map]
  split
  · next hnil => rw [hnil]; rfl
  · rfl

theorem find?_foldl_insertLoaded_of_none (h : storage.find? viewId = none)
    {rows : List (String × MaterializedRow)} (hrows : ∀ row ∈ rows, row.1 ≠ viewId) :
    (rows.foldl insertLoaded storage).find? viewId = none := by
  rw [foldl_insertLoaded, find?_upsertAll, h, if_pos (by simpa using hrows)]

section
variable (h : m.Mirrors jsonView jsonRow)
include h

theorem Mirrors.exists_views :
    ∃ views, ((m.store.list .mvDef).mapM fun row => jsonView.fromSlice row.2) = some views ∧
      ∀ view, view ∈ views ↔ m.views.find? view.id = some view := by
  -- A definition in the store is the one of a view in memory.
  have hread : ∀ row ∈ m.store.list .mvDef, ∃ view, m.views.find? row.1 = some view ∧
      jsonView.fromSlice row.2 = some view := by
    intro row hrow
    have hget := h.definitions row.1
    rw [mem_list_iff.mp hrow, eq_comm, bind_eq_some_iff] at hget
    obtain ⟨view, hview, hvec⟩ := hget
    exact ⟨view, hview, (h.views row.1 view hview).2.fromSlice hvec⟩
  obtain ⟨views, hviews, hmem⟩ := exists_mapM_eq_some (l := m.store.list .mvDef) (f := fun row => jsonView.fromSlice row.2)
    fun row hrow => (hread row hrow).imp fun view hview => hview.2
  refine ⟨views, hviews, ?_⟩
  intro view
  rw [hmem]
  constructor
  · rintro ⟨row, hrow, hslice⟩
    obtain ⟨view', hview', hslice'⟩ := hread row hrow
    rw [hslice, some.injEq] at hslice'
    subst hslice'
    rwa [(h.views row.1 view hview').1]
  · intro hview
    obtain ⟨value, hvalue, hslice⟩ := (h.views view.id view hview).2.exists_toVec
    refine ⟨(view.id, value), mem_list_iff.mpr ?_, hslice⟩
    rw [h.definitions, hview]
    exact hvalue

theorem Mirrors.exists_rows :
    ∃ rows, ((m.store.list .mvData).filterMap fun row => (viewIdOf row.1).map fun viewId => (viewId, row.2)).mapM
        (fun row => (jsonRow.fromSlice row.2).map fun loaded => (row.1, loaded)) = some rows ∧
      ∀ row, row ∈ rows ↔ ∃ table, m.storage.find? row.1 = some table ∧ table.find? row.2.key = some row.2 := by
  -- A value in the store is the one of a row in memory.
  have hread : ∀ row ∈ m.store.list .mvData, ∃ viewId table loaded, viewIdOf row.1 = some viewId ∧
      m.storage.find? viewId = some table ∧ table.find? loaded.key = some loaded ∧
        jsonRow.fromSlice row.2 = some loaded := by
    intro row hrow
    have hget := mem_list_iff.mp hrow
    obtain ⟨viewId, table, rest, htable, heq⟩ := h.keys row.1 row.2 hget
    rw [heq, h.data viewId table rest htable, bind_eq_some_iff] at hget
    obtain ⟨loaded, hloaded, hvec⟩ := hget
    obtain ⟨hkey, hkeeps⟩ := h.rows viewId table rest loaded htable hloaded
    exact ⟨viewId, table, loaded, heq ▸ viewIdOf_rowKey (h.colonFree viewId table htable) rest, htable, hkey ▸ hloaded,
      hkeeps.fromSlice hvec⟩
  obtain ⟨rows, hrows, hmem⟩ := exists_mapM_eq_some
    (l := (m.store.list .mvData).filterMap fun row => (viewIdOf row.1).map fun viewId => (viewId, row.2))
    (f := fun row => (jsonRow.fromSlice row.2).map fun loaded => (row.1, loaded)) (by
      intro keyed hkeyed
      obtain ⟨row, hrow, hmap⟩ := mem_filterMap.mp hkeyed
      obtain ⟨viewId, -, loaded, hid, -, -, hslice⟩ := hread row hrow
      rw [hid, map_some, some.injEq] at hmap
      subst hmap
      exact ⟨(viewId, loaded), by rw [hslice]; rfl⟩)
  refine ⟨rows, hrows, ?_⟩
  rintro ⟨viewId, loaded⟩
  rw [hmem]
  constructor
  · rintro ⟨keyed, hkeyed, hslice⟩
    obtain ⟨row, hrow, hmap⟩ := mem_filterMap.mp hkeyed
    obtain ⟨viewId', table, loaded', hid, htable, hloaded, hslice'⟩ := hread row hrow
    rw [hid, map_some, some.injEq] at hmap
    subst hmap
    rw [hslice', map_some, some.injEq] at hslice
    obtain ⟨rfl, rfl⟩ := hslice
    exact ⟨table, htable, hloaded⟩
  · rintro ⟨table, htable, hloaded⟩
    obtain ⟨value, hvalue, hslice⟩ := (h.rows viewId table loaded.key loaded htable hloaded).2.exists_toVec
    have hget := h.data viewId table loaded.key htable
    rw [hloaded, bind_some, hvalue] at hget
    refine ⟨(viewId, value), mem_filterMap.mpr ⟨(rowKey viewId loaded.key, value), ?_, ?_⟩, ?_⟩
    · exact mem_list_iff.mpr hget
    · rw [viewIdOf_rowKey (h.colonFree viewId table htable)]
      rfl
    · rw [hslice]
      rfl

/-- **A store that holds what the memory holds gives it back.** -/
theorem Mirrors.loadFromStore_eq :
    loadFromStore jsonView jsonRow m.store = some (m.views, m.storage) := by
  obtain ⟨views, hviews, hview⟩ := h.exists_views
  obtain ⟨rows, hrows, hrow⟩ := h.exists_rows
  have hload : loadFromStore jsonView jsonRow m.store =
      some ((Table.empty : Table String MaterializedView).putAll (views.map fun view => (view.id, view)),
        rows.foldl insertLoaded (views.foldl initStorage .empty)) := by
    simp [loadFromStore, hviews, hrows]
  have hsame : (Table.empty : Table String MaterializedView).putAll (views.map fun view => (view.id, view)) = m.views := by
    apply putAll_empty
    rintro ⟨viewId, view⟩
    rw [← find?_eq_some_iff, List.mem_map]
    constructor
    · rintro ⟨view', hview', heq⟩
      cases heq
      exact (hview view).mp hview'
    · intro hfind
      have hid := (h.views viewId view hfind).1
      exact ⟨view, (hview view).mpr (hid.symm ▸ hfind), by rw [hid]⟩
  have hids : ∀ viewId, viewId ∈ views.map (·.id) ↔ (m.views.find? viewId).isSome := by
    intro viewId
    rw [List.mem_map, isSome_iff_exists]
    constructor
    · rintro ⟨view, hmem, rfl⟩
      exact ⟨view, (hview view).mp hmem⟩
    · rintro ⟨view, hfind⟩
      have hid := (h.views viewId view hfind).1
      exact ⟨view, (hview view).mpr (hid.symm ▸ hfind), hid⟩
  have hstorage : rows.foldl insertLoaded (views.foldl initStorage .empty) = m.storage := by
    apply ext_find?
    intro viewId
    have hinit := find?_foldl_initStorage views .empty viewId
    simp only [hids, ← h.ids] at hinit
    cases htable : m.storage.find? viewId with
    | none =>
      rw [htable] at hinit
      apply find?_foldl_insertLoaded_of_none hinit
      intro row hmem hid
      obtain ⟨table, hfind, -⟩ := (hrow row).mp hmem
      rw [hid, htable] at hfind
      cases hfind
    | some table =>
      rw [htable] at hinit
      rw [find?_foldl_insertLoaded hinit]
      congr 1
      apply putAll_empty
      rintro ⟨key, row⟩
      rw [← find?_eq_some_iff, rowsOf, List.mem_map]
      constructor
      · rintro ⟨⟨viewId', row'⟩, hmem, heq⟩
        obtain ⟨hmem, hid⟩ := mem_filter.mp hmem
        obtain ⟨table', hfind, hloaded⟩ := (hrow (viewId', row')).mp hmem
        cases heq
        rw [of_decide_eq_true hid, htable, some.injEq] at hfind
        exact hfind ▸ hloaded
      · intro hfind
        have hkey := (h.rows viewId table key row htable hfind).1
        refine ⟨(viewId, row), mem_filter.mpr ⟨(hrow (viewId, row)).mpr ⟨table, htable, ?_⟩, by simp⟩, by rw [hkey]⟩
        exact hkey.symm ▸ hfind
  rw [hload, hsame, hstorage]

end

/-! ### Sequences of operations -/

inductive ViewOperation
  | create (view : MaterializedView)
  | drop (viewId : String)
  | upsert (viewId : String) (row : MaterializedRow)
  | delete (viewId key : String)
  | replaceAll (viewId : String) (rows : List MaterializedRow) (now : NaiveDateTime) (locked : Bool)
  | applyDelta (delta : MVDelta)

/-- An operation and which of the store calls it makes, counted from its start, succeed. -/
structure ViewCall where
  operation : ViewOperation
  ok : Nat → Bool

variable (jsonView jsonRow) in
def perform (m : MaterializedViewManager B) (call : ViewCall) :
    MaterializedViewManager B × MvResult :=
  match call.operation with
  | .create view => m.createView jsonView view call.ok
  | .drop viewId => m.dropView viewId call.ok
  | .upsert viewId row => m.upsertRow jsonRow viewId row call.ok
  | .delete viewId key => m.deleteRow viewId key call.ok
  | .replaceAll viewId rows now locked => m.replaceAll viewId rows now locked
  | .applyDelta delta => m.applyDelta jsonRow delta call.ok

variable (jsonView jsonRow) in
def step (m : MaterializedViewManager B) (call : ViewCall) : MaterializedViewManager B :=
  (m.perform jsonView jsonRow call).1

variable (jsonView jsonRow) in
/-- The operation's store calls succeed, what it writes is read back as it is, a view gets a new id
without a colon, an id with a colon is not dropped, and the rows of a view are not replaced as a
whole. -/
def WritesThrough (m : MaterializedViewManager B) (call : ViewCall) : Prop :=
  match call.operation with
  | .create view =>
    call.ok 0 = true ∧ m.views.find? view.id = none ∧ ':' ∉ view.id.toList ∧ jsonView.Keeps view
  | .drop viewId => (∀ k, call.ok k = true) ∧ ':' ∉ viewId.toList
  | .upsert viewId row => (m.storage.find? viewId).isSome → call.ok 0 = true ∧ jsonRow.Keeps row
  | .delete viewId key => ((m.storage.find? viewId).bind (·.find? key)).isSome → call.ok 0 = true
  | .replaceAll viewId _ _ _ => m.storage.find? viewId = none
  | .applyDelta delta => (m.storage.find? delta.viewId).isSome → call.ok 0 = true ∧ jsonRow.Keeps delta.row

theorem Mirrors.step (h : m.Mirrors jsonView jsonRow) {call : ViewCall}
    (hcall : m.WritesThrough jsonView jsonRow call) :
    (m.step jsonView jsonRow call).Mirrors jsonView jsonRow := by
  obtain ⟨operation, ok⟩ := call
  cases operation with
  | create view =>
    obtain ⟨hok, hnew, hcolon, hkeeps⟩ := hcall
    exact h.createView hok hnew hcolon hkeeps
  | drop viewId => exact h.dropView hcall.1 hcall.2
  | upsert viewId row => exact h.upsertRow hcall
  | delete viewId key => exact h.deleteRow hcall
  | replaceAll viewId rows now locked =>
    have hnone : m.storage.find? viewId = none := hcall
    have hsame : m.step jsonView jsonRow ⟨.replaceAll viewId rows now locked, ok⟩ = m := by
      simp [MaterializedViewManager.step, perform, MaterializedViewManager.replaceAll, hnone]
    rw [hsame]
    exact h
  | applyDelta delta => exact h.applyDelta hcall

def fresh : MaterializedViewManager B := ⟨.empty, .empty, .empty⟩

theorem mirrors_fresh : (fresh : MaterializedViewManager B).Mirrors jsonView jsonRow :=
  ⟨nofun, nofun, fun _ => rfl, nofun, fun _ => rfl, nofun, nofun⟩

/-- **Opening the store again gives the views and rows in memory** after operations that all write
through. -/
theorem loadFromStore_run {calls : List ViewCall}
    (h : Along (step jsonView jsonRow) (WritesThrough jsonView jsonRow) (fresh : MaterializedViewManager B) calls) :
    loadFromStore jsonView jsonRow (run (step jsonView jsonRow) fresh calls).store =
      some ((run (step jsonView jsonRow) fresh calls).views, (run (step jsonView jsonRow) fresh calls).storage) := by
  have hmirrors := @run_invariant _ _ _ _ (Mirrors jsonView jsonRow) (fun m call hm hcall => hm.step hcall) _ mirrors_fresh _ h
  exact hmirrors.loadFromStore_eq

/-! A store that keeps the values themselves. -/

def plainViews : Serde MaterializedView (MaterializedView ⊕ MaterializedRow) :=
  ⟨fun view => some (.inl view), Sum.getLeft?⟩

def plainRows : Serde MaterializedRow (MaterializedView ⊕ MaterializedRow) :=
  ⟨fun row => some (.inr row), Sum.getRight?⟩

def noon : NaiveDateTime := ⟨⟨738000⟩, 43200, 0⟩

def sensors : MaterializedView :=
  ⟨"3f2a", "sensors", "MATCH (n:Sensor) RETURN n", .manual, noon, none, [⟨"n", .string⟩]⟩

def sensorRow (key : String) : MaterializedRow := ⟨key, empty.put "n" (.string key), 1, noon⟩

def served (operation : ViewOperation) : ViewCall := ⟨operation, fun _ => true⟩

theorem loadFromStore_run_sensors :
    let s := run (step plainViews plainRows) fresh [served (.create sensors),
      served (.upsert "3f2a" (sensorRow "a")), served (.upsert "3f2a" (sensorRow "b")),
      served (.delete "3f2a" "a")]
    loadFromStore plainViews plainRows s.store = some (s.views, s.storage) := by
  apply loadFromStore_run
  exact ⟨⟨rfl, rfl, by decide, rfl⟩, fun _ => ⟨rfl, rfl⟩, fun _ => ⟨rfl, rfl⟩, fun _ => rfl, trivial⟩

/-- The rows of a refresh are not in the store. -/
theorem loadFromStore_replaceAll_sensors :
    let s := run (step plainViews plainRows) fresh
      [served (.create sensors), served (.replaceAll "3f2a" [sensorRow "a"] noon false)]
    loadFromStore plainViews plainRows s.store ≠ some (s.views, s.storage) := by
  intro s heq
  have hcount := congrArg (fun loaded => loaded.map fun memory => (memory.2.find? "3f2a").map fun rows => rows.rows.length) heq
  exact absurd hcount (by decide)

end MaterializedViewManager
end Nexora.View
