import Nexora.Control.Apply

/-!
# The backends of the control store

The control store is kept in memory or in RocksDB (`nexora-core/src/control_plane_store.rs`). The
database has one row of keys, `namespace:key`, and a namespace is listed by a scan; names and keys
may have colons in them, but no name with its colon begins another one.
-/

namespace Nexora.Control
open Lib List Table

/-- How many bytes stand here that begin a character, up to the first that does not fit. -/
def subpartLength : List UInt8 → Nat
  | first :: second :: rest =>
    let length := if first < 0xC2 then 1 else if first < 0xE0 then 2 else if first < 0xF0 then 3
      else if first < 0xF5 then 4 else 1
    let low := if first = 0xE0 then 0xA0 else if first = 0xF0 then 0x90 else 0x80
    let high := if first = 0xED then 0x9F else if first = 0xF4 then 0x8F else 0xBF
    if 1 < length ∧ low ≤ second ∧ second ≤ high then
      2 + ((rest.take (length - 2)).takeWhile fun b => 0x80 ≤ b ∧ b ≤ 0xBF).length
    else 1
  | _ => 1

def replaceInvalid : List UInt8 → String
  | [] => ""
  | b :: bytes =>
    let n := subpartLength (b :: bytes)
    (String.fromUTF8? ⟨⟨(b :: bytes).take n⟩⟩).getD "\uFFFD" ++ replaceInvalid (bytes.drop (n - 1))
termination_by bytes => bytes.length

/-- `String::from_utf8_lossy`: what is no text gets a replacement character for each part that is
none. -/
def fromUtf8Lossy (bytes : List UInt8) : String :=
  (String.fromUTF8? ⟨⟨bytes⟩⟩).getD (replaceInvalid bytes)

def scanStart (ns : Namespace) : List UInt8 := utf8Bytes (ns.asStr ++ ":")

def fullKey (ns : Namespace) (key : String) : List UInt8 := utf8Bytes (ns.asStr ++ ":" ++ key)

abbrev Dump (V : Type) := Table String (Table String V)

inductive ControlStore (V : Type)
  | inMemory (data : Dump V)
  | rocksDb (db : Table (List UInt8) V)

namespace ControlStore
variable {V Blob : Type}

def bucket (dump : Dump V) (ns : Namespace) : Table String V := (dump.find? ns.asStr).getD .empty

def put (store : ControlStore V) (ns : Namespace) (key : String) (value : V) : ControlStore V :=
  match store with
  | .inMemory data => .inMemory (data.put ns.asStr ((bucket data ns).put key value))
  | .rocksDb db => .rocksDb (db.put (fullKey ns key) value)

def get (store : ControlStore V) (ns : Namespace) (key : String) : Option V :=
  match store with
  | .inMemory data => (bucket data ns).find? key
  | .rocksDb db => db.find? (fullKey ns key)

def delete (store : ControlStore V) (ns : Namespace) (key : String) : ControlStore V :=
  match store with
  | .inMemory data =>
    match data.find? ns.asStr with
    | none => .inMemory data
    | some rows => .inMemory (data.put ns.asStr (rows.erase key))
  | .rocksDb db => .rocksDb (db.erase (fullKey ns key))

def scan (db : Table (List UInt8) V) (ns : Namespace) : List (List UInt8 × V) :=
  (db.seek (scanStart ns)).takeWhile fun row => (scanStart ns).isPrefixOf row.1

def keyIn (ns : Namespace) (bytes : List UInt8) : String :=
  fromUtf8Lossy (bytes.drop (scanStart ns).length)

def list (store : ControlStore V) (ns : Namespace) : List (String × V) :=
  match store with
  | .inMemory data => (bucket data ns).rows
  | .rocksDb db => ((scan db ns).map fun row => (keyIn ns row.1, row.2)).insertionSort fun a b => a.1 ≤ b.1

/-! ### Snapshots -/

def dump (store : ControlStore V) : Dump V :=
  Namespace.snapshotNamespaces.foldl (fun dump ns =>
    if store.list ns = [] then dump else dump.put ns.asStr (empty.putAll (store.list ns))) .empty

def perform (store : ControlStore V) : StoreWrite V → ControlStore V
  | .put ns key value => store.put ns key value
  | .delete ns key => store.delete ns key

def restoreOne (dump : Dump V) (store : ControlStore V) (ns : Namespace) : ControlStore V :=
  foldl perform store
    (((store.list ns).map fun row => .delete ns row.1) ++ (bucket dump ns).rows.map fun row => .put ns row.1 row.2)

variable (json : Serde (Dump V) Blob)

def snapshot (store : ControlStore V) : Option Blob := json.toVec store.dump

def restore (store : ControlStore V) (blob : Blob) : ControlStore V × Bool :=
  match json.fromSlice blob with
  | none => (store, false)
  | some dump => (Namespace.snapshotNamespaces.foldl (restoreOne dump) store, true)

end ControlStore

inductive StoreCall (V Blob : Type)
  | put (ns : Namespace) (key : String) (value : V)
  | delete (ns : Namespace) (key : String)
  | restore (blob : Blob)

namespace ControlStore
variable {V Blob : Type}

def step (json : Serde (Dump V) Blob) (store : ControlStore V) : StoreCall V Blob → ControlStore V
  | .put ns key value => store.put ns key value
  | .delete ns key => store.delete ns key
  | .restore blob => (store.restore json blob).1

def SameIn (ns : Namespace) (store other : ControlStore V) : Prop :=
  store.list ns = other.list ns ∧ ∀ key, store.get ns key = other.get ns key

/-- **What a store holds**, whatever it is kept in. -/
def Holds : ControlStore V → ControlPlaneStore V → Prop
  | .inMemory data, rows => ∀ ns, bucket data ns = rows.data ns
  | .rocksDb db, rows => ∀ bytes value, db.find? bytes = some value ↔ ∃ ns key, bytes = fullKey ns key ∧ rows.get ns key = some value

end ControlStore

/-- What a call does to the rows of the namespaces: a restore replaces those of all namespaces that
a snapshot has. -/
def StoreCall.effect {V Blob : Type} (json : Serde (Dump V) Blob) (rows : ControlPlaneStore V) :
    StoreCall V Blob → ControlPlaneStore V
  | .put ns key value => rows.put ns key value
  | .delete ns key => rows.delete ns key
  | .restore blob =>
    match json.fromSlice blob with
    | none => rows
    | some dump => ⟨fun ns => if ns ∈ Namespace.snapshotNamespaces then ControlStore.bucket dump ns else rows.data ns⟩

/-! ### Keys -/

variable {ns other : Namespace}

private theorem asStr_injective (h : ns.asStr = other.asStr) : ns = other := by
  revert h
  cases ns <;> cases other <;> decide

theorem fullKey_eq (ns : Namespace) (key : String) :
    fullKey ns key = scanStart ns ++ utf8Bytes key := by
  simp [fullKey, scanStart, utf8Bytes]

theorem fromUtf8Lossy_utf8Bytes (s : String) : fromUtf8Lossy (utf8Bytes s) = s := by
  have hvalid : String.fromUTF8? ⟨⟨utf8Bytes s⟩⟩ = some s := dif_pos s.isValidUTF8
  rw [fromUtf8Lossy, hvalid]
  rfl

theorem eq_of_isPrefix_scanStart (h : scanStart ns <+: scanStart other) : ns = other := by
  revert h
  cases ns <;> cases other <;> decide

theorem scanStart_isPrefix_iff {key : String} :
    scanStart ns <+: fullKey other key ↔ ns = other := by
  rw [fullKey_eq]
  constructor
  · intro h
    rcases prefix_or_prefix_of_prefix h (prefix_append _ _) with h | h
    · exact eq_of_isPrefix_scanStart h
    · exact (eq_of_isPrefix_scanStart h).symm
  · rintro rfl
    exact prefix_append _ _

theorem fullKey_inj {key key' : String} (h : fullKey ns key = fullKey other key') :
    ns = other ∧ key = key' := by
  have hns : ns = other := by
    rw [← @scanStart_isPrefix_iff ns other key', ← h, fullKey_eq]
    exact prefix_append _ _
  subst hns
  rw [fullKey_eq, fullKey_eq] at h
  refine ⟨rfl, ?_⟩
  rw [← fromUtf8Lossy_utf8Bytes key, append_cancel_left h, fromUtf8Lossy_utf8Bytes]

namespace ControlStore
variable {V Blob : Type} {store other : ControlStore V} {rows rows' : ControlPlaneStore V}

/-! ### The backends hold what is written -/

theorem bucket_put (data : Dump V) (ns ns' : Namespace) (table : Table String V) :
    bucket (data.put ns.asStr table) ns' = if ns' = ns then table else bucket data ns' := by
  unfold bucket
  rw [find?_put]
  by_cases hns : ns' = ns
  · rw [if_pos (congrArg _ hns), if_pos hns]
    rfl
  · rw [if_neg (mt asStr_injective hns), if_neg hns]

section
variable (rows : ControlPlaneStore V) (ns ns' : Namespace) (key : String)

private theorem data_put (value : V) :
    (rows.put ns key value).data ns' = if ns' = ns then (rows.data ns).put key value else rows.data ns' := by
  simp [ControlPlaneStore.put, Function.update_apply]

theorem data_delete : (rows.delete ns key).data ns' = if ns' = ns then (rows.data ns).erase key else rows.data ns' := by
  simp [ControlPlaneStore.delete, Function.update_apply]

end
variable {ns : Namespace}

theorem holds_of_update {db db' : Table (List UInt8) V} (h : (rocksDb db).Holds rows) {key : String}
    {new : Option V} (hself : db'.find? (fullKey ns key) = new)
    (hother : ∀ bytes, bytes ≠ fullKey ns key → db'.find? bytes = db.find? bytes)
    (hrows : ∀ ns' key', rows'.get ns' key' = if ns' = ns ∧ key' = key then new else rows.get ns' key') :
    (rocksDb db').Holds rows' := by
  intro bytes v
  by_cases hbytes : bytes = fullKey ns key
  · subst hbytes
    rw [hself]
    constructor
    · intro hv
      exact ⟨ns, key, rfl, by rw [hrows, if_pos ⟨rfl, rfl⟩, hv]⟩
    · rintro ⟨ns', key', hkey, hv⟩
      obtain ⟨rfl, rfl⟩ := fullKey_inj hkey
      rwa [hrows, if_pos ⟨rfl, rfl⟩] at hv
  · rw [hother bytes hbytes, h bytes v]
    refine exists_congr fun ns' => exists_congr fun key' => and_congr_right fun hkey => ?_
    have hne : ¬ (ns' = ns ∧ key' = key) := by
      rintro ⟨rfl, rfl⟩
      exact hbytes hkey
    rw [hrows, if_neg hne]

section
variable (h : store.Holds rows) (ns : Namespace) (key : String)
include h

theorem Holds.put (value : V) : (store.put ns key value).Holds (rows.put ns key value) := by
  cases store with
  | inMemory data =>
    intro ns'
    rw [bucket_put, data_put, h ns, h ns']
  | rocksDb db =>
    refine holds_of_update h ((db.find?_put _ value _).trans (if_pos rfl)) (fun bytes hne => ?_) fun ns' key' =>
      rows.get_put ns ns' key key' value
    exact (db.find?_put _ value bytes).trans (if_neg hne)

theorem Holds.delete : (store.delete ns key).Holds (rows.delete ns key) := by
  cases store with
  | inMemory data =>
    have hns : (data.find? ns.asStr).getD .empty = rows.data ns := h ns
    simp only [delete]
    cases hfind : data.find? ns.asStr with
    | none =>
      intro ns'
      rw [hfind] at hns
      rw [data_delete, h ns', ← hns]
      split
      · next heq => rw [heq, ← hns]; rfl
      · rfl
    | some table =>
      intro ns'
      rw [hfind] at hns
      rw [bucket_put, data_delete, h ns', ← hns]
      rfl
  | rocksDb db =>
    refine holds_of_update h ((db.find?_erase _ _).trans (if_pos rfl)) (fun bytes hne => ?_) fun ns' key' =>
      rows.get_delete ns ns' key key'
    exact (db.find?_erase _ bytes).trans (if_neg hne)

theorem Holds.get : store.get ns key = rows.get ns key := by
  cases store with
  | inMemory data => exact congrArg (find? · key) (h ns)
  | rocksDb db =>
    ext value
    rw [get, h]
    constructor
    · rintro ⟨ns', key', hkey, hvalue⟩
      obtain ⟨rfl, rfl⟩ := fullKey_inj hkey
      exact hvalue
    · intro hvalue
      exact ⟨ns, key, rfl, hvalue⟩

end

theorem keyIn_fullKey (ns : Namespace) (key : String) : keyIn ns (fullKey ns key) = key := by
  simp [keyIn, fullKey_eq, fromUtf8Lossy_utf8Bytes]

variable {db : Table (List UInt8) V}

theorem mem_scan_iff (h : (rocksDb db).Holds rows) {bytes : List UInt8} {value : V} :
    (bytes, value) ∈ scan db ns ↔ ∃ key, bytes = fullKey ns key ∧ rows.get ns key = some value := by
  have hscan := @takeWhile_seek _ _ _ db (scanStart ns) (fun k => (scanStart ns).isPrefixOf k) fun k k' hk hkk' hk' => by
    rw [List.isPrefixOf_iff_prefix] at hk' ⊢
    exact isPrefix_of_le_of_le prefix_rfl hk' hk hkk'
  rw [scan, hscan, mem_filter, ← find?_eq_some_iff, h]
  simp only [Bool.and_eq_true, decide_eq_true_eq, isPrefixOf_iff_prefix]
  constructor
  · rintro ⟨⟨ns', key, rfl, hvalue⟩, -, hstart⟩
    obtain rfl := scanStart_isPrefix_iff.mp hstart
    exact ⟨key, rfl, hvalue⟩
  · rintro ⟨key, rfl, hvalue⟩
    have hstart : scanStart ns <+: fullKey ns key := scanStart_isPrefix_iff.mpr rfl
    exact ⟨⟨ns, key, rfl, hvalue⟩, le_of_isPrefix hstart, hstart⟩

private theorem nodup_keyIn_scan (h : (rocksDb db).Holds rows) (ns : Namespace) :
    ((scan db ns).map fun row => keyIn ns row.1).Nodup := by
  have hsorted : (scan db ns).Pairwise fun a b => a.1 < b.1 :=
    db.sorted.sublist ((takeWhile_sublist _).trans (dropWhile_sublist _))
  refine pairwise_map.mpr (hsorted.imp_of_mem fun {a b} ha hb hlt heq => ?_)
  obtain ⟨key, hkey, -⟩ := (mem_scan_iff h).mp ha
  obtain ⟨key', hkey', -⟩ := (mem_scan_iff h).mp hb
  rw [hkey, hkey', keyIn_fullKey, keyIn_fullKey] at heq
  rw [hkey, hkey', heq] at hlt
  exact lt_irrefl _ hlt

section
variable (h : store.Holds rows)
include h

theorem Holds.list (ns : Namespace) : store.list ns = rows.list ns := by
  cases store with
  | inMemory data => exact congrArg Table.rows (h ns)
  | rocksDb db =>
    simp only [list]
    generalize hread : ((scan db ns).map fun row => (keyIn ns row.1, row.2)) = read
    have hnodup : (read.map Prod.fst).Nodup := by
      rw [← hread, map_map]
      exact nodup_keyIn_scan h ns
    have hperm := perm_insertionSort (fun a b : String × V => a.1 ≤ b.1) read
    refine rows_ext ?_ (rows.data ns).sorted fun row => ?_
    · have hle := pairwise_insertionSort (fun a b : String × V => a.1 ≤ b.1) read
      have hne := pairwise_map.mp ((hperm.map Prod.fst).nodup_iff.mpr hnodup)
      exact hle.imp₂ (fun _ _ => lt_of_le_of_ne) hne
    · obtain ⟨key, value⟩ := row
      rw [hperm.mem_iff, ← hread, mem_map, ControlPlaneStore.mem_list_iff]
      constructor
      · rintro ⟨⟨bytes, v⟩, hrow, hpair⟩
        obtain ⟨key', rfl, hvalue⟩ := (mem_scan_iff h).mp hrow
        rw [keyIn_fullKey] at hpair
        obtain ⟨rfl, rfl⟩ := Prod.mk.inj hpair
        exact hvalue
      · intro hvalue
        exact ⟨(fullKey ns key, value), (mem_scan_iff h).mpr ⟨key, rfl, hvalue⟩, by rw [keyIn_fullKey]⟩

/-! ### Snapshots -/

theorem Holds.perform (write : StoreWrite V) :
    (store.perform write).Holds (write.perform rows) := by
  cases write with
  | put ns key value => exact h.put ns key value
  | delete ns key => exact h.delete ns key

private theorem Holds.foldl_perform (writes : List (StoreWrite V)) :
    (writes.foldl ControlStore.perform store).Holds (writes.foldl StoreWrite.perform rows) := by
  induction writes generalizing store rows with
  | nil => exact h
  | cons write writes ih => exact ih (h.perform write)

private theorem Holds.restoreAll (dump : Dump V) (list : List Namespace) :
    (list.foldl (restoreOne dump) store).Holds ⟨fun ns => if ns ∈ list then bucket dump ns else rows.data ns⟩ := by
  induction list generalizing store rows with
  | nil => simpa using h
  | cons first list ih =>
    have hfirst : (restoreOne dump store first).Holds
        ((restoreNamespace rows (bucket dump) first).foldl StoreWrite.perform rows) := by
      unfold restoreOne
      rw [h.list first]
      exact h.foldl_perform _
    have hdata : ∀ ns, (if ns ∈ list then bucket dump ns else
        ((restoreNamespace rows (bucket dump) first).foldl StoreWrite.perform rows).data ns) =
          if ns ∈ first :: list then bucket dump ns else rows.data ns := by
      intro ns
      rw [data_restoreNamespace rfl]
      by_cases hns : ns = first
      · simp [hns]
      · simp [hns]
    have hrest := ih hfirst
    simp only [hdata] at hrest
    exact hrest

private theorem Holds.bucket_dump (hns : ns ∈ Namespace.snapshotNamespaces) :
    bucket store.dump ns = rows.data ns := by
  have hfold : ∀ (list : List Namespace) (dump : Dump V),
      bucket (list.foldl (fun dump ns =>
        if store.list ns = [] then dump else dump.put ns.asStr (empty.putAll (store.list ns))) dump) ns =
        if ns ∈ list ∧ store.list ns ≠ [] then empty.putAll (store.list ns) else bucket dump ns := by
    intro list
    induction list with
    | nil => simp
    | cons first list ih =>
      intro dump
      rw [foldl_cons, ih]
      by_cases hfirst : ns = first
      · subst hfirst
        by_cases hempty : store.list ns = []
        · simp [hempty]
        · simp [hempty, bucket_put]
      · have hbucket : bucket (if store.list first = [] then dump else dump.put first.asStr (empty.putAll (store.list first)))
            ns = bucket dump ns := by
          split
          · rfl
          · rw [bucket_put, if_neg hfirst]
        rw [hbucket]
        simp [hfirst]
  rw [dump, hfold, h.list]
  by_cases hempty : rows.list ns = []
  · rw [if_neg fun hboth => hboth.2 hempty]
    exact ext_find? fun key => by
      rw [Table.find?, Table.find?, show (rows.data ns).rows = [] from hempty]
      rfl
  · rw [if_pos ⟨hns, hempty⟩]
    exact putAll_empty fun _ => Iff.rfl

theorem Holds.step (json : Serde (Dump V) Blob) (call : StoreCall V Blob) :
    (store.step json call).Holds (call.effect json rows) := by
  cases call with
  | put ns key value => exact h.put ns key value
  | delete ns key => exact h.delete ns key
  | restore blob =>
    cases hblob : json.fromSlice blob with
    | none =>
      simp only [ControlStore.step, ControlStore.restore, StoreCall.effect, hblob]
      exact h
    | some dump =>
      simp only [ControlStore.step, ControlStore.restore, StoreCall.effect, hblob]
      exact h.restoreAll dump Namespace.snapshotNamespaces

theorem Holds.run (json : Serde (Dump V) Blob) (calls : List (StoreCall V Blob)) :
    (Lib.run (ControlStore.step json) store calls).Holds (Lib.run (StoreCall.effect json) rows calls) := by
  induction calls generalizing store rows with
  | nil => exact h
  | cons call calls ih => exact ih (h.step json call)

end

def IsNew (store : ControlStore V) : Prop := store = .inMemory .empty ∨ store = .rocksDb .empty

theorem IsNew.holds (h : store.IsNew) : store.Holds .empty := by
  rcases h with rfl | rfl
  · exact fun _ => rfl
  · intro bytes value
    exact iff_of_false (fun hnone => nomatch hnone) fun ⟨ns, key, _, hnone⟩ => nomatch hnone

theorem Holds.sameIn (h : store.Holds rows) (h' : other.Holds rows')
    (hdata : rows.data ns = rows'.data ns) :
    SameIn ns store other := by
  constructor
  · rw [h.list, h'.list]
    exact congrArg Table.rows hdata
  · intro key
    rw [h.get, h'.get]
    exact congrArg (find? · key) hdata

/-- **Backends and snapshots.** The same calls leave the same rows in both backends. A snapshot of a
store that is restored into another one, whatever the backends are, leaves it with the rows of the
first one in all namespaces but that of the state machine itself, whose rows stay. -/
theorem sameIn_backends_and_restore {json : Serde (Dump V) Blob} (hjson : ∀ dump, json.Keeps dump)
    (calls : List (StoreCall V Blob)) :
    (∀ ns, SameIn ns (Lib.run (step json) (.rocksDb .empty) calls) (Lib.run (step json) (.inMemory .empty) calls)) ∧
      ∀ a b : ControlStore V, a.IsNew → b.IsNew → ∀ more : List (StoreCall V Blob),
        ∃ blob, (Lib.run (step json) a calls).snapshot json = some blob ∧
          ((Lib.run (step json) b more).restore json blob).2 = true ∧
          ∀ ns, SameIn ns ((Lib.run (step json) b more).restore json blob).1
            (if ns = .raftMeta then Lib.run (step json) b more else Lib.run (step json) a calls) := by
  constructor
  · intro ns
    have hrocks : (rocksDb .empty : ControlStore V).IsNew := .inr rfl
    have hmemory : (inMemory .empty : ControlStore V).IsNew := .inl rfl
    exact (hrocks.holds.run json calls).sameIn (hmemory.holds.run json calls) rfl
  · intro a b ha hb more
    have hA := ha.holds.run json calls
    have hB := hb.holds.run json more
    obtain ⟨blob, hblob, hdump⟩ := (hjson (run (step json) a calls).dump).exists_toVec
    refine ⟨blob, hblob, by rw [restore, hdump], fun ns => ?_⟩
    have hrestored := hB.step json (.restore blob)
    simp only [StoreCall.effect, hdump] at hrestored
    split
    · next hns => exact hrestored.sameIn hB (by rw [hns]; rfl)
    · next hns =>
      have happ : ns ∈ Namespace.snapshotNamespaces := by
        revert hns
        cases ns <;> decide
      exact hrestored.sameIn hA ((if_pos happ).trans (hA.bucket_dump happ))

def plainDumps : Serde (Dump Nat) (Dump Nat) := ⟨some, some⟩

/-- A view's definition is restored over another one, and the state machine's own row stays. -/
theorem sameIn_backends_and_restore_plain :
    let calls : List (StoreCall Nat (Dump Nat)) := [.put .mvDef "v:1" 5, .delete .raftMeta "x"]
    let a := run (step plainDumps) (.rocksDb .empty) calls
    let b := run (step plainDumps) (.inMemory .empty) [.put .mvDef "v:2" 6, .put .raftMeta "x" 7]
    (∀ dump, plainDumps.Keeps dump) ∧ (∀ ns, SameIn ns a (run (step plainDumps) (.inMemory .empty) calls)) ∧
      ∃ blob, a.snapshot plainDumps = some blob ∧ ∀ ns, SameIn ns (b.restore plainDumps blob).1
        (if ns = .raftMeta then b else a) := by
  intro calls a b
  have hjson : ∀ dump, plainDumps.Keeps dump := fun _ => rfl
  obtain ⟨hbackends, hrestore⟩ := sameIn_backends_and_restore hjson calls
  obtain ⟨blob, hblob, -, hsame⟩ := hrestore (.rocksDb .empty) (.inMemory .empty) (.inr rfl) (.inl rfl) _
  exact ⟨hjson, hbackends, blob, hblob, hsame⟩

end ControlStore
end Nexora.Control
