import Mathlib.Data.String.Basic
import Nexora.Lib.Table

/-!
# The control-plane store

`ControlPlaneStore` keeps the metadata of a node as bytes under a namespace and a key. Each kind of
metadata goes through a `Serde` of its own. Writes are synced before they return, so a store that is
opened again is the store that was written.
-/

namespace Nexora.Control
open Lib

inductive Namespace
  | shardMap
  | mvDef
  | mvData
  | sqState
  | raftMeta
  | domainDef
  deriving DecidableEq, Repr

structure ControlPlaneStore (B : Type) where
  data : Namespace → Table String B

namespace ControlPlaneStore
variable {B : Type}

def empty : ControlPlaneStore B := ⟨fun _ => .empty⟩

def put (store : ControlPlaneStore B) (ns : Namespace) (key : String) (value : B) :
    ControlPlaneStore B :=
  ⟨Function.update store.data ns ((store.data ns).put key value)⟩

variable (store : ControlPlaneStore B)

def get (ns : Namespace) (key : String) : Option B := (store.data ns).find? key

def delete (ns : Namespace) (key : String) : ControlPlaneStore B :=
  ⟨Function.update store.data ns ((store.data ns).erase key)⟩

def list (ns : Namespace) : List (String × B) := (store.data ns).rows

@[simp] theorem get_put (ns ns' : Namespace) (key key' : String) (value : B) :
    (store.put ns key value).get ns' key' = if ns' = ns ∧ key' = key then some value else store.get ns' key' := by
  unfold get put
  by_cases hns : ns' = ns
  · subst hns
    simp [Table.find?_put]
  · simp [hns]

@[simp] theorem get_delete (ns ns' : Namespace) (key key' : String) :
    (store.delete ns key).get ns' key' = if ns' = ns ∧ key' = key then none else store.get ns' key' := by
  unfold get delete
  by_cases hns : ns' = ns
  · subst hns
    simp [Table.find?_erase]
  · simp [hns]

theorem mem_list_iff {store : ControlPlaneStore B} {ns : Namespace} {key : String} {value : B} :
    (key, value) ∈ store.list ns ↔ store.get ns key = some value := Table.find?_eq_some_iff.symm

end ControlPlaneStore

structure Serde (A B : Type) where
  toVec : A → Option B
  fromSlice : B → Option A

def Serde.Keeps {A B : Type} (serde : Serde A B) (a : A) : Prop :=
  (serde.toVec a).bind serde.fromSlice = some a

theorem Serde.Keeps.exists_toVec {A B : Type} {serde : Serde A B} {a : A} (h : serde.Keeps a) :
    ∃ bytes, serde.toVec a = some bytes ∧ serde.fromSlice bytes = some a :=
  Option.bind_eq_some_iff.mp h

theorem Serde.Keeps.fromSlice {A B : Type} {serde : Serde A B} {a : A} {bytes : B}
    (h : serde.Keeps a) (hbytes : serde.toVec a = some bytes) : serde.fromSlice bytes = some a := by
  rwa [Serde.Keeps, hbytes] at h

end Nexora.Control
