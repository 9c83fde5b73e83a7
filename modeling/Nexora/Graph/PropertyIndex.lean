import Nexora.ValueEq
import Nexora.Wal.Codec
import Nexora.Lib.Table
import Mathlib.Data.Prod.Lex
import Mathlib.Data.String.Basic

/-!
# The property index

The index from property values to nodes (`index.rs`) has two tiers: for each property a tree in the
order of the values, and a hash map of the keys that are asked for often, which compares hashes and
values. Which entry a full hash map gives up is left open.
-/

namespace Nexora
open Lib List Option

/-! ### Values as keys -/

namespace PropertyValue

def discriminant : PropertyValue → Nat
  | .null => 0
  | .boolean _ => 1
  | .integer _ => 2
  | .float _ => 3
  | .string _ => 4
  | .bytes _ => 5
  | _ => 6

/-- What `hash` gives to the hasher after the discriminant. -/
def hashPayload (S : Serde) : PropertyValue → List Int
  | .null => []
  | .boolean b => [if b then 1 else 0]
  | .integer i => [i.toInt]
  | .float x => [x.bits.toNat]
  | .string s => s.toUTF8.data.toList.map fun byte => byte.toNat
  | .bytes b => b.map fun byte => byte.toNat
  | v => (S.jsonToVec (v.toJson S)).map fun byte => byte.toNat

/-- `total_order_key`: the bits of a negative double are flipped, of any other the sign is set. -/
def totalOrderKey (bits : BitVec 64) : BitVec 64 :=
  if bits &&& 0x8000000000000000#64 ≠ 0#64 then ~~~bits else bits ||| 0x8000000000000000#64

def orderPayload (S : Serde) : PropertyValue → List Int
  | .float x => [(totalOrderKey x.bits).toNat]
  | v => v.hashPayload S

def orderKey (S : Serde) (v : PropertyValue) : Nat ×ₗ List Int :=
  toLex (v.discriminant, v.orderPayload S)

def Distinguished (S : Serde) (v : PropertyValue) : Prop :=
  ∀ w : PropertyValue, w.orderKey S = v.orderKey S → w = v

variable {S : Serde} {v w : PropertyValue}

theorem orderPayload_eq (S : Serde) (v : PropertyValue) : v.orderPayload S =
    if v.discriminant = 3 then (v.hashPayload S).map fun bits => ((totalOrderKey (BitVec.ofInt 64 bits)).toNat : Int)
    else v.hashPayload S := by
  cases v with
  | float x =>
    show [((totalOrderKey x.bits).toNat : Int)] = [((totalOrderKey (BitVec.ofInt 64 x.bits.toNat)).toNat : Int)]
    rw [BitVec.ofInt_natCast, BitVec.ofNat_toNat, BitVec.setWidth_eq]
  | _ => rfl

theorem orderKey_eq_of_hash_eq (hdiscriminant : v.discriminant = w.discriminant)
    (hpayload : v.hashPayload S = w.hashPayload S) : v.orderKey S = w.orderKey S := by
  rw [orderKey, orderKey, orderPayload_eq, orderPayload_eq, hdiscriminant, hpayload]

theorem and_sign_eq_zero_iff (bits : BitVec 64) :
    bits &&& 0x8000000000000000#64 = 0#64 ↔ bits.getLsbD 63 = false := by
  have hmask : 0x8000000000000000#64 = BitVec.twoPow 64 63 := by decide
  rw [hmask, BitVec.and_twoPow]
  cases bits.getLsbD 63 <;> decide

theorem totalOrderKey_of_negative {bits : BitVec 64} (h : bits.getLsbD 63 = true) :
    totalOrderKey bits = ~~~bits := by
  rw [totalOrderKey, if_pos]
  intro hzero
  rw [(and_sign_eq_zero_iff bits).mp hzero] at h
  cases h

theorem totalOrderKey_of_nonnegative {bits : BitVec 64} (h : bits.getLsbD 63 = false) :
    totalOrderKey bits = bits + 0x8000000000000000#64 := by
  have hzero := (and_sign_eq_zero_iff bits).mpr h
  rw [totalOrderKey, if_neg (not_not.mpr hzero), BitVec.add_eq_or_of_and_eq_zero _ _ hzero]

theorem getLsbD_totalOrderKey (bits : BitVec 64) :
    (totalOrderKey bits).getLsbD 63 = !bits.getLsbD 63 := by
  cases h : bits.getLsbD 63 with
  | false =>
    have hzero := (and_sign_eq_zero_iff bits).mpr h
    rw [totalOrderKey_of_nonnegative h, BitVec.add_eq_or_of_and_eq_zero _ _ hzero, BitVec.getLsbD_or, h]
    decide
  | true =>
    rw [totalOrderKey_of_negative h, BitVec.getLsbD_not, h]
    decide

theorem totalOrderKey_injective : Function.Injective totalOrderKey := by
  intro bits bits' h
  have hsign : bits.getLsbD 63 = bits'.getLsbD 63 := by
    have hkeys := congrArg (fun key => key.getLsbD 63) h
    simp only [getLsbD_totalOrderKey] at hkeys
    exact Bool.not_inj hkeys
  cases hbit : bits.getLsbD 63 with
  | false =>
    rw [totalOrderKey_of_nonnegative hbit, totalOrderKey_of_nonnegative (hsign ▸ hbit)] at h
    exact (BitVec.add_left_inj _).mp h
  | true =>
    rw [totalOrderKey_of_negative hbit, totalOrderKey_of_negative (hsign ▸ hbit)] at h
    exact BitVec.not_inj.mp h

/-- **Plain values** have their places to themselves. -/
theorem distinguished_of_discriminant_lt (S : Serde) (hplain : v.discriminant < 6) :
    v.Distinguished S := by
  intro w hw
  obtain ⟨hdiscriminant, hpayload⟩ := Prod.mk.inj (toLex.injective hw)
  have hbyte : Function.Injective fun byte : UInt8 => (byte.toNat : Int) :=
    fun a b hab => UInt8.toNat_inj.mp (Int.ofNat_inj.mp hab)
  cases v <;> cases w <;> try first | exact absurd hplain (lt_irrefl 6) | (cases hdiscriminant; done)
  case null.null => rfl
  case boolean.boolean b b' => cases b <;> cases b' <;> first | rfl | cases hpayload
  case integer.integer i i' =>
    have hint : i'.toInt = i.toInt := (cons.inj hpayload).1
    rw [Int64.toInt_inj.mp hint]
  case float.float x x' =>
    have hkeys := BitVec.eq_of_toNat_eq (Int.ofNat_inj.mp (cons.inj hpayload).1)
    obtain ⟨bits⟩ := x
    obtain ⟨bits'⟩ := x'
    have hbits : bits' = bits := totalOrderKey_injective hkeys
    rw [hbits]
  case string.string s s' =>
    have hlist := map_injective_iff.mpr hbyte hpayload
    have hbytes : s'.toUTF8 = s.toUTF8 := ByteArray.ext (Array.toList_inj.mp hlist)
    rw [String.toByteArray_inj.mp hbytes]
  case bytes.bytes b b' => rw [map_injective_iff.mpr hbyte hpayload]

end PropertyValue

structure IndexKey where
  property : Symbol
  value : PropertyValue

namespace IndexKey

def hash (S : Serde) (key : IndexKey) : Symbol × Nat × List Int :=
  (key.property, key.value.discriminant, key.value.hashPayload S)

def eq (key key' : IndexKey) : Bool := key.property = key'.property && key.value.eq key'.value

/-- Whether a hash map finds the one key under the other, where different input of the hasher has
different hashes. -/
def finds (S : Serde) (key key' : IndexKey) : Bool := key.hash S = key'.hash S && key.eq key'

variable {S : Serde} {key key' : IndexKey}

theorem property_eq_of_finds (h : key.finds S key') : key.property = key'.property :=
  (Prod.mk.inj (of_decide_eq_true (Bool.and_eq_true_iff.mp h).1)).1

theorem orderKey_eq_of_finds (h : key.finds S key') :
    key.value.orderKey S = key'.value.orderKey S := by
  obtain ⟨hdiscriminant, hpayload⟩ := Prod.mk.inj (Prod.mk.inj (of_decide_eq_true (Bool.and_eq_true_iff.mp h).1)).2
  exact PropertyValue.orderKey_eq_of_hash_eq hdiscriminant hpayload

theorem finds_self_of_finds (h : key.finds S key') : key'.finds S key' := by
  obtain ⟨-, heq⟩ := Bool.and_eq_true_iff.mp h
  have hvalue := PropertyValue.eq_self_of_eq (Bool.and_eq_true_iff.mp heq).2
  exact Bool.and_eq_true_iff.mpr ⟨decide_eq_true rfl, Bool.and_eq_true_iff.mpr ⟨decide_eq_true rfl, hvalue⟩⟩

end IndexKey

/-! ### The two tiers -/

structure IndexConfig where
  l1MaxEntries : Nat
  l2MaxEntries : Nat
  l1PromotionThreshold : Nat
  accessCountMaxEntries : Nat

def IndexConfig.default : IndexConfig := ⟨10000, 100000, 10, 50000⟩

structure PropertyIndex where
  hotHash : List (IndexKey × List NexoraId)
  warmBtree : Table Symbol (Table (Nat ×ₗ List Int) (PropertyValue × List NexoraId))
  l2Total : Nat
  accessCount : List (IndexKey × Nat)
  config : IndexConfig

/-- The order in which a hash map happens to yield its entries. -/
structure Iteration (A : Type) where
  order : List A → List A
  perm : ∀ l, (order l).Perm l

structure QueryOrders where
  hotHash : Iteration (IndexKey × List NexoraId)
  accessCount : Iteration (IndexKey × Nat)

namespace PropertyIndex

def newWithConfig (config : IndexConfig) : PropertyIndex := ⟨[], .empty, 0, [], config⟩

def new : PropertyIndex := newWithConfig .default

def findHot (S : Serde) (index : PropertyIndex) (key : IndexKey) : Option (List NexoraId) :=
  (index.hotHash.find? fun entry => key.finds S entry.1).map Prod.snd

def findWarm (S : Serde) (index : PropertyIndex) (key : IndexKey) : Option (List NexoraId) :=
  ((index.warmBtree.find? key.property).bind fun shard => shard.find? (key.value.orderKey S)).map Prod.snd

def pushNew (nodes : List NexoraId) (qid : NexoraId) : List NexoraId :=
  if qid ∈ nodes then nodes else nodes ++ [qid]

/-- Whether a new key pushes the first key of its property out of the second tier. -/
def evicts (S : Serde) (index : PropertyIndex) (key : IndexKey) : Bool :=
  let shard := (index.warmBtree.find? key.property).getD .empty
  (shard.find? (key.value.orderKey S)).isNone && index.config.l2MaxEntries ≤ index.l2Total &&
    shard.rows.head?.any fun first => !first.2.1.eq key.value

def insert (S : Serde) (index : PropertyIndex) (property : Symbol) (value : PropertyValue)
    (qid : NexoraId) : PropertyIndex :=
  let key : IndexKey := ⟨property, value⟩
  let shard := (index.warmBtree.find? property).getD .empty
  let room := if index.evicts S key then shard.tail else shard
  let row := (room.find? (value.orderKey S)).getD (value, [])
  { index with
    hotHash := index.hotHash.map fun entry => if key.finds S entry.1 then (entry.1, pushNew entry.2 qid) else entry
    warmBtree := index.warmBtree.put property (room.put (value.orderKey S) (row.1, pushNew row.2 qid))
    l2Total := (if index.evicts S key then index.l2Total - 1 else index.l2Total) +
      if (shard.find? (value.orderKey S)).isNone then 1 else 0 }

/-- A quarter of the counters is given up when there are too many. -/
def recordAccess (S : Serde) (orders : QueryOrders) (index : PropertyIndex) (key : IndexKey) :
    PropertyIndex :=
  let counts :=
    if index.config.accessCountMaxEntries ≤ index.accessCount.length then
      (orders.accessCount.order index.accessCount).drop (index.accessCount.length / 4)
    else index.accessCount
  { index with
    accessCount :=
      if counts.any fun entry => key.finds S entry.1 then
        counts.map fun entry => if key.finds S entry.1 then (entry.1, entry.2 + 1) else entry
      else counts ++ [(key, 1)] }

def maybePromoteToL1 (S : Serde) (orders : QueryOrders) (index : PropertyIndex) (key : IndexKey)
    (nodes : List NexoraId) :
    PropertyIndex :=
  let count := ((index.accessCount.find? fun entry => key.finds S entry.1).map Prod.snd).getD 0
  if index.config.l1PromotionThreshold ≤ count then
    let hotHash :=
      if (index.findHot S key).isNone ∧ index.config.l1MaxEntries ≤ index.hotHash.length then
        (orders.hotHash.order index.hotHash).drop 1
      else index.hotHash
    { index with
      hotHash := hotHash.filter (fun entry => !key.finds S entry.1) ++ [(key, nodes)]
      accessCount := index.accessCount.filter fun entry => !key.finds S entry.1 }
  else index

def query (S : Serde) (orders : QueryOrders) (index : PropertyIndex) (property : Symbol)
    (value : PropertyValue) :
    PropertyIndex × List NexoraId :=
  let key : IndexKey := ⟨property, value⟩
  match index.findHot S key with
  | some nodes => (index.recordAccess S orders key, nodes)
  | none =>
    match index.findWarm S key with
    | some nodes => ((index.recordAccess S orders key).maybePromoteToL1 S orders key nodes, nodes)
    | none => (index, [])

/-! ### What an insertion and a query do -/

variable {S : Serde} {index : PropertyIndex} {key key' : IndexKey} {property : Symbol}
    {value : PropertyValue} {qid : NexoraId}

def HasRoom (S : Serde) (index : PropertyIndex) (key : IndexKey) : Prop :=
  (index.findWarm S key).isSome ∨ index.l2Total < index.config.l2MaxEntries

def InSync (S : Serde) (index : PropertyIndex) : Prop :=
  ∀ entry ∈ index.hotHash, entry.1.finds S entry.1 → index.findWarm S entry.1 = some entry.2

variable {nodes : List NexoraId} {qid' : NexoraId}

theorem mem_pushNew : qid' ∈ pushNew nodes qid ↔ qid' = qid ∨ qid' ∈ nodes := by
  unfold pushNew
  split
  · next hmem => exact ⟨Or.inr, fun h => h.elim (fun heq => heq ▸ hmem) id⟩
  · rw [mem_append, mem_singleton, or_comm]

theorem nodup_pushNew (h : nodes.Nodup) : (pushNew nodes qid).Nodup := by
  unfold pushNew
  split
  · exact h
  · next hmem => exact h.append (nodup_singleton qid) (disjoint_singleton.mpr hmem)

theorem findWarm_eq_of_finds (h : key.finds S key') :
    index.findWarm S key = index.findWarm S key' := by
  rw [findWarm, findWarm, IndexKey.property_eq_of_finds h, IndexKey.orderKey_eq_of_finds h]

theorem evicts_of_hasRoom (h : index.HasRoom S key) : index.evicts S key = false := by
  unfold evicts
  rcases h with hfound | hless
  · unfold findWarm at hfound
    cases hshard : index.warmBtree.find? key.property with
    | none =>
      rw [hshard] at hfound
      cases hfound
    | some shard =>
      rw [hshard, bind_some, isSome_map] at hfound
      simp [isNone_eq_false_iff.mpr hfound]
  · simp only [decide_eq_false (not_le.mpr hless), Bool.and_false, Bool.false_and]

section
variable (hroom : index.HasRoom S ⟨property, value⟩)
include hroom

theorem findWarm_insert : (index.insert S property value qid).findWarm S key =
      if key.property = property ∧ key.value.orderKey S = value.orderKey S then
        some (pushNew ((index.findWarm S ⟨property, value⟩).getD []) qid)
      else index.findWarm S key := by
  simp only [insert, evicts_of_hasRoom hroom, Bool.false_eq_true, if_false]
  simp only [findWarm, Table.find?_put]
  by_cases hproperty : key.property = property
  · rw [if_pos hproperty, bind_some, Table.find?_put]
    by_cases hvalue : key.value.orderKey S = value.orderKey S
    · rw [if_pos hvalue, if_pos ⟨hproperty, hvalue⟩]
      cases index.warmBtree.find? property with
      | none => rfl
      | some shard =>
        simp only [getD_some, bind_some, map_some]
        cases shard.find? (value.orderKey S) <;> rfl
    · rw [if_neg hvalue, if_neg (fun h => hvalue h.2), hproperty]
      cases index.warmBtree.find? property <;> rfl
  · rw [if_neg hproperty, if_neg fun h => hproperty h.1]

omit hroom in
theorem InSync.insert (h : index.InSync S) (hroom : index.HasRoom S ⟨property, value⟩)
    (hvalue : value.Distinguished S) :
    (index.insert S property value qid).InSync S := by
  intro entry hentry hself
  obtain ⟨old, hold, rfl⟩ := mem_map.mp hentry
  split at hself <;> rename_i hfinds
  · have hsync := h old hold hself
    rw [if_pos hfinds, findWarm_insert hroom,
      if_pos ⟨(IndexKey.property_eq_of_finds hfinds).symm, (IndexKey.orderKey_eq_of_finds hfinds).symm⟩,
      findWarm_eq_of_finds hfinds, hsync, getD_some]
  · rw [if_neg hfinds, findWarm_insert hroom, if_neg]
    · exact h old hold hself
    · -- The two keys would be one, which finds itself.
      rintro ⟨hproperty, horder⟩
      obtain ⟨⟨oldProperty, oldValue⟩, nodes⟩ := old
      cases hproperty
      cases hvalue oldValue horder
      exact hfinds hself

theorem mem_findWarm_insert (hvalue : value.Distinguished S)
    {property' : Symbol} {value' : PropertyValue} :
    qid' ∈ ((index.insert S property value qid).findWarm S ⟨property', value'⟩).getD [] ↔
      (property' = property ∧ value' = value ∧ qid' = qid) ∨ qid' ∈ (index.findWarm S ⟨property', value'⟩).getD [] := by
  rw [findWarm_insert hroom]
  split
  · next hsame =>
    obtain ⟨hproperty, horder⟩ := hsame
    cases hproperty
    cases hvalue value' horder
    rw [getD_some, mem_pushNew, eq_self, eq_self, true_and, true_and]
  · next hother =>
    have hnot : ¬ (property' = property ∧ value' = value ∧ qid' = qid) := by
      rintro ⟨rfl, rfl, -⟩
      exact hother ⟨rfl, rfl⟩
    rw [or_iff_right hnot]

theorem nodup_findWarm_insert
    (h : ∀ key, ((index.findWarm S key).getD []).Nodup) (key : IndexKey) :
    (((index.insert S property value qid).findWarm S key).getD []).Nodup := by
  rw [findWarm_insert hroom]
  split
  · exact nodup_pushNew (h _)
  · exact h key

end
section
variable (h : index.InSync S) (orders : QueryOrders)
include h

theorem InSync.maybePromoteToL1 (hnodes : index.findWarm S key = some nodes) :
    (index.maybePromoteToL1 S orders key nodes).InSync S := by
  unfold PropertyIndex.maybePromoteToL1
  simp only
  split
  · intro entry hentry hself
    rcases mem_append.mp hentry with hentry | hentry
    · have hmem := mem_of_mem_filter hentry
      split at hmem
      · exact h entry ((orders.hotHash.perm _).mem_iff.mp (mem_of_mem_drop hmem)) hself
      · exact h entry hmem hself
    · rw [mem_singleton.mp hentry]
      exact hnodes
  · exact h

omit h in
theorem findWarm_query (orders : QueryOrders) (key : IndexKey) :
    (index.query S orders property value).1.findWarm S key = index.findWarm S key := by
  unfold query
  simp only
  split
  · rfl
  · split
    · unfold maybePromoteToL1
      simp only
      split <;> rfl
    · rfl

theorem InSync.query : (index.query S orders property value).1.InSync S := by
  unfold PropertyIndex.query
  simp only
  split
  · exact h
  · split
    · next nodes hnodes =>
      have haccess : (index.recordAccess S orders ⟨property, value⟩).InSync S := h
      exact haccess.maybePromoteToL1 orders hnodes
    · exact h

/-- **A query** returns what the second tier has, whichever tier answers it. -/
theorem InSync.query_eq :
    (index.query S orders property value).2 = (index.findWarm S ⟨property, value⟩).getD [] := by
  unfold PropertyIndex.query
  simp only
  split
  · next nodes hhot =>
    obtain ⟨entry, hentry, rfl⟩ := map_eq_some_iff.mp hhot
    have hfinds := find?_some hentry
    rw [findWarm_eq_of_finds hfinds, h entry (mem_of_find?_eq_some hentry) (IndexKey.finds_self_of_finds hfinds),
      getD_some]
  · split
    · next nodes hnodes => rw [hnodes, getD_some]
    · next hnone => rw [hnone, getD_none]

end
end PropertyIndex
end Nexora
