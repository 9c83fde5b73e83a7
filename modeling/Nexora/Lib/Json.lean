import Mathlib.Data.List.Basic

/-!
# JSON documents as trees

A document is a tree of values; numbers are either integers or doubles kept as bit patterns. What a
reader with a nesting limit needs of a document is `depth`, and what a printer that cannot write
every double exactly does to it is `mapFloat`.
-/

namespace Lib

/-- An IEEE double, as its bit pattern. -/
structure F64 where
  bits : BitVec 64
deriving DecidableEq

/-- Neither an infinity nor a NaN: the exponent field is not all ones. -/
def F64.isFinite (x : F64) : Bool := (x.bits >>> 52) &&& 0x7ff#64 ≠ 0x7ff#64

def F64.isNan (x : F64) : Bool := !x.isFinite && x.bits &&& 0xfffffffffffff#64 ≠ 0#64

/-- `==` on doubles: a NaN equals nothing, and the two zeros are equal. -/
def F64.eq (x y : F64) : Bool :=
  !x.isNan && !y.isNan && (x.bits = y.bits || (x.bits ||| y.bits) <<< 1 = 0#64)

theorem F64.eq_self_of_eq {x y : F64} (h : x.eq y) : y.eq y := by
  simp only [F64.eq, Bool.and_eq_true] at h ⊢
  exact ⟨⟨h.1.2, h.1.2⟩, by simp⟩

inductive Json where
  | null
  | bool (b : Bool)
  | int (n : Int)
  | float (x : F64)
  | str (s : String)
  | arr (items : List Json)
  | obj (fields : List (String × Json))

namespace Json
mutual

/-- How many arrays and objects are open at the deepest point of the document. -/
def depth : Json → Nat
  | .arr items => depthItems items + 1
  | .obj fields => depthFields fields + 1
  | _ => 0

def depthItems : List Json → Nat
  | [] => 0
  | j :: rest => max j.depth (depthItems rest)

def depthFields : List (String × Json) → Nat
  | [] => 0
  | (_, j) :: rest => max j.depth (depthFields rest)

end
mutual

def mapFloat (f : F64 → F64) : Json → Json
  | .float x => .float (f x)
  | .arr items => .arr (mapFloatItems f items)
  | .obj fields => .obj (mapFloatFields f fields)
  | j => j

def mapFloatItems (f : F64 → F64) : List Json → List Json
  | [] => []
  | j :: rest => j.mapFloat f :: mapFloatItems f rest

def mapFloatFields (f : F64 → F64) : List (String × Json) → List (String × Json)
  | [] => []
  | (k, j) :: rest => (k, j.mapFloat f) :: mapFloatFields f rest

end

def ascii (text : String) : List UInt8 := text.toList.map fun c => UInt8.ofNat c.toNat

mutual

/-- The compact text of a document whose strings are plain ASCII and need no escapes, given the
texts of its doubles. -/
def render (floatText : F64 → String) : Json → List UInt8
  | .null => ascii "null"
  | .bool b => ascii (if b then "true" else "false")
  | .int n => ascii (toString n)
  | .float x => ascii (floatText x)
  | .str s => ascii "\"" ++ (ascii s ++ ascii "\"")
  | .arr items => ascii "[" ++ (renderItems floatText items ++ ascii "]")
  | .obj fields => ascii "\x7b" ++ (renderFields floatText fields ++ ascii "\x7d")

def renderItems (floatText : F64 → String) : List Json → List UInt8
  | [] => []
  | [j] => j.render floatText
  | j :: rest => j.render floatText ++ (ascii "," ++ renderItems floatText rest)

def renderFields (floatText : F64 → String) : List (String × Json) → List UInt8
  | [] => []
  | [(k, j)] => ascii "\"" ++ (ascii k ++ (ascii "\":" ++ j.render floatText))
  | (k, j) :: rest =>
      ascii "\"" ++ (ascii k ++ (ascii "\":" ++ (j.render floatText ++ (ascii "," ++ renderFields floatText rest))))

end

@[simp] theorem mapFloatItems_eq_map (f : F64 → F64) (items : List Json) :
    mapFloatItems f items = items.map (mapFloat f) := by
  induction items with
  | nil => rfl
  | cons j rest ih => rw [mapFloatItems, ih, List.map_cons]

@[simp] theorem mapFloatFields_eq_map (f : F64 → F64) (fields : List (String × Json)) :
    mapFloatFields f fields = fields.map (fun entry => (entry.1, entry.2.mapFloat f)) := by
  induction fields with
  | nil => rfl
  | cons entry rest ih => rw [mapFloatFields, ih, List.map_cons]

end Json
end Lib
