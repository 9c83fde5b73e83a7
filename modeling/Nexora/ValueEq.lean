import Nexora.Value

/-!
# Equality of property values

`==` on property values is the derived `PartialEq`: it compares doubles as IEEE does, so that a
value with a NaN inside is not equal to itself, and the labels of a blob, a `HashMap`, in whatever
order they are listed.
-/

namespace Nexora
open Lib Bool

def PointValue.eq (p q : PointValue) : Bool :=
  p.x.eq q.x && p.y.eq q.y && p.srid = q.srid &&
    match p.z, q.z with
    | some z, some z' => z.eq z'
    | none, none => true
    | _, _ => false

theorem PointValue.eq_self_of_eq {p q : PointValue} (h : p.eq q) : q.eq q := by
  unfold PointValue.eq at h ⊢
  rw [and_eq_true, and_eq_true, and_eq_true] at h ⊢
  obtain ⟨⟨⟨hx, hy⟩, -⟩, hz⟩ := h
  refine ⟨⟨⟨F64.eq_self_of_eq hx, F64.eq_self_of_eq hy⟩, decide_eq_true rfl⟩, ?_⟩
  cases hq : q.z with
  | none => rfl
  | some z' =>
    rw [hq] at hz
    cases hp : p.z with
    | none => rw [hp] at hz; exact absurd hz nofun
    | some z => rw [hp] at hz; exact F64.eq_self_of_eq hz

def BlobRef.eq (a b : BlobRef) : Bool :=
  a.bucket = b.bucket && a.entry = b.entry && a.timestampUs = b.timestampUs && a.size = b.size &&
    a.contentType = b.contentType && a.labels.isPerm b.labels

theorem BlobRef.eq_self (b : BlobRef) : b.eq b = true := by
  simp [BlobRef.eq, List.isPerm_iff]

mutual

def PropertyValue.eq : PropertyValue → PropertyValue → Bool
  | .null, .null => true
  | .boolean a, .boolean b => a = b
  | .integer a, .integer b => a = b
  | .float a, .float b => a.eq b
  | .string a, .string b => a = b
  | .bytes a, .bytes b => a = b
  | .list a, .list b => listEq a b
  | .map a, .map b => entriesEq a b
  | .node a, .node b => a.eq b
  | .relationship a, .relationship b => a.eq b
  | .path nodes relationships, .path nodes' relationships' =>
      nodesEq nodes nodes' && relationshipsEq relationships relationships'
  | .date a, .date b => a = b
  | .localDateTime a, .localDateTime b => a = b
  | .zonedDateTime a, .zonedDateTime b => a = b
  | .duration a, .duration b => a = b
  | .point a, .point b => a.eq b
  | .blobRef a, .blobRef b => a.eq b
  | _, _ => false
termination_by structural v => v

def NodeValue.eq : NodeValue → NodeValue → Bool
  | .mk id labels properties, .mk id' labels' properties' =>
    id = id' && labels = labels' && entriesEq properties properties'
termination_by structural v => v

def RelationshipValue.eq : RelationshipValue → RelationshipValue → Bool
  | .mk id relType start stop properties, .mk id' relType' start' stop' properties' =>
      id = id' && relType = relType' && start = start' && stop = stop' && entriesEq properties properties'
termination_by structural v => v

def listEq : List PropertyValue → List PropertyValue → Bool
  | [], [] => true
  | v :: rest, v' :: rest' => v.eq v' && listEq rest rest'
  | _, _ => false
termination_by structural v => v

def entriesEq : List (String × PropertyValue) → List (String × PropertyValue) → Bool
  | [], [] => true
  | (k, v) :: rest, (k', v') :: rest' => k = k' && v.eq v' && entriesEq rest rest'
  | _, _ => false
termination_by structural v => v

def nodesEq : List NodeValue → List NodeValue → Bool
  | [], [] => true
  | n :: rest, n' :: rest' => n.eq n' && nodesEq rest rest'
  | _, _ => false
termination_by structural v => v

def relationshipsEq : List RelationshipValue → List RelationshipValue → Bool
  | [], [] => true
  | r :: rest, r' :: rest' => r.eq r' && relationshipsEq rest rest'
  | _, _ => false
termination_by structural v => v

end
mutual

theorem PropertyValue.eq_self_of_eq : ∀ {v w : PropertyValue}, v.eq w → w.eq w
  | v, w, h => by
    -- Values of different variants are not equal.
    cases v <;> cases w <;> try (cases h; done)
    case float.float => exact F64.eq_self_of_eq h
    case list.list => exact listEq_self_of_eq h
    case map.map => exact entriesEq_self_of_eq h
    case node.node => exact NodeValue.eq_self_of_eq h
    case relationship.relationship => exact RelationshipValue.eq_self_of_eq h
    case path.path =>
      obtain ⟨hnodes, hrelationships⟩ := and_eq_true_iff.mp h
      exact and_eq_true_iff.mpr ⟨nodesEq_self_of_eq hnodes, relationshipsEq_self_of_eq hrelationships⟩
    case point.point => exact PointValue.eq_self_of_eq h
    case blobRef.blobRef _ b => exact b.eq_self
    all_goals first | rfl | exact decide_eq_true rfl

theorem NodeValue.eq_self_of_eq : ∀ {n m : NodeValue}, n.eq m → m.eq m
  | .mk _ _ _, .mk _ _ _, h => by
    have hproperties := (and_eq_true_iff.mp h).2
    exact and_eq_true_iff.mpr
      ⟨and_eq_true_iff.mpr ⟨decide_eq_true rfl, decide_eq_true rfl⟩, entriesEq_self_of_eq hproperties⟩

theorem RelationshipValue.eq_self_of_eq : ∀ {r q : RelationshipValue}, r.eq q → q.eq q
  | .mk _ _ _ _ _, .mk _ _ _ _ _, h => by
    have hproperties := (and_eq_true_iff.mp h).2
    have hfields : ∀ b : Bool, b = true → (true && true && true && true && b) = true := fun b hb => hb
    simp only [RelationshipValue.eq, decide_true]
    exact hfields _ (entriesEq_self_of_eq hproperties)

theorem listEq_self_of_eq : ∀ {l m : List PropertyValue}, listEq l m → listEq m m
  | _, [], _ => rfl
  | _ :: _, _ :: _, h => by
    obtain ⟨hfirst, hrest⟩ := and_eq_true_iff.mp h
    exact and_eq_true_iff.mpr ⟨PropertyValue.eq_self_of_eq hfirst, listEq_self_of_eq hrest⟩

theorem entriesEq_self_of_eq :
    ∀ {l m : List (String × PropertyValue)}, entriesEq l m → entriesEq m m
  | _, [], _ => rfl
  | (_, _) :: _, (_, _) :: _, h => by
    obtain ⟨hfirst, hrest⟩ := and_eq_true_iff.mp h
    have hvalue := PropertyValue.eq_self_of_eq (and_eq_true_iff.mp hfirst).2
    exact and_eq_true_iff.mpr ⟨and_eq_true_iff.mpr ⟨decide_eq_true rfl, hvalue⟩, entriesEq_self_of_eq hrest⟩

theorem nodesEq_self_of_eq : ∀ {l m : List NodeValue}, nodesEq l m → nodesEq m m
  | _, [], _ => rfl
  | _ :: _, _ :: _, h => by
    obtain ⟨hfirst, hrest⟩ := and_eq_true_iff.mp h
    exact and_eq_true_iff.mpr ⟨NodeValue.eq_self_of_eq hfirst, nodesEq_self_of_eq hrest⟩

theorem relationshipsEq_self_of_eq :
    ∀ {l m : List RelationshipValue}, relationshipsEq l m → relationshipsEq m m
  | _, [], _ => rfl
  | _ :: _, _ :: _, h => by
    obtain ⟨hfirst, hrest⟩ := and_eq_true_iff.mp h
    exact and_eq_true_iff.mpr ⟨RelationshipValue.eq_self_of_eq hfirst, relationshipsEq_self_of_eq hrest⟩

end
end Nexora
