import Lights3.TableNames
import Lights3.Lib.Results

/-!
# Iceberg types and schemas

Type trees with their field ids, the walk that checks a tree and collects its fields, the
evolution rules between two schemas and the assignment of fresh ids. A `rest` holds the
members of a JSON object that nothing reads. A number stands for the value that the source
converts it to: `get<int64_t>` wraps `2 ^ 63` around and reads 30.7 as 30. A member of another
JSON type is refused by the source and is not represented.
-/
namespace Lights3.Iceberg
open ByteString

def unsupported (m : Bytes) : RestError := ⟨.UnsupportedOperationException, m⟩

def showInt (n : Int) : Bytes := ascii (toString n)

/-- `require`, with the error that is thrown. -/
def require (cond : Bool) (e : RestError) : Except RestError Unit :=
  if cond then .ok () else .error e

theorem require_eq_ok {cond : Bool} {e : RestError} {u : Unit} :
    require cond e = .ok u ↔ cond = true := by
  cases cond <;> simp [require]

/-! ## Types -/

mutual

/-- A type whose fields carry ids of the type `ι`. -/
inductive IcebergType (ι : Type) where
  | primitive (name : Bytes)
  | struct (fields : StructFields ι) (rest : Bytes)
  | list (elementId : ι) (element : IcebergType ι) (elementRequired : Option Bool) (rest : Bytes)
  | map (keyId valueId : ι) (key value : IcebergType ι) (valueRequired : Option Bool)
      (rest : Bytes)
  deriving DecidableEq

inductive StructFields (ι : Type) where
  | nil
  | cons (id : ι) (name : Bytes) (type : IcebergType ι) (required : Option Bool) (rest : Bytes)
      (tail : StructFields ι)
  deriving DecidableEq

end

/-- A schema; its id is kept apart from what it denotes. -/
structure SchemaBody where
  fields : StructFields Int
  identifierFieldIds : Option (List Int) := none
  rest : Bytes := []
  deriving DecidableEq

structure Schema where
  schemaId : Int
  body : SchemaBody
  deriving DecidableEq

def kPrimitiveTypes : List Bytes :=
  [ascii "boolean", ascii "int", ascii "long", ascii "float", ascii "double", ascii "date",
    ascii "time", ascii "timestamp", ascii "timestamptz", ascii "string", ascii "uuid",
    ascii "binary", ascii "timestamp_ns", ascii "timestamptz_ns", ascii "unknown"]

/-- `is_primitive`. -/
def isPrimitive (name : Bytes) : Bool :=
  name ∈ kPrimitiveTypes || (ascii "decimal(" <+: name && ascii ")" <:+ name) ||
    (ascii "fixed[" <+: name && ascii "]" <:+ name)

structure FieldInfo where
  name : Bytes
  type : IcebergType Int
  required : Bool

mutual

/-- The fields that `walk_type` collects, in its order. -/
def IcebergType.infos : IcebergType Int → List (Int × FieldInfo)
  | .primitive _ => []
  | .struct fields _ => fields.infos
  | .list id element required _ =>
      (id, ⟨ascii "element", element, required.getD false⟩) :: element.infos
  | .map keyId valueId key value required _ =>
      (keyId, ⟨ascii "key", key, true⟩) ::
        (valueId, ⟨ascii "value", value, required.getD false⟩) :: (key.infos ++ value.infos)

def StructFields.infos : StructFields Int → List (Int × FieldInfo)
  | .nil => []
  | .cons id name type required _ tail =>
      (id, ⟨name, type, required.getD false⟩) :: (type.infos ++ tail.infos)

end

mutual

/-- The checks of `walk_type`. -/
def IcebergType.check (depth : Nat) : IcebergType Int → Except RestError Unit
  | .primitive name => do
      require (depth < 64) (badRequest (ascii "schema nesting is too deep"))
      require (isPrimitive name)
        (badRequest (ascii "schema type must be a primitive name or an object"))
  | .struct fields _ => do
      require (depth < 64) (badRequest (ascii "schema nesting is too deep"))
      fields.check depth
  | .list _ element _ _ => do
      require (depth < 64) (badRequest (ascii "schema nesting is too deep"))
      element.check (depth + 1)
  | .map _ _ key value _ _ => do
      require (depth < 64) (badRequest (ascii "schema nesting is too deep"))
      key.check (depth + 1)
      value.check (depth + 1)

def StructFields.check (depth : Nat) : StructFields Int → Except RestError Unit
  | .nil => .ok ()
  | .cons _ name type _ _ tail => do
      require (!name.isEmpty) (badRequest (ascii "struct field requires a 'name'"))
      type.check (depth + 1)
      tail.check depth

end

namespace SchemaBody

/-- `schema_field_ids`. -/
def fieldIds (s : SchemaBody) : List Int := s.fields.infos.map Prod.fst

/-- `schema_fields`: a later field of the same id replaces an earlier one. -/
def fieldMap (s : SchemaBody) : SortedMap Int FieldInfo :=
  s.fields.infos.foldl (fun m x => m.insert x.1 x.2) .empty

/-- `walk_type` on a schema. -/
def walk (s : SchemaBody) : Except RestError Unit := s.fields.check 0

end SchemaBody

/-- A loop over elements with ids: no id may occur twice, and every element is checked
before and after its id is recorded. -/
def forUnique {α : Type} (before after : α → Except RestError Unit) (idOf : α → Int)
    (dup : Int → RestError) : List Int → List α → Except RestError Unit
  | _, [] => .ok ()
  | seen, x :: xs => do
      before x
      require (idOf x ∉ seen) (dup (idOf x))
      after x
      forUnique before after idOf dup (idOf x :: seen) xs

/-- The loop went through: the ids are distinct and all checks succeeded. -/
theorem forUnique_ok {α : Type} {before after : α → Except RestError Unit} {idOf : α → Int}
    {dup : Int → RestError} {seen : List Int} {xs : List α} {u : Unit}
    (h : forUnique before after idOf dup seen xs = .ok u) :
    (xs.map idOf).Nodup ∧ (∀ x ∈ xs, idOf x ∉ seen) ∧
      ∀ x ∈ xs, before x = .ok () ∧ after x = .ok () := by
  induction xs generalizing seen with
  | nil => simp
  | cons x xs ih =>
      obtain ⟨⟨⟩, hbefore, h⟩ := of_bind_ok h
      obtain ⟨⟨⟩, hnew, h⟩ := of_bind_ok h
      obtain ⟨⟨⟩, hafter, h⟩ := of_bind_ok h
      obtain ⟨hnodup, hseen, hchecks⟩ := ih h
      have hx : idOf x ∉ seen := by simpa using require_eq_ok.mp hnew
      refine ⟨?_, ?_, ?_⟩
      · refine List.nodup_cons.mpr ⟨fun hmem => ?_, hnodup⟩
        obtain ⟨y, hy, heq⟩ := List.mem_map.mp hmem
        exact hseen y hy (heq ▸ List.mem_cons_self)
      · intro y hy
        rcases List.mem_cons.mp hy with rfl | hy
        · exact hx
        · exact fun hmem => hseen y hy (List.mem_cons_of_mem _ hmem)
      · intro y hy
        rcases List.mem_cons.mp hy with rfl | hy
        · exact ⟨hbefore, hafter⟩
        · exact hchecks y hy

/-- `validate_schema`. -/
def validateSchema (s : SchemaBody) : Except RestError Unit := do
  s.walk
  forUnique (fun _ => .ok ()) (fun _ => .ok ()) id (fun id =>
    badRequest (ascii "schema field id " ++ showInt id ++ ascii " is not unique")) [] s.fieldIds

/-! ## Evolution -/

/-- The whitespace that `sscanf` skips. -/
def isSpace (c : UInt8) : Bool := c = 32 || (9 ≤ c && c ≤ 13)

def digitsOf (s : Bytes) : Bytes × Bytes := s.span (fun c => 48 ≤ c && c ≤ 57)

/-- One `%d`. -/
def scanInt (s : Bytes) : Option (Int × Bytes) :=
  let s := s.dropWhile isSpace
  let (neg, s) := match s with
    | 45 :: t => (true, t)
    | 43 :: t => (false, t)
    | t => (false, t)
  match digitsOf s with
  | ([], _) => none
  | (ds, rest) =>
      let n : Int := ds.foldl (fun n c => 10 * n + (c.toNat - 48 : Nat)) (0 : Nat)
      some (if neg then -n else n, rest)

/-- The precision and the scale of a decimal type. -/
def scanDecimal (s : Bytes) : Option (Int × Int) := do
  let (p, rest) ← scanInt (s.drop 8)
  match rest with
  | 44 :: rest => do
      let (scale, _) ← scanInt rest
      return (p, scale)
  | _ => none

/-- `type_promotion_ok`. -/
def typePromotionOk (a b : IcebergType Int) : Bool :=
  if a = b then true
  else
    match a, b with
    | .struct .., .struct .. | .list .., .list .. | .map .., .map .. => true
    | .primitive x, .primitive y =>
        if x = ascii "int" && y = ascii "long" then true
        else if x = ascii "float" && y = ascii "double" then true
        else if ascii "decimal(" <+: x && ascii "decimal(" <+: y then
          match scanDecimal x, scanDecimal y with
          | some (p₁, s₁), some (p₂, s₂) => s₁ = s₂ && p₁ ≤ p₂
          | _, _ => false
        else false
    | _, _ => false

/-- `check_schema_evolution`; the status picks the kind of error. The two types that the
source prints into the message are left out. -/
def checkSchemaEvolution (fail : Bytes → RestError) (current next : SchemaBody) :
    Except RestError Unit :=
  next.fieldMap.entries.forM (fun x =>
    match current.fieldMap.get? x.1 with
    | none => .ok ()
    | some old => do
        require (typePromotionOk old.type x.2.type)
          (fail (ascii "field " ++ showInt x.1 ++ ascii " cannot change type"))
        require (old.required || !x.2.required)
          (fail (ascii "field " ++ showInt x.1 ++ ascii " cannot become required")))

/-! ## Fresh ids -/

mutual

/-- `IdAssigner::assign`: the tree with ids counted up from `next`, and the next id. -/
def IcebergType.assign (next : Int) : IcebergType (Option Int) →
    Except RestError (IcebergType Int × Int)
  | .primitive name => do
      require (isPrimitive name)
        (badRequest (ascii "schema type must be a primitive name or an object"))
      return (.primitive name, next)
  | .struct fields rest => do
      let (fields, next) ← fields.assign next
      return (.struct fields rest, next)
  | .list _ element required rest => do
      let (element, next') ← element.assign (next + 1)
      return (.list next element (some (required.getD false)) rest, next')
  | .map _ _ key value required rest => do
      let (key, next₁) ← key.assign (next + 2)
      let (value, next₂) ← value.assign next₁
      return (.map next (next + 1) key value (some (required.getD false)) rest, next₂)

def StructFields.assign (next : Int) : StructFields (Option Int) →
    Except RestError (StructFields Int × Int)
  | .nil => .ok (.nil, next)
  | .cons _ name type required rest tail => do
      let (type, next₁) ← type.assign (next + 1)
      let (tail, next₂) ← tail.assign next₁
      return (.cons next name type (some (required.getD false)) rest tail, next₂)

end

mutual

/-- The tree of a client that gave all ids. -/
def IcebergType.withIds : IcebergType (Option Int) → Except RestError (IcebergType Int)
  | .primitive name => .ok (.primitive name)
  | .struct fields rest => do return .struct (← fields.withIds) rest
  | .list (some id) element required rest => do
      return .list id (← element.withIds) required rest
  | .list none .. => .error (badRequest (ascii "list type requires 'element-id'"))
  | .map (some keyId) (some valueId) key value required rest => do
      return .map keyId valueId (← key.withIds) (← value.withIds) required rest
  | .map .. => .error (badRequest (ascii "map type requires key-id/value-id/key/value"))

def StructFields.withIds : StructFields (Option Int) → Except RestError (StructFields Int)
  | .nil => .ok .nil
  | .cons (some id) name type required rest tail => do
      return .cons id name (← type.withIds) required rest (← tail.withIds)
  | .cons none .. => .error (badRequest (ascii "struct field requires an integer 'id'"))

end

/-- Whether every field of the uppermost level has an id. -/
def StructFields.hasIds : StructFields (Option Int) → Bool
  | .nil => true
  | .cons id _ _ _ _ tail => id.isSome && tail.hasIds

mutual

/-- Assigned ids lie between the counter before and after. -/
theorem IcebergType.assign_ids {t : IcebergType (Option Int)} {t' : IcebergType Int}
    {next next' : Int} (h : t.assign next = .ok (t', next')) :
    next ≤ next' ∧ ∀ x ∈ t'.infos, next ≤ x.1 ∧ x.1 < next' := by
  cases t with
  | primitive name =>
      obtain ⟨-, -, h⟩ := of_bind_ok h
      cases h
      simp [IcebergType.infos]
  | struct fields rest =>
      obtain ⟨⟨fields', n⟩, hf, h⟩ := of_bind_ok h
      cases h
      simpa [IcebergType.infos] using StructFields.assign_ids hf
  | list id element required rest =>
      obtain ⟨⟨element', n⟩, he, h⟩ := of_bind_ok h
      cases h
      obtain ⟨hle, hids⟩ := IcebergType.assign_ids he
      refine ⟨by omega, fun x hx => ?_⟩
      rcases List.mem_cons.mp hx with rfl | hx
      · exact ⟨le_refl _, by simp only; omega⟩
      · have := hids x hx
        omega
  | map keyId valueId key value required rest =>
      obtain ⟨⟨key', n₁⟩, hk, h⟩ := of_bind_ok h
      obtain ⟨⟨value', n₂⟩, hv, h⟩ := of_bind_ok h
      cases h
      obtain ⟨hle₁, hids₁⟩ := IcebergType.assign_ids hk
      obtain ⟨hle₂, hids₂⟩ := IcebergType.assign_ids hv
      refine ⟨by omega, fun x hx => ?_⟩
      simp only [IcebergType.infos, List.mem_cons, List.mem_append] at hx
      rcases hx with rfl | rfl | hx | hx
      · simp only; omega
      · simp only; omega
      · have := hids₁ x hx
        omega
      · have := hids₂ x hx
        omega

theorem StructFields.assign_ids {t : StructFields (Option Int)} {t' : StructFields Int}
    {next next' : Int} (h : t.assign next = .ok (t', next')) :
    next ≤ next' ∧ ∀ x ∈ t'.infos, next ≤ x.1 ∧ x.1 < next' := by
  cases t with
  | nil =>
      cases h
      simp [StructFields.infos]
  | cons id name type required rest tail =>
      obtain ⟨⟨type', n₁⟩, ht, h⟩ := of_bind_ok h
      obtain ⟨⟨tail', n₂⟩, hr, h⟩ := of_bind_ok h
      cases h
      obtain ⟨hle₁, hids₁⟩ := IcebergType.assign_ids ht
      obtain ⟨hle₂, hids₂⟩ := StructFields.assign_ids hr
      refine ⟨by omega, fun x hx => ?_⟩
      simp only [StructFields.infos, List.mem_cons, List.mem_append] at hx
      rcases hx with rfl | hx | hx
      · simp only; omega
      · have := hids₁ x hx
        omega
      · have := hids₂ x hx
        omega

end

end Lights3.Iceberg
