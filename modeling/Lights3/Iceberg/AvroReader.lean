import Lights3.TableNames
import Lights3.Lib.Varint

/-!
# The reader of Avro container files

The schema of a file is parsed into nodes. A definition of a record, an enum or a fixed type gets
a number, which stands for the pointer to it; references share the number, so a record may
contain itself. Nesting is limited by counting a depth down. The parser of JSON texts and the
inflation of blocks are arguments.
-/
namespace Lights3.Iceberg.Avro
open ByteString Wire

def fail (what : Bytes) : RestError := commitFailed (ascii "invalid avro: " ++ what)

def kMaxDepth : Nat := 64

def kMaxRecordBytes : Nat := 16 * 2 ^ 20

/-- Schemas and records. The members of an object are in the order of their names; a
floating-point number is the bytes it was read from. -/
inductive Json where
  | null
  | bool (b : Bool)
  | int (n : Int)
  | float (raw : Bytes)
  | str (s : Bytes)
  | binary (b : Bytes)
  | array (items : List Json)
  | object (members : List (Bytes × Json))

/-- A member of an object; other values have none. -/
def Json.member (name : Bytes) : Json → Option Json
  | .object members => SortedMap.find name members
  | _ => none

/-- The object that is filled with the members one after the other. -/
def Json.ofMembers (members : List (Bytes × Json)) : Json :=
  .object (SortedMap.empty.insertAll members).entries

/-! ## Schemas -/

inductive Kind where
  | null | boolean | int | long | float | double | bytes | string

inductive Schema where
  | primitive (kind : Kind)
  | named (id : Nat)
  | array (items : Schema)
  | map (values : Schema)
  | union (branches : List Schema)

inductive Definition where
  | record (fields : List (Bytes × Schema))
  | enum (symbols : List Bytes)
  | fixed (size : Nat)

/-- The definitions so far and the numbers of their names. -/
structure Named where
  definitions : List Definition := []
  names : SortedMap Bytes Nat := .empty

abbrev Parse := StateT Named (Except RestError)

/-- `primitive_kind`. -/
def primitiveKind (t : Bytes) : Option Kind :=
  if t = ascii "null" then some .null
  else if t = ascii "boolean" then some .boolean
  else if t = ascii "int" then some .int
  else if t = ascii "long" then some .long
  else if t = ascii "float" then some .float
  else if t = ascii "double" then some .double
  else if t = ascii "bytes" then some .bytes
  else if t = ascii "string" then some .string
  else none

def dot : UInt8 := 46

/-- The part of a name before its last dot. -/
def namespaceOf (name : Bytes) : Bytes :=
  ((name.reverse.dropWhile (fun c => c ≠ dot)).drop 1).reverse

/-- `full_name`, with the namespace of what is defined inside. -/
def fullName (j : Json) (enclosing : Bytes) : Except RestError (Bytes × Bytes) :=
  match j.member (ascii "name") with
  | some (.str name) =>
      if dot ∈ name then .ok (name, namespaceOf name)
      else
        let own := match j.member (ascii "namespace") with
          | some (.str ns) => ns
          | _ => enclosing
        .ok (if own = [] then name else own ++ [dot] ++ name, own)
  | _ => .error (fail (ascii "named type without a name"))

namespace Named

/-- A named reference: as written, then in the enclosing namespace. -/
def resolve (named : Named) (t ns : Bytes) : Option Nat :=
  (named.names.get? t).or (if ns = [] then none else named.names.get? (ns ++ [dot] ++ t))

/-- `named[name] = s` for a new definition. -/
def register (named : Named) (name : Bytes) (d : Definition) : Named where
  definitions := named.definitions ++ [d]
  names := named.names.insert name named.definitions.length

/-- The fields of a record that was registered before them. -/
def define (named : Named) (id : Nat) (d : Definition) : Named :=
  { named with definitions := named.definitions.set id d }

end Named

/-- A new definition under its name. -/
def newType (name : Bytes) (d : Definition) : Parse Schema :=
  modifyGet (fun named => (.named named.definitions.length, named.register name d))

/-- One field of a record. -/
def parseField (sub : Json → Parse Schema) (record : Bytes) (f : Json) : Parse (Bytes × Schema) :=
  match f.member (ascii "name"), f.member (ascii "type") with
  | some (.str name), some t => (name, ·) <$> sub t
  | _, _ => throw (fail (ascii "malformed field in record '" ++ record ++ ascii "'"))

def symbolOf : Json → Except RestError Bytes
  | .str s => .ok s
  | _ => .error (fail (ascii "enum symbol is not a string"))

/-- A record, registered before its fields so that they can refer to it. -/
def parseRecord (sub : Json → Bytes → Parse Schema) (j : Json) (ns : Bytes) : Parse Schema := do
  let (name, own) ← fullName j ns
  let id ← modifyGet (fun named => (named.definitions.length, named.register name (.record [])))
  match j.member (ascii "fields") with
  | some (.array fs) =>
      let fields ← fs.mapM (parseField (fun t => sub t own) name)
      modify (fun named => named.define id (.record fields))
      return .named id
  | _ => throw (fail (ascii "record '" ++ name ++ ascii "' without fields"))

def parseEnum (j : Json) (ns : Bytes) : Parse Schema := do
  let (name, _) ← fullName j ns
  match j.member (ascii "symbols") with
  | some (.array syms) =>
      let symbols ← (syms.mapM symbolOf : Except RestError (List Bytes))
      newType name (.enum symbols)
  | _ => throw (fail (ascii "enum '" ++ name ++ ascii "' without symbols"))

def parseFixed (j : Json) (ns : Bytes) : Parse Schema := do
  let (name, _) ← fullName j ns
  match j.member (ascii "size") with
  | some (.int (.ofNat size)) =>
      if size > kMaxRecordBytes then
        throw (fail (ascii "fixed '" ++ name ++ ascii "' is too large"))
      else newType name (.fixed size)
  | _ => throw (fail (ascii "fixed '" ++ name ++ ascii "' without a size"))

/-- An object with a type that is not a primitive one. -/
def parseNode (sub : Json → Bytes → Parse Schema) (j : Json) (ns type : Bytes) : Parse Schema :=
  if type = ascii "record" || type = ascii "error" then parseRecord sub j ns
  else if type = ascii "enum" then parseEnum j ns
  else if type = ascii "fixed" then parseFixed j ns
  else if type = ascii "array" then
    match j.member (ascii "items") with
    | some items => .array <$> sub items ns
    | none => throw (fail (ascii "array without items"))
  else if type = ascii "map" then
    match j.member (ascii "values") with
    | some values => .map <$> sub values ns
    | none => throw (fail (ascii "map without values"))
  else throw (fail (ascii "unknown type '" ++ type ++ ascii "'"))

/-- `parse_schema`, the first argument being the depth that is left. -/
def parseSchema : Nat → Json → Bytes → Parse Schema
  | 0, _, _ => throw (fail (ascii "schema nests too deep"))
  | _ + 1, .str t, ns =>
      match primitiveKind t with
      | some kind => return .primitive kind
      | none => do
          match (← get).resolve t ns with
          | some id => return .named id
          | none => throw (fail (ascii "unknown type '" ++ t ++ ascii "'"))
  | d + 1, .array bs, ns => do
      let branches ← bs.mapM (fun b => parseSchema d b ns)
      if branches.isEmpty then throw (fail (ascii "empty union")) else return .union branches
  | d + 1, j, ns =>
      match j.member (ascii "type") with
      | some (.str type) =>
          match primitiveKind type with
          | some kind => return .primitive kind
          | none => parseNode (parseSchema d) j ns type
      | some t => parseSchema d t ns
      | none => throw (fail (ascii "schema node without a type"))

/-! ## Binary decoding -/

def truncated : RestError := fail (ascii "truncated data")

def readLong : Reader RestError Int := Wire.readLong truncated (fail (ascii "varint is too long"))

def readInt : Reader RestError Int := do
  let v ← readLong
  reject (v < -2 ^ 31 ∨ v ≥ 2 ^ 31) (fail (ascii "int out of range"))
  return v

/-- `read_len`. -/
def readLen : Reader RestError Nat := do
  let n ← readLong
  reject (n < 0) (fail (ascii "negative length"))
  atLeast truncated n.toNat
  return n.toNat

def readBytes (n : Nat) : Reader RestError Bytes := take truncated n

/-- `read_bytes(read_len())`. -/
def readString : Reader RestError Bytes := do readBytes (← readLen)

def Schema.isNull : Schema → Bool
  | .primitive .null => true
  | _ => false

/-- The size of a block, which follows a negative count. -/
def blockSize (n : Int) : Reader RestError Unit := do
  reject (n = -2 ^ 63) (fail (ascii "block count overflow"))
  let size ← readLong
  reject (size < 0) (fail (ascii "negative block size"))
  atLeast truncated size.toNat

/-- A run of empty items is bounded, so that a count cannot allocate without bounds. -/
def admitCount (null : Bool) (n : Nat) : Reader RestError Unit :=
  if null then reject (n > 2 ^ 20) (fail (ascii "null block is too long"))
  else atLeast (fail (ascii "block count exceeds the data")) n

/-- `block_count`. -/
def blockCount (null : Bool) : Reader RestError Nat := do
  let n ← readLong
  (if n < 0 then blockSize n else pure ())
  admitCount null n.natAbs
  return n.natAbs

/-- The blocks of an array or a map. A turn takes a byte at least, so the bytes left bound the
turns. -/
def blockLoop {α : Type} (null : Bool) (item : Reader RestError α) : Nat → Reader RestError (List α)
  | 0 => throw truncated
  | fuel + 1 => do
      let n ← blockCount null
      if n = 0 then return []
      let xs ← many item n
      let ys ← blockLoop null item fuel
      return xs ++ ys

def blockItems {α : Type} (null : Bool) (item : Reader RestError α) : Reader RestError (List α) :=
  fun s => (blockLoop null item s.length).run s

def decodeBoolean : Reader RestError Json := do
  let b ← readBytes 1
  reject (¬ (b = [0] ∨ b = [1])) (fail (ascii "boolean is not 0 or 1"))
  return .bool (b = [1])

def decodePrimitive : Kind → Reader RestError Json
  | .null => return .null
  | .boolean => decodeBoolean
  | .int => .int <$> readInt
  | .long => .int <$> readLong
  | .float => .float <$> readBytes 4
  | .double => .float <$> readBytes 8
  | .bytes => .binary <$> readString
  | .string => .str <$> readString

/-- The element with an index that was read. -/
def elementAt {α : Type} (xs : List α) (idx : Int) : Option α :=
  if idx < 0 then none else xs[idx.toNat]?

def decodeEnum (symbols : List Bytes) : Reader RestError Json := do
  match elementAt symbols (← readInt) with
  | some symbol => return .str symbol
  | none => throw (fail (ascii "enum index out of range"))

/-- `decode`, the first argument being the depth that is left. -/
def decode (defs : List Definition) : Nat → Schema → Reader RestError Json
  | 0, _ => throw (fail (ascii "value nests too deep"))
  | _ + 1, .primitive kind => decodePrimitive kind
  | d + 1, .named id =>
      match defs[id]? with
      | some (.record fields) => do
          let members ← fields.mapM (fun f => (f.1, ·) <$> decode defs d f.2)
          return .ofMembers members
      | some (.enum symbols) => decodeEnum symbols
      | some (.fixed size) => .binary <$> readBytes size
      | none => throw (fail (ascii "unknown schema kind"))
  | d + 1, .union branches => do
      match elementAt branches (← readLong) with
      | some branch => decode defs d branch
      | none => throw (fail (ascii "union index out of range"))
  | d + 1, .array items => .array <$> blockItems items.isNull (decode defs d items)
  | d + 1, .map values => .ofMembers <$> blockItems values.isNull (do
      let key ← readString
      (key, ·) <$> decode defs d values)

/-! ## Files -/

/-- What the parser of JSON texts and the build bring in: the parsed text or the message of the
exception, and the inflation of a block if there is one. -/
structure Library where
  parseJson : Bytes → Except Bytes Json
  inflateRaw : Option (Bytes → Except RestError Bytes) := none

structure File where
  metadata : SortedMap Bytes Bytes
  sync : Bytes
  schema : Schema
  definitions : List Definition
  codec : Bytes
  data : Bytes

inductive Failure where
  | rest (e : RestError)
  | unsupportedCodec (what : Bytes)

/-- Magic, metadata and sync marker. -/
def readHeader : Reader RestError (List (Bytes × Bytes) × Bytes) := do
  let magic ← readBytes 4
  reject (magic ≠ ascii "Obj\x01") (fail (ascii "bad magic"))
  let entries ← blockItems false (do
    let k ← readString
    let v ← readString
    return (k, v))
  let sync ← readBytes 16
  return (entries, sync)

/-- The codec, "null" when none is given. -/
def codecOf (metadata : SortedMap Bytes Bytes) : Bytes :=
  match metadata.get? (ascii "avro.codec") with
  | none => ascii "null"
  | some codec => if codec = [] then ascii "null" else codec

/-- The constructor of the reader. -/
def openFile (lib : Library) (bytes : Bytes) : Except RestError File := do
  let ((entries, sync), data) ← readHeader.run bytes
  let metadata := SortedMap.empty.insertAll entries
  match metadata.get? (ascii "avro.schema") with
  | none => throw (fail (ascii "header has no avro.schema"))
  | some text =>
      match lib.parseJson text with
      | .error what => throw (fail (ascii "avro.schema is not JSON: " ++ what))
      | .ok schemaJson => do
          let (schema, named) ← (parseSchema (kMaxDepth + 1) schemaJson []).run {}
          return { metadata, sync, schema, definitions := named.definitions,
                   codec := codecOf metadata, data }

namespace File

variable (f : File)

/-- A record with the check of its size. -/
def readRecord : Reader RestError Json := fun s => do
  let (v, rest) ← (decode f.definitions (kMaxDepth + 1) f.schema).run s
  if s.length - rest.length > kMaxRecordBytes then
    throw (fail (ascii "record exceeds the size limit"))
  return (v, rest)

/-- The count and the raw bytes of a data block. -/
def readBlock : Reader RestError (Nat × Bytes) := do
  let count ← readLong
  reject (count < 0) (fail (ascii "negative record count"))
  let raw ← readString
  let sync ← readBytes 16
  reject (sync ≠ f.sync) (fail (ascii "sync marker mismatch"))
  return (count.toNat, raw)

/-- The records of a block. -/
def blockRecords (count : Nat) (data : Bytes) : Except RestError (List Json) := do
  let (records, rest) ← (many f.readRecord count).run data
  if rest = [] then return records else throw (fail (ascii "block has trailing bytes"))

/-- The data blocks. Every turn takes bytes. -/
def readBlocks (inflate : Bytes → Except RestError Bytes) (maxRecords : Nat) :
    Nat → Nat → Bytes → Except RestError (List Json)
  | 0, _, _ => .ok []
  | fuel + 1, done, bytes =>
      if bytes = [] then .ok []
      else do
        let ((count, raw), bytes) ← f.readBlock.run bytes
        if done + count > maxRecords then throw (fail (ascii "more records than allowed"))
        let records ← f.blockRecords count (← inflate raw)
        let later ← readBlocks inflate maxRecords fuel (done + count) bytes
        return records ++ later

/-- `for_each`: the records that it hands on. -/
def forEach (lib : Library) (maxRecords : Nat) : Except Failure (List Json) :=
  if f.codec = ascii "null" then
    (f.readBlocks .ok maxRecords f.data.length 0 f.data).mapError .rest
  else if f.codec = ascii "deflate" then
    match lib.inflateRaw with
    | some inflate => (f.readBlocks inflate maxRecords f.data.length 0 f.data).mapError .rest
    | none => .error (.unsupportedCodec (ascii "avro codec 'deflate' needs zlib, not built in"))
  else .error (.unsupportedCodec (ascii "avro codec '" ++ f.codec ++ ascii "' is not supported"))

end File

/-- Opening a file and going through it. -/
def readFile (lib : Library) (maxRecords : Nat) (bytes : Bytes) : Except Failure (List Json) := do
  let f ← (openFile lib bytes).mapError .rest
  f.forEach lib maxRecords

end Lights3.Iceberg.Avro
