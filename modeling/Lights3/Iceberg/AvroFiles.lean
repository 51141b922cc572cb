import Lights3.Iceberg.AvroEncoding
import Lights3.Lib.Results

/-!
# Avro container files

Which schema a JSON document denotes, which files encode a list of values, and that the reader
delivers the values of such a file in order and refuses a file that ends inside a data block. The
rules of Avro put a name without a dot into the enclosing namespace. The reader looks for the
bare name first, which goes wrong where a type without a namespace has it.
-/
namespace Lights3.Iceberg.Avro
open ByteString Wire

/-! ## Schema documents -/

/-- The full name of a reference. -/
def qualify (ns t : Bytes) : Bytes := if dot ∈ t ∨ ns = [] then t else ns ++ [dot] ++ t

/-- A relation on each element, with a state that goes through the list. -/
inductive Thread {α β σ : Type} (R : α → σ → β → σ → Prop) : List α → σ → List β → σ → Prop where
  | nil (a : σ) : Thread R [] a [] a
  | cons {x : α} {xs : List α} {y : β} {ys : List β} {a b c : σ} (head : R x a y b)
      (tail : Thread R xs b ys c) : Thread R (x :: xs) a (y :: ys) c

/-- The types that a document has defined so far, in this order and under their full names. -/
structure Env where
  types : List (Bytes × Definition) := []
  distinct : (types.map Prod.fst).Nodup := by simp

def Env.definitions (a : Env) : List Definition := a.types.map Prod.snd

/-- The type with the number and the name has been defined. -/
def Env.Has (a : Env) (id : Nat) (name : Bytes) : Prop := (a.types.map Prod.fst)[id]? = some name

/-- One more type, whose name is new. -/
def Env.Adds (a : Env) (name : Bytes) (d : Definition) (b : Env) : Prop :=
  b.types = a.types ++ [(name, d)]

def primitives : List (Bytes × Kind) :=
  [(ascii "null", .null), (ascii "boolean", .boolean), (ascii "int", .int), (ascii "long", .long),
    (ascii "float", .float), (ascii "double", .double), (ascii "bytes", .bytes),
    (ascii "string", .string)]

/-- The full name of a definition and the namespace of what is defined inside: the name has its
namespace before the last dot, or there is a namespace beside it, or it is the enclosing one. -/
inductive Names (ns : Bytes) (j : Json) : Bytes → Bytes → Prop where
  | dotted {own simple : Bytes}
      (name : j.member (ascii "name") = some (.str (own ++ dot :: simple)))
      (last : dot ∉ simple) : Names ns j (own ++ dot :: simple) own
  | given {own simple : Bytes} (name : j.member (ascii "name") = some (.str simple))
      (plain : dot ∉ simple) (space : j.member (ascii "namespace") = some (.str own)) :
      Names ns j (qualify own simple) own
  | enclosed {simple : Bytes} (name : j.member (ascii "name") = some (.str simple))
      (plain : dot ∉ simple) (none : ∀ own, j.member (ascii "namespace") ≠ some (.str own)) :
      Names ns j (qualify ns simple) ns

/-- What a document, or a part of it, denotes: the types before, the schema and the types after. -/
abbrev Meaning := Bytes → Json → Env → Schema → Env → Prop

def DenotesField (sub : Meaning) (ns : Bytes) (f : Json) (a : Env) (field : Bytes × Schema)
    (b : Env) : Prop :=
  ∃ t, f.member (ascii "name") = some (.str field.1) ∧ f.member (ascii "type") = some t ∧
    sub ns t a field.2 b

/-- The fields of a record may refer to it. -/
def DenotesRecord (sub : Meaning) : Meaning := fun ns j a s c =>
  ∃ name own fs fields a' b, Names ns j name own ∧ a.Adds name (.record []) a' ∧
    j.member (ascii "fields") = some (.array fs) ∧ Thread (DenotesField sub own) fs a' fields b ∧
    s = .named a.types.length ∧
    c.types = b.types.modify a.types.length (fun t => (t.1, .record fields))

def DenotesEnum : Meaning := fun ns j a s b =>
  ∃ name own symbols, Names ns j name own ∧
    j.member (ascii "symbols") = some (.array (symbols.map .str)) ∧
    s = .named a.types.length ∧ a.Adds name (.enum symbols) b

def DenotesFixed : Meaning := fun ns j a s b =>
  ∃ (name own : Bytes) (size : Nat), Names ns j name own ∧
    j.member (ascii "size") = some (.int size) ∧ size ≤ kMaxRecordBytes ∧
    s = .named a.types.length ∧ a.Adds name (.fixed size) b

def DenotesNode (sub : Meaning) (type : Bytes) : Meaning := fun ns j a s b =>
  if type = ascii "record" || type = ascii "error" then DenotesRecord sub ns j a s b
  else if type = ascii "enum" then DenotesEnum ns j a s b
  else if type = ascii "fixed" then DenotesFixed ns j a s b
  else if type = ascii "array" then
    ∃ items t, j.member (ascii "items") = some items ∧ sub ns items a t b ∧ s = .array t
  else if type = ascii "map" then
    ∃ values t, j.member (ascii "values") = some values ∧ sub ns values a t b ∧ s = .map t
  else False

/-- The schema of a document that nests to the depth at most. Every reference names a type that
was defined before it and meets the condition. -/
def Denotes (ref : Env → Bytes → Bytes → Prop) : Nat → Meaning
  | 0, _, _, _, _, _ => False
  | _ + 1, ns, .str t, a, s, b =>
      a = b ∧ match primitives.lookup t with
        | some kind => s = .primitive kind
        | none => ∃ id, a.Has id (qualify ns t) ∧ s = .named id ∧ ref a ns t
  | d + 1, ns, .array js, a, s, b =>
      ∃ branches, Thread (Denotes ref d ns) js a branches b ∧ branches ≠ [] ∧ s = .union branches
  | d + 1, ns, j, a, s, b =>
      match j.member (ascii "type") with
      | some (.str type) =>
          match primitives.lookup type with
          | some kind => a = b ∧ s = .primitive kind
          | none => DenotesNode (Denotes ref d) type ns j a s b
      | some t => Denotes ref d ns t a s b
      | none => False

/-- No type without a namespace has the bare name of a reference from within a namespace. -/
def Uncaptured (a : Env) (ns t : Bytes) : Prop := dot ∉ t → ns ≠ [] → ∀ id, ¬ a.Has id t

section Parsing

theorem primitiveKind_eq (t : Bytes) : primitiveKind t = primitives.lookup t := by
  have hcons (x : Bytes) (kind : Kind) (ps : List (Bytes × Kind)) :
      ((x, kind) :: ps).lookup t = if t = x then some kind else ps.lookup t := by
    rw [List.lookup_cons]
    split_ifs with hx
    · rw [beq_iff_eq.mpr hx]
    · rw [beq_false_of_ne hx]
  simp only [primitiveKind, primitives, hcons, List.lookup_nil]

theorem namespaceOf_dotted (own : Bytes) {simple : Bytes} (h : dot ∉ simple) :
    namespaceOf (own ++ dot :: simple) = own := by
  have hsimple : ∀ c ∈ simple.reverse, decide (c ≠ dot) = true := fun c hc =>
    decide_eq_true fun heq => h (heq ▸ List.mem_reverse.mp hc)
  unfold namespaceOf
  rw [List.reverse_append, List.reverse_cons, List.append_assoc,
    List.dropWhile_append_of_pos hsimple]
  simp

theorem fullName_eq {ns name own : Bytes} {j : Json} (h : Names ns j name own) :
    fullName j ns = .ok (name, own) := by
  unfold fullName
  cases h with
  | dotted hname hlast => simp [hname, namespaceOf_dotted own hlast]
  | given hname hplain hspace => simp [hname, hplain, hspace, qualify]
  | enclosed hname hplain hnone =>
      simp only [hname, hplain, if_false, qualify, false_or]

/-- The table of the reader. -/
def Env.named (a : Env) : Named where
  definitions := a.definitions
  names := SortedMap.empty.insertAll (a.types.map Prod.fst).zipIdx

variable {a b : Env}

theorem Env.get?_names {name : Bytes} {id : Nat} :
    a.named.names.get? name = some id ↔ a.Has id name := by
  unfold Has
  rw [← List.mk_mem_zipIdx_iff_getElem?]
  refine ⟨fun h => (SortedMap.mem_of_get?_insertAll h).resolve_right (by simp),
    SortedMap.get?_insertAll_of_mem ?_⟩
  rw [List.zipIdx_map_fst]
  exact a.distinct

theorem Env.named_of_adds {name : Bytes} {d : Definition} (h : a.Adds name d b) :
    b.named = a.named.register name d := by
  unfold named Named.register definitions
  rw [h]
  simp [SortedMap.insertAll, List.zipIdx_append]

theorem Env.named_of_modify {id : Nat} {d : Definition}
    (h : b.types = a.types.modify id (fun t => (t.1, d))) : b.named = a.named.define id d := by
  have hnames : b.types.map Prod.fst = a.types.map Prod.fst := by
    rw [h]
    refine List.ext_getElem? fun i => ?_
    rw [List.getElem?_map, List.getElem?_map, List.getElem?_modify]
    cases a.types[i]? with
    | none => rfl
    | some t => simp [apply_ite Prod.fst]
  have hdefinitions : b.definitions = a.definitions.set id d := by
    unfold definitions
    rw [h]
    refine List.ext_getElem? fun i => ?_
    rw [List.getElem?_map, List.getElem?_set, List.getElem?_map, List.getElem?_modify]
    cases ht : a.types[i]? with
    | none =>
        have hle := List.getElem?_eq_none_iff.mp ht
        simp only [Option.map_none, Option.map_eq_map, List.length_map]
        split_ifs <;> first | rfl | omega
    | some t =>
        have hlt := (List.getElem?_eq_some_iff.mp ht).1
        by_cases hid : id = i
        · simp [hid, hlt]
        · simp [hid]
  unfold named Named.define
  rw [hnames, hdefinitions]

theorem resolve_eq {ns t : Bytes} {id : Nat} (hid : a.Has id (qualify ns t))
    (href : Uncaptured a ns t) : a.named.resolve t ns = some id := by
  rw [← Env.get?_names] at hid
  unfold qualify at hid
  unfold Named.resolve
  split_ifs at hid with hq
  · rw [hid, Option.some_or]
  · rw [not_or] at hq
    have hnone : a.named.names.get? t = none := by
      rw [Option.eq_none_iff_forall_ne_some]
      exact fun id hid => href hq.1 hq.2 id (Env.get?_names.mp hid)
    rw [hnone, if_neg hq.2, hid, Option.none_or]

theorem run_bind_ok {α β : Type} {p : Parse α} {f : α → Parse β} {x : α} {m m' : Named}
    {r : Except RestError (β × Named)} (hp : p.run m = .ok (x, m')) (hf : (f x).run m' = r) :
    (p >>= f).run m = r := by
  rw [StateT.run_bind, hp]
  exact hf

theorem run_map_ok {α β : Type} {p : Parse α} {x : α} {m m' : Named} (f : α → β)
    (hp : p.run m = .ok (x, m')) : (f <$> p).run m = .ok (f x, m') := by
  rw [StateT.run_map, hp]
  rfl

theorem run_mapM {α β : Type} {R : α → Env → β → Env → Prop} {f : α → Parse β}
    (hf : ∀ x a y b, R x a y b → (f x).run a.named = .ok (y, b.named)) {xs : List α} {ys : List β}
    (h : Thread R xs a ys b) : (xs.mapM f).run a.named = .ok (ys, b.named) := by
  induction h with
  | nil => rfl
  | cons head _ ih =>
      rw [List.mapM_cons]
      exact run_bind_ok (hf _ _ _ _ head) (run_bind_ok ih rfl)

theorem run_newType {name : Bytes} {d : Definition} (h : a.Adds name d b) :
    (newType name d).run a.named = .ok (.named a.types.length, b.named) := by
  rw [Env.named_of_adds h, ← List.length_map Prod.snd]
  rfl

variable {sub : Json → Bytes → Parse Schema} {meaning : Meaning} {ns type : Bytes} {j : Json}
  {s : Schema}

theorem run_parseRecord
    (hsub : ∀ ns j a s b, meaning ns j a s b → (sub j ns).run a.named = .ok (s, b.named))
    (h : DenotesRecord meaning ns j a s b) :
    (parseRecord sub j ns).run a.named = .ok (s, b.named) := by
  obtain ⟨name, own, fs, fields, a', c, hname, hadds, hfields, hthread, rfl, hc⟩ := h
  have hloop := run_mapM (f := parseField (fun t => sub t own) name) (fun f a field b hf => by
    obtain ⟨t, hfname, hftype, hf⟩ := hf
    unfold parseField
    rw [hfname, hftype]
    exact run_map_ok _ (hsub _ _ _ _ _ hf)) hthread
  unfold parseRecord
  rw [fullName_eq hname]
  refine run_bind_ok (x := (name, own)) rfl (run_bind_ok rfl ?_)
  rw [hfields, ← Env.named_of_adds hadds, Env.named_of_modify hc, ← List.length_map Prod.snd]
  exact run_bind_ok hloop rfl

theorem run_parseEnum (h : DenotesEnum ns j a s b) :
    (parseEnum j ns).run a.named = .ok (s, b.named) := by
  obtain ⟨name, own, symbols, hname, hsymbols, rfl, hadds⟩ := h
  have hread : StateT.run (liftM ((symbols.map Json.str).mapM symbolOf) : Parse (List Bytes))
      a.named = .ok (symbols, a.named) := by
    have hall : (symbols.map Json.str).mapM symbolOf = .ok symbols := by
      rw [mapM_eq_ok, List.forall₂_map_left_iff]
      exact List.forall₂_same.mpr (fun _ _ => rfl)
    rw [hall]
    rfl
  unfold parseEnum
  rw [fullName_eq hname]
  refine run_bind_ok (x := (name, own)) rfl ?_
  rw [hsymbols]
  exact run_bind_ok hread (run_newType hadds)

theorem run_parseFixed (h : DenotesFixed ns j a s b) :
    (parseFixed j ns).run a.named = .ok (s, b.named) := by
  obtain ⟨name, own, size, hname, hsize, hle, rfl, hadds⟩ := h
  unfold parseFixed
  rw [fullName_eq hname]
  refine run_bind_ok (x := (name, own)) rfl ?_
  rw [hsize]
  show StateT.run (if size > kMaxRecordBytes then _ else newType name (.fixed size)) a.named = _
  rw [if_neg (Nat.not_lt.mpr hle)]
  exact run_newType hadds

theorem run_parseNode
    (hsub : ∀ ns j a s b, meaning ns j a s b → (sub j ns).run a.named = .ok (s, b.named))
    (h : DenotesNode meaning type ns j a s b) :
    (parseNode sub j ns type).run a.named = .ok (s, b.named) := by
  unfold DenotesNode at h
  unfold parseNode
  split_ifs at h ⊢
  · exact run_parseRecord hsub h
  · exact run_parseEnum h
  · exact run_parseFixed h
  · obtain ⟨items, t, hitems, ht, rfl⟩ := h
    rw [hitems]
    exact run_map_ok _ (hsub _ _ _ _ _ ht)
  · obtain ⟨values, t, hvalues, ht, rfl⟩ := h
    rw [hvalues]
    exact run_map_ok _ (hsub _ _ _ _ _ ht)

/-- A document without captured references is parsed to the schema that it denotes. -/
theorem run_parseSchema {d : Nat} (h : Denotes Uncaptured d ns j a s b) :
    (parseSchema d j ns).run a.named = .ok (s, b.named) := by
  induction d generalizing ns j a s b with
  | zero => exact h.elim
  | succ d ih =>
      cases j with
      | str t =>
          obtain ⟨rfl, h⟩ := h
          unfold parseSchema
          rw [primitiveKind_eq]
          cases hkind : primitives.lookup t with
          | some kind =>
              rw [hkind] at h
              cases h
              rfl
          | none =>
              rw [hkind] at h
              obtain ⟨id, hid, rfl, href⟩ := h
              refine run_bind_ok (x := a.named) rfl ?_
              rw [resolve_eq hid href]
              rfl
      | array js =>
          obtain ⟨branches, hthread, hne, rfl⟩ := h
          have hloop := run_mapM (f := fun b => parseSchema d b ns) (fun x a y b => ih) hthread
          refine run_bind_ok hloop ?_
          rw [if_neg (by simpa using hne)]
          rfl
      | object members =>
          have hsub : ∀ ns j a s b, Denotes Uncaptured d ns j a s b →
              (parseSchema d j ns).run a.named = .ok (s, b.named) := fun _ _ _ _ _ => ih
          unfold Denotes at h
          unfold parseSchema
          cases htype : (Json.object members).member (ascii "type") with
          | none =>
              rw [htype] at h
              exact h.elim
          | some t =>
              rw [htype] at h
              cases t with
              | str type =>
                  dsimp only at h ⊢
                  rw [primitiveKind_eq]
                  cases hkind : primitives.lookup type with
                  | some kind =>
                      rw [hkind] at h
                      obtain ⟨rfl, rfl⟩ := h
                      rfl
                  | none =>
                      rw [hkind] at h
                      exact run_parseNode hsub h
              | _ => exact hsub _ _ _ _ _ h
      | _ => exact h.elim

end Parsing

/-! ## Files -/

/-- The header of a file with the null codec, and the schema that its document denotes. -/
structure Header (lib : Library) (ref : Env → Bytes → Bytes → Prop) where
  entries : List (Bytes × Bytes)
  metadata : Bytes
  sync : Bytes
  text : Bytes
  document : Json
  schema : Schema
  env : Env
  distinct : (entries.map (·.1)).Nodup
  encoded : Blocks false (EncodesEntry EncodesString) entries metadata
  syncLength : sync.length = 16
  schemaEntry : (ascii "avro.schema", text) ∈ entries
  codec : ∀ c, (ascii "avro.codec", c) ∈ entries → c = ascii "null" ∨ c = []
  parsed : lib.parseJson text = .ok document
  denotes : Denotes ref (kMaxDepth + 1) [] document {} schema env

namespace Header

section Any

variable {lib : Library} {ref : Env → Bytes → Bytes → Prop} (h : Header lib ref)

def bytes : Bytes := ascii "Obj\x01" ++ (h.metadata ++ h.sync)

/-- A data block with the given values. -/
def EncodesBlock (vs : List Json) (w : Bytes) : Prop :=
  ∃ (ps : List (Json × Bytes)) (u : Bytes), vs = ps.map (·.1) ∧ ps.length < 2 ^ 63 ∧
    (∀ p ∈ ps, Encodes h.env.definitions (kMaxDepth + 1) h.schema p.1 p.2 ∧
      p.2.length ≤ kMaxRecordBytes) ∧
    EncodesString (ps.flatMap (·.2)) u ∧ w = longBytes ps.length ++ (u ++ h.sync)

end Any

variable {lib : Library} (h : Header lib Uncaptured)

/-- The file as it is opened. -/
def file (data : Bytes) : File where
  metadata := SortedMap.empty.insertAll h.entries
  sync := h.sync
  schema := h.schema
  definitions := h.env.definitions
  codec := ascii "null"
  data := data

theorem reads_header : Reads readHeader h.bytes (h.entries, h.sync) := by
  have hentries : Reads (blockItems false (readString >>= fun k => readString >>= fun v =>
      pure (k, v))) h.metadata h.entries := by
    refine reads_blockItems (fun e w he => ?_) h.encoded
    obtain ⟨u, v, hk, hv, rfl⟩ := he
    exact (reads_readString hk).bind ((reads_readString hv).bindPure (e.1, ·))
  refine Reads.bind (reads_readBytes (w := ascii "Obj\x01") rfl) ?_
  refine Reads.bindNil (reads_reject _ (not_not.mpr rfl)) ?_
  exact hentries.bind ((reads_readBytes h.syncLength).bindPure (h.entries, ·))

theorem codecOf_eq : codecOf (SortedMap.empty.insertAll h.entries) = ascii "null" := by
  unfold codecOf
  split
  · rfl
  · next c hget =>
      have hmem := (SortedMap.mem_of_get?_insertAll hget).resolve_right (by simp)
      rcases h.codec c hmem with rfl | rfl <;> rfl

theorem openFile_eq (data : Bytes) : openFile lib (h.bytes ++ data) = .ok (h.file data) := by
  have hschema : (SortedMap.empty.insertAll h.entries).get? (ascii "avro.schema") = some h.text :=
    SortedMap.get?_insertAll_of_mem h.distinct h.schemaEntry
  refine bind_eq_ok.mpr ⟨((h.entries, h.sync), data), h.reads_header data, ?_⟩
  dsimp only
  rw [hschema]
  dsimp only
  rw [h.parsed]
  refine bind_eq_ok.mpr ⟨(h.schema, h.env.named), run_parseSchema h.denotes, ?_⟩
  dsimp only
  rw [h.codecOf_eq]
  rfl

/-! ### Data blocks -/

variable {data w : Bytes} {vs : List Json}

theorem reads_readRecord {v : Json} (henc : Encodes h.env.definitions (kMaxDepth + 1) h.schema v w)
    (hsize : w.length ≤ kMaxRecordBytes) : Reads (h.file data).readRecord w v := by
  intro rest
  refine bind_eq_ok.mpr ⟨(v, rest), reads_decode henc rest, ?_⟩
  dsimp only
  rw [if_neg (by rw [List.length_append]; omega)]
  rfl

/-- Count, bytes and sync marker of a block. -/
theorem reads_readBlock {n : Nat} (hn : n < 2 ^ 63) {raw u : Bytes} (hraw : EncodesString raw u) :
    Reads (h.file data).readBlock (longBytes n ++ (u ++ h.sync)) (n, raw) := by
  refine Reads.bind (reads_readLong (by omega) (by omega)) ?_
  refine Reads.bindNil (reads_reject _ (by omega)) (Reads.bind (reads_readString hraw) ?_)
  rw [← List.append_nil h.sync]
  refine Reads.bind (reads_readBytes h.syncLength) ?_
  exact Reads.bindNil (reads_reject _ (not_not.mpr rfl)) (Reads.pure _)

theorem tight_readString {raw u : Bytes} (hraw : EncodesString raw u) : Tight readString u := by
  obtain ⟨hlen, rfl⟩ := hraw
  rw [readString_eq]
  refine Tight.bind (reads_readLong (by omega) (by omega)) (tight_long _ _ _) ?_
  refine Tight.bindNil (reads_reject _ (by omega)) (Tight.atLeast ?_ _ _)
  exact tight_take truncated raw

/-- A block that is cut is refused. -/
theorem tight_readBlock (data : Bytes) {n : Nat} (hn : n < 2 ^ 63) {raw u : Bytes}
    (hraw : EncodesString raw u) :
    Tight (h.file data).readBlock (longBytes n ++ (u ++ h.sync)) := by
  refine Tight.bind (reads_readLong (by omega) (by omega)) (tight_long _ _ _) ?_
  refine Tight.bindNil (reads_reject _ (by omega)) ?_
  refine Tight.bind (reads_readString hraw) (tight_readString hraw) ?_
  rw [← List.append_nil h.sync]
  refine Tight.bind (reads_readBytes h.syncLength) ?_ (tight_nil _)
  have htake := tight_take truncated h.sync
  rw [h.syncLength] at htake
  exact htake

theorem EncodesBlock.ne_nil {h : Header lib Uncaptured} (hb : h.EncodesBlock vs w) : w ≠ [] := by
  obtain ⟨ps, u, -, -, -, -, rfl⟩ := hb
  simp [longBytes_ne_nil]

/-- One turn of the loop over the data blocks. -/
theorem readBlocks_block (hb : h.EncodesBlock vs w) {done maxRecords : Nat}
    (hmax : done + vs.length ≤ maxRecords) (fuel : Nat) (tail : Bytes) :
    (h.file data).readBlocks .ok maxRecords (fuel + 1) done (w ++ tail) = (do
      let later ← (h.file data).readBlocks .ok maxRecords fuel (done + vs.length) tail
      return vs ++ later) := by
  have hne : w ++ tail ≠ [] := fun hnil => hb.ne_nil (List.append_eq_nil_iff.mp hnil).1
  obtain ⟨ps, u, rfl, hcount, hps, hu, rfl⟩ := hb
  rw [List.length_map] at hmax ⊢
  have hrecords : (h.file data).blockRecords ps.length (ps.flatMap (·.2)) =
      .ok (ps.map (·.1)) := by
    have hmany := Reads.many (p := (h.file data).readRecord) ps
      (fun q hq => h.reads_readRecord (hps q hq).1 (hps q hq).2) []
    rw [List.append_nil] at hmany
    refine bind_eq_ok.mpr ⟨_, hmany, ?_⟩
    rfl
  rw [File.readBlocks, if_neg hne, h.reads_readBlock hcount hu tail]
  show (if done + ps.length > maxRecords then _ else _) = _
  rw [if_neg (by omega)]
  show ((h.file data).blockRecords ps.length (ps.flatMap (·.2)) >>= _) = _
  rw [hrecords]
  rfl

/-- All blocks, with whatever follows them. -/
theorem readBlocks_blocks (data tail : Bytes) (maxRecords fuel done : Nat)
    {blocks : List (List Json × Bytes)} (hblocks : ∀ b ∈ blocks, h.EncodesBlock b.1 b.2)
    (hmax : done + (blocks.flatMap (·.1)).length ≤ maxRecords)
    (hfuel : (blocks.flatMap (·.2) ++ tail).length ≤ fuel) :
    ∃ fuel' done', tail.length ≤ fuel' ∧
      (h.file data).readBlocks .ok maxRecords fuel done (blocks.flatMap (·.2) ++ tail) = (do
        let later ← (h.file data).readBlocks .ok maxRecords fuel' done' tail
        return blocks.flatMap (·.1) ++ later) := by
  induction blocks generalizing fuel done with
  | nil => exact ⟨fuel, done, hfuel, (bind_pure _).symm⟩
  | cons b blocks ih =>
      have hb := hblocks b List.mem_cons_self
      have hpos := List.length_pos_of_ne_nil hb.ne_nil
      rw [List.flatMap_cons, List.append_assoc] at hfuel ⊢
      rw [List.flatMap_cons, List.length_append] at hmax
      rw [List.length_append] at hfuel
      obtain ⟨fuel, rfl⟩ := Nat.exists_eq_add_of_le' (show 1 ≤ fuel by omega)
      obtain ⟨fuel', done', hle, heq⟩ := ih fuel (done + b.1.length)
        (fun c hc => hblocks c (List.mem_cons_of_mem b hc)) (by omega) (by omega)
      refine ⟨fuel', done', hle, ?_⟩
      rw [h.readBlocks_block hb (by omega), heq, bind_assoc]
      simp only [pure_bind, List.flatMap_cons, List.append_assoc]

theorem readFile_eq (maxRecords : Nat) : readFile lib maxRecords (h.bytes ++ data) =
    ((h.file data).readBlocks .ok maxRecords data.length 0 data).mapError .rest := by
  unfold readFile
  rw [h.openFile_eq data]
  rfl

end Header

/-- A file whose schema document has no captured reference: the reader delivers the values of
the data blocks in order, and it refuses the file when that is cut inside a data block. -/
theorem readFile_encoded {lib : Library} (h : Header lib Uncaptured)
    {blocks : List (List Json × Bytes)} (hblocks : ∀ b ∈ blocks, h.EncodesBlock b.1 b.2)
    {maxRecords : Nat} (hmax : (blocks.flatMap (·.1)).length ≤ maxRecords) :
    readFile lib maxRecords (h.bytes ++ blocks.flatMap (·.2)) = .ok (blocks.flatMap (·.1)) ∧
    ∀ done b later u v, blocks = done ++ b :: later → b.2 = u ++ v → u ≠ [] → v ≠ [] →
      ∃ e, readFile lib maxRecords (h.bytes ++ (done.flatMap (·.2) ++ u)) = .error e := by
  constructor
  · obtain ⟨fuel, done, -, heq⟩ := h.readBlocks_blocks (blocks.flatMap (·.2)) [] maxRecords _ 0
      hblocks (by omega) (le_refl _)
    have hend : (h.file (blocks.flatMap (·.2))).readBlocks .ok maxRecords fuel done [] =
        .ok [] := by
      cases fuel <;> rfl
    rw [List.append_nil, hend] at heq
    rw [h.readFile_eq, heq]
    simp [bind, Except.bind, pure, Except.pure, Except.mapError]
  · rintro done b later u v rfl hb hu hv
    rw [List.flatMap_append, List.length_append] at hmax
    obtain ⟨fuel, n, hle, heq⟩ := h.readBlocks_blocks (done.flatMap (·.2) ++ u) u maxRecords _ 0
      (fun c hc => hblocks c (List.mem_append_left _ hc)) (by omega) (le_refl _)
    have hpos := List.length_pos_of_ne_nil hu
    obtain ⟨fuel, rfl⟩ := Nat.exists_eq_add_of_le' (show 1 ≤ fuel by omega)
    obtain ⟨ps, raw, -, hcount, -, hraw, hw⟩ := hblocks b (by simp)
    obtain ⟨e, he⟩ := h.tight_readBlock (done.flatMap (·.2) ++ u) hcount hraw u v
      (hw.symm.trans hb) hv
    rw [File.readBlocks, if_neg hu, he] at heq
    exact ⟨.rest e, by rw [h.readFile_eq, heq]; rfl⟩

/-! ## Two files -/

/-- A header with the schema as its only entry. -/
def plainHeader {lib : Library} {ref : Env → Bytes → Bytes → Prop} (text : Bytes)
    (document : Json) (schema : Schema) (env : Env) (hlen : text.length < 2 ^ 63)
    (parsed : lib.parseJson text = .ok document)
    (denotes : Denotes ref (kMaxDepth + 1) [] document {} schema env) : Header lib ref where
  entries := [(ascii "avro.schema", text)]
  metadata := longBytes (1 : Nat) ++ ((longBytes (11 : Nat) ++ ascii "avro.schema" ++
    (longBytes text.length ++ text)) ++ [] ++ longBytes 0)
  sync := List.replicate 16 0
  text := text
  document := document
  schema := schema
  env := env
  distinct := List.nodup_singleton _
  encoded := by
    have hentry : BlockBody false (EncodesEntry EncodesString) [((ascii "avro.schema", text),
        longBytes (11 : Nat) ++ ascii "avro.schema" ++ (longBytes text.length ++ text))] := {
      nonempty := List.cons_ne_nil _ _
      count := (by decide : 1 < 2 ^ 63)
      items := by
        simp only [List.mem_singleton, forall_eq]
        exact ⟨_, _, ⟨(by decide : 11 < 2 ^ 63), rfl⟩, ⟨hlen, rfl⟩, rfl⟩
      nulls := nofun
      bytes := by simp [longBytes_ne_nil] }
    exact Blocks.counted hentry .stop
  syncLength := rfl
  schemaEntry := List.mem_singleton_self _
  codec := by simp [ascii]
  parsed := parsed
  denotes := denotes

def fixedDocument (size : Nat) : Json :=
  .object [(ascii "name", .str (ascii "R")), (ascii "size", .int size),
    (ascii "type", .str (ascii "fixed"))]

theorem names_fixed (ns : Bytes) (size : Nat) :
    Names ns (fixedDocument size) (qualify ns (ascii "R")) ns :=
  .enclosed rfl (by decide) (by simp [fixedDocument, Json.member, SortedMap.find, ascii])

theorem denotes_fixed {ref : Env → Bytes → Bytes → Prop} {size : Nat} (hle : size ≤ kMaxRecordBytes)
    (d : Nat) {ns : Bytes} {a b : Env} (h : a.Adds (qualify ns (ascii "R")) (.fixed size) b) :
    Denotes ref (d + 1) ns (fixedDocument size) a (.named a.types.length) b :=
  ⟨_, ns, size, names_fixed ns size, rfl, hle, rfl, h⟩

/-- A union of a fixed type `R` of one byte and arrays of it. -/
def listText : Bytes :=
  ascii ("[\x7b\"type\":\"fixed\",\"name\":\"R\",\"size\":1\x7d," ++
    "\x7b\"type\":\"array\",\"items\":\"R\"\x7d]")

def listDocument : Json := .array [fixedDocument 1,
  .object [(ascii "items", .str (ascii "R")), (ascii "type", .str (ascii "array"))]]

def listLibrary : Library where
  parseJson text := if text = listText then .ok listDocument else .error (ascii "parse error")

def listEnv : Env where
  types := [(ascii "R", .fixed 1)]

def listHeader : Header listLibrary Uncaptured :=
  plainHeader listText listDocument (.union [.named 0, .array (.named 0)]) listEnv (by decide)
    (by simp [listLibrary])
    ⟨_, .cons (b := listEnv) (denotes_fixed (by decide) _ rfl) (.cons ⟨_, _, rfl, ⟨rfl, 0, rfl, rfl,
      fun _ h => absurd rfl h⟩, rfl⟩ (.nil _)), List.cons_ne_nil _ _, rfl⟩

/-- A block with two values in an array, which is in a block with its size, and one outside. -/
def listBlock : List Json × Bytes :=
  ([.array [.binary [7], .binary [9]], .binary [5]],
    [4, 16, 2, 3, 4, 7, 9, 0, 0, 5] ++ List.replicate 16 0)

theorem encodes_list : listHeader.EncodesBlock listBlock.1 listBlock.2 := by
  refine ⟨[(.array [.binary [7], .binary [9]], [2, 3, 4, 7, 9, 0]), (.binary [5], [0, 5])],
    [16, 2, 3, 4, 7, 9, 0, 0, 5], rfl, (by decide : 2 < 2 ^ 63), ?_,
    ⟨(by decide : 8 < 2 ^ 63), ?_⟩, ?_⟩
  · have hitems : BlockBody false (Encodes [.fixed 1] 63 (.named 0))
        [(.binary [7], [7]), (.binary [9], [9])] := {
      nonempty := List.cons_ne_nil _ _
      count := (by decide : 2 < 2 ^ 63)
      items := by
        simp only [List.forall_mem_cons]
        exact ⟨⟨rfl, rfl⟩, ⟨rfl, rfl⟩, nofun⟩
      nulls := nofun
      bytes := by simp }
    have harray := Blocks.sized hitems (by decide) .stop
    have hbytes : longBytes (-2) ++ (longBytes 2 ++ ([7, 9] ++ longBytes 0)) = [3, 4, 7, 9, 0] := by
      decide +kernel
    simp only [List.forall_mem_cons]
    exact ⟨⟨⟨1, _, [3, 4, 7, 9, 0], rfl, by decide, ⟨_, rfl, hbytes ▸ harray⟩, by decide +kernel⟩,
      by decide⟩, ⟨⟨0, _, [5], rfl, by decide, ⟨rfl, rfl⟩, by decide +kernel⟩, by decide⟩, nofun⟩
  · decide +kernel
  · decide +kernel

/-- Two records, and the file without its last byte. -/
theorem readFile_encoded_list :
    readFile listLibrary 2 (listHeader.bytes ++ listBlock.2) = .ok listBlock.1 ∧
    ∃ e, readFile listLibrary 2 (listHeader.bytes ++ listBlock.2.dropLast) = .error e := by
  have h := @readFile_encoded _ listHeader [listBlock] (by simpa using encodes_list) 2 (by decide)
  exact ⟨by simpa using h.1, by
    simpa using h.2 [] listBlock [] listBlock.2.dropLast [0] rfl rfl (by decide) (by decide)⟩

/-- A union of a fixed type `R` of one byte and a record `n.I`, in which another `R`, of two bytes,
is defined and then referred to. -/
def capturedText : Bytes :=
  ascii ("[\x7b\"type\":\"fixed\",\"name\":\"R\",\"size\":1\x7d," ++
    "\x7b\"type\":\"record\",\"name\":\"n.I\",\"fields\":[\x7b\"name\":\"a\",\"type\":" ++
    "\x7b\"type\":\"fixed\",\"name\":\"R\",\"size\":2\x7d\x7d," ++
    "\x7b\"name\":\"b\",\"type\":\"R\"\x7d]\x7d]")

def fieldDocument (name : String) (type : Json) : Json :=
  .object [(ascii "name", .str (ascii name)), (ascii "type", type)]

def capturedDocument : Json :=
  .array [fixedDocument 1, .object [
    (ascii "fields", .array [fieldDocument "a" (fixedDocument 2),
      fieldDocument "b" (.str (ascii "R"))]),
    (ascii "name", .str (ascii "n.I")), (ascii "type", .str (ascii "record"))]]

def capturedLibrary : Library where
  parseJson text :=
    if text = capturedText then .ok capturedDocument else .error (ascii "parse error")

/-- The types of the document by the rules of Avro: `b` is of the type `n.R`. -/
def capturedEnv : Env where
  types := [(ascii "R", .fixed 1),
    (ascii "n.I", .record [(ascii "a", .named 2), (ascii "b", .named 2)]), (ascii "n.R", .fixed 2)]
  distinct := by decide

/-- The types before the record has its fields. -/
def capturedSoFar (n : Nat) : Env where
  types := [(ascii "R", .fixed 1), (ascii "n.I", .record []), (ascii "n.R", .fixed 2)].take n
  distinct := (List.take_sublist _ _).map _ |>.nodup (by decide)

theorem names_record {fields : Json} : Names [] (.object [(ascii "fields", fields),
    (ascii "name", .str (ascii "n.I")), (ascii "type", .str (ascii "record"))]) (ascii "n.I")
    (ascii "n") := by
  have hname : ascii "n.I" = ascii "n" ++ dot :: ascii "I" := by decide
  rw [hname]
  exact .dotted rfl (by decide)

def capturedHeader : Header capturedLibrary (fun _ _ _ => True) :=
  plainHeader capturedText capturedDocument (.union [.named 0, .named 1]) capturedEnv
    (by decide +kernel) (by simp [capturedLibrary])
    ⟨_, .cons (b := capturedSoFar 1) (denotes_fixed (by decide) _ rfl) (.cons ⟨_, _, _,
      [(ascii "a", .named 2), (ascii "b", .named 2)], capturedSoFar 2, capturedSoFar 3,
      names_record, rfl, rfl,
      .cons (b := capturedSoFar 3) ⟨_, rfl, rfl, denotes_fixed (by decide) _ rfl⟩
        (.cons ⟨_, rfl, rfl, ⟨rfl, 2, rfl, rfl, trivial⟩⟩ (.nil _)), rfl, rfl⟩ (.nil _)),
      List.cons_ne_nil _ _, rfl⟩

/-- One record, with two bytes in `b`. -/
def capturedBlock : List Json × Bytes :=
  ([.object [(ascii "a", .binary [1, 2]), (ascii "b", .binary [3, 4])]],
    [2, 10, 2, 1, 2, 3, 4] ++ List.replicate 16 0)

theorem encodes_captured : capturedHeader.EncodesBlock capturedBlock.1 capturedBlock.2 := by
  refine ⟨[(_, [2, 1, 2, 3, 4])], [10, 2, 1, 2, 3, 4], rfl, (by decide : 1 < 2 ^ 63), ?_,
    ⟨(by decide : 5 < 2 ^ 63), by decide +kernel⟩, by decide +kernel⟩
  simp only [List.forall_mem_cons]
  refine ⟨⟨⟨1, _, [1, 2, 3, 4], rfl, by decide, ⟨[((ascii "a", .named 2), .binary [1, 2], [1, 2]),
    ((ascii "b", .named 2), .binary [3, 4], [3, 4])], rfl, ?_, rfl, _, rfl, by decide, .refl _⟩,
    by decide +kernel⟩, by decide⟩, nofun⟩
  simp only [List.forall_mem_cons]
  exact ⟨⟨rfl, rfl⟩, ⟨rfl, rfl⟩, nofun⟩

/-- The reader takes `R` for the type of one byte and stops at the last byte of the record. -/
theorem readFile_refuses_captured :
    capturedHeader.EncodesBlock capturedBlock.1 capturedBlock.2 ∧
    ∃ e, readFile capturedLibrary 1 (capturedHeader.bytes ++ capturedBlock.2) = .error e := by
  have hnone : (readFile capturedLibrary 1 (capturedHeader.bytes ++
      capturedBlock.2)).toOption.isNone = true := by
    decide +kernel
  refine ⟨encodes_captured, ?_⟩
  cases hread : readFile capturedLibrary 1 (capturedHeader.bytes ++ capturedBlock.2) with
  | error e => exact ⟨e, rfl⟩
  | ok vs =>
      rw [hread] at hnone
      cases hnone

end Lights3.Iceberg.Avro
