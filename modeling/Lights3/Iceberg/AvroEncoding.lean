import Lights3.Iceberg.AvroReader

/-!
# The binary encoding of Avro

What the format says, as relations between values and bytes: an item sequence may be split into
blocks in many ways, each with its count or with the negated count and a size. The decoder reads
every encoding of a value back, whatever follows it.
-/
namespace Lights3.Iceberg.Avro
open ByteString Wire

/-! ## Encodings -/

/-- Items of one block with their encodings. Items of type null take no bytes and are limited in
number; other items take a byte at least. -/
structure BlockBody {α : Type} (null : Bool) (enc : α → Bytes → Prop) (ps : List (α × Bytes)) :
    Prop where
  nonempty : ps ≠ []
  count : ps.length < 2 ^ 63
  items : ∀ p ∈ ps, enc p.1 p.2
  nulls : null = true → ps.length ≤ 2 ^ 20
  bytes : null = false → ∀ p ∈ ps, p.2 ≠ []

/-- Items in blocks, up to the empty block at the end. -/
inductive Blocks {α : Type} (null : Bool) (enc : α → Bytes → Prop) : List α → Bytes → Prop where
  | stop : Blocks null enc [] (longBytes 0)
  | counted {ps : List (α × Bytes)} {xs : List α} {w : Bytes} (body : BlockBody null enc ps)
      (later : Blocks null enc xs w) :
      Blocks null enc (ps.map (·.1) ++ xs) (longBytes ps.length ++ (ps.flatMap (·.2) ++ w))
  | sized {ps : List (α × Bytes)} {xs : List α} {w : Bytes} (body : BlockBody null enc ps)
      (size : (ps.flatMap (·.2)).length < 2 ^ 63) (later : Blocks null enc xs w) :
      Blocks null enc (ps.map (·.1) ++ xs)
        (longBytes (-ps.length) ++ (longBytes (ps.flatMap (·.2)).length ++ (ps.flatMap (·.2) ++ w)))

/-- Bytes behind their length. -/
def EncodesString (s w : Bytes) : Prop := s.length < 2 ^ 63 ∧ w = longBytes s.length ++ s

/-- A key and its value. -/
def EncodesEntry {α : Type} (enc : α → Bytes → Prop) (e : Bytes × α) (w : Bytes) : Prop :=
  ∃ u v, EncodesString e.1 u ∧ enc e.2 v ∧ w = u ++ v

/-- The object with the given members, whose names differ. -/
def IsObject (members : List (Bytes × Json)) (v : Json) : Prop :=
  ∃ sorted, v = .object sorted ∧ sorted.Pairwise (fun x y => x.1 < y.1) ∧ sorted.Perm members

def EncodesPrimitive : Kind → Json → Bytes → Prop
  | .null, v, w => v = .null ∧ w = []
  | .boolean, v, w => ∃ b, v = .bool b ∧ w = [if b then 1 else 0]
  | .int, v, w => ∃ n, v = .int n ∧ -2 ^ 31 ≤ n ∧ n < 2 ^ 31 ∧ w = longBytes n
  | .long, v, w => ∃ n, v = .int n ∧ -2 ^ 63 ≤ n ∧ n < 2 ^ 63 ∧ w = longBytes n
  | .float, v, w => v = .float w ∧ w.length = 4
  | .double, v, w => v = .float w ∧ w.length = 8
  | .bytes, v, w => ∃ b, v = .binary b ∧ EncodesString b w
  | .string, v, w => ∃ s, v = .str s ∧ EncodesString s w

/-- `w` encodes the value `v` of the schema, nested to the depth at most. -/
def Encodes (defs : List Definition) : Nat → Schema → Json → Bytes → Prop
  | 0, _, _, _ => False
  | _ + 1, .primitive kind, v, w => EncodesPrimitive kind v w
  | d + 1, .named id, v, w =>
      match defs[id]? with
      | some (.record fields) =>
          ∃ ts : List ((Bytes × Schema) × Json × Bytes), ts.map (·.1) = fields ∧
            (∀ t ∈ ts, Encodes defs d t.1.2 t.2.1 t.2.2) ∧ w = ts.flatMap (·.2.2) ∧
            IsObject (ts.map (fun t => (t.1.1, t.2.1))) v
      | some (.enum symbols) =>
          ∃ (i : Nat) (symbol : Bytes), symbols[i]? = some symbol ∧ i < 2 ^ 31 ∧ v = .str symbol ∧
            w = longBytes i
      | some (.fixed size) => v = .binary w ∧ w.length = size
      | none => False
  | d + 1, .union branches, v, w =>
      ∃ (i : Nat) (branch : Schema) (u : Bytes), branches[i]? = some branch ∧ i < 2 ^ 63 ∧
        Encodes defs d branch v u ∧ w = longBytes i ++ u
  | d + 1, .array items, v, w =>
      ∃ vs, v = .array vs ∧ Blocks items.isNull (Encodes defs d items) vs w
  | d + 1, .map values, v, w =>
      ∃ es, IsObject es v ∧ Blocks values.isNull (EncodesEntry (Encodes defs d values)) es w

/-! ## Scalars -/

theorem longBytes_ne_nil (v : Int) : longBytes v ≠ [] := varint_ne_nil _

theorem reads_readLong {v : Int} (hlow : -2 ^ 63 ≤ v) (hhigh : v < 2 ^ 63) :
    Reads readLong (longBytes v) v :=
  reads_long _ _ hlow hhigh

theorem reads_readInt {v : Int} (hlow : -2 ^ 31 ≤ v) (hhigh : v < 2 ^ 31) :
    Reads readInt (longBytes v) v := by
  have hlong := reads_readLong (v := v) (by omega) (by omega)
  have hrange := reads_reject (fail (ascii "int out of range"))
    (show ¬ (v < -2 ^ 31 ∨ v ≥ 2 ^ 31) by omega)
  have h : Reads readInt (longBytes v ++ []) v := hlong.bind (hrange.bindNil (Reads.pure v))
  rwa [List.append_nil] at h

variable {v : Json} {w : Bytes}

theorem reads_readBytes {n : Nat} (h : w.length = n) : Reads (readBytes n) w w := by
  subst h
  exact reads_take truncated w

/-- The length is checked before the bytes are taken. -/
theorem readString_eq : readString = (readLong >>= fun n =>
    reject (n < 0) (fail (ascii "negative length")) >>= fun _ =>
    atLeast truncated n.toNat >>= fun _ => readBytes n.toNat) := by
  simp only [readString, readLen, bind_assoc, pure_bind]

theorem reads_readString {s : Bytes} (h : EncodesString s w) : Reads readString w s := by
  obtain ⟨hlen, rfl⟩ := h
  rw [readString_eq]
  have hbytes : Reads (atLeast truncated s.length >>= fun _ => readBytes s.length) s s :=
    Reads.atLeast (reads_readBytes rfl) (le_refl s.length)
  exact (reads_readLong (by omega) (by omega)).bind
    ((reads_reject _ (by omega)).bindNil hbytes)

theorem reads_decodePrimitive {kind : Kind} (h : EncodesPrimitive kind v w) :
    Reads (decodePrimitive kind) w v := by
  cases kind with
  | null =>
      obtain ⟨rfl, rfl⟩ := h
      exact Reads.pure _
  | boolean =>
      obtain ⟨b, rfl, rfl⟩ := h
      cases b <;> exact fun rest => rfl
  | int =>
      obtain ⟨n, rfl, hlow, hhigh, rfl⟩ := h
      exact (reads_readInt hlow hhigh).map _
  | long =>
      obtain ⟨n, rfl, hlow, hhigh, rfl⟩ := h
      exact (reads_readLong hlow hhigh).map _
  | float =>
      obtain ⟨rfl, hlen⟩ := h
      exact (reads_readBytes hlen).map _
  | double =>
      obtain ⟨rfl, hlen⟩ := h
      exact (reads_readBytes hlen).map _
  | bytes =>
      obtain ⟨b, rfl, hb⟩ := h
      exact (reads_readString hb).map _
  | string =>
      obtain ⟨s, rfl, hs⟩ := h
      exact (reads_readString hs).map _

/-! ## Blocks -/

section Blocks

variable {α β : Type} {null : Bool} {enc : α → Bytes → Prop} {item : Reader RestError α}
  {ps : List (α × Bytes)} {xs : List α} {w : Bytes}

/-- The count of a block is admitted. -/
theorem BlockBody.admitted (body : BlockBody null enc ps) (hnull : null = false) :
    ps.length ≤ (ps.flatMap (·.2)).length := by
  have hbytes := body.bytes hnull
  clear body
  induction ps with
  | nil => simp
  | cons p ps ih =>
      have hp := List.length_pos_of_ne_nil (hbytes p List.mem_cons_self)
      have htail := ih (fun q hq => hbytes q (List.mem_cons_of_mem p hq))
      rw [List.length_cons, List.flatMap_cons, List.length_append]
      omega

theorem Reads.admitCount {f : Unit → Reader RestError β} {n : Nat} {b : β}
    (hf : Reads (f ()) w b) (hnulls : null = true → n ≤ 2 ^ 20)
    (hbytes : null = false → n ≤ w.length) : Reads (admitCount null n >>= f) w b := by
  cases null with
  | false => exact Reads.atLeast hf (hbytes rfl)
  | true => exact (reads_reject _ (Nat.not_lt.mpr (hnulls rfl))).bindNil hf

variable {f : Nat → Reader RestError β}

/-- A count that is followed by the items. -/
theorem Reads.count {n : Nat} {b : β} (hf : Reads (f n) w b) (hn : n < 2 ^ 63)
    (hnulls : null = true → n ≤ 2 ^ 20) (hbytes : null = false → n ≤ w.length) :
    Reads (blockCount null >>= f) (longBytes n ++ w) b := by
  simp only [blockCount, bind_assoc, pure_bind]
  refine (reads_readLong (by omega) (by omega)).bind ?_
  rw [if_neg (by omega), pure_bind]
  exact Reads.admitCount hf hnulls hbytes

/-- A negated count that is followed by the size and the items. -/
theorem Reads.negatedCount {n size : Nat} {b : β} (hf : Reads (f n) w b) (hpos : 0 < n)
    (hn : n < 2 ^ 63) (hnulls : null = true → n ≤ 2 ^ 20) (hbytes : null = false → n ≤ w.length)
    (hsize : size < 2 ^ 63) (hle : size ≤ w.length) :
    Reads (blockCount null >>= f) (longBytes (-n) ++ (longBytes size ++ w)) b := by
  simp only [blockCount, bind_assoc, pure_bind]
  refine (reads_readLong (by omega) (by omega)).bind ?_
  rw [if_pos (by omega), Int.natAbs_neg, Int.natAbs_natCast]
  simp only [blockSize, bind_assoc]
  refine (reads_reject _ (by omega)).bindNil ((reads_readLong (by omega) (by omega)).bind ?_)
  exact (reads_reject _ (by omega)).bindNil (Reads.atLeast (Reads.admitCount hf hnulls hbytes) hle)

/-- One block and what follows it. -/
theorem BlockBody.reads (body : BlockBody null enc ps) (hitem : ∀ x u, enc x u → Reads item u x)
    {later : Reader RestError (List α)} (hlater : Reads later w xs) :
    Reads (if ps.length = 0 then pure [] else
        many item ps.length >>= fun xs => later >>= fun ys => pure (xs ++ ys))
      (ps.flatMap (·.2) ++ w) (ps.map (·.1) ++ xs) := by
  rw [if_neg (fun h => body.nonempty (List.eq_nil_of_length_eq_zero h))]
  have hitems := Reads.many ps (fun q hq => hitem q.1 q.2 (body.items q hq))
  exact hitems.bind (hlater.bindPure (ps.map (·.1) ++ ·))

/-- The blocks are read back when there is a turn for each of their bytes. -/
theorem reads_blockLoop (hitem : ∀ x u, enc x u → Reads item u x) (h : Blocks null enc xs w)
    {fuel : Nat} (hfuel : w.length ≤ fuel) : Reads (blockLoop null item fuel) w xs := by
  have hcount (v : Int) : 0 < (longBytes v).length :=
    List.length_pos_of_ne_nil (longBytes_ne_nil v)
  induction h generalizing fuel with
  | stop =>
      have := hcount 0
      obtain ⟨fuel, rfl⟩ := Nat.exists_eq_add_of_le' (show 1 ≤ fuel by omega)
      have hend : Reads (blockLoop null item (fuel + 1)) (longBytes (0 : Nat) ++ []) [] :=
        Reads.count (Reads.pure []) (by omega) (by omega) (by simp)
      rwa [List.append_nil] at hend
  | counted body later ih =>
      rename_i ps xs w
      have := hcount ps.length
      simp only [List.length_append] at hfuel
      obtain ⟨fuel, rfl⟩ := Nat.exists_eq_add_of_le' (show 1 ≤ fuel by omega)
      refine Reads.count (body.reads hitem (ih (by omega))) body.count body.nulls fun hnull => ?_
      have := body.admitted hnull
      rw [List.length_append]
      omega
  | sized body size later ih =>
      rename_i ps xs w
      have := hcount (-ps.length)
      simp only [List.length_append] at hfuel
      obtain ⟨fuel, rfl⟩ := Nat.exists_eq_add_of_le' (show 1 ≤ fuel by omega)
      refine Reads.negatedCount (body.reads hitem (ih (by omega)))
        (List.length_pos_of_ne_nil body.nonempty) body.count body.nulls (fun hnull => ?_) size
        (by rw [List.length_append]; omega)
      have := body.admitted hnull
      rw [List.length_append]
      omega

theorem reads_blockItems (hitem : ∀ x u, enc x u → Reads item u x) (h : Blocks null enc xs w) :
    Reads (blockItems null item) w xs :=
  fun rest => reads_blockLoop hitem h (by simp) rest

end Blocks

/-! ## Values -/

/-- An object that is filled with members of different names. -/
theorem ofMembers_eq {members : List (Bytes × Json)} (h : IsObject members v) :
    Json.ofMembers members = v := by
  obtain ⟨sorted, rfl, hsorted, hperm⟩ := h
  rw [Json.ofMembers, SortedMap.insertAll_perm ⟨sorted, hsorted⟩ hperm]

theorem reads_entry {α : Type} {enc : α → Bytes → Prop} {item : Reader RestError α}
    (hitem : ∀ x u, enc x u → Reads item u x) {e : Bytes × α} (h : EncodesEntry enc e w) :
    Reads (readString >>= fun key => (key, ·) <$> item) w e := by
  obtain ⟨u, v, hkey, hval, rfl⟩ := h
  exact (reads_readString hkey).bind ((hitem e.2 v hval).map _)

theorem elementAt_natCast {α : Type} (xs : List α) (i : Nat) : elementAt xs (i : Int) = xs[i]? := by
  simp [elementAt]

theorem reads_decodeEnum {symbols : List Bytes} {i : Nat} {symbol : Bytes}
    (hsymbol : symbols[i]? = some symbol) (hi : i < 2 ^ 31) :
    Reads (decodeEnum symbols) (longBytes i) (.str symbol) := by
  rw [← List.append_nil (longBytes i)]
  refine (reads_readInt (by omega) (by omega)).bind ?_
  rw [elementAt_natCast, hsymbol]
  exact Reads.pure _

/-- Every encoding of a value is read back, whatever follows. -/
theorem reads_decode {defs : List Definition} {d : Nat} {s : Schema} (h : Encodes defs d s v w) :
    Reads (decode defs d s) w v := by
  induction d generalizing s v w with
  | zero => exact h.elim
  | succ d ih =>
      cases s with
      | primitive kind => exact reads_decodePrimitive h
      | named id =>
          unfold Encodes at h
          unfold decode
          cases hdef : defs[id]? with
          | none =>
              rw [hdef] at h
              exact h.elim
          | some definition =>
              rw [hdef] at h
              cases definition with
              | record fields =>
                  obtain ⟨ts, rfl, hfields, rfl, hobject⟩ := h
                  rw [← ofMembers_eq hobject]
                  have hread := Reads.mapM (f := fun f => (f.1, ·) <$> decode defs d f.2)
                    (ts.map (fun t => (t.1, (t.1.1, t.2.1), t.2.2))) (fun x hx => by
                      obtain ⟨t, ht, rfl⟩ := List.mem_map.mp hx
                      exact (ih (hfields t ht)).map _)
                  simp only [List.map_map, List.flatMap_map, Function.comp_def] at hread
                  exact hread.bindPure Json.ofMembers
              | enum symbols =>
                  obtain ⟨i, symbol, hsymbol, hi, rfl, rfl⟩ := h
                  exact reads_decodeEnum hsymbol hi
              | fixed size =>
                  obtain ⟨rfl, hlen⟩ := h
                  exact (reads_readBytes hlen).map _
      | array items =>
          obtain ⟨vs, rfl, hblocks⟩ := h
          exact (reads_blockItems (fun x u => ih) hblocks).map _
      | map values =>
          obtain ⟨es, hobject, hblocks⟩ := h
          rw [← ofMembers_eq hobject]
          exact (reads_blockItems (fun x u => reads_entry (fun x u => ih)) hblocks).map _
      | union branches =>
          obtain ⟨i, branch, u, hbranch, hi, hu, rfl⟩ := h
          refine (reads_readLong (by omega) (by omega)).bind ?_
          rw [elementAt_natCast, hbranch]
          exact ih hu

end Lights3.Iceberg.Avro
