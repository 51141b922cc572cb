import Lights3.Lib.Decimal
import Lights3.Lib.HttpSyntax

/-!
# Responses of HTTP/1.1

A recipient of responses after RFC 9112. It refuses a carriage return or a line feed that does not
end a line, and a message whose framing is given twice, so that no recipient finds other lines or
another end in what it accepts.
-/
namespace HttpSyntax
open ByteString

/-! ## Lines -/

def lineByte (c : UInt8) : Bool := c ≠ 13 && c ≠ 10

/-- The bytes before the end of the line, and those after it. -/
def takeLine (s : Bytes) : Option (Bytes × Bytes) :=
  match s.dropWhile lineByte with
  | 13 :: 10 :: rest => some (s.takeWhile lineByte, rest)
  | _ => none

theorem takeLine_append (line : Bytes) (hline : ∀ c ∈ line, lineByte c = true) (rest : Bytes) :
    takeLine (line ++ crlf ++ rest) = some (line, rest) := by
  have hspan := span_append (r := crlf ++ rest) hline (by simp [crlf, lineByte])
  rw [List.append_assoc, takeLine, hspan.1, hspan.2]
  rfl

theorem length_le_flatMap {α : Type} {f : α → Bytes} (hf : ∀ x, f x ≠ []) (xs : List α) :
    xs.length ≤ (xs.flatMap f).length := by
  induction xs with
  | nil => exact Nat.zero_le _
  | cons x xs ih =>
      have hx := List.length_pos_iff.mpr (hf x)
      rw [List.flatMap_cons, List.length_append, List.length_cons]
      omega

/-! ## Hexadecimal sizes -/

def hexDigit (n : Nat) : UInt8 := if n < 10 then UInt8.ofNat (48 + n) else UInt8.ofNat (87 + n)

/-- The numeral of a positive number. -/
def hex (n : Nat) : Bytes := (Nat.digits 16 n).reverse.map hexDigit

def hexValue (s : Bytes) : Option Nat :=
  if s = [] then none else s.foldlM (fun n c => (digit 16 c).map (16 * n + ·)) 0

theorem digit_hexDigit {d : Nat} (hd : d < 16) : digit 16 (hexDigit d) = some d := by
  revert d
  decide

theorem foldlM_hexDigit {ds : List Nat} (hds : ∀ d ∈ ds, d < 16) (n : Nat) :
    (ds.map hexDigit).foldlM (fun n c => (digit 16 c).map (16 * n + ·)) n =
      some (ds.foldl (fun n d => 16 * n + d) n) := by
  induction ds generalizing n with
  | nil => rfl
  | cons d ds ih =>
      obtain ⟨hd, hds⟩ := List.forall_mem_cons.mp hds
      simp only [List.map_cons, List.foldlM_cons, digit_hexDigit hd, Option.map_some,
        List.foldl_cons]
      exact ih hds _

theorem digits_lt {n d : Nat} (h : d ∈ (Nat.digits 16 n).reverse) : d < 16 :=
  Nat.digits_lt_base (by decide) (List.mem_reverse.mp h)

theorem hexValue_hex {n : Nat} (hn : 0 < n) : hexValue (hex n) = some n := by
  have hne : hex n ≠ [] := by
    simp [hex, Nat.digits_ne_nil_iff_ne_zero, hn.ne']
  have hfoldr (ds : List Nat) : ds.foldr (fun d n => 16 * n + d) 0 = Nat.ofDigits 16 ds := by
    induction ds with
    | nil => rfl
    | cons d ds ih =>
        rw [List.foldr_cons, ih, Nat.ofDigits_cons]
        exact Nat.add_comm _ _
  rw [hexValue, if_neg hne, hex, foldlM_hexDigit (fun d hd => digits_lt hd),
    List.foldl_reverse, hfoldr, Nat.ofDigits_digits]

theorem lineByte_hex {n : Nat} {c : UInt8} (h : c ∈ hex n) : lineByte c = true := by
  obtain ⟨d, hd, rfl⟩ := List.mem_map.mp h
  have hall : ∀ d < 16, lineByte (hexDigit d) = true := by decide
  exact hall d (digits_lt hd)

/-! ## The head -/

/-- The status of a status line; it has three digits. -/
def readStatusLine (line : Bytes) : Option Nat :=
  if line.take 9 ≠ ascii "HTTP/1.1 " then none
  else
    match line.drop 9 with
    | a :: b :: c :: 32 :: _ => Decimal.parse [a, b, c]
    | _ => none

theorem readStatusLine_append {n : Nat} (hn : 100 ≤ n) (reason : Bytes) :
    readStatusLine (ascii "HTTP/1.1 " ++ Decimal.render n ++ ascii " " ++ reason) =
      if n < 1000 then some n else none := by
  have hlong : 3 ≤ (Decimal.render n).length := by
    by_contra hshort
    have := (Decimal.render_length_le_iff (k := 2) (by decide)).mp
      (by omega : (Decimal.render n).length ≤ 2)
    omega
  have hdrop : (ascii "HTTP/1.1 " ++ Decimal.render n ++ ascii " " ++ reason).drop 9 =
      Decimal.render n ++ 32 :: reason := by
    simp [ascii]
  have htake : (ascii "HTTP/1.1 " ++ Decimal.render n ++ ascii " " ++ reason).take 9 =
      ascii "HTTP/1.1 " := by
    simp [ascii]
  have hparse := Decimal.parse_render n
  have hdigit : ∀ c ∈ Decimal.render n, c ≠ 32 := by
    rintro c hc rfl
    exact absurd (Decimal.isDigit_of_mem_render hc) (by decide)
  have hsize := Decimal.render_length_le_iff (n := n) (k := 3) (by decide)
  unfold readStatusLine
  rw [hdrop, htake, if_neg (not_not_intro rfl)]
  rcases hdigits : Decimal.render n with _ | ⟨a, _ | ⟨b, _ | ⟨c, _ | ⟨d, ds⟩⟩⟩⟩
  · simp [hdigits] at hlong
  · simp [hdigits] at hlong
  · simp [hdigits] at hlong
  · have hlt : n < 1000 := hsize.mp (by simp [hdigits])
    rw [if_pos hlt, ← hparse, hdigits]
    rfl
  · have hge : ¬ n < 1000 := fun hlt => by
      have hlen := hsize.mpr hlt
      simp only [hdigits, List.length_cons] at hlen
      omega
    have hd : d ≠ 32 := hdigit d (by simp [hdigits])
    rw [if_neg hge]
    simp only [List.cons_append]
    split
    · next heq => simp_all
    · rfl

/-- The name and the value of a field line. -/
def readField (line : Bytes) : Option (Bytes × Bytes) :=
  let name := line.takeWhile (· ≠ 58)
  if 58 ∉ line ∨ name = [] ∨ name.any blank then none else some (fieldOf line)

def readFields : Nat → Bytes → Option (List (Bytes × Bytes) × Bytes)
  | 0, _ => none
  | fuel + 1, s => do
      let (line, s) ← takeLine s
      if line = [] then some ([], s)
      else
        let f ← readField line
        let (fs, s) ← readFields fuel s
        some (f :: fs, s)

def fieldLine (e : Bytes × Bytes) : Bytes := e.1 ++ ascii ": " ++ e.2 ++ crlf

/-- A field that a line can hold. -/
def FieldFits (e : Bytes × Bytes) : Prop :=
  e.1 ≠ [] ∧ (∀ c ∈ e.1, lineByte c = true ∧ c ≠ 58 ∧ blank c = false) ∧ ∀ c ∈ e.2,
    lineByte c = true

theorem readField_append {e : Bytes × Bytes} (h : FieldFits e) :
    readField (e.1 ++ ascii ": " ++ e.2) = some (e.1, trim e.2) := by
  obtain ⟨hne, hname, -⟩ := h
  have hcolon : ∀ c ∈ e.1, decide (c ≠ 58) = true := fun c hc => decide_eq_true (hname c hc).2.1
  have hline : e.1 ++ ascii ": " ++ e.2 = e.1 ++ 58 :: 32 :: e.2 := by
    simp [ascii]
  have hspan := span_append (r := 58 :: 32 :: e.2) hcolon (by simp)
  have hblank : e.1.any blank = false :=
    List.any_eq_false.mpr fun c hc => by simp [(hname c hc).2.2]
  rw [hline, readField, fieldOf, hspan.1, hspan.2, if_neg (by simp [hne, hblank])]
  simp [trim, blank]

theorem readFields_append {fs : List (Bytes × Bytes)} (h : ∀ e ∈ fs, FieldFits e) {fuel : Nat}
    (hfuel : fs.length < fuel) (rest : Bytes) :
    readFields fuel (fs.flatMap fieldLine ++ crlf ++ rest) =
      some (fs.map fun e => (e.1, trim e.2), rest) := by
  induction fs generalizing fuel with
  | nil =>
      obtain ⟨fuel, rfl⟩ := Nat.exists_eq_add_one.mpr hfuel
      have hend : takeLine (crlf ++ rest) = some ([], rest) := takeLine_append [] (by simp) rest
      simp [readFields, hend]
  | cons e fs ih =>
      obtain ⟨fuel, rfl⟩ := Nat.exists_eq_add_one.mpr (Nat.lt_of_le_of_lt (Nat.zero_le _) hfuel)
      obtain ⟨he, h⟩ := List.forall_mem_cons.mp h
      have hline : ∀ c ∈ e.1 ++ ascii ": " ++ e.2, lineByte c = true := by
        intro c hc
        rcases List.mem_append.mp hc with hc | hc
        · rcases List.mem_append.mp hc with hc | hc
          · exact (he.2.1 c hc).1
          · have hall : ∀ c ∈ ascii ": ", lineByte c = true := by decide
            exact hall c hc
        · exact he.2.2 c hc
      have htake := takeLine_append _ hline (fs.flatMap fieldLine ++ crlf ++ rest)
      have hne : e.1 ++ ascii ": " ++ e.2 ≠ [] := by simp [he.1]
      have hsplit : (e :: fs).flatMap fieldLine ++ crlf ++ rest =
          e.1 ++ ascii ": " ++ e.2 ++ crlf ++ (fs.flatMap fieldLine ++ crlf ++ rest) := by
        simp only [List.flatMap_cons, fieldLine, List.append_assoc]
      have hrest := ih h (by simpa using hfuel)
      rw [hsplit]
      simp only [readFields, htake, Option.bind_eq_bind, Option.bind_some, if_neg hne,
        readField_append he, hrest, List.map_cons]

/-! ## The body -/

def fieldsNamed (name : String) (fields : List (Bytes × Bytes)) : List (Bytes × Bytes) :=
  fields.filter (fun e => sameName e.1 (ascii name))

inductive Framing where
  | length (n : Nat)
  | chunked
  | untilClose

def readFraming (fields : List (Bytes × Bytes)) : Option Framing :=
  match fieldsNamed "Transfer-Encoding" fields, fieldsNamed "Content-Length" fields with
  | [], [] => some .untilClose
  | [], [e] => (Decimal.parse e.2).map .length
  | [e], [] => if sameName e.2 (ascii "chunked") then some .chunked else none
  | _, _ => none

def readChunks : Nat → Bytes → Option (Bytes × Bytes)
  | 0, _ => none
  | fuel + 1, s => do
      let (line, s) ← takeLine s
      let n ← hexValue line
      let (line, rest) ← takeLine (s.drop n)
      if line ≠ [] ∨ s.length < n then none
      else if n = 0 then some ([], rest)
      else
        let (body, rest) ← readChunks fuel rest
        some (s.take n ++ body, rest)

def chunk (data : Bytes) : Bytes := hex data.length ++ crlf ++ data ++ crlf

def lastChunk : Bytes := ascii "0" ++ crlf ++ crlf

theorem readChunks_append {cs : List Bytes} (h : ∀ c ∈ cs, c ≠ []) {fuel : Nat}
    (hfuel : cs.length < fuel)
    (rest : Bytes) :
    readChunks fuel (cs.flatMap chunk ++ lastChunk ++ rest) = some (cs.flatten, rest) := by
  induction cs generalizing fuel with
  | nil =>
      obtain ⟨fuel, rfl⟩ := Nat.exists_eq_add_one.mpr hfuel
      have hzero : takeLine (lastChunk ++ rest) = some (ascii "0", crlf ++ rest) := by
        have := takeLine_append (ascii "0") (by decide) (crlf ++ rest)
        simpa only [lastChunk, List.append_assoc] using this
      have hend : takeLine (crlf ++ rest) = some ([], rest) := takeLine_append [] (by simp) rest
      have hvalue : hexValue (ascii "0") = some 0 := by decide
      simp [readChunks, hzero, hvalue, hend]
  | cons c cs ih =>
      obtain ⟨fuel, rfl⟩ := Nat.exists_eq_add_one.mpr (Nat.lt_of_le_of_lt (Nat.zero_le _) hfuel)
      obtain ⟨hc, h⟩ := List.forall_mem_cons.mp h
      have hsize : 0 < c.length := List.length_pos_iff.mpr hc
      have hline := takeLine_append (hex c.length) (fun d hd => lineByte_hex hd)
        (c ++ crlf ++ (cs.flatMap chunk ++ lastChunk ++ rest))
      have hend : takeLine (crlf ++ (cs.flatMap chunk ++ lastChunk ++ rest)) =
          some ([], cs.flatMap chunk ++ lastChunk ++ rest) := takeLine_append [] (by simp) _
      have hsplit : (c :: cs).flatMap chunk ++ lastChunk ++ rest =
          hex c.length ++ crlf ++ (c ++ crlf ++ (cs.flatMap chunk ++ lastChunk ++ rest)) := by
        simp only [List.flatMap_cons, chunk, List.append_assoc]
      have hdrop : (c ++ crlf ++ (cs.flatMap chunk ++ lastChunk ++ rest)).drop c.length =
          crlf ++ (cs.flatMap chunk ++ lastChunk ++ rest) := by
        rw [List.append_assoc, List.drop_left]
      have htake : (c ++ crlf ++ (cs.flatMap chunk ++ lastChunk ++ rest)).take c.length = c := by
        rw [List.append_assoc, List.take_left]
      have hrest := ih h (by simpa using hfuel)
      have hlen : ¬ (c ++ crlf ++ (cs.flatMap chunk ++ lastChunk ++ rest)).length < c.length := by
        simp only [List.length_append]
        omega
      rw [hsplit]
      simp only [readChunks, hline, Option.bind_eq_bind, Option.bind_some, hexValue_hex hsize,
        hdrop, hend, htake,
        ne_eq, not_true_eq_false, false_or, if_neg hlen, if_neg hsize.ne', hrest, List.flatten_cons]

/-- A response as its recipient reads it. -/
structure Response where
  status : Nat
  fields : List (Bytes × Bytes)
  body : Bytes

/-- A response with this status has no body. -/
def bodyless (status : Nat) : Bool := status < 200 || status = 204 || status = 304

/-- The body that follows a head, for a request with the method HEAD or another one. -/
def readBody (headRequest : Bool) (status : Nat) (fields : List (Bytes × Bytes)) (s : Bytes) :
    Option (Bytes × Bytes) :=
  if headRequest || bodyless status then some ([], s)
  else
    match readFraming fields with
    | some (.length n) => if s.length < n then none else some (s.take n, s.drop n)
    | some .chunked => readChunks (s.length + 1) s
    | some .untilClose => some (s, [])
    | none => none

/-- The next response of a stream, and what follows it. -/
def readResponse (headRequest : Bool) (s : Bytes) : Option (Response × Bytes) := do
  let (line, s) ← takeLine s
  let status ← readStatusLine line
  let (fields, s) ← readFields (s.length + 1) s
  let (body, s) ← readBody headRequest status fields s
  some (⟨status, fields, body⟩, s)

end HttpSyntax
