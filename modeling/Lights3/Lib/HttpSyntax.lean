import Lights3.Lib.ByteString
import Mathlib.Data.List.DropRight

/-!
# Messages of HTTP/1.1

Runs of bytes of a class, numerals, and the lines of a message with what RFC 9110 and RFC 9112 allow
in the name of a field. A sender puts no white space around the name.
-/
namespace ByteString

/-- A run of a class ends where the class does. -/
theorem span_append {p : UInt8 → Bool} {x r : Bytes} (hx : ∀ c ∈ x, p c = true)
    (hr : ∀ c ∈ r.head?, p c = false) : (x ++ r).takeWhile p = x ∧ (x ++ r).dropWhile p = r := by
  rw [List.takeWhile_append_of_pos hx, List.dropWhile_append_of_pos hx]
  cases r with
  | nil => simp
  | cons c r => simp [hr c rfl]

/-- The value of a digit in a base of 16 at most. -/
def digit (base : Nat) (c : UInt8) : Option Nat :=
  let n :=
    if 48 ≤ c ∧ c ≤ 57 then c.toNat - 48
    else if 97 ≤ c ∧ c ≤ 102 then c.toNat - 87
    else if 65 ≤ c ∧ c ≤ 70 then c.toNat - 55
    else base
  if n < base then some n else none

/-- One more digit of a number that stays below a bound. -/
def shiftDigitBelow (base bound n : Nat) (c : UInt8) : Option Nat :=
  match digit base c with
  | none => none
  | some d => if base * n + d < bound then some (base * n + d) else none

end ByteString

namespace HttpSyntax

def crlf : Bytes := [13, 10]

/-- `tchar`. -/
def tokenByte (c : UInt8) : Bool :=
  (65 ≤ c && c ≤ 90) || (97 ≤ c && c ≤ 122) || (48 ≤ c && c ≤ 57) ||
    c ∈ ([33, 35, 36, 37, 38, 39, 42, 43, 45, 46, 94, 95, 96, 124, 126] : List UInt8)

def IsToken (s : Bytes) : Prop := s ≠ [] ∧ s.all tokenByte = true

instance (s : Bytes) : Decidable (IsToken s) := inferInstanceAs (Decidable (_ ∧ _))

/-- Space and tab. -/
def blank (c : UInt8) : Bool := c = 32 || c = 9

/-- A value without the white space around it. -/
def trim (v : Bytes) : Bytes := (v.dropWhile blank).rdropWhile blank

def lowerLetter (c : UInt8) : UInt8 := if 65 ≤ c && c ≤ 90 then c + 32 else c

/-- Names are the same up to case. -/
def sameName (a b : Bytes) : Bool := a.map lowerLetter = b.map lowerLetter

/-! ## Lines -/

/-- The line without the carriage return at its end. -/
def chomp (line : Bytes) : Bytes := if line.getLast? = some 13 then line.dropLast else line

/-- A line ends with a line feed, and a carriage return before it belongs to its end. -/
def lines (s : Bytes) : List Bytes := (s.splitOn 10).map chomp

theorem lines_append {line : Bytes} (h : 10 ∉ line) (rest : Bytes) :
    lines (line ++ 10 :: rest) = chomp line :: lines rest := by
  have hline : ∀ c ∈ line, (· == (10 : UInt8)) c = false :=
    fun c hc => by simpa using fun hten : c = 10 => h (hten ▸ hc)
  have hsplit := List.splitOnP_append_cons_of_forall_mem hline 10 rfl rest
  rw [lines, List.splitOn, hsplit]
  rfl

/-- The field lines of a message follow its first line and end before an empty one. -/
def fieldLines (message : Bytes) : List Bytes := (lines message).tail.takeWhile (· ≠ [])

/-- The name and the value of a field line, without the white space around the value. -/
def fieldOf (line : Bytes) : Bytes × Bytes :=
  (line.takeWhile (· ≠ 58), trim (line.dropWhile (· ≠ 58)).tail)

end HttpSyntax
