import Lights3.Lib.ByteString
import Mathlib.Data.List.TakeWhile

/-!
# Decimal numbers as byte strings

`render` is the shortest decimal form of a natural number and `parse` reads a
string made of digits only. Lists are joined by a separator byte that is not a
digit and split at the separators again.
-/
namespace Decimal

/-- The ASCII decimal digits of `n`, without leading zeros. -/
def render (n : Nat) : Bytes := (Nat.toDigits 10 n).map (fun c => UInt8.ofNat c.toNat)

def isDigit (c : UInt8) : Bool := 48 ≤ c && c ≤ 57

/-- The value of a string of digits, most significant first. -/
def value (s : Bytes) : Nat := s.foldl (fun v c => 10 * v + (c.toNat - 48)) 0

/-- A non-empty string of digits; anything else is rejected. -/
def parse (s : Bytes) : Option Nat :=
  if s = [] then none else if s.all isDigit then some (value s) else none

theorem toNat_of_isDigit {c : Char} (h : c.isDigit = true) : 48 ≤ c.toNat ∧ c.toNat ≤ 57 := by
  simp only [Char.isDigit, Bool.and_eq_true, decide_eq_true_eq] at h
  exact ⟨h.1, h.2⟩

theorem byte_toNat {n : Nat} {c : Char} (h : c ∈ Nat.toDigits 10 n) :
    (UInt8.ofNat c.toNat).toNat = c.toNat := by
  have hd := toNat_of_isDigit (Nat.isDigit_of_mem_toDigits (by decide) (by decide) h)
  rw [UInt8.toNat_ofNat']
  omega

theorem isDigit_of_mem_render {n : Nat} {c : UInt8} (h : c ∈ render n) : isDigit c = true := by
  obtain ⟨d, hd, rfl⟩ := List.mem_map.mp h
  have hn := byte_toNat hd
  have hb := toNat_of_isDigit (Nat.isDigit_of_mem_toDigits (by decide) (by decide) hd)
  simp only [isDigit, Bool.and_eq_true, decide_eq_true_eq, UInt8.le_iff_toNat_le, hn]
  exact hb

@[simp] theorem render_ne_nil (n : Nat) : render n ≠ [] := by simp [render]

theorem value_render (n : Nat) : value (render n) = n := by
  have h : ∀ (ds : List Char) (v : Nat), (∀ c ∈ ds, (UInt8.ofNat c.toNat).toNat = c.toNat) →
      (ds.map (fun c => UInt8.ofNat c.toNat)).foldl (fun v c => 10 * v + (c.toNat - 48)) v =
        Nat.ofDigitChars 10 ds v := by
    intro ds
    induction ds with
    | nil => intro v _; simp
    | cons c ds ih =>
        intro v hv
        simp only [List.map_cons, List.foldl_cons, Nat.ofDigitChars_cons]
        rw [hv c List.mem_cons_self]
        exact ih _ (fun d hd => hv d (List.mem_cons_of_mem c hd))
  unfold value render
  rw [h _ 0 (fun c hc => byte_toNat hc), Nat.ofDigitChars_ten_toDigits]

theorem parse_render (n : Nat) : parse (render n) = some n := by
  have hall : (render n).all isDigit = true :=
    List.all_eq_true.mpr (fun c hc => isDigit_of_mem_render hc)
  simp only [parse, if_neg (render_ne_nil n), hall, if_true, value_render]

/-- A number has at most `k` digits exactly when it is below `10 ^ k`. -/
theorem render_length_le_iff {n k : Nat} (hk : 0 < k) : (render n).length ≤ k ↔ n < 10 ^ k := by
  simp only [render, List.length_map]
  exact Nat.length_toDigits_le_iff (by decide) hk

/-- The rendered numbers of a list with `sep` between neighbours. -/
def join (sep : UInt8) : List Nat → Bytes
  | [] => []
  | [n] => render n
  | n :: m :: ns => render n ++ sep :: join sep (m :: ns)

theorem join_ne_nil (sep : UInt8) (n : Nat) (ns : List Nat) : join sep (n :: ns) ≠ [] := by
  cases ns <;> simp [join]

variable {α : Type}

/-- Read the field before the next separator until the input is used up. The
budget bounds the number of fields; the input length always suffices. -/
def splitLoop (field : Bytes → Option α) (sep : UInt8) :
    Nat → Bytes → List α → Option (List α)
  | 0, s, acc => if s = [] then some acc else none
  | fuel + 1, s, acc =>
      if s = [] then some acc
      else
        match field (s.takeWhile (· ≠ sep)) with
        | none => none
        | some a => splitLoop field sep fuel ((s.dropWhile (· ≠ sep)).drop 1) (acc ++ [a])

theorem render_ne_sep {sep : UInt8} (hsep : isDigit sep = false) (n : Nat) :
    ∀ c ∈ render n, decide (c ≠ sep) = true := by
  intro c hc
  have hd := isDigit_of_mem_render hc
  simp only [decide_eq_true_eq]
  rintro rfl
  simp [hsep] at hd

/-- Splitting undoes joining when the field reader undoes rendering. -/
theorem splitLoop_join {field : Bytes → Option α} {f : α → Nat} {sep : UInt8}
    (hsep : isDigit sep = false) (items : List α)
    (hfield : ∀ a ∈ items, field (render (f a)) = some a) :
    ∀ fuel acc, (join sep (items.map f)).length ≤ fuel →
      splitLoop field sep fuel (join sep (items.map f)) acc = some (acc ++ items) := by
  induction items with
  | nil => intro fuel acc _; cases fuel <;> simp [join, splitLoop]
  | cons a items ih =>
      intro fuel acc hf
      have hne : join sep ((a :: items).map f) ≠ [] := join_ne_nil sep (f a) (items.map f)
      have hpos := List.length_pos_iff.mpr hne
      have ha := hfield a List.mem_cons_self
      cases fuel with
      | zero => omega
      | succ fuel =>
          rw [splitLoop, if_neg hne]
          cases items with
          | nil =>
              have htake : (join sep [f a]).takeWhile (· ≠ sep) = render (f a) :=
                List.takeWhile_eq_self_iff.mpr (render_ne_sep hsep (f a))
              have hdrop : (join sep [f a]).dropWhile (· ≠ sep) = [] :=
                List.dropWhile_eq_nil_iff.mpr (render_ne_sep hsep (f a))
              rw [List.map_cons, List.map_nil, htake, hdrop, ha]
              cases fuel <;> simp [splitLoop]
          | cons b items =>
              have htake : (join sep ((a :: b :: items).map f)).takeWhile (· ≠ sep) =
                  render (f a) := by
                rw [List.map_cons, List.map_cons, join,
                  List.takeWhile_append_of_pos (render_ne_sep hsep (f a))]
                simp
              have hdrop : (join sep ((a :: b :: items).map f)).dropWhile (· ≠ sep) =
                  sep :: join sep ((b :: items).map f) := by
                rw [List.map_cons, List.map_cons, join,
                  List.dropWhile_append_of_pos (render_ne_sep hsep (f a))]
                simp
              rw [htake, hdrop, ha]
              simp only [List.map_cons, join, List.length_append, List.length_cons] at hf
              have h := ih (fun c hc => hfield c (List.mem_cons_of_mem a hc)) fuel (acc ++ [a])
                (by simp only [List.map_cons]; omega)
              simpa using h

end Decimal
