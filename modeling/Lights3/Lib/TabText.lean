import Lights3.Lib.ByteString

/-!
# Texts of named values

One value on a line, after its name and a tab, with nothing escaped. A text is read back up to the
names: a name that has a tab itself ends there.
-/
namespace TabText
open ByteString

/-- A text that stays on its line. -/
abbrev OneLine (s : Bytes) : Prop := (10 : UInt8) ∉ s

/-- The lines of a text. What follows the last line feed is a line unless it is empty. -/
def cutLines : Bytes → Bytes → List Bytes
  | line, [] => if line = [] then [] else [line]
  | line, c :: s => if c = 10 then line :: cutLines [] s else cutLines (line ++ [c]) s

/-- The name and the value on a line; a line without a tab has none. -/
def splitTab (line : Bytes) : Option (Bytes × Bytes) :=
  if 9 ∈ line then some (line.takeWhile (· ≠ 9), (line.dropWhile (· ≠ 9)).tail) else none

def read (text : Bytes) : List (Bytes × Bytes) := (cutLines [] text).filterMap splitTab

def write (es : List (Bytes × Bytes)) : Bytes := es.flatMap fun e => e.1 ++ [9] ++ e.2 ++ [10]

/-- An entry as it is read back from its line. -/
def tear (e : Bytes × Bytes) : Bytes × Bytes :=
  ((e.1 ++ 9 :: e.2).takeWhile (· ≠ 9), ((e.1 ++ 9 :: e.2).dropWhile (· ≠ 9)).tail)

theorem tear_append {p : Bytes} (hp : 9 ∉ p) (e : Bytes × Bytes) :
    tear (p ++ e.1, e.2) = (p ++ (tear e).1, (tear e).2) := by
  have hall : ∀ c ∈ p, decide (c ≠ 9) = true :=
    fun c hc => decide_eq_true (ne_of_mem_of_not_mem hc hp)
  simp only [tear, List.append_assoc, List.takeWhile_append_of_pos hall,
    List.dropWhile_append_of_pos hall]

theorem tear_eq_self {e : Bytes × Bytes} (h : 9 ∉ e.1) : tear e = e := by
  have happ := tear_append h ([], e.2)
  simpa [tear] using happ

theorem not_mem_tear_fst (e : Bytes × Bytes) : 9 ∉ (tear e).1 := fun h => by
  have hne := List.all_eq_true.mp List.all_takeWhile _ h
  simp at hne

theorem cutLines_append {line x : Bytes} (hx : OneLine x) (s : Bytes) :
    cutLines line (x ++ 10 :: s) = (line ++ x) :: cutLines [] s := by
  induction x generalizing line with
  | nil => simp [cutLines]
  | cons c x ih =>
      obtain ⟨hc, hx⟩ := not_or.mp (List.mem_cons.not.mp hx)
      rw [List.cons_append, cutLines, if_neg (Ne.symm hc), ih hx]
      simp

theorem read_write {es : List (Bytes × Bytes)} (h : ∀ e ∈ es, OneLine e.1 ∧ OneLine e.2) :
    read (write es) = es.map tear := by
  induction es with
  | nil => rfl
  | cons e es ih =>
      obtain ⟨⟨hname, hvalue⟩, h⟩ := List.forall_mem_cons.mp h
      have hline : OneLine (e.1 ++ 9 :: e.2) := by
        simp [OneLine, hname, hvalue]
      have hsplit : splitTab (e.1 ++ 9 :: e.2) = some (tear e) := by
        simp [splitTab, tear]
      have hwrite : write (e :: es) = (e.1 ++ 9 :: e.2) ++ 10 :: write es := by
        simp [write]
      rw [read, hwrite, cutLines_append hline, List.nil_append, List.filterMap_cons_some hsplit,
        List.map_cons]
      exact congrArg _ (ih h)

theorem oneLine_of_mem_cutLines {line s l : Bytes} (hline : OneLine line)
    (h : l ∈ cutLines line s) :
    OneLine l := by
  induction s generalizing line with
  | nil =>
      rw [cutLines] at h
      split_ifs at h with hempty
      · simp at h
      · rwa [List.mem_singleton.mp h]
  | cons c s ih =>
      rw [cutLines] at h
      split_ifs at h with hc
      · rcases List.mem_cons.mp h with rfl | h
        · exact hline
        · exact ih List.not_mem_nil h
      · refine ih ?_ h
        simp [OneLine, hline, Ne.symm hc]

theorem oneLine_of_mem_read {text : Bytes} {e : Bytes × Bytes} (h : e ∈ read text) :
    OneLine e.1 ∧ OneLine e.2 := by
  obtain ⟨line, hmem, hsplit⟩ := List.mem_filterMap.mp h
  have hline := oneLine_of_mem_cutLines List.not_mem_nil hmem
  unfold splitTab at hsplit
  split_ifs at hsplit
  cases hsplit
  exact ⟨fun h => hline ((List.takeWhile_sublist _).subset h),
    fun h => hline ((List.dropWhile_sublist _).subset (List.mem_of_mem_tail h))⟩

end TabText
