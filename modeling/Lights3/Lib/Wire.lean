import Lights3.Lib.ByteString

/-!
# Little-endian wire formats

Writers append bytes and readers consume them from the front. `Writes bad p ok w`
says that `p` appends exactly `w` when `ok` holds and stops with a `bad` error
otherwise; `Reads p w a` says that `p` consumes exactly the bytes `w`, whatever
follows, and returns `a`. Both compose along the monadic sequencing, so a
decoder is verified in the order in which its encoder writes.
-/
namespace Wire

/-- The low `n` bytes of `v`, least significant first. -/
def leBytes : Nat → Nat → Bytes
  | 0, _ => []
  | n + 1, v => UInt8.ofNat v :: leBytes n (v / 256)

/-- The number written by a little-endian byte string. -/
def leNat : Bytes → Nat
  | [] => 0
  | c :: s => c.toNat + 256 * leNat s

@[simp] theorem leBytes_length (n v : Nat) : (leBytes n v).length = n := by
  induction n generalizing v with
  | zero => rfl
  | succ n ih => simp [leBytes, ih]

@[simp] theorem leNat_leBytes (n v : Nat) : leNat (leBytes n v) = v % 256 ^ n := by
  induction n generalizing v with
  | zero => simp [leBytes, leNat, Nat.mod_one]
  | succ n ih =>
      have hb : (UInt8.ofNat v).toNat = v % 256 := by simp
      rw [leBytes, leNat, ih, hb, pow_succ, Nat.mul_comm (256 ^ n) 256, Nat.mod_mul]

theorem leNat_lt (s : Bytes) : leNat s < 256 ^ s.length := by
  induction s with
  | nil => simp [leNat]
  | cons c s ih =>
      have hc := c.toNat_lt
      simp only [leNat, List.length_cons, pow_succ]
      omega

/-- A reader consumes bytes from the front or stops with an error. -/
abbrev Reader (ε : Type) := StateT Bytes (Except ε)

variable {ε α β σ : Type}

/-- Exactly the bytes `w` are consumed, whatever follows, and `a` is returned. -/
def Reads (p : Reader ε α) (w : Bytes) (a : α) : Prop :=
  ∀ rest, p.run (w ++ rest) = .ok (a, rest)

theorem Reads.pure (a : α) : Reads (pure a : Reader ε α) [] a := fun _ => rfl

variable {w u : Bytes} {a : α} {f : α → Reader ε β} {p : Reader ε α} {b : β}

theorem Reads.bind (hp : Reads p w a) (hf : Reads (f a) u b) : Reads (p >>= f) (w ++ u) b := by
  intro rest
  rw [List.append_assoc, StateT.run_bind, hp (u ++ rest)]
  exact hf rest

theorem Reads.bindNil (hp : Reads p [] a) (hf : Reads (f a) u b) : Reads (p >>= f) u b :=
  hp.bind hf

theorem Reads.map (hp : Reads p w a) (f : α → β) : Reads (f <$> p) w (f a) := by
  intro rest
  rw [StateT.run_map, hp rest]
  rfl

theorem Reads.bindPure (hp : Reads p w a) (f : α → β) :
    Reads (p >>= fun x => Pure.pure (f x)) w (f a) := by
  intro rest
  rw [StateT.run_bind, hp rest]
  rfl

/-- Consume `n` bytes, or stop with `e` when fewer are left. -/
def take (e : ε) (n : Nat) : Reader ε Bytes := fun s =>
  if s.length < n then .error e else .ok (s.take n, s.drop n)

theorem reads_take (e : ε) (w : Bytes) : Reads (take e w.length) w w := by
  intro rest
  have h : ¬ (w ++ rest).length < w.length := by simp
  simp only [take, StateT.run, if_neg h, List.take_left, List.drop_left]

/-- A little-endian number of `n` bytes. -/
def number (e : ε) (n : Nat) : Reader ε Nat := leNat <$> take e n

theorem reads_number (e : ε) (n v : Nat) : Reads (number e n) (leBytes n v) (v % 256 ^ n) := by
  have h := (reads_take e (leBytes n v)).map leNat
  simpa only [leBytes_length, leNat_leBytes, number] using h

/-- Run a body `n` times, threading an accumulator. -/
def times (body : σ → Reader ε σ) : Nat → σ → Reader ε σ
  | 0, s => pure s
  | n + 1, s => body s >>= times body n

/-- A counted loop reads the concatenation of its items' encodings. -/
theorem Reads.times {body : σ → Reader ε σ} {enc : α → Bytes} {f : σ → α → σ} {items : List α}
    (h : ∀ s, ∀ a ∈ items, Reads (body s) (enc a) (f s a)) (s : σ) :
    Reads (times body items.length s) (items.flatMap enc) (items.foldl f s) := by
  induction items generalizing s with
  | nil => exact Reads.pure s
  | cons a items ih =>
      have h1 := h s a List.mem_cons_self
      have h2 := ih (fun t b hb => h t b (List.mem_cons_of_mem a hb)) (f s a)
      exact h1.bind h2

/-- A writer appends to the bytes written so far or stops with an error. -/
abbrev Writer (ε : Type) := StateT Bytes (Except ε)

/-- The writer appends `w` when `ok` holds and stops with a `bad` error otherwise. -/
def Writes (bad : ε → Prop) (p : Writer ε Unit) (ok : Prop) (w : Bytes) : Prop :=
  (ok → ∀ s, p.run s = .ok ((), s ++ w)) ∧ (¬ ok → ∀ s, ∃ e, bad e ∧ p.run s = .error e)

/-- Append a fixed byte string. -/
def emit (w : Bytes) : Writer ε Unit := modify (· ++ w)

variable {bad : ε → Prop}

theorem writes_emit (w : Bytes) : Writes bad (emit w) True w :=
  ⟨fun _ _ => rfl, fun h => absurd trivial h⟩

theorem writes_pure : Writes bad (pure () : Writer ε Unit) True [] :=
  ⟨fun _ s => by rw [List.append_nil]; rfl, fun h => absurd trivial h⟩

theorem Writes.congr {p : Writer ε Unit} {a b : Prop} (h : Writes bad p a w) (hab : a ↔ b) :
    Writes bad p b w :=
  ⟨fun hb => h.1 (hab.mpr hb), fun hb => h.2 (fun ha => hb (hab.mp ha))⟩

theorem Writes.cast {p : Writer ε Unit} {a : Prop} (h : Writes bad p a u) (huw : u = w) :
    Writes bad p a w := huw ▸ h

theorem Writes.seq {p q : Writer ε Unit} {a b : Prop} (hp : Writes bad p a u)
    (hq : Writes bad q b w) : Writes bad (p >>= fun _ => q) (a ∧ b) (u ++ w) := by
  constructor
  · rintro ⟨ha, hb⟩ s
    rw [StateT.run_bind, hp.1 ha s, ← List.append_assoc]
    exact hq.1 hb (s ++ u)
  · intro h s
    rw [StateT.run_bind]
    by_cases ha : a
    · obtain ⟨e, hbad, he⟩ := hq.2 (fun hb => h ⟨ha, hb⟩) (s ++ u)
      refine ⟨e, hbad, ?_⟩
      rw [hp.1 ha s]
      exact he
    · obtain ⟨e, hbad, he⟩ := hp.2 ha s
      refine ⟨e, hbad, ?_⟩
      rw [he]
      rfl

/-- A check made before the rest of a writer runs. -/
theorem Writes.guard {p : Writer ε Unit} {a : Prop} (hp : Writes bad p a w) (c : Prop) [Decidable c]
    {e : ε} (he : bad e) : Writes bad (if c then throw e else p) (¬ c ∧ a) w := by
  by_cases hc : c
  · rw [if_pos hc]
    exact ⟨fun h => absurd hc h.1, fun _ s => ⟨e, he, rfl⟩⟩
  · rw [if_neg hc]
    exact hp.congr ⟨fun h => ⟨hc, h⟩, fun h => h.2⟩

/-- A loop writes the concatenation of its items' encodings. -/
theorem Writes.forM {f : α → Writer ε Unit} {ok : α → Prop} {enc : α → Bytes} {items : List α}
    (h : ∀ a ∈ items, Writes bad (f a) (ok a) (enc a)) :
    Writes bad (items.forM f) (∀ a ∈ items, ok a) (items.flatMap enc) := by
  induction items with
  | nil => exact writes_pure.congr (by simp)
  | cons a items ih =>
      have h1 := h a List.mem_cons_self
      have h2 := ih (fun b hb => h b (List.mem_cons_of_mem a hb))
      exact (h1.seq h2).congr (by simp)

/-- The reader uses up exactly the input `w` and returns `a`. -/
def ReadsAll (p : Reader ε α) (w : Bytes) (a : α) : Prop := p.run w = .ok (a, [])

theorem Reads.bindAll (hp : Reads p w a) (hf : ReadsAll (f a) u b) :
    ReadsAll (p >>= f) (w ++ u) b := by
  unfold ReadsAll
  rw [StateT.run_bind, hp u]
  exact hf

theorem Reads.bindEnd (hp : Reads p w a) (hf : ReadsAll (f a) [] b) : ReadsAll (p >>= f) w b := by
  have h := hp.bindAll hf
  rwa [List.append_nil] at h

/-- On the input `w` the reader stops with `e`. -/
def Fails (p : Reader ε α) (w : Bytes) (e : ε) : Prop := p.run w = .error e

theorem Reads.bindFails {e : ε} (hp : Reads p w a) (hf : Fails (f a) u e) :
    Fails (p >>= f) (w ++ u) e := by
  unfold Fails
  rw [StateT.run_bind, hp u]
  exact hf

/-- Stop with `e` when the condition holds. -/
def reject (c : Prop) [Decidable c] (e : ε) : Reader ε Unit := if c then throw e else pure ()

theorem reads_reject {c : Prop} [Decidable c] (e : ε) (hc : ¬ c) : Reads (reject c e) [] () := by
  unfold reject
  rw [if_neg hc]
  exact Reads.pure ()

/-- Stop with `e` unless at least `n` bytes are left. -/
def atLeast (e : ε) (n : Nat) : Reader ε Unit := fun s =>
  if n > s.length then .error e else .ok ((), s)

theorem Reads.atLeast {f : Unit → Reader ε α} {e : ε} {n : Nat} (hf : Reads (f ()) w a)
    (hn : n ≤ w.length) : Reads (atLeast e n >>= f) w a := by
  intro rest
  have h : ¬ n > (w ++ rest).length := by
    rw [List.length_append]
    omega
  have hrun : (Wire.atLeast e n).run (w ++ rest) = .ok ((), w ++ rest) := if_neg h
  rw [StateT.run_bind, hrun]
  exact hf rest

/-- Stop with `e` when input is left. -/
def atEnd (e : ε) : Reader ε Unit := fun s => if s = [] then .ok ((), s) else .error e

theorem fails_atEnd {f : Unit → Reader ε β} (e : ε) (hw : w ≠ []) : Fails (atEnd e >>= f) w e := by
  have hrun : (atEnd e).run w = .error e := if_neg hw
  unfold Fails
  rw [StateT.run_bind, hrun]
  rfl

end Wire
