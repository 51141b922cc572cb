import Lights3.Lib.Wire

/-!
# Variable-length integers and cut input

A number is written in groups of seven bits, the lowest first, with the high bit set on every
byte but the last; a signed one is folded into the naturals before. `Tight p w` says that `p`
refuses every proper prefix of `w`, and follows the sequencing of readers.
-/
namespace Wire

/-! ## Seven bits a byte -/

def varint (n : Nat) : Bytes :=
  if n < 128 then [UInt8.ofNat n] else UInt8.ofNat (n % 128 + 128) :: varint (n / 128)

theorem varint_of_lt {n : Nat} (h : n < 128) : varint n = [UInt8.ofNat n] := by
  rw [varint, if_pos h]

theorem varint_of_le {n : Nat} (h : 128 ≤ n) :
    varint n = UInt8.ofNat (n % 128 + 128) :: varint (n / 128) := by
  rw [varint, if_neg (by omega)]

theorem varint_ne_nil (n : Nat) : varint n ≠ [] := by
  rw [varint]
  split_ifs <;> simp

/-- The value so far takes the bits below `shift`; a 64-bit word takes the result. -/
def varintLoop {ε : Type} (short long : ε) : Bytes → Nat → Nat → Except ε (Nat × Bytes)
  | [], _, _ => .error short
  | b :: s, shift, v =>
      if 64 ≤ shift then .error long
      else
        let v := (v ||| (b.toNat % 128) <<< shift) % 2 ^ 64
        if b.toNat < 128 then .ok (v, s) else varintLoop short long s (shift + 7) v

variable {ε α β : Type}

/-- Adding the next group. -/
theorem or_shift {v x shift : Nat} (hv : v < 2 ^ shift) (h : v + x * 2 ^ shift < 2 ^ 64) :
    (v ||| x <<< shift) % 2 ^ 64 = v + x * 2 ^ shift := by
  rw [Nat.or_comm, ← Nat.shiftLeft_add_eq_or_of_lt hv, Nat.shiftLeft_eq, Nat.add_comm,
    Nat.mod_eq_of_lt h]

/-- The loop reads a number back, `v` being what was read before. -/
theorem varintLoop_varint (short long : ε) (n shift v : Nat) (hv : v < 2 ^ shift)
    (hshift : shift < 64) (h : v + n * 2 ^ shift < 2 ^ 64) (rest : Bytes) :
    varintLoop short long (varint n ++ rest) shift v = .ok (v + n * 2 ^ shift, rest) := by
  induction n using Nat.strongRecOn generalizing shift v with
  | ind n ih =>
      by_cases hn : n < 128
      · have hb : (UInt8.ofNat n).toNat = n := by simp; omega
        rw [varint_of_lt hn, List.singleton_append, varintLoop, if_neg (by omega), hb,
          Nat.mod_eq_of_lt hn, or_shift hv h]
        exact if_pos hn
      · have hb : (UInt8.ofNat (n % 128 + 128)).toNat = n % 128 + 128 := by simp; omega
        have hpow : 2 ^ (shift + 7) = 2 ^ shift * 128 := pow_add 2 shift 7
        have hsplit : n * 2 ^ shift = n % 128 * 2 ^ shift + n / 128 * 2 ^ (shift + 7) := by
          rw [hpow, Nat.mul_comm (2 ^ shift) 128, ← Nat.mul_assoc, ← Nat.add_mul,
            Nat.mul_comm _ 128, Nat.mod_add_div]
        have hgroup : n % 128 * 2 ^ shift ≤ 127 * 2 ^ shift := Nat.mul_le_mul_right _ (by omega)
        have hrest : 2 ^ (shift + 7) ≤ n / 128 * 2 ^ (shift + 7) :=
          Nat.le_mul_of_pos_left _ (by omega)
        have hshift' : shift + 7 < 64 :=
          (Nat.pow_lt_pow_iff_right (by decide)).mp (show 2 ^ (shift + 7) < 2 ^ 64 by omega)
        rw [varint_of_le (by omega), List.cons_append, varintLoop, if_neg (by omega), hb,
          show (n % 128 + 128) % 128 = n % 128 by omega, or_shift hv (by omega),
          if_neg (by omega), ih (n / 128) (by omega) _ _ (by omega) hshift' (by omega)]
        rw [hsplit, Nat.add_assoc]

/-- Input that ends inside a number. -/
theorem varintLoop_cut (short long : ε) (n : Nat) {u v : Bytes} (h : varint n = u ++ v)
    (hv : v ≠ []) (shift x : Nat) : ∃ e, varintLoop short long u shift x = .error e := by
  induction n using Nat.strongRecOn generalizing u shift x with
  | ind n ih =>
      cases u with
      | nil => exact ⟨short, rfl⟩
      | cons b u =>
          by_cases hn : n < 128
          · rw [varint_of_lt hn] at h
            obtain ⟨-, h⟩ := List.cons.inj h
            exact absurd (List.append_eq_nil_iff.mp h.symm).2 hv
          · rw [varint_of_le (by omega)] at h
            obtain ⟨rfl, htail⟩ := List.cons.inj h
            have hb : (UInt8.ofNat (n % 128 + 128)).toNat = n % 128 + 128 := by simp; omega
            rw [varintLoop]
            by_cases hshift : 64 ≤ shift
            · exact ⟨long, if_pos hshift⟩
            · rw [if_neg hshift, hb, if_neg (by omega)]
              exact ih (n / 128) (by omega) htail _ _

/-! ## Signed numbers -/

/-- Small absolute values first. -/
def zigzag (v : Int) : Nat := if 0 ≤ v then (2 * v).toNat else (-2 * v - 1).toNat

def unzigzag (n : Nat) : Int := if n % 2 = 0 then (n / 2 : Nat) else -(n / 2 : Nat) - 1

theorem unzigzag_zigzag (v : Int) : unzigzag (zigzag v) = v := by
  unfold unzigzag zigzag
  split_ifs <;> omega

def readLong (short long : ε) : Reader ε Int := fun s =>
  (varintLoop short long s 0 0).map (fun r => (unzigzag r.1, r.2))

def longBytes (v : Int) : Bytes := varint (zigzag v)

theorem reads_long (short long : ε) {v : Int} (hlow : -2 ^ 63 ≤ v) (hhigh : v < 2 ^ 63) :
    Reads (readLong short long) (longBytes v) v := by
  intro rest
  have hz : zigzag v < 2 ^ 64 := by
    unfold zigzag
    split_ifs <;> omega
  have hloop := varintLoop_varint short long (zigzag v) 0 0 (by omega) (by omega) (by omega) rest
  show (varintLoop short long (varint (zigzag v) ++ rest) 0 0).map _ = _
  rw [hloop]
  simp [Except.map, unzigzag_zigzag]

/-! ## Input that is cut -/

/-- The reader fails on every proper prefix of `w`. -/
def Tight (p : Reader ε α) (w : Bytes) : Prop :=
  ∀ u v, w = u ++ v → v ≠ [] → ∃ e, p.run u = .error e

theorem tight_nil (p : Reader ε α) : Tight p [] :=
  fun _ _ h hv => absurd (List.append_eq_nil_iff.mp h.symm).2 hv

theorem tight_long (short long : ε) (v : Int) : Tight (readLong short long) (longBytes v) := by
  intro u v' h hv
  obtain ⟨e, he⟩ := varintLoop_cut short long _ h hv 0 0
  refine ⟨e, ?_⟩
  show (varintLoop short long u 0 0).map _ = _
  rw [he]
  rfl

theorem tight_take (e : ε) (w : Bytes) : Tight (take e w.length) w := by
  intro u v h hv
  have hlen : u.length < w.length := by
    have := List.length_pos_of_ne_nil hv
    rw [h, List.length_append]
    omega
  exact ⟨e, if_pos hlen⟩

variable {f : α → Reader ε β} {p : Reader ε α}

/-- Either the first reader is cut, or it is done and the second one is. -/
theorem Tight.bind {w u : Bytes} {a : α} (hp : Reads p w a) (hcut : Tight p w)
    (hf : Tight (f a) u) :
    Tight (p >>= f) (w ++ u) := by
  intro x y h hy
  rcases List.append_eq_append_iff.mp h with ⟨x', rfl, hu⟩ | ⟨w', hw, hy'⟩
  · obtain ⟨e, he⟩ := hf x' y hu hy
    exact ⟨e, hp.bindFails he⟩
  · by_cases hw' : w' = []
    · subst hw'
      rw [List.append_nil] at hw
      obtain ⟨e, he⟩ := hf [] y hy'.symm hy
      have hfails := hp.bindFails he
      rw [List.append_nil, hw] at hfails
      exact ⟨e, hfails⟩
    · obtain ⟨e, he⟩ := hcut x w' hw hw'
      refine ⟨e, ?_⟩
      rw [StateT.run_bind, he]
      rfl

theorem Tight.bindNil {u : Bytes} {a : α} (hp : Reads p [] a) (hf : Tight (f a) u) :
    Tight (p >>= f) u :=
  Tight.bind hp (tight_nil p) hf

theorem Tight.atLeast {f : Unit → Reader ε α} {w : Bytes} (hf : Tight (f ()) w) (e : ε) (n : Nat) :
    Tight (atLeast e n >>= f) w := by
  intro u v h hv
  by_cases hn : n > u.length
  · have hrun : (Wire.atLeast e n).run u = .error e := if_pos hn
    exact ⟨e, by rw [StateT.run_bind, hrun]; rfl⟩
  · have hrun : (Wire.atLeast e n).run u = .ok ((), u) := if_neg hn
    obtain ⟨e', he⟩ := hf u v h hv
    exact ⟨e', by rw [StateT.run_bind, hrun]; exact he⟩

/-! ## Loops -/

/-- A loop over given items reads the concatenation of what they read. -/
theorem Reads.mapM (ts : List (α × β × Bytes)) (h : ∀ t ∈ ts, Reads (f t.1) t.2.2 t.2.1) :
    Reads ((ts.map (·.1)).mapM f) (ts.flatMap (·.2.2)) (ts.map (·.2.1)) := by
  induction ts with
  | nil => exact Reads.pure []
  | cons t ts ih =>
      rw [List.map_cons, List.mapM_cons, List.flatMap_cons, List.map_cons]
      have htail := ih (fun t' ht' => h t' (List.mem_cons_of_mem t ht'))
      exact (h t List.mem_cons_self).bind (htail.bindPure (t.2.1 :: ·))

/-- The same reader a number of times. -/
def many (p : Reader ε α) (n : Nat) : Reader ε (List α) := (List.replicate n ()).mapM (fun _ => p)

theorem Reads.many (ps : List (α × Bytes)) (h : ∀ q ∈ ps, Reads p q.2 q.1) :
    Reads (many p ps.length) (ps.flatMap (·.2)) (ps.map (·.1)) := by
  have hloop : Reads (((ps.map (fun q => ((), q))).map (·.1)).mapM (fun _ => p))
      ((ps.map (fun q => ((), q))).flatMap (·.2.2)) ((ps.map (fun q => ((), q))).map (·.2.1)) := by
    refine Reads.mapM _ (fun t ht => ?_)
    obtain ⟨q, hq, rfl⟩ := List.mem_map.mp ht
    exact h q hq
  simpa [Wire.many, List.flatMap_map, Function.comp_def, List.map_const'] using hloop

end Wire
