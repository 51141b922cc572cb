import Lights3.Lib.Wire

/-!
# What readers do on arbitrary input

`Yields p P` bounds a reader that succeeds: it took `n` bytes and returned `a` with
`P n a`. `Follows excused R p q` compares two readers of one format: wherever `p`
succeeds `q` leaves the same rest, and wherever `p` fails so does `q`, unless the error
is an excused one. Both follow the structure of the readers.
-/
namespace Wire

variable {ε α β γ δ σ τ : Type} {R : α → β → Prop} {S : γ → δ → Prop} {p : Reader ε α}
  {f : α → Reader ε β}

theorem run_bind_cases {s : Bytes} {r : Except ε (β × Bytes)} (h : (p >>= f).run s = r) :
    (∃ e, p.run s = .error e ∧ r = .error e) ∨
      ∃ a s', p.run s = .ok (a, s') ∧ (f a).run s' = r := by
  rw [StateT.run_bind] at h
  cases hp : p.run s with
  | error e =>
      rw [hp] at h
      exact Or.inl ⟨e, rfl, h.symm⟩
  | ok out =>
      rw [hp] at h
      exact Or.inr ⟨out.1, out.2, rfl, h⟩

variable {c : Prop} {P : Nat → α → Prop} {q : Reader ε β} {e : ε}

theorem Fails.bind {w : Bytes} (h : Fails p w e) : Fails (p >>= f) w e := by
  unfold Fails at h ⊢
  rw [StateT.run_bind, h]
  rfl

theorem Fails.atLeast {f : Unit → Reader ε α} {w : Bytes} {e' : ε} {n : Nat} (h : Fails (f ()) w e)
    (hn : n ≤ w.length) : Fails (atLeast e' n >>= f) w e := by
  have hrun : (Wire.atLeast e' n).run w = .ok ((), w) := if_neg (by omega)
  unfold Fails at h ⊢
  rw [StateT.run_bind, hrun]
  exact h

theorem fails_reject [Decidable c] (e : ε) (w : Bytes) (hc : c) : Fails (reject c e) w e := by
  unfold reject
  rw [if_pos hc]
  rfl

/-! ## Bytes taken -/

/-- Where the reader succeeds it takes `n` bytes and returns `a` with `P n a`. -/
def Yields (p : Reader ε α) (P : Nat → α → Prop) : Prop :=
  ∀ s a rest, p.run s = .ok (a, rest) → ∃ n, s.length = n + rest.length ∧ P n a

theorem Yields.pure {a : α} (h : P 0 a) : Yields (pure a : Reader ε α) P := by
  intro s b rest hrun
  obtain ⟨rfl, rfl⟩ := Prod.mk.inj (Except.ok.inj hrun)
  exact ⟨0, (Nat.zero_add _).symm, h⟩

theorem Yields.bind {Q : Nat → β → Prop} (hp : Yields p P)
    (hf : ∀ n a, P n a → Yields (f a) (fun m b => Q (n + m) b)) : Yields (p >>= f) Q := by
  intro s b rest hrun
  rcases run_bind_cases hrun with ⟨e, -, he⟩ | ⟨a, s', ha, hb⟩
  · exact absurd he (by simp)
  · obtain ⟨n, hn, hP⟩ := hp s a s' ha
    obtain ⟨m, hm, hQ⟩ := hf n a hP s' b rest hb
    exact ⟨n + m, by omega, hQ⟩

theorem Yields.imp {Q : Nat → α → Prop} (hp : Yields p P) (h : ∀ n a, P n a → Q n a) :
    Yields p Q := by
  intro s a rest hrun
  obtain ⟨n, hn, hP⟩ := hp s a rest hrun
  exact ⟨n, hn, h n a hP⟩

theorem Yields.map {f : α → β} {P : Nat → β → Prop} (hp : Yields p (fun n a => P n (f a))) :
    Yields (f <$> p) P := by
  rw [map_eq_pure_bind]
  exact hp.bind (fun n a h => Yields.pure h)

theorem yields_take (e : ε) (n : Nat) : Yields (take e n) (fun m _ => m = n) := by
  intro s a rest hrun
  have hrun : (if s.length < n then .error e else .ok (s.take n, s.drop n)) =
      Except.ok (a, rest) := hrun
  split_ifs at hrun with hlen
  obtain ⟨rfl, rfl⟩ := Prod.mk.inj (Except.ok.inj hrun)
  exact ⟨n, by rw [List.length_drop]; omega, rfl⟩

theorem yields_number (e : ε) (n : Nat) : Yields (number e n) (fun m _ => m = n) :=
  Yields.map (yields_take e n)

theorem yields_reject [Decidable c] (e : ε) : Yields (reject c e) (fun n _ => n = 0 ∧ ¬ c) := by
  unfold reject
  split_ifs with hc
  · intro s a rest hrun
    exact nomatch (show Except.error e = Except.ok (a, rest) from hrun)
  · exact Yields.pure ⟨rfl, hc⟩

theorem yields_atLeast (e : ε) (n : Nat) : Yields (atLeast e n) (fun m _ => m = 0) := by
  intro s a rest hrun
  have hrun : (if n > s.length then .error e else .ok ((), s)) = Except.ok (a, rest) := hrun
  split_ifs at hrun
  obtain ⟨-, rfl⟩ := Prod.mk.inj (Except.ok.inj hrun)
  exact ⟨0, (Nat.zero_add _).symm, rfl⟩

/-- The loop rule: `I k s` relates the bytes taken so far to the accumulator. -/
theorem Yields.times {body : σ → Reader ε σ} {I : Nat → σ → Prop}
    (hbody : ∀ k s, I k s → Yields (body s) (fun m t => I (k + m) t)) (n : Nat) {k : Nat} {s : σ}
    (h : I k s) : Yields (times body n s) (fun m t => I (k + m) t) := by
  induction n generalizing k s with
  | zero => exact Yields.pure h
  | succ n ih =>
      refine (hbody k s h).bind fun m t ht => ?_
      refine (ih ht).imp fun m' u hu => ?_
      rwa [Nat.add_assoc] at hu

/-! ## Two readers -/

/-- `q` accepts what `p` accepts, with the same rest, and rejects what `p` rejects for
a reason that is not excused. -/
def Follows (excused : ε → Prop) (R : α → β → Prop) (p : Reader ε α) (q : Reader ε β) : Prop :=
  ∀ s, (∀ a rest, p.run s = .ok (a, rest) → ∃ b, q.run s = .ok (b, rest) ∧ R a b) ∧
    ∀ e, p.run s = .error e → excused e ∨ ∃ e', q.run s = .error e'

variable {excused : ε → Prop}

theorem Follows.refl (p : Reader ε α) : Follows excused Eq p p :=
  fun _ => ⟨fun a _ h => ⟨a, h, rfl⟩, fun e h => Or.inr ⟨e, h⟩⟩

theorem Follows.pure {a : α} {b : β} (h : R a b) : Follows excused R (pure a) (pure b) := by
  intro s
  refine ⟨fun x rest hx => ?_, fun e he => nomatch (show Except.ok (a, s) = .error e from he)⟩
  obtain ⟨rfl, rfl⟩ := Prod.mk.inj (Except.ok.inj hx)
  exact ⟨b, rfl, h⟩

theorem Follows.bind {f : α → Reader ε γ} {g : β → Reader ε δ} (hp : Follows excused R p q)
    (hf : ∀ a b, R a b → Follows excused S (f a) (g b)) :
    Follows excused S (p >>= f) (q >>= g) := by
  intro s
  have hq (b : β) (s' : Bytes) (hb : q.run s = .ok (b, s')) : (q >>= g).run s = (g b).run s' := by
    rw [StateT.run_bind, hb]
    rfl
  refine ⟨fun c rest hc => ?_, fun e he => ?_⟩
  · rcases run_bind_cases hc with ⟨e, -, he⟩ | ⟨a, s', ha, hc⟩
    · exact absurd he (by simp)
    · obtain ⟨b, hb, hR⟩ := (hp s).1 a s' ha
      obtain ⟨d, hd, hS⟩ := (hf a b hR s').1 c rest hc
      exact ⟨d, (hq b s' hb).trans hd, hS⟩
  · rcases run_bind_cases he with ⟨e', hp', he'⟩ | ⟨a, s', ha, he⟩
    · obtain rfl := Except.error.inj he'
      rcases (hp s).2 e hp' with hex | ⟨e', he'⟩
      · exact Or.inl hex
      · refine Or.inr ⟨e', ?_⟩
        rw [StateT.run_bind, he']
        rfl
    · obtain ⟨b, hb, hR⟩ := (hp s).1 a s' ha
      refine ((hf a b hR s').2 e he).imp_right fun ⟨e', he'⟩ => ⟨e', (hq b s' hb).trans he'⟩

/-- The same step on both sides. -/
theorem Follows.step (p : Reader ε α) {f : α → Reader ε γ} {g : α → Reader ε δ}
    (hf : ∀ a, Follows excused S (f a) (g a)) : Follows excused S (p >>= f) (p >>= g) :=
  (Follows.refl p).bind (fun a _ h => h ▸ hf a)

/-- A check that only the left side makes, with an excused error. -/
theorem Follows.reject [Decidable c] (he : excused e) {f : Unit → Reader ε γ} {q : Reader ε δ}
    (hf : Follows excused S (f ()) q) : Follows excused S (reject c e >>= f) q := by
  unfold Wire.reject
  split_ifs
  · intro s
    have hrun : ((throw e : Reader ε Unit) >>= f).run s = .error e := rfl
    refine ⟨fun a rest h => absurd (hrun.symm.trans h) (by simp), fun e' h => Or.inl ?_⟩
    rwa [← Except.error.inj (hrun.symm.trans h)]
  · rwa [pure_bind]

/-- A bound that only the left side checks, where the right side needs as many bytes. -/
theorem Follows.atLeast {n : Nat} {f : Unit → Reader ε γ} {q : Reader ε δ}
    (hf : Follows excused S (f ()) q) (hq : Yields q (fun m _ => n ≤ m)) :
    Follows excused S (atLeast e n >>= f) q := by
  intro s
  by_cases hlen : n > s.length
  · have hrun : (Wire.atLeast e n >>= f).run s = .error e := by
      rw [StateT.run_bind, show (Wire.atLeast e n).run s = .error e from if_pos hlen]
      rfl
    refine ⟨fun a rest h => absurd (hrun.symm.trans h) (by simp), fun e' _ => Or.inr ?_⟩
    cases hout : q.run s with
    | error e' => exact ⟨e', rfl⟩
    | ok out =>
        obtain ⟨m, hm, hle⟩ := hq s out.1 out.2 hout
        omega
  · have hrun : (Wire.atLeast e n >>= f).run s = (f ()).run s := by
      rw [StateT.run_bind, show (Wire.atLeast e n).run s = .ok ((), s) from if_neg hlen]
      rfl
    rw [hrun]
    exact hf s

theorem Follows.times {R : σ → τ → Prop} {body : σ → Reader ε σ} {body' : τ → Reader ε τ}
    (hbody : ∀ s t, R s t → Follows excused R (body s) (body' t)) (n : Nat) {s : σ} {t : τ}
    (h : R s t) : Follows excused R (times body n s) (times body' n t) := by
  induction n generalizing s t with
  | zero => exact Follows.pure h
  | succ n ih => exact (hbody s t h).bind (fun s' t' h' => ih h')

/-- A reader that fails exactly where the middle one does may take its place. -/
theorem Follows.trans {S : β → γ → Prop} {r : Reader ε γ} (hpq : Follows excused R p q)
    (hqr : Follows (fun _ => False) S q r) :
    Follows excused (fun a c => ∃ b, R a b ∧ S b c) p r := by
  intro s
  refine ⟨fun a rest ha => ?_, fun e he => ?_⟩
  · obtain ⟨b, hb, hR⟩ := (hpq s).1 a rest ha
    obtain ⟨c, hc, hS⟩ := (hqr s).1 b rest hb
    exact ⟨c, hc, b, hR, hS⟩
  · rcases (hpq s).2 e he with hex | ⟨e', he'⟩
    · exact Or.inl hex
    · exact Or.inr (((hqr s).2 e' he').resolve_left id)

theorem Follows.weaken {S : α → β → Prop} (h : Follows excused R p q) (hRS : ∀ a b, R a b → S a b) :
    Follows excused S p q :=
  fun s => ⟨fun a rest ha => ((h s).1 a rest ha).imp fun b hb => ⟨hb.1, hRS a b hb.2⟩, (h s).2⟩

/-- Two steps over the input are followed by one. -/
theorem follows_take_add (e : ε) (m n : Nat) :
    Follows excused (fun _ _ => True) (take e m >>= fun _ => take e n) (take e (n + m)) := by
  intro s
  rw [StateT.run_bind]
  by_cases hm : s.length < m
  · rw [show (take e m).run s = .error e from if_pos hm]
    exact ⟨fun a rest h => absurd h (by simp [bind, Except.bind]),
      fun e' _ => Or.inr ⟨e, if_pos (by omega)⟩⟩
  · rw [show (take e m).run s = .ok (s.take m, s.drop m) from if_neg hm]
    show (∀ a rest, (take e n).run (s.drop m) = .ok (a, rest) → _) ∧
      ∀ e', (take e n).run (s.drop m) = .error e' → _
    by_cases hn : (s.drop m).length < n
    · rw [show (take e n).run (s.drop m) = .error e from if_pos hn]
      rw [List.length_drop] at hn
      exact ⟨fun a rest h => absurd h (by simp), fun e' _ => Or.inr ⟨e, if_pos (by omega)⟩⟩
    · rw [show (take e n).run (s.drop m) = .ok ((s.drop m).take n, (s.drop m).drop n) from
        if_neg hn]
      rw [List.length_drop] at hn
      refine ⟨fun a rest h => ⟨s.take (n + m), ?_, trivial⟩, fun e' h => absurd h (by simp)⟩
      obtain ⟨-, rfl⟩ := Prod.mk.inj (Except.ok.inj h)
      rw [List.drop_drop, Nat.add_comm m n]
      exact if_neg (by omega)

/-- A loop that reads `k` bytes a turn is followed by one step over all of them. -/
theorem follows_times_take {k : Nat} {body : σ → Reader ε σ}
    (hbody : ∀ s, Follows excused (fun _ _ => True) (body s) (take e k)) (n : Nat) (s : σ) :
    Follows excused (fun _ _ => True) (times body n s) (take e (n * k)) := by
  induction n generalizing s with
  | zero =>
      intro w
      rw [Nat.zero_mul]
      refine ⟨fun a rest h => ?_, fun e he => nomatch (show Except.ok (s, w) = .error e from he)⟩
      obtain ⟨-, rfl⟩ := Prod.mk.inj (Except.ok.inj h)
      exact ⟨[], rfl, trivial⟩
  | succ n ih =>
      rw [Nat.succ_mul]
      have hturn := (hbody s).bind (g := fun _ => take e (n * k)) (fun s' _ _ => ih s')
      exact (hturn.trans (follows_take_add e k (n * k))).weaken (fun _ _ _ => trivial)

end Wire
