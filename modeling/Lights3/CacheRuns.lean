import Lights3.MetaCache
import Lights3.Lib.GuardedFill

/-!
# Readers and writers of the metadata cache

Any interleaving of readers (a token, the authoritative read, an insert),
writers (the commit, then `invalidate`) and `clear` on one cache. The cache
refines the guarded fill protocol, so what a lookup returns is never older than
a write whose invalidation has run.
-/
namespace Lights3
open ByteString GuardedFill

/-- A validated bucket and key. -/
structure ObjKey where
  bucket : Bytes
  key : Bytes
  noNul : NoNul bucket ∧ NoNul key
  deriving DecidableEq

def ObjKey.ckey (o : ObjKey) : Bytes := Lights3.ckey o.bucket o.key

theorem ObjKey.ckey_inj {o o' : ObjKey} (h : o.ckey = o'.ckey) : o = o' := by
  obtain ⟨b, k, hn⟩ := o
  obtain ⟨b', k', hn'⟩ := o'
  obtain ⟨rfl, rfl⟩ := append_nul_inj hn.1 hn'.1 h
  rfl

/-- A reader between its token and its insert. -/
structure CacheReader (R : Type) where
  obj : ObjKey
  token : CacheToken
  got : Option R

/-- The cache, the commits so far, the readers and writers in flight, and the writers
whose invalidation has run. A writer is recorded with the number of its commit. -/
structure CacheRun (R V : Type) where
  cache : MetaCache V
  log : List (ObjKey × Option R) := []
  readers : List (CacheReader R) := []
  pending : List (ObjKey × Nat) := []
  settled : List (ObjKey × Nat) := []

inductive CacheAct (V R : Type) where
  /-- A lookup; a miss starts a reader. -/
  | lookup (o : ObjKey) (now : Nat) (valid : V → Bool)
  | tokenFor (o : ObjKey)
  /-- The authoritative read; a reader that finds nothing throws. -/
  | read (i : Nat)
  | insert (i : Nat) (now : Nat) (manifest : Bool)
  | leave (i : Nat)
  | commit (o : ObjKey) (r : Option R)
  | invalidate (j : Nat)
  | clearShard (i : Nat)

namespace CacheRun

variable {R V : Type}

/-- The effect of one action; `view` is what a reader with or without the manifest
stores of a record. -/
def step (view : Bool → R → V) (s : CacheRun R V) : CacheAct V R → CacheRun R V
  | .lookup o now valid =>
      let (hit, token, cache) := s.cache.lookup now o.bucket o.key valid
      if hit.isSome then { s with cache }
      else { s with cache, readers := s.readers ++ [⟨o, token, none⟩] }
  | .tokenFor o =>
      { s with readers := s.readers ++ [⟨o, s.cache.tokenFor o.bucket o.key, none⟩] }
  | .read i =>
      match s.readers[i]? with
      | none => s
      | some rd =>
          match recordOf s.log rd.obj with
          | none => { s with readers := s.readers.eraseIdx i }
          | some r => { s with readers := s.readers.set i { rd with got := some r } }
  | .insert i now manifest =>
      match s.readers[i]? with
      | some ⟨o, token, some r⟩ =>
          { s with
            cache := s.cache.insert now token o.bucket o.key (view manifest r)
            readers := s.readers.eraseIdx i }
      | _ => s
  | .leave i => { s with readers := s.readers.eraseIdx i }
  | .commit o r =>
      { s with log := s.log ++ [(o, r)], pending := s.pending ++ [(o, s.log.length + 1)] }
  | .invalidate j =>
      match s.pending[j]? with
      | none => s
      | some (o, t) =>
          { s with
            cache := s.cache.invalidate o.bucket o.key
            pending := s.pending.eraseIdx j
            settled := s.settled ++ [(o, t)] }
  | .clearShard i => { s with cache := s.cache.clearShard i }

def run (view : Bool → R → V) (s : CacheRun R V) (acts : List (CacheAct V R)) : CacheRun R V :=
  acts.foldl (step view) s

/-! ## Refinement of the guarded fill protocol -/

/-- What a reader looks like in the protocol: a token of another shard never fits. -/
def absReader (c₀ : MetaCache V) (rd : CacheReader R) : Reader ObjKey R :=
  ⟨rd.obj, if rd.token.shard = c₀.shardOf rd.obj.ckey then rd.token.gen else 0, rd.got⟩

/-- The state of the protocol a run of the cache stands for. -/
structure Refines (c₀ : MetaCache V) (s : CacheRun R V) (a : State ObjKey Nat R V) : Prop where
  enabled : c₀.enabled = true
  opt : s.cache.opt = c₀.opt
  hash : s.cache.hash = c₀.hash
  entry : ∀ o, a.entry o = s.cache.entry o.ckey
  gen : ∀ i, a.gen i = (s.cache.shards i).gen
  log : a.log = s.log
  readers : ∀ rd ∈ s.readers, absReader c₀ rd ∈ a.readers
  commits : ∀ (t : Nat) o r, s.log[t]? = some (o, r) → (o, t + 1) ∈ s.pending ∨ t < a.floor o
  pending : ∀ x ∈ s.pending, x.2 ≤ s.log.length
  settled : ∀ x ∈ s.settled, x.2 ≤ a.floor x.1

variable {c₀ : MetaCache V} {s : CacheRun R V} {a : State ObjKey Nat R V}

theorem Refines.shardOf (h : Refines c₀ s a) (ck : Bytes) : s.cache.shardOf ck = c₀.shardOf ck := by
  rw [MetaCache.shardOf, MetaCache.shardOf, h.opt, h.hash]

theorem Refines.cache_enabled (h : Refines c₀ s a) : s.cache.enabled = true := by
  rw [MetaCache.enabled, h.opt]
  exact h.enabled

/-- The protocol steps of a cache with the given shards and views. -/
abbrev ProtocolStep (c₀ : MetaCache V) (view : Bool → R → V) :
    State ObjKey Nat R V → State ObjKey Nat R V → Prop :=
  Step (fun o : ObjKey => c₀.shardOf o.ckey) (fun v r => ∃ m, v = view m r)

/-- Evictions are quiet steps. -/
theorem Refines.evicts (h : Refines c₀ s a) {c' : MetaCache V} (hc : s.cache.Evicts c')
    (view : Bool → R → V) :
    ∃ a', ProtocolStep c₀ view a a' ∧ Refines c₀ { s with cache := c' } a' := by
  refine ⟨_, Step.quiet (fun o => c'.entry o.ckey) a.readers ?_ (le_refl a.readers), ?_⟩
  · intro o v hv
    rw [h.entry]
    exact hc.entry _ _ hv
  · exact ⟨h.enabled, hc.opt.trans h.opt, hc.hash.trans h.hash, fun _ => rfl,
      fun i => (h.gen i).trans (hc.gen i).symm, h.log, h.readers, h.commits, h.pending, h.settled⟩

/-- Dropping keys under a new generation retires them. -/
theorem Refines.retires (h : Refines c₀ s a) (hfloor : ∀ o, a.floor o ≤ s.log.length)
    {shard : Nat} (keys : ObjKey → Bool) {ckeys : Bytes → Bool} {c' : MetaCache V}
    (hc : s.cache.Retires shard ckeys c') (hkeys : ∀ o, ckeys o.ckey = keys o)
    (hshard : ∀ o, keys o = true → c₀.shardOf o.ckey = shard) (view : Bool → R → V) :
    ∃ a', ProtocolStep c₀ view a a' ∧ Refines c₀ { s with cache := c' } a' ∧
      ∀ o, a'.floor o = if keys o then s.log.length else a.floor o := by
  have hup (o : ObjKey) : a.floor o ≤ if keys o then a.log.length else a.floor o := by
    split_ifs
    · rw [h.log]
      exact hfloor o
    · exact le_rfl
  refine ⟨_, Step.retire shard keys (fun o => c'.entry o.ckey) hshard ?_, ?_, ?_⟩
  · intro o v hv
    rw [h.entry, ← hkeys]
    exact hc.entry _ _ hv
  · refine ⟨h.enabled, hc.opt.trans h.opt, hc.hash.trans h.hash, fun _ => rfl, fun i => ?_, h.log,
      h.readers, fun t o r ht => ?_, h.pending, fun x hx => (h.settled x hx).trans (hup x.1)⟩
    · have hgen : a.gen = fun i => (s.cache.shards i).gen := funext h.gen
      show Function.update a.gen shard (a.gen shard + 1) i = (c'.shards i).gen
      rw [hc.gen, hgen]
    · exact (h.commits t o r ht).imp_right (fun hlt => lt_of_lt_of_le hlt (hup o))
  · intro o
    rw [← h.log]

/-- A token taken in the current generation or before. -/
theorem Refines.addReader (h : Refines c₀ s a) (o : ObjKey) (token : CacheToken)
    (hgen : token.gen ≤ (s.cache.shards (c₀.shardOf o.ckey)).gen) (view : Bool → R → V) :
    ∃ a', ProtocolStep c₀ view a a' ∧
      Refines c₀ { s with readers := s.readers ++ [⟨o, token, none⟩] } a' := by
  have hle : (if token.shard = c₀.shardOf o.ckey then token.gen else 0) ≤
      a.gen (c₀.shardOf o.ckey) := by
    split_ifs
    · rw [h.gen]
      exact hgen
    · exact Nat.zero_le _
  refine ⟨_, Step.token o _ hle, h.enabled, h.opt, h.hash, h.entry, h.gen, h.log, fun rd hrd => ?_,
    h.commits, h.pending, h.settled⟩
  rcases List.mem_append.mp hrd with hrd | hrd
  · exact Set.mem_insert_of_mem _ (h.readers rd hrd)
  · rw [List.mem_singleton.mp hrd]
    exact Set.mem_insert _ _

/-- Readers that leave. -/
theorem Refines.dropReaders (h : Refines c₀ s a) {readers : List (CacheReader R)}
    (hsub : ∀ rd ∈ readers, rd ∈ s.readers) : Refines c₀ { s with readers } a :=
  ⟨h.enabled, h.opt, h.hash, h.entry, h.gen, h.log, fun rd hrd => h.readers rd (hsub rd hrd),
    h.commits, h.pending, h.settled⟩

theorem decide_ckey_eq (o o' : ObjKey) : decide (o.ckey = o'.ckey) = decide (o = o') :=
  decide_eq_decide.mpr ⟨ObjKey.ckey_inj, fun h => h ▸ rfl⟩

theorem Refines.lookup (h : Refines c₀ s a) (hfloor : ∀ o, a.floor o ≤ s.log.length)
    (view : Bool → R → V) (o : ObjKey) (now : Nat) (valid : V → Bool) :
    ∃ a', Relation.ReflTransGen (ProtocolStep c₀ view) a a' ∧
      Refines c₀ (CacheRun.step view s (.lookup o now valid)) a' := by
  obtain ⟨v, hhit, -, hev⟩ | ⟨hmiss, hdrop, hgen⟩ := s.cache.lookup_cases now o.bucket o.key valid
  · obtain ⟨a', hstep, href⟩ := h.evicts hev view
    refine ⟨a', Relation.ReflTransGen.single hstep, ?_⟩
    simp only [CacheRun.step, hhit, Option.isSome_some, if_true]
    exact href
  · obtain ⟨a₁, hstep, href⟩ : ∃ a₁, ProtocolStep c₀ view a a₁ ∧
        Refines c₀ { s with cache := (s.cache.lookup now o.bucket o.key valid).2.2 } a₁ := by
      rcases hdrop with hev | hret
      · exact h.evicts hev view
      · obtain ⟨a₁, hstep, href, -⟩ := h.retires hfloor (fun o' => decide (o' = o)) hret
          (fun o' => decide_ckey_eq o' o)
          (fun o' ho' => by rw [of_decide_eq_true ho']; exact (h.shardOf o.ckey).symm) view
        exact ⟨a₁, hstep, href⟩
    have hgen' := hgen
    rw [h.shardOf] at hgen'
    obtain ⟨a₂, htok, href₂⟩ := href.addReader o _ hgen' view
    refine ⟨a₂, (Relation.ReflTransGen.single hstep).tail htok, ?_⟩
    simp only [CacheRun.step, hmiss, Option.isSome_none, Bool.false_eq_true, if_false]
    exact href₂

theorem Refines.read (h : Refines c₀ s a) (view : Bool → R → V) (i : Nat) :
    ∃ a', Relation.ReflTransGen (ProtocolStep c₀ view) a a' ∧
      Refines c₀ (CacheRun.step view s (.read i)) a' := by
  cases hrd : s.readers[i]? with
  | none =>
      simp only [CacheRun.step, hrd]
      exact ⟨a, Relation.ReflTransGen.refl, h⟩
  | some rd =>
      have hmem := List.mem_of_getElem? hrd
      cases hrec : recordOf s.log rd.obj with
      | none =>
          simp only [CacheRun.step, hrd, hrec]
          exact ⟨a, Relation.ReflTransGen.refl,
            h.dropReaders fun rd' hrd' => List.mem_of_mem_eraseIdx hrd'⟩
      | some r =>
          simp only [CacheRun.step, hrd, hrec]
          refine ⟨_, Relation.ReflTransGen.single (Step.read (absReader c₀ rd) r
            (h.readers rd hmem) (by rw [h.log]; exact hrec)), h.enabled, h.opt, h.hash, h.entry,
            h.gen, h.log, fun rd' hrd' => ?_, h.commits, h.pending, h.settled⟩
          rcases List.mem_or_eq_of_mem_set hrd' with hold | rfl
          · exact Set.mem_insert_of_mem _ (h.readers rd' hold)
          · exact Set.mem_insert _ _

theorem Refines.insert (h : Refines c₀ s a) (view : Bool → R → V) (i now : Nat) (manifest : Bool) :
    ∃ a', Relation.ReflTransGen (ProtocolStep c₀ view) a a' ∧
      Refines c₀ (CacheRun.step view s (.insert i now manifest)) a' := by
  simp only [CacheRun.step]
  split
  · rename_i o token r hrd
    have hmem := h.readers _ (List.mem_of_getElem? hrd)
    have hout (rd' : CacheReader R) (hrd' : rd' ∈ s.readers.eraseIdx i) : rd' ∈ s.readers :=
      List.mem_of_mem_eraseIdx hrd'
    obtain hsame | ⟨⟨hshard, hgen⟩, hopt, hhash, hgens, hent⟩ :=
      s.cache.insert_cases now token o.bucket o.key (view manifest r)
    · rw [hsame]
      exact ⟨a, Relation.ReflTransGen.refl, h.dropReaders hout⟩
    · have hshard' : token.shard = c₀.shardOf o.ckey := hshard.trans (h.shardOf o.ckey)
      refine ⟨_, Relation.ReflTransGen.single (Step.fill (absReader c₀ ⟨o, token, some r⟩) r
        (view manifest r)
        (fun o' => (s.cache.insert now token o.bucket o.key (view manifest r)).entry o'.ckey) hmem
        rfl ?_ ⟨manifest, rfl⟩ ?_), ?_⟩
      · show (if token.shard = c₀.shardOf o.ckey then token.gen else 0) = a.gen (c₀.shardOf o.ckey)
        rw [if_pos hshard', hgen, h.gen, ← h.shardOf]
        rfl
      · intro o' w hw
        rw [h.entry]
        exact (hent _ _ hw).imp_right (fun hnew => ⟨ObjKey.ckey_inj hnew.1, hnew.2⟩)
      · exact ⟨h.enabled, hopt.trans h.opt, hhash.trans h.hash, fun _ => rfl,
          fun j => (h.gen j).trans (hgens j).symm, h.log, fun rd' hrd' =>
            h.readers rd' (hout rd' hrd'),
          h.commits, h.pending, h.settled⟩
  · exact ⟨a, Relation.ReflTransGen.refl, h⟩

theorem Refines.commit (h : Refines c₀ s a) (view : Bool → R → V) (o : ObjKey) (r : Option R) :
    ∃ a', ProtocolStep c₀ view a a' ∧
      Refines c₀ (CacheRun.step view s (.commit o r)) a' := by
  refine ⟨_, Step.commit o r, h.enabled, h.opt, h.hash, h.entry, h.gen, ?_, h.readers,
    fun t o' r' ht => ?_, fun x hx => ?_, h.settled⟩
  · show a.log ++ [(o, r)] = s.log ++ [(o, r)]
    rw [h.log]
  · replace ht : (s.log ++ [(o, r)])[t]? = some (o', r') := ht
    show (o', t + 1) ∈ s.pending ++ [(o, s.log.length + 1)] ∨ t < a.floor o'
    rw [List.getElem?_append] at ht
    split_ifs at ht with hlt
    · exact (h.commits t o' r' ht).imp_left (List.mem_append_left _)
    · have hzero : t - s.log.length = 0 := by
        by_contra hne
        rw [List.getElem?_eq_none (by simp; omega)] at ht
        cases ht
      rw [hzero] at ht
      cases ht
      have hlen : t = s.log.length := by omega
      rw [hlen]
      exact Or.inl (List.mem_append_right _ (List.mem_singleton_self _))
  · show x.2 ≤ (s.log ++ [(o, r)]).length
    rw [List.length_append, List.length_singleton]
    rcases List.mem_append.mp hx with hx | hx
    · exact (h.pending x hx).trans (Nat.le_succ _)
    · rw [List.mem_singleton.mp hx]

theorem Refines.invalidate (h : Refines c₀ s a) (hfloor : ∀ o, a.floor o ≤ s.log.length)
    (view : Bool → R → V) (j : Nat) :
    ∃ a', Relation.ReflTransGen (ProtocolStep c₀ view) a a' ∧
      Refines c₀ (CacheRun.step view s (.invalidate j)) a' := by
  cases hp : s.pending[j]? with
  | none =>
      simp only [CacheRun.step, hp]
      exact ⟨a, Relation.ReflTransGen.refl, h⟩
  | some x =>
      obtain ⟨o, t⟩ := x
      simp only [CacheRun.step, hp]
      have hmem := List.mem_of_getElem? hp
      obtain ⟨a', hstep, href, hfl⟩ := h.retires hfloor (fun o' => decide (o' = o))
        (s.cache.invalidate_retires h.cache_enabled o.bucket o.key)
        (fun o' => decide_ckey_eq o' o)
        (fun o' ho' => by rw [of_decide_eq_true ho']; exact (h.shardOf o.ckey).symm) view
      have hself : a'.floor o = s.log.length := by simp [hfl]
      refine ⟨a', Relation.ReflTransGen.single hstep, href.enabled, href.opt, href.hash, href.entry,
        href.gen, href.log, href.readers, fun n o' r hn => ?_, fun y hy => ?_, fun y hy => ?_⟩
      · by_cases ho : o' = o
        · subst ho
          rw [hself]
          exact Or.inr (List.getElem?_eq_some_iff.mp hn).1
        · refine (href.commits n o' r hn).imp_left (fun hin => ?_)
          obtain ⟨i, hi⟩ := List.mem_iff_getElem?.mp hin
          refine List.mem_eraseIdx_iff_getElem?.mpr ⟨i, ?_, hi⟩
          rintro rfl
          rw [hp] at hi
          cases hi
          exact ho rfl
      · exact h.pending y (List.mem_of_mem_eraseIdx hy)
      · rcases List.mem_append.mp hy with hy | hy
        · exact href.settled y hy
        · rw [List.mem_singleton.mp hy, hself]
          exact h.pending _ hmem

/-- Every action of the cache is a sequence of protocol steps. -/
theorem Refines.step (h : Refines c₀ s a) (hfloor : ∀ o, a.floor o ≤ s.log.length)
    (view : Bool → R → V) (act : CacheAct V R) :
    ∃ a', Relation.ReflTransGen (ProtocolStep c₀ view) a a' ∧
      Refines c₀ (CacheRun.step view s act) a' := by
  cases act with
  | lookup o now valid => exact h.lookup hfloor view o now valid
  | tokenFor o =>
      have hgen : (s.cache.tokenFor o.bucket o.key).gen ≤
          (s.cache.shards (c₀.shardOf o.ckey)).gen := by
        rw [MetaCache.tokenFor, if_neg (by simp [h.cache_enabled]), ← h.shardOf]
        exact le_rfl
      obtain ⟨a', hstep, href⟩ := h.addReader o _ hgen view
      exact ⟨a', Relation.ReflTransGen.single hstep, href⟩
  | read i => exact h.read view i
  | insert i now manifest => exact h.insert view i now manifest
  | leave i =>
      exact ⟨a, Relation.ReflTransGen.refl, h.dropReaders fun rd hrd =>
        List.mem_of_mem_eraseIdx hrd⟩
  | commit o r =>
      obtain ⟨a', hstep, href⟩ := h.commit view o r
      exact ⟨a', Relation.ReflTransGen.single hstep, href⟩
  | invalidate j => exact h.invalidate hfloor view j
  | clearShard i =>
      obtain ⟨a', hstep, href, -⟩ := h.retires hfloor (fun o => decide (c₀.shardOf o.ckey = i))
        (s.cache.clearShard_retires h.cache_enabled i) (fun o => by rw [h.shardOf])
        (fun o ho => of_decide_eq_true ho) view
      exact ⟨a', Relation.ReflTransGen.single hstep, href⟩

/-- Every run of an enabled cache stands for a reachable state of the protocol. -/
theorem Refines.run (h : Refines c₀ s a) (view : Bool → R → V)
    (hinv : Inv (fun o : ObjKey => c₀.shardOf o.ckey) (fun v r => ∃ m, v = view m r) a)
    (acts : List (CacheAct V R)) :
    ∃ a', Inv (fun o : ObjKey => c₀.shardOf o.ckey) (fun v r => ∃ m, v = view m r) a' ∧
      Refines c₀ (CacheRun.run view s acts) a' := by
  induction acts generalizing s a with
  | nil => exact ⟨a, hinv, h⟩
  | cons act acts ih =>
      obtain ⟨a₁, hsteps, href⟩ := h.step (fun o => h.log ▸ hinv.floor_le o) view act
      exact ih href (hinv.steps hsteps)

theorem refines_initial (hen : c₀.enabled = true) (hempty : ∀ ck, c₀.entry ck = none)
    (hgen : ∀ i, (c₀.shards i).gen = 0) :
    Refines c₀ (⟨c₀, [], [], [], []⟩ : CacheRun R V) State.initial where
  enabled := hen
  opt := rfl
  hash := rfl
  entry o := (hempty o.ckey).symm
  gen i := (hgen i).symm
  log := rfl
  readers := nofun
  commits := nofun
  pending := nofun
  settled := nofun

/-- A cache without budget is never touched. -/
theorem run_disabled (view : Bool → R → V) (s : CacheRun R V) (hen : s.cache.enabled = false)
    (acts : List (CacheAct V R)) : (run view s acts).cache = s.cache := by
  induction acts generalizing s with
  | nil => rfl
  | cons act acts ih =>
      have hstep : (step view s act).cache = s.cache := by
        cases act with
        | lookup o now valid => simp [step, MetaCache.lookup, hen]
        | tokenFor o => rfl
        | read i =>
            simp only [step]
            split
            · rfl
            · split <;> rfl
        | insert i now manifest =>
            simp only [step]
            split
            · simp [MetaCache.insert, hen]
            · rfl
        | leave i => rfl
        | commit o r => rfl
        | invalidate j =>
            simp only [step]
            split
            · rfl
            · simp [MetaCache.invalidate, hen]
        | clearShard i => simp [step, MetaCache.clearShard, hen]
      show (run view (step view s act) acts).cache = _
      rw [ih _ (by rw [hstep]; exact hen), hstep]

end CacheRun

/-- Coherence of the metadata cache over all interleavings: without a writer between commit
and invalidation an entry is a view of the latest record, and a lookup never returns a view
of a record from before a write whose invalidation has run. -/
theorem metaCache_coherent {R V : Type} (opt : MetaCacheOptions) (hash : Bytes → Nat)
    (view : Bool → R → V) (acts : List (CacheAct V R)) :
    let s := CacheRun.run view ⟨MetaCache.new opt hash, [], [], [], []⟩ acts
    (∀ o v, (∀ t, (o, t) ∉ s.pending) → s.cache.entry o.ckey = some v →
      ∃ r m, recordOf s.log o = some r ∧ v = view m r) ∧
    ∀ o t, (o, t) ∈ s.settled → ∀ now valid v,
      (s.cache.lookup now o.bucket o.key valid).1 = some v →
        ∃ n r m, t ≤ n ∧ n ≤ s.log.length ∧ recordOf (s.log.take n) o = some r ∧ v = view m r := by
  intro s
  cases hen : (MetaCache.new opt hash : MetaCache V).enabled with
  | false =>
      have hcache : s.cache = MetaCache.new opt hash := CacheRun.run_disabled view _ hen acts
      refine ⟨fun o v _ hv => ?_, fun o t _ now valid v hv => ?_⟩
      · rw [hcache] at hv
        cases hv
      · rw [hcache, MetaCache.lookup, if_pos hen] at hv
        cases hv
  | true =>
      obtain ⟨a, hinv, href⟩ := (CacheRun.refines_initial hen (fun _ => rfl) (fun _ => rfl)).run
        view (inv_initial _ _) acts
      refine ⟨fun o v hpend hv => ?_, fun o t ht now valid v hv => ?_⟩
      · obtain ⟨r, hr, m, hm⟩ := hinv.entry_current ((href.entry o).trans hv) (fun t r ht => by
          rw [href.log] at ht
          exact (href.commits t o r ht).resolve_left (hpend _))
        exact ⟨r, m, href.log ▸ hr, hm⟩
      · obtain ⟨w, hw, hentry, -⟩ | ⟨hnone, -⟩ := s.cache.lookup_cases now o.bucket o.key valid
        · obtain ⟨r, ⟨n, hn, hlen, hrec⟩, m, hm⟩ := hinv.entry o w ((href.entry o).trans hentry)
          rw [href.log] at hlen hrec
          have hvw : v = w := Option.some_inj.mp (hv.symm.trans hw)
          exact ⟨n, r, m, (href.settled _ ht).trans hn, hlen, hrec, hvw.trans hm⟩
        · rw [hnone] at hv
          cases hv

example :
    let o : ObjKey := ⟨[98], [107], by simp [NoNul]⟩
    let s : CacheRun Nat Nat :=
      ⟨MetaCache.new { maxEntries := 4, shards := 2 } List.length, [], [], [], []⟩
    let fill := [.commit o (some 1), .tokenFor o, .read 0]
    (CacheRun.run (fun _ r => r) s (fill ++ [.insert 0 0 true])).cache.entry o.ckey = some 1 ∧
      (CacheRun.run (fun _ r => r) s
        (fill ++ [.commit o (some 2), .invalidate 1, .insert 0 0 true])).cache.entry o.ckey =
          none := by
  decide

end Lights3
