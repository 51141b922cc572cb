import Lights3.RocksStore

/-!
# The object metadata cache

`MetaCache` of `storage/meta_cache.h`: a sharded LRU map with a generation per
shard. Statistics are not modelled; every operation runs under the lock of its
shard and is one atomic step. The generations are unbounded here.
-/
namespace Lights3
open ByteString

/-- `MetaCacheOptions`; the time to live is in milliseconds and 0 for none. -/
structure MetaCacheOptions where
  maxEntries : Nat := 0
  ttl : Nat := 0
  shards : Nat := 64

/-- A cached value; `none` never expires. -/
structure CacheNode (V : Type) where
  value : V
  expires : Option Nat

structure CacheShard (V : Type) where
  map : SortedMap Bytes (CacheNode V) := SortedMap.empty
  /-- Most recently used first. -/
  lru : List Bytes := []
  gen : Nat := 0

/-- `Token`: obtained from a miss, consumed by an insert. -/
structure CacheToken where
  shard : Nat := 0
  gen : Nat := 0

structure MetaCache (V : Type) where
  opt : MetaCacheOptions
  /-- `std::hash` of a cache key. -/
  hash : Bytes → Nat
  shards : Nat → CacheShard V := fun _ => {}

/-- `ckey`. -/
def ckey (b k : Bytes) : Bytes := b ++ 0 :: k

namespace CacheShard

variable {V : Type}

/-- `erase_locked`. -/
def eraseLocked (s : CacheShard V) (k : Bytes) : CacheShard V :=
  { s with map := s.map.erase k, lru := s.lru.erase k }

/-- The eviction loop of `insert`; every round shortens the LRU list. -/
def evict (perShard : Nat) : Nat → CacheShard V → CacheShard V
  | 0, s => s
  | fuel + 1, s =>
      match s.lru.getLast? with
      | none => s
      | some victim =>
          if s.map.entries.length ≥ perShard then evict perShard fuel (s.eraseLocked victim) else s

/-- The locked part of `insert`. -/
def fill (s : CacheShard V) (perShard : Nat) (k : Bytes) (node : CacheNode V) : CacheShard V :=
  let s := if (s.map.get? k).isSome then s.eraseLocked k else s
  let s := evict perShard s.lru.length s
  { s with map := s.map.insert k node, lru := k :: s.lru }

end CacheShard

namespace MetaCache

variable {V : Type}

/-- The constructor: no more shards than entries, and at least one. -/
def new (opt : MetaCacheOptions) (hash : Bytes → Nat) : MetaCache V :=
  let shards := if opt.shards = 0 then 1 else opt.shards
  let shards := if 0 < opt.maxEntries ∧ opt.maxEntries < shards then opt.maxEntries else shards
  { opt := { opt with shards }, hash }

/-- The budget of one shard. -/
def perShard (c : MetaCache V) : Nat :=
  let n := c.opt.maxEntries / c.opt.shards
  if 0 < c.opt.maxEntries ∧ n = 0 then 1 else n

def enabled (c : MetaCache V) : Bool := 0 < c.opt.maxEntries

/-- `shard_of`. -/
def shardOf (c : MetaCache V) (k : Bytes) : Nat := c.hash k % c.opt.shards

/-- `expired`. -/
def expired (c : MetaCache V) (now : Nat) (n : CacheNode V) : Bool :=
  0 < c.opt.ttl && n.expires.any (· ≤ now)

def setShard (c : MetaCache V) (i : Nat) (s : CacheShard V) : MetaCache V :=
  { c with shards := Function.update c.shards i s }

/-- `lookup`: the value, or the token of a miss. -/
def lookup (c : MetaCache V) (now : Nat) (b k : Bytes) (valid : V → Bool) :
    Option V × CacheToken × MetaCache V :=
  if c.enabled = false then (none, {}, c)
  else
    let ck := ckey b k
    let si := c.shardOf ck
    let s := c.shards si
    match s.map.get? ck with
    | none => (none, ⟨si, s.gen⟩, c)
    | some n =>
        if c.expired now n then (none, ⟨si, s.gen⟩, c.setShard si (s.eraseLocked ck))
        else if valid n.value then
          (some n.value, {}, c.setShard si { s with lru := ck :: s.lru.erase ck })
        else
          (none, ⟨si, s.gen + 1⟩, c.setShard si ({ s with gen := s.gen + 1 }.eraseLocked ck))

/-- `token_for`. -/
def tokenFor (c : MetaCache V) (b k : Bytes) : CacheToken :=
  if c.enabled = false then {}
  else ⟨c.shardOf (ckey b k), (c.shards (c.shardOf (ckey b k))).gen⟩

/-- `insert`: dropped when the token is stale. -/
def insert (c : MetaCache V) (now : Nat) (tok : CacheToken) (b k : Bytes) (v : V) :
    MetaCache V :=
  if c.enabled = false then c
  else
    let ck := ckey b k
    let si := c.shardOf ck
    let s := c.shards si
    if tok.shard ≠ si ∨ tok.gen ≠ s.gen then c
    else
      let expires := if 0 < c.opt.ttl then some (now + c.opt.ttl) else none
      c.setShard si (s.fill c.perShard ck ⟨v, expires⟩)

/-- `invalidate`. -/
def invalidate (c : MetaCache V) (b k : Bytes) : MetaCache V :=
  if c.enabled = false then c
  else
    let ck := ckey b k
    let si := c.shardOf ck
    let s := { c.shards si with gen := (c.shards si).gen + 1 }
    c.setShard si (if (s.map.get? ck).isSome then s.eraseLocked ck else s)

/-- One iteration of `clear`. -/
def clearShard (c : MetaCache V) (i : Nat) : MetaCache V :=
  if c.enabled = false then c
  else c.setShard i { gen := (c.shards i).gen + 1 }

/-! ## What the operations do to entries and generations -/

/-- The value cached under a key. -/
def entry (c : MetaCache V) (ck : Bytes) : Option V :=
  ((c.shards (c.shardOf ck)).map.get? ck).map (·.value)

/-- Only entries go away. -/
structure Evicts (c c' : MetaCache V) : Prop where
  opt : c'.opt = c.opt
  hash : c'.hash = c.hash
  gen : ∀ i, (c'.shards i).gen = (c.shards i).gen
  entry : ∀ ck v, c'.entry ck = some v → c.entry ck = some v

/-- The keys are dropped and the generation of the shard moves. -/
structure Retires (c : MetaCache V) (shard : Nat) (keys : Bytes → Bool) (c' : MetaCache V) :
    Prop where
  opt : c'.opt = c.opt
  hash : c'.hash = c.hash
  gen : ∀ i, (c'.shards i).gen = Function.update (fun i => (c.shards i).gen) shard
    ((c.shards shard).gen + 1) i
  entry : ∀ ck v, c'.entry ck = some v → c.entry ck = some v ∧ keys ck = false

theorem Evicts.refl (c : MetaCache V) : c.Evicts c := ⟨rfl, rfl, fun _ => rfl, fun _ _ h => h⟩

theorem entry_setShard (c : MetaCache V) (i : Nat) (s : CacheShard V) (ck : Bytes) :
    (c.setShard i s).entry ck =
      if c.shardOf ck = i then (s.map.get? ck).map (·.value) else c.entry ck := by
  show ((Function.update c.shards i s (c.shardOf ck)).map.get? ck).map (·.value) = _
  by_cases h : c.shardOf ck = i
  · rw [h, Function.update_self, if_pos rfl]
  · rw [Function.update_of_ne h, if_neg h]
    rfl

theorem gen_setShard (c : MetaCache V) (i : Nat) (s : CacheShard V) (j : Nat) :
    ((c.setShard i s).shards j).gen =
      Function.update (fun j => (c.shards j).gen) i s.gen j := by
  show (Function.update c.shards i s j).gen = _
  by_cases h : j = i
  · rw [h, Function.update_self, Function.update_self]
  · rw [Function.update_of_ne h, Function.update_of_ne h]

variable {s : CacheShard V}

/-- A shard with fewer entries and the same generation. -/
theorem Evicts.setShard (c : MetaCache V) {i : Nat} (hgen : s.gen = (c.shards i).gen)
    (hmap : ∀ k n, s.map.get? k = some n → (c.shards i).map.get? k = some n) :
    c.Evicts (c.setShard i s) where
  opt := rfl
  hash := rfl
  gen j := by
    rw [gen_setShard, hgen, Function.update_eq_self i (fun j => (c.shards j).gen)]
  entry ck v h := by
    rw [entry_setShard] at h
    split_ifs at h with hi
    · obtain ⟨n, hn, rfl⟩ := Option.map_eq_some_iff.mp h
      rw [MetaCache.entry, hi, hmap ck n hn]
      rfl
    · exact h

/-- A shard without the keys and with the next generation. -/
theorem Retires.setShard (c : MetaCache V) {i : Nat} {keys : Bytes → Bool}
    (hgen : s.gen = (c.shards i).gen + 1) (hkeys : ∀ k, keys k = true → c.shardOf k = i)
    (hmap : ∀ k n, s.map.get? k = some n → (c.shards i).map.get? k = some n ∧ keys k = false) :
    c.Retires i keys (c.setShard i s) where
  opt := rfl
  hash := rfl
  gen j := by rw [gen_setShard, hgen]
  entry ck v h := by
    rw [entry_setShard] at h
    split_ifs at h with hi
    · obtain ⟨n, hn, rfl⟩ := Option.map_eq_some_iff.mp h
      obtain ⟨hold, hk⟩ := hmap ck n hn
      rw [MetaCache.entry, hi, hold]
      exact ⟨rfl, hk⟩
    · refine ⟨h, ?_⟩
      cases hk : keys ck with
      | false => rfl
      | true => exact absurd (hkeys ck hk) hi

theorem get?_eraseLocked {k j : Bytes} {n : CacheNode V}
    (h : (s.eraseLocked k).map.get? j = some n) : s.map.get? j = some n ∧ j ≠ k :=
  (SortedMap.get?_erase_some h).symm

theorem get?_evict {perShard fuel : Nat} {j : Bytes} {n : CacheNode V}
    (h : (CacheShard.evict perShard fuel s).map.get? j = some n) : s.map.get? j = some n := by
  induction fuel generalizing s with
  | zero => exact h
  | succ fuel ih =>
      unfold CacheShard.evict at h
      split at h
      · exact h
      · split_ifs at h
        · exact (get?_eraseLocked (ih h)).1
        · exact h

theorem gen_evict (perShard fuel : Nat) (s : CacheShard V) :
    (CacheShard.evict perShard fuel s).gen = s.gen := by
  induction fuel generalizing s with
  | zero => rfl
  | succ fuel ih =>
      unfold CacheShard.evict
      split
      · rfl
      · split_ifs
        · exact ih _
        · rfl

/-- A lookup returns the entry, or drops it and gives the current token. -/
theorem lookup_cases (c : MetaCache V) (now : Nat) (b k : Bytes) (valid : V → Bool) :
    (∃ v, (c.lookup now b k valid).1 = some v ∧ c.entry (ckey b k) = some v ∧
        c.Evicts (c.lookup now b k valid).2.2) ∨
      (c.lookup now b k valid).1 = none ∧
        (c.Evicts (c.lookup now b k valid).2.2 ∨
          c.Retires (c.shardOf (ckey b k)) (fun ck => decide (ck = ckey b k))
            (c.lookup now b k valid).2.2) ∧
        (c.lookup now b k valid).2.1.gen ≤
          ((c.lookup now b k valid).2.2.shards (c.shardOf (ckey b k))).gen := by
  unfold lookup
  by_cases hen : c.enabled = false
  · rw [if_pos hen]
    exact Or.inr ⟨rfl, Or.inl (Evicts.refl c), Nat.zero_le _⟩
  · rw [if_neg hen]
    dsimp only
    cases hget : (c.shards (c.shardOf (ckey b k))).map.get? (ckey b k) with
    | none => exact Or.inr ⟨rfl, Or.inl (Evicts.refl c), le_rfl⟩
    | some n =>
        dsimp only
        split_ifs with hexp hval
        · refine Or.inr ⟨rfl, Or.inl (Evicts.setShard c rfl fun j m hj =>
            (get?_eraseLocked hj).1), ?_⟩
          rw [gen_setShard, Function.update_self]
          exact le_rfl
        · refine Or.inl ⟨n.value, rfl, ?_, Evicts.setShard c rfl (fun j m hj => hj)⟩
          rw [entry, hget]
          rfl
        · refine Or.inr ⟨rfl, Or.inr (Retires.setShard c rfl ?_ fun j m hj => ?_), ?_⟩
          · intro j hj
            rw [of_decide_eq_true hj]
          · obtain ⟨hold, hne⟩ := get?_eraseLocked hj
            exact ⟨hold, decide_eq_false hne⟩
          · rw [gen_setShard, Function.update_self]
            exact le_rfl

/-- An insert with a stale token does nothing; otherwise it adds the entry and may
evict others. -/
theorem insert_cases (c : MetaCache V) (now : Nat) (tok : CacheToken) (b k : Bytes) (v : V) :
    c.insert now tok b k v = c ∨
      (tok.shard = c.shardOf (ckey b k) ∧ tok.gen = (c.shards (c.shardOf (ckey b k))).gen) ∧
        (c.insert now tok b k v).opt = c.opt ∧ (c.insert now tok b k v).hash = c.hash ∧
        (∀ i, ((c.insert now tok b k v).shards i).gen = (c.shards i).gen) ∧
        ∀ ck w, (c.insert now tok b k v).entry ck = some w →
          c.entry ck = some w ∨ ck = ckey b k ∧ w = v := by
  unfold insert
  by_cases hen : c.enabled = false
  · rw [if_pos hen]
    exact Or.inl rfl
  · rw [if_neg hen]
    generalize (if 0 < c.opt.ttl then some (now + c.opt.ttl) else none) = expires
    dsimp only
    split_ifs with htok
    · exact Or.inl rfl
    · simp only [ne_eq, not_or, not_not] at htok
      refine Or.inr ⟨htok, rfl, rfl, fun i => ?_, fun ck w hw => ?_⟩
      · have hgen (s : CacheShard V) (per : Nat) (ck : Bytes) (node : CacheNode V) :
            (s.fill per ck node).gen = s.gen := by
          unfold CacheShard.fill
          dsimp only
          rw [gen_evict]
          split_ifs <;> rfl
        rw [gen_setShard, hgen, Function.update_eq_self _ (fun j => (c.shards j).gen)]
      · rw [entry_setShard] at hw
        split_ifs at hw with hi
        · obtain ⟨n, hn, rfl⟩ := Option.map_eq_some_iff.mp hw
          unfold CacheShard.fill at hn
          dsimp only at hn
          rw [SortedMap.get?_insert] at hn
          split_ifs at hn with hck hsome
          · cases hn
            exact Or.inr ⟨hck, rfl⟩
          · left
            rw [entry, hi, (get?_eraseLocked (get?_evict hn)).1]
            rfl
          · left
            rw [entry, hi, get?_evict hn]
            rfl
        · exact Or.inl hw

theorem invalidate_retires (c : MetaCache V) (hen : c.enabled = true) (b k : Bytes) :
    c.Retires (c.shardOf (ckey b k)) (fun ck => decide (ck = ckey b k)) (c.invalidate b k) := by
  unfold invalidate
  rw [if_neg (by simp [hen])]
  refine Retires.setShard c ?_ (fun j hj => by rw [of_decide_eq_true hj]) (fun j m hj => ?_)
  · split_ifs <;> rfl
  · split_ifs at hj with hsome
    · obtain ⟨hold, hne⟩ := get?_eraseLocked hj
      exact ⟨hold, decide_eq_false hne⟩
    · refine ⟨hj, decide_eq_false ?_⟩
      rintro rfl
      exact hsome (Option.isSome_iff_exists.mpr ⟨m, hj⟩)

theorem clearShard_retires (c : MetaCache V) (hen : c.enabled = true) (i : Nat) :
    c.Retires i (fun ck => decide (c.shardOf ck = i)) (c.clearShard i) := by
  unfold clearShard
  rw [if_neg (by simp [hen])]
  refine Retires.setShard c rfl (fun j hj => of_decide_eq_true hj) (fun j m hj => ?_)
  cases hj

end MetaCache

end Lights3
