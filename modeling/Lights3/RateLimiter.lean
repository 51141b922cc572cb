import Mathlib.Tactic

/-!
# The rate limiter

`RateLimiter` of `s3/ratelimit.h`. A step is one call of `admit`, which holds the mutex throughout,
or one release of a token, which only decrements the counter of its entry. Entries and nodes of the
LRU list have addresses that are never given out twice. An empty key is admitted without accounting.
-/
namespace Lights3

/-- The operations of `double` that the token bucket uses. -/
structure BucketArithmetic (R : Type) where
  ofInt : Int → R
  add : R → R → R
  sub : R → R → R
  mul : R → R → R
  lt : R → R → Bool
  /-- A duration of the clock in seconds. -/
  seconds : Int → R

/-- `RateLimiter::Limits`. -/
structure RateLimits where
  rps : Int32 := 0
  burst : Int32 := 0
  maxInflight : Int32 := 0

def RateLimits.any (l : RateLimits) : Bool := decide (l.rps > 0 ∨ l.maxInflight > 0)

/-- What identifies an entry: its address, its key and the position of its node in the LRU list. -/
structure EntryPlace where
  addr : Nat
  key : String
  lru : Nat

/-- `RateLimiter::Entry`. -/
structure LimiterEntry (R : Type) extends EntryPlace where
  tokens : R
  last : Int
  inflight : Int32 := 0

/-- A node of `lru_`. -/
structure LruNode where
  id : Nat
  key : String
  deriving DecidableEq

/-- The node that an entry should point at. -/
def EntryPlace.node (p : EntryPlace) : LruNode := ⟨p.lru, p.key⟩

/-- `RateLimiter::Token`, with the key it was asked for; without an entry it holds no slot. -/
structure LimiterToken where
  key : String
  entry : Option Nat
  deriving DecidableEq

/-- The table, the LRU list with the most recently used key first, and the tokens that are not
released. -/
structure LimiterState (R : Type) where
  table : List (LimiterEntry R) := []
  lru : List LruNode := []
  next : Nat := 0
  outstanding : List LimiterToken := []

structure RateLimiter where
  limits : RateLimits
  maxTracked : Nat

/-- The constructor. -/
def RateLimiter.make (limits : RateLimits) (maxTracked : Nat) : RateLimiter where
  limits := if limits.burst ≤ 0 then { limits with burst := limits.rps } else limits
  maxTracked := max 1 maxTracked

namespace LimiterState

variable {R : Type} (s : LimiterState R)

def places : List EntryPlace := s.table.map (·.toEntryPlace)

def find? (key : String) : Option (LimiterEntry R) := s.table.find? (·.key = key)

/-- Writes an entry's fields in place. -/
def update (e : LimiterEntry R) : LimiterState R :=
  { s with table := s.table.map fun x => if x.addr = e.addr then e else x }

/-- `lru_.splice(lru_.begin(), lru_, position)`. -/
def splice (position : Nat) : LimiterState R :=
  match s.lru.find? (·.id = position) with
  | none => s
  | some n => { s with lru := n :: s.lru.erase n }

/-- The new entry of `admit` and its node. -/
def insert (key : String) (tokens : R) (now : Int) : LimiterState R × LimiterEntry R :=
  let fresh : LimiterEntry R := { addr := s.next, key, lru := s.next, tokens, last := now }
  ({ s with table := s.table ++ [fresh], lru := ⟨s.next, key⟩ :: s.lru, next := s.next + 1 }, fresh)

/-- The inner loop of `evict_locked`, from the end of the list: the first key with nothing in
flight. -/
def victim : Option LruNode :=
  s.lru.reverse.find? fun n => (s.find? n.key).any (·.inflight = 0)

/-- `table_.erase` and `lru_.erase`. -/
def drop (n : LruNode) : LimiterState R :=
  { s with table := s.table.filter (·.key ≠ n.key), lru := s.lru.filter (·.id ≠ n.id) }

variable {s}

theorem victim_eq_some {n : LruNode} (h : s.victim = some n) :
    n ∈ s.lru ∧ ∃ e, s.find? n.key = some e ∧ e.inflight = 0 := by
  have hidle := List.find?_some h
  rw [Option.any_eq_true] at hidle
  obtain ⟨e, he, hzero⟩ := hidle
  exact ⟨List.mem_reverse.mp (List.mem_of_find?_eq_some h), e, he, of_decide_eq_true hzero⟩

theorem drop_lru_length {n : LruNode} (h : n ∈ s.lru) : (s.drop n).lru.length < s.lru.length := by
  refine List.length_filter_lt_length_iff_exists.mpr ⟨n, h, ?_⟩
  simp

end LimiterState

/-- `Token::reset`: the counter of the entry goes down, without the lock. -/
def LimiterState.release {R : Type} (s : LimiterState R) (t : LimiterToken) : LimiterState R :=
  { s with
    table := s.table.map fun e =>
      if t.entry = some e.addr then { e with inflight := e.inflight - 1 } else e
    outstanding := s.outstanding.erase t }

inductive LimiterEvent where
  | admitKey (key : String) (now : Int)
  | release (t : LimiterToken)

namespace RateLimiter

variable {R : Type} (rl : RateLimiter) (F : BucketArithmetic R)

def enabled : Bool := rl.limits.any

/-- `evict_locked`. -/
def evictLocked (s : LimiterState R) : LimiterState R :=
  if rl.maxTracked ≤ s.table.length then
    match h : s.victim with
    | none => s
    | some n =>
        have : (s.drop n).lru.length < s.lru.length :=
          LimiterState.drop_lru_length (LimiterState.victim_eq_some h).1
        evictLocked (s.drop n)
  else s
termination_by s.lru.length

/-- The entry of the key, made if there is none, and moved to the front of the LRU list. -/
def locate (s : LimiterState R) (key : String) (now : Int) : LimiterState R × LimiterEntry R :=
  match s.find? key with
  | none => (if rl.maxTracked ≤ s.table.length then rl.evictLocked s else s).insert key
    (F.ofInt rl.limits.burst.toInt) now
  | some e => (s.splice e.lru, e)

/-- The bucket fills up with the time that has passed. -/
def refill (e : LimiterEntry R) (now : Int) : LimiterEntry R :=
  let dt := F.seconds (now - e.last)
  if rl.limits.rps > 0 ∧ F.lt (F.ofInt 0) dt then
    let filled := F.add e.tokens (F.mul dt (F.ofInt rl.limits.rps.toInt))
    let burst := F.ofInt rl.limits.burst.toInt
    { e with tokens := if F.lt filled burst then filled else burst, last := now }
  else e

/-- The rest of `admit`, on the entry of the key. -/
def enter (s : LimiterState R) (e : LimiterEntry R) : LimiterState R × Option LimiterToken :=
  if rl.limits.rps > 0 ∧ F.lt e.tokens (F.ofInt 1) then (s.update e, none)
  else if rl.limits.maxInflight > 0 ∧ rl.limits.maxInflight ≤ e.inflight then (s.update e, none)
  else
    let tokens := if rl.limits.rps > 0 then F.sub e.tokens (F.ofInt 1) else e.tokens
    (s.update { e with tokens, inflight := e.inflight + 1 }, some ⟨e.key, some e.addr⟩)

/-- `admit`. -/
def admitKey (s : LimiterState R) (key : String) (now : Int) :
    LimiterState R × Option LimiterToken :=
  if !rl.enabled || key.isEmpty then (s, some ⟨key, none⟩)
  else
    let (s, e) := rl.locate F s key now
    rl.enter F s (rl.refill F e now)

/-- A caller keeps the token it gets and releases only a token it has. -/
def step (s : LimiterState R) : LimiterEvent → LimiterState R
  | .admitKey key now =>
      let (s, t) := rl.admitKey F s key now
      { s with outstanding := t.toList ++ s.outstanding }
  | .release t => if t ∈ s.outstanding then s.release t else s

end RateLimiter

/-! ## The table and the LRU list -/

/-- The table's keys are the keys of the list, each once, and each entry points at its node. -/
structure Linked (places : List EntryPlace) (lru : List LruNode) (next : Nat) : Prop where
  keys : (places.map (·.key)).Nodup
  addrs : (places.map (·.addr)).Nodup
  positions : (places.map (·.lru)).Nodup
  nodes : lru.Perm (places.map (·.node))
  given : ∀ p ∈ places, p.addr < next ∧ p.lru < next

namespace Linked

variable {places : List EntryPlace} {lru : List LruNode} {next : Nat}

theorem insert (h : Linked places lru next) {key : String} (hnew : ∀ p ∈ places, p.key ≠ key) :
    Linked (places ++ [⟨next, key, next⟩]) (⟨next, key⟩ :: lru) (next + 1) where
  keys := by
    rw [List.map_append, List.nodup_append]
    refine ⟨h.keys, List.nodup_singleton _, fun k hk k' hk' => ?_⟩
    obtain ⟨p, hp, rfl⟩ := List.mem_map.mp hk
    exact List.mem_singleton.mp hk' ▸ hnew p hp
  addrs := by
    rw [List.map_append, List.nodup_append]
    refine ⟨h.addrs, List.nodup_singleton _, fun a ha a' ha' => ?_⟩
    obtain ⟨p, hp, rfl⟩ := List.mem_map.mp ha
    exact List.mem_singleton.mp ha' ▸ (h.given p hp).1.ne
  positions := by
    rw [List.map_append, List.nodup_append]
    refine ⟨h.positions, List.nodup_singleton _, fun a ha a' ha' => ?_⟩
    obtain ⟨p, hp, rfl⟩ := List.mem_map.mp ha
    exact List.mem_singleton.mp ha' ▸ (h.given p hp).2.ne
  nodes := by
    rw [List.map_append]
    exact (h.nodes.cons _).trans (List.perm_append_singleton _ _).symm
  given := by
    intro p hp
    rcases List.mem_append.mp hp with hp | hp
    · have := h.given p hp
      omega
    · rw [List.mem_singleton.mp hp]
      simp

theorem perm (h : Linked places lru next) {lru' : List LruNode} (hperm : lru'.Perm lru) :
    Linked places lru' next :=
  { h with nodes := hperm.trans h.nodes }

/-- The entry of a node's key is the one that points at it, so both can be erased. -/
theorem drop (h : Linked places lru next) {n : LruNode} (hn : n ∈ lru) :
    Linked (places.filter (·.key ≠ n.key)) (lru.filter (·.id ≠ n.id)) next where
  keys := h.keys.sublist (List.filter_sublist.map _)
  addrs := h.addrs.sublist (List.filter_sublist.map _)
  positions := h.positions.sublist (List.filter_sublist.map _)
  nodes := by
    obtain ⟨p, hp, rfl⟩ := List.mem_map.mp (h.nodes.mem_iff.mp hn)
    have hsame : ∀ q ∈ places, (q.lru ≠ p.lru ↔ q.key ≠ p.key) := fun q hq =>
      not_congr ⟨fun he => congrArg _ (List.inj_on_of_nodup_map h.positions hq hp he),
        fun he => congrArg _ (List.inj_on_of_nodup_map h.keys hq hp he)⟩
    have hfilter : places.filter (·.key ≠ p.key) = places.filter (·.lru ≠ p.lru) :=
      List.filter_congr fun q hq => by rw [decide_eq_decide, hsame q hq]
    have hmap := h.nodes.filter (·.id ≠ p.lru)
    rw [List.filter_map] at hmap
    exact hfilter ▸ hmap
  given := fun p hp => h.given p (List.mem_of_mem_filter hp)

end Linked

namespace LimiterState

variable {R : Type} {s : LimiterState R} {e : LimiterEntry R}

theorem find?_eq_some {key : String} (h : s.find? key = some e) : e ∈ s.table ∧ e.key = key := by
  have hkey := List.find?_some h
  exact ⟨List.mem_of_find?_eq_some h, of_decide_eq_true hkey⟩

theorem ne_of_find?_eq_none {key : String} (h : s.find? key = none) :
    ∀ x ∈ s.table, x.key ≠ key := fun x hx =>
  of_decide_eq_false (Bool.eq_false_iff.mpr (List.find?_eq_none.mp h x hx))

theorem splice_perm (s : LimiterState R) (position : Nat) : (s.splice position).lru.Perm s.lru := by
  unfold splice
  split
  · exact .refl _
  next n hn => exact (List.perm_cons_erase (List.mem_of_find?_eq_some hn)).symm

@[simp] theorem splice_table (position : Nat) : (s.splice position).table = s.table := by
  unfold splice
  split <;> rfl

@[simp] theorem splice_outstanding (position : Nat) :
    (s.splice position).outstanding = s.outstanding := by
  unfold splice
  split <;> rfl

@[simp] theorem splice_next (position : Nat) : (s.splice position).next = s.next := by
  unfold splice
  split <;> rfl

end LimiterState

/-! ## Tokens and counters -/

/-- The number of tokens that hold a slot of the entry. -/
def LimiterState.holding {R : Type} (s : LimiterState R) (addr : Nat) : Nat :=
  s.outstanding.countP (·.entry = some addr)

/-- The counters count the tokens in 32 bits, tokens point at entries of the table and keep to the
limit, and under a limit only tokens of the empty key have no entry. -/
structure LimiterState.Sound {R : Type} (maxInflight : Int32) (s : LimiterState R) : Prop where
  linked : Linked s.places s.lru s.next
  counted : ∀ e ∈ s.table, e.inflight = .ofNat (s.holding e.addr)
  live : ∀ t ∈ s.outstanding, ∀ a, t.entry = some a → ∃ e ∈ s.table, e.addr = a ∧ e.key = t.key
  capped : 0 < maxInflight → ∀ e ∈ s.table, (s.holding e.addr : Int) ≤ maxInflight.toInt
  accounted : 0 < maxInflight → ∀ t ∈ s.outstanding, t.key ≠ "" → t.entry.isSome
  named : ∀ e ∈ s.table, e.key ≠ ""

/-- No counter has gone all the way round. -/
def LimiterState.Exact {R : Type} (s : LimiterState R) : Prop :=
  ∀ e ∈ s.table, s.holding e.addr < 2 ^ 32

namespace LimiterState.Sound

variable {R : Type} {s : LimiterState R} {m : Int32}

theorem initial (m : Int32) : ({} : LimiterState R).Sound m where
  linked := ⟨List.nodup_nil, List.nodup_nil, List.nodup_nil, .nil, by simp [places]⟩
  counted := by simp
  live := by simp
  capped := by simp
  accounted := by simp
  named := by simp

theorem eq_of_key (h : s.Sound m) {e e' : LimiterEntry R} (he : e ∈ s.table) (he' : e' ∈ s.table)
    (hkey : e.key = e'.key) : e = e' := by
  have hnodup := h.linked.keys
  rw [places, List.map_map] at hnodup
  exact List.inj_on_of_nodup_map hnodup he he' hkey

theorem eq_of_addr (h : s.Sound m) {e e' : LimiterEntry R} (he : e ∈ s.table) (he' : e' ∈ s.table)
    (haddr : e.addr = e'.addr) : e = e' := by
  have hnodup := h.linked.addrs
  rw [places, List.map_map] at hnodup
  exact List.inj_on_of_nodup_map hnodup he he' haddr

theorem holding_pos (s : LimiterState R) (a : Nat) :
    (∃ t ∈ s.outstanding, t.entry = some a) ↔ s.holding a ≠ 0 := by
  rw [← Nat.pos_iff_ne_zero, holding, List.countP_pos_iff]
  simp only [decide_eq_true_eq]

theorem inflight_toInt (h : s.Sound m) (hm : 0 < m) {e : LimiterEntry R} (he : e ∈ s.table) :
    e.inflight.toInt = s.holding e.addr := by
  have hcap := h.capped hm e he
  have hlt := m.toInt_lt
  rw [h.counted e he, Int32.toInt_ofNat_of_lt (by omega)]

theorem exact_of_cap (h : s.Sound m) (hm : 0 < m) : s.Exact := fun e he => by
  have hcap := h.capped hm e he
  have hlt := m.toInt_lt
  omega

theorem holding_eq_zero (h : s.Sound m) (hx : s.Exact) {e : LimiterEntry R} (he : e ∈ s.table)
    (hzero : e.inflight = 0) : s.holding e.addr = 0 := by
  have hbits := congrArg (fun n : Int32 => n.toBitVec.toNat) ((h.counted e he).symm.trans hzero)
  have hlt := hx e he
  have hmod : s.holding e.addr % 4294967296 = 0 := by simpa using hbits
  omega

/-- The tokens of a key are those of its entry. -/
theorem outstanding_le (h : s.Sound m) (hm : 0 < m) {key : String} (hkey : key ≠ "") :
    (s.outstanding.countP (·.key = key) : Int) ≤ m.toInt := by
  have hentry : ∀ t ∈ s.outstanding, t.key = key →
      ∃ e ∈ s.table, t.entry = some e.addr ∧ e.key = key := by
    rintro t ht rfl
    obtain ⟨a, ha⟩ := Option.isSome_iff_exists.mp (h.accounted hm t ht hkey)
    obtain ⟨e, he, rfl, hsame⟩ := h.live t ht a ha
    exact ⟨e, he, ha, hsame⟩
  by_cases hany : ∃ e ∈ s.table, e.key = key
  · obtain ⟨e, he, rfl⟩ := hany
    have hle : s.outstanding.countP (·.key = e.key) ≤ s.holding e.addr := by
      refine List.countP_mono_left fun t ht hkey => ?_
      obtain ⟨e', he', ha, hsame⟩ := hentry t ht (of_decide_eq_true hkey)
      rw [ha, h.eq_of_key he' he hsame, decide_eq_true_eq]
    have hcap := h.capped hm e he
    omega
  · have hzero : s.outstanding.countP (·.key = key) = 0 := by
      rw [List.countP_eq_zero]
      intro t ht hkey
      obtain ⟨e, he, -, hsame⟩ := hentry t ht (of_decide_eq_true hkey)
      exact hany ⟨e, he, hsame⟩
    rw [hzero]
    exact (Int32.lt_iff_toInt_lt.mp hm).le

theorem splice (h : s.Sound m) (position : Nat) : (s.splice position).Sound m where
  linked := by
    rw [places, splice_table, splice_next]
    exact h.linked.perm (s.splice_perm position)
  counted := by simpa [holding] using h.counted
  live := by simpa using h.live
  capped := by simpa [holding] using h.capped
  accounted := by simpa using h.accounted
  named := by simpa using h.named

/-- No token points at an address that is given out only now. -/
theorem holding_next (h : s.Sound m) : s.holding s.next = 0 := by
  rw [holding, List.countP_eq_zero]
  intro t ht hentry
  obtain ⟨e', he', haddr, -⟩ := h.live t ht s.next (of_decide_eq_true hentry)
  exact absurd (h.linked.given _ (List.mem_map_of_mem he')).1 (by simp [haddr])

theorem insert (h : s.Sound m) {key : String} (hkey : key ≠ "") (hnew : ∀ e ∈ s.table, e.key ≠ key)
    (tokens : R) (now : Int) : (s.insert key tokens now).1.Sound m where
  linked := by
    have hplaces : (s.insert key tokens now).1.places = s.places ++ [⟨s.next, key, s.next⟩] := by
      simp [LimiterState.insert, places]
    rw [hplaces]
    refine h.linked.insert fun p hp => ?_
    obtain ⟨e, he, rfl⟩ := List.mem_map.mp hp
    exact hnew e he
  counted := by
    intro e he
    rcases List.mem_append.mp he with he | he
    · exact h.counted e he
    · rw [List.mem_singleton.mp he]
      exact (congrArg Int32.ofNat h.holding_next).symm
  live := fun t ht a ha =>
    let ⟨e, he, hplace⟩ := h.live t ht a ha
    ⟨e, List.mem_append_left _ he, hplace⟩
  capped := by
    intro hm e he
    rcases List.mem_append.mp he with he | he
    · exact h.capped hm e he
    · rw [List.mem_singleton.mp he]
      exact (congrArg Nat.cast h.holding_next).trans_le (Int32.lt_iff_toInt_lt.mp hm).le
  accounted := h.accounted
  named := by
    intro e he
    rcases List.mem_append.mp he with he | he
    · exact h.named e he
    · exact List.mem_singleton.mp he ▸ hkey

theorem drop (h : s.Sound m) (hx : s.Exact) {n : LruNode} (hn : s.victim = some n) :
    (s.drop n).Sound m := by
  obtain ⟨hmem, e, hfind, hzero⟩ := victim_eq_some hn
  obtain ⟨he, hkey⟩ := find?_eq_some hfind
  have hplaces : (s.drop n).places = s.places.filter (·.key ≠ n.key) := by
    rw [places, places, List.filter_map]
    rfl
  constructor
  · rw [hplaces]
    exact h.linked.drop hmem
  · exact fun x hx => h.counted x (List.mem_of_mem_filter hx)
  · intro t ht a ha
    obtain ⟨x, hmem, haddr, hxkey⟩ := h.live t ht a ha
    refine ⟨x, List.mem_filter.mpr ⟨hmem, ?_⟩, haddr, hxkey⟩
    -- The victim's counter is zero, so the token's entry is another one.
    rw [decide_eq_true_eq]
    rintro hxn
    have hxe := h.eq_of_key hmem he (hxn.trans hkey.symm)
    exact (holding_pos s e.addr).mp ⟨t, ht, by rw [ha, ← haddr, hxe]⟩
      (h.holding_eq_zero hx he hzero)
  · exact fun hm x hx => h.capped hm x (List.mem_of_mem_filter hx)
  · exact h.accounted
  · exact fun x hx => h.named x (List.mem_of_mem_filter hx)

theorem release (h : s.Sound m) {t : LimiterToken} (ht : t ∈ s.outstanding) :
    (s.release t).Sound m := by
  have hplaces : (s.release t).places = s.places := by
    simp only [places, LimiterState.release, List.map_map]
    refine List.map_congr_left fun e _ => ?_
    simp only [Function.comp_apply]
    split <;> rfl
  have hcount : ∀ a, s.holding a = (s.release t).holding a + if t.entry = some a then 1 else 0 := by
    intro a
    have herase := List.countP_erase (fun t : LimiterToken => t.entry = some a) s.outstanding t
    rw [holding, holding, LimiterState.release, herase]
    by_cases ha : t.entry = some a
    · have hpos : 0 < s.outstanding.countP (fun t => t.entry = some a) :=
        List.countP_pos_iff.mpr ⟨t, ht, by simpa using ha⟩
      simp only [ht, ha, decide_true, and_self, if_true]
      omega
    · simp [ha]
  constructor
  · rw [hplaces]
    exact h.linked
  · intro e he
    obtain ⟨x, hx, rfl⟩ := List.mem_map.mp he
    have hold := h.counted x hx
    rw [hcount] at hold
    split
    next hentry =>
      rw [if_pos hentry, Int32.ofNat_add] at hold
      simp only [hold]
      exact Int32.add_sub_cancel _ _
    next hentry => rw [hold, if_neg hentry, Nat.add_zero]
  · intro u hu a ha
    obtain ⟨x, hx, haddr, hkey⟩ := h.live u (List.mem_of_mem_erase hu) a ha
    refine ⟨_, List.mem_map_of_mem hx, ?_⟩
    split <;> exact ⟨haddr, hkey⟩
  · intro hm e he
    obtain ⟨x, hx, rfl⟩ := List.mem_map.mp he
    have hold := h.capped hm x hx
    rw [hcount] at hold
    split <;> exact le_trans (Int.ofNat_le.mpr (Nat.le_add_right _ _)) hold
  · exact fun hm u hu => h.accounted hm u (List.mem_of_mem_erase hu)
  · intro e he
    obtain ⟨x, hx, rfl⟩ := List.mem_map.mp he
    split <;> exact h.named x hx

end LimiterState.Sound

/-! ## Eviction -/

/-- What making room does: it only erases entries with nothing in flight, and stops when there is
none left. -/
structure MakesRoom {R : Type} (m : Int32) (maxTracked : Nat) (s s' : LimiterState R) : Prop where
  sound : s'.Sound m
  outstanding : s'.outstanding = s.outstanding
  kept : ∀ e ∈ s'.table, e ∈ s.table
  erased : ∀ e ∈ s.table, e ∉ s'.table → e.inflight = 0
  full : maxTracked ≤ s'.table.length → ∀ e ∈ s'.table, e.inflight ≠ 0

namespace RateLimiter

variable {R : Type} (rl : RateLimiter) (F : BucketArithmetic R) {s : LimiterState R} {m : Int32}

theorem evictLocked_makesRoom (s : LimiterState R) (h : s.Sound m) (hx : s.Exact) :
    MakesRoom m rl.maxTracked s (rl.evictLocked s) := by
  fun_induction rl.evictLocked s with
  | case1 s _ hnone =>
      refine ⟨h, rfl, fun _ he => he, fun e he hnot => absurd he hnot, fun _ e he hzero => ?_⟩
      -- An idle entry's node would have been found.
      have hnode : e.node ∈ s.lru :=
        h.linked.nodes.mem_iff.mpr (List.mem_map_of_mem (List.mem_map_of_mem he))
      refine List.find?_eq_none.mp hnone _ (List.mem_reverse.mpr hnode) ?_
      cases hfind : s.find? e.key with
      | none => exact absurd rfl (LimiterState.ne_of_find?_eq_none hfind e he)
      | some e' =>
          obtain ⟨he', hkey⟩ := LimiterState.find?_eq_some hfind
          rw [show e.node.key = e.key from rfl, hfind, Option.any_some, h.eq_of_key he' he hkey]
          exact decide_eq_true hzero
  | case2 s _ n hn _ ih =>
      obtain ⟨-, e, hfind, hzero⟩ := LimiterState.victim_eq_some hn
      obtain ⟨he, hkey⟩ := LimiterState.find?_eq_some hfind
      have hrest := ih (h.drop hx hn) fun x hmem => hx x (List.mem_of_mem_filter hmem)
      refine ⟨hrest.sound, hrest.outstanding, fun x hx => List.mem_of_mem_filter (hrest.kept x hx),
        fun x hx hnot => ?_, hrest.full⟩
      by_cases hxn : x.key = n.key
      · rw [h.eq_of_key hx he (hxn.trans hkey.symm)]
        exact hzero
      · exact hrest.erased x (List.mem_filter.mpr ⟨hx, by simpa using hxn⟩) hnot
  | case3 s hlt =>
      exact ⟨h, rfl, fun _ he => he, fun e he hnot => absurd he hnot, fun hle => absurd hle hlt⟩

/-! ## Admission -/

/-- What `locate` leaves: the entry is in the table, and those that were erased were idle. -/
structure Located (m : Int32) (maxTracked : Nat) (key : String) (s s' : LimiterState R)
    (e : LimiterEntry R) : Prop where
  sound : s'.Sound m
  outstanding : s'.outstanding = s.outstanding
  mem : e ∈ s'.table
  key_eq : e.key = key
  erased : ∀ x ∈ s.table, x ∉ s'.table → x.inflight = 0
  full : s.find? key = none → maxTracked < s'.table.length → ∀ x ∈ s'.table,
    x.key ≠ key → x.inflight ≠ 0

theorem locate_located (h : s.Sound m) (hx : s.Exact) {key : String} (hne : key ≠ "") (now : Int) :
    Located m rl.maxTracked key s (rl.locate F s key now).1 (rl.locate F s key now).2 := by
  unfold locate
  cases hfind : s.find? key with
  | some e =>
      obtain ⟨he, hkey⟩ := LimiterState.find?_eq_some hfind
      refine ⟨h.splice _, s.splice_outstanding _, ?_, hkey, fun x hx hnot => ?_, fun hnone => ?_⟩
      · rw [LimiterState.splice_table]
        exact he
      · rw [LimiterState.splice_table] at hnot
        exact absurd hx hnot
      · exact absurd (hfind.symm.trans hnone) (by simp)
  | none =>
      have hroom : MakesRoom m rl.maxTracked s
          (if rl.maxTracked ≤ s.table.length then rl.evictLocked s else s) := by
        split
        · exact rl.evictLocked_makesRoom s h hx
        next hlt => exact ⟨h, rfl, fun _ he => he, fun e he hnot => absurd he hnot,
          fun hle => absurd hle hlt⟩
      have hnew : ∀ e ∈ (if rl.maxTracked ≤ s.table.length then rl.evictLocked s else s).table,
          e.key ≠ key :=
        fun e he => LimiterState.ne_of_find?_eq_none hfind e (hroom.kept e he)
      refine ⟨hroom.sound.insert hne hnew _ _, hroom.outstanding,
        List.mem_append_right _ (List.mem_singleton_self _), rfl,
        fun x hx hnot => hroom.erased x hx fun hin => hnot (List.mem_append_left _ hin),
        fun _ hlen x hx hkey => ?_⟩
      rcases List.mem_append.mp hx with hx | hx
      · refine hroom.full ?_ x hx
        rw [LimiterState.insert, List.length_append, List.length_singleton] at hlen
        omega
      · exact absurd (congrArg (·.key) (List.mem_singleton.mp hx)) hkey

theorem refill_place (e : LimiterEntry R) (now : Int) :
    (rl.refill F e now).toEntryPlace = e.toEntryPlace ∧ (rl.refill F e now).inflight =
      e.inflight := by
  unfold refill
  dsimp only
  split <;> exact ⟨rfl, rfl⟩

end RateLimiter

namespace LimiterState

variable {R : Type} {s : LimiterState R} {m : Int32} {e e' : LimiterEntry R}

theorem update_places (h : s.Sound m) (he : e ∈ s.table)
    (hplace : e'.toEntryPlace = e.toEntryPlace) : (s.update e').places = s.places := by
  simp only [places, update, List.map_map]
  refine List.map_congr_left fun x hx => ?_
  simp only [Function.comp_apply, hplace]
  split
  next haddr => rw [hplace, h.eq_of_addr hx he haddr]
  · rfl

/-- The entries after one has been written. -/
theorem mem_update (h : s.Sound m) (he : e ∈ s.table) (hplace : e'.toEntryPlace = e.toEntryPlace)
    {x : LimiterEntry R} : x ∈ (s.update e').table ↔ x = e' ∨ x ∈ s.table ∧ x ≠ e := by
  constructor
  · intro hx
    obtain ⟨y, hy, rfl⟩ := List.mem_map.mp hx
    split
    · exact .inl rfl
    next haddr => exact .inr ⟨hy, fun hye => haddr (by rw [hye, hplace])⟩
  · rintro (rfl | ⟨hx, hne⟩)
    · exact List.mem_map.mpr ⟨e, he, if_pos (by rw [hplace])⟩
    · refine List.mem_map.mpr ⟨x, hx, if_neg fun haddr => hne (h.eq_of_addr hx he ?_)⟩
      rw [haddr, hplace]

/-- The entry is written and the token with its slot, if there is one, handed out. -/
def grant (s : LimiterState R) (e : LimiterEntry R) (slot : Bool) : LimiterState R :=
  { s.update e with
    outstanding := (if slot then [⟨e.key, some e.addr⟩] else []) ++ s.outstanding }

theorem Sound.grant (h : s.Sound m) (he : e ∈ s.table) (hplace : e'.toEntryPlace = e.toEntryPlace)
    {slot : Bool} (hinflight : e'.inflight = e.inflight + if slot then 1 else 0)
    (hcap : slot → 0 < m → e.inflight < m) : (s.grant e' slot).Sound m := by
  have hmem : ∀ x, x ∈ (s.grant e' slot).table ↔ x = e' ∨ x ∈ s.table ∧ x ≠ e :=
    fun x => mem_update h he hplace
  have hkey : e'.key = e.key := congrArg (·.key) hplace
  have haddr : e'.addr = e.addr := congrArg (·.addr) hplace
  have hcount : ∀ a,
      (s.grant e' slot).holding a = s.holding a + if slot ∧ e.addr = a then 1 else 0 := by
    intro a
    rw [holding, LimiterState.grant, List.countP_append, haddr, add_comm]
    cases slot <;> simp [holding, List.countP_cons]
  constructor
  · show Linked (s.update e').places s.lru s.next
    rw [update_places h he hplace]
    exact h.linked
  · intro x hx
    rw [hcount]
    rcases (hmem x).mp hx with rfl | ⟨hx, hne⟩
    · rw [hinflight, haddr, h.counted e he]
      cases slot with
      | false => simp
      | true => simp [Int32.ofNat_add]
    · rw [if_neg fun hax => hne (h.eq_of_addr hx he hax.2.symm)]
      exact h.counted x hx
  · intro t ht a ha
    rcases List.mem_append.mp ht with ht | ht
    · cases slot with
      | false => cases ht
      | true =>
          obtain rfl := List.mem_singleton.mp ht
          exact ⟨e', (hmem e').mpr (.inl rfl), Option.some.inj ha, rfl⟩
    · obtain ⟨x, hx, hxa, hxk⟩ := h.live t ht a ha
      by_cases hxe : x = e
      · exact ⟨e', (hmem e').mpr (.inl rfl), by rw [haddr, ← hxe, hxa], by rw [hkey, ← hxe, hxk]⟩
      · exact ⟨x, (hmem x).mpr (.inr ⟨hx, hxe⟩), hxa, hxk⟩
  · intro hm x hx
    rw [hcount]
    rcases (hmem x).mp hx with rfl | ⟨hx, hne⟩
    · have hold := h.capped hm e he
      rw [haddr]
      cases slot with
      | false => simpa using hold
      | true =>
          have hroom := Int32.lt_iff_toInt_lt.mp (hcap rfl hm)
          rw [h.inflight_toInt hm he] at hroom
          simp only [and_self, if_true]
          omega
    · rw [if_neg fun hax => hne (h.eq_of_addr hx he hax.2.symm)]
      exact h.capped hm x hx
  · intro hm t ht hkey
    rcases List.mem_append.mp ht with ht | ht
    · cases slot with
      | false => cases ht
      | true => rw [List.mem_singleton.mp ht]; rfl
    · exact h.accounted hm t ht hkey
  · intro x hx
    rcases (hmem x).mp hx with rfl | ⟨hx, -⟩
    · exact hkey ▸ h.named e he
    · exact h.named x hx

end LimiterState

namespace RateLimiter

variable {R : Type} (rl : RateLimiter) (F : BucketArithmetic R) {s : LimiterState R}

/-- An admission that is accounted for writes the entry it has located and takes a slot if the limit
allows. -/
theorem step_admit (h : s.Sound rl.limits.maxInflight) (hx : s.Exact) (key : String) (now : Int) :
    (rl.enabled = true → key = "") ∧
        rl.step F s (.admitKey key now) = { s with outstanding := ⟨key, none⟩ :: s.outstanding } ∨
      ∃ s' e e', ∃ slot : Bool, Located rl.limits.maxInflight rl.maxTracked key s s' e ∧
        e'.toEntryPlace = e.toEntryPlace ∧ e'.inflight = e.inflight + (if slot then 1 else 0) ∧
        (slot → 0 < rl.limits.maxInflight → e.inflight < rl.limits.maxInflight) ∧
        rl.step F s (.admitKey key now) = s'.grant e' slot := by
  by_cases hskip : !rl.enabled || key.isEmpty
  · refine .inl ⟨fun hon => ?_, ?_⟩
    · simpa [hon] using hskip
    · simp only [step, admitKey, hskip, if_true, Option.toList_some, List.singleton_append]
  · right
    have hne : key ≠ "" := fun h => hskip (by simp [h])
    have hlocated := rl.locate_located F h hx hne now
    obtain ⟨hplace, hinflight⟩ := rl.refill_place F (rl.locate F s key now).2 now
    refine ⟨(rl.locate F s key now).1, (rl.locate F s key now).2, ?_⟩
    simp only [step, admitKey, if_neg hskip, enter]
    generalize rl.refill F (rl.locate F s key now).2 now = e at hplace hinflight ⊢
    split
    · exact ⟨e, false, hlocated, hplace, by simpa using hinflight, by simp, rfl⟩
    split
    · exact ⟨e, false, hlocated, hplace, by simpa using hinflight, by simp, rfl⟩
    next hfree =>
      refine ⟨_, true, hlocated, ?_, ?_, fun _ hm => ?_, rfl⟩
      · exact hplace
      · simp [hinflight]
      · rw [← hinflight]
        exact Int32.not_le.mp fun hle => hfree ⟨hm, hle⟩

theorem step_sound (h : s.Sound rl.limits.maxInflight) (hx : s.Exact) (ev : LimiterEvent) :
    (rl.step F s ev).Sound rl.limits.maxInflight := by
  cases ev with
  | release t =>
      simp only [step]
      split
      next ht => exact h.release ht
      · exact h
  | admitKey key now =>
      rcases rl.step_admit F h hx key now with
        ⟨hempty, heq⟩ | ⟨s', e, e', slot, hlocated, hplace, hinflight, hcap, heq⟩
      · rw [heq]
        have hcount : ∀ a,
            LimiterState.holding { s with outstanding := ⟨key, none⟩ :: s.outstanding } a =
            s.holding a := fun a => by simp [LimiterState.holding]
        refine ⟨h.linked, fun e he => ?_, fun t ht a ha => ?_, fun hm e he => ?_,
          fun hm t ht hkey => ?_, h.named⟩
        · rw [hcount]
          exact h.counted e he
        · rcases List.mem_cons.mp ht with rfl | ht
          · cases ha
          · exact h.live t ht a ha
        · rw [hcount]
          exact h.capped hm e he
        · rcases List.mem_cons.mp ht with rfl | ht
          · exact absurd (hempty (decide_eq_true (.inr hm))) hkey
          · exact h.accounted hm t ht hkey
      · rw [heq]
        exact hlocated.sound.grant hlocated.mem hplace hinflight hcap

/-- The tokens of every key that is accounted for are fewer than the counters can tell apart. -/
def FewTokens (es : List LimiterEvent) : Prop :=
  ∀ es', es' <+: es → ∀ key, key ≠ "" →
    (es'.foldl (rl.step F) {}).outstanding.countP (·.key = key) < 2 ^ 32

theorem exact_of_few (h : s.Sound rl.limits.maxInflight)
    (hfew : ∀ key, key ≠ "" → s.outstanding.countP (·.key = key) < 2 ^ 32) : s.Exact := by
  intro e he
  refine lt_of_le_of_lt (List.countP_mono_left fun t ht hentry => ?_) (hfew e.key (h.named e he))
  obtain ⟨x, hx, haddr, hkey⟩ := h.live t ht e.addr (of_decide_eq_true hentry)
  rw [← hkey, h.eq_of_addr hx he haddr, decide_eq_true_eq]

theorem run_sound (es : List LimiterEvent) (hfew : 0 < rl.limits.maxInflight ∨ rl.FewTokens F es) :
    (es.foldl (rl.step F) {}).Sound rl.limits.maxInflight ∧ (es.foldl (rl.step F) {}).Exact := by
  induction es using List.reverseRecOn with
  | nil => exact ⟨.initial _, by simp [LimiterState.Exact]⟩
  | append_singleton es ev ih =>
      obtain ⟨hsound, hexact⟩ := ih (hfew.imp_right fun h es' hes =>
        h es' (hes.trans (List.prefix_append _ _)))
      have hnext := rl.step_sound F hsound hexact ev
      have hrun : (es ++ [ev]).foldl (rl.step F) {} = rl.step F (es.foldl (rl.step F) {}) ev := by
        rw [List.foldl_append, List.foldl_cons, List.foldl_nil]
      rw [← hrun] at hnext
      exact ⟨hnext, hfew.elim hnext.exact_of_cap fun h =>
        rl.exact_of_few hnext (h _ (List.prefix_refl _))⟩

theorem step_erases (h : s.Sound rl.limits.maxInflight) (hx : s.Exact) (ev : LimiterEvent)
    {e : LimiterEntry R} (he : e ∈ s.table)
    (hgone : ∀ x ∈ (rl.step F s ev).table, x.addr ≠ e.addr) : e.inflight = 0 := by
  cases ev with
  | release t =>
      simp only [step] at hgone
      split at hgone
      · refine absurd ?_ (hgone _ (List.mem_map_of_mem he))
        split <;> rfl
      · exact absurd rfl (hgone e he)
  | admitKey key now =>
      rcases rl.step_admit F h hx key now with
        ⟨-, heq⟩ | ⟨s', x, x', slot, hlocated, hplace, -, -, heq⟩
      · rw [heq] at hgone
        exact absurd rfl (hgone e he)
      · rw [heq] at hgone
        refine hlocated.erased e he fun hin => ?_
        have hmem := LimiterState.mem_update hlocated.sound hlocated.mem hplace (x := e)
        by_cases hex : e = x
        · refine hgone x'
            ((LimiterState.mem_update hlocated.sound hlocated.mem hplace).mpr (.inl rfl)) ?_
          rw [hex, hplace]
        · exact hgone e (hmem.mpr (.inr ⟨hin, hex⟩)) rfl

theorem step_inserts (h : s.Sound rl.limits.maxInflight) (hx : s.Exact) {key : String} {now : Int}
    (hnew : s.find? key = none)
    (hlen : rl.maxTracked < (rl.step F s (.admitKey key now)).table.length)
    (hin : ∃ e ∈ (rl.step F s (.admitKey key now)).table, e.key = key) :
    ∀ e ∈ (rl.step F s (.admitKey key now)).table, e.key ≠ key → e.inflight ≠ 0 := by
  intro e he hkey
  rcases rl.step_admit F h hx key now with
    ⟨-, heq⟩ | ⟨s', x, x', slot, hlocated, hplace, -, -, heq⟩
  · obtain ⟨y, hy, hyk⟩ := hin
    rw [heq] at hy
    exact absurd hyk (LimiterState.ne_of_find?_eq_none hnew y hy)
  · rw [heq] at he hlen
    rcases (LimiterState.mem_update hlocated.sound hlocated.mem hplace).mp he with rfl | ⟨he, -⟩
    · exact absurd ((congrArg (·.key) hplace).trans hlocated.key_eq) hkey
    · refine hlocated.full hnew ?_ e he hkey
      simpa [LimiterState.grant, LimiterState.update] using hlen

/-- For every sequence of admissions and releases: all tokens of a key that is not empty keep to the
limit, the LRU list holds the table's keys and each entry points at its own node; and for every
further step: an entry is erased only while it has no token, and a key that is inserted into a table
that stays too large finds every other key in use. -/
theorem limiter_bounds_inflight (limits : RateLimits) (maxTracked : Nat) (es : List LimiterEvent)
    (hfew : 0 < limits.maxInflight ∨ (make limits maxTracked).FewTokens F es) :
    let rl := make limits maxTracked
    let s : LimiterState R := es.foldl (rl.step F) {}
    (0 < limits.maxInflight → ∀ key, key ≠ "" →
      (s.outstanding.countP (·.key = key) : Int) ≤ limits.maxInflight.toInt) ∧
    ((s.lru.map (·.key)).Nodup ∧ (s.lru.map (·.key)).Perm (s.table.map (·.key)) ∧
      ∀ e ∈ s.table, s.lru.filter (·.id = e.lru) = [⟨e.lru, e.key⟩]) ∧
    (∀ ev, ∀ e ∈ s.table, (∀ x ∈ (rl.step F s ev).table, x.addr ≠ e.addr) →
      ∀ t ∈ s.outstanding, t.entry ≠ some e.addr) ∧
    ∀ key now, (∀ e ∈ s.table, e.key ≠ key) →
      (∃ e ∈ (rl.step F s (.admitKey key now)).table, e.key = key) →
      maxTracked < (rl.step F s (.admitKey key now)).table.length →
      ∀ e ∈ (rl.step F s (.admitKey key now)).table, e.key ≠ key →
        ∃ t ∈ (rl.step F s (.admitKey key now)).outstanding, t.entry = some e.addr := by
  intro rl s
  have hlimit : rl.limits.maxInflight = limits.maxInflight := by
    simp only [rl, make]
    split <;> rfl
  obtain ⟨hsound, hexact⟩ : s.Sound rl.limits.maxInflight ∧ s.Exact :=
    rl.run_sound F es (hlimit.symm ▸ hfew)
  refine ⟨fun hpos key hne => ?_, ⟨?_, ?_, fun e he => ?_⟩, fun ev e he hgone t ht hentry => ?_,
    fun key now hnew hin hlen e he hkey => ?_⟩
  · rw [← hlimit] at hpos ⊢
    exact hsound.outstanding_le hpos hne
  · have hkeys := hsound.linked.nodes.map (·.key)
    rw [List.map_map] at hkeys
    exact hkeys.nodup_iff.mpr hsound.linked.keys
  · have hkeys := hsound.linked.nodes.map (·.key)
    simpa [LimiterState.places, Function.comp_def, EntryPlace.node] using hkeys
  · have hnodup : (s.lru.map (·.id)).Nodup := by
      have hids := hsound.linked.nodes.map (·.id)
      rw [List.map_map] at hids
      exact hids.nodup_iff.mpr hsound.linked.positions
    have hnode : e.node ∈ s.lru :=
      hsound.linked.nodes.mem_iff.mpr (List.mem_map_of_mem (List.mem_map_of_mem he))
    have hsame : s.lru.filter (·.id = e.lru) = s.lru.filter (· = e.node) :=
      List.filter_congr fun n hn => by
        rw [decide_eq_decide]
        exact ⟨fun hid => List.inj_on_of_nodup_map hnodup hn hnode hid, fun hid =>
          congrArg (·.id) hid⟩
    rw [hsame, List.filter_eq, List.count_eq_one_of_mem (List.Nodup.of_map _ hnodup) hnode]
    rfl
  · exact (LimiterState.Sound.holding_pos s e.addr).mp ⟨t, ht, hentry⟩
      (hsound.holding_eq_zero hexact he (rl.step_erases F hsound hexact ev he hgone))
  · have hafter := rl.step_sound F hsound hexact (.admitKey key now)
    refine (LimiterState.Sound.holding_pos _ e.addr).mpr fun hzero => ?_
    by_cases hone : rl.maxTracked < (rl.step F s (.admitKey key now)).table.length
    · refine rl.step_inserts F hsound hexact ?_ hone hin e he hkey ?_
      · rw [LimiterState.find?, List.find?_eq_none]
        exact fun x hx => by simpa using hnew x hx
      · rw [hafter.counted e he, hzero]
        rfl
    · -- A limit of zero counts as one, and then the inserted key is the only one.
      exfalso
      obtain ⟨x, hx, hxk⟩ := hin
      have hmax : rl.maxTracked = max 1 maxTracked := rfl
      have hle : (rl.step F s (.admitKey key now)).table.length ≤ 1 := by omega
      obtain ⟨i, hi⟩ := List.mem_iff_get.mp hx
      obtain ⟨j, hj⟩ := List.mem_iff_get.mp he
      have hij : i = j := Fin.ext (by omega)
      exact hkey (by rw [← hj, ← hij, hi, hxk])

/-- A bucket in whole numbers. -/
def wholeBuckets : BucketArithmetic Int :=
  ⟨id, (· + ·), (· - ·), (· * ·), fun a b => decide (a < b), id⟩

/-- Two keys in use in a table meant for one; a second request of the first key is refused. -/
theorem limiter_bounds_inflight_crowded :
    let s : LimiterState Int :=
      [.admitKey "a" 0, .admitKey "b" 0, .admitKey "a" 0].foldl
        ((make { maxInflight := 1 } 1).step wholeBuckets) {}
    1 < s.table.length ∧ s.outstanding.countP (·.key = "a") = 1 ∧
      (s.outstanding.countP (·.key = "a") : Int) ≤ 1 :=
  ⟨by decide +kernel, by decide +kernel,
    (limiter_bounds_inflight wholeBuckets { maxInflight := 1 } 1 _ (.inl (by decide))).1 (by decide)
      "a" (by decide)⟩

/-- Requests without a key are admitted beyond the limit. -/
theorem emptyKey_unlimited :
    let s : LimiterState Int :=
      [.admitKey "" 0, .admitKey "" 0].foldl ((make { maxInflight := 1 } 1).step wholeBuckets) {}
    ¬ (s.outstanding.countP (·.key = "") : Int) ≤ 1 := by
  decide +kernel

end RateLimiter
end Lights3
